import Mozkey.DictionaryLookupProofs

/-! # TokenScanIterator — a scan of the token array

    For reverse lookups the token array is read from its first byte on.  The scan knows the
    end by the flag byte of the terminator, and looks for it before every token; a token
    whose own flag byte is that of the terminator ends the scan. -/

namespace MozkeyDictionary

open ByteString MozkeyLouds MozkeySuccinct

/-! ## Reading for reverse lookups -/

namespace SystemDictionaryCodec

/-- `ReadValueInfo` at an offset: the id of the value and the next offset. -/
def readValueInfo (ptr : Bytes) (flags : UInt8) (offset : Nat) : Int × Nat :=
  if flags &&& kValueTypeFlagMask = kNormalValueFlag then
    let id := (byteAt ptr (offset + 1) <<< 8) ||| byteAt ptr offset
    if flags &&& kCrammedIDFlag ≠ 0 then
      ((id ||| ((ptr.getD 0 0 &&& kUpperCrammedIDMask).toNat <<< 16) : Nat), offset + 2)
    else ((id ||| (byteAt ptr (offset + 2) <<< 16) : Nat), offset + 3)
  else (-1, offset)

/-- `ReadTokenForReverseLookup`: the id of the value, the number of bytes read, and whether
    there is another token. -/
def readTokenForReverseLookup (ptr : Bytes) : Int × Nat × Bool :=
  let flags := readFlags (ptr.getD 0 0)
  let posFlag := flags &&& kPosTypeFlagMask
  let offset :=
    if posFlag = kFrequentPosFlag then 1 + 1
    else if posFlag = kMonoPosFlag then 1 + 2
    else if posFlag = kFullPosFlag then 1 + 3
    else 1
  let offset := if ptr.getD offset 0 &&& kSmallCostFlag ≠ 0 then offset + 1 else offset + 2
  let (valueId, offset) := readValueInfo ptr flags offset
  (valueId, offset, flags &&& kLastTokenFlag = 0)

end SystemDictionaryCodec

open SystemDictionaryCodec

theorem decodePos_spec (ptr : Bytes) (flags : UInt8) (info : TokenInfo) (offset : Nat) :
    (decodePos ptr flags info offset).1.idInValueTrie = info.idInValueTrie ∧
    (decodePos ptr flags info offset).2
      = (if flags &&& kPosTypeFlagMask = kFrequentPosFlag then offset + 1
        else if flags &&& kPosTypeFlagMask = kMonoPosFlag then offset + 2
        else if flags &&& kPosTypeFlagMask = kFullPosFlag then offset + 3
        else offset) := by
  rw [decodePos]
  dsimp only
  by_cases hfrequent : flags &&& kPosTypeFlagMask = kFrequentPosFlag
  · rw [if_pos hfrequent, if_pos hfrequent]
    exact ⟨rfl, rfl⟩
  rw [if_neg hfrequent, if_neg hfrequent]
  by_cases hsame : flags &&& kPosTypeFlagMask = kSameAsPrevPosFlag
  · rw [if_pos hsame, hsame, if_neg (by decide), if_neg (by decide)]
    exact ⟨rfl, rfl⟩
  rw [if_neg hsame]
  split_ifs
  · exact ⟨rfl, rfl⟩
  · exact ⟨rfl, rfl⟩
  · exact ⟨rfl, rfl⟩

theorem decodeCost_spec (ptr : Bytes) (info : TokenInfo) (offset : Nat) :
    (decodeCost ptr info offset).1.idInValueTrie = info.idInValueTrie ∧
    (decodeCost ptr info offset).2
      = (if ptr.getD offset 0 &&& kSmallCostFlag ≠ 0 then offset + 1 else offset + 2) := by
  rw [decodeCost]
  split_ifs
  · exact ⟨rfl, rfl⟩
  · exact ⟨rfl, rfl⟩

theorem valueFlag_cases : ∀ flags : UInt8, flags &&& kValueTypeFlagMask = kNormalValueFlag ∨
    flags &&& kValueTypeFlagMask = kAsIsHiraganaValueFlag ∨
    flags &&& kValueTypeFlagMask = kAsIsKatakanaValueFlag ∨
    flags &&& kValueTypeFlagMask = kSameAsPrevValueFlag := by
  intro flags
  have hmod : (flags &&& kValueTypeFlagMask).toNat = flags.toNat % 4 := by
    rw [UInt8.toNat_and]
    exact Nat.and_two_pow_sub_one_eq_mod _ 2
  have hlt : flags.toNat % 4 = 0 ∨ flags.toNat % 4 = 1 ∨ flags.toNat % 4 = 2 ∨
      flags.toNat % 4 = 3 := by omega
  rcases hlt with h | h | h | h
  · exact Or.inl (UInt8.toNat_inj.mp (hmod.trans h))
  · exact Or.inr (Or.inl (UInt8.toNat_inj.mp (hmod.trans h)))
  · exact Or.inr (Or.inr (Or.inl (UInt8.toNat_inj.mp (hmod.trans h))))
  · exact Or.inr (Or.inr (Or.inr (UInt8.toNat_inj.mp (hmod.trans h))))

theorem decodeValueInfo_spec (ptr : Bytes) (flags : UInt8) (info : TokenInfo)
    (hinfo : info.idInValueTrie = -1) (offset : Nat) :
    SystemDictionaryCodec.readValueInfo ptr flags offset
      = ((decodeValueInfo ptr flags info offset).1.idInValueTrie,
      (decodeValueInfo ptr flags info offset).2) := by
  have hkinds : ∀ flag ∈ [kAsIsHiraganaValueFlag, kAsIsKatakanaValueFlag, kSameAsPrevValueFlag],
      ¬ flag = kNormalValueFlag ∧ ¬ kNormalValueFlag = flag := by
    simp only [List.forall_mem_cons, List.not_mem_nil, false_imp_iff,
    implies_true, and_true]
    decide
  have hhiragana := hkinds kAsIsHiraganaValueFlag (by decide)
  have hkatakana := hkinds kAsIsKatakanaValueFlag (by decide)
  have hsame := hkinds kSameAsPrevValueFlag (by decide)
  have hne : ¬ kAsIsKatakanaValueFlag = kAsIsHiraganaValueFlag ∧
      ¬ kSameAsPrevValueFlag = kAsIsHiraganaValueFlag ∧
      ¬ kSameAsPrevValueFlag = kAsIsKatakanaValueFlag := by decide
  rw [SystemDictionaryCodec.readValueInfo, decodeValueInfo]
  dsimp only
  rcases valueFlag_cases flags with h | h | h | h
  · rw [h, if_pos rfl, if_neg hhiragana.2, if_neg hkatakana.2, if_neg hsame.2]
    by_cases hcrammed : flags &&& kCrammedIDFlag ≠ 0
    · rw [if_pos hcrammed, if_pos hcrammed]
    · rw [if_neg hcrammed, if_neg hcrammed]
  · rw [h, if_neg hhiragana.1, if_pos rfl, ← hinfo]
  · rw [h, if_neg hkatakana.1, if_neg hne.1, if_pos rfl, ← hinfo]
  · rw [h, if_neg hsame.1, if_neg hne.2.1, if_neg hne.2.2, if_pos rfl, ← hinfo]

/-- **THE SCAN READS WHAT THE DECODER READS** over a token without an id. -/
theorem readTokenForReverseLookup_eq (ptr : Bytes) {info : TokenInfo}
    (hinfo : info.idInValueTrie = -1) :
    readTokenForReverseLookup ptr = ((decodeToken ptr info).1.idInValueTrie,
      (decodeToken ptr info).2.1, (decodeToken ptr info).2.2) := by
  rw [readTokenForReverseLookup, decodeToken]
  dsimp only
  have hattributes : (if readFlags (ptr.getD 0 0) &&& kSpellingCorrectionFlag ≠ 0 then
      { info with token := { info.token with attributes := attributeSpellingCorrection } }
      else info).idInValueTrie = -1 := by
    split_ifs
    · exact hinfo
    · exact hinfo
  generalize (if readFlags (ptr.getD 0 0) &&& kSpellingCorrectionFlag ≠ 0 then
      { info with token := { info.token with attributes := attributeSpellingCorrection } }
      else info) = info' at hattributes ⊢
  obtain ⟨hposId, hpos⟩ := decodePos_spec ptr (readFlags (ptr.getD 0 0)) info' 1
  rw [← hpos]
  obtain ⟨hcostId, hcost⟩ := decodeCost_spec ptr
    (decodePos ptr (readFlags (ptr.getD 0 0)) info' 1).1
    (decodePos ptr (readFlags (ptr.getD 0 0)) info' 1).2
  rw [← hcost, decodeValueInfo_spec ptr _ _ (hcostId.trans (hposId.trans hattributes))]

/-! ## The flag byte of the terminator -/

/-- A token whose flag byte, where it is the last one, is that of the terminator. -/
structure LooksTerminated (info : TokenInfo) : Prop where
  posType : info.posType = .frequentPos
  valueType : info.valueType = .defaultValue
  spelling : isSpelling info = false
  id : 0x3f0000 ≤ info.idInValueTrie

theorem flags_ne_termination : ∀ last spelling : Bool, ∀ pos ∈ posFlags, ∀ value ∈ valueFlags,
    isCrammed spelling pos value = false →
    cramFlags (tokenFlags last spelling pos value) ||| 0 ≠ kTokenTerminationFlag := by
  intro last spelling
  simp only [posFlags, valueFlags, List.forall_mem_cons, List.not_mem_nil, false_imp_iff,
    implies_true, and_true]
  cases last <;> cases spelling <;> decide

theorem flags_eq_termination : ∀ last : Bool, ∀ upper < 0x40,
    (cramFlags (tokenFlags last false kFrequentPosFlag kNormalValueFlag)
      ||| (UInt8.ofNat upper &&& kUpperCrammedIDMask)) = kTokenTerminationFlag ↔
      last = true ∧ upper = 0x3f := by decide

theorem posFlagOf_eq_frequent {info : TokenInfo} :
    posFlagOf info = kFrequentPosFlag ↔ info.posType = .frequentPos := by
  rw [posFlagOf]
  cases info.posType with
  | frequentPos => exact ⟨fun _ => rfl, fun _ => rfl⟩
  | sameAsPrevPos =>
    rw [if_neg (by decide), if_pos rfl]
    exact ⟨fun h => absurd h (by decide), fun h => absurd h (by decide)⟩
  | defaultPos =>
    refine ⟨fun h => ?_, fun h => absurd h (by decide)⟩
    rw [if_neg (by decide), if_neg (by decide)] at h
    split_ifs at h
    · exact absurd h (by decide)
    · exact absurd h (by decide)

theorem getFlagForValue_eq_normal {info : TokenInfo} :
    getFlagForValue info = kNormalValueFlag ↔ info.valueType = .defaultValue := by
  rw [getFlagForValue]
  cases info.valueType with
  | defaultValue => exact ⟨fun _ => rfl, fun _ => rfl⟩
  | sameAsPrevValue => exact ⟨fun h => absurd h (by decide), fun h => absurd h (by decide)⟩
  | asIsHiragana => exact ⟨fun h => absurd h (by decide), fun h => absurd h (by decide)⟩
  | asIsKatakana => exact ⟨fun h => absurd h (by decide), fun h => absurd h (by decide)⟩

theorem isCrammed_eq_true {info : TokenInfo} :
    isCrammed (isSpelling info) (posFlagOf info) (getFlagForValue info) = true ↔
      isSpelling info = false ∧ info.posType = .frequentPos ∧ info.valueType = .defaultValue := by
  rw [isCrammed, Bool.and_eq_true, Bool.and_eq_true, beq_iff_eq, beq_iff_eq, Bool.not_eq_true',
    posFlagOf_eq_frequent, getFlagForValue_eq_normal, and_assoc]

variable {tokens : List TokenInfo}

theorem firstByte_of_encodeToken {index : Nat} {output : Bytes}
    (h : encodeToken tokens index = some output) :
    ∃ flags info value, getFlagsForToken tokens index = some flags ∧ tokens[index]? = some info ∧
      encodeValueInfo info flags = some value ∧ output.getD 0 0 = flags ||| value.1 := by
  simp only [encodeToken, Option.bind_eq_bind, Option.bind_eq_some_iff] at h
  obtain ⟨flags, hflags, info, hinfo, pos, -, cost, -, value, hvalue, h⟩ := h
  refine ⟨flags, info, value, hflags, hinfo, hvalue, ?_⟩
  by_cases hle : ((flags ||| value.1) :: (pos ++ (cost ++ value.2))).length ≤ 9
  · rw [if_pos hle] at h
    rw [← Option.some.inj h]
    rfl
  · rw [if_neg hle] at h
    cases h

/-- **WHEN THE FLAG BYTE IS THAT OF THE TERMINATOR**: the token is the last one, and the six
    upper bits of its id are crammed into the flag byte and are all set. -/
theorem firstByte_encodeToken {index : Nat} {info : TokenInfo} (hget : tokens[index]? = some info)
    (h : EncodableAt index info) {output : Bytes} (houtput : encodeToken tokens index = some output)
    :
    output.getD 0 0 = kTokenTerminationFlag ↔ index = tokens.length - 1 ∧ LooksTerminated info := by
  obtain ⟨flags, info', value, hflags, hget', hvalue, hfirst⟩ := firstByte_of_encodeToken houtput
  obtain rfl := Option.some.inj (hget.symm.trans hget')
  rw [getFlagsForToken_eq hget h.toEncodable h.first] at hflags
  obtain ⟨hreads, -⟩ := cramFlags_readsAs (decide (index = tokens.length - 1)) (isSpelling info) _
    (posFlagOf_mem info) _ (getFlagForValue_mem info)
  rw [Option.some.inj hflags] at hreads
  rw [hfirst]
  by_cases hcrammed : isCrammed (isSpelling info) (posFlagOf info) (getFlagForValue info) = true
  · obtain ⟨hspelling, hpos, htype⟩ := isCrammed_eq_true.mp hcrammed
    obtain ⟨h0, h1⟩ := h.value htype
    obtain ⟨id, hid⟩ := Int.eq_ofNat_of_zero_le h0
    have hle : id ≤ kValueTrieIdMax := by omega
    have hle' : id ≤ 0x3fffff := hle
    have hto : (info.idInValueTrie % 2 ^ 32).toNat = id := by omega
    have hupper : value.1 = UInt8.ofNat (id >>> 16) &&& kUpperCrammedIDMask := by
      have hbits := hreads.crammed_eq
      rw [hcrammed] at hbits
      simp only [encodeValueInfo, hto] at hvalue
      rw [if_neg (fun hc => hc (hreads.value_eq.trans (getFlagForValue_eq_normal.mpr htype))),
        if_neg (Nat.not_lt.mpr hle), if_pos (of_decide_eq_true hbits)] at hvalue
      rw [← Option.some.inj hvalue]
    rw [hupper, ← Option.some.inj hflags, hspelling, posFlagOf_eq_frequent.mpr hpos,
      getFlagForValue_eq_normal.mpr htype,
      flags_eq_termination _ (id >>> 16) (by rw [Nat.shiftRight_eq_div_pow]; omega),
      decide_eq_true_eq, Nat.shiftRight_eq_div_pow]
    constructor
    · rintro ⟨hlast, heq⟩
      exact ⟨hlast, hpos, htype, hspelling, by omega⟩
    · rintro ⟨hlast, hlooks⟩
      have := hlooks.id
      exact ⟨hlast, by omega⟩
  · have hfalse := Bool.not_eq_true _ |>.mp hcrammed
    have hupper : value.1 = 0 := by
      have hbits := hreads.crammed_eq
      rw [hfalse] at hbits
      simp only [encodeValueInfo, if_neg (of_decide_eq_false hbits)] at hvalue
      split_ifs at hvalue
      · rw [← Option.some.inj hvalue]
      · rw [← Option.some.inj hvalue]
    constructor
    · intro heq
      rw [hupper, ← Option.some.inj hflags] at heq
      exact absurd heq (flags_ne_termination _ _ _ (posFlagOf_mem info) _ (getFlagForValue_mem info)
        hfalse)
    · rintro ⟨-, hlooks⟩
      exact absurd
        (isCrammed_eq_true.mpr ⟨hlooks.spelling, hlooks.posType, hlooks.valueType⟩) hcrammed

/-! ## The iterator of the source -/

/-- The least size of an element. -/
def kMinTokenArrayBlobSize : Nat := 4

/-- `TokenScanIterator::Result`. -/
structure ScanResult where
  valueId : Int
  index : Nat
  tokensOffset : Nat
deriving DecidableEq

/-- `TokenScanIterator`; `done` is its state. -/
structure TokenScanIterator where
  encodedTokens : Bytes
  done : Bool := false
  result : ScanResult := ⟨-1, 0, 0⟩
  offset : Nat := 0
  tokensOffset : Nat := 0
  index : Nat := 0

namespace TokenScanIterator

/-- `NextInternal`. -/
def nextInternal (it : TokenScanIterator) : TokenScanIterator :=
  if it.encodedTokens.getD it.offset 0 = kTokenTerminationFlag then { it with done := true }
  else
    let (valueId, readBytes, more) :=
      readTokenForReverseLookup (it.encodedTokens.drop it.offset)
    let it := { it with result := ⟨valueId, it.index, it.tokensOffset⟩ }
    if !more then
      let tokensSize := it.offset + readBytes - it.tokensOffset
      let tokensSize :=
        if tokensSize < kMinTokenArrayBlobSize then kMinTokenArrayBlobSize else tokensSize
      { it with
        tokensOffset := it.tokensOffset + tokensSize
        index := it.index + 1
        offset := it.tokensOffset + tokensSize }
    else { it with offset := it.offset + readBytes }

end TokenScanIterator

/-- A `for` loop over the iterator: the results it gets; `none` where it does not end. -/
def scanLoop : Nat → TokenScanIterator → Option (List ScanResult)
  | 0, _ => none
  | fuel + 1, it =>
    if it.done then some [] else (scanLoop fuel it.nextInternal).map (it.result :: ·)

/-- The results of a scan of the token array. -/
def scanTokens (fuel : Nat) (tokenArray : BitVectorBasedArray) : Option (List ScanResult) :=
  scanLoop fuel
    ({ encodedTokens := tokenArray.bytesFrom 0 } : TokenScanIterator).nextInternal

/-! ## The tokens of a key -/

/-- The bytes of a token for the scan. -/
structure ScannedToken (info : TokenInfo) (last : Bool) (output : Bytes) : Prop where
  reads : ReadsToken info last output
  ne_nil : output ≠ []
  first : output.getD 0 0 = kTokenTerminationFlag ↔ last = true ∧ LooksTerminated info

theorem exists_scanned (h : ∀ index info, tokens[index]? = some info → EncodableAt index info) :
    ∃ outputs, EachOutput ScannedToken tokens outputs ∧
      encodeTokens tokens = if outputs.flatten.getD 0 0 ≠ kTokenTerminationFlag
        then some outputs.flatten else none := by
  refine exists_eachOutput ?_
  intro index info hget
  obtain ⟨output, houtput, hreads⟩ := decodeToken_encodeToken hget (h index info hget)
  refine ⟨output, houtput, hreads, ?_, ?_⟩
  · rintro rfl
    simp only [encodeToken, Option.bind_eq_bind, Option.bind_eq_some_iff] at houtput
    obtain ⟨flags, -, info, -, pos, -, cost, -, value, -, h⟩ := houtput
    split_ifs at h
    cases h
  · rw [firstByte_encodeToken hget (h index info hget) houtput, decide_eq_true_eq]

/-- The id that the scan finds for a token. -/
def valueIdOf (info : TokenInfo) : Int :=
  if info.valueType = .defaultValue then info.idInValueTrie else -1

theorem ScannedToken.readTokenForReverseLookup_eq {info : TokenInfo} {last : Bool} {output : Bytes}
    (h : ScannedToken info last output) (rest : Bytes) :
    readTokenForReverseLookup (output ++ rest) = (valueIdOf info, output.length, !last) := by
  have hread := h.reads rest { token := info.token }
  rw [readToken_cleared] at hread
  rw [MozkeyDictionary.readTokenForReverseLookup_eq (output ++ rest)
    (rfl : ({ token := info.token } : TokenInfo).idInValueTrie = -1), hread]
  rfl

theorem ScannedToken.getD_append {info : TokenInfo} {last : Bool} {output : Bytes}
    (h : ScannedToken info last output) (rest : Bytes) :
    (output ++ rest).getD 0 0 = output.getD 0 0 := by
  cases output with
  | nil => exact absurd rfl h.ne_nil
  | cons byte output => rfl

/-- The results for the tokens of a key. -/
def blockResults (index tokensOffset : Nat) (infos : List TokenInfo) : List ScanResult :=
  infos.map (fun info => ⟨valueIdOf info, index, tokensOffset⟩)

/-- The last token of a key ends the scan. -/
def EndsScan (infos : List TokenInfo) : Prop :=
  ∃ info, infos.getLast? = some info ∧ LooksTerminated info

instance (info : TokenInfo) : Decidable (LooksTerminated info) :=
  decidable_of_iff (info.posType = .frequentPos ∧ info.valueType = .defaultValue ∧
      isSpelling info = false ∧ 0x3f0000 ≤ info.idInValueTrie)
    ⟨fun ⟨h1, h2, h3, h4⟩ => ⟨h1, h2, h3, h4⟩, fun ⟨h1, h2, h3, h4⟩ => ⟨h1, h2, h3, h4⟩⟩

instance (infos : List TokenInfo) : Decidable (EndsScan infos) :=
  match h : infos.getLast? with
  | none => isFalse (fun ⟨_, h', _⟩ => nomatch h.symm.trans h')
  | some info => decidable_of_iff (LooksTerminated info)
      ⟨fun h' => ⟨info, h, h'⟩, fun ⟨_, h', h''⟩ => Option.some.inj (h.symm.trans h') ▸ h''⟩

theorem endsScan_cons_cons {info info' : TokenInfo} {infos : List TokenInfo} :
    EndsScan (info :: info' :: infos) ↔ EndsScan (info' :: infos) := by
  rw [EndsScan, EndsScan, List.getLast?_cons_cons]

theorem endsScan_singleton {info : TokenInfo} : EndsScan [info] ↔ LooksTerminated info := by
  refine ⟨?_, fun h => ⟨info, rfl, h⟩⟩
  rintro ⟨info', heq, h⟩
  rw [List.getLast?_singleton] at heq
  rw [Option.some.inj heq]
  exact h

section

variable {it : TokenScanIterator} {info : TokenInfo} {last : Bool} {output rest : Bytes}

theorem getD_drop (bytes : Bytes) (n : Nat) : bytes.getD n 0 = (bytes.drop n).getD 0 0 := by
  rw [List.getD_eq_getElem?_getD, List.getD_eq_getElem?_getD, List.getElem?_drop, Nat.add_zero]

theorem nextInternal_of_termination (hdrop : it.encodedTokens.drop it.offset = rest)
    (hfirst : rest.getD 0 0 = kTokenTerminationFlag) :
    it.nextInternal = { it with done := true } := by
  rw [TokenScanIterator.nextInternal, getD_drop, hdrop, if_pos hfirst]

section

variable (h : ScannedToken info last output)
  (hdrop : it.encodedTokens.drop it.offset = output ++ rest)
  (hnot : ¬ (last = true ∧ LooksTerminated info))
include h hdrop hnot

/-- **A TOKEN IS VISITED.** -/
theorem nextInternal_of_token : it.nextInternal
    = { it with
        result := ⟨valueIdOf info, it.index, it.tokensOffset⟩
        offset := if last then it.tokensOffset + max 4 (it.offset + output.length - it.tokensOffset)
          else it.offset + output.length
        tokensOffset := if last then
            it.tokensOffset + max 4 (it.offset + output.length - it.tokensOffset)
          else it.tokensOffset
        index := if last then it.index + 1 else it.index } := by
  have hfirst : ¬ it.encodedTokens.getD it.offset 0 = kTokenTerminationFlag := by
    rw [getD_drop, hdrop, h.getD_append, h.first]
    exact hnot
  rw [TokenScanIterator.nextInternal, if_neg hfirst, hdrop, h.readTokenForReverseLookup_eq]
  cases last with
  | false => rfl
  | true =>
    have hmax : ∀ n,
        (if n < kMinTokenArrayBlobSize then kMinTokenArrayBlobSize else n) = max 4 n := by
      intro n
      rw [kMinTokenArrayBlobSize]
      split_ifs
      · omega
      · omega
    dsimp only [Bool.not_true, Bool.not_false]
    rw [if_pos rfl, hmax]
    rfl

end

end

theorem nextInternal_of_more {info : TokenInfo} {output rest : Bytes} {it : TokenScanIterator}
    (htoken : ScannedToken info false output)
    (hdrop : it.encodedTokens.drop it.offset = output ++ rest) :
    it.nextInternal = { it with
        result := ⟨valueIdOf info, it.index, it.tokensOffset⟩
        offset := it.offset + output.length } ∧
      it.nextInternal.encodedTokens.drop it.nextInternal.offset = rest := by
  have hnext := nextInternal_of_token htoken hdrop fun hc => nomatch hc.1
  refine ⟨hnext, ?_⟩
  rw [hnext]
  show it.encodedTokens.drop (it.offset + output.length) = _
  rw [← List.drop_drop, hdrop, List.drop_left]

/-- **THE TOKENS OF A KEY ARE VISITED**, and the scan goes on at the next key; the induction
    is on the tokens that are not yet visited. -/
theorem scanLoop_block : ∀ {infos : List TokenInfo} {outputs : List Bytes} {it : TokenScanIterator}
    {rest : Bytes} (fuel : Nat), EachOutput ScannedToken infos outputs → infos ≠ [] →
    ¬ EndsScan infos → it.done = false →
    it.encodedTokens.drop it.offset = outputs.flatten ++ rest →
    ∃ it' : TokenScanIterator, it'.done = false ∧ it'.encodedTokens = it.encodedTokens ∧
      it'.index = it.index + 1 ∧ it'.offset = it'.tokensOffset ∧
      it'.tokensOffset
        = it.tokensOffset + max 4 (it.offset + outputs.flatten.length - it.tokensOffset) ∧
      scanLoop (infos.length + fuel) it.nextInternal
        = (scanLoop fuel it'.nextInternal).map
            (blockResults it.index it.tokensOffset infos ++ ·) := by
  intro infos
  induction infos with
  | nil => intro _ _ _ _ _ hne; exact absurd rfl hne
  | cons info infos ih =>
    intro outputs it rest fuel heach _ hends hdone hdrop
    cases outputs with
    | nil => exact absurd heach id
    | cons output outputs =>
      obtain ⟨htoken, heach⟩ := heach
      rw [List.flatten_cons, List.append_assoc] at hdrop
      cases infos with
      | nil =>
        cases outputs with
        | cons _ _ => exact absurd heach id
        | nil =>
          have hnot : ¬ (([] : List TokenInfo).isEmpty = true ∧ LooksTerminated info) :=
            fun hc => hends (endsScan_singleton.mpr hc.2)
          have hnext := nextInternal_of_token htoken hdrop hnot
          refine ⟨it.nextInternal, ?_, ?_, ?_, ?_, ?_, ?_⟩
          · rw [hnext]; exact hdone
          · rw [hnext]
          · rw [hnext]; rfl
          · rw [hnext]; rfl
          · rw [hnext, List.flatten_cons, List.flatten_nil, List.append_nil]; rfl
          · rw [List.length_singleton, Nat.add_comm, scanLoop,
              if_neg (by rw [hnext]; show ¬ it.done = true; rw [hdone]; decide), hnext]
            rfl
      | cons info' infos =>
        obtain ⟨hnext, hdrop'⟩ := nextInternal_of_more htoken hdrop
        obtain ⟨it', hdone', htokens', hindex', hoffset', htokensOffset', hloop⟩ :=
          ih fuel heach (List.cons_ne_nil _ _)
            (fun hc => hends (endsScan_cons_cons.mpr hc)) (by rw [hnext]; exact hdone) hdrop'
        refine ⟨it', hdone', ?_, ?_, hoffset', ?_, ?_⟩
        · rw [htokens', hnext]
        · rw [hindex', hnext]
        · rw [htokensOffset', hnext, List.flatten_cons, List.length_append]
          rw [Nat.add_assoc it.offset]
        · rw [List.length_cons, Nat.add_right_comm, scanLoop,
            if_neg (by rw [hnext]; show ¬ it.done = true; rw [hdone]; decide), hloop, hnext,
            Option.map_map]
          rfl

/-- **A LAST TOKEN THAT LOOKS LIKE THE TERMINATOR** ends the scan before it is visited. -/
theorem scanLoop_endsScan : ∀ {infos : List TokenInfo} {outputs : List Bytes}
    {it : TokenScanIterator} {rest : Bytes} (fuel : Nat), EachOutput ScannedToken infos outputs →
    EndsScan infos → it.done = false → it.encodedTokens.drop it.offset = outputs.flatten ++ rest →
    scanLoop (infos.length + fuel) it.nextInternal
      = some (blockResults it.index it.tokensOffset infos.dropLast) := by
  intro infos
  induction infos with
  | nil => intro _ _ _ _ _ hends; exact nomatch hends.choose_spec.1
  | cons info infos ih =>
    intro outputs it rest fuel heach hends hdone hdrop
    cases outputs with
    | nil => exact absurd heach id
    | cons output outputs =>
      obtain ⟨htoken, heach⟩ := heach
      rw [List.flatten_cons, List.append_assoc] at hdrop
      cases infos with
      | nil =>
        have hfirst : (output ++ (outputs.flatten ++ rest)).getD 0 0
            = kTokenTerminationFlag := by
          rw [htoken.getD_append, htoken.first]
          exact ⟨rfl, endsScan_singleton.mp hends⟩
        rw [nextInternal_of_termination hdrop hfirst, List.length_singleton, Nat.add_comm,
          scanLoop, if_pos rfl]
        rfl
      | cons info' infos =>
        obtain ⟨hnext, hdrop'⟩ := nextInternal_of_more htoken hdrop
        rw [List.length_cons, Nat.add_right_comm, scanLoop,
          if_neg (by rw [hnext]; show ¬ it.done = true; rw [hdone]; decide),
          ih fuel heach (endsScan_cons_cons.mp hends) (by rw [hnext]; exact hdone) hdrop',
          hnext]
        rfl

/-! ## The scan of a built array -/

/-- What a scan finds, up to a last token that looks like the terminator. -/
def scanResults (element : KeyInfo → Bytes) : Nat → Nat → List KeyInfo → List ScanResult
  | _, _, [] => []
  | index, tokensOffset, keyInfo :: rest =>
    if EndsScan keyInfo.tokens then blockResults index tokensOffset keyInfo.tokens.dropLast
    else
      blockResults index tokensOffset keyInfo.tokens ++
        scanResults element (index + 1) (tokensOffset + (padded4 (element keyInfo)).length) rest

theorem length_padded4 (element : Bytes) : (padded4 element).length = max 4 element.length := by
  rw [padded4, List.length_append, List.length_replicate]
  omega

/-- The tokens of a key are encoded for the scan as the element. -/
def ScannedKey (keyInfo : KeyInfo) (element : Bytes) : Prop :=
  keyInfo.tokens ≠ [] ∧ ∃ outputs, element = outputs.flatten ∧
    EachOutput ScannedToken keyInfo.tokens outputs

/-- **THE SCAN OF ALL KEYS**; the induction is on the keys that are not yet scanned. -/
theorem scanLoop_eq {element : KeyInfo → Bytes} : ∀ {keys : List KeyInfo} {it : TokenScanIterator}
    {fuel : Nat}, (∀ keyInfo ∈ keys, ScannedKey keyInfo (element keyInfo)) → it.done = false →
    it.offset = it.tokensOffset →
    it.encodedTokens.drop it.offset
      = keys.flatMap (fun keyInfo => padded4 (element keyInfo)) ++ padded4 [kTokenTerminationFlag] →
    (keys.map (fun keyInfo => keyInfo.tokens.length)).sum < fuel →
    scanLoop fuel it.nextInternal = some (scanResults element it.index it.tokensOffset keys) := by
  intro keys
  induction keys with
  | nil =>
    intro it fuel _ _ _ hdrop hfuel
    obtain ⟨fuel, rfl⟩ := Nat.exists_eq_succ_of_ne_zero (Nat.ne_of_gt (Nat.zero_lt_of_lt hfuel))
    rw [nextInternal_of_termination hdrop rfl, scanLoop, if_pos rfl]
    rfl
  | cons keyInfo rest ih =>
    intro it fuel hscanned hdone hoffset hdrop hfuel
    obtain ⟨hne, outputs, helement, heach⟩ := hscanned keyInfo List.mem_cons_self
    rw [List.map_cons, List.sum_cons] at hfuel
    obtain ⟨fuel, rfl⟩ := Nat.exists_eq_add_of_le
      (show keyInfo.tokens.length ≤ fuel from by omega)
    have hblock : it.encodedTokens.drop it.offset = outputs.flatten ++
        (List.replicate (4 - (element keyInfo).length) 0 ++
          (rest.flatMap (fun keyInfo => padded4 (element keyInfo)) ++
            padded4 [kTokenTerminationFlag])) := by
      rw [hdrop, List.flatMap_cons, padded4, helement]
      simp only [List.append_assoc]
    rw [scanResults]
    by_cases hends : EndsScan keyInfo.tokens
    · rw [if_pos hends]
      exact scanLoop_endsScan fuel heach hends hdone hblock
    · rw [if_neg hends]
      obtain ⟨it', hdone', htokens, hindex, hoffset', htokensOffset, hloop⟩ :=
        scanLoop_block fuel heach hne hends hdone hblock
      have hlen : it'.tokensOffset = it.tokensOffset + (padded4 (element keyInfo)).length := by
        rw [htokensOffset, length_padded4, hoffset, helement]
        omega
      rw [hloop, ih (fun k hk => hscanned k (List.mem_cons_of_mem _ hk)) hdone' hoffset' ?_
        (by omega), hindex, hlen]
      · rfl
      · rw [htokens, hoffset', hlen, ← hoffset, ← List.drop_drop, hdrop, List.flatMap_cons,
          List.append_assoc, List.drop_left]

/-- The tokens are within the limits of the codec, and the first one does not refer to a
    token before it. -/
def WithinLimits (tokens : List TokenInfo) : Prop :=
  tokens ≠ [] ∧ ∀ index info, tokens[index]? = some info → EncodableAt index info

/-- The bytes of a key. -/
def elementOf (keyInfo : KeyInfo) : Bytes := (encodeTokens keyInfo.tokens).getD []

theorem encodeTokens_elementOf {keyInfo : KeyInfo}
    (h : ∃ element, encodeTokens keyInfo.tokens = some element) :
    encodeTokens keyInfo.tokens = some (elementOf keyInfo) := by
  obtain ⟨element, hencode⟩ := h
  rw [elementOf, hencode]
  rfl

theorem length_elementOf_le (keyInfo : KeyInfo) :
    (elementOf keyInfo).length ≤ 9 * keyInfo.tokens.length := by
  rw [elementOf]
  cases hencode : encodeTokens keyInfo.tokens with
  | none => exact Nat.zero_le _
  | some element => exact length_encodeTokens hencode

theorem scannedKey_of_withinLimits {keyInfo : KeyInfo} (h : WithinLimits keyInfo.tokens)
    {element : Bytes} (hencode : encodeTokens keyInfo.tokens = some element) :
    encodeTokens keyInfo.tokens = some (elementOf keyInfo) ∧
      ScannedKey keyInfo (elementOf keyInfo) := by
  obtain ⟨outputs, heach, heq⟩ := exists_scanned h.2
  rw [elementOf, hencode]
  rw [hencode] at heq
  split_ifs at heq
  cases heq
  exact ⟨rfl, h.1, outputs, rfl, heach⟩

/-- **THE SCAN OF A BUILT ARRAY**: the keys in the order of their ids. -/
theorem scanTokens_eq {l : List KeyInfo} (hlimits : ∀ keyInfo ∈ l, WithinLimits keyInfo.tokens)
    {built : BitVectorBasedArrayBuilder} (h : buildTokenArray l {} = some built)
    (hsize : built.image.length < intLimit) {array : BitVectorBasedArray}
    (hopen : BitVectorBasedArray.openArray built.image = some array) :
    ∃ byId : List KeyInfo, byId.Perm l ∧
      (∀ keyInfo ∈ l, byId[keyInfo.idInKeyTrie.toNat]? = some keyInfo) ∧
      (∀ i ≤ byId.length, array.bytesFrom i
        = (byId.drop i).flatMap (fun keyInfo => padded4 (elementOf keyInfo)) ++
            padded4 [kTokenTerminationFlag]) ∧
      ∀ fuel, (l.map (fun keyInfo => keyInfo.tokens.length)).sum < fuel →
        scanTokens fuel array = some (scanResults elementOf 0 0 byId) := by
  obtain ⟨hnumbered, hencoded⟩ := encoded_of_buildTokenArray h
  have hscanned : ∀ keyInfo ∈ l, encodeTokens keyInfo.tokens = some (elementOf keyInfo) ∧
      ScannedKey keyInfo (elementOf keyInfo) := by
    intro keyInfo hmem
    obtain ⟨element, hencode⟩ := hencoded keyInfo hmem
    exact scannedKey_of_withinLimits (hlimits keyInfo hmem) hencode
  obtain ⟨byId, hperm, hget, heq⟩ := buildTokenArray_eq hnumbered
    (fun keyInfo hmem => (hscanned keyInfo hmem).1)
  rw [heq] at h
  have hlayout : ∀ i ≤ byId.length, array.bytesFrom i
      = (byId.drop i).flatMap (fun keyInfo => padded4 (elementOf keyInfo)) ++
          padded4 [kTokenTerminationFlag] := by
    intro i hi
    have hlen : i < (byId.map elementOf ++ [[kTokenTerminationFlag]]).length := by
      rw [List.length_append, List.length_map, List.length_singleton]
      omega
    have hdrop : (byId.map elementOf ++ [[kTokenTerminationFlag]]).drop i
        = (byId.drop i).map elementOf ++ [[kTokenTerminationFlag]] := by
      rw [List.drop_append_of_le_length (by rw [List.length_map]; exact hi), List.map_drop]
    rw [bytesFrom_of_build rfl rfl rfl rfl h hsize hopen hlen]
    show ((byId.map elementOf ++ [[kTokenTerminationFlag]]).drop i).flatMap padded4 = _
    rw [hdrop, List.flatMap_append, List.flatMap_map, List.flatMap_singleton]
  refine ⟨byId, hperm, hget, hlayout, ?_⟩
  intro fuel hfuel
  rw [scanTokens]
  refine scanLoop_eq
    (fun keyInfo hmem => (hscanned keyInfo (hperm.mem_iff.mp hmem)).2) rfl rfl
    (hlayout 0 (Nat.zero_le _)) ?_
  rw [(hperm.map _).sum_eq]
  exact hfuel

/-! ## When every token is visited -/

/-- The results for a key. -/
def resultsFor (keyInfo : KeyInfo) (results : List ScanResult) : List ScanResult :=
  results.filter (fun result => decide ((result.index : Int) = keyInfo.idInKeyTrie))

/-- The scan visits every token of every key. -/
def VisitsAll (l : List KeyInfo) (results : List ScanResult) : Prop :=
  ∀ keyInfo ∈ l, (resultsFor keyInfo results).map ScanResult.valueId = keyInfo.tokens.map valueIdOf

theorem index_of_mem_scanResults {element : KeyInfo → Bytes} : ∀ {keys : List KeyInfo}
    {index tokensOffset : Nat} {result : ScanResult},
    result ∈ scanResults element index tokensOffset keys → index ≤ result.index := by
  intro keys
  induction keys with
  | nil => intro _ _ _ hmem; exact absurd hmem List.not_mem_nil
  | cons keyInfo rest ih =>
    intro index tokensOffset result hmem
    have hblock : ∀ {infos : List TokenInfo}, result ∈ blockResults index tokensOffset infos →
        index ≤ result.index := by
      intro infos hmem
      obtain ⟨info, -, rfl⟩ := List.mem_map.mp hmem
      exact Nat.le_refl _
    rw [scanResults] at hmem
    by_cases hends : EndsScan keyInfo.tokens
    · rw [if_pos hends] at hmem
      exact hblock hmem
    · rw [if_neg hends] at hmem
      rcases List.mem_append.mp hmem with hmem | hmem
      · exact hblock hmem
      · exact Nat.le_of_succ_le (ih hmem)

/-- The results of a key that starts at an index, and of another one. -/
theorem filter_blockResults (index tokensOffset : Nat) (infos : List TokenInfo) (i : Nat) :
    (blockResults index tokensOffset infos).filter (fun result => decide (result.index = i))
      = if index = i then blockResults index tokensOffset infos else [] := by
  by_cases heq : index = i
  · rw [if_pos heq, List.filter_eq_self]
    intro result hmem
    obtain ⟨info, -, rfl⟩ := List.mem_map.mp hmem
    exact decide_eq_true heq
  · rw [if_neg heq, List.filter_eq_nil_iff]
    intro result hmem hc
    obtain ⟨info, -, rfl⟩ := List.mem_map.mp hmem
    exact heq (of_decide_eq_true hc)

/-- **THE RESULTS OF A KEY**: all tokens where no key ends the scan, and not all of them
    where the key itself ends it. -/
theorem filter_scanResults (element : KeyInfo → Bytes) : ∀ {keys : List KeyInfo}
    (index tokensOffset : Nat) {i : Nat} {keyInfo : KeyInfo}, keys[i]? = some keyInfo →
    ((∀ k ∈ keys, ¬ EndsScan k.tokens) →
      ((scanResults element index tokensOffset keys).filter
        (fun result => decide (result.index = index + i))).map ScanResult.valueId
          = keyInfo.tokens.map valueIdOf) ∧
    (EndsScan keyInfo.tokens →
      ((scanResults element index tokensOffset keys).filter
        (fun result => decide (result.index = index + i))).length < keyInfo.tokens.length) := by
  intro keys
  induction keys with
  | nil => intro _ _ _ _ hget; exact nomatch hget
  | cons head rest ih =>
    intro index tokensOffset i keyInfo hget
    have hafter : (scanResults element (index + 1)
        (tokensOffset + (padded4 (element head)).length) rest).filter
        (fun result => decide (result.index = index)) = [] := by
      rw [List.filter_eq_nil_iff]
      intro result hmem hc
      have := index_of_mem_scanResults hmem
      have := of_decide_eq_true hc
      omega
    rw [scanResults]
    cases i with
    | zero =>
      obtain rfl := Option.some.inj hget
      rw [Nat.add_zero]
      constructor
      · intro hnone
        rw [if_neg (hnone head List.mem_cons_self), List.filter_append, filter_blockResults,
          if_pos rfl, hafter, List.append_nil, blockResults, List.map_map]
        rfl
      · intro hends
        have hpos : 0 < head.tokens.length := by
          obtain ⟨info, hlast, -⟩ := hends
          exact List.length_pos_of_mem (List.mem_of_getLast? hlast)
        rw [if_pos hends, filter_blockResults, if_pos rfl, blockResults, List.length_map,
          List.length_dropLast]
        omega
    | succ i =>
      obtain ⟨hall, hpart⟩ := ih (index + 1)
        (tokensOffset + (padded4 (element head)).length) hget
      rw [Nat.add_assoc, Nat.add_comm 1] at hall hpart
      constructor
      · intro hnone
        rw [if_neg (hnone head List.mem_cons_self), List.filter_append, filter_blockResults,
          if_neg (by omega), List.nil_append]
        exact hall (fun k hk => hnone k (List.mem_cons_of_mem _ hk))
      · intro hends
        by_cases hhead : EndsScan head.tokens
        · have hpos : 0 < keyInfo.tokens.length := by
            obtain ⟨info, hlast, -⟩ := hends
            exact List.length_pos_of_mem (List.mem_of_getLast? hlast)
          rw [if_pos hhead, filter_blockResults, if_neg (by omega)]
          exact hpos
        · rw [if_neg hhead, List.filter_append, filter_blockResults, if_neg (by omega),
            List.nil_append]
          exact hpart hends

/-- The `CHECK` of `EncodeTokens` passes: the first byte is not that of the terminator. -/
def FirstByteDiffers (tokens : List TokenInfo) : Prop :=
  ∃ output, encodeTokens tokens = some output ∧ output.getD 0 0 ≠ kTokenTerminationFlag

/-- The scan visits every token of every key before it stops. -/
def ScanVisitsAll (l : List KeyInfo) (array : BitVectorBasedArray) : Prop :=
  ∃ fuel results, scanTokens fuel array = some results ∧ VisitsAll l results

/-- **THE FIRST BYTE** is that of the terminator where the only token looks like it. -/
theorem firstByteDiffers_iff (h : WithinLimits tokens) :
    FirstByteDiffers tokens ↔ ¬ (tokens.length = 1 ∧ EndsScan tokens) := by
  obtain ⟨outputs, heach, heq⟩ := exists_scanned h.2
  have hfirst : outputs.flatten.getD 0 0 = kTokenTerminationFlag ↔
      tokens.length = 1 ∧ EndsScan tokens := by
    cases tokens with
    | nil => exact absurd rfl h.1
    | cons info infos =>
      cases outputs with
      | nil => exact absurd heach id
      | cons output outputs =>
        rw [List.flatten_cons, heach.1.getD_append, heach.1.first, List.isEmpty_iff]
        constructor
        · rintro ⟨rfl, hlooks⟩
          exact ⟨rfl, endsScan_singleton.mpr hlooks⟩
        · rintro ⟨hlength, hends⟩
          obtain rfl := List.length_eq_zero_iff.mp (Nat.succ.inj hlength)
          exact ⟨rfl, endsScan_singleton.mp hends⟩
  rw [← hfirst, FirstByteDiffers, heq]
  constructor
  · rintro ⟨output, houtput, hne⟩
    split_ifs at houtput with hdiffers
    exact hdiffers
  · intro hdiffers
    exact ⟨outputs.flatten, if_pos hdiffers, hdiffers⟩

theorem scanLoop_mono : ∀ {fuel fuel' : Nat} {it : TokenScanIterator} {results : List ScanResult},
    scanLoop fuel it = some results → fuel ≤ fuel' → scanLoop fuel' it = some results := by
  intro fuel
  induction fuel with
  | zero => intro _ _ _ h; exact nomatch h
  | succ fuel ih =>
    intro fuel' it results h hle
    obtain ⟨fuel', rfl⟩ := Nat.exists_eq_succ_of_ne_zero
      (Nat.ne_of_gt (Nat.lt_of_lt_of_le (Nat.succ_pos fuel) hle))
    rw [scanLoop] at h ⊢
    by_cases hdone : it.done = true
    · rw [if_pos hdone] at h ⊢
      exact h
    · rw [if_neg hdone] at h ⊢
      obtain ⟨rest, hrest, rfl⟩ := Option.map_eq_some_iff.mp h
      rw [ih hrest (Nat.le_of_succ_le_succ hle)]
      rfl

/-- **WHEN NO BLOCK LOOKS LIKE THE TERMINATOR**: the last token of a key has all the upper
    bits of its id crammed into its flag byte.  As the only token of its key it fails the
    check, and behind other tokens it ends the scan. -/
theorem neverLooksTerminated_iff (l : List KeyInfo)
    (hlimits : ∀ keyInfo ∈ l, WithinLimits keyInfo.tokens) :
    (∀ keyInfo ∈ l, FirstByteDiffers keyInfo.tokens ↔
      ¬ (keyInfo.tokens.length = 1 ∧ EndsScan keyInfo.tokens)) ∧
    ∀ built array, buildTokenArray l {} = some built → built.image.length < intLimit →
      BitVectorBasedArray.openArray built.image = some array →
      ((∀ keyInfo ∈ l, FirstByteDiffers keyInfo.tokens) ∧ ScanVisitsAll l array ↔
        ∀ keyInfo ∈ l, ¬ EndsScan keyInfo.tokens) := by
  refine ⟨fun keyInfo hmem => firstByteDiffers_iff (hlimits keyInfo hmem), ?_⟩
  intro built array hbuilt hsize hopen
  obtain ⟨byId, hperm, hget, -, hscan⟩ := scanTokens_eq hlimits hbuilt hsize hopen
  have hnonneg := (encoded_of_buildTokenArray hbuilt).1.nonneg
  have hfor : ∀ keyInfo ∈ l, ∀ results : List ScanResult, resultsFor keyInfo results
      = results.filter (fun result => decide (result.index = 0 + keyInfo.idInKeyTrie.toNat)) := by
    intro keyInfo hmem results
    have h0 := hnonneg keyInfo hmem
    refine List.filter_congr ?_
    intro result _
    refine decide_eq_decide.mpr ?_
    omega
  constructor
  · rintro ⟨-, fuel, results, hresults, hvisits⟩ keyInfo hmem hends
    have heq := hscan (fuel + ((l.map (fun keyInfo => keyInfo.tokens.length)).sum + 1)) (by omega)
    rw [scanTokens] at hresults heq
    rw [scanLoop_mono hresults (Nat.le_add_right _ _)] at heq
    have hlen := congrArg List.length (hvisits keyInfo hmem)
    have hlt := (filter_scanResults elementOf 0 0 (hget keyInfo hmem)).2 hends
    rw [hfor keyInfo hmem, Option.some.inj heq, List.length_map, List.length_map] at hlen
    omega
  · intro hnone
    refine ⟨?_, _, _, hscan _ (Nat.lt_succ_self _), ?_⟩
    · intro keyInfo hmem
      exact (firstByteDiffers_iff (hlimits keyInfo hmem)).mpr (fun hc => hnone keyInfo hmem hc.2)
    · intro keyInfo hmem
      rw [hfor keyInfo hmem]
      exact (filter_scanResults _ _ _ (hget keyInfo hmem)).1
        (fun k hk => hnone k (hperm.mem_iff.mp hk))

/-- **THE ARRAY IS BUILT AND OPENS** where every first byte differs and the tokens are few. -/
theorem exists_tokenArray {l : List KeyInfo} (hnumbered : NumberedKeys l)
    (hlimits : ∀ keyInfo ∈ l, WithinLimits keyInfo.tokens)
    (hfirst : ∀ keyInfo ∈ l, FirstByteDiffers keyInfo.tokens)
    (hfits : (l.map (fun keyInfo => 9 * keyInfo.tokens.length + 1)).sum < 2 ^ 28) :
    ∃ built array, buildTokenArray l {} = some built ∧ built.image.length < intLimit ∧
      BitVectorBasedArray.openArray built.image = some array := by
  have helement : ∀ keyInfo ∈ l, encodeTokens keyInfo.tokens = some (elementOf keyInfo) := by
    intro keyInfo hmem
    obtain ⟨output, hencode, -⟩ := hfirst keyInfo hmem
    exact (scannedKey_of_withinLimits (hlimits keyInfo hmem) hencode).1
  have hle : (l.map (fun keyInfo => (elementOf keyInfo).length + 1)).sum
      ≤ (l.map (fun keyInfo => 9 * keyInfo.tokens.length + 1)).sum :=
    List.sum_le_sum (fun keyInfo _ => Nat.succ_le_succ (length_elementOf_le keyInfo))
  obtain ⟨built, hbuilt⟩ :=
    Option.isSome_iff_exists.mp (buildTokenArray_isSome hnumbered helement (by omega))
  obtain ⟨hsize, array, hopen⟩ := exists_openTokenArray hnumbered helement (by omega) hbuilt
  exact ⟨built, array, hbuilt, hsize, hopen⟩

/-- A key with tokens at a frequent position, with the ids of their values. -/
def frequentKey (idInKeyTrie : Int) (key : Bytes) (ids : List Int) : KeyInfo :=
  { idInKeyTrie := idInKeyTrie
    key := key
    tokens := ids.map (fun id =>
      { token :=
          { key := key, value := ascii "b", cost := 0, lid := 1, rid := 2,
            attributes := attributeNone }
        idInValueTrie := id
        idInFrequentPosMap := 0
        posType := .frequentPos }) }

theorem withinLimits_frequentKey (idInKeyTrie : Int) (key : Bytes) {ids : List Int} (hne : ids ≠ [])
    (hids : ∀ id ∈ ids, 0 ≤ id ∧ id ≤ kValueTrieIdMax) :
    WithinLimits (frequentKey idInKeyTrie key ids).tokens := by
  refine ⟨fun hnil => hne (List.map_eq_nil_iff.mp hnil), ?_⟩
  intro index info hget
  obtain ⟨id, hmem, rfl⟩ := List.mem_map.mp (List.mem_of_getElem? hget)
  exact
    { lid := show 1 ≤ kPosMax by decide
      rid := show 2 ≤ kPosMax by decide
      cost_nonneg := Int.le_refl 0
      cost_le := show 0 ≤ kCostMax by decide
      pos := fun _ => show (0 : Int) ≤ 0 ∧ (0 : Int) < 256 by decide
      value := fun _ => hids id hmem
      first := fun _ => ⟨fun h => (nomatch h), fun h => (nomatch h)⟩ }

/-- The largest ids, but not at the end of a key. -/
def visitedKeys : List KeyInfo :=
  [frequentKey 1 (ascii "ab") [0x3f0000, 7], frequentKey 0 (ascii "a") [0x3fffff, 0, 0x3effff]]

theorem withinLimits_visitedKeys : ∀ keyInfo ∈ visitedKeys, WithinLimits keyInfo.tokens := by
  intro keyInfo hmem
  rcases List.mem_pair.mp hmem with rfl | rfl
  · exact withinLimits_frequentKey _ _ (by decide) (by decide)
  · exact withinLimits_frequentKey _ _ (by decide) (by decide)

theorem numberedKeys_visitedKeys : NumberedKeys visitedKeys :=
  ⟨by decide, by decide, by decide⟩

/-- Every token of the two keys is visited. -/
theorem neverLooksTerminated_iff_visited : ∃ built array,
    buildTokenArray visitedKeys {} = some built ∧
      BitVectorBasedArray.openArray built.image = some array ∧
      (∀ keyInfo ∈ visitedKeys, FirstByteDiffers keyInfo.tokens) ∧
      ScanVisitsAll visitedKeys array := by
  obtain ⟨hfirst, hvisits⟩ := neverLooksTerminated_iff visitedKeys withinLimits_visitedKeys
  obtain ⟨built, array, hbuilt, hsize, hopen⟩ :=
    exists_tokenArray numberedKeys_visitedKeys withinLimits_visitedKeys
      (fun keyInfo hmem => (hfirst keyInfo hmem).mpr (by
        rcases List.mem_pair.mp hmem with rfl | rfl <;> decide)) (by decide)
  refine ⟨built, array, hbuilt, hopen, (hvisits built array hbuilt hsize hopen).mpr ?_⟩
  intro keyInfo hmem
  rcases List.mem_pair.mp hmem with rfl | rfl <;> decide

/-- **AN ID OF 0x3f0000** makes a token look like the terminator: as the only one of its key
    it is not encoded, and behind another one it is not visited. -/
theorem looksTerminated_large :
    (WithinLimits (frequentKey 0 (ascii "a") [0x3f0000]).tokens ∧
      encodeTokens (frequentKey 0 (ascii "a") [0x3f0000]).tokens = none) ∧
    WithinLimits (frequentKey 0 (ascii "a") [0, 0x3f0000]).tokens ∧
    ∃ built array, buildTokenArray [frequentKey 0 (ascii "a") [0, 0x3f0000]] {} = some built ∧
      BitVectorBasedArray.openArray built.image = some array ∧
      scanTokens 3 array = some [⟨0, 0, 0⟩] := by
  have hlimits : ∀ keyInfo ∈ [frequentKey 0 (ascii "a") [0, 0x3f0000]],
      WithinLimits keyInfo.tokens := by
    intro keyInfo hmem
    rw [List.mem_singleton.mp hmem]
    exact withinLimits_frequentKey _ _ (by decide) (by decide)
  refine ⟨⟨withinLimits_frequentKey _ _ (by decide) (by decide), by decide⟩,
    hlimits _ List.mem_cons_self, ?_⟩
  obtain ⟨built, array, hbuilt, hsize, hopen⟩ := exists_tokenArray
    ⟨by decide, by decide, by decide⟩ hlimits
    (fun keyInfo hmem => (firstByteDiffers_iff (hlimits keyInfo hmem)).mpr (by
      rw [List.mem_singleton.mp hmem]
      decide)) (by decide)
  obtain ⟨byId, hperm, -, -, hscan⟩ := scanTokens_eq hlimits hbuilt hsize hopen
  refine ⟨built, array, hbuilt, hopen, ?_⟩
  rw [hscan 3 (by decide), hperm.eq_singleton]
  decide

end MozkeyDictionary
