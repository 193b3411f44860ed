import Mozkey.DictionaryCodecProofs

/-! # SystemDictionaryCodec — tokens

    A token is a flag byte, then its position id, its cost and the id of its value, each
    in as few bytes as its kind allows.  The upper bits of the id of a value go into the
    flag byte where nothing else is flagged. -/

namespace MozkeyDictionary

open ByteString
open MozkeyUtil (and_mask)

/-! ## Tokens -/

/-- `Token`, of the dictionary. -/
structure Token where
  key : Bytes
  value : Bytes
  cost : Int
  lid : Nat
  rid : Nat
  attributes : UInt8
deriving DecidableEq

/-- `Token::NONE`. -/
def attributeNone : UInt8 := 0
/-- `Token::SPELLING_CORRECTION`. -/
def attributeSpellingCorrection : UInt8 := 1

/-- How a part of speech is written. -/
inductive PosType where
  | defaultPos
  | frequentPos
  | sameAsPrevPos
deriving DecidableEq

/-- How a value is written. -/
inductive ValueType where
  | defaultValue
  | sameAsPrevValue
  | asIsHiragana
  | asIsKatakana
deriving DecidableEq

/-- How a cost is written. -/
inductive CostType where
  | defaultCost
  | canUseSmallEncoding
deriving DecidableEq

/-- How an accent is written. -/
inductive AccentEncodingType where
  | encodedInValue
  | embeddedInToken
deriving DecidableEq

/-- `TokenInfo`, with the values that `Clear` sets. -/
structure TokenInfo where
  token : Token
  idInValueTrie : Int := -1
  idInFrequentPosMap : Int := -1
  posType : PosType := .defaultPos
  valueType : ValueType := .defaultValue
  costType : CostType := .defaultCost
  accentEncodingType : AccentEncodingType := .encodedInValue
  accentType : Int := -1

/-! ## Encoding -/

/-- The limits of a token, and the flags of its bytes. -/
def kPosMax : Nat := 0x0fff
def kCostMax : Int := 0x7fff
def kValueTrieIdMax : Nat := 0x3fffff

/-- The flag and the mask of a cost of one byte. -/
def kSmallCostFlag : UInt8 := 0x80
def kSmallCostMask : UInt8 := 0x7f
def kTokenTerminationFlag : UInt8 := 0xff
def kValueTypeFlagMask : UInt8 := 0x03
def kAsIsHiraganaValueFlag : UInt8 := 0x01
def kAsIsKatakanaValueFlag : UInt8 := 0x02
def kSameAsPrevValueFlag : UInt8 := 0x03
def kNormalValueFlag : UInt8 := 0x00
def kPosTypeFlagMask : UInt8 := 0x0c
def kFullPosFlag : UInt8 := 0x04
def kMonoPosFlag : UInt8 := 0x08
def kSameAsPrevPosFlag : UInt8 := 0x0c
def kFrequentPosFlag : UInt8 := 0x00
def kSpellingCorrectionFlag : UInt8 := 0x10
def kCrammedIDFlag : UInt8 := 0x40
def kUpperFlagsMask : UInt8 := 0xc0
def kUpperCrammedIDMask : UInt8 := 0x3f
def kLastTokenFlag : UInt8 := 0x80

/-- An `int` stored into a byte. -/
def byteOfInt (n : Int) : UInt8 := UInt8.ofNat (n % 256).toNat

/-- `GetFlagForPos`; `none` where it is fatal. -/
def getFlagForPos (tokenInfo : TokenInfo) : Option UInt8 :=
  if tokenInfo.token.lid > kPosMax ∨ tokenInfo.token.rid > kPosMax then none
  else some
    (if tokenInfo.posType = .frequentPos then kFrequentPosFlag
    else if tokenInfo.posType = .sameAsPrevPos then kSameAsPrevPosFlag
    else if tokenInfo.token.lid = tokenInfo.token.rid then kMonoPosFlag
    else kFullPosFlag)

/-- The flag of how the value is written. -/
def getFlagForValue (tokenInfo : TokenInfo) : UInt8 :=
  if tokenInfo.valueType = .sameAsPrevValue then kSameAsPrevValueFlag
  else if tokenInfo.valueType = .asIsHiragana then kAsIsHiraganaValueFlag
  else if tokenInfo.valueType = .asIsKatakana then kAsIsKatakanaValueFlag
  else kNormalValueFlag

/-- `GetFlagsForToken`; `none` where a `CHECK` fails. -/
def getFlagsForToken (tokens : List TokenInfo) (index : Nat) : Option UInt8 :=
  match tokens[index]? with
  | none => none
  | some tokenInfo =>
    let flags : UInt8 := if index = tokens.length - 1 then kLastTokenFlag else 0
    let flags := if tokenInfo.token.attributes &&& attributeSpellingCorrection ≠ 0 then
      flags ||| kSpellingCorrectionFlag else flags
    match getFlagForPos tokenInfo with
    | none => none
    | some pos =>
      let flags := flags ||| pos
      if index = 0 ∧ flags &&& kPosTypeFlagMask = kSameAsPrevPosFlag then none
      else
        let flags := flags ||| getFlagForValue tokenInfo
        if index = 0 ∧ flags &&& kValueTypeFlagMask = kSameAsPrevValueFlag then none
        else
          some (if flags &&& kUpperCrammedIDMask = 0 then flags ||| kCrammedIDFlag else flags)

/-- `EncodeCost`; `none` where the `CHECK` fails. -/
def encodeCost (tokenInfo : TokenInfo) : Option Bytes :=
  let cost := tokenInfo.token.cost
  if ¬ cost ≤ kCostMax then none
  else if tokenInfo.costType = .canUseSmallEncoding then
    some [byteOfInt (cost / 256) ||| kSmallCostFlag]
  else some [byteOfInt (cost / 256), byteOfInt cost]

/-- `EncodePos`; `none` where the `CHECK` fails. -/
def encodePos (tokenInfo : TokenInfo) (flags : UInt8) : Option Bytes :=
  let posFlag := flags &&& kPosTypeFlagMask
  let lid := tokenInfo.token.lid
  let rid := tokenInfo.token.rid
  if posFlag = kFullPosFlag then
    some [UInt8.ofNat (lid &&& 255), UInt8.ofNat (((rid <<< 4) &&& 255) ||| (lid >>> 8)),
      UInt8.ofNat ((rid >>> 4) &&& 255)]
  else if posFlag = kMonoPosFlag then some [UInt8.ofNat (lid &&& 255), UInt8.ofNat (lid >>> 8)]
  else if posFlag = kFrequentPosFlag then
    if ¬ tokenInfo.idInFrequentPosMap ≥ 0 then none
    else some [byteOfInt tokenInfo.idInFrequentPosMap]
  else if posFlag = kSameAsPrevPosFlag then some []
  else none

/-- `EncodeValueInfo`: what is set in the flag byte, and the bytes; `none` where it is
    fatal. -/
def encodeValueInfo (tokenInfo : TokenInfo) (flags : UInt8) : Option (UInt8 × Bytes) :=
  if flags &&& kValueTypeFlagMask ≠ kNormalValueFlag then some (0, [])
  else
    -- the `int` becomes a `uint32_t`
    let id := (tokenInfo.idInValueTrie % 2 ^ 32).toNat
    if id > kValueTrieIdMax then none
    else if flags &&& kCrammedIDFlag ≠ 0 then
      some (UInt8.ofNat (id >>> 16) &&& kUpperCrammedIDMask,
        [UInt8.ofNat (id &&& 255), UInt8.ofNat ((id >>> 8) &&& 255)])
    else
      some (0, [UInt8.ofNat (id &&& 255), UInt8.ofNat ((id >>> 8) &&& 255),
        UInt8.ofNat ((id >>> 16) &&& 255)])

/-- `EncodeToken`; `none` where a `CHECK` fails. -/
def encodeToken (tokens : List TokenInfo) (index : Nat) : Option Bytes := do
  let flags ← getFlagsForToken tokens index
  let tokenInfo ← tokens[index]?
  let pos ← encodePos tokenInfo flags
  let cost ← encodeCost tokenInfo
  let value ← encodeValueInfo tokenInfo flags
  let output := (flags ||| value.1) :: (pos ++ (cost ++ value.2))
  if output.length ≤ 9 then some output else none

/-- `EncodeTokens`; `none` where a `CHECK` fails.  The build makes `char` unsigned. -/
def encodeTokens (tokens : List TokenInfo) : Option Bytes := do
  let outputs ← (List.range tokens.length).mapM (encodeToken tokens)
  let output := outputs.flatten
  if output.getD 0 0 ≠ kTokenTerminationFlag then some output else none

/-! ## Decoding -/

/-- The flags without a crammed id. -/
def readFlags (val : UInt8) : UInt8 :=
  if val &&& kCrammedIDFlag ≠ 0 then val &&& kUpperFlagsMask else val

/-- `DecodeCost` at an offset: the token and the next offset. -/
def decodeCost (ptr : Bytes) (tokenInfo : TokenInfo) (offset : Nat) : TokenInfo × Nat :=
  if ptr.getD offset 0 &&& kSmallCostFlag ≠ 0 then
    ({ tokenInfo with token := { tokenInfo.token with
        cost := ((ptr.getD offset 0 &&& kSmallCostMask).toNat <<< 8 : Nat) } }, offset + 1)
  else
    ({ tokenInfo with token := { tokenInfo.token with
        cost := (byteAt ptr offset <<< 8 + byteAt ptr (offset + 1) : Nat) } }, offset + 2)

/-- `DecodePos` at an offset: the token and the next offset. -/
def decodePos (ptr : Bytes) (flags : UInt8) (tokenInfo : TokenInfo) (offset : Nat) :
    TokenInfo × Nat :=
  let posFlag := flags &&& kPosTypeFlagMask
  if posFlag = kFrequentPosFlag then
    ({ tokenInfo with posType := .frequentPos, idInFrequentPosMap := byteAt ptr offset },
      offset + 1)
  else if posFlag = kSameAsPrevPosFlag then ({ tokenInfo with posType := .sameAsPrevPos }, offset)
  else if posFlag = kMonoPosFlag then
    let id := (byteAt ptr (offset + 1) <<< 8) ||| byteAt ptr offset
    ({ tokenInfo with token := { tokenInfo.token with lid := id, rid := id } }, offset + 2)
  else if posFlag = kFullPosFlag then
    let lid := byteAt ptr offset + (byteAt ptr (offset + 1) &&& 0x0f) <<< 8
    let rid := byteAt ptr (offset + 1) >>> 4 + byteAt ptr (offset + 2) <<< 4
    ({ tokenInfo with token := { tokenInfo.token with lid := lid, rid := rid } }, offset + 3)
  else (tokenInfo, offset)

/-- `DecodeValueInfo` at an offset: the token and the next offset. -/
def decodeValueInfo (ptr : Bytes) (flags : UInt8) (tokenInfo : TokenInfo) (offset : Nat) :
    TokenInfo × Nat :=
  let valueFlag := flags &&& kValueTypeFlagMask
  if valueFlag = kAsIsHiraganaValueFlag then ({ tokenInfo with valueType := .asIsHiragana }, offset)
  else if valueFlag = kAsIsKatakanaValueFlag then
    ({ tokenInfo with valueType := .asIsKatakana }, offset)
  else if valueFlag = kSameAsPrevValueFlag then
    ({ tokenInfo with valueType := .sameAsPrevValue }, offset)
  else
    let id := (byteAt ptr (offset + 1) <<< 8) ||| byteAt ptr offset
    if flags &&& kCrammedIDFlag ≠ 0 then
      ({ tokenInfo with
          valueType := .defaultValue
          idInValueTrie :=
            (id ||| ((ptr.getD 0 0 &&& kUpperCrammedIDMask).toNat <<< 16) : Nat) }, offset + 2)
    else
      ({ tokenInfo with
          valueType := .defaultValue
          idInValueTrie := (id ||| (byteAt ptr (offset + 2) <<< 16) : Nat) }, offset + 3)

/-- `DecodeToken`: the token, the number of bytes read, and whether there is another
    token. -/
def decodeToken (ptr : Bytes) (tokenInfo : TokenInfo) : TokenInfo × Nat × Bool :=
  let flags := readFlags (ptr.getD 0 0)
  let tokenInfo := if flags &&& kSpellingCorrectionFlag ≠ 0 then
      { tokenInfo with token := { tokenInfo.token with attributes := attributeSpellingCorrection } }
    else tokenInfo
  let (tokenInfo, offset) := decodePos ptr flags tokenInfo 1
  let (tokenInfo, offset) := decodeCost ptr tokenInfo offset
  let (tokenInfo, offset) := decodeValueInfo ptr flags tokenInfo offset
  (tokenInfo, offset, flags &&& kLastTokenFlag = 0)

/-! ## The flag byte -/

/-- The flags of a token before the id of its value is considered. -/
def tokenFlags (last spelling : Bool) (pos value : UInt8) : UInt8 :=
  let flags : UInt8 := if last then kLastTokenFlag else 0
  let flags := if spelling then flags ||| kSpellingCorrectionFlag else flags
  flags ||| pos ||| value

/-- The lower bits are free for the id of the value. -/
def cramFlags (flags : UInt8) : UInt8 :=
  if flags &&& kUpperCrammedIDMask = 0 then flags ||| kCrammedIDFlag else flags

/-- The flags of the positions and of the values. -/
def posFlags : List UInt8 := [kFrequentPosFlag, kFullPosFlag, kMonoPosFlag, kSameAsPrevPosFlag]

/-- All flags of values. -/
def valueFlags : List UInt8 :=
  [kNormalValueFlag, kAsIsHiraganaValueFlag, kAsIsKatakanaValueFlag, kSameAsPrevValueFlag]

/-- What a reader of flags sees. -/
structure ReadsAs (flags : UInt8) (last spelling crammed : Bool) (pos value : UInt8) : Prop where
  pos_eq : flags &&& kPosTypeFlagMask = pos
  value_eq : flags &&& kValueTypeFlagMask = value
  crammed_eq : decide (flags &&& kCrammedIDFlag ≠ 0) = crammed
  spelling_eq : decide (flags &&& kSpellingCorrectionFlag ≠ 0) = spelling
  last_eq : decide (flags &&& kLastTokenFlag = 0) = !last

instance (flags : UInt8) (last spelling crammed : Bool) (pos value : UInt8) :
    Decidable (ReadsAs flags last spelling crammed pos value) :=
  decidable_of_iff
    (flags &&& kPosTypeFlagMask = pos ∧ flags &&& kValueTypeFlagMask = value ∧
      decide (flags &&& kCrammedIDFlag ≠ 0) = crammed ∧
      decide (flags &&& kSpellingCorrectionFlag ≠ 0) = spelling ∧
      decide (flags &&& kLastTokenFlag = 0) = !last)
    ⟨fun ⟨h1, h2, h3, h4, h5⟩ => ⟨h1, h2, h3, h4, h5⟩,
      fun ⟨h1, h2, h3, h4, h5⟩ => ⟨h1, h2, h3, h4, h5⟩⟩

/-- The id of the value is crammed where nothing else is flagged. -/
def isCrammed (spelling : Bool) (pos value : UInt8) : Bool :=
  !spelling && pos == kFrequentPosFlag && value == kNormalValueFlag

theorem tokenFlags_pos : ∀ last spelling : Bool, ∀ pos ∈ posFlags,
    tokenFlags last spelling pos 0 &&& kPosTypeFlagMask = pos := by
  simp only [posFlags, List.forall_mem_cons, List.not_mem_nil, false_imp_iff,
    implies_true, and_true]
  decide

theorem cramFlags_readsAs : ∀ last spelling : Bool, ∀ pos ∈ posFlags, ∀ value ∈ valueFlags,
    ReadsAs (cramFlags (tokenFlags last spelling pos value)) last spelling
      (isCrammed spelling pos value) pos value ∧
    tokenFlags last spelling pos value &&& kValueTypeFlagMask = value := by
  intro last spelling
  simp only [posFlags, valueFlags, List.forall_mem_cons, List.not_mem_nil, false_imp_iff,
    implies_true, and_true]
  cases last <;> cases spelling <;> decide

theorem readFlags_readsAs : ∀ last spelling : Bool, ∀ pos ∈ posFlags, ∀ value ∈ valueFlags,
    isCrammed spelling pos value = false →
    ReadsAs (readFlags (cramFlags (tokenFlags last spelling pos value) ||| 0)) last spelling
      false pos value := by
  intro last spelling
  simp only [posFlags, valueFlags, List.forall_mem_cons, List.not_mem_nil, false_imp_iff,
    implies_true, and_true]
  cases last <;> cases spelling <;> decide

theorem readFlags_crammed : ∀ last : Bool, ∀ upper < 0x40,
    ReadsAs (readFlags (cramFlags (tokenFlags last false kFrequentPosFlag kNormalValueFlag)
        ||| UInt8.ofNat upper)) last false true kFrequentPosFlag kNormalValueFlag ∧
      ((cramFlags (tokenFlags last false kFrequentPosFlag kNormalValueFlag)
        ||| UInt8.ofNat upper) &&& kUpperCrammedIDMask).toNat = upper := by decide

/-! ## What can be encoded -/

/-- A token that the encoder takes. -/
structure Encodable (info : TokenInfo) : Prop where
  lid : info.token.lid ≤ kPosMax
  rid : info.token.rid ≤ kPosMax
  cost_nonneg : 0 ≤ info.token.cost
  cost_le : info.token.cost ≤ kCostMax
  pos : info.posType = .frequentPos →
    0 ≤ info.idInFrequentPosMap ∧ info.idInFrequentPosMap < 256
  value : info.valueType = .defaultValue →
    0 ≤ info.idInValueTrie ∧ info.idInValueTrie ≤ kValueTrieIdMax

/-- The flag of the position. -/
def posFlagOf (info : TokenInfo) : UInt8 :=
  if info.posType = .frequentPos then kFrequentPosFlag
  else if info.posType = .sameAsPrevPos then kSameAsPrevPosFlag
  else if info.token.lid = info.token.rid then kMonoPosFlag
  else kFullPosFlag

/-- The flag of the attributes. -/
def isSpelling (info : TokenInfo) : Bool :=
  decide (info.token.attributes &&& attributeSpellingCorrection ≠ 0)

theorem posFlagOf_mem (info : TokenInfo) : posFlagOf info ∈ posFlags := by
  unfold posFlagOf
  split_ifs <;> decide

theorem getFlagForValue_mem (info : TokenInfo) : getFlagForValue info ∈ valueFlags := by
  unfold getFlagForValue
  split_ifs <;> decide

variable {info : TokenInfo}

theorem posFlagOf_eq_same (h : posFlagOf info = kSameAsPrevPosFlag) :
    info.posType = .sameAsPrevPos := by
  unfold posFlagOf at h
  split_ifs at h with h1 h2 h3
  · exact absurd h (by decide)
  · exact h2
  · exact absurd h (by decide)
  · exact absurd h (by decide)

theorem getFlagForValue_eq_same (h : getFlagForValue info = kSameAsPrevValueFlag) :
    info.valueType = .sameAsPrevValue := by
  unfold getFlagForValue at h
  split_ifs at h with h1 h2 h3
  · exact h1
  · exact absurd h (by decide)
  · exact absurd h (by decide)
  · exact absurd h (by decide)

variable {index : Nat}

/-- **THE FLAG BYTE** of a token that refers to the one before it only where there is one. -/
theorem getFlagsForToken_eq {tokens : List TokenInfo} (hget : tokens[index]? = some info)
    (h : Encodable info)
    (hfirst : index = 0 → info.posType ≠ .sameAsPrevPos ∧ info.valueType ≠ .sameAsPrevValue) :
    getFlagsForToken tokens index
      = some (cramFlags (tokenFlags (decide (index = tokens.length - 1)) (isSpelling info)
          (posFlagOf info) (getFlagForValue info))) := by
  have hpos : getFlagForPos info = some (posFlagOf info) := by
    rw [getFlagForPos, if_neg (not_or.mpr ⟨Nat.not_lt.mpr h.lid, Nat.not_lt.mpr h.rid⟩)]
    rfl
  have hflags : ∀ value : UInt8,
      (if info.token.attributes &&& attributeSpellingCorrection ≠ 0 then
        (if index = tokens.length - 1 then kLastTokenFlag else 0) ||| kSpellingCorrectionFlag
      else (if index = tokens.length - 1 then kLastTokenFlag else 0)) ||| posFlagOf info ||| value
      = tokenFlags (decide (index = tokens.length - 1)) (isSpelling info) (posFlagOf info)
          value := by
    intro value
    simp only [tokenFlags, isSpelling, decide_eq_true_eq]
  have hzero : ∀ f : UInt8, f ||| 0 = f := fun f => UInt8.or_zero
  have hpos0 := hflags 0
  rw [hzero] at hpos0
  rw [getFlagsForToken, hget]
  dsimp only
  rw [hpos]
  dsimp only
  rw [hflags, hpos0, tokenFlags_pos _ _ _ (posFlagOf_mem info),
    (cramFlags_readsAs _ _ _ (posFlagOf_mem info) _ (getFlagForValue_mem info)).2,
    if_neg (fun hc => (hfirst hc.1).1 (posFlagOf_eq_same hc.2)),
    if_neg (fun hc => (hfirst hc.1).2 (getFlagForValue_eq_same hc.2))]
  rfl

/-! ## Each part is read back -/

theorem getD_append_length (front l : Bytes) (i : Nat) :
    (front ++ l).getD (front.length + i) 0 = l.getD i 0 := by
  rw [List.getD_eq_getElem?_getD, List.getElem?_append_right (Nat.le_add_right _ _),
    Nat.add_sub_cancel_left, List.getD_eq_getElem?_getD]

theorem getD_append_start (front l : Bytes) : (front ++ l).getD front.length 0 = l.getD 0 0 :=
  getD_append_length front l 0

theorem byteAt_append_length (front l : Bytes) (i : Nat) :
    byteAt (front ++ l) (front.length + i) = byteAt l i := by
  rw [byteAt, getD_append_length, byteAt]

theorem byteAt_append_start (front l : Bytes) : byteAt (front ++ l) front.length = byteAt l 0 :=
  byteAt_append_length front l 0

theorem toNat_byteOfInt {n : Int} (h0 : 0 ≤ n) (h1 : n < 256) :
    ((byteOfInt n).toNat : Int) = n := by
  rw [byteOfInt, toNat_ofNat_of_lt (by omega)]
  omega

theorem shiftLeft_or {a b : Nat} (h : b < 2 ^ 8) : (a <<< 8) ||| b = a * 256 + b := by
  rw [← Nat.shiftLeft_add_eq_or_of_lt h, Nat.shiftLeft_eq]

/-- The token with the position that the decoder reads. -/
def readPos (info prev : TokenInfo) : TokenInfo :=
  match info.posType with
  | .frequentPos =>
    { prev with posType := .frequentPos, idInFrequentPosMap := info.idInFrequentPosMap }
  | .sameAsPrevPos => { prev with posType := .sameAsPrevPos }
  | .defaultPos =>
    { prev with token := { prev.token with lid := info.token.lid, rid := info.token.rid } }

/-- The cost that the decoder reads. -/
def reportedCost (info : TokenInfo) : Int :=
  if info.costType = .canUseSmallEncoding then info.token.cost / 256 * 256 else info.token.cost

/-- The token with the cost that the decoder reads. -/
def readCost (info prev : TokenInfo) : TokenInfo :=
  { prev with token := { prev.token with cost := reportedCost info } }

/-- The token with the value type and the id that the decoder reads. -/
def readValueInfo (info prev : TokenInfo) : TokenInfo :=
  if info.valueType = .defaultValue then
    { prev with valueType := .defaultValue, idInValueTrie := info.idInValueTrie }
  else { prev with valueType := info.valueType }

theorem decodePos_full {lid rid : Nat} (hlid : lid ≤ 0xfff) (hrid : rid ≤ 0xfff) :
    let b1 := ((rid <<< 4) &&& 255) ||| (lid >>> 8)
    (UInt8.ofNat (lid &&& 255)).toNat + ((UInt8.ofNat b1).toNat &&& 0x0f) <<< 8 = lid ∧
      (UInt8.ofNat b1).toNat >>> 4 + (UInt8.ofNat ((rid >>> 4) &&& 255)).toNat <<< 4 = rid := by
  intro b1
  have hb1 : b1 = rid % 16 * 16 + lid / 256 := by
    show ((rid <<< 4) &&& 255) ||| (lid >>> 8) = _
    rw [and_mask 255 256 8, Nat.shiftLeft_eq, Nat.shiftRight_eq_div_pow,
      show rid * 2 ^ 4 % 256 = rid % 16 * 2 ^ 4 from by omega, ← Nat.shiftLeft_eq,
      ← Nat.shiftLeft_add_eq_or_of_lt (by omega), Nat.shiftLeft_eq]
  rw [hb1, and_mask 255 256 8, and_mask 255 256 8, toNat_ofNat_of_lt (by omega),
    toNat_ofNat_of_lt (by omega), toNat_ofNat_of_lt (by omega), and_mask 0x0F 0x10 4,
    Nat.shiftLeft_eq, Nat.shiftLeft_eq, Nat.shiftRight_eq_div_pow, Nat.shiftRight_eq_div_pow]
  omega

/-- **THE POSITION IS READ BACK.** -/
theorem decodePos_encodePos (h : Encodable info) {flags : UInt8}
    (hflags : flags &&& kPosTypeFlagMask = posFlagOf info) :
    ∃ pos, encodePos info flags = some pos ∧ pos.length ≤ 3 ∧
      ∀ (g : UInt8) (front rest : Bytes) (prev : TokenInfo),
        g &&& kPosTypeFlagMask = posFlagOf info →
        decodePos (front ++ (pos ++ rest)) g prev front.length
          = (readPos info prev, front.length + pos.length) := by
  have hlid : info.token.lid ≤ 0xfff := h.lid
  have hrid : info.token.rid ≤ 0xfff := h.rid
  cases hpos : info.posType with
  | frequentPos =>
    obtain ⟨h0, h1⟩ := h.pos hpos
    have hflag : posFlagOf info = kFrequentPosFlag := by rw [posFlagOf, if_pos hpos]
    rw [hflag] at hflags ⊢
    refine ⟨[byteOfInt info.idInFrequentPosMap], ?_, by show 1 ≤ 3; omega, ?_⟩
    · simp only [encodePos, hflags]
      rw [if_neg (by decide), if_neg (by decide), if_pos trivial, if_neg (fun hc => hc h0)]
    · intro g front rest prev hg
      simp only [decodePos, readPos, hg, hpos]
      rw [if_pos trivial, byteAt_append_start, List.singleton_append, byteAt_zero,
        toNat_byteOfInt h0 h1]
      rfl
  | sameAsPrevPos =>
    have hflag : posFlagOf info = kSameAsPrevPosFlag := by
      rw [posFlagOf, if_neg (by rw [hpos]; decide), if_pos hpos]
    rw [hflag] at hflags ⊢
    refine ⟨[], ?_, Nat.zero_le 3, ?_⟩
    · simp only [encodePos, hflags]
      rw [if_neg (by decide), if_neg (by decide), if_neg (by decide), if_pos trivial]
    · intro g front rest prev hg
      simp only [decodePos, readPos, hg, hpos]
      rw [if_neg (by decide), if_pos trivial]
      rfl
  | defaultPos =>
    by_cases hmono : info.token.lid = info.token.rid
    · have hflag : posFlagOf info = kMonoPosFlag := by
        rw [posFlagOf, if_neg (by rw [hpos]; decide), if_neg (by rw [hpos]; decide),
          if_pos hmono]
      rw [hflag] at hflags ⊢
      refine ⟨[UInt8.ofNat (info.token.lid &&& 255), UInt8.ofNat (info.token.lid >>> 8)], ?_,
        by show 2 ≤ 3; omega, ?_⟩
      · simp only [encodePos, hflags]
        rw [if_neg (by decide), if_pos trivial]
      · intro g front rest prev hg
        have hid : ((UInt8.ofNat (info.token.lid >>> 8)).toNat <<< 8)
            ||| (UInt8.ofNat (info.token.lid &&& 255)).toNat = info.token.lid := by
          rw [and_mask 255 256 8, Nat.shiftRight_eq_div_pow, toNat_ofNat_of_lt (by omega),
            toNat_ofNat_of_lt (by omega), shiftLeft_or (by omega)]
          omega
        simp only [decodePos, readPos, hg, hpos]
        rw [if_neg (by decide), if_neg (by decide), if_pos trivial, byteAt_append_length,
          byteAt_append_start]
        simp only [List.cons_append, byteAt_succ, byteAt_zero, hid]
        rw [← hmono]
        rfl
    · have hflag : posFlagOf info = kFullPosFlag := by
        rw [posFlagOf, if_neg (by rw [hpos]; decide), if_neg (by rw [hpos]; decide),
          if_neg hmono]
      obtain ⟨hl, hr⟩ := decodePos_full hlid hrid
      rw [hflag] at hflags ⊢
      refine ⟨[UInt8.ofNat (info.token.lid &&& 255),
        UInt8.ofNat (((info.token.rid <<< 4) &&& 255) ||| (info.token.lid >>> 8)),
        UInt8.ofNat ((info.token.rid >>> 4) &&& 255)], ?_, by show 3 ≤ 3; omega, ?_⟩
      · simp only [encodePos, hflags]
        rw [if_pos trivial]
      · intro g front rest prev hg
        simp only [decodePos, readPos, hg, hpos]
        rw [if_neg (by decide), if_neg (by decide), if_neg (by decide), if_pos trivial,
          byteAt_append_length, byteAt_append_length, byteAt_append_start]
        simp only [List.cons_append, byteAt_succ, byteAt_zero, hl, hr]
        rfl

/-- **THE COST IS READ BACK**, without its low bits where it is small. -/
theorem decodeCost_encodeCost (h : Encodable info) :
    ∃ cost, encodeCost info = some cost ∧ cost.length ≤ 2 ∧
      ∀ (front rest : Bytes) (prev : TokenInfo),
        decodeCost (front ++ (cost ++ rest)) prev front.length
          = (readCost info prev, front.length + cost.length) := by
  have h0 := h.cost_nonneg
  have h1 := h.cost_le
  have h1' : info.token.cost ≤ 0x7fff := h1
  have hupper : ∀ n < 0x80, (UInt8.ofNat n ||| kSmallCostFlag) &&& kSmallCostFlag ≠ 0 ∧
      ((UInt8.ofNat n ||| kSmallCostFlag) &&& kSmallCostMask).toNat = n ∧
      UInt8.ofNat n &&& kSmallCostFlag = 0 := by decide
  obtain ⟨hset, hmask, hclear⟩ := hupper (info.token.cost / 256).toNat (by omega)
  have hbyte : byteOfInt (info.token.cost / 256) = UInt8.ofNat (info.token.cost / 256).toNat := by
    rw [byteOfInt, show info.token.cost / 256 % 256 = info.token.cost / 256 from by omega]
  simp only [encodeCost, readCost, reportedCost, hbyte]
  rw [if_neg (fun hc => hc h1)]
  by_cases hsmall : info.costType = .canUseSmallEncoding
  · rw [if_pos hsmall, if_pos hsmall]
    refine ⟨_, rfl, by show 1 ≤ 2; omega, ?_⟩
    intro front rest prev
    rw [decodeCost, getD_append_start, List.singleton_append, List.getD_cons_zero, if_pos hset,
      hmask, Nat.shiftLeft_eq,
      show (((info.token.cost / 256).toNat * 2 ^ 8 : Nat) : Int) = info.token.cost / 256 * 256
      from by omega]
    rfl
  · rw [if_neg hsmall, if_neg hsmall]
    refine ⟨_, rfl, by show 2 ≤ 2; omega, ?_⟩
    intro front rest prev
    have hlow : (byteOfInt info.token.cost).toNat = (info.token.cost % 256).toNat := by
      rw [byteOfInt, toNat_ofNat_of_lt (by omega)]
    rw [decodeCost, getD_append_start, List.cons_append, List.getD_cons_zero,
      if_neg (fun hc => hc hclear), byteAt_append_length, byteAt_append_start]
    simp only [List.cons_append, byteAt_succ, byteAt_zero]
    rw [hlow, toNat_ofNat_of_lt (by omega), Nat.shiftLeft_eq,
      show (((info.token.cost / 256).toNat * 2 ^ 8 + (info.token.cost % 256).toNat : Nat) : Int)
        = info.token.cost from by omega]
    rfl

theorem id_bytes {id : Nat} (h : id ≤ kValueTrieIdMax) :
    ((UInt8.ofNat ((id >>> 8) &&& 255)).toNat <<< 8 ||| (UInt8.ofNat (id &&& 255)).toNat)
      ||| (id >>> 16) <<< 16 = id := by
  have h' : id ≤ 0x3fffff := h
  rw [and_mask 255 256 8, and_mask 255 256 8, toNat_ofNat_of_lt (by omega),
    toNat_ofNat_of_lt (by omega), shiftLeft_or (by omega), Nat.shiftRight_eq_div_pow,
    Nat.shiftRight_eq_div_pow, Nat.or_comm, ← Nat.shiftLeft_add_eq_or_of_lt (by omega),
    Nat.shiftLeft_eq]
  omega

/-- What the encoder sets in the flag byte, what it writes, and what is read there. -/
structure ReadsValue (info : TokenInfo) (last : Bool) (flags upper : UInt8) (value : Bytes) :
    Prop where
  encode_eq : encodeValueInfo info flags = some (upper, value)
  length_le : value.length ≤ 3
  readsAs : ∃ crammed, ReadsAs (readFlags (flags ||| upper)) last (isSpelling info) crammed
    (posFlagOf info) (getFlagForValue info)
  decode_eq : ∀ (front rest : Bytes) (prev : TokenInfo),
    decodeValueInfo ((flags ||| upper) :: front ++ (value ++ rest)) (readFlags (flags ||| upper))
        prev ((flags ||| upper) :: front).length
      = (readValueInfo info prev, ((flags ||| upper) :: front).length + value.length)

theorem readsValue_flag {last : Bool} (hvalue : getFlagForValue info ≠ kNormalValueFlag) :
    ReadsValue info last (cramFlags (tokenFlags last (isSpelling info) (posFlagOf info)
      (getFlagForValue info))) 0 [] := by
  obtain ⟨hreads, -⟩ := cramFlags_readsAs last (isSpelling info) _ (posFlagOf_mem info) _
    (getFlagForValue_mem info)
  have hcrammed : isCrammed (isSpelling info) (posFlagOf info) (getFlagForValue info) = false := by
    rw [isCrammed, beq_false_of_ne hvalue, Bool.and_false]
  have hback := readFlags_readsAs last (isSpelling info) _ (posFlagOf_mem info) _
    (getFlagForValue_mem info) hcrammed
  refine ⟨?_, Nat.zero_le 3, ⟨false, hback⟩, ?_⟩
  · rw [encodeValueInfo, hreads.value_eq, if_pos hvalue]
  · intro front rest prev
    simp only [decodeValueInfo, hback.value_eq]
    cases hv : info.valueType with
    | defaultValue =>
      refine absurd ?_ hvalue
      rw [getFlagForValue, hv]
      rfl
    | sameAsPrevValue =>
      have hflag : getFlagForValue info = kSameAsPrevValueFlag := by
        rw [getFlagForValue, if_pos hv]
      rw [hflag, if_neg (by decide), if_neg (by decide), if_pos rfl, readValueInfo, hv,
        if_neg (by decide)]
      rfl
    | asIsHiragana =>
      have hflag : getFlagForValue info = kAsIsHiraganaValueFlag := by
        rw [getFlagForValue, if_neg (by rw [hv]; decide), if_pos hv]
      rw [hflag, if_pos rfl, readValueInfo, hv, if_neg (by decide)]
      rfl
    | asIsKatakana =>
      have hflag : getFlagForValue info = kAsIsKatakanaValueFlag := by
        rw [getFlagForValue, if_neg (by rw [hv]; decide), if_neg (by rw [hv]; decide), if_pos hv]
      rw [hflag, if_neg (by decide), if_pos rfl, readValueInfo, hv, if_neg (by decide)]
      rfl

/-- A value in the trie takes two bytes and the flag byte, or three bytes. -/
theorem readsValue_id (h : Encodable info) {last : Bool} (hvalue : info.valueType = .defaultValue) :
    ∃ upper value, ReadsValue info last (cramFlags (tokenFlags last (isSpelling info)
      (posFlagOf info) (getFlagForValue info))) upper value := by
  obtain ⟨h0, h1⟩ := h.value hvalue
  obtain ⟨id, hid⟩ := Int.eq_ofNat_of_zero_le h0
  have hle : id ≤ kValueTrieIdMax := by omega
  have hle' : id ≤ 0x3fffff := hle
  have hto : (info.idInValueTrie % 2 ^ 32).toNat = id := by omega
  have hflag : getFlagForValue info = kNormalValueFlag := by
    rw [getFlagForValue, hvalue]
    rfl
  have hread : ∀ prev, readValueInfo info prev
      = { prev with valueType := .defaultValue, idInValueTrie := (id : Int) } := by
    intro prev
    rw [readValueInfo, if_pos hvalue, hid]
  obtain ⟨hreads, -⟩ := cramFlags_readsAs last (isSpelling info) _ (posFlagOf_mem info) _
    (getFlagForValue_mem info)
  have hnormal := hreads.value_eq
  have hbits := hreads.crammed_eq
  by_cases hcrammed : isCrammed (isSpelling info) (posFlagOf info) (getFlagForValue info) = true
  · -- the upper six bits go into the flag byte
    rw [hcrammed] at hbits
    rw [isCrammed, Bool.and_eq_true, Bool.and_eq_true, beq_iff_eq, Bool.not_eq_true'] at hcrammed
    obtain ⟨⟨hspelling, hpos⟩, -⟩ := hcrammed
    have hupper : UInt8.ofNat (id >>> 16) &&& kUpperCrammedIDMask = UInt8.ofNat (id >>> 16) := by
      have hall : ∀ n < 0x40, UInt8.ofNat n &&& kUpperCrammedIDMask = UInt8.ofNat n := by decide
      exact hall _ (by rw [Nat.shiftRight_eq_div_pow]; omega)
    obtain ⟨hback, hmask⟩ := readFlags_crammed last (id >>> 16)
      (by rw [Nat.shiftRight_eq_div_pow]; omega)
    refine ⟨UInt8.ofNat (id >>> 16),
      [UInt8.ofNat (id &&& 255), UInt8.ofNat ((id >>> 8) &&& 255)], ?_, by show 2 ≤ 3; omega,
      ⟨true, ?_⟩, ?_⟩
    · simp only [encodeValueInfo, hto]
      rw [if_neg (fun hc => hc (hnormal.trans hflag)), if_neg (Nat.not_lt.mpr hle),
        if_pos (of_decide_eq_true hbits), hupper]
    · rw [hspelling, hpos, hflag]
      exact hback
    · intro front rest prev
      rw [hspelling, hpos, hflag]
      have hset := of_decide_eq_true hback.crammed_eq
      simp only [decodeValueInfo, hback.value_eq]
      rw [if_neg (by decide), if_neg (by decide), if_neg (by decide), if_pos hset,
        byteAt_append_length, byteAt_append_start, hread]
      simp only [List.cons_append, byteAt_succ, byteAt_zero, List.getD_cons_zero, hmask,
        id_bytes hle]
      rfl
  · have hcleared := Bool.not_eq_true _ |>.mp hcrammed
    rw [hcleared] at hbits
    have hback := readFlags_readsAs last (isSpelling info) _ (posFlagOf_mem info) _
      (getFlagForValue_mem info) hcleared
    refine ⟨0, [UInt8.ofNat (id &&& 255), UInt8.ofNat ((id >>> 8) &&& 255),
      UInt8.ofNat ((id >>> 16) &&& 255)], ?_, by show 3 ≤ 3; omega, ⟨false, hback⟩, ?_⟩
    · simp only [encodeValueInfo, hto]
      rw [if_neg (fun hc => hc (hnormal.trans hflag)), if_neg (Nat.not_lt.mpr hle),
        if_neg (of_decide_eq_false hbits)]
    · intro front rest prev
      have hclear := of_decide_eq_false hback.crammed_eq
      have hthird : (UInt8.ofNat ((id >>> 16) &&& 255)).toNat = id >>> 16 := by
        rw [and_mask 255 256 8, Nat.shiftRight_eq_div_pow, toNat_ofNat_of_lt (by omega)]
        omega
      simp only [decodeValueInfo, hback.value_eq]
      rw [if_neg (by rw [hflag]; decide), if_neg (by rw [hflag]; decide),
        if_neg (by rw [hflag]; decide), if_neg hclear, byteAt_append_length,
        byteAt_append_length, byteAt_append_start, hread]
      simp only [List.cons_append, byteAt_succ, byteAt_zero, hthird, id_bytes hle]
      rfl

/-- **THE VALUE IS READ BACK**, with the flags as they were. -/
theorem decodeValueInfo_encodeValueInfo (h : Encodable info) (last : Bool) :
    ∃ upper value, ReadsValue info last (cramFlags (tokenFlags last (isSpelling info)
      (posFlagOf info) (getFlagForValue info))) upper value := by
  by_cases hvalue : info.valueType = .defaultValue
  · exact readsValue_id h hvalue
  · refine ⟨0, [], readsValue_flag ?_⟩
    unfold getFlagForValue
    cases hv : info.valueType with
    | defaultValue => exact absurd hv hvalue
    | sameAsPrevValue => decide
    | asIsHiragana => decide
    | asIsKatakana => decide

/-! ## A token is read back -/

/-- The token with the attributes that the decoder reads. -/
def readAttributes (info prev : TokenInfo) : TokenInfo :=
  if isSpelling info then
    { prev with token := { prev.token with attributes := attributeSpellingCorrection } }
  else prev

/-- The token that the decoder reads over what it had. -/
def readToken (info prev : TokenInfo) : TokenInfo :=
  readValueInfo info (readCost info (readPos info (readAttributes info prev)))

/-- The bytes of a token at any place before other bytes. -/
def ReadsToken (info : TokenInfo) (last : Bool) (output : Bytes) : Prop :=
  ∀ (rest : Bytes) (prev : TokenInfo),
    decodeToken (output ++ rest) prev = (readToken info prev, output.length, !last)

/-- A token that stands at an index refers to the one before it only where there is one. -/
structure EncodableAt (index : Nat) (info : TokenInfo) : Prop extends Encodable info where
  first : index = 0 → info.posType ≠ .sameAsPrevPos ∧ info.valueType ≠ .sameAsPrevValue

/-- **A TOKEN IS READ BACK**, and so is whether it is the last one. -/
theorem decodeToken_encodeToken {tokens : List TokenInfo} (hget : tokens[index]? = some info)
    (h : EncodableAt index info) :
    ∃ output, encodeToken tokens index = some output ∧
      ReadsToken info (decide (index = tokens.length - 1)) output := by
  have hflags := getFlagsForToken_eq hget h.toEncodable h.first
  generalize hlast : decide (index = tokens.length - 1) = last at hflags
  obtain ⟨upper, value, hvalue⟩ := decodeValueInfo_encodeValueInfo h.toEncodable last
  generalize hf : cramFlags (tokenFlags last (isSpelling info) (posFlagOf info)
    (getFlagForValue info)) = flags at hflags hvalue
  have hencoded : flags &&& kPosTypeFlagMask = posFlagOf info := by
    rw [← hf]
    exact (cramFlags_readsAs last (isSpelling info) _ (posFlagOf_mem info) _
      (getFlagForValue_mem info)).1.pos_eq
  obtain ⟨pos, hpos, hposlen, hreadPos⟩ := decodePos_encodePos h.toEncodable hencoded
  obtain ⟨cost, hcost, hcostlen, hreadCost⟩ := decodeCost_encodeCost h.toEncodable
  have hlen : ((flags ||| upper) :: (pos ++ (cost ++ value))).length ≤ 9 := by
    have := hvalue.length_le
    rw [List.length_cons, List.length_append, List.length_append]
    omega
  refine ⟨(flags ||| upper) :: (pos ++ (cost ++ value)), ?_, ?_⟩
  · simp only [encodeToken, hflags, hget, hpos, hcost, hvalue.encode_eq, Option.bind_eq_bind,
      Option.bind_some]
    exact if_pos hlen
  · intro rest prev
    obtain ⟨crammed, hback⟩ := hvalue.readsAs
    have hassoc : (flags ||| upper) :: (pos ++ (cost ++ value)) ++ rest
        = (flags ||| upper) :: (pos ++ (cost ++ (value ++ rest))) := by
      simp only [List.cons_append, List.append_assoc]
    have hp : decodePos ((flags ||| upper) :: (pos ++ (cost ++ (value ++ rest))))
        (readFlags (flags ||| upper)) (readAttributes info prev) 1
        = (readPos info (readAttributes info prev), 1 + pos.length) :=
      hreadPos (readFlags (flags ||| upper)) [flags ||| upper] _ _ hback.pos_eq
    have hc := hreadCost ((flags ||| upper) :: pos) (value ++ rest)
      (readPos info (readAttributes info prev))
    rw [List.cons_append, List.length_cons, Nat.add_comm pos.length] at hc
    have hv := hvalue.decode_eq (pos ++ cost) rest
      (readCost info (readPos info (readAttributes info prev)))
    rw [List.cons_append, List.append_assoc, List.length_cons, List.length_append,
      show pos.length + cost.length + 1 = 1 + pos.length + cost.length from by omega] at hv
    have hspelling : (if readFlags (flags ||| upper) &&& kSpellingCorrectionFlag ≠ 0 then
        ({ prev with token :=
          { prev.token with attributes := attributeSpellingCorrection } } : TokenInfo)
        else prev) = readAttributes info prev := by
      rw [readAttributes, ← hback.spelling_eq]
      simp only [decide_eq_true_eq]
    rw [hassoc, decodeToken, List.getD_cons_zero, hspelling]
    dsimp only
    rw [hp]
    dsimp only
    rw [hc]
    dsimp only
    rw [hv, hback.last_eq, List.length_cons, List.length_append, List.length_append,
      show 1 + pos.length + cost.length + value.length
        = pos.length + (cost.length + value.length) + 1 from by omega]
    rfl

/-! ## The tokens of a key -/

/-- The bytes of the tokens behind each other; the last one says so. -/
def ReadsTokens : List TokenInfo → List Bytes → Prop
  | [], [] => True
  | info :: infos, output :: outputs =>
    ReadsToken info infos.isEmpty output ∧ ReadsTokens infos outputs
  | _, _ => False

/-- The bytes of the tokens, each in a relation with its token and whether it is the last. -/
def EachOutput (R : TokenInfo → Bool → Bytes → Prop) : List TokenInfo → List Bytes → Prop
  | [], [] => True
  | info :: infos, output :: outputs => R info infos.isEmpty output ∧ EachOutput R infos outputs
  | _, _ => False

section

variable {R : TokenInfo → Bool → Bytes → Prop} {tokens : List TokenInfo}
  (h : ∀ index info, tokens[index]? = some info → ∃ output,
    encodeToken tokens index = some output ∧ R info (decide (index = tokens.length - 1)) output)
include h

theorem mapM_encodeToken : ∀ rest front : List TokenInfo, tokens = front ++ rest →
    ∃ outputs, (List.range' front.length rest.length).mapM (encodeToken tokens) = some outputs ∧
      EachOutput R rest outputs := by
  intro rest
  induction rest with
  | nil =>
    intro front _
    exact ⟨[], rfl, trivial⟩
  | cons info rest ih =>
    intro front htokens
    have hget : tokens[front.length]? = some info := by
      rw [htokens, List.getElem?_append_right (Nat.le_refl _), Nat.sub_self]
      rfl
    obtain ⟨output, hencode, hread⟩ := h _ _ hget
    obtain ⟨outputs, hrest, hreads⟩ := ih (front ++ [info]) (by
      rw [htokens, List.append_assoc]
      rfl)
    have hlast : decide (front.length = tokens.length - 1) = rest.isEmpty := by
      rw [htokens, List.length_append, List.length_cons]
      cases rest with
      | nil => exact decide_eq_true (by rw [List.length_nil]; omega)
      | cons _ _ => exact decide_eq_false (by rw [List.length_cons]; omega)
    rw [hlast] at hread
    rw [List.length_append, List.length_singleton] at hrest
    refine ⟨output :: outputs, ?_, hread, hreads⟩
    rw [List.length_cons, List.range'_succ, List.mapM_cons, hencode, hrest]
    rfl

theorem exists_eachOutput : ∃ outputs, EachOutput R tokens outputs ∧ encodeTokens tokens
    = if outputs.flatten.getD 0 0 ≠ kTokenTerminationFlag then some outputs.flatten else none := by
  obtain ⟨outputs, hmap, heach⟩ := mapM_encodeToken h tokens [] rfl
  refine ⟨outputs, heach, ?_⟩
  rw [encodeTokens, List.range_eq_range']
  rw [List.length_nil] at hmap
  rw [hmap, Option.bind_eq_bind, Option.bind_some]

end

theorem readsTokens_of_eachOutput {R : TokenInfo → Bool → Bytes → Prop}
    (hR : ∀ info last output, R info last output → ReadsToken info last output) :
    ∀ {infos : List TokenInfo} {outputs : List Bytes}, EachOutput R infos outputs →
      ReadsTokens infos outputs := by
  intro infos
  induction infos with
  | nil =>
    intro outputs h
    cases outputs with
    | nil => trivial
    | cons _ _ => exact h
  | cons info infos ih =>
    intro outputs h
    cases outputs with
    | nil => exact h
    | cons output outputs => exact ⟨hR _ _ _ h.1, ih h.2⟩

/-- **THE TOKENS OF A KEY ARE ENCODED** behind each other. -/
theorem encodeTokens_spec {tokens : List TokenInfo} {output : Bytes}
    (h : ∀ index info, tokens[index]? = some info → EncodableAt index info)
    (hencode : encodeTokens tokens = some output) :
    ∃ outputs, output = outputs.flatten ∧ ReadsTokens tokens outputs := by
  obtain ⟨outputs, heach, heq⟩ := exists_eachOutput (R := ReadsToken)
    (fun index info hget => decodeToken_encodeToken hget (h index info hget))
  rw [heq] at hencode
  split_ifs at hencode
  exact ⟨outputs, (Option.some.inj hencode).symm,
    readsTokens_of_eachOutput (fun _ _ _ h => h) heach⟩

theorem length_encodeToken {tokens : List TokenInfo} {output : Bytes}
    (h : encodeToken tokens index = some output) : output.length ≤ 9 := by
  simp only [encodeToken, Option.bind_eq_bind, Option.bind_eq_some_iff] at h
  obtain ⟨flags, -, info, -, pos, -, cost, -, value, -, h⟩ := h
  by_cases hle : ((flags ||| value.1) :: (pos ++ (cost ++ value.2))).length ≤ 9
  · rw [if_pos hle] at h
    rw [← Option.some.inj h]
    exact hle
  · rw [if_neg hle] at h
    exact nomatch h

theorem length_encodeTokens {tokens : List TokenInfo} {output : Bytes}
    (h : encodeTokens tokens = some output) : output.length ≤ 9 * tokens.length := by
  have hloop : ∀ (indices : List Nat) {outputs : List Bytes},
      indices.mapM (encodeToken tokens) = some outputs →
      outputs.flatten.length ≤ 9 * indices.length := by
    intro indices
    induction indices with
    | nil =>
      intro outputs hmap
      rw [← Option.some.inj hmap]
      exact Nat.le_refl 0
    | cons index rest ih =>
      intro outputs hmap
      simp only [List.mapM_cons, Option.bind_eq_bind, Option.bind_eq_some_iff] at hmap
      obtain ⟨output, houtput, outputs', hrest, heq⟩ := hmap
      have hle := length_encodeToken houtput
      have hle' := ih hrest
      rw [← Option.some.inj heq, List.flatten_cons, List.length_append, List.length_cons]
      omega
  simp only [encodeTokens, Option.bind_eq_bind, Option.bind_eq_some_iff] at h
  obtain ⟨outputs, hmap, h⟩ := h
  have hle := hloop _ hmap
  rw [List.length_range] at hle
  split_ifs at h
  rw [← Option.some.inj h]
  exact hle

end MozkeyDictionary
