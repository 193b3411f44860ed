import Mozkey.TokenArrayProofs

/-! # SystemDictionary — reading the tokens of a key

    `LookupExact` finds the id of the key and runs the callback on the tokens of the
    element at the id.  The iterator keeps what it has read of one token for the next, so
    a token is read over the one before it. -/

namespace MozkeyDictionary

open ByteString MozkeyLouds MozkeySuccinct

/-! ## The dictionary of the source -/

/-- `SystemDictionary`, opened. -/
structure SystemDictionary where
  keyTrie : LoudsTrie
  valueTrie : LoudsTrie
  tokenArray : BitVectorBasedArray
  frequentPos : List Nat

/-- The cache sizes of the two tries. -/
def kKeyTrieLb0CacheSize : Nat := 1 * 1024
def kKeyTrieLb1CacheSize : Nat := 1 * 1024
def kKeyTrieSelect0CacheSize : Nat := 4 * 1024
def kKeyTrieSelect1CacheSize : Nat := 4 * 1024
def kKeyTrieTermvecCacheSize : Nat := 1 * 1024
def kValueTrieLb0CacheSize : Nat := 1 * 1024
def kValueTrieLb1CacheSize : Nat := 1 * 1024
def kValueTrieSelect0CacheSize : Nat := 1 * 1024
def kValueTrieSelect1CacheSize : Nat := 16 * 1024
def kValueTrieTermvecCacheSize : Nat := 4 * 1024

/-- `OpenDictionaryFile` on the sections that the builder has written; `none` where it
    fails.  The container of the sections hands them over as they are, if their sizes are
    counted by an `int32`; those of the tries are where a trie opens. -/
def openDictionaryFile (b : SystemDictionaryBuilder) : Option SystemDictionary := do
  let keyTrie ← LoudsTrie.openTrie b.keyTrieBuilder.image kKeyTrieLb0CacheSize
    kKeyTrieLb1CacheSize kKeyTrieSelect0CacheSize kKeyTrieSelect1CacheSize kKeyTrieTermvecCacheSize
  let valueTrie ← LoudsTrie.openTrie b.valueTrieBuilder.image kValueTrieLb0CacheSize
    kValueTrieLb1CacheSize kValueTrieSelect0CacheSize kValueTrieSelect1CacheSize
    kValueTrieTermvecCacheSize
  guard (b.tokenArrayBuilder.image.length < intLimit)
  let tokenArray ← BitVectorBasedArray.openArray b.tokenArrayBuilder.image
  some
    { keyTrie := keyTrie
      valueTrie := valueTrie
      tokenArray := tokenArray
      frequentPos := frequentPosArray b.frequentPos }

theorem parts_of_openDictionaryFile {b : SystemDictionaryBuilder} {dict : SystemDictionary}
    (h : openDictionaryFile b = some dict) :
    LoudsTrie.openTrie b.keyTrieBuilder.image kKeyTrieLb0CacheSize kKeyTrieLb1CacheSize
      kKeyTrieSelect0CacheSize kKeyTrieSelect1CacheSize kKeyTrieTermvecCacheSize
        = some dict.keyTrie ∧
    LoudsTrie.openTrie b.valueTrieBuilder.image kValueTrieLb0CacheSize kValueTrieLb1CacheSize
      kValueTrieSelect0CacheSize kValueTrieSelect1CacheSize kValueTrieTermvecCacheSize
        = some dict.valueTrie ∧
    b.tokenArrayBuilder.image.length < intLimit ∧
    BitVectorBasedArray.openArray b.tokenArrayBuilder.image = some dict.tokenArray ∧
    dict.frequentPos = frequentPosArray b.frequentPos := by
  simp only [openDictionaryFile, Option.bind_eq_bind, Option.bind_eq_some_iff] at h
  obtain ⟨keyTrie, hkey, valueTrie, hvalue, _, hguard, array, harray, heq⟩ := h
  rw [← Option.some.inj heq]
  refine ⟨hkey, hvalue, ?_, harray, rfl⟩
  by_contra hge
  rw [guard, if_neg hge] at hguard
  cases hguard

/-- `Callback::ResultType`. -/
inductive ResultType where
  | traverseDone
  | traverseNextKey
  | traverseCull
  | traverseContinue
deriving DecidableEq

/-- `Callback`, as functions that work on a state. -/
structure Callback (σ : Type) where
  onKey : Bytes → σ → ResultType × σ
  onActualKey : Bytes → Bytes → Nat → σ → ResultType × σ
  onToken : Bytes → Bytes → Token → σ → ResultType × σ

/-- `TokenDecodeIterator::State`. -/
inductive IteratorState where
  | hasNext
  | lastToken
  | done
deriving DecidableEq

/-- `TokenDecodeIterator`; `token_` is the token of `token_info_`. -/
structure TokenDecodeIterator where
  key : Bytes
  keyKatakana : Bytes
  state : IteratorState
  ptr : Bytes
  tokenInfo : TokenInfo

/-- `token_.value = ...`. -/
def TokenInfo.withValue (info : TokenInfo) (value : Bytes) : TokenInfo :=
  { info with token := { info.token with value := value } }

section

variable (hiraganaToKatakana : Bytes → Bytes) (dict : SystemDictionary)

/-- `LookupValue`; `none` where the value does not fit the buffer. -/
def lookupValue (id : Int) : Option Bytes :=
  (dict.valueTrie.restoreKeyString id).map decodeValue

/-- The `switch` of `NextInternal`: the token and `key_katakana_`. -/
def fillValue (key keyKatakana : Bytes) (prevIdInValueTrie : Int) (info : TokenInfo) :
    Option (TokenInfo × Bytes) :=
  match info.valueType with
  | .defaultValue =>
    (lookupValue dict info.idInValueTrie).map (fun value => (info.withValue value, keyKatakana))
  | .sameAsPrevValue => some ({ info with idInValueTrie := prevIdInValueTrie }, keyKatakana)
  | .asIsHiragana => some (info.withValue info.token.key, keyKatakana)
  | .asIsKatakana =>
    let keyKatakana :=
      if !key.isEmpty && keyKatakana.isEmpty then hiraganaToKatakana key else keyKatakana
    some (info.withValue keyKatakana, keyKatakana)

/-- The accent of `NextInternal`. -/
def fillAccent (info : TokenInfo) : TokenInfo :=
  if info.accentEncodingType = .embeddedInToken then
    info.withValue (info.token.value ++ ascii "_" ++ decimalInt info.accentType)
  else info

/-- The position of `NextInternal`. -/
def fillPos (info : TokenInfo) : TokenInfo :=
  if info.posType = .frequentPos then
    let pos := dict.frequentPos.getD info.idInFrequentPosMap.toNat 0
    { info with token := { info.token with lid := pos >>> 16, rid := pos &&& 0xffff } }
  else info

namespace TokenDecodeIterator

/-- `NextInternal`; `none` where a value does not fit the buffer. -/
def nextInternal (it : TokenDecodeIterator) : Option TokenDecodeIterator :=
  -- the token stays, but for its attributes
  let cleared : TokenInfo :=
    { token := { it.tokenInfo.token with attributes := attributeNone } }
  let (info, readBytes, more) := decodeToken it.ptr cleared
  match fillValue hiraganaToKatakana dict it.key it.keyKatakana it.tokenInfo.idInValueTrie info with
  | none => none
  | some (info, keyKatakana) =>
    some
      { it with
        keyKatakana := keyKatakana
        state := if more then it.state else .lastToken
        ptr := it.ptr.drop readBytes
        tokenInfo := fillPos dict (fillAccent info) }

/-- `Next`. -/
def next (it : TokenDecodeIterator) : Option TokenDecodeIterator :=
  if it.state = .lastToken then some { it with state := .done }
  else it.nextInternal hiraganaToKatakana dict

/-- The constructor of the iterator. -/
def init (key ptr : Bytes) : TokenDecodeIterator :=
  { key := key
    keyKatakana := []
    state := .hasNext
    ptr := ptr
    tokenInfo :=
      { token := { key := key, value := [], cost := 0, lid := 0, rid := 0, attributes := 0 } } }

end TokenDecodeIterator

variable {σ : Type} (callback : Callback σ)

/-- The loop of `LookupExact`; `none` where it does not end. -/
def reportTokens (key : Bytes) : Nat → TokenDecodeIterator → σ → Option σ
  | 0, _, _ => none
  | fuel + 1, it, s =>
    if it.state = .done then some s
    else
      let (result, s) := callback.onToken key key it.tokenInfo.token s
      if result ≠ .traverseContinue then some s
      else (it.next hiraganaToKatakana dict).bind (fun it => reportTokens key fuel it s)

/-- `LookupExact`: the state of the callback; `none` where the loop does not end. -/
def lookupExact (fuel : Nat) (key : Bytes) (s : σ) : Option σ :=
  let keyId := dict.keyTrie.exactSearch (encodeKey key)
  if keyId = -1 then some s
  else
    let (result, s) := callback.onKey key s
    if result ≠ .traverseContinue then some s
    else
      let (result, s) := callback.onActualKey key key 0 s
      if result ≠ .traverseContinue then some s
      else
        ((TokenDecodeIterator.init key (dict.tokenArray.bytesFrom keyId.toNat)).nextInternal
          hiraganaToKatakana dict).bind
            (fun it => reportTokens hiraganaToKatakana dict callback key fuel it s)

end

/-! ## A token over the one before it -/

/-- The token that is reported for a key. -/
def report (key : Bytes) (info : TokenInfo) : Token :=
  { info.token with key := key, cost := reportedCost info }

/-- **WHAT IS READ** over a cleared token. -/
theorem readToken_cleared (info : TokenInfo) (token : Token) :
    readToken info { token := token }
      = { token :=
            { key := token.key
              value := token.value
              cost := reportedCost info
              lid := if info.posType = .defaultPos then info.token.lid else token.lid
              rid := if info.posType = .defaultPos then info.token.rid else token.rid
              attributes :=
                if isSpelling info then attributeSpellingCorrection else token.attributes }
          idInValueTrie := if info.valueType = .defaultValue then info.idInValueTrie else -1
          idInFrequentPosMap :=
            if info.posType = .frequentPos then info.idInFrequentPosMap else -1
          posType := info.posType
          valueType := info.valueType } := by
  rw [readToken, readCost, readPos, readAttributes, readValueInfo]
  cases hspelling : isSpelling info <;> cases hpos : info.posType <;>
    cases hvalue : info.valueType <;> rfl

theorem combinedPos_inverse {lid rid : Nat} (hrid : rid ≤ kPosMax) :
    getCombinedPos lid rid >>> 16 = lid ∧ getCombinedPos lid rid &&& 0xffff = rid := by
  have hlt : rid < 2 ^ 16 := Nat.lt_of_le_of_lt hrid (by decide)
  have heq : getCombinedPos lid rid = lid * 2 ^ 16 + rid := by
    rw [getCombinedPos, ← Nat.shiftLeft_add_eq_or_of_lt hlt, Nat.shiftLeft_eq]
  have hand : ∀ n, n &&& 0xffff = n % 2 ^ 16 := fun n => Nat.and_two_pow_sub_one_eq_mod n 16
  rw [heq, hand, Nat.shiftRight_eq_div_pow]
  omega

/-- What the decoder needs of a token and the one before it. -/
structure Decodable (hiraganaToKatakana : Bytes → Bytes) (dict : SystemDictionary) (key : Bytes)
    (prev : Option Token) (info : TokenInfo) : Prop where
  rid_le : info.token.rid ≤ kPosMax
  attributes : info.token.attributes = attributeNone ∨
    info.token.attributes = attributeSpellingCorrection
  frequent : info.posType = .frequentPos →
    dict.frequentPos.getD info.idInFrequentPosMap.toNat 0 = info.token.pos
  samePos : info.posType = .sameAsPrevPos →
    ∃ p ∈ prev, p.lid = info.token.lid ∧ p.rid = info.token.rid
  stored : info.valueType = .defaultValue →
    lookupValue dict info.idInValueTrie = some info.token.value
  hiragana : info.valueType = .asIsHiragana → info.token.value = key
  katakana : info.valueType = .asIsKatakana → info.token.value = hiraganaToKatakana key
  sameValue : info.valueType = .sameAsPrevValue → ∃ p ∈ prev, p.value = info.token.value

/-- The iterator holds what it has read of the token before. -/
structure Holds (hiraganaToKatakana : Bytes → Bytes) (key : Bytes) (prev : Option Token)
    (it : TokenDecodeIterator) : Prop where
  key_eq : it.key = key
  token_key : it.tokenInfo.token.key = key
  katakana : it.keyKatakana = [] ∨ it.keyKatakana = hiraganaToKatakana key
  prev : ∀ p ∈ prev, it.tokenInfo.token.value = p.value ∧ it.tokenInfo.token.lid = p.lid ∧
    it.tokenInfo.token.rid = p.rid

section

variable {hiraganaToKatakana : Bytes → Bytes} {dict : SystemDictionary} {key : Bytes}

variable {info : TokenInfo}

theorem attributes_of_isSpelling (h : info.token.attributes = attributeNone ∨
      info.token.attributes = attributeSpellingCorrection) :
    (if isSpelling info then attributeSpellingCorrection else attributeNone)
      = info.token.attributes := by
  rw [isSpelling]
  rcases h with h | h
  · rw [h]
    rfl
  · rw [h]
    rfl

variable {prev : Option Token}

/-- **THE VALUE IS FILLED** from the trie, the key or the token before. -/
theorem fillValue_eq (read : TokenInfo) {keyKatakana : Bytes} (hkey : key ≠ [])
    (h : Decodable hiraganaToKatakana dict key prev info) (prevId : Int)
    (htype : read.valueType = info.valueType)
    (hid : info.valueType = .defaultValue → read.idInValueTrie = info.idInValueTrie)
    (hread : read.token.key = key) (hprev : ∀ p ∈ prev, read.token.value = p.value)
    (hkatakana : keyKatakana = [] ∨ keyKatakana = hiraganaToKatakana key) :
    ∃ id keyKatakana', (keyKatakana' = [] ∨ keyKatakana' = hiraganaToKatakana key) ∧
      fillValue hiraganaToKatakana dict key keyKatakana prevId read
        = some ({ read.withValue info.token.value with idInValueTrie := id }, keyKatakana') := by
  rw [fillValue]
  split
  · rename_i hread'
    have htype' := htype.symm.trans hread'
    have hlookup : lookupValue dict read.idInValueTrie = some info.token.value := by
      rw [hid htype']
      exact h.stored htype'
    refine ⟨read.idInValueTrie, keyKatakana, hkatakana, ?_⟩
    rw [hlookup]
    rfl
  · rename_i hread'
    obtain ⟨p, hp, heq⟩ := h.sameValue (htype.symm.trans hread')
    refine ⟨prevId, keyKatakana, hkatakana, ?_⟩
    rw [← heq, ← hprev p hp]
    rfl
  · rename_i hread'
    refine ⟨read.idInValueTrie, keyKatakana, hkatakana, ?_⟩
    rw [h.hiragana (htype.symm.trans hread'), hread]
    rfl
  · rename_i hread'
    have hfilled : (if !key.isEmpty && keyKatakana.isEmpty then hiraganaToKatakana key
        else keyKatakana) = hiraganaToKatakana key := by
      have hne : (!key.isEmpty) = true := by
        rw [Bool.not_eq_true', List.isEmpty_eq_false_iff]
        exact hkey
      rw [hne, Bool.true_and]
      rcases hkatakana with rfl | rfl
      · rfl
      · exact ite_self _
    refine ⟨read.idInValueTrie, hiraganaToKatakana key, Or.inr rfl, ?_⟩
    dsimp only
    rw [hfilled, h.katakana (htype.symm.trans hread')]
    rfl

/-- **THE POSITION IS FILLED** from the array, the bytes or the token before. -/
theorem fillPos_eq {read : TokenInfo} (h : Decodable hiraganaToKatakana dict key prev info)
    (htype : read.posType = info.posType)
    (hid : info.posType = .frequentPos → read.idInFrequentPosMap = info.idInFrequentPosMap)
    (hdefault : info.posType = .defaultPos →
      read.token.lid = info.token.lid ∧ read.token.rid = info.token.rid)
    (hprev : info.posType = .sameAsPrevPos →
      ∀ p ∈ prev, read.token.lid = p.lid ∧ read.token.rid = p.rid) :
    (fillPos dict read).token
      = { read.token with lid := info.token.lid, rid := info.token.rid } := by
  rw [fillPos, htype]
  cases htype' : info.posType with
  | defaultPos =>
    obtain ⟨hlid, hrid⟩ := hdefault htype'
    rw [if_neg (by decide), ← hlid, ← hrid]
  | sameAsPrevPos =>
    obtain ⟨p, hp, hlid, hrid⟩ := h.samePos htype'
    obtain ⟨hlid', hrid'⟩ := hprev htype' p hp
    rw [if_neg (by decide), ← hlid, ← hrid, ← hlid', ← hrid']
  | frequentPos =>
    obtain ⟨hlid, hrid⟩ := combinedPos_inverse h.rid_le
    have hget := h.frequent htype'
    rw [Token.pos] at hget
    rw [if_pos rfl]
    dsimp only
    rw [hid htype', hget, hlid, hrid]

/-- **A TOKEN IS DECODED** over the one before it. -/
theorem nextInternal_eq {it : TokenDecodeIterator} (hkey : key ≠ [])
    (hholds : Holds hiraganaToKatakana key prev it)
    (h : Decodable hiraganaToKatakana dict key prev info) {last : Bool} {output rest : Bytes}
    (hread : ReadsToken info last output) (hptr : it.ptr = output ++ rest) :
    ∃ it', it.nextInternal hiraganaToKatakana dict = some it' ∧
      Holds hiraganaToKatakana key (some info.token) it' ∧ it'.tokenInfo.token = report key info ∧
      it'.state = (if last then .lastToken else it.state) ∧ it'.ptr = rest := by
  generalize htoken : ({ it.tokenInfo.token with attributes := attributeNone } : Token) = token
  have hdecode : decodeToken it.ptr { token := token }
      = (readToken info { token := token }, output.length, !last) := by
    rw [hptr]
    exact hread rest _
  have hcleared := readToken_cleared info token
  have hkey' : token.key = key := by rw [← htoken]; exact hholds.token_key
  have hattributes : token.attributes = attributeNone := by rw [← htoken]
  have hprev : ∀ p ∈ prev, token.value = p.value ∧ token.lid = p.lid ∧ token.rid = p.rid := by
    rw [← htoken]
    exact hholds.prev
  generalize readToken info { token := token } = read at hdecode hcleared
  obtain ⟨id, keyKatakana, hkatakana, hfill⟩ := fillValue_eq read hkey h
    it.tokenInfo.idInValueTrie (by rw [hcleared])
    (fun hd => by rw [hcleared]; exact if_pos hd) (by rw [hcleared]; exact hkey')
    (by rw [hcleared]; exact fun p hp => (hprev p hp).1) hholds.katakana
  obtain ⟨filled, hfilled⟩ : ∃ filled : TokenInfo,
      filled = { read.withValue info.token.value with idInValueTrie := id } := ⟨_, rfl⟩
  rw [← hfilled] at hfill
  have htoken' : filled.token
      = { key := key
          value := info.token.value
          cost := reportedCost info
          lid := if info.posType = .defaultPos then info.token.lid else token.lid
          rid := if info.posType = .defaultPos then info.token.rid else token.rid
          attributes := info.token.attributes } := by
    rw [hfilled, hcleared, hkey', hattributes, attributes_of_isSpelling h.attributes]
    rfl
  have haccent : fillAccent filled = filled := by
    rw [hfilled, hcleared]
    rfl
  have hreport : (fillPos dict (fillAccent filled)).token = report key info := by
    rw [haccent, fillPos_eq h (by rw [hfilled, hcleared]; rfl)
      (fun hpos => by rw [hfilled, hcleared]; exact if_pos hpos)
      (fun hpos => by rw [htoken']; exact ⟨if_pos hpos, if_pos hpos⟩) ?_, htoken', report]
    intro hpos p hp
    have hne : info.posType ≠ .defaultPos := by rw [hpos]; decide
    rw [htoken']
    exact ⟨(if_neg hne).trans (hprev p hp).2.1, (if_neg hne).trans (hprev p hp).2.2⟩
  refine ⟨{ it with
      keyKatakana := keyKatakana
      state := if !last then it.state else .lastToken
      ptr := it.ptr.drop output.length
      tokenInfo := fillPos dict (fillAccent filled) }, ?_, ?_, hreport, ?_, ?_⟩
  · rw [TokenDecodeIterator.nextInternal]
    dsimp only
    rw [htoken, hdecode]
    dsimp only
    rw [hholds.key_eq, hfill]
  · refine ⟨hholds.key_eq, ?_, hkatakana, ?_⟩
    · rw [hreport]
      rfl
    · intro p hp
      rw [hreport, ← Option.some.inj hp]
      exact ⟨rfl, rfl, rfl⟩
  · cases last <;> rfl
  · rw [hptr]
    exact List.drop_left

/-! ## All tokens of a key -/

variable {σ : Type} {callback : Callback σ}

/-- A callback that never stops the search. -/
structure Callback.Continues (callback : Callback σ) : Prop where
  onKey : ∀ key s, (callback.onKey key s).1 = .traverseContinue
  onActualKey : ∀ key actualKey numExpanded s,
    (callback.onActualKey key actualKey numExpanded s).1 = .traverseContinue
  onToken : ∀ key actualKey token s,
    (callback.onToken key actualKey token s).1 = .traverseContinue

/-- The state of a callback behind tokens. -/
def afterTokens (callback : Callback σ) (key : Bytes) (tokens : List Token) (s : σ) : σ :=
  tokens.foldl (fun s token => (callback.onToken key key token s).2) s

/-- The state of a callback behind a key and its tokens. -/
def afterKey (callback : Callback σ) (key : Bytes) (tokens : List Token) (s : σ) : σ :=
  afterTokens callback key tokens
    (callback.onActualKey key key 0 (callback.onKey key s).2).2

/-- **ALL TOKENS ARE REPORTED** in their order; the induction is on the tokens that are not
    yet decoded. -/
theorem reportTokens_eq (hkey : key ≠ []) (hcallback : callback.Continues) :
    ∀ {infos : List TokenInfo} {outputs : List Bytes} {prev : Option Token}
      {it : TokenDecodeIterator} {s : σ} {fuel : Nat} {rest : Bytes}, infos ≠ [] →
      Chain (Decodable hiraganaToKatakana dict key) prev infos → ReadsTokens infos outputs →
      Holds hiraganaToKatakana key prev it → it.ptr = outputs.flatten ++ rest →
      it.state = .hasNext → infos.length < fuel →
      ∃ it', it.nextInternal hiraganaToKatakana dict = some it' ∧
        reportTokens hiraganaToKatakana dict callback key fuel it' s
          = some (afterTokens callback key (infos.map (report key)) s) := by
  intro infos
  induction infos with
  | nil => intro _ _ _ _ _ _ hne; exact absurd rfl hne
  | cons info infos ih =>
    intro outputs prev it s fuel rest _ hchain hreads hholds hptr hstate hfuel
    cases outputs with
    | nil => exact absurd hreads id
    | cons output outputs =>
      obtain ⟨fuel, rfl⟩ :=
        Nat.exists_eq_succ_of_ne_zero (Nat.ne_of_gt (Nat.zero_lt_of_lt hfuel))
      rw [List.length_cons] at hfuel
      rw [List.flatten_cons, List.append_assoc] at hptr
      obtain ⟨it', hnext, hholds', htoken, hstate', hptr'⟩ :=
        nextInternal_eq hkey hholds hchain.1 hreads.1 hptr
      refine ⟨it', hnext, ?_⟩
      have hopen : it'.state ≠ .done := by
        rw [hstate', hstate]
        cases infos.isEmpty <;> decide
      rw [reportTokens, if_neg hopen, htoken]
      dsimp only
      rw [if_neg (fun hc => hc (hcallback.onToken _ _ _ _)), List.map_cons, afterTokens,
        List.foldl_cons]
      cases infos with
      | nil =>
        obtain ⟨fuel, rfl⟩ := Nat.exists_eq_succ_of_ne_zero (show fuel ≠ 0 from by
          rw [List.length_nil] at hfuel
          omega)
        have hlast : it'.state = .lastToken := hstate'
        rw [TokenDecodeIterator.next, if_pos hlast, Option.bind_some, reportTokens,
          if_pos rfl]
        rfl
      | cons info' infos =>
        have hmore : it'.state = .hasNext := hstate'.trans hstate
        obtain ⟨it'', hnext', hrun⟩ := ih
          (s := (callback.onToken key key (report key info) s).2) (List.cons_ne_nil _ _)
          hchain.2 hreads.2 hholds' hptr' hmore (Nat.lt_of_succ_lt_succ hfuel)
        rw [TokenDecodeIterator.next, if_neg (by rw [hmore]; decide), hnext',
          Option.bind_some, hrun]
        rfl

/-! ## The lookup of a key -/

/-- **THE LOOKUP OF A KEY WITH AN ID** reports the tokens of its element. -/
theorem lookupExact_of_id (hkey : key ≠ []) (hcallback : callback.Continues) {id : Int}
    (hid : dict.keyTrie.exactSearch (encodeKey key) = id) (hpos : 0 ≤ id)
    {infos : List TokenInfo} {outputs : List Bytes} {rest : Bytes} (hne : infos ≠ [])
    (hchain : Chain (Decodable hiraganaToKatakana dict key) none infos)
    (hreads : ReadsTokens infos outputs)
    (hget : dict.tokenArray.bytesFrom id.toNat = outputs.flatten ++ rest) {fuel : Nat}
    (hfuel : infos.length < fuel) (s : σ) :
    lookupExact hiraganaToKatakana dict callback fuel key s
      = some (afterKey callback key (infos.map (report key)) s) := by
  have hholds : Holds hiraganaToKatakana key none
      (TokenDecodeIterator.init key (dict.tokenArray.bytesFrom id.toNat)) :=
    ⟨rfl, rfl, Or.inl rfl, fun p hp => (nomatch hp)⟩
  obtain ⟨it, hnext, hrun⟩ := reportTokens_eq
    (s := (callback.onActualKey key key 0 (callback.onKey key s).2).2) hkey hcallback hne hchain
    hreads hholds hget rfl hfuel
  rw [lookupExact, hid, if_neg (by omega)]
  dsimp only
  rw [if_neg (fun hc => hc (hcallback.onKey _ _)),
    if_neg (fun hc => hc (hcallback.onActualKey _ _ _ _)), hnext, Option.bind_some, hrun]
  rfl

/-- **THE LOOKUP OF A KEY WITHOUT AN ID** calls nothing. -/
theorem lookupExact_of_no_id (hid : dict.keyTrie.exactSearch (encodeKey key) = -1) (fuel : Nat)
    (s : σ) : lookupExact hiraganaToKatakana dict callback fuel key s = some s := by
  rw [lookupExact, hid]
  exact if_pos rfl

end

end MozkeyDictionary
