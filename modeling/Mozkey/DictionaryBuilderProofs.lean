import Mozkey.BitVectorArrayProofs
import Mozkey.FrequentPosProofs
import Mozkey.LoudsAgreementProofs
import Mozkey.TokenCodecProofs

/-! # SystemDictionaryBuilder — the passes over the keys

    `BuildFromTokens` groups the tokens by their keys, builds the tries, and lets one pass
    after the other decide how a token is written: by its position among the frequent ones
    or that of the token before, by its value as the key, in katakana, in the trie or that
    of the token before, and by its cost without the low bits. -/

namespace MozkeyDictionary

open ByteString OrderedMap MozkeyUtil MozkeyLouds

/-! ## The builder of the source -/

/-- `KeyInfo`: a key with its tokens. -/
structure KeyInfo where
  idInKeyTrie : Int := -1
  key : Bytes
  tokens : List TokenInfo := []

/-- `SystemDictionaryBuilder`. -/
structure SystemDictionaryBuilder where
  valueTrieBuilder : LoudsTrieBuilder
  keyTrieBuilder : LoudsTrieBuilder
  tokenArrayBuilder : BitVectorBasedArrayBuilder
  frequentPos : SortedMap Nat Nat

/-- `GetCombinedPos`. -/
def getCombinedPos (lid rid : Nat) : Nat := (lid <<< 16) ||| rid

/-- The combined position of a token. -/
def Token.pos (token : Token) : Nat := getCombinedPos token.lid token.rid

section

-- `japanese_util::HiraganaToKatakana` is any function
variable (hiraganaToKatakana : Bytes → Bytes)

/-- `GetValueType`. -/
def getValueType (token : Token) : ValueType :=
  if token.value = token.key then .asIsHiragana
  else if token.value = hiraganaToKatakana token.key then .asIsKatakana
  else .defaultValue

/-- A token as `ReadTokens` puts it into the list. -/
def tokenInfoOf (token : Token) : TokenInfo :=
  { token := token, valueType := getValueType hiraganaToKatakana token }

/-- The second step of `ReadTokens`, with `last_key_info`. -/
def groupTokens : KeyInfo → List Token → List KeyInfo
  | lastKeyInfo, [] => [lastKeyInfo]
  | lastKeyInfo, token :: rest =>
    if lastKeyInfo.key ≠ token.key then
      lastKeyInfo ::
        groupTokens { key := token.key, tokens := [tokenInfoOf hiraganaToKatakana token] } rest
    else
      groupTokens { lastKeyInfo with
        tokens := lastKeyInfo.tokens ++ [tokenInfoOf hiraganaToKatakana token] } rest

/-- `ReadTokens`; `none` where a `CHECK` fails. -/
def readTokens (tokens : List Token) : Option (List KeyInfo) :=
  if tokens.any (fun token => token.key.isEmpty || token.value.isEmpty) then none
  else
    -- a stable sort
    match tokens.insertionSort (fun l r => l.key ≤ r.key) with
    | [] => some []
    | front :: rest => some (groupTokens hiraganaToKatakana { key := front.key } (front :: rest))

end

/-- The positions that `BuildFrequentPos` counts. -/
def combinedPoses (keyInfoList : List KeyInfo) : List Nat :=
  keyInfoList.flatMap (fun keyInfo => keyInfo.tokens.map (fun info => info.token.pos))

/-- The values that `BuildValueTrie` adds. -/
def storedValues (keyInfoList : List KeyInfo) : List Bytes :=
  keyInfoList.flatMap (fun keyInfo =>
    (keyInfo.tokens.filter (fun info =>
      !(info.valueType = .asIsHiragana || info.valueType = .asIsKatakana))).map
        (fun info => encodeValue info.token.value))

/-- `BuildValueTrie`. -/
def buildValueTrie (keyInfoList : List KeyInfo) : Option LoudsTrieBuilder :=
  buildAll (storedValues keyInfoList)

/-- `BuildKeyTrie`. -/
def buildKeyTrie (keyInfoList : List KeyInfo) : Option LoudsTrieBuilder :=
  buildAll (keyInfoList.map (fun keyInfo => encodeKey keyInfo.key))

/-- `SetIdForValue`. -/
def setIdForValue (b : LoudsTrieBuilder) (keyInfoList : List KeyInfo) : Option (List KeyInfo) :=
  keyInfoList.mapM (fun keyInfo => do
    let tokens ← keyInfo.tokens.mapM (fun info => do
      let id ← b.getId (encodeValue info.token.value)
      some { info with idInValueTrie := id })
    some { keyInfo with tokens := tokens })

/-- `SetIdForKey`. -/
def setIdForKey (b : LoudsTrieBuilder) (keyInfoList : List KeyInfo) : Option (List KeyInfo) :=
  keyInfoList.mapM (fun keyInfo => do
    let id ← b.getId (encodeKey keyInfo.key)
    some { keyInfo with idInKeyTrie := id })

/-- The comparison of `SortTokenInfo`; the order of the positions is swapped. -/
def tokenLess (lhs rhs : TokenInfo) : Bool :=
  decide (rhs.token.lid < lhs.token.lid) ||
    (decide (rhs.token.lid = lhs.token.lid) && (decide (rhs.token.rid < lhs.token.rid) ||
      (decide (rhs.token.rid = lhs.token.rid) && (decide (lhs.idInValueTrie < rhs.idInValueTrie) ||
        (decide (lhs.idInValueTrie = rhs.idInValueTrie) &&
          decide (lhs.token.attributes < rhs.token.attributes))))))

/-- `SortTokenInfo` for a key; a stable sort. -/
def sortTokenInfo (keyInfo : KeyInfo) : KeyInfo :=
  { keyInfo with
    tokens := keyInfo.tokens.insertionSort (fun lhs rhs => tokenLess rhs lhs = false) }

/-- `seen_reading_map` and `heterophone_values` of `SetCostType`. -/
structure Heterophones where
  seenReadingMap : List (Bytes × Bytes) := []
  heterophoneValues : List Bytes := []

/-- The body of the first loop of `SetCostType`. -/
def Heterophones.visit (h : Heterophones) (token : Token) : Heterophones :=
  if token.value ∈ h.heterophoneValues then h
  else
    match h.seenReadingMap.lookup token.value with
    | none => { h with seenReadingMap := (token.value, token.key) :: h.seenReadingMap }
    | some reading =>
      if reading = token.key then h
      else { h with heterophoneValues := token.value :: h.heterophoneValues }

/-- The first loop of `SetCostType`. -/
def heterophoneValues (keyInfoList : List KeyInfo) : List Bytes :=
  ((keyInfoList.flatMap KeyInfo.tokens).foldl (fun h info => h.visit info.token)
    ({} : Heterophones)).heterophoneValues

/-- The loop of `HasHomonymsInSamePos`, with `seen`. -/
def hasHomonymsLoop : List Nat → List TokenInfo → Bool
  | _, [] => false
  | seen, info :: rest =>
    if info.token.pos ∈ seen then true else hasHomonymsLoop (info.token.pos :: seen) rest

/-- `HasHomonymsInSamePos`. -/
def hasHomonymsInSamePos (keyInfo : KeyInfo) : Bool :=
  if keyInfo.tokens.length = 1 then false else hasHomonymsLoop [] keyInfo.tokens

/-- `HasHeterophones`. -/
def hasHeterophones (keyInfo : KeyInfo) (values : List Bytes) : Bool :=
  keyInfo.tokens.any (fun info => decide (info.token.value ∈ values))

/-- `SetCostType` for a key; the flag for the least length is a parameter. -/
def setCostType (minKeyLen : Nat) (values : List Bytes) (keyInfo : KeyInfo) : KeyInfo :=
  if charsLen keyInfo.key < minKeyLen then keyInfo
  else if hasHomonymsInSamePos keyInfo then keyInfo
  else if hasHeterophones keyInfo values then keyInfo
  else
    { keyInfo with
      tokens := keyInfo.tokens.map (fun info =>
        if info.token.cost < 0x100 then info
        else { info with costType := .canUseSmallEncoding }) }

/-- A loop over the tokens of a key whose body looks at the token before. -/
def overTokens (body : Option Token → TokenInfo → TokenInfo) : Option Token → List TokenInfo →
    List TokenInfo
  | _, [] => []
  | prev, info :: rest => body prev info :: overTokens body (some info.token) rest

/-- The body of the loop of `SetPosType`. -/
def setPosTypeOf (frequentPos : SortedMap Nat Nat) (prev : Option Token) (info : TokenInfo) :
    TokenInfo :=
  let pos := info.token.pos
  let info :=
    match frequentPos.get? pos with
    | some id => { info with posType := .frequentPos, idInFrequentPosMap := (id : Int) }
    | none => info
  -- we can overwrite a frequent position
  if prev.any (fun prev => decide (prev.pos = pos)) then { info with posType := .sameAsPrevPos }
  else info

/-- `SetPosType` for a key. -/
def setPosType (frequentPos : SortedMap Nat Nat) (keyInfo : KeyInfo) : KeyInfo :=
  { keyInfo with tokens := overTokens (setPosTypeOf frequentPos) none keyInfo.tokens }

/-- The body of the loop of `SetValueType`. -/
def setValueTypeOf (prev : Option Token) (info : TokenInfo) : TokenInfo :=
  if prev.any (fun prev => decide (info.valueType ≠ .asIsHiragana) &&
      (decide (info.valueType ≠ .asIsKatakana) && decide (info.token.value = prev.value))) then
    { info with valueType := .sameAsPrevValue }
  else info

/-- `SetValueType` for a key. -/
def setValueType (keyInfo : KeyInfo) : KeyInfo :=
  { keyInfo with tokens := overTokens setValueTypeOf none keyInfo.tokens }

/-- `id_to_keyinfo_table`; `none` where an id is no index. -/
def idToKeyInfoTable (keyInfoList : List KeyInfo) : Option (List (Option KeyInfo)) :=
  keyInfoList.foldlM (fun (table : List (Option KeyInfo)) keyInfo =>
    if 0 ≤ keyInfo.idInKeyTrie ∧ keyInfo.idInKeyTrie < (table.length : Int) then
      some (table.set keyInfo.idInKeyTrie.toNat (some keyInfo))
    else none) (List.replicate keyInfoList.length none)

/-- `BuildTokenArray`; `none` where it fails, or an entry of the table is null. -/
def buildTokenArray (keyInfoList : List KeyInfo) (b : BitVectorBasedArrayBuilder) :
    Option BitVectorBasedArrayBuilder := do
  let table ← idToKeyInfoTable keyInfoList
  let b ← table.foldlM (fun b entry => do
    let keyInfo ← entry
    let element ← encodeTokens keyInfo.tokens
    b.add element) b
  let b ← b.add [kTokenTerminationFlag]
  b.build

/-- `BuildFromTokens`: the list behind the passes and the builder; `none` where it fails. -/
def buildFromTokens (hiraganaToKatakana : Bytes → Bytes) (minKeyLen : Nat) (tokens : List Token) :
    Option (List KeyInfo × SystemDictionaryBuilder) := do
  let keyInfoList ← readTokens hiraganaToKatakana tokens
  let frequentPos ← buildFrequentPos (combinedPoses keyInfoList)
  let valueTrieBuilder ← buildValueTrie keyInfoList
  let keyTrieBuilder ← buildKeyTrie keyInfoList
  let keyInfoList ← setIdForValue valueTrieBuilder keyInfoList
  let keyInfoList ← setIdForKey keyTrieBuilder keyInfoList
  let keyInfoList := keyInfoList.map sortTokenInfo
  let keyInfoList := keyInfoList.map (setCostType minKeyLen (heterophoneValues keyInfoList))
  let keyInfoList := keyInfoList.map (setPosType frequentPos)
  let keyInfoList := keyInfoList.map setValueType
  let tokenArrayBuilder ← buildTokenArray keyInfoList {}
  some (keyInfoList,
    { valueTrieBuilder := valueTrieBuilder
      keyTrieBuilder := keyTrieBuilder
      tokenArrayBuilder := tokenArrayBuilder
      frequentPos := frequentPos })

/-! ## Grouping -/

section

variable {hiraganaToKatakana : Bytes → Bytes}

/-- The groups hold the tokens, in their order. -/
theorem flatMap_groupTokens : ∀ (tokens : List Token) (last : KeyInfo),
    (groupTokens hiraganaToKatakana last tokens).flatMap KeyInfo.tokens
      = last.tokens ++ tokens.map (tokenInfoOf hiraganaToKatakana) := by
  intro tokens
  induction tokens with
  | nil => intro last; rw [groupTokens, List.flatMap_cons]; rfl
  | cons token rest ih =>
    intro last
    rw [groupTokens]
    by_cases hkey : last.key ≠ token.key
    · rw [if_pos hkey, List.flatMap_cons, ih]
      rfl
    · rw [if_neg hkey, ih, List.append_assoc]
      rfl

theorem key_groupTokens : ∀ (tokens : List Token) {last : KeyInfo},
    (∀ info ∈ last.tokens, info.token.key = last.key) →
    ∀ keyInfo ∈ groupTokens hiraganaToKatakana last tokens, ∀ info ∈ keyInfo.tokens,
      info.token.key = keyInfo.key := by
  intro tokens
  induction tokens with
  | nil =>
    intro last hlast keyInfo hmem
    rw [groupTokens, List.mem_singleton] at hmem
    rw [hmem]
    exact hlast
  | cons token rest ih =>
    intro last hlast keyInfo hmem
    rw [groupTokens] at hmem
    by_cases hkey : last.key ≠ token.key
    · rw [if_pos hkey] at hmem
      rcases List.mem_cons.mp hmem with rfl | hmem
      · exact hlast
      · refine ih (fun info hinfo => ?_) keyInfo hmem
        rw [List.mem_singleton.mp hinfo]
        rfl
    · rw [if_neg hkey] at hmem
      refine ih (fun info hinfo => ?_) keyInfo hmem
      rcases List.mem_append.mp hinfo with hold | hnew
      · exact hlast info hold
      · rw [List.mem_singleton.mp hnew]
        exact (not_not.mp hkey).symm

/-- A group has a token, if the first one has or gets one. -/
theorem ne_nil_groupTokens : ∀ (tokens : List Token) {last : KeyInfo},
    (last.tokens = [] → ∃ token ∈ tokens.head?, last.key = token.key) →
    ∀ keyInfo ∈ groupTokens hiraganaToKatakana last tokens, keyInfo.tokens ≠ [] := by
  intro tokens
  induction tokens with
  | nil =>
    intro last hlast keyInfo hmem hnil
    rw [groupTokens, List.mem_singleton] at hmem
    obtain ⟨token, htoken, -⟩ := hlast (hmem ▸ hnil)
    exact nomatch htoken
  | cons token rest ih =>
    intro last hlast keyInfo hmem
    rw [groupTokens] at hmem
    by_cases hkey : last.key ≠ token.key
    · rw [if_pos hkey] at hmem
      rcases List.mem_cons.mp hmem with rfl | hmem
      · intro hnil
        obtain ⟨token', htoken, heq⟩ := hlast hnil
        rw [← Option.some.inj htoken] at heq
        exact hkey heq
      · exact ih (fun hnil => absurd hnil (List.cons_ne_nil _ _)) keyInfo hmem
    · rw [if_neg hkey] at hmem
      exact ih (fun hnil => absurd hnil (List.concat_ne_nil _ _)) keyInfo hmem

/-- The keys of the groups increase, if those of the tokens do not decrease. -/
theorem pairwise_groupTokens : ∀ (tokens : List Token) (last : KeyInfo),
    tokens.Pairwise (fun l r => l.key ≤ r.key) → (∀ token ∈ tokens, last.key ≤ token.key) →
    ((groupTokens hiraganaToKatakana last tokens).map KeyInfo.key).Pairwise (· < ·) ∧
      ∀ keyInfo ∈ groupTokens hiraganaToKatakana last tokens, last.key ≤ keyInfo.key := by
  intro tokens
  induction tokens with
  | nil =>
    intro last _ _
    refine ⟨List.pairwise_singleton _ _, ?_⟩
    intro keyInfo hmem
    rw [groupTokens, List.mem_singleton] at hmem
    rw [hmem]
  | cons token rest ih =>
    intro last hsorted hlast
    obtain ⟨hhead, htail⟩ := List.pairwise_cons.mp hsorted
    have hle := hlast token List.mem_cons_self
    rw [groupTokens]
    by_cases hkey : last.key ≠ token.key
    · obtain ⟨hkeys, hall⟩ :=
        ih { key := token.key, tokens := [tokenInfoOf hiraganaToKatakana token] } htail hhead
      have hlt : last.key < token.key := lt_of_le_of_ne hle hkey
      rw [if_pos hkey]
      refine ⟨List.pairwise_cons.mpr ⟨?_, hkeys⟩, ?_⟩
      · intro key hmem
        obtain ⟨keyInfo, hmem', rfl⟩ := List.mem_map.mp hmem
        exact lt_of_lt_of_le hlt (hall keyInfo hmem')
      · intro keyInfo hmem
        rcases List.mem_cons.mp hmem with rfl | hmem
        · exact le_refl _
        · exact le_trans (le_of_lt hlt) (hall keyInfo hmem)
    · rw [if_neg hkey]
      exact ih _ htail (fun token' hmem => le_trans hle (hhead token' hmem))

variable (hiraganaToKatakana) in
/-- A list of keys with the tokens of each. -/
structure ReadFrom (tokens : List Token) (keyInfoList : List KeyInfo) : Prop where
  keys_nodup : (keyInfoList.map KeyInfo.key).Nodup
  infos : (keyInfoList.flatMap KeyInfo.tokens).Perm (tokens.map (tokenInfoOf hiraganaToKatakana))
  key_eq : ∀ keyInfo ∈ keyInfoList, ∀ info ∈ keyInfo.tokens, info.token.key = keyInfo.key
  ne_nil : ∀ keyInfo ∈ keyInfoList, keyInfo.tokens ≠ []

/-- **THE TOKENS ARE GROUPED** by their keys. -/
theorem readFrom_readTokens {tokens : List Token}
    (hne : ∀ token ∈ tokens, token.key ≠ [] ∧ token.value ≠ []) :
    ∃ keyInfoList, readTokens hiraganaToKatakana tokens = some keyInfoList ∧
      ReadFrom hiraganaToKatakana tokens keyInfoList := by
  have hcheck : ¬ tokens.any (fun token => token.key.isEmpty || token.value.isEmpty) = true := by
    intro h
    obtain ⟨token, hmem, hempty⟩ := List.any_eq_true.mp h
    rw [Bool.or_eq_true, List.isEmpty_iff, List.isEmpty_iff] at hempty
    exact hempty.elim (hne token hmem).1 (hne token hmem).2
  have hperm := List.perm_insertionSort (fun l r : Token => l.key ≤ r.key) tokens
  have hsorted : (tokens.insertionSort (fun l r => l.key ≤ r.key)).Pairwise
      (fun l r => l.key ≤ r.key) := by
    have : Std.Total (fun l r : Token => l.key ≤ r.key) := ⟨fun l r => le_total l.key r.key⟩
    have : IsTrans Token (fun l r : Token => l.key ≤ r.key) :=
      ⟨fun l r t h h' => le_trans h h'⟩
    exact List.pairwise_insertionSort _ tokens
  rw [readTokens, if_neg hcheck]
  generalize tokens.insertionSort (fun l r => l.key ≤ r.key) = sorted at hperm hsorted
  cases sorted with
  | nil =>
    rw [hperm.symm.eq_nil]
    exact ⟨[], rfl, List.nodup_nil, .nil, fun _ h => absurd h List.not_mem_nil,
      fun _ h => absurd h List.not_mem_nil⟩
  | cons front rest =>
    refine ⟨_, rfl, ?_, ?_, ?_, ?_⟩
    · refine (pairwise_groupTokens _ _ hsorted ?_).1.imp ne_of_lt
      intro token hmem
      rcases List.mem_cons.mp hmem with rfl | hmem
      · exact le_refl _
      · exact (List.pairwise_cons.mp hsorted).1 token hmem
    · rw [flatMap_groupTokens]
      exact hperm.map _
    · exact key_groupTokens _ (fun _ h => absurd h List.not_mem_nil)
    · exact ne_nil_groupTokens _ (fun _ => ⟨front, rfl, rfl⟩)

end

end MozkeyDictionary
