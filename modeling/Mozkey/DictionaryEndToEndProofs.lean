import Mozkey.TokenScanProofs

/-! # SystemDictionary — what is built is what is looked up

    The passes, the tries, the token array and the decoder are put together: looking up a
    key reports the tokens of the key. -/

namespace MozkeyDictionary

open ByteString OrderedMap MozkeyUtil MozkeyLouds MozkeySuccinct

/-! ## The tokens of a key -/

/-- A token that a dictionary can hold. -/
structure Acceptable (token : Token) : Prop where
  key_ne : token.key ≠ []
  value_ne : token.value ≠ []
  key_valid : ValidUtf8 token.key
  value_valid : ValidUtf8 token.value
  key_nul : (0 : UInt8) ∉ token.key
  value_nul : (0 : UInt8) ∉ token.value
  lid_le : token.lid ≤ kPosMax
  rid_le : token.rid ≤ kPosMax
  cost_nonneg : 0 ≤ token.cost
  cost_le : token.cost ≤ kCostMax
  key_depth : (encodeKey token.key).length ≤ kMaxDepth
  value_depth : (encodeValue token.value).length ≤ kMaxDepth
  attributes : token.attributes = attributeNone ∨ token.attributes = attributeSpellingCorrection

variable {token : Token}

theorem Acceptable.key_spelled (h : Acceptable token) : Spelled token.key :=
  h.key_valid.spelled h.key_nul

theorem Acceptable.value_spelled (h : Acceptable token) : Spelled token.value :=
  h.value_valid.spelled h.value_nul

/-- The tokens of a key in the list behind the passes. -/
def infosOf (keyInfoList : List KeyInfo) (key : Bytes) : List TokenInfo :=
  (keyInfoList.filter (fun keyInfo => decide (keyInfo.key = key))).flatMap KeyInfo.tokens

/-- The values that are stored in the trie. -/
def storedValuesOf (hiraganaToKatakana : Bytes → Bytes) (tokens : List Token) : List Bytes :=
  (tokens.filter (fun token =>
    decide (getValueType hiraganaToKatakana token = .defaultValue))).map Token.value

theorem filter_key_eq : ∀ {l : List KeyInfo}, (l.map KeyInfo.key).Nodup → ∀ {keyInfo : KeyInfo},
    keyInfo ∈ l → l.filter (fun k => decide (k.key = keyInfo.key)) = [keyInfo] := by
  intro l
  induction l with
  | nil => intro _ keyInfo hmem; exact absurd hmem List.not_mem_nil
  | cons head rest ih =>
    intro hnodup keyInfo hmem
    rw [List.map_cons, List.nodup_cons] at hnodup
    rcases List.mem_cons.mp hmem with rfl | hmem
    · rw [List.filter_cons, if_pos (decide_eq_true rfl), List.filter_eq_nil_iff.mpr]
      intro k hk heq
      exact hnodup.1 (of_decide_eq_true heq ▸ List.mem_map_of_mem hk)
    · rw [List.filter_cons, if_neg, ih hnodup.2 hmem]
      intro heq
      exact hnodup.1 (of_decide_eq_true heq ▸ List.mem_map_of_mem hmem)

/-- The tokens of the keys with a property are the tokens whose key has it. -/
theorem flatMap_tokens_filter (p : Bytes → Bool) : ∀ {l : List KeyInfo},
    (∀ keyInfo ∈ l, ∀ info ∈ keyInfo.tokens, info.token.key = keyInfo.key) →
    (l.filter (fun keyInfo => p keyInfo.key)).flatMap KeyInfo.tokens
      = (l.flatMap KeyInfo.tokens).filter (fun info => p info.token.key) := by
  intro l
  induction l with
  | nil => intro _; rfl
  | cons head rest ih =>
    intro h
    have hhead := h head List.mem_cons_self
    have htokens : head.tokens.filter (fun info => p info.token.key)
        = if p head.key then head.tokens else [] := by
      split_ifs with hp
      · exact List.filter_eq_self.mpr (fun info hmem => hhead info hmem ▸ hp)
      · exact List.filter_eq_nil_iff.mpr (fun info hmem => hhead info hmem ▸ hp)
    rw [List.filter_cons, List.flatMap_cons, List.filter_append, htokens,
      ← ih (fun keyInfo hmem => h keyInfo (List.mem_cons_of_mem _ hmem))]
    split_ifs
    · rw [List.flatMap_cons]
    · rfl

theorem infosOf_eq_filter {key : Bytes} {l : List KeyInfo}
    (h : ∀ keyInfo ∈ l, ∀ info ∈ keyInfo.tokens, info.token.key = keyInfo.key) :
    infosOf l key
      = l.flatMap (fun keyInfo =>
          keyInfo.tokens.filter (fun info => decide (info.token.key = key))) := by
  rw [infosOf, flatMap_tokens_filter (fun k => decide (k = key)) h, List.filter_flatMap]

theorem infosOf_of_mem {l : List KeyInfo} (hnodup : (l.map KeyInfo.key).Nodup)
    {keyInfo : KeyInfo} (hmem : keyInfo ∈ l) : infosOf l keyInfo.key = keyInfo.tokens := by
  rw [infosOf, filter_key_eq hnodup hmem, List.flatMap_cons, List.flatMap_nil, List.append_nil]

/-- The tokens of a key under a pass that keeps keys and tokens. -/
theorem perm_infosOf_map {f : KeyInfo → KeyInfo} {key : Bytes} : ∀ {l : List KeyInfo},
    (∀ keyInfo ∈ l, (f keyInfo).key = keyInfo.key ∧
      ((f keyInfo).tokens.map TokenInfo.token).Perm (keyInfo.tokens.map TokenInfo.token)) →
    ((infosOf (l.map f) key).map TokenInfo.token).Perm ((infosOf l key).map TokenInfo.token) := by
  intro l
  induction l with
  | nil => intro _; exact .nil
  | cons head rest ih =>
    intro h
    have hrest := ih (fun keyInfo hmem => h keyInfo (List.mem_cons_of_mem _ hmem))
    obtain ⟨hkey, hperm⟩ := h head List.mem_cons_self
    rw [infosOf, infosOf] at hrest ⊢
    rw [List.map_cons, List.filter_cons, List.filter_cons, hkey]
    by_cases heq : head.key = key
    · rw [if_pos (decide_eq_true heq), if_pos (decide_eq_true heq), List.flatMap_cons,
        List.flatMap_cons, List.map_append, List.map_append]
      exact hperm.append hrest
    · rw [if_neg (fun hc => heq (of_decide_eq_true hc)),
        if_neg (fun hc => heq (of_decide_eq_true hc))]
      exact hrest

section

variable {hiraganaToKatakana : Bytes → Bytes} {tokens : List Token} {keyInfoList : List KeyInfo}
  (hread : ReadFrom hiraganaToKatakana tokens keyInfoList)
include hread

theorem ReadFrom.of_mem {keyInfo : KeyInfo} (hkey : keyInfo ∈ keyInfoList) {info : TokenInfo}
    (hinfo : info ∈ keyInfo.tokens) :
    info.token ∈ tokens ∧ info = tokenInfoOf hiraganaToKatakana info.token := by
  obtain ⟨token, hmem, rfl⟩ := List.mem_map.mp
    (hread.infos.mem_iff.mp (List.mem_flatMap.mpr ⟨keyInfo, hkey, hinfo⟩))
  exact ⟨hmem, rfl⟩

theorem ReadFrom.exists_mem (hmem : token ∈ tokens) :
    ∃ keyInfo ∈ keyInfoList, keyInfo.key = token.key ∧
      tokenInfoOf hiraganaToKatakana token ∈ keyInfo.tokens := by
  obtain ⟨keyInfo, hkey, hinfo⟩ := List.mem_flatMap.mp
    (hread.infos.mem_iff.mpr (List.mem_map_of_mem hmem))
  exact ⟨keyInfo, hkey, (hread.key_eq keyInfo hkey _ hinfo).symm, hinfo⟩

/-- **THE TOKENS OF A KEY** are those that were read with it. -/
theorem ReadFrom.perm_infosOf (key : Bytes) :
    ((infosOf keyInfoList key).map TokenInfo.token).Perm
      (tokens.filter (fun token => decide (token.key = key))) := by
  have htokens : ((keyInfoList.flatMap KeyInfo.tokens).map TokenInfo.token).Perm tokens := by
    refine (hread.infos.map TokenInfo.token).trans (List.Perm.of_eq ?_)
    rw [List.map_map]
    exact List.map_id'' (fun _ => rfl) tokens
  refine List.Perm.trans (List.Perm.of_eq ?_)
    (htokens.filter (fun token => decide (token.key = key)))
  rw [List.filter_map, List.filter_flatMap, infosOf_eq_filter hread.key_eq]
  rfl

end

/-! ## The ids -/

/-- **A STORED VALUE** is among those of the trie. -/
theorem stored_of_mem {hiraganaToKatakana : Bytes → Bytes} {tokens : List Token}
    {keyInfoList : List KeyInfo} (hread : ReadFrom hiraganaToKatakana tokens keyInfoList)
    (hmem : token ∈ tokens) (htype : getValueType hiraganaToKatakana token = .defaultValue) :
    encodeValue token.value ∈ storedValues keyInfoList := by
  obtain ⟨keyInfo, hkey, -, hinfo⟩ := hread.exists_mem hmem
  refine List.mem_flatMap.mpr ⟨keyInfo, hkey, List.mem_map.mpr
    ⟨tokenInfoOf hiraganaToKatakana token, List.mem_filter.mpr ⟨hinfo, ?_⟩, rfl⟩⟩
  show (!(decide (getValueType hiraganaToKatakana token = .asIsHiragana) ||
    decide (getValueType hiraganaToKatakana token = .asIsKatakana))) = true
  rw [htype]
  rfl

/-- A value that is in the trie is one of a token that was read. -/
theorem mem_storedValues {hiraganaToKatakana : Bytes → Bytes} {tokens : List Token}
    {keyInfoList : List KeyInfo} (hread : ReadFrom hiraganaToKatakana tokens keyInfoList)
    (w : Bytes) : w ∈ storedValues keyInfoList ↔
      ∃ token ∈ tokens, getValueType hiraganaToKatakana token = .defaultValue ∧
        encodeValue token.value = w := by
  constructor
  · intro hw
    obtain ⟨keyInfo, hkey, hmem⟩ := List.mem_flatMap.mp hw
    obtain ⟨info, hinfo, rfl⟩ := List.mem_map.mp hmem
    obtain ⟨hinfo, htype⟩ := List.mem_filter.mp hinfo
    obtain ⟨hmem', heq⟩ := hread.of_mem hkey hinfo
    refine ⟨info.token, hmem', ?_, rfl⟩
    have hnever := (value_of_getValueType hiraganaToKatakana info.token).2.2
    rw [heq] at htype
    change (!(decide (getValueType hiraganaToKatakana info.token = .asIsHiragana) ||
      decide (getValueType hiraganaToKatakana info.token = .asIsKatakana))) = true at htype
    cases htype' : getValueType hiraganaToKatakana info.token with
    | defaultValue => rfl
    | sameAsPrevValue => exact absurd htype' hnever
    | asIsHiragana => rw [htype'] at htype; exact absurd htype (by decide)
    | asIsKatakana => rw [htype'] at htype; exact absurd htype (by decide)
  · rintro ⟨token, hmem, htype, rfl⟩
    exact stored_of_mem hread hmem htype

theorem length_storedValues_dedup {hiraganaToKatakana : Bytes → Bytes} {tokens : List Token}
    {keyInfoList : List KeyInfo} (hread : ReadFrom hiraganaToKatakana tokens keyInfoList) :
    (storedValues keyInfoList).dedup.length
      ≤ (storedValuesOf hiraganaToKatakana tokens).dedup.length := by
  have hsubset : (storedValues keyInfoList).dedup
      ⊆ (storedValuesOf hiraganaToKatakana tokens).dedup.map encodeValue := by
    intro w hw
    obtain ⟨token, hmem, htype, rfl⟩ := (mem_storedValues hread w).mp (List.mem_dedup.mp hw)
    exact List.mem_map_of_mem (List.mem_dedup.mpr (List.mem_map.mpr
      ⟨token, List.mem_filter.mpr ⟨hmem, decide_eq_true htype⟩, rfl⟩))
  have hle := (List.subperm_of_subset (List.nodup_dedup _) hsubset).length_le
  rw [List.length_map] at hle
  exact hle

/-- What the parts of a build have in common with the list that was read. -/
structure BuildParts (hiraganaToKatakana : Bytes → Bytes) (tokens : List Token)
    (keyInfoList : List KeyInfo) (frequentPos : SortedMap Nat Nat)
    (idOfValue idOfKey : Bytes → Int) (valueTrieBuilder keyTrieBuilder : LoudsTrieBuilder) :
    Prop where
  acceptable : ∀ token ∈ tokens, Acceptable token
  few : (storedValuesOf hiraganaToKatakana tokens).dedup.length ≤ 2 ^ 22
  read : ReadFrom hiraganaToKatakana tokens keyInfoList
  numbered : Numbered frequentPos 255
  value : Numbers (storedValues keyInfoList) valueTrieBuilder idOfValue
  key : Numbers (keyInfoList.map (fun keyInfo => encodeKey keyInfo.key)) keyTrieBuilder idOfKey

/-- The tries of a dictionary agree with their builders. -/
structure Parts (hiraganaToKatakana : Bytes → Bytes) (tokens : List Token)
    (keyInfoList : List KeyInfo) (frequentPos : SortedMap Nat Nat)
    (idOfValue idOfKey : Bytes → Int) (valueTrieBuilder keyTrieBuilder : LoudsTrieBuilder)
    (valueTrie keyTrie : LoudsTrie) : Prop extends
    BuildParts hiraganaToKatakana tokens keyInfoList frequentPos idOfValue idOfKey
      valueTrieBuilder keyTrieBuilder where
  valueTrie_agrees : Agreement (storedValues keyInfoList) valueTrieBuilder valueTrie idOfValue
  keyTrie_agrees : Agreement (keyInfoList.map (fun keyInfo => encodeKey keyInfo.key))
    keyTrieBuilder keyTrie idOfKey

/-- **A TOKEN THAT BUILDING ABORTS FOR**: it is the only one of its key, at a frequent
    position, and its value is stored with an id whose upper bits are all set.  Its first
    byte is that of the terminator. -/
structure FailsCheck (hiraganaToKatakana : Bytes → Bytes) (tokens : List Token)
    (frequentPos : SortedMap Nat Nat) (valueTrieBuilder : LoudsTrieBuilder) (token : Token) :
    Prop where
  alone : tokens.filter (fun other => decide (other.key = token.key)) = [token]
  attributes : token.attributes = attributeNone
  frequent : ∃ id, frequentPos.get? token.pos = some id
  stored : getValueType hiraganaToKatakana token = .defaultValue
  large : ∃ id, valueTrieBuilder.getId (encodeValue token.value) = some id ∧ 0x3f0000 ≤ id

/-- No token is one that building aborts for. -/
def PassesCheck (hiraganaToKatakana : Bytes → Bytes) (tokens : List Token) : Prop :=
  ∀ keyInfoList frequentPos valueTrieBuilder,
    readTokens hiraganaToKatakana tokens = some keyInfoList →
    buildFrequentPos (combinedPoses keyInfoList) = some frequentPos →
    buildValueTrie keyInfoList = some valueTrieBuilder →
    ∀ token ∈ tokens, ¬ FailsCheck hiraganaToKatakana tokens frequentPos valueTrieBuilder token

namespace BuildParts

variable {hiraganaToKatakana : Bytes → Bytes} {tokens : List Token} {keyInfoList : List KeyInfo}
  {frequentPos : SortedMap Nat Nat} {idOfValue idOfKey : Bytes → Int}
  {valueTrieBuilder keyTrieBuilder : LoudsTrieBuilder}
  (h : BuildParts hiraganaToKatakana tokens keyInfoList frequentPos idOfValue idOfKey
    valueTrieBuilder keyTrieBuilder)
include h

theorem exists_token {keyInfo : KeyInfo} (hmem : keyInfo ∈ keyInfoList) :
    ∃ token ∈ tokens, token.key = keyInfo.key := by
  obtain ⟨info, hinfo⟩ := List.exists_mem_of_ne_nil _ (h.read.ne_nil keyInfo hmem)
  exact ⟨info.token, (h.read.of_mem hmem hinfo).1, h.read.key_eq keyInfo hmem info hinfo⟩

theorem key_spelled {keyInfo : KeyInfo} (hmem : keyInfo ∈ keyInfoList) : Spelled keyInfo.key := by
  obtain ⟨token, htoken, heq⟩ := h.exists_token hmem
  rw [← heq]
  exact (h.acceptable token htoken).key_spelled

theorem codes_nodup : (keyInfoList.map (fun keyInfo => encodeKey keyInfo.key)).Nodup := by
  have hkeys := List.pairwise_map.mp h.read.keys_nodup
  refine List.pairwise_map.mpr (hkeys.imp_of_mem ?_)
  intro a b ha hb hne heq
  exact hne (encodeKey_injective (h.key_spelled ha) (h.key_spelled hb) heq)

theorem idOfKey_bounds {keyInfo : KeyInfo} (hmem : keyInfo ∈ keyInfoList) :
    0 ≤ idOfKey (encodeKey keyInfo.key) ∧
      idOfKey (encodeKey keyInfo.key) < (keyInfoList.length : Int) := by
  have hbounds := h.key.bijOn.mapsTo
    (show encodeKey keyInfo.key ∈ {w | w ∈ keyInfoList.map (fun k => encodeKey k.key)} from
      List.mem_map.mpr ⟨keyInfo, hmem, rfl⟩)
  rw [h.codes_nodup.dedup, List.length_map] at hbounds
  exact hbounds

variable (minKeyLen : Nat)

theorem passed_of_mem {keyInfo : KeyInfo} (hkey : keyInfo ∈ keyInfoList) :
    Passed hiraganaToKatakana idOfValue idOfKey frequentPos keyInfo
      (passes idOfValue idOfKey minKeyLen
        (heterophoneValues ((keyInfoList.map (withIds idOfValue idOfKey)).map sortTokenInfo))
        frequentPos keyInfo) :=
  passed_passes idOfKey minKeyLen _ (fun _ hinfo => (h.read.of_mem hkey hinfo).2)

theorem exists_passed {passed : KeyInfo}
    (hmem : passed ∈ allPasses idOfValue idOfKey minKeyLen frequentPos keyInfoList) :
    ∃ keyInfo ∈ keyInfoList,
      Passed hiraganaToKatakana idOfValue idOfKey frequentPos keyInfo passed := by
  obtain ⟨keyInfo, hkey, rfl⟩ := List.mem_map.mp hmem
  exact ⟨keyInfo, hkey, h.passed_of_mem minKeyLen hkey⟩

/-- **THE IDS OF THE KEYS** number them. -/
theorem numberedKeys_allPasses :
    NumberedKeys (allPasses idOfValue idOfKey minKeyLen frequentPos keyInfoList) := by
  have hlen : (allPasses idOfValue idOfKey minKeyLen frequentPos keyInfoList).length
      = keyInfoList.length := List.length_map _
  refine ⟨?_, ?_, ?_⟩
  · rw [allPasses, List.map_map]
    have hcodes := List.pairwise_map.mp h.codes_nodup
    refine List.pairwise_map.mpr (hcodes.imp_of_mem ?_)
    intro a b ha hb hne heq
    have hida := (h.passed_of_mem minKeyLen ha).idInKeyTrie
    have hidb := (h.passed_of_mem minKeyLen hb).idInKeyTrie
    rw [Function.comp_apply, Function.comp_apply, hida, hidb] at heq
    have h0 := (h.idOfKey_bounds ha).1
    have h0' := (h.idOfKey_bounds hb).1
    refine hne (h.key.bijOn.injOn ?_ ?_ (by omega))
    · exact List.mem_map.mpr ⟨a, ha, rfl⟩
    · exact List.mem_map.mpr ⟨b, hb, rfl⟩
  · intro passed hmem
    obtain ⟨keyInfo, hkey, hpassed⟩ := h.exists_passed minKeyLen hmem
    rw [hpassed.idInKeyTrie]
    exact (h.idOfKey_bounds hkey).1
  · intro passed hmem
    obtain ⟨keyInfo, hkey, hpassed⟩ := h.exists_passed minKeyLen hmem
    rw [hpassed.idInKeyTrie, hlen]
    exact (h.idOfKey_bounds hkey).2

section

variable {keyInfo passed : KeyInfo} (hkey : keyInfo ∈ keyInfoList)
  (hpassed : Passed hiraganaToKatakana idOfValue idOfKey frequentPos keyInfo passed)
include hkey hpassed

variable {info : TokenInfo}

theorem token_of_passed (hinfo : info ∈ passed.tokens) :
    info.token ∈ tokens ∧ info.token.key = keyInfo.key := by
  obtain ⟨info', hmem, heq⟩ := List.mem_map.mp
    (hpassed.perm.mem_iff.mp (List.mem_map_of_mem hinfo))
  rw [← heq]
  exact ⟨(h.read.of_mem hkey hmem).1, h.read.key_eq keyInfo hkey info' hmem⟩

/-- **THE CODEC TAKES** what the passes leave. -/
theorem encodableAt_of_passed {index : Nat} (hget : passed.tokens[index]? = some info) :
    EncodableAt index info := by
  obtain ⟨prev, hfollows, hfirst⟩ := hpassed.chain.getElem? hget
  obtain ⟨hmem, -⟩ := h.token_of_passed hkey hpassed (List.mem_of_getElem? hget)
  have hacceptable := h.acceptable _ hmem
  refine ⟨⟨hacceptable.lid_le, hacceptable.rid_le, hacceptable.cost_nonneg, hacceptable.cost_le,
    ?_, ?_⟩, ?_⟩
  · intro hpos
    obtain ⟨id, hid, heq⟩ := hfollows.pos.frequent hpos
    have := h.numbered.lt _ _ hid
    omega
  · intro hvalue
    obtain ⟨htype, heq⟩ := hfollows.value.stored hvalue
    have hbounds := h.value.bijOn.mapsTo
      (show encodeValue info.token.value ∈ {w | w ∈ storedValues keyInfoList} from
        stored_of_mem h.read hmem htype)
    have hle := length_storedValues_dedup h.read
    have hfew := h.few
    obtain ⟨h0, h1⟩ := hbounds
    rw [heq]
    refine ⟨h0, ?_⟩
    show idOfValue (encodeValue info.token.value) ≤ ((0x3fffff : Nat) : Int)
    omega
  · intro hzero
    rw [hfirst hzero] at hfollows
    refine ⟨fun hpos => ?_, fun hvalue => ?_⟩
    · obtain ⟨p, hp, -⟩ := hfollows.pos.same hpos
      exact nomatch hp
    · obtain ⟨p, hp, -⟩ := hfollows.value.same hvalue
      exact nomatch hp

theorem withinLimits_of_passed : WithinLimits passed.tokens := by
  refine ⟨?_, fun _ _ hget => h.encodableAt_of_passed hkey hpassed hget⟩
  intro hnil
  have hperm := hpassed.perm
  rw [hnil] at hperm
  exact h.read.ne_nil keyInfo hkey (List.map_eq_nil_iff.mp hperm.symm.eq_nil)

theorem value_of_passed (hinfo : info ∈ passed.tokens) :
    (info.valueType = .asIsHiragana → info.token.value = keyInfo.key) ∧
      (info.valueType = .asIsKatakana → info.token.value = hiraganaToKatakana keyInfo.key) := by
  obtain ⟨index, hget⟩ := List.mem_iff_getElem?.mp hinfo
  obtain ⟨prev, hfollows, -⟩ := hpassed.chain.getElem? hget
  rw [← (h.token_of_passed hkey hpassed hinfo).2]
  exact ⟨hfollows.value.hiragana, hfollows.value.katakana⟩

end

theorem keys_nodup_allPasses :
    ((allPasses idOfValue idOfKey minKeyLen frequentPos keyInfoList).map KeyInfo.key).Nodup := by
  have hkeys := h.read.keys_nodup
  rw [allPasses, List.map_map]
  refine (List.map_congr_left ?_) ▸ hkeys
  intro keyInfo hkey
  exact (h.passed_of_mem minKeyLen hkey).key_eq.symm

theorem exists_passed_of_mem {keyInfo : KeyInfo} (hkey : keyInfo ∈ keyInfoList) :
    ∃ passed ∈ allPasses idOfValue idOfKey minKeyLen frequentPos keyInfoList,
      Passed hiraganaToKatakana idOfValue idOfKey frequentPos keyInfo passed :=
  ⟨_, List.mem_map.mpr ⟨keyInfo, hkey, rfl⟩, h.passed_of_mem minKeyLen hkey⟩

theorem infosOf_of_passed {keyInfo passed : KeyInfo}
    (hmem : passed ∈ allPasses idOfValue idOfKey minKeyLen frequentPos keyInfoList)
    (hpassed : Passed hiraganaToKatakana idOfValue idOfKey frequentPos keyInfo passed) :
    infosOf (allPasses idOfValue idOfKey minKeyLen frequentPos keyInfoList) keyInfo.key
      = passed.tokens := by
  rw [← hpassed.key_eq]
  exact infosOf_of_mem (h.keys_nodup_allPasses minKeyLen) hmem

/-- **THE TOKENS OF A KEY STAY** behind the passes. -/
theorem perm_infosOf_allPasses (key : Bytes) :
    ((infosOf (allPasses idOfValue idOfKey minKeyLen frequentPos keyInfoList) key).map
        TokenInfo.token).Perm (tokens.filter (fun token => decide (token.key = key))) := by
  refine List.Perm.trans ?_ (h.read.perm_infosOf key)
  refine perm_infosOf_map (f := passes idOfValue idOfKey minKeyLen _ frequentPos) ?_
  intro keyInfo hkey
  have hpassed := h.passed_of_mem minKeyLen hkey
  exact ⟨hpassed.key_eq, hpassed.perm⟩

/-- **THE CHECK PASSES** for the tokens of every key. -/
theorem encodeTokens_eq {passed : KeyInfo}
    (hpasses : ∀ token ∈ tokens,
      ¬ FailsCheck hiraganaToKatakana tokens frequentPos valueTrieBuilder token)
    (hmem : passed ∈ allPasses idOfValue idOfKey minKeyLen frequentPos keyInfoList) :
    encodeTokens passed.tokens = some (elementOf passed) := by
  obtain ⟨keyInfo, hkey, hpassed⟩ := h.exists_passed minKeyLen hmem
  have hlimits := h.withinLimits_of_passed hkey hpassed
  obtain ⟨output, hencode, -⟩ := (firstByteDiffers_iff hlimits).mpr (by
    rintro ⟨hlength, hends⟩
    obtain ⟨info, hinfo⟩ := List.length_eq_one_iff.mp hlength
    rw [hinfo] at hends
    have hlooks := endsScan_singleton.mp hends
    obtain ⟨htoken, htokenKey⟩ := h.token_of_passed hkey hpassed
      (hinfo ▸ List.mem_singleton.mpr rfl : info ∈ passed.tokens)
    obtain ⟨prev, hfollows, -⟩ := hpassed.chain.getElem?
      (show passed.tokens[0]? = some info by rw [hinfo]; rfl)
    have halone := h.perm_infosOf_allPasses minKeyLen keyInfo.key
    rw [h.infosOf_of_passed minKeyLen hmem hpassed, hinfo, ← htokenKey] at halone
    obtain ⟨id, hid, -⟩ := hfollows.pos.frequent hlooks.posType
    obtain ⟨htype, heq⟩ := hfollows.value.stored hlooks.valueType
    exact hpasses info.token htoken
      { alone := halone.symm.eq_singleton
        attributes := (h.acceptable _ htoken).attributes.resolve_right (fun hspelling =>
          absurd hlooks.spelling (by rw [isSpelling, hspelling]; decide))
        frequent := ⟨id, hid⟩
        stored := htype
        large := ⟨_, h.value.getId_eq _, heq ▸ hlooks.id⟩ })
  exact (scannedKey_of_withinLimits hlimits hencode).1

end BuildParts

/-- **THE DECODER GETS BACK** what the passes leave, for a key with the same values. -/
theorem Parts.decodable_of_passed {hiraganaToKatakana : Bytes → Bytes} {tokens : List Token}
    {keyInfoList : List KeyInfo} {frequentPos : SortedMap Nat Nat}
    {idOfValue idOfKey : Bytes → Int} {valueTrieBuilder keyTrieBuilder : LoudsTrieBuilder}
    {valueTrie keyTrie : LoudsTrie}
    (h : Parts hiraganaToKatakana tokens keyInfoList frequentPos idOfValue idOfKey
      valueTrieBuilder keyTrieBuilder valueTrie keyTrie) {keyInfo passed : KeyInfo}
    (hkey : keyInfo ∈ keyInfoList)
    (hpassed : Passed hiraganaToKatakana idOfValue idOfKey frequentPos keyInfo passed)
    {dict : SystemDictionary} (hvalueTrie : dict.valueTrie = valueTrie)
    (hfrequentPos : dict.frequentPos = frequentPosArray frequentPos) {key : Bytes}
    (hhiragana : ∀ info ∈ passed.tokens, info.valueType = .asIsHiragana → info.token.value = key)
    (hkatakana : ∀ info ∈ passed.tokens, info.valueType = .asIsKatakana →
      info.token.value = hiraganaToKatakana key) :
    Chain (Decodable hiraganaToKatakana dict key) none passed.tokens := by
  refine Chain.imp (P := fun info => info ∈ passed.tokens)
    (Q := fun token => token.rid ≤ kPosMax) ?_ hpassed.chain ?_ (fun p hp => (nomatch hp))
  · intro prev info hfollows hprev hinfo
    obtain ⟨hmem, -⟩ := h.token_of_passed hkey hpassed hinfo
    have hacceptable := h.acceptable _ hmem
    refine ⟨hacceptable.rid_le, hacceptable.attributes, ?_, ?_, ?_, hhiragana info hinfo,
      hkatakana info hinfo, hfollows.value.same⟩
    · intro hpos
      obtain ⟨id, hid, heq⟩ := hfollows.pos.frequent hpos
      rw [hfrequentPos, heq, Int.toNat_natCast, List.getD_eq_getElem?_getD,
        getElem?_frequentPosArray h.numbered hid, Option.getD_some]
    · intro hpos
      obtain ⟨p, hp, heq⟩ := hfollows.pos.same hpos
      obtain ⟨hlid, hrid⟩ := combinedPos_inverse (hprev p hp)
      obtain ⟨hlid', hrid'⟩ := combinedPos_inverse hacceptable.rid_le
      rw [Token.pos, Token.pos] at heq
      rw [heq] at hlid hrid
      exact ⟨p, hp, hlid.symm.trans hlid', hrid.symm.trans hrid'⟩
    · intro hvalue
      obtain ⟨htype, heq⟩ := hfollows.value.stored hvalue
      rw [lookupValue, hvalueTrie, heq,
        h.valueTrie_agrees.restore _ (stored_of_mem h.read hmem htype), Option.map_some,
        decodeValue_encodeValue hacceptable.value_spelled]
  · intro info hinfo
    exact ⟨hinfo, (h.acceptable _ (h.token_of_passed hkey hpassed hinfo).1).rid_le⟩

/-! ## The sizes -/

/-- What a token adds to the sections, from above. -/
def tokenSize (token : Token) : Nat :=
  10 + (encodeKey token.key).length + (encodeValue token.value).length

/-- The size of the sections, from above. -/
def totalSize (tokens : List Token) : Nat := (tokens.map tokenSize).sum

theorem ReadFrom.sum_le {hiraganaToKatakana : Bytes → Bytes} {tokens : List Token}
    {keyInfoList : List KeyInfo} (hread : ReadFrom hiraganaToKatakana tokens keyInfoList)
    {size : KeyInfo → Nat} {part : Token → Nat}
    (hsize : ∀ keyInfo ∈ keyInfoList,
      size keyInfo ≤ (keyInfo.tokens.map (fun info => part info.token)).sum) :
    (keyInfoList.map size).sum ≤ (tokens.map part).sum := by
  have hsum := (hread.infos.map (fun info => part info.token)).sum_eq
  rw [List.map_map] at hsum
  change _ = (tokens.map part).sum at hsum
  rw [← hsum]
  clear hsum hread
  induction keyInfoList with
  | nil => exact Nat.zero_le _
  | cons head rest ih =>
    have hhead := hsize head List.mem_cons_self
    have hrest := ih (fun keyInfo hmem => hsize keyInfo (List.mem_cons_of_mem _ hmem))
    rw [List.map_cons, List.sum_cons, List.flatMap_cons, List.map_append, List.sum_append]
    omega

section

variable {hiraganaToKatakana : Bytes → Bytes} {tokens : List Token} {keyInfoList : List KeyInfo}

theorem length_le_tokenSize (infos : List TokenInfo) :
    10 * infos.length ≤ (infos.map (fun info => tokenSize info.token)).sum := by
  induction infos with
  | nil => exact Nat.zero_le _
  | cons info rest ih =>
    have hsize : 10 ≤ tokenSize info.token := by
      rw [tokenSize]
      omega
    rw [List.map_cons, List.sum_cons, List.length_cons]
    omega

theorem length_combinedPoses_le (hread : ReadFrom hiraganaToKatakana tokens keyInfoList) :
    10 * (combinedPoses keyInfoList).length ≤ totalSize tokens := by
  have hle := length_le_tokenSize (keyInfoList.flatMap KeyInfo.tokens)
  rw [List.map_flatMap] at hle
  refine Nat.le_trans (Nat.le_of_eq ?_) (Nat.le_trans hle ?_)
  · rw [combinedPoses, List.length_flatMap, List.length_flatMap]
    refine congrArg (10 * ·) (congrArg List.sum (List.map_congr_left ?_))
    intro keyInfo _
    exact List.length_map _
  · rw [← List.map_flatMap, (hread.infos.map (fun info => tokenSize info.token)).sum_eq,
      List.map_map]
    exact Nat.le_refl _

theorem length_storedValues_le (hread : ReadFrom hiraganaToKatakana tokens keyInfoList) :
    (storedValues keyInfoList).flatten.length ≤ totalSize tokens := by
  rw [storedValues, ← List.flatMap_id, List.flatMap_assoc, List.length_flatMap]
  refine hread.sum_le ?_
  intro keyInfo _
  rw [List.flatMap_id, List.length_flatten, List.map_map]
  generalize keyInfo.tokens = infos
  induction infos with
  | nil => exact Nat.zero_le _
  | cons info rest ih =>
    have hsize : (encodeValue info.token.value).length ≤ tokenSize info.token := by
      rw [tokenSize]
      omega
    rw [List.filter_cons, List.map_cons, List.sum_cons]
    split_ifs
    · rw [List.map_cons, List.sum_cons]
      exact Nat.add_le_add hsize ih
    · omega

theorem length_codes_le (hread : ReadFrom hiraganaToKatakana tokens keyInfoList) :
    (keyInfoList.map (fun keyInfo => encodeKey keyInfo.key)).flatten.length
      ≤ totalSize tokens := by
  rw [List.length_flatten, List.map_map]
  refine hread.sum_le ?_
  intro keyInfo hmem
  obtain ⟨info, hinfo⟩ := List.exists_mem_of_ne_nil _ (hread.ne_nil keyInfo hmem)
  refine Nat.le_trans ?_ (List.single_le_sum (fun _ _ => Nat.zero_le _) _
    (List.mem_map.mpr ⟨info, hinfo, rfl⟩))
  show (encodeKey keyInfo.key).length ≤ tokenSize info.token
  rw [tokenSize, hread.key_eq keyInfo hmem info hinfo]
  omega

theorem BuildParts.length_elements_le {frequentPos : SortedMap Nat Nat}
    {idOfValue idOfKey : Bytes → Int} {valueTrieBuilder keyTrieBuilder : LoudsTrieBuilder}
    (h : BuildParts hiraganaToKatakana tokens keyInfoList frequentPos idOfValue idOfKey
      valueTrieBuilder keyTrieBuilder) (minKeyLen : Nat) :
    ((allPasses idOfValue idOfKey minKeyLen frequentPos keyInfoList).map (fun passed =>
      (elementOf passed).length + 1)).sum ≤ totalSize tokens := by
  rw [allPasses, List.map_map]
  refine h.read.sum_le ?_
  intro keyInfo hmem
  have hpassed := h.passed_of_mem minKeyLen hmem
  have hperm := hpassed.perm.length_eq
  have hsize := length_le_tokenSize keyInfo.tokens
  have hpos := List.length_pos_iff.mpr (h.read.ne_nil keyInfo hmem)
  have hlen := length_elementOf_le (passes idOfValue idOfKey minKeyLen
    (heterophoneValues ((keyInfoList.map (withIds idOfValue idOfKey)).map sortTokenInfo))
    frequentPos keyInfo)
  rw [List.length_map, List.length_map] at hperm
  rw [Function.comp_apply]
  omega

end

/-! ## From building to looking up -/

section

variable {hiraganaToKatakana : Bytes → Bytes} {tokens : List Token}
  (hacceptable : ∀ token ∈ tokens, Acceptable token)
include hacceptable

theorem exists_readFrom : ∃ keyInfoList, readTokens hiraganaToKatakana tokens = some keyInfoList ∧
    ReadFrom hiraganaToKatakana tokens keyInfoList :=
  readFrom_readTokens (fun token hmem =>
    ⟨(hacceptable token hmem).key_ne, (hacceptable token hmem).value_ne⟩)

variable {keyInfoList : List KeyInfo}
  (hread : ReadFrom hiraganaToKatakana tokens keyInfoList)
include hread

theorem storedValues_spec : ∀ w ∈ storedValues keyInfoList, w ≠ [] ∧ w.length ≤ kMaxDepth := by
  intro w hw
  obtain ⟨keyInfo, hkey, hmem⟩ := List.mem_flatMap.mp hw
  obtain ⟨info, hinfo, rfl⟩ := List.mem_map.mp hmem
  have h := hacceptable _ (hread.of_mem hkey (List.mem_filter.mp hinfo).1).1
  exact ⟨encodeValue_ne_nil h.value_spelled h.value_ne, h.value_depth⟩

theorem codes_spec : ∀ w ∈ keyInfoList.map (fun keyInfo => encodeKey keyInfo.key),
    w ≠ [] ∧ w.length ≤ kMaxDepth := by
  intro w hw
  obtain ⟨keyInfo, hkey, rfl⟩ := List.mem_map.mp hw
  obtain ⟨info, hinfo⟩ := List.exists_mem_of_ne_nil _ (hread.ne_nil keyInfo hkey)
  have h := hacceptable _ (hread.of_mem hkey hinfo).1
  rw [← hread.key_eq keyInfo hkey info hinfo]
  exact ⟨encodeKey_ne_nil h.key_spelled h.key_ne, h.key_depth⟩

/-- **THE PARTS OF A BUILD** number the values and the keys. -/
theorem exists_buildParts (hfew : (storedValuesOf hiraganaToKatakana tokens).dedup.length ≤ 2 ^ 22)
    {frequentPos : SortedMap Nat Nat}
    (hfrequent : buildFrequentPos (combinedPoses keyInfoList) = some frequentPos)
    {valueTrieBuilder keyTrieBuilder : LoudsTrieBuilder}
    (hvalue : buildValueTrie keyInfoList = some valueTrieBuilder)
    (hkey : buildKeyTrie keyInfoList = some keyTrieBuilder) :
    ∃ idOfValue idOfKey, BuildParts hiraganaToKatakana tokens keyInfoList frequentPos idOfValue
      idOfKey valueTrieBuilder keyTrieBuilder := by
  obtain ⟨idOfValue, hnumbersValue⟩ := numbers_of_build
    (fun w hw => (storedValues_spec hacceptable hread w hw).1) hvalue
  obtain ⟨idOfKey, hnumbersKey⟩ := numbers_of_build
    (fun w hw => (codes_spec hacceptable hread w hw).1) hkey
  exact ⟨idOfValue, idOfKey, hacceptable, hfew, hread, numbered_buildFrequentPos hfrequent,
    hnumbersValue, hnumbersKey⟩

end

/-- What is built of acceptable tokens. -/
theorem buildParts_of_buildFromTokens {hiraganaToKatakana : Bytes → Bytes} {minKeyLen : Nat}
    {tokens : List Token} (hacceptable : ∀ token ∈ tokens, Acceptable token)
    (hfew : (storedValuesOf hiraganaToKatakana tokens).dedup.length ≤ 2 ^ 22)
    {built : List KeyInfo} {b : SystemDictionaryBuilder}
    (h : buildFromTokens hiraganaToKatakana minKeyLen tokens = some (built, b)) :
    ∃ keyInfoList idOfValue idOfKey,
      BuildParts hiraganaToKatakana tokens keyInfoList b.frequentPos idOfValue idOfKey
        b.valueTrieBuilder b.keyTrieBuilder ∧
      readTokens hiraganaToKatakana tokens = some keyInfoList ∧
      buildValueTrie keyInfoList = some b.valueTrieBuilder ∧
      buildKeyTrie keyInfoList = some b.keyTrieBuilder ∧
      built = allPasses idOfValue idOfKey minKeyLen b.frequentPos keyInfoList ∧
      buildTokenArray built {} = some b.tokenArrayBuilder := by
  obtain ⟨keyInfoList, hlist, hread⟩ := exists_readFrom hacceptable
  have hsteps := h
  simp only [buildFromTokens, Option.bind_eq_bind, Option.bind_eq_some_iff] at hsteps
  obtain ⟨_, hlist', frequentPos, hfrequent, valueTrieBuilder, hvalue, keyTrieBuilder, hkey, -⟩ :=
    hsteps
  cases hlist.symm.trans hlist'
  obtain ⟨idOfValue, idOfKey, hparts⟩ :=
    exists_buildParts hacceptable hread hfew hfrequent hvalue hkey
  rw [buildFromTokens_eq hlist hfrequent hvalue hkey hparts.value.getId_eq hparts.key.getId_eq,
    Option.map_eq_some_iff] at h
  obtain ⟨tokenArrayBuilder, htokenArray, heq⟩ := h
  obtain ⟨rfl, rfl⟩ := Prod.mk.inj heq
  exact ⟨keyInfoList, idOfValue, idOfKey, hparts, hlist, hvalue, hkey, rfl, htokenArray⟩

/-- **BUILDING SUCCEEDS** as long as the sizes fit the headers, unless a token fails the
    check of the codec. -/
theorem buildFromTokens_isSome {hiraganaToKatakana : Bytes → Bytes} (minKeyLen : Nat)
    {tokens : List Token} (hacceptable : ∀ token ∈ tokens, Acceptable token)
    (hfew : (storedValuesOf hiraganaToKatakana tokens).dedup.length ≤ 2 ^ 22)
    (hsize : totalSize tokens < 2 ^ 31) (hpasses : PassesCheck hiraganaToKatakana tokens) :
    (buildFromTokens hiraganaToKatakana minKeyLen tokens).isSome = true := by
  obtain ⟨keyInfoList, hlist, hread⟩ :=
    exists_readFrom hacceptable
  have hposes := length_combinedPoses_le hread
  have hnodes : ∀ {added : List Bytes}, added.flatten.length ≤ totalSize tokens →
      (prefixesOf added).length ≤ 2 ^ 31 := by
    intro added hle
    exact Nat.le_trans (length_prefixesOf_le added) (by omega)
  obtain ⟨frequentPos, hfrequent⟩ := Option.isSome_iff_exists.mp
    (buildFrequentPos_isSome (show (combinedPoses keyInfoList).length < 2147483647 by omega))
  obtain ⟨valueTrieBuilder, hvalue⟩ := Option.isSome_iff_exists.mp
    (buildAll_isSome (fun w hw => (storedValues_spec hacceptable hread w hw).1)
      (hnodes (length_storedValues_le hread)))
  obtain ⟨keyTrieBuilder, hkey⟩ := Option.isSome_iff_exists.mp
    (buildAll_isSome (fun w hw => (codes_spec hacceptable hread w hw).1)
      (hnodes (length_codes_le hread)))
  obtain ⟨idOfValue, idOfKey, hparts⟩ :=
    exists_buildParts hacceptable hread hfew hfrequent hvalue hkey
  rw [buildFromTokens_eq hlist hfrequent hvalue hkey hparts.value.getId_eq hparts.key.getId_eq,
    Option.isSome_map]
  refine buildTokenArray_isSome (hparts.numberedKeys_allPasses minKeyLen)
    (fun passed hmem => hparts.encodeTokens_eq minKeyLen
      (hpasses keyInfoList frequentPos valueTrieBuilder hlist hfrequent hvalue) hmem) ?_
  have hle := hparts.length_elements_le minKeyLen
  omega

/-- **A BUILT DICTIONARY OPENS** as long as its sizes are counted by an `int`. -/
theorem isSome_openDictionaryFile {hiraganaToKatakana : Bytes → Bytes} {minKeyLen : Nat}
    {tokens : List Token} (hacceptable : ∀ token ∈ tokens, Acceptable token)
    (hfew : (storedValuesOf hiraganaToKatakana tokens).dedup.length ≤ 2 ^ 22)
    (hsize : totalSize tokens < 2 ^ 28) {built : List KeyInfo} {b : SystemDictionaryBuilder}
    (h : buildFromTokens hiraganaToKatakana minKeyLen tokens = some (built, b)) :
    (openDictionaryFile b).isSome = true := by
  obtain ⟨keyInfoList, idOfValue, idOfKey, hparts, -, hvalue, hkey, rfl, htokenArray⟩ :=
    buildParts_of_buildFromTokens hacceptable hfew h
  have hread := hparts.read
  have hnodes : ∀ {added : List Bytes}, added.flatten.length ≤ totalSize tokens →
      (prefixesOf added).length + 16 < 2 ^ 30 := by
    intro added hle
    have hlength := length_prefixesOf_le added
    omega
  obtain ⟨valueTrie, hopenValue⟩ := exists_openTrie
    (fun w hw => (storedValues_spec hacceptable hread w hw).1) hvalue
    (⟨hnodes (length_storedValues_le hread), by decide, by decide, by decide⟩ :
      FitsTrie _ kValueTrieLb0CacheSize kValueTrieLb1CacheSize kValueTrieTermvecCacheSize)
    kValueTrieSelect0CacheSize kValueTrieSelect1CacheSize
  obtain ⟨keyTrie, hopenKey⟩ := exists_openTrie
    (fun w hw => (codes_spec hacceptable hread w hw).1) hkey
    (⟨hnodes (length_codes_le hread), by decide, by decide, by decide⟩ :
      FitsTrie _ kKeyTrieLb0CacheSize kKeyTrieLb1CacheSize kKeyTrieTermvecCacheSize)
    kKeyTrieSelect0CacheSize kKeyTrieSelect1CacheSize
  obtain ⟨hnumbered, hencoded⟩ := encoded_of_buildTokenArray htokenArray
  have helement : ∀ passed ∈ allPasses idOfValue idOfKey minKeyLen b.frequentPos keyInfoList,
      encodeTokens passed.tokens = some (elementOf passed) :=
    fun passed hmem => encodeTokens_elementOf (hencoded passed hmem)
  obtain ⟨hlength, array, hopenArray⟩ := exists_openTokenArray hnumbered helement
    (Nat.lt_of_le_of_lt (hparts.length_elements_le minKeyLen) hsize) htokenArray
  rw [openDictionaryFile, hopenKey, hopenValue, hopenArray, guard, if_pos hlength]
  rfl

/-! ## The lookup of a key -/

namespace Parts

variable {hiraganaToKatakana : Bytes → Bytes} {tokens : List Token} {keyInfoList : List KeyInfo}
  {frequentPos : SortedMap Nat Nat} {idOfValue idOfKey : Bytes → Int}
  {valueTrieBuilder keyTrieBuilder : LoudsTrieBuilder} {valueTrie keyTrie : LoudsTrie}
  (h : Parts hiraganaToKatakana tokens keyInfoList frequentPos idOfValue idOfKey
    valueTrieBuilder keyTrieBuilder valueTrie keyTrie)
include h

theorem exactSearch_of_not_mem {key : Bytes} (hspelled : Spelled key)
    (hnone : ∀ keyInfo ∈ keyInfoList, keyInfo.key ≠ key) :
    keyTrie.exactSearch (encodeKey key) = -1 := by
  rw [h.keyTrie_agrees.exactSearch_eq]
  refine h.key.not_added _ ?_
  intro hmem
  obtain ⟨keyInfo, hkey, heq⟩ := List.mem_map.mp hmem
  exact hnone keyInfo hkey (encodeKey_injective (h.key_spelled hkey) hspelled heq)

variable (minKeyLen : Nat)

section

variable {array : BitVectorBasedArray}
  (hget : ∀ passed ∈ allPasses idOfValue idOfKey minKeyLen frequentPos keyInfoList,
    encodeTokens passed.tokens = some (elementOf passed) ∧
      ∃ rest, array.bytesFrom passed.idInKeyTrie.toNat = elementOf passed ++ rest)
  {key : Bytes} {σ : Type} {callback : Callback σ} (hcallback : callback.Continues) {fuel : Nat}
  (hfuel : tokens.length < fuel) (s : σ)
include hget hcallback hfuel

/-- **A KEY WITH THE CODE OF A LIST ENTRY** is looked up as the entry, if the values that
    are not stored can be told from it. -/
theorem lookupExact_of_passed {keyInfo passed : KeyInfo} (hkey : keyInfo ∈ keyInfoList)
    (hmem : passed ∈ allPasses idOfValue idOfKey minKeyLen frequentPos keyInfoList)
    (hpassed : Passed hiraganaToKatakana idOfValue idOfKey frequentPos keyInfo passed)
    (hcode : encodeKey key = encodeKey keyInfo.key) (hnil : key ≠ [])
    (hhiragana : ∀ info ∈ passed.tokens, info.valueType = .asIsHiragana → info.token.value = key)
    (hkatakana : ∀ info ∈ passed.tokens, info.valueType = .asIsKatakana →
      info.token.value = hiraganaToKatakana key) :
    lookupExact hiraganaToKatakana ⟨keyTrie, valueTrie, array, frequentPosArray frequentPos⟩
        callback fuel key s
      = some (afterKey callback key (passed.tokens.map (report key)) s) := by
  obtain ⟨hencode, rest, hrest⟩ := hget passed hmem
  have hlimits := h.withinLimits_of_passed hkey hpassed
  obtain ⟨outputs, houtputs, hreads⟩ := encodeTokens_spec hlimits.2 hencode
  have hlen := (h.perm_infosOf_allPasses minKeyLen keyInfo.key).length_eq
  have hle := List.length_filter_le (fun token => decide (token.key = keyInfo.key)) tokens
  rw [h.infosOf_of_passed minKeyLen hmem hpassed, List.length_map] at hlen
  rw [houtputs] at hrest
  refine lookupExact_of_id hnil hcallback ?_ ?_ hlimits.1
    (h.decodable_of_passed hkey hpassed rfl rfl hhiragana hkatakana) hreads hrest (by omega) s
  · rw [hpassed.idInKeyTrie, hcode]
    exact h.keyTrie_agrees.exactSearch_eq _
  · rw [hpassed.idInKeyTrie]
    exact (h.idOfKey_bounds hkey).1

/-- **THE LOOKUP** by what the passes leave of a key. -/
theorem lookupExact_eq (hspelled : Spelled key) :
    lookupExact hiraganaToKatakana ⟨keyTrie, valueTrie, array, frequentPosArray frequentPos⟩
        callback fuel key s
      = some
          (if infosOf (allPasses idOfValue idOfKey minKeyLen frequentPos keyInfoList) key = []
            then s
          else afterKey callback key
            ((infosOf (allPasses idOfValue idOfKey minKeyLen frequentPos keyInfoList) key).map
              (report key)) s) := by
  by_cases hmem : ∃ keyInfo ∈ keyInfoList, keyInfo.key = key
  · obtain ⟨keyInfo, hkey, rfl⟩ := hmem
    obtain ⟨passed, hmem, hpassed⟩ := h.exists_passed_of_mem minKeyLen hkey
    have hvalue := fun (info : TokenInfo) (hinfo : info ∈ passed.tokens) =>
      h.value_of_passed hkey hpassed hinfo
    obtain ⟨token, htoken, heq⟩ := h.exists_token hkey
    have hnil : keyInfo.key ≠ [] := heq ▸ (h.acceptable token htoken).key_ne
    have hne : infosOf (allPasses idOfValue idOfKey minKeyLen frequentPos keyInfoList)
        keyInfo.key ≠ [] := by
      intro hnil
      have hperm := h.perm_infosOf_allPasses minKeyLen keyInfo.key
      rw [hnil] at hperm
      exact List.filter_eq_nil_iff.mp hperm.symm.eq_nil token htoken (decide_eq_true heq)
    rw [if_neg hne, h.infosOf_of_passed minKeyLen hmem hpassed]
    exact h.lookupExact_of_passed minKeyLen hget hcallback hfuel s hkey hmem hpassed rfl hnil
      (fun info hinfo => (hvalue info hinfo).1) (fun info hinfo => (hvalue info hinfo).2)
  · have hnone : ∀ keyInfo ∈ keyInfoList, keyInfo.key ≠ key :=
      fun keyInfo hkey heq => hmem ⟨keyInfo, hkey, heq⟩
    have hperm := h.perm_infosOf_allPasses minKeyLen key
    rw [List.filter_eq_nil_iff.mpr] at hperm
    · rw [if_pos (List.map_eq_nil_iff.mp hperm.eq_nil)]
      exact lookupExact_of_no_id (h.exactSearch_of_not_mem hspelled hnone) fuel s
    · intro token htoken heq
      obtain ⟨keyInfo, hkey, hkeyInfo, -⟩ := h.read.exists_mem htoken
      exact hnone keyInfo hkey (hkeyInfo.trans (of_decide_eq_true heq))

end

end Parts

/-- **WHAT A BUILD LEAVES** where it opens: the list behind the passes, and the parts of the
    dictionary. -/
theorem exists_opened {hiraganaToKatakana : Bytes → Bytes} {minKeyLen : Nat}
    {tokens : List Token} (hacceptable : ∀ token ∈ tokens, Acceptable token)
    (hfew : (storedValuesOf hiraganaToKatakana tokens).dedup.length ≤ 2 ^ 22)
    {built : List KeyInfo} {b : SystemDictionaryBuilder}
    (hbuild : buildFromTokens hiraganaToKatakana minKeyLen tokens = some (built, b))
    {dict : SystemDictionary} (hopen : openDictionaryFile b = some dict) :
    ∃ (keyInfoList : List KeyInfo) (frequentPos : SortedMap Nat Nat)
      (idOfValue idOfKey : Bytes → Int) (valueTrieBuilder keyTrieBuilder : LoudsTrieBuilder)
      (valueTrie keyTrie : LoudsTrie) (array : BitVectorBasedArray),
      Parts hiraganaToKatakana tokens keyInfoList frequentPos idOfValue idOfKey valueTrieBuilder
        keyTrieBuilder valueTrie keyTrie ∧
      built = allPasses idOfValue idOfKey minKeyLen frequentPos keyInfoList ∧
      dict = ⟨keyTrie, valueTrie, array, frequentPosArray frequentPos⟩ ∧
      (buildTokenArray built {} = some b.tokenArrayBuilder ∧
        b.tokenArrayBuilder.image.length < intLimit ∧
        BitVectorBasedArray.openArray b.tokenArrayBuilder.image = some array) ∧
      ∀ passed ∈ allPasses idOfValue idOfKey minKeyLen frequentPos keyInfoList,
        encodeTokens passed.tokens = some (elementOf passed) ∧
          ∃ rest, array.bytesFrom passed.idInKeyTrie.toNat = elementOf passed ++ rest := by
  obtain ⟨keyInfoList, idOfValue, idOfKey, hparts, -, hvalue, hkey, rfl, htokenArray⟩ :=
    buildParts_of_buildFromTokens hacceptable hfew hbuild
  obtain ⟨hopenKey, hopenValue, hlength, hopenArray, hfrequentPos⟩ :=
    parts_of_openDictionaryFile hopen
  have hvalues := storedValues_spec hacceptable hparts.read
  have hcodes := codes_spec hacceptable hparts.read
  obtain ⟨hnumbered, hencoded⟩ := encoded_of_buildTokenArray htokenArray
  have helement : ∀ passed ∈ allPasses idOfValue idOfKey minKeyLen b.frequentPos keyInfoList,
      encodeTokens passed.tokens = some (elementOf passed) :=
    fun passed hmem => encodeTokens_elementOf (hencoded passed hmem)
  refine ⟨keyInfoList, b.frequentPos, idOfValue, idOfKey, b.valueTrieBuilder, b.keyTrieBuilder,
    dict.valueTrie, dict.keyTrie, dict.tokenArray, ⟨hparts, ?_, ?_⟩, rfl, by rw [← hfrequentPos],
    ⟨htokenArray, hlength, hopenArray⟩, fun passed hmem => ⟨helement passed hmem, ?_⟩⟩
  · exact agreement_of_build (fun w hw => (hvalues w hw).1) (fun w hw => (hvalues w hw).2) hvalue
      hparts.value hopenValue
  · exact agreement_of_build (fun w hw => (hcodes w hw).1) (fun w hw => (hcodes w hw).2) hkey
      hparts.key hopenKey
  · exact bytesFrom_of_buildTokenArray hnumbered helement htokenArray hlength hopenArray passed hmem

/-- **WHAT IS BUILT IS LOOKED UP.**  Tokens that a dictionary can hold build it unless its
    sizes do not fit the headers or a token fails the check of the codec.  The dictionary
    opens as long as its sizes are counted by an `int`, and looking up a key reports the
    tokens of the key, each as it was but for the low bits of a cost that allows for it. -/
theorem lookupExact_reports (hiraganaToKatakana : Bytes → Bytes) (minKeyLen : Nat)
    (tokens : List Token) (hacceptable : ∀ token ∈ tokens, Acceptable token)
    (hfew : (storedValuesOf hiraganaToKatakana tokens).dedup.length ≤ 2 ^ 22) :
    (totalSize tokens < 2 ^ 31 → PassesCheck hiraganaToKatakana tokens →
      (buildFromTokens hiraganaToKatakana minKeyLen tokens).isSome = true) ∧
    ∀ keyInfoList b, buildFromTokens hiraganaToKatakana minKeyLen tokens = some (keyInfoList, b) →
      (totalSize tokens < 2 ^ 28 → (openDictionaryFile b).isSome = true) ∧
      ∀ dict, openDictionaryFile b = some dict →
        ∀ key, ValidUtf8 key → (0 : UInt8) ∉ key →
          ((infosOf keyInfoList key).map TokenInfo.token).Perm
            (tokens.filter (fun token => decide (token.key = key))) ∧
          ∀ (σ : Type) (callback : Callback σ), callback.Continues →
            ∀ (s : σ) (fuel : Nat), tokens.length < fuel →
              lookupExact hiraganaToKatakana dict callback fuel key s
                = some (if infosOf keyInfoList key = [] then s
                  else afterKey callback key ((infosOf keyInfoList key).map (report key)) s) := by
  refine ⟨buildFromTokens_isSome minKeyLen hacceptable hfew, ?_⟩
  intro built b hbuild
  refine ⟨fun hsize => isSome_openDictionaryFile hacceptable hfew hsize hbuild, ?_⟩
  intro dict hopen key hvalid hnul
  obtain ⟨keyInfoList, frequentPos, idOfValue, idOfKey, _, _, valueTrie, keyTrie, array, hparts,
    rfl, rfl, -, hget⟩ := exists_opened hacceptable hfew hbuild hopen
  refine ⟨hparts.perm_infosOf_allPasses minKeyLen key, ?_⟩
  intro σ callback hcallback s fuel hfuel
  exact hparts.lookupExact_eq minKeyLen hget hcallback hfuel s (hvalid.spelled hnul)

/-- A callback that collects the tokens. -/
def collectTokens : Callback (List Token) where
  onKey _ s := (.traverseContinue, s)
  onActualKey _ _ _ s := (.traverseContinue, s)
  onToken _ _ token s := (.traverseContinue, s ++ [token])

theorem continues_collectTokens : collectTokens.Continues :=
  ⟨fun _ _ => rfl, fun _ _ _ _ => rfl, fun _ _ _ _ => rfl⟩

/-- A token with a value in the trie. -/
def storedToken : Token :=
  { key := ascii "a", value := ascii "b", cost := 0, lid := 1, rid := 2,
    attributes := attributeNone }

theorem validUtf8_of_lt (cs : List Nat) (h : ∀ c ∈ cs, c < 0x80) : ValidUtf8 (cs.flatMap utf8) :=
  ⟨cs, fun c hc => Or.inl (Nat.lt_trans (h c hc) (by decide)), rfl⟩

theorem acceptable_storedToken : Acceptable storedToken where
  key_ne := by decide
  value_ne := by decide
  key_valid := validUtf8_of_lt [0x61] (by decide)
  value_valid := validUtf8_of_lt [0x62] (by decide)
  key_nul := by decide
  value_nul := by decide
  lid_le := by decide
  rid_le := by decide
  cost_nonneg := by decide
  cost_le := by decide
  key_depth := by decide
  value_depth := by decide
  attributes := Or.inl rfl

theorem report_storedToken {infos : List TokenInfo}
    (h : (infos.map TokenInfo.token).Perm [storedToken]) (key : Bytes) :
    infos ≠ [] ∧ infos.map (report key) = [{ storedToken with key := key }] := by
  obtain ⟨info, rfl, heq⟩ := List.map_eq_singleton_iff.mp h.eq_singleton
  refine ⟨List.cons_ne_nil _ _, ?_⟩
  have hcost : reportedCost info = 0 := by
    rw [reportedCost, heq]
    exact ite_self _
  rw [List.map_cons, List.map_nil, report, hcost, heq]
  rfl

theorem acceptable_single : ∀ token ∈ [storedToken], Acceptable token :=
  fun _ hmem => List.mem_singleton.mp hmem ▸ acceptable_storedToken

/-- With few stored values, no token fails the check. -/
theorem passesCheck_of_few {hiraganaToKatakana : Bytes → Bytes} {tokens : List Token}
    (hacceptable : ∀ token ∈ tokens, Acceptable token)
    (hfew : (storedValuesOf hiraganaToKatakana tokens).dedup.length ≤ 0x3f0000) :
    PassesCheck hiraganaToKatakana tokens := by
  intro keyInfoList frequentPos valueTrieBuilder hlist _ hvalue token hmem hfails
  obtain ⟨_, hlist', hread⟩ := @exists_readFrom hiraganaToKatakana tokens hacceptable
  cases hlist.symm.trans hlist'
  obtain ⟨idOf, hnumbers⟩ := numbers_of_build
    (fun w hw => (storedValues_spec hacceptable hread w hw).1) hvalue
  obtain ⟨id, hid, hlarge⟩ := hfails.large
  obtain rfl := Option.some.inj (hid.symm.trans (hnumbers.getId_eq _))
  obtain ⟨-, hlt⟩ := hnumbers.bijOn.mapsTo
    (show encodeValue token.value ∈ {w | w ∈ storedValues keyInfoList} from
      stored_of_mem hread hmem hfails.stored)
  have hle := length_storedValues_dedup hread
  omega

/-- Three tokens of two keys, with two values in the trie. -/
def storedTokens : List Token :=
  [{ key := ascii "a", value := ascii "b", cost := 0, lid := 1, rid := 2,
     attributes := attributeNone },
   { key := ascii "ab", value := ascii "b", cost := 256, lid := 1, rid := 2,
     attributes := attributeNone },
   { key := ascii "a", value := ascii "bc", cost := 512, lid := 3, rid := 3,
     attributes := attributeNone }]

theorem acceptable_storedTokens : ∀ token ∈ storedTokens, Acceptable token := by
  have hvalid : ∀ token ∈ storedTokens, ValidUtf8 token.key ∧ ValidUtf8 token.value := by
    have ha := validUtf8_of_lt [0x61] (by decide)
    have hb := validUtf8_of_lt [0x62] (by decide)
    have hab := validUtf8_of_lt [0x61, 0x62] (by decide)
    have hbc := validUtf8_of_lt [0x62, 0x63] (by decide)
    simp only [storedTokens, List.forall_mem_cons, List.not_mem_nil, false_imp_iff, implies_true,
      and_true]
    exact ⟨⟨ha, hb⟩, ⟨hab, hb⟩, ha, hbc⟩
  have hnul : ∀ token ∈ storedTokens, token.key ≠ [] ∧ token.value ≠ [] ∧
      (0 : UInt8) ∉ token.key ∧ (0 : UInt8) ∉ token.value := by decide
  have hlimits : ∀ token ∈ storedTokens, token.lid ≤ kPosMax ∧ token.rid ≤ kPosMax ∧
      0 ≤ token.cost ∧ token.cost ≤ kCostMax ∧ (encodeKey token.key).length ≤ kMaxDepth ∧
      (encodeValue token.value).length ≤ kMaxDepth ∧ token.attributes = attributeNone := by decide
  intro token hmem
  obtain ⟨hkey, hvalue⟩ := hvalid token hmem
  obtain ⟨hkeyNe, hvalueNe, hkeyNul, hvalueNul⟩ := hnul token hmem
  obtain ⟨hlid, hrid, hcost, hcostMax, hkeyDepth, hvalueDepth, hattributes⟩ := hlimits token hmem
  exact ⟨hkeyNe, hvalueNe, hkey, hvalue, hkeyNul, hvalueNul, hlid, hrid, hcost, hcostMax, hkeyDepth,
    hvalueDepth, Or.inl hattributes⟩

theorem exists_opened_of_few (hiraganaToKatakana : Bytes → Bytes) {tokens : List Token}
    (hacceptable : ∀ token ∈ tokens, Acceptable token)
    (hfew : (storedValuesOf hiraganaToKatakana tokens).dedup.length ≤ 0x3f0000)
    (hsize : totalSize tokens < 2 ^ 28) :
    ∃ built b dict, buildFromTokens hiraganaToKatakana 0 tokens = some (built, b) ∧
      openDictionaryFile b = some dict := by
  have hfew' : (storedValuesOf hiraganaToKatakana tokens).dedup.length ≤ 2 ^ 22 :=
    Nat.le_trans hfew (by decide)
  obtain ⟨⟨built, b⟩, hbuild⟩ := Option.isSome_iff_exists.mp (buildFromTokens_isSome 0 hacceptable
    hfew' (Nat.lt_of_lt_of_le hsize (by decide)) (passesCheck_of_few hacceptable hfew))
  obtain ⟨dict, hopen⟩ :=
    Option.isSome_iff_exists.mp (isSome_openDictionaryFile hacceptable hfew' hsize hbuild)
  exact ⟨built, b, dict, hbuild, hopen⟩

theorem afterKey_collectTokens (key : Bytes) (tokens : List Token) (s : List Token) :
    afterKey collectTokens key tokens s = s ++ tokens := by
  show tokens.foldl (fun s token => s ++ [token]) s = s ++ tokens
  induction tokens generalizing s with
  | nil => exact (List.append_nil s).symm
  | cons token rest ih => rw [List.foldl_cons, ih, List.append_assoc, List.singleton_append]

/-- Costs that are multiples of 256 are reported as they are. -/
theorem map_report_eq {infos : List TokenInfo} {key : Bytes}
    (h : ∀ info ∈ infos, info.token.key = key ∧ info.token.cost % 256 = 0) :
    infos.map (report key) = infos.map TokenInfo.token := by
  refine List.map_congr_left ?_
  intro info hmem
  obtain ⟨rfl, hcost⟩ := h info hmem
  have heq : reportedCost info = info.token.cost := by
    rw [reportedCost]
    split_ifs
    · omega
    · rfl
  rw [report, heq]

/-- The tokens of one of two keys are built, and looked up. -/
theorem lookupExact_reports_stored : ∃ built b dict reported,
    buildFromTokens id 0 storedTokens = some (built, b) ∧ openDictionaryFile b = some dict ∧
      lookupExact id dict collectTokens 4 (ascii "a") [] = some reported ∧
      reported.Perm (storedTokens.filter (fun token => decide (token.key = ascii "a"))) := by
  obtain ⟨hsome, hlookup⟩ := lookupExact_reports id 0 storedTokens acceptable_storedTokens
    (by decide)
  obtain ⟨⟨built, b⟩, hbuild⟩ := Option.isSome_iff_exists.mp
    (hsome (by decide) (passesCheck_of_few acceptable_storedTokens (by decide)))
  obtain ⟨hopens, hreads⟩ := hlookup built b hbuild
  obtain ⟨dict, hopen⟩ := Option.isSome_iff_exists.mp (hopens (by decide))
  obtain ⟨hperm, hreports⟩ :=
    hreads dict hopen (ascii "a") (validUtf8_of_lt [0x61] (by decide)) (by decide)
  have hne : infosOf built (ascii "a") ≠ [] := by
    intro hnil
    rw [hnil] at hperm
    exact absurd hperm.length_eq (by decide)
  have hsame := @map_report_eq (infosOf built (ascii "a")) (ascii "a") (by
    intro info hinfo
    have htoken := hperm.mem_iff.mp (List.mem_map_of_mem hinfo)
    have hall : ∀ token ∈ storedTokens.filter (fun token => decide (token.key = ascii "a")),
        token.key = ascii "a" ∧ token.cost % 256 = 0 := by decide
    exact hall _ htoken)
  refine ⟨built, b, dict, (infosOf built (ascii "a")).map TokenInfo.token, hbuild, hopen, ?_, hperm⟩
  rw [hreports _ collectTokens continues_collectTokens [] 4 (by decide), if_neg hne,
    afterKey_collectTokens, hsame, List.nil_append]

/-- **U+0000 HAS NO CODE.**  A key with it is looked up as the key without it, as is a key
    that ends in bytes that spell nothing; a key of it alone is not built, and a value
    loses it. -/
theorem lookupExact_nul :
    ValidUtf8 [0x61, 0] ∧
    (∃ built b dict, buildFromTokens id 0 [storedToken] = some (built, b) ∧
      openDictionaryFile b = some dict ∧
      ∀ key ∈ [[0x61, 0], [0x61, 0xff]], (∀ token ∈ [storedToken], token.key ≠ key) ∧
        lookupExact id dict collectTokens 2 key [] = some [{ storedToken with key := key }]) ∧
    buildFromTokens id 0 [{ storedToken with key := [0] }] = none ∧
    decodeValue (encodeValue [0x62, 0]) = [0x62] := by
  refine ⟨validUtf8_of_lt [0x61, 0] (by decide), ?_, ?_, by decide⟩
  · obtain ⟨built, b, dict, hbuild, hopen⟩ :=
      exists_opened_of_few id acceptable_single (by decide) (by decide)
    obtain ⟨keyInfoList, frequentPos, idOfValue, idOfKey, _, _, valueTrie, keyTrie, array, hparts,
      rfl, rfl, -, hget⟩ := exists_opened acceptable_single (by decide) hbuild hopen
    obtain ⟨keyInfo, hkey, hkeyInfo, -⟩ := hparts.read.exists_mem (List.mem_singleton.mpr rfl)
    obtain ⟨passed, hmem, hpassed⟩ := hparts.exists_passed_of_mem 0 hkey
    have hperm := hparts.perm_infosOf_allPasses 0 keyInfo.key
    rw [hparts.infosOf_of_passed 0 hmem hpassed, hkeyInfo] at hperm
    have hvalue : ∀ info ∈ passed.tokens,
        info.valueType ≠ .asIsHiragana ∧ info.valueType ≠ .asIsKatakana := by
      intro info hinfo
      obtain ⟨hhiragana, hkatakana⟩ := hparts.value_of_passed hkey hpassed hinfo
      have htoken := List.mem_singleton.mp (hparts.token_of_passed hkey hpassed hinfo).1
      rw [htoken, hkeyInfo] at hhiragana hkatakana
      exact ⟨fun h => absurd (hhiragana h) (by decide), fun h => absurd (hkatakana h) (by decide)⟩
    refine ⟨_, b, _, hbuild, hopen, ?_⟩
    intro key hmem'
    have hcode : ∀ key ∈ [[0x61, 0], [0x61, 0xff]], storedToken.key ≠ key ∧ key ≠ [] ∧
        encodeKey key = encodeKey storedToken.key := by decide
    obtain ⟨hne, hnil, hcode⟩ := hcode key hmem'
    refine ⟨fun token htoken => List.mem_singleton.mp htoken ▸ hne, ?_⟩
    rw [hparts.lookupExact_of_passed 0 hget continues_collectTokens (by decide) [] hkey hmem hpassed
      (hcode.trans (congrArg encodeKey hkeyInfo.symm)) hnil
      (fun info hinfo h => absurd h (hvalue info hinfo).1)
      (fun info hinfo h => absurd h (hvalue info hinfo).2), (report_storedToken hperm key).2]
    rfl
  · have hlist : readTokens id [{ storedToken with key := [0] }]
        = some [{ key := [0], tokens := [tokenInfoOf id { storedToken with key := [0] }] }] := by
      rfl
    have hkeyTrie : buildKeyTrie
        [{ key := [0], tokens := [tokenInfoOf id { storedToken with key := [0] }] }] = none := by
      rfl
    rw [buildFromTokens, hlist, Option.bind_eq_bind, Option.bind_some, hkeyTrie]
    cases buildFrequentPos (combinedPoses
      [{ key := [0], tokens := [tokenInfoOf id { storedToken with key := [0] }] }]) with
    | none => rfl
    | some frequentPos =>
      cases buildValueTrie
        [{ key := [0], tokens := [tokenInfoOf id { storedToken with key := [0] }] }] with
      | none => rfl
      | some valueTrieBuilder => rfl

end MozkeyDictionary
