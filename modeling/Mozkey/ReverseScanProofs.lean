import Mozkey.ReverseLookupProofs

/-! # Reverse lookups — what the scan has found

    The scan goes through the blocks of a built dictionary in the order of their ids, up to
    one that looks like the end.  Every token that it visits is known by its block, and the
    block is decoded to the tokens of a key with the ids of their values. -/

namespace MozkeyDictionary

open ByteString OrderedMap MozkeyUtil MozkeyLouds MozkeySuccinct

/-! ## The tokens that are visited -/

/-- The tokens of a key that a scan over the list visits: none behind a block that ends the
    scan, and all but the last one in such a block. -/
def visitedIn (l : List KeyInfo) (keyInfo : KeyInfo) : List TokenInfo :=
  if ∃ k ∈ l, k.idInKeyTrie < keyInfo.idInKeyTrie ∧ EndsScan k.tokens then []
  else if EndsScan keyInfo.tokens then keyInfo.tokens.dropLast
  else keyInfo.tokens

variable {keyInfo : KeyInfo} {info : TokenInfo}

theorem mem_of_mem_visitedIn {l : List KeyInfo} (h : info ∈ visitedIn l keyInfo) :
    info ∈ keyInfo.tokens := by
  rw [visitedIn] at h
  split_ifs at h
  · exact absurd h List.not_mem_nil
  · exact List.mem_of_mem_dropLast h
  · exact h

/-- The tokens that the scan visits, each with its key. -/
def visitedPairs : List KeyInfo → List (KeyInfo × TokenInfo)
  | [] => []
  | keyInfo :: rest =>
    if EndsScan keyInfo.tokens then keyInfo.tokens.dropLast.map (keyInfo, ·)
    else keyInfo.tokens.map (keyInfo, ·) ++ visitedPairs rest

/-- **THE TOKENS THAT ARE VISITED**, by their keys; the induction is on the keys that are
    not yet scanned. -/
theorem visitedPairs_eq {l byId : List KeyInfo} (hperm : byId.Perm l)
    (hid : ∀ (i : Nat) (keyInfo : KeyInfo), byId[i]? = some keyInfo →
      keyInfo.idInKeyTrie = (i : Int)) :
    visitedPairs byId
      = byId.flatMap (fun keyInfo => (visitedIn l keyInfo).map (keyInfo, ·)) := by
  -- a key ends the scan before another one of the list
  have hbefore : ∀ {front keys : List KeyInfo} {keyInfo : KeyInfo},
      byId = front ++ keyInfo :: keys →
      ((∃ k ∈ l, k.idInKeyTrie < keyInfo.idInKeyTrie ∧ EndsScan k.tokens) ↔
        ∃ k ∈ front, EndsScan k.tokens) := by
    intro front keys keyInfo hbyId
    have hat := hid front.length keyInfo (by
      rw [hbyId, List.getElem?_append_right (Nat.le_refl _), Nat.sub_self,
        List.getElem?_cons_zero])
    constructor
    · rintro ⟨k, hk, hlt, hends⟩
      obtain ⟨i, hget⟩ := List.mem_iff_getElem?.mp (hperm.mem_iff.mpr hk)
      have hk' := hid i k hget
      have hi : i < front.length := by omega
      rw [hbyId, List.getElem?_append_left hi] at hget
      exact ⟨k, List.mem_of_getElem? hget, hends⟩
    · rintro ⟨k, hk, hends⟩
      obtain ⟨i, hget⟩ := List.mem_iff_getElem?.mp hk
      have hi : i < front.length := (List.getElem?_eq_some_iff.mp hget).1
      have hk' := hid i k (by rw [hbyId, List.getElem?_append_left hi, hget])
      refine ⟨k, hperm.mem_iff.mp ?_, by omega, hends⟩
      rw [hbyId]
      exact List.mem_append_left _ hk
  have hrun : ∀ (keys front : List KeyInfo), byId = front ++ keys →
      ((∃ k ∈ front, EndsScan k.tokens) →
        keys.flatMap (fun keyInfo => (visitedIn l keyInfo).map (keyInfo, ·)) = []) ∧
      ((∀ k ∈ front, ¬ EndsScan k.tokens) → visitedPairs keys
        = keys.flatMap (fun keyInfo => (visitedIn l keyInfo).map (keyInfo, ·))) := by
    intro keys
    induction keys with
    | nil => intro front _; exact ⟨fun _ => rfl, fun _ => rfl⟩
    | cons keyInfo keys ih =>
      intro front hbyId
      obtain ⟨hnone, hall⟩ := ih (front ++ [keyInfo]) (by rw [List.append_assoc]; exact hbyId)
      refine ⟨?_, ?_⟩
      · rintro ⟨k, hk, hends⟩
        rw [List.flatMap_cons, visitedIn, if_pos ((hbefore hbyId).mpr ⟨k, hk, hends⟩),
          hnone ⟨k, List.mem_append_left _ hk, hends⟩]
        rfl
      · intro hfront
        have hnot : ¬ ∃ k ∈ l, k.idInKeyTrie < keyInfo.idInKeyTrie ∧ EndsScan k.tokens := by
          rw [hbefore hbyId]
          rintro ⟨k, hk, hends⟩
          exact hfront k hk hends
        rw [visitedPairs, List.flatMap_cons, visitedIn, if_neg hnot]
        by_cases hends : EndsScan keyInfo.tokens
        · rw [if_pos hends, if_pos hends, hnone ⟨keyInfo, by simp, hends⟩, List.append_nil]
        · rw [if_neg hends, if_neg hends, hall ?_]
          intro k hk
          rcases List.mem_append.mp hk with hk | hk
          · exact hfront k hk
          · rw [List.mem_singleton.mp hk]
            exact hends
  exact (hrun byId [] rfl).2 (fun k hk => absurd hk List.not_mem_nil)

/-! ## The blocks of a built dictionary -/

/-- The id of a value in the trie; a value that is not stored has none. -/
def storedIdOf (hiraganaToKatakana : Bytes → Bytes) (idOfValue : Bytes → Int) (token : Token) :
    Int :=
  if getValueType hiraganaToKatakana token = .defaultValue then idOfValue (encodeValue token.value)
  else -1

/-- A dictionary that was built from a list, with the keys in the order of their ids. -/
structure Scanned (hiraganaToKatakana : Bytes → Bytes) (tokens : List Token) (l : List KeyInfo)
    (dict : SystemDictionary) (idOfValue : Bytes → Int) (byId : List KeyInfo) : Prop where
  perm : byId.Perm l
  at_id : ∀ (i : Nat) (keyInfo : KeyInfo), byId[i]? = some keyInfo → keyInfo.idInKeyTrie = (i : Int)
  keys_nodup : (l.map KeyInfo.key).Nodup
  infos : ((l.flatMap KeyInfo.tokens).map TokenInfo.token).Perm tokens
  scan : ∀ fuel, tokens.length < fuel →
    MozkeyDictionary.scanTokens fuel dict.tokenArray = some (scanResults elementOf 0 0 byId)
  layout : dict.tokenArray.bytesFrom 0
    = byId.flatMap (fun keyInfo => padded4 (elementOf keyInfo)) ++ padded4 [kTokenTerminationFlag]
  element : ∀ keyInfo ∈ l, ∃ rest,
    dict.tokenArray.bytesFrom keyInfo.idInKeyTrie.toNat = elementOf keyInfo ++ rest
  keys : ∃ keyTrieBuilder idOfKey,
    Agreement (l.map (fun keyInfo => encodeKey keyInfo.key)) keyTrieBuilder dict.keyTrie idOfKey ∧
      ∀ keyInfo ∈ l, keyInfo.idInKeyTrie = idOfKey (encodeKey keyInfo.key)
  values : ∃ added valueTrieBuilder,
    Agreement added valueTrieBuilder dict.valueTrie idOfValue ∧
      ∀ w, w ∈ added ↔ ∃ keyInfo ∈ l, ∃ info ∈ keyInfo.tokens,
        getValueType hiraganaToKatakana info.token = .defaultValue ∧
          encodeValue info.token.value = w
  spelled : ∀ keyInfo ∈ l, Spelled keyInfo.key ∧ keyInfo.key ≠ []
  reads : ∀ keyInfo ∈ l, keyInfo.tokens ≠ [] ∧
    ∃ outputs, elementOf keyInfo = outputs.flatten ∧ ReadsTokens keyInfo.tokens outputs
  decodable : ∀ keyInfo ∈ l,
    Chain (Decodable hiraganaToKatakana dict keyInfo.key) none keyInfo.tokens
  ids : ∀ keyInfo ∈ l, decodedIds (-1) keyInfo.tokens
    = keyInfo.tokens.map (fun info => storedIdOf hiraganaToKatakana idOfValue info.token)
  valueTypes : ∀ keyInfo ∈ l, ∀ info ∈ keyInfo.tokens,
    (info.valueType = .defaultValue ∨ info.valueType = .sameAsPrevValue ↔
      getValueType hiraganaToKatakana info.token = .defaultValue) ∧
    (info.valueType = .defaultValue → info.idInValueTrie = idOfValue (encodeValue info.token.value))
  first : ∀ keyInfo ∈ l, ∀ info ∈ keyInfo.tokens,
    getValueType hiraganaToKatakana info.token = .defaultValue →
      ∃ info' ∈ keyInfo.tokens, info'.valueType = .defaultValue ∧
        info'.token.value = info.token.value
  key_eq : ∀ keyInfo ∈ l, ∀ info ∈ keyInfo.tokens,
    info.token.key = keyInfo.key ∧ Acceptable info.token

section

variable {hiraganaToKatakana : Bytes → Bytes} {idOfValue : Bytes → Int}
  {frequentPos : SortedMap Nat Nat}

variable {token : Token}

theorem getValueType_congr {token' : Token} (hkey : token.key = token'.key)
    (hvalue : token.value = token'.value) :
    getValueType hiraganaToKatakana token = getValueType hiraganaToKatakana token' := by
  rw [getValueType, getValueType, hkey, hvalue]

theorem storedIdOf_congr {token' : Token} (hkey : token.key = token'.key)
    (hvalue : token.value = token'.value) :
    storedIdOf hiraganaToKatakana idOfValue token
      = storedIdOf hiraganaToKatakana idOfValue token' := by
  rw [storedIdOf, storedIdOf, getValueType_congr hkey hvalue, hvalue]

theorem getValueType_ne_default
    (h : token.value = token.key ∨ token.value = hiraganaToKatakana token.key) :
    getValueType hiraganaToKatakana token ≠ .defaultValue := by
  rw [getValueType]
  by_cases hkey : token.value = token.key
  · rw [if_pos hkey]
    decide
  · rw [if_neg hkey, if_pos (h.resolve_left hkey)]
    decide

theorem FollowsValue.isStored_iff {prev : Option Token}
    (h : FollowsValue hiraganaToKatakana idOfValue prev info)
    (hsame : info.valueType = .sameAsPrevValue →
      getValueType hiraganaToKatakana info.token = .defaultValue) :
    (info.valueType = .defaultValue ∨ info.valueType = .sameAsPrevValue) ↔
      getValueType hiraganaToKatakana info.token = .defaultValue := by
  cases htype : info.valueType with
  | defaultValue => exact ⟨fun _ => (h.stored htype).1, fun _ => Or.inl rfl⟩
  | sameAsPrevValue => exact ⟨fun _ => hsame htype, fun _ => Or.inr rfl⟩
  | asIsHiragana =>
    have hne : getValueType hiraganaToKatakana info.token ≠ .defaultValue :=
      getValueType_ne_default (Or.inl (h.hiragana htype))
    exact ⟨fun hc => by simp at hc, fun hc => absurd hc hne⟩
  | asIsKatakana =>
    have hne := getValueType_ne_default (Or.inr (h.katakana htype))
    exact ⟨fun hc => by simp at hc, fun hc => absurd hc hne⟩

/-- **THE IDS THAT ARE DECODED** are those of the stored values; the induction is on the
    tokens that are not yet decoded. -/
theorem decodedIds_eq {key : Bytes} : ∀ {infos : List TokenInfo} {prev : Option Token}
    {prevId : Int}, Chain (Follows hiraganaToKatakana idOfValue frequentPos) prev infos →
    (∀ info ∈ infos, info.token.key = key) →
    (∀ info ∈ infos, info.valueType = .sameAsPrevValue →
      getValueType hiraganaToKatakana info.token = .defaultValue) →
    (∀ p ∈ prev, p.key = key ∧ prevId = storedIdOf hiraganaToKatakana idOfValue p) →
    decodedIds prevId infos
      = infos.map (fun info => storedIdOf hiraganaToKatakana idOfValue info.token) := by
  intro infos
  induction infos with
  | nil => intro _ _ _ _ _ _; rfl
  | cons info infos ih =>
    intro prev prevId hchain hkeys hsame hprev
    have hkey := hkeys info List.mem_cons_self
    have hfollows := hchain.1.value
    have hid : decodedId prevId info = storedIdOf hiraganaToKatakana idOfValue info.token := by
      rw [decodedId]
      cases htype : info.valueType with
      | defaultValue =>
        obtain ⟨hvalue, hid⟩ := hfollows.stored htype
        rw [storedIdOf, if_pos hvalue]
        exact hid
      | sameAsPrevValue =>
        obtain ⟨p, hp, hvalue⟩ := hfollows.same htype
        obtain ⟨hpkey, hpid⟩ := hprev p hp
        exact hpid.trans (storedIdOf_congr (hpkey.trans hkey.symm) hvalue)
      | asIsHiragana =>
        rw [storedIdOf, if_neg (getValueType_ne_default (Or.inl (hfollows.hiragana htype)))]
      | asIsKatakana =>
        rw [storedIdOf, if_neg (getValueType_ne_default (Or.inr (hfollows.katakana htype)))]
    rw [decodedIds, hid, List.map_cons]
    refine congrArg _ (ih hchain.2 (fun i hi => hkeys i (List.mem_cons_of_mem _ hi))
      (fun i hi => hsame i (List.mem_cons_of_mem _ hi)) ?_)
    intro p hp
    rw [← Option.some.inj hp]
    exact ⟨hkey, rfl⟩

/-- **A STORED VALUE HAS A TOKEN WITH ITS ID** in the block of the key: the first one of
    those that follow each other with the value. -/
theorem exists_first {key : Bytes} : ∀ {infos : List TokenInfo} {prev : Option Token},
    Chain (Follows hiraganaToKatakana idOfValue frequentPos) prev infos →
    (∀ info ∈ infos, info.token.key = key) →
    ∀ info ∈ infos, getValueType hiraganaToKatakana info.token = .defaultValue →
      (∃ p ∈ prev, p.value = info.token.value) ∨
        ∃ info' ∈ infos, info'.valueType = .defaultValue ∧
          info'.token.value = info.token.value := by
  intro infos
  induction infos with
  | nil => intro _ _ _ info hmem; exact absurd hmem List.not_mem_nil
  | cons head infos ih =>
    intro prev hchain hkeys info hmem hvalue
    have hfollows := hchain.1.value
    -- the first token with the value of the head
    have hhead : getValueType hiraganaToKatakana head.token = .defaultValue →
        (∃ p ∈ prev, p.value = head.token.value) ∨
          ∃ info' ∈ head :: infos, info'.valueType = .defaultValue ∧
            info'.token.value = head.token.value := by
      intro hvalue
      cases htype : head.valueType with
      | defaultValue => exact Or.inr ⟨head, List.mem_cons_self, htype, rfl⟩
      | sameAsPrevValue => exact Or.inl (hfollows.same htype)
      | asIsHiragana =>
        exact absurd hvalue (getValueType_ne_default (Or.inl (hfollows.hiragana htype)))
      | asIsKatakana =>
        exact absurd hvalue (getValueType_ne_default (Or.inr (hfollows.katakana htype)))
    rcases List.mem_cons.mp hmem with rfl | hmem'
    · exact hhead hvalue
    · rcases ih hchain.2 (fun i hi => hkeys i (List.mem_cons_of_mem _ hi)) info hmem' hvalue with
        ⟨p, hp, heq⟩ | ⟨info', hinfo', htype, heq⟩
      · rw [← Option.some.inj hp] at heq
        have hkey := (hkeys head List.mem_cons_self).trans (hkeys info hmem).symm
        rw [← heq]
        exact hhead ((getValueType_congr hkey heq).trans hvalue)
      · exact Or.inr ⟨info', List.mem_cons_of_mem _ hinfo', htype, heq⟩

end

/-! ## Building -/

/-- A list of all keys, each at its id, has no other key at an id. -/
theorem NumberedKeys.at_id {l byId : List KeyInfo} (h : NumberedKeys l) (hperm : byId.Perm l)
    (hbyId : ∀ keyInfo ∈ l, byId[keyInfo.idInKeyTrie.toNat]? = some keyInfo) {i : Nat}
    (hget : byId[i]? = some keyInfo) : keyInfo.idInKeyTrie = (i : Int) := by
  have hmem := hperm.mem_iff.mp (List.mem_of_getElem? hget)
  have hnodup : byId.Nodup := hperm.nodup_iff.mpr (List.Nodup.of_map _ h.nodup)
  have heq := (List.getElem?_inj (List.getElem?_eq_some_iff.mp hget).1 hnodup).mp
    (hget.trans (hbyId keyInfo hmem).symm)
  have h0 := h.nonneg keyInfo hmem
  omega

namespace BuildParts

variable {hiraganaToKatakana : Bytes → Bytes} {tokens : List Token} {keyInfoList : List KeyInfo}
  {frequentPos : SortedMap Nat Nat} {idOfValue idOfKey : Bytes → Int}
  {valueTrieBuilder keyTrieBuilder : LoudsTrieBuilder}
  (h : BuildParts hiraganaToKatakana tokens keyInfoList frequentPos idOfValue idOfKey
    valueTrieBuilder keyTrieBuilder) (minKeyLen : Nat)
include h

/-- **THE TOKENS STAY** behind the passes. -/
theorem infos_allPasses : (((allPasses idOfValue idOfKey minKeyLen frequentPos keyInfoList).flatMap
    KeyInfo.tokens).map TokenInfo.token).Perm tokens := by
  have hread : ((keyInfoList.flatMap KeyInfo.tokens).map TokenInfo.token).Perm tokens := by
    refine (h.read.infos.map TokenInfo.token).trans (List.Perm.of_eq ?_)
    rw [List.map_map]
    exact List.map_id'' (fun _ => rfl) tokens
  refine List.Perm.trans ?_ hread
  rw [allPasses, List.flatMap_map, List.map_flatMap, List.map_flatMap]
  exact List.Perm.flatMap_left _ (fun keyInfo hkey => (h.passed_of_mem minKeyLen hkey).perm)

theorem sum_length_allPasses : ((allPasses idOfValue idOfKey minKeyLen frequentPos keyInfoList).map
    (fun keyInfo => keyInfo.tokens.length)).sum = tokens.length := by
  have hlen := (h.infos_allPasses minKeyLen).length_eq
  rw [List.length_map, List.length_flatMap] at hlen
  exact hlen

/-- The codes of the keys stay. -/
theorem codes_allPasses : (allPasses idOfValue idOfKey minKeyLen frequentPos keyInfoList).map
    (fun keyInfo => encodeKey keyInfo.key)
      = keyInfoList.map (fun keyInfo => encodeKey keyInfo.key) := by
  rw [allPasses, List.map_map]
  refine List.map_congr_left ?_
  intro keyInfo hkey
  exact congrArg encodeKey (h.passed_of_mem minKeyLen hkey).key_eq

/-- A value that is in the trie is one of a token behind the passes. -/
theorem mem_storedValues_allPasses (w : Bytes) : w ∈ storedValues keyInfoList ↔
    ∃ passed ∈ allPasses idOfValue idOfKey minKeyLen frequentPos keyInfoList,
      ∃ info ∈ passed.tokens, getValueType hiraganaToKatakana info.token = .defaultValue ∧
        encodeValue info.token.value = w := by
  have hinfos := h.infos_allPasses minKeyLen
  rw [mem_storedValues h.read]
  constructor
  · rintro ⟨token, htoken, htype, rfl⟩
    obtain ⟨info, hinfo, rfl⟩ := List.mem_map.mp (hinfos.mem_iff.mpr htoken)
    obtain ⟨passed, hmem, hinfo⟩ := List.mem_flatMap.mp hinfo
    exact ⟨passed, hmem, info, hinfo, htype, rfl⟩
  · rintro ⟨passed, hmem, info, hinfo, htype, rfl⟩
    exact ⟨info.token, hinfos.mem_iff.mp (List.mem_map_of_mem
      (List.mem_flatMap.mpr ⟨passed, hmem, hinfo⟩)), htype, rfl⟩

variable {minKeyLen} {passed : KeyInfo}
  (hmem : passed ∈ allPasses idOfValue idOfKey minKeyLen frequentPos keyInfoList)
include hmem

theorem withinLimits_of_mem : WithinLimits passed.tokens := by
  obtain ⟨keyInfo, hkey, hpassed⟩ := h.exists_passed minKeyLen hmem
  exact h.withinLimits_of_passed hkey hpassed

theorem spelled_of_mem : Spelled passed.key ∧ passed.key ≠ [] := by
  obtain ⟨keyInfo, hkey, hpassed⟩ := h.exists_passed minKeyLen hmem
  obtain ⟨token, htoken, heq⟩ := h.exists_token hkey
  rw [hpassed.key_eq]
  exact ⟨h.key_spelled hkey, heq ▸ (h.acceptable token htoken).key_ne⟩

theorem idInKeyTrie_of_mem : passed.idInKeyTrie = idOfKey (encodeKey passed.key) := by
  obtain ⟨keyInfo, -, hpassed⟩ := h.exists_passed minKeyLen hmem
  rw [hpassed.idInKeyTrie, hpassed.key_eq]

theorem key_eq_of_mem : ∀ info ∈ passed.tokens,
    info.token.key = passed.key ∧ Acceptable info.token := by
  obtain ⟨keyInfo, hkey, hpassed⟩ := h.exists_passed minKeyLen hmem
  intro info hinfo
  obtain ⟨htoken, heq⟩ := h.token_of_passed hkey hpassed hinfo
  exact ⟨heq.trans hpassed.key_eq.symm, h.acceptable _ htoken⟩

theorem stored_of_same : ∀ info ∈ passed.tokens, info.valueType = .sameAsPrevValue →
    getValueType hiraganaToKatakana info.token = .defaultValue := by
  obtain ⟨keyInfo, hkey, rfl⟩ := List.mem_map.mp hmem
  exact getValueType_of_sameAsPrev idOfKey minKeyLen _
    (fun _ hinfo => (h.read.of_mem hkey hinfo).2)

/-- The ids that are decoded for a key are those of its values. -/
theorem decodedIds_of_mem : decodedIds (-1) passed.tokens
    = passed.tokens.map (fun info => storedIdOf hiraganaToKatakana idOfValue info.token) := by
  obtain ⟨keyInfo, -, hpassed⟩ := h.exists_passed minKeyLen hmem
  exact decodedIds_eq hpassed.chain (fun info hinfo => (h.key_eq_of_mem hmem info hinfo).1)
    (h.stored_of_same hmem) (fun p hp => by cases hp)

theorem valueTypes_of_mem : ∀ info ∈ passed.tokens,
    (info.valueType = .defaultValue ∨ info.valueType = .sameAsPrevValue ↔
      getValueType hiraganaToKatakana info.token = .defaultValue) ∧
    (info.valueType = .defaultValue →
      info.idInValueTrie = idOfValue (encodeValue info.token.value)) := by
  obtain ⟨keyInfo, -, hpassed⟩ := h.exists_passed minKeyLen hmem
  intro info hinfo
  obtain ⟨index, hget⟩ := List.mem_iff_getElem?.mp hinfo
  obtain ⟨prev, hfollows, -⟩ := hpassed.chain.getElem? hget
  exact ⟨hfollows.value.isStored_iff (h.stored_of_same hmem info hinfo),
    fun htype => (hfollows.value.stored htype).2⟩

theorem first_of_mem : ∀ info ∈ passed.tokens,
    getValueType hiraganaToKatakana info.token = .defaultValue →
      ∃ info' ∈ passed.tokens, info'.valueType = .defaultValue ∧
        info'.token.value = info.token.value := by
  obtain ⟨keyInfo, -, hpassed⟩ := h.exists_passed minKeyLen hmem
  intro info hinfo htype
  rcases exists_first hpassed.chain (fun info hinfo => (h.key_eq_of_mem hmem info hinfo).1) info
    hinfo htype with ⟨p, hp, -⟩ | hfirst
  · cases hp
  · exact hfirst

end BuildParts

/-- The tokens of a key are decoded from the parts of a dictionary. -/
theorem Parts.decodable_of_mem {hiraganaToKatakana : Bytes → Bytes} {minKeyLen : Nat}
    {tokens : List Token} {keyInfoList : List KeyInfo} {frequentPos : SortedMap Nat Nat}
    {idOfValue idOfKey : Bytes → Int} {valueTrieBuilder keyTrieBuilder : LoudsTrieBuilder}
    {valueTrie keyTrie : LoudsTrie}
    (h : Parts hiraganaToKatakana tokens keyInfoList frequentPos idOfValue idOfKey
      valueTrieBuilder keyTrieBuilder valueTrie keyTrie) {passed : KeyInfo}
    (hmem : passed ∈ allPasses idOfValue idOfKey minKeyLen frequentPos keyInfoList)
    (array : BitVectorBasedArray) :
    Chain (Decodable hiraganaToKatakana
      ⟨keyTrie, valueTrie, array, frequentPosArray frequentPos⟩ passed.key) none passed.tokens := by
  obtain ⟨keyInfo, hkey, hpassed⟩ := h.exists_passed minKeyLen hmem
  have hvalue := fun (info : TokenInfo) (hinfo : info ∈ passed.tokens) =>
    h.value_of_passed hkey hpassed hinfo
  rw [← hpassed.key_eq] at hvalue
  exact h.decodable_of_passed hkey hpassed rfl rfl (fun info hinfo => (hvalue info hinfo).1)
    (fun info hinfo => (hvalue info hinfo).2)

/-- **A BUILT DICTIONARY** that opens has its blocks in the order of their ids. -/
theorem scanned_of_build {hiraganaToKatakana : Bytes → Bytes} {minKeyLen : Nat}
    {tokens : List Token} (hacceptable : ∀ token ∈ tokens, Acceptable token)
    (hfew : (storedValuesOf hiraganaToKatakana tokens).dedup.length ≤ 2 ^ 22)
    {built : List KeyInfo} {b : SystemDictionaryBuilder}
    (hbuild : buildFromTokens hiraganaToKatakana minKeyLen tokens = some (built, b))
    {dict : SystemDictionary} (hopen : openDictionaryFile b = some dict) :
    ∃ idOfValue byId, Scanned hiraganaToKatakana tokens built dict idOfValue byId := by
  obtain ⟨keyInfoList, frequentPos, idOfValue, idOfKey, valueTrieBuilder, keyTrieBuilder, valueTrie,
    keyTrie, array, hparts, rfl, rfl, ⟨harrayBuilt, hsize, hopenArray⟩, hget⟩ :=
    exists_opened hacceptable hfew hbuild hopen
  have hlimits : ∀ passed ∈ allPasses idOfValue idOfKey minKeyLen frequentPos keyInfoList,
      WithinLimits passed.tokens := fun _ hmem => hparts.withinLimits_of_mem hmem
  obtain ⟨byId, hperm, hbyId, hlayout, hscan⟩ :=
    scanTokens_eq hlimits harrayBuilt hsize hopenArray
  rw [hparts.sum_length_allPasses] at hscan
  exact ⟨idOfValue, byId,
    { perm := hperm
      at_id := fun _ _ => (hparts.numberedKeys_allPasses minKeyLen).at_id hperm hbyId
      keys_nodup := hparts.keys_nodup_allPasses minKeyLen
      infos := hparts.infos_allPasses minKeyLen
      scan := hscan
      layout := hlayout 0 (Nat.zero_le _)
      element := fun passed hmem => (hget passed hmem).2
      keys := ⟨keyTrieBuilder, idOfKey,
        (hparts.codes_allPasses minKeyLen).symm ▸ hparts.keyTrie_agrees,
        fun _ hmem => hparts.idInKeyTrie_of_mem hmem⟩
      values := ⟨_, _, hparts.valueTrie_agrees, hparts.mem_storedValues_allPasses minKeyLen⟩
      spelled := fun _ hmem => hparts.spelled_of_mem hmem
      reads := fun passed hmem =>
        ⟨(hlimits passed hmem).1, encodeTokens_spec (hlimits passed hmem).2 (hget passed hmem).1⟩
      decodable := fun _ hmem => hparts.decodable_of_mem hmem array
      ids := fun _ hmem => hparts.decodedIds_of_mem hmem
      valueTypes := fun _ hmem => hparts.valueTypes_of_mem hmem
      first := fun _ hmem => hparts.first_of_mem hmem
      key_eq := fun _ hmem => hparts.key_eq_of_mem hmem }⟩

/-! ## The results of the scan -/

/-- A result of the scan leads to the block of the key of a token. -/
structure Locates (encodedTokens : Bytes) (byId : List KeyInfo) (result : ScanResult)
    (pair : KeyInfo × TokenInfo) : Prop where
  valueId : result.valueId = valueIdOf pair.2
  index : byId[result.index]? = some pair.1
  bytes : ∃ rest, encodedTokens.drop result.tokensOffset = elementOf pair.1 ++ rest

/-- **THE RESULTS LEAD TO THEIR BLOCKS**; the induction is on the keys that are not yet
    scanned. -/
theorem locates_scanResults {encodedTokens : Bytes} {byId : List KeyInfo} :
    ∀ {keys : List KeyInfo} {index tokensOffset : Nat}, byId.drop index = keys →
      encodedTokens.drop tokensOffset
        = keys.flatMap (fun keyInfo => padded4 (elementOf keyInfo)) ++
            padded4 [kTokenTerminationFlag] →
      List.Forall₂ (Locates encodedTokens byId) (scanResults elementOf index tokensOffset keys)
        (visitedPairs keys) := by
  intro keys
  induction keys with
  | nil => intro _ _ _ _; exact .nil
  | cons keyInfo keys ih =>
    intro index tokensOffset hbyId hbytes
    have hget : byId[index]? = some keyInfo := by
      have h0 := congrArg (fun l : List KeyInfo => l[0]?) hbyId
      rw [List.getElem?_drop, Nat.add_zero] at h0
      exact h0
    have hblock : ∀ infos : List TokenInfo, List.Forall₂ (Locates encodedTokens byId)
        (blockResults index tokensOffset infos) (infos.map (keyInfo, ·)) := by
      intro infos
      rw [blockResults, List.forall₂_map_left_iff, List.forall₂_map_right_iff]
      refine List.forall₂_same.mpr ?_
      intro info _
      have hrest := hbytes
      rw [List.flatMap_cons, padded4, List.append_assoc, List.append_assoc] at hrest
      exact ⟨rfl, hget, _, hrest⟩
    rw [scanResults, visitedPairs]
    by_cases hends : EndsScan keyInfo.tokens
    · rw [if_pos hends, if_pos hends]
      exact hblock _
    · rw [if_neg hends, if_neg hends]
      refine List.rel_append (hblock _) (ih ?_ ?_)
      · rw [← List.drop_drop, hbyId]
        rfl
      · rw [← List.drop_drop, hbytes, List.flatMap_cons, List.append_assoc, List.drop_left]

section

variable {hiraganaToKatakana : Bytes → Bytes} {tokens : List Token} {l : List KeyInfo}
  {dict : SystemDictionary} {idOfValue : Bytes → Int} {byId : List KeyInfo}
  (h : Scanned hiraganaToKatakana tokens l dict idOfValue byId)
include h

namespace Scanned

/-- **THE RESULTS OF A BUILT DICTIONARY**, each with the token that it was found for. -/
theorem locates : List.Forall₂ (Locates (dict.tokenArray.bytesFrom 0) byId)
    (scanResults elementOf 0 0 byId) (visitedPairs byId) :=
  locates_scanResults List.drop_zero h.layout

theorem storedIn (hmem : keyInfo ∈ l) :
    ∀ info ∈ keyInfo.tokens, StoredIn dict info := by
  intro info hinfo htype
  obtain ⟨index, hget⟩ := List.mem_iff_getElem?.mp hinfo
  obtain ⟨prev, hdecodable, -⟩ := (h.decodable keyInfo hmem).getElem? hget
  exact ⟨_, hdecodable.stored htype⟩

theorem length_le (hmem : keyInfo ∈ l) :
    keyInfo.tokens.length ≤ tokens.length := by
  have hlen := h.infos.length_eq
  rw [List.length_map, List.length_flatMap] at hlen
  rw [← hlen]
  exact List.single_le_sum (fun _ _ => Nat.zero_le _) _ (List.mem_map_of_mem hmem)

/-- What the iterator has for the token of a key. -/
def decodedAs (hiraganaToKatakana : Bytes → Bytes) (idOfValue : Bytes → Int) (key : Bytes)
    (info : TokenInfo) : Token × Int × ValueType :=
  (report key info, storedIdOf hiraganaToKatakana idOfValue info.token, info.valueType)

/-- **A BLOCK IS DECODED** under any key, and under its own key to its tokens. -/
theorem exists_yields (hmem : keyInfo ∈ l) {ptr rest : Bytes}
    (hptr : ptr = elementOf keyInfo ++ rest) (key : Bytes) :
    ∃ it decoded,
      (TokenDecodeIterator.init key ptr).nextInternal hiraganaToKatakana dict = some it ∧
      Yields hiraganaToKatakana dict it decoded ∧ decoded.length ≤ tokens.length ∧
      (key = keyInfo.key →
        decoded.map (fun info => (info.token, info.idInValueTrie, info.valueType))
          = keyInfo.tokens.map (decodedAs hiraganaToKatakana idOfValue key)) := by
  obtain ⟨hne, outputs, helement, hreads⟩ := h.reads keyInfo hmem
  rw [helement] at hptr
  obtain ⟨it, decoded, hnext, hyields, hids, htypes, htokens⟩ :=
    exists_yields_of_reads hne (h.storedIn hmem) hreads
      (show (TokenDecodeIterator.init key ptr).ptr = _ from hptr) rfl
  have hlen := congrArg List.length htypes
  rw [List.length_map, List.length_map] at hlen
  refine ⟨it, decoded, hnext, hyields, hlen ▸ h.length_le hmem, ?_⟩
  rintro rfl
  have htoken := htokens (h.spelled keyInfo hmem).2
    (⟨rfl, rfl, Or.inl rfl, fun p hp => by cases hp⟩ :
      Holds hiraganaToKatakana keyInfo.key none (TokenDecodeIterator.init keyInfo.key ptr))
    (h.decodable keyInfo hmem)
  have hid : decoded.map TokenInfo.idInValueTrie
      = keyInfo.tokens.map (fun info => storedIdOf hiraganaToKatakana idOfValue info.token) :=
    hids.trans (h.ids keyInfo hmem)
  rw [← List.zip_map', ← List.zip_map', htoken, hid, htypes, List.zip_map', List.zip_map']
  rfl

/-- **A KEY IS RESTORED** from its id. -/
theorem restore_eq (hmem : keyInfo ∈ l) :
    (dict.keyTrie.restoreKeyString keyInfo.idInKeyTrie).map decodeKey = some keyInfo.key := by
  obtain ⟨_, idOfKey, hagree, hid⟩ := h.keys
  have hcode : encodeKey keyInfo.key ∈ l.map (fun keyInfo => encodeKey keyInfo.key) :=
    List.mem_map_of_mem (f := fun keyInfo : KeyInfo => encodeKey keyInfo.key) hmem
  rw [hid keyInfo hmem, hagree.restore _ hcode, Option.map_some]
  exact congrArg some (encodeKey_encodeKey (h.spelled keyInfo hmem).1)

end Scanned

end

/-! ## The ids of prefixes -/

variable {id : Int}

theorem mem_insertId {id' : Int} {ids : List Int} :
    id' ∈ insertId id ids ↔ id' = id ∨ id' ∈ ids := by
  rw [insertId]
  split_ifs with hmem
  · constructor
    · exact Or.inr
    · rintro (rfl | h)
      · exact hmem
      · exact h
  · exact List.mem_orderedInsert _

theorem nodup_insertId {ids : List Int} (h : ids.Nodup) : (insertId id ids).Nodup := by
  rw [insertId]
  split_ifs with hmem
  · exact h
  · exact (List.perm_orderedInsert _ id ids).nodup_iff.mpr (List.nodup_cons.mpr ⟨hmem, h⟩)

theorem mem_foldl_insertId : ∀ {new ids : List Int} {id : Int},
    id ∈ new.foldl (fun ids id => insertId id ids) ids ↔ id ∈ ids ∨ id ∈ new := by
  intro new
  induction new with
  | nil => intro ids id; simp
  | cons id' new ih =>
    intro ids id
    rw [List.foldl_cons, ih, mem_insertId, List.mem_cons]
    constructor
    · rintro ((h | h) | h)
      · exact Or.inr (Or.inl h)
      · exact Or.inl h
      · exact Or.inr (Or.inr h)
    · rintro (h | h | h)
      · exact Or.inl (Or.inr h)
      · exact Or.inl (Or.inl h)
      · exact Or.inr h

theorem nodup_foldl_insertId : ∀ (new : List Int) {ids : List Int}, ids.Nodup →
    (new.foldl (fun ids id => insertId id ids) ids).Nodup := by
  intro new
  induction new with
  | nil => intro ids h; exact h
  | cons id new ih => intro ids h; exact ih (nodup_insertId h)

theorem addKeyIdsOfAllPrefixes_eq (trie : LoudsTrie) (key : Bytes) (keyIds : List Int) :
    addKeyIdsOfAllPrefixes trie key keyIds
      = ((trie.prefixSearch key).map
          (fun call => (trie.getKeyIdOfTerminalNode call.2 : Int))).foldl
            (fun ids id => insertId id ids) keyIds := by
  rw [List.foldl_map]
  rfl

/-- **THE IDS OF PREFIXES**, with ids that were there before. -/
theorem mem_addKeyIdsOfAllPrefixes {added : List Bytes} {built : LoudsTrieBuilder}
    {trie : LoudsTrie} {idOf : Bytes → Int} (h : Agreement added built trie idOf) {key : Bytes}
    {keyIds : List Int} : id ∈ addKeyIdsOfAllPrefixes trie key keyIds ↔
      id ∈ keyIds ∨ ∃ w ∈ added, w <+: key ∧ idOf w = id := by
  have hids : (trie.prefixSearch key).map (fun call => (trie.getKeyIdOfTerminalNode call.2 : Int))
      = ((List.range (key.length + 1)).filter (fun n => key.take n ∈ added)).map
          (fun n => idOf (key.take n)) := by
    have heq := congrArg (List.map Prod.snd) (h.prefixSearch_eq key)
    rw [List.map_map, List.map_map] at heq
    exact heq
  rw [addKeyIdsOfAllPrefixes_eq, mem_foldl_insertId, hids]
  refine or_congr_right ?_
  constructor
  · intro hmem
    obtain ⟨n, hn, rfl⟩ := List.mem_map.mp hmem
    exact ⟨_, of_decide_eq_true (List.mem_filter.mp hn).2, List.take_prefix _ _, rfl⟩
  · rintro ⟨w, hw, hprefix, rfl⟩
    have htake := List.prefix_iff_eq_take.mp hprefix
    refine List.mem_map.mpr ⟨w.length, List.mem_filter.mpr ⟨?_, ?_⟩, by rw [← htake]⟩
    · exact List.mem_range.mpr (Nat.lt_succ_of_le hprefix.length_le)
    · rw [← htake]
      exact decide_eq_true hw

section

variable {hiraganaToKatakana : Bytes → Bytes} {tokens : List Token} {l : List KeyInfo}
  {dict : SystemDictionary} {idOfValue : Bytes → Int} {byId : List KeyInfo}
  (h : Scanned hiraganaToKatakana tokens l dict idOfValue byId)
include h

namespace Scanned

/-- **THE IDS OF THE VALUES THAT START A STRING.** -/
theorem mem_prefixIds {str : Bytes} :
    id ∈ addKeyIdsOfAllPrefixes dict.valueTrie (encodeValue str) [] ↔
      ∃ keyInfo ∈ l, ∃ info ∈ keyInfo.tokens,
        getValueType hiraganaToKatakana info.token = .defaultValue ∧
          encodeValue info.token.value <+: encodeValue str ∧
          idOfValue (encodeValue info.token.value) = id := by
  obtain ⟨added, _, hagree, hadded⟩ := h.values
  rw [mem_addKeyIdsOfAllPrefixes hagree]
  constructor
  · rintro (hmem | ⟨w, hw, hprefix, hid⟩)
    · exact absurd hmem List.not_mem_nil
    · obtain ⟨keyInfo, hkey, info, hinfo, htype, rfl⟩ := (hadded w).mp hw
      exact ⟨keyInfo, hkey, info, hinfo, htype, hprefix, hid⟩
  · rintro ⟨keyInfo, hkey, info, hinfo, htype, hprefix, hid⟩
    exact Or.inr ⟨_, (hadded _).mpr ⟨keyInfo, hkey, info, hinfo, htype, rfl⟩, hprefix, hid⟩

/-- The id of a stored value is no sentinel, and no other stored value has it. -/
theorem idOfValue_spec (hkey : keyInfo ∈ l) (hinfo : info ∈ keyInfo.tokens)
    (htype : getValueType hiraganaToKatakana info.token = .defaultValue) :
    0 ≤ idOfValue (encodeValue info.token.value) ∧
      ∀ k ∈ l, ∀ i ∈ k.tokens, getValueType hiraganaToKatakana i.token = .defaultValue →
        idOfValue (encodeValue i.token.value) = idOfValue (encodeValue info.token.value) →
          i.token.value = info.token.value := by
  obtain ⟨added, _, hagree, hadded⟩ := h.values
  have hmem := (hadded _).mpr ⟨keyInfo, hkey, info, hinfo, htype, rfl⟩
  refine ⟨(hagree.bijOn.mapsTo hmem).1, ?_⟩
  intro k hk i hi htype' heq
  exact encodeValue_injective (h.key_eq k hk i hi).2.value_spelled
    (h.key_eq keyInfo hkey info hinfo).2.value_spelled
    (hagree.bijOn.injOn ((hadded _).mpr ⟨k, hk, i, hi, htype', rfl⟩) hmem heq)

end Scanned

end

end MozkeyDictionary
