import Mozkey.DictionaryBuilderProofs

/-! # SystemDictionaryBuilder — what the passes leave

    A pass works on one field of the tokens of a key and keeps the tokens.  Behind all
    passes, every token can be told from its fields and the token before it, which is what
    the decoder does. -/

namespace MozkeyDictionary

open ByteString OrderedMap MozkeyLouds

/-! ## A token and the token before it -/

/-- The relation holds of every token and the token before it. -/
def Chain (R : Option Token → TokenInfo → Prop) : Option Token → List TokenInfo → Prop
  | _, [] => True
  | prev, info :: rest => R prev info ∧ Chain R (some info.token) rest

/-- A token of the chain follows on some token, and the first one on the start. -/
theorem Chain.getElem? {R : Option Token → TokenInfo → Prop} : ∀ {infos : List TokenInfo}
    {prev : Option Token}, Chain R prev infos → ∀ {index : Nat} {info : TokenInfo},
    infos[index]? = some info → ∃ prev', R prev' info ∧ (index = 0 → prev' = prev) := by
  intro infos
  induction infos with
  | nil => intro prev _ index info hget; exact nomatch hget
  | cons head rest ih =>
    intro prev h index info hget
    cases index with
    | zero =>
      rw [List.getElem?_cons_zero] at hget
      rw [← Option.some.inj hget]
      exact ⟨prev, h.1, fun _ => rfl⟩
    | succ index =>
      obtain ⟨prev', hR, -⟩ := ih h.2 hget
      exact ⟨prev', hR, fun h0 => (nomatch h0)⟩

/-- A chain by another one, where the tokens and those before them have properties. -/
theorem Chain.imp {R R' : Option Token → TokenInfo → Prop} {P : TokenInfo → Prop}
    {Q : Token → Prop}
    (himp : ∀ prev info, R prev info → (∀ p ∈ prev, Q p) → P info → R' prev info) :
    ∀ {infos : List TokenInfo} {prev : Option Token}, Chain R prev infos →
      (∀ info ∈ infos, P info ∧ Q info.token) → (∀ p ∈ prev, Q p) → Chain R' prev infos := by
  intro infos
  induction infos with
  | nil => intro _ _ _ _; trivial
  | cons head rest ih =>
    intro prev h hall hprev
    obtain ⟨hP, hQ⟩ := hall head List.mem_cons_self
    refine ⟨himp prev head h.1 hprev hP, ih h.2
      (fun info hmem => hall info (List.mem_cons_of_mem _ hmem)) ?_⟩
    intro p hp
    rw [← Option.some.inj hp]
    exact hQ

section

variable (hiraganaToKatakana : Bytes → Bytes) (idOfValue : Bytes → Int)
  (frequentPos : SortedMap Nat Nat)

/-- The position can be told from the fields and the token before. -/
structure FollowsPos (prev : Option Token) (info : TokenInfo) : Prop where
  frequent : info.posType = .frequentPos →
    ∃ id : Nat, frequentPos.get? info.token.pos = some id ∧ info.idInFrequentPosMap = id
  same : info.posType = .sameAsPrevPos → ∃ p ∈ prev, p.pos = info.token.pos

/-- The value can be told from the fields and the token before. -/
structure FollowsValue (prev : Option Token) (info : TokenInfo) : Prop where
  hiragana : info.valueType = .asIsHiragana → info.token.value = info.token.key
  katakana : info.valueType = .asIsKatakana →
    info.token.value = hiraganaToKatakana info.token.key
  same : info.valueType = .sameAsPrevValue → ∃ p ∈ prev, p.value = info.token.value
  stored : info.valueType = .defaultValue →
    getValueType hiraganaToKatakana info.token = .defaultValue ∧
      info.idInValueTrie = idOfValue (encodeValue info.token.value)

/-- What the decoder relies on. -/
structure Follows (prev : Option Token) (info : TokenInfo) : Prop where
  pos : FollowsPos frequentPos prev info
  value : FollowsValue hiraganaToKatakana idOfValue prev info

/-- The fields that are set before the passes that look at the token before. -/
structure Prepared (info : TokenInfo) : Prop where
  valueType : info.valueType = getValueType hiraganaToKatakana info.token
  idInValueTrie : info.idInValueTrie = idOfValue (encodeValue info.token.value)

/-! ## The loops that look at the token before -/

variable {hiraganaToKatakana idOfValue frequentPos}

/-- **A LOOP BY ITS BODY**: the tokens stay, and every token is what the body makes it. -/
theorem chain_overTokens {body : Option Token → TokenInfo → TokenInfo}
    {R R' : Option Token → TokenInfo → Prop}
    (htoken : ∀ prev info, (body prev info).token = info.token)
    (hbody : ∀ prev info, R prev info → R' prev (body prev info)) :
    ∀ {infos : List TokenInfo} {prev : Option Token}, Chain R prev infos →
      (overTokens body prev infos).map TokenInfo.token = infos.map TokenInfo.token ∧
        Chain R' prev (overTokens body prev infos) := by
  intro infos
  induction infos with
  | nil => intro prev _; exact ⟨rfl, trivial⟩
  | cons info rest ih =>
    intro prev h
    obtain ⟨hmap, hchain⟩ := ih h.2
    refine ⟨?_, hbody prev info h.1, ?_⟩
    · rw [overTokens, List.map_cons, List.map_cons, htoken, hmap]
    · rw [htoken]
      exact hchain

theorem token_setPosTypeOf (prev : Option Token) (info : TokenInfo) :
    (setPosTypeOf frequentPos prev info).token = info.token := by
  rw [setPosTypeOf]
  cases frequentPos.get? info.token.pos with
  | none => dsimp only; split_ifs <;> rfl
  | some id => dsimp only; split_ifs <;> rfl

/-- What holds of a token before `SetPosType`. -/
def BeforePosType (hiraganaToKatakana : Bytes → Bytes) (idOfValue : Bytes → Int)
    (info : TokenInfo) : Prop :=
  Prepared hiraganaToKatakana idOfValue info ∧ info.posType = .defaultPos

/-- What holds of a token between `SetPosType` and `SetValueType`. -/
def BeforeValueType (hiraganaToKatakana : Bytes → Bytes) (idOfValue : Bytes → Int)
    (frequentPos : SortedMap Nat Nat) (prev : Option Token) (info : TokenInfo) : Prop :=
  Prepared hiraganaToKatakana idOfValue info ∧ FollowsPos frequentPos prev info

/-- **THE BODY OF `SetPosType`.** -/
theorem followsPos_setPosTypeOf (prev : Option Token) (info : TokenInfo)
    (h : BeforePosType hiraganaToKatakana idOfValue info) :
    BeforeValueType hiraganaToKatakana idOfValue frequentPos prev
      (setPosTypeOf frequentPos prev info) := by
  obtain ⟨⟨hvalue, hid⟩, hpos⟩ := h
  by_cases hsame : prev.any (fun prev => decide (prev.pos = info.token.pos)) = true
  · obtain ⟨p, hp, heq⟩ := (Option.any_eq_true _ _).mp hsame
    have hp' : p.pos = info.token.pos := of_decide_eq_true heq
    rw [setPosTypeOf, if_pos hsame]
    cases frequentPos.get? info.token.pos with
    | none => exact ⟨⟨hvalue, hid⟩, ⟨fun h => (nomatch h), fun _ => ⟨p, hp, hp'⟩⟩⟩
    | some id => exact ⟨⟨hvalue, hid⟩, ⟨fun h => (nomatch h), fun _ => ⟨p, hp, hp'⟩⟩⟩
  · rw [setPosTypeOf, if_neg hsame]
    cases hget : frequentPos.get? info.token.pos with
    | none =>
      exact ⟨⟨hvalue, hid⟩, ⟨fun h => (nomatch hpos.symm.trans h),
        fun h => (nomatch hpos.symm.trans h)⟩⟩
    | some id => exact ⟨⟨hvalue, hid⟩, ⟨fun _ => ⟨id, hget, rfl⟩, fun h => (nomatch h)⟩⟩

theorem value_of_getValueType (hiraganaToKatakana : Bytes → Bytes) (token : Token) :
    (getValueType hiraganaToKatakana token = .asIsHiragana → token.value = token.key) ∧
      (getValueType hiraganaToKatakana token = .asIsKatakana →
        token.value = hiraganaToKatakana token.key) ∧
      getValueType hiraganaToKatakana token ≠ .sameAsPrevValue := by
  rw [getValueType]
  by_cases hkey : token.value = token.key
  · rw [if_pos hkey]
    exact ⟨fun _ => hkey, fun h => (nomatch h), fun h => (nomatch h)⟩
  · rw [if_neg hkey]
    by_cases hkatakana : token.value = hiraganaToKatakana token.key
    · rw [if_pos hkatakana]
      exact ⟨fun h => (nomatch h), fun _ => hkatakana, fun h => (nomatch h)⟩
    · rw [if_neg hkatakana]
      exact ⟨fun h => (nomatch h), fun h => (nomatch h), fun h => (nomatch h)⟩

/-- **THE BODY OF `SetValueType`.** -/
theorem follows_setValueTypeOf (prev : Option Token) (info : TokenInfo)
    (h : BeforeValueType hiraganaToKatakana idOfValue frequentPos prev info) :
    Follows hiraganaToKatakana idOfValue frequentPos prev (setValueTypeOf prev info) := by
  obtain ⟨⟨hvalue, hid⟩, hpos⟩ := h
  obtain ⟨hhiragana, hkatakana, hnever⟩ :=
    value_of_getValueType hiraganaToKatakana info.token
  rw [setValueTypeOf]
  by_cases hsame : prev.any (fun prev => decide (info.valueType ≠ .asIsHiragana) &&
      (decide (info.valueType ≠ .asIsKatakana) && decide (info.token.value = prev.value))) = true
  · obtain ⟨p, hp, heq⟩ := (Option.any_eq_true _ _).mp hsame
    rw [Bool.and_eq_true, Bool.and_eq_true] at heq
    have hp' : info.token.value = p.value := of_decide_eq_true heq.2.2
    rw [if_pos hsame]
    exact ⟨⟨hpos.frequent, hpos.same⟩, ⟨fun h => (nomatch h), fun h => (nomatch h),
      fun _ => ⟨p, hp, hp'.symm⟩, fun h => (nomatch h)⟩⟩
  · rw [if_neg hsame]
    refine ⟨hpos, ⟨?_, ?_, ?_, ?_⟩⟩
    · intro h
      exact hhiragana (hvalue.symm.trans h)
    · intro h
      exact hkatakana (hvalue.symm.trans h)
    · intro h
      exact absurd (hvalue.symm.trans h) hnever
    · intro h
      exact ⟨hvalue.symm.trans h, hid⟩

theorem token_setValueTypeOf (prev : Option Token) (info : TokenInfo) :
    (setValueTypeOf prev info).token = info.token := by
  rw [setValueTypeOf]
  split_ifs <;> rfl

theorem chain_of_forall {R : Option Token → TokenInfo → Prop} : ∀ {infos : List TokenInfo}
    (prev : Option Token), (∀ info ∈ infos, ∀ prev, R prev info) → Chain R prev infos := by
  intro infos
  induction infos with
  | nil => intro _ _; trivial
  | cons info rest ih =>
    intro prev h
    exact ⟨h info List.mem_cons_self prev,
      ih _ (fun info' hmem => h info' (List.mem_cons_of_mem _ hmem))⟩

/-! ## All passes -/

/-- The ids of `SetIdForValue` and `SetIdForKey`. -/
def withIds (idOfValue idOfKey : Bytes → Int) (keyInfo : KeyInfo) : KeyInfo :=
  { keyInfo with
    idInKeyTrie := idOfKey (encodeKey keyInfo.key)
    tokens := keyInfo.tokens.map (fun info =>
      { info with idInValueTrie := idOfValue (encodeValue info.token.value) }) }

/-- The passes for a key. -/
def passes (idOfValue idOfKey : Bytes → Int) (minKeyLen : Nat) (values : List Bytes)
    (frequentPos : SortedMap Nat Nat) (keyInfo : KeyInfo) : KeyInfo :=
  setValueType (setPosType frequentPos (setCostType minKeyLen values
    (sortTokenInfo (withIds idOfValue idOfKey keyInfo))))

/-- What holds of a key behind all passes. -/
structure Passed (hiraganaToKatakana : Bytes → Bytes) (idOfValue idOfKey : Bytes → Int)
    (frequentPos : SortedMap Nat Nat) (keyInfo passed : KeyInfo) : Prop where
  key_eq : passed.key = keyInfo.key
  idInKeyTrie : passed.idInKeyTrie = idOfKey (encodeKey keyInfo.key)
  perm : (passed.tokens.map TokenInfo.token).Perm (keyInfo.tokens.map TokenInfo.token)
  chain : Chain (Follows hiraganaToKatakana idOfValue frequentPos) none passed.tokens

theorem setCostType_spec (minKeyLen : Nat) (values : List Bytes) (keyInfo : KeyInfo) :
    (setCostType minKeyLen values keyInfo).key = keyInfo.key ∧
      (setCostType minKeyLen values keyInfo).idInKeyTrie = keyInfo.idInKeyTrie ∧
      (setCostType minKeyLen values keyInfo).tokens.map TokenInfo.token
        = keyInfo.tokens.map TokenInfo.token ∧
      ((∀ info ∈ keyInfo.tokens, BeforePosType hiraganaToKatakana idOfValue info) →
        ∀ info ∈ (setCostType minKeyLen values keyInfo).tokens,
          BeforePosType hiraganaToKatakana idOfValue info) := by
  rw [setCostType]
  split_ifs
  · exact ⟨rfl, rfl, rfl, fun h => h⟩
  · exact ⟨rfl, rfl, rfl, fun h => h⟩
  · exact ⟨rfl, rfl, rfl, fun h => h⟩
  · refine ⟨rfl, rfl, ?_, ?_⟩
    · rw [List.map_map]
      refine List.map_congr_left ?_
      intro info _
      show (if info.token.cost < 0x100 then info else _).token = info.token
      split_ifs <;> rfl
    · intro h info hmem
      obtain ⟨info', hmem', rfl⟩ := List.mem_map.mp hmem
      obtain ⟨⟨hvalue, hid⟩, hpos⟩ := h info' hmem'
      split_ifs
      · exact ⟨⟨hvalue, hid⟩, hpos⟩
      · exact ⟨⟨hvalue, hid⟩, hpos⟩

section

variable (idOfKey : Bytes → Int) (minKeyLen : Nat) (values : List Bytes) {keyInfo : KeyInfo}
  (h : ∀ info ∈ keyInfo.tokens, info = tokenInfoOf hiraganaToKatakana info.token)
include h

variable (idOfValue frequentPos) in
/-- The passes up to the one that sets the types of the values. -/
theorem beforeValueType_setPosType :
    ((setPosType frequentPos (setCostType minKeyLen values
        (sortTokenInfo (withIds idOfValue idOfKey keyInfo)))).tokens.map TokenInfo.token).Perm
      (keyInfo.tokens.map TokenInfo.token) ∧
    Chain (BeforeValueType hiraganaToKatakana idOfValue frequentPos) none
      (setPosType frequentPos (setCostType minKeyLen values
        (sortTokenInfo (withIds idOfValue idOfKey keyInfo)))).tokens := by
  have hids : ∀ info ∈ (withIds idOfValue idOfKey keyInfo).tokens,
      BeforePosType hiraganaToKatakana idOfValue info := by
    intro info hmem
    obtain ⟨info', hmem', rfl⟩ := List.mem_map.mp hmem
    rw [h info' hmem']
    exact ⟨⟨rfl, rfl⟩, rfl⟩
  have hsort : (sortTokenInfo (withIds idOfValue idOfKey keyInfo)).tokens.Perm
      (withIds idOfValue idOfKey keyInfo).tokens := List.perm_insertionSort _ _
  have hsorted : ∀ info ∈ (sortTokenInfo (withIds idOfValue idOfKey keyInfo)).tokens,
      BeforePosType hiraganaToKatakana idOfValue info :=
    fun info hmem => hids info (hsort.mem_iff.mp hmem)
  obtain ⟨-, -, hmap, hcost⟩ := setCostType_spec
    minKeyLen values (sortTokenInfo (withIds idOfValue idOfKey keyInfo))
  obtain ⟨hmapPos, hchainPos⟩ := chain_overTokens
    (R := fun _ => BeforePosType hiraganaToKatakana idOfValue)
    token_setPosTypeOf followsPos_setPosTypeOf
    (chain_of_forall none (fun info hmem _ => hcost hsorted info hmem))
  refine ⟨?_, hchainPos⟩
  refine (List.Perm.of_eq (hmapPos.trans hmap)).trans
    ((hsort.map TokenInfo.token).trans (List.Perm.of_eq ?_))
  show (keyInfo.tokens.map _).map TokenInfo.token = _
  rw [List.map_map]
  rfl

/-- **BEHIND ALL PASSES** every token can be told from its fields and the one before. -/
theorem passed_passes :
    Passed hiraganaToKatakana idOfValue idOfKey frequentPos keyInfo
      (passes idOfValue idOfKey minKeyLen values frequentPos keyInfo) := by
  obtain ⟨hkey, hid, -, -⟩ := @setCostType_spec hiraganaToKatakana idOfValue minKeyLen values
    (sortTokenInfo (withIds idOfValue idOfKey keyInfo))
  obtain ⟨hperm, hchain⟩ :=
    beforeValueType_setPosType idOfValue frequentPos idOfKey minKeyLen values h
  obtain ⟨hmapValue, hchainValue⟩ :=
    chain_overTokens token_setValueTypeOf follows_setValueTypeOf hchain
  exact ⟨hkey, hid, (List.Perm.of_eq hmapValue).trans hperm, hchainValue⟩

/-- **A VALUE AS THE ONE BEFORE** is one that could be stored. -/
theorem getValueType_of_sameAsPrev : ∀ info ∈
    (passes idOfValue idOfKey minKeyLen values frequentPos keyInfo).tokens,
    info.valueType = .sameAsPrevValue →
      getValueType hiraganaToKatakana info.token = .defaultValue := by
  obtain ⟨-, hchain⟩ :=
    beforeValueType_setPosType idOfValue frequentPos idOfKey minKeyLen values h
  have hbody : ∀ prev info,
      BeforeValueType hiraganaToKatakana idOfValue frequentPos prev info →
      (setValueTypeOf prev info).valueType = .sameAsPrevValue →
        getValueType hiraganaToKatakana (setValueTypeOf prev info).token = .defaultValue := by
    intro prev info hbefore
    obtain ⟨⟨hvalue, -⟩, -⟩ := hbefore
    have hnever := (value_of_getValueType hiraganaToKatakana info.token).2.2
    rw [setValueTypeOf]
    split_ifs with hsame
    · obtain ⟨p, -, heq⟩ := (Option.any_eq_true _ _).mp hsame
      rw [Bool.and_eq_true, Bool.and_eq_true, decide_eq_true_eq, decide_eq_true_eq, hvalue] at heq
      intro _
      cases htype : getValueType hiraganaToKatakana info.token with
      | defaultValue => rfl
      | sameAsPrevValue => exact absurd htype hnever
      | asIsHiragana => exact absurd htype heq.1
      | asIsKatakana => exact absurd htype heq.2.1
    · intro hc
      exact absurd (hvalue.symm.trans hc) hnever
  have hsame : Chain (fun _ info => info.valueType = .sameAsPrevValue →
      getValueType hiraganaToKatakana info.token = .defaultValue) none
      (passes idOfValue idOfKey minKeyLen values frequentPos keyInfo).tokens :=
    (chain_overTokens token_setValueTypeOf hbody hchain).2
  intro info hmem
  obtain ⟨index, hget⟩ := List.mem_iff_getElem?.mp hmem
  obtain ⟨prev, hinfo, -⟩ := hsame.getElem? hget
  exact hinfo

end

/-! ## The list behind the passes -/

/-- The passes for all keys; the values with several keys are those of the sorted list. -/
def allPasses (idOfValue idOfKey : Bytes → Int) (minKeyLen : Nat)
    (frequentPos : SortedMap Nat Nat) (keyInfoList : List KeyInfo) : List KeyInfo :=
  keyInfoList.map (passes idOfValue idOfKey minKeyLen
    (heterophoneValues ((keyInfoList.map (withIds idOfValue idOfKey)).map sortTokenInfo))
    frequentPos)

/-- The ids are set where the tries have an id for every string. -/
theorem setIds_eq {valueTrie keyTrie : LoudsTrieBuilder} {idOfKey : Bytes → Int}
    (hvalue : ∀ w, valueTrie.getId w = some (idOfValue w))
    (hkey : ∀ w, keyTrie.getId w = some (idOfKey w)) (keyInfoList : List KeyInfo) :
    (setIdForValue valueTrie keyInfoList).bind (setIdForKey keyTrie)
      = some (keyInfoList.map (withIds idOfValue idOfKey)) := by
  have htoken : (fun info : TokenInfo => (valueTrie.getId (encodeValue info.token.value)).bind
      (fun id => some { info with idInValueTrie := id }))
      = fun info =>
          pure { info with idInValueTrie := idOfValue (encodeValue info.token.value) } := by
    funext info
    rw [hvalue]
    rfl
  rw [setIdForValue]
  simp only [Option.bind_eq_bind, htoken, List.mapM_pure]
  show Option.bind (keyInfoList.mapM (fun keyInfo => pure _)) _ = _
  rw [List.mapM_pure]
  show setIdForKey keyTrie _ = _
  rw [setIdForKey]
  simp only [Option.bind_eq_bind, hkey, Option.bind_some]
  show List.mapM (fun keyInfo => pure _) _ = _
  rw [List.mapM_pure, List.map_map]
  rfl

/-- **THE BUILD BY ITS PASSES**, where the tries are built. -/
theorem buildFromTokens_eq {minKeyLen : Nat} {tokens : List Token} {keyInfoList : List KeyInfo}
    {valueTrie keyTrie : LoudsTrieBuilder} {idOfKey : Bytes → Int}
    (hread : readTokens hiraganaToKatakana tokens = some keyInfoList)
    (hfrequent : buildFrequentPos (combinedPoses keyInfoList) = some frequentPos)
    (hvalueTrie : buildValueTrie keyInfoList = some valueTrie)
    (hkeyTrie : buildKeyTrie keyInfoList = some keyTrie)
    (hvalue : ∀ w, valueTrie.getId w = some (idOfValue w))
    (hkey : ∀ w, keyTrie.getId w = some (idOfKey w)) :
    buildFromTokens hiraganaToKatakana minKeyLen tokens
      = (buildTokenArray (allPasses idOfValue idOfKey minKeyLen frequentPos keyInfoList) {}).map
          (fun tokenArray =>
            (allPasses idOfValue idOfKey minKeyLen frequentPos keyInfoList,
              { valueTrieBuilder := valueTrie
                keyTrieBuilder := keyTrie
                tokenArrayBuilder := tokenArray
                frequentPos := frequentPos })) := by
  have hids := setIds_eq hvalue hkey keyInfoList
  obtain ⟨withValues, hvalues, hkeys⟩ := Option.bind_eq_some_iff.mp hids
  have hpasses : ((((keyInfoList.map (withIds idOfValue idOfKey)).map sortTokenInfo).map
      (setCostType minKeyLen
        (heterophoneValues ((keyInfoList.map (withIds idOfValue idOfKey)).map
          sortTokenInfo)))).map (setPosType frequentPos)).map setValueType
      = allPasses idOfValue idOfKey minKeyLen frequentPos keyInfoList := by
    rw [List.map_map, List.map_map, List.map_map, List.map_map]
    rfl
  simp only [buildFromTokens, hread, hfrequent, hvalueTrie, hkeyTrie, hvalues, hkeys,
    Option.bind_eq_bind, Option.bind_some, hpasses]
  cases buildTokenArray (allPasses idOfValue idOfKey minKeyLen frequentPos keyInfoList) {} with
  | none => rfl
  | some tokenArray => rfl

end

end MozkeyDictionary
