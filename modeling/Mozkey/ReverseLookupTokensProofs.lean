import Mozkey.ReverseLookupPathsProofs

/-! # Reverse lookups — the tokens that are reported

    A token whose value starts the string can be found by the first pass, where its value in
    hiragana is its key, and by the second one, once for every token of its block that the
    scan has visited with the id of its value. -/

namespace MozkeyDictionary

open ByteString OrderedMap MozkeyUtil MozkeyLouds

/-! ## What is reported -/

/-- A function that maps the code points of a string one by one. -/
def CharacterWise (f : Bytes → Bytes) : Prop :=
  ∃ g : Nat → Nat, (∀ c, IsCode c → IsCode (g c)) ∧
    ∀ cs : List Nat, (∀ c ∈ cs, IsCode c) →
      f (cs.flatMap codepointToUtf8) = (cs.map g).flatMap codepointToUtf8

/-- A token of the dictionary as it is reported for its value. -/
def reversed (info : TokenInfo) : Token := (report info.token.key info).swap

/-- A lookup reports every token whose value starts the string, but for spelling
    corrections, and no token more often than the dictionary has it. -/
def ReversesAll (l : List KeyInfo) (str : Bytes) (reported : List Token) : Prop :=
  (((l.flatMap KeyInfo.tokens).filter (fun info =>
      !isSpelling info && decide (info.token.value <+: str))).map reversed).Subperm reported ∧
    reported.Subperm ((l.flatMap KeyInfo.tokens).map reversed)

/-- The number of tokens of a key that the scan visits with the id of a value. -/
def scanHits (l : List KeyInfo) (keyInfo : KeyInfo) (value : Bytes) : Nat :=
  (visitedIn l keyInfo).countP (fun info =>
    decide (info.valueType = .defaultValue) && decide (info.token.value = value))

/-- Every token with a stored value that starts the string is found in one way: its value in
    hiragana is its key, or the scan visits one token of its key with the id of the value. -/
def FoundOnce (katakanaToHiragana : Bytes → Bytes) (l : List KeyInfo) (str : Bytes) : Prop :=
  ∀ keyInfo ∈ l, ∀ info ∈ keyInfo.tokens, isSpelling info = false → info.token.value <+: str →
    info.valueType ≠ .asIsHiragana → info.valueType ≠ .asIsKatakana →
      (if katakanaToHiragana info.token.value = keyInfo.key then 1 else 0)
        + scanHits l keyInfo info.token.value = 1

/-- How often the first pass reports a token. -/
def t13nHits (katakanaToHiragana : Bytes → Bytes) (str : Bytes) (keyInfo : KeyInfo)
    (info : TokenInfo) : Nat :=
  if keyInfo.key <+: katakanaToHiragana str ∧ t13nFilter katakanaToHiragana info = true then 1
  else 0

/-- How often the second pass reports a token. -/
def valueHits (hiraganaToKatakana : Bytes → Bytes) (l : List KeyInfo) (str : Bytes)
    (keyInfo : KeyInfo) (info : TokenInfo) : Nat :=
  if isSpelling info = false ∧ getValueType hiraganaToKatakana info.token = .defaultValue ∧
      info.token.value <+: str then scanHits l keyInfo info.token.value
  else 0

/-- A sum over all tokens that are reported as a token. -/
def sumOver (l : List KeyInfo) (weight : KeyInfo → TokenInfo → Nat) (x : Token) : Nat :=
  (l.map (fun keyInfo => (keyInfo.tokens.map (fun info =>
    if reversed info = x then weight keyInfo info else 0)).sum)).sum

theorem sumOver_add (l : List KeyInfo) (weight weight' : KeyInfo → TokenInfo → Nat) (x : Token) :
    sumOver l (fun keyInfo info => weight keyInfo info + weight' keyInfo info) x
      = sumOver l weight x + sumOver l weight' x := by
  rw [sumOver, sumOver, sumOver, ← List.sum_map_add]
  refine congrArg List.sum (List.map_congr_left ?_)
  intro keyInfo _
  rw [← List.sum_map_add]
  refine congrArg List.sum (List.map_congr_left ?_)
  intro info _
  split_ifs <;> rfl

theorem sumOver_le {l : List KeyInfo} {weight weight' : KeyInfo → TokenInfo → Nat} {x : Token}
    (h : ∀ keyInfo ∈ l, ∀ info ∈ keyInfo.tokens, reversed info = x →
      weight keyInfo info ≤ weight' keyInfo info) : sumOver l weight x ≤ sumOver l weight' x := by
  refine List.sum_le_sum (fun keyInfo hkey => List.sum_le_sum (fun info hinfo => ?_))
  split_ifs with hx
  · exact h keyInfo hkey info hinfo hx
  · exact le_refl _

theorem sumOver_congr {l : List KeyInfo} {weight weight' : KeyInfo → TokenInfo → Nat} {x : Token}
    (h : ∀ keyInfo ∈ l, ∀ info ∈ keyInfo.tokens, reversed info = x →
      weight keyInfo info = weight' keyInfo info) : sumOver l weight x = sumOver l weight' x :=
  le_antisymm (sumOver_le (fun keyInfo hkey info hinfo hx => (h keyInfo hkey info hinfo hx).le))
    (sumOver_le (fun keyInfo hkey info hinfo hx => (h keyInfo hkey info hinfo hx).ge))

theorem sumOver_mul (l : List KeyInfo) (weight : KeyInfo → TokenInfo → Nat) (m : Nat) (x : Token) :
    sumOver l (fun keyInfo info => m * weight keyInfo info) x = m * sumOver l weight x := by
  rw [sumOver, sumOver, ← List.sum_map_mul_left]
  refine congrArg List.sum (List.map_congr_left ?_)
  intro keyInfo _
  rw [← List.sum_map_mul_left]
  refine congrArg List.sum (List.map_congr_left ?_)
  intro info _
  split_ifs
  · rfl
  · rfl

theorem count_reversed (p : TokenInfo → Bool) (infos : List TokenInfo) (x : Token) :
    ((infos.filter p).map reversed).count x = (infos.map (fun info =>
      if reversed info = x then if p info = true then 1 else 0 else 0)).sum := by
  induction infos with
  | nil => rfl
  | cons info infos ih =>
    rw [List.filter_cons, List.map_cons, List.sum_cons, ← ih]
    by_cases hp : p info = true
    · rw [if_pos hp, if_pos hp, List.map_cons, List.count_cons, Nat.add_comm]
      simp only [beq_iff_eq]
    · rw [if_neg hp, if_neg hp, ite_self, Nat.zero_add]

theorem count_map_reversed (p : KeyInfo → TokenInfo → Bool) (l : List KeyInfo) (x : Token) :
    (l.flatMap (fun keyInfo => (keyInfo.tokens.filter (p keyInfo)).map reversed)).count x
      = sumOver l (fun keyInfo info => if p keyInfo info = true then 1 else 0) x := by
  rw [List.count_flatMap, sumOver]
  refine congrArg List.sum (List.map_congr_left ?_)
  intro keyInfo _
  exact count_reversed (p keyInfo) keyInfo.tokens x

/-! ## The order of the reports -/

/-- The state of a callback behind reports of tokens, each with a key. -/
def afterReports {σ : Type} (callback : Callback σ) (reported : List (Bytes × Token)) (s : σ) : σ :=
  reported.foldl (fun s r => (callback.onToken r.1 r.1 r.2 s).2) s

/-- What is reported for tokens of a key. -/
def reportsOf (key : Bytes) (tokens : List Token) : List (Bytes × Token) :=
  tokens.map (fun token => (key, token.swap))

theorem afterTokens_wrapper {σ : Type} (callback : Callback σ) (key : Bytes) (tokens : List Token)
    (s : σ) : afterTokens (reverseLookupCallbackWrapper callback) key tokens s
      = afterReports callback (reportsOf key tokens) s := by
  rw [afterReports, reportsOf, List.foldl_map]
  rfl

theorem afterReports_flatMap {σ α : Type} (callback : Callback σ) (f : α → List (Bytes × Token))
    (as : List α) (s : σ) : as.foldl (fun s a => afterReports callback (f a) s) s
      = afterReports callback (as.flatMap f) s := by
  rw [afterReports, List.foldl_flatMap]
  rfl

/-- The second pass for an id. -/
def valueReports (hiraganaToKatakana : Bytes → Bytes) (idOfValue : Bytes → Int)
    (byId : List KeyInfo) (valueId : Int) : List (Bytes × Token) :=
  ((visitedPairs byId).filter (fun pair => decide (valueIdOf pair.2 = valueId))).flatMap
    (fun pair => reportsOf pair.1.key (reverseTokens hiraganaToKatakana idOfValue valueId pair.1))

theorem afterValues_eq {hiraganaToKatakana : Bytes → Bytes} {idOfValue : Bytes → Int}
    {byId : List KeyInfo} {σ : Type} (callback : Callback σ) (idSet : List Int) (s : σ) :
    afterValues hiraganaToKatakana idOfValue byId callback idSet s
      = afterReports callback
          (idSet.flatMap (valueReports hiraganaToKatakana idOfValue byId)) s := by
  rw [afterValues, ← afterReports_flatMap]
  simp only [afterTokens_wrapper, afterReports_flatMap, valueReports]

/-- The first pass for a key. -/
def t13nReports (katakanaToHiragana : Bytes → Bytes) (keyInfo : KeyInfo) : List (Bytes × Token) :=
  reportsOf keyInfo.key
    ((keyInfo.tokens.filter (t13nFilter katakanaToHiragana)).map (report keyInfo.key))

theorem exists_forall₂ {α β : Type} {R : α → β → Prop} : ∀ {as : List α},
    (∀ a ∈ as, ∃ b, R a b) → ∃ bs, List.Forall₂ R as bs := by
  intro as
  induction as with
  | nil => intro _; exact ⟨[], .nil⟩
  | cons a as ih =>
    intro h
    obtain ⟨b, hb⟩ := h a List.mem_cons_self
    obtain ⟨bs, hbs⟩ := ih (fun a ha => h a (List.mem_cons_of_mem _ ha))
    exact ⟨b :: bs, .cons hb hbs⟩

theorem foldl_of_forall₂ {α β σ : Type} {R : α → β → Prop} {f : σ → α → σ} {g : σ → β → σ}
    (hstep : ∀ s a b, R a b → f s a = g s b) {as : List α} {bs : List β}
    (hrel : List.Forall₂ R as bs) : ∀ s, as.foldl f s = bs.foldl g s := by
  induction hrel with
  | nil => intro s; rfl
  | cons hab _ ih => intro s; rw [List.foldl_cons, List.foldl_cons, hstep s _ _ hab, ih]

section

variable {hiraganaToKatakana katakanaToHiragana : Bytes → Bytes} {tokens : List Token}
  {l : List KeyInfo} {dict : SystemDictionary} {idOfValue : Bytes → Int} {byId : List KeyInfo}
  (h : Scanned hiraganaToKatakana tokens l dict idOfValue byId) {value : Bytes}
  (hspelled : Spelled value)
include h hspelled

/-- **THE KEYS OF THE FIRST PASS** are those that start the string. -/
theorem exists_keys : ∃ keyInfos : List KeyInfo,
    keyInfos.Perm (l.filter (fun keyInfo => decide (keyInfo.key <+: value))) ∧
      List.Forall₂ (fun n keyInfo => keyInfo ∈ l ∧
          (encodeKey value).take n = encodeKey keyInfo.key ∧ prefixOf value n = keyInfo.key)
        (keyLengths l (encodeKey value)) keyInfos := by
  have hkeys : ∀ n ∈ keyLengths l (encodeKey value), ∃ keyInfo, keyInfo ∈ l ∧
      (encodeKey value).take n = encodeKey keyInfo.key ∧ prefixOf value n = keyInfo.key := by
    intro n hn
    obtain ⟨keyInfo, hkey, hcode⟩ := List.mem_map.mp (of_decide_eq_true (List.mem_filter.mp hn).2)
    have hstarts : keyInfo.key <+: value := by
      refine (encodeKey_prefix_iff (h.spelled keyInfo hkey).1 hspelled).mp ?_
      rw [hcode]
      exact List.take_prefix _ _
    refine ⟨keyInfo, hkey, hcode.symm, ?_⟩
    rw [prefixOf, ← hcode, getDecodedKeyLength_encodeKey (h.spelled keyInfo hkey).1]
    exact (List.prefix_iff_eq_take.mp hstarts).symm
  obtain ⟨keyInfos, hrel⟩ := exists_forall₂ hkeys
  refine ⟨keyInfos, ?_, hrel⟩
  have hnodup : (keyLengths l (encodeKey value)).Nodup := List.nodup_range.filter _
  have hnodup' : keyInfos.Nodup := by
    -- different lengths have different codes
    have htakes :
        ((keyLengths l (encodeKey value)).map (fun n => (encodeKey value).take n)).Nodup := by
      refine List.Nodup.map_on ?_ hnodup
      intro n hn n' hn' heq
      have hle := Nat.le_of_lt_succ (List.mem_range.mp (List.mem_filter.mp hn).1)
      have hle' := Nat.le_of_lt_succ (List.mem_range.mp (List.mem_filter.mp hn').1)
      have hlen := congrArg List.length heq
      rw [List.length_take, List.length_take] at hlen
      omega
    have hcodes : (keyLengths l (encodeKey value)).map (fun n => (encodeKey value).take n)
        = keyInfos.map (fun keyInfo => encodeKey keyInfo.key) := by
      rw [← List.forall₂_eq_eq_eq, List.forall₂_map_left_iff, List.forall₂_map_right_iff]
      exact hrel.imp (fun n keyInfo hn => hn.2.1)
    rw [hcodes] at htakes
    exact List.Nodup.of_map _ htakes
  have hl : l.Nodup := List.Nodup.of_map _ h.keys_nodup
  refine (List.perm_ext_iff_of_nodup hnodup' (hl.filter _)).mpr ?_
  intro keyInfo
  constructor
  · intro hmem
    obtain ⟨n, hn, hkey, hcode, hpre⟩ := (exists_of_forall₂ hrel).2 keyInfo hmem
    refine List.mem_filter.mpr ⟨hkey, decide_eq_true ?_⟩
    rw [← hpre]
    exact List.take_prefix _ _
  · intro hmem
    obtain ⟨hkey, hstarts⟩ := List.mem_filter.mp hmem
    have hcode := (encodeKey_prefix_iff (h.spelled keyInfo hkey).1 hspelled).mpr
      (of_decide_eq_true hstarts)
    have htake := List.prefix_iff_eq_take.mp hcode
    have hn : (encodeKey keyInfo.key).length ∈ keyLengths l (encodeKey value) := by
      refine List.mem_filter.mpr
        ⟨List.mem_range.mpr (Nat.lt_succ_of_le hcode.length_le), decide_eq_true ?_⟩
      rw [← htake]
      exact List.mem_map.mpr ⟨keyInfo, hkey, rfl⟩
    obtain ⟨keyInfo', hmem', hkey', hcode', -⟩ := (exists_of_forall₂ hrel).1 _ hn
    rw [← htake] at hcode'
    rw [eq_of_encodeKey_eq h hkey hkey' hcode']
    exact hmem'

/-- **WHAT THE FIRST PASS REPORTS**, for a string that is given in hiragana. -/
theorem exists_registerT13N_reports {fuel : Nat} (hfuel : tokens.length < fuel) {str : Bytes}
    (hvalue : katakanaToHiragana str = value) : ∃ keyInfos : List KeyInfo,
    keyInfos.Perm (l.filter (fun keyInfo => decide (keyInfo.key <+: value))) ∧
      ∀ {σ : Type} {callback : Callback σ}, callback.Continues → ∀ s : σ,
        registerReverseLookupTokensForT13N hiraganaToKatakana katakanaToHiragana dict
            (reverseLookupCallbackWrapper callback) fuel str s
          = some (afterReports callback (keyInfos.flatMap (t13nReports katakanaToHiragana)) s) := by
  obtain ⟨keyInfos, hperm, hrel⟩ := exists_keys h hspelled
  obtain ⟨block, hblock, hrun⟩ := exists_registerT13N h katakanaToHiragana hfuel str
  rw [hvalue] at hblock hrun
  refine ⟨keyInfos, hperm, ?_⟩
  intro σ callback hcallback s
  have hwrapper : (reverseLookupCallbackWrapper callback).Continues :=
    ⟨fun _ _ => rfl, fun _ _ _ _ => rfl, fun key actualKey token s =>
      hcallback.onToken key actualKey token.swap s⟩
  obtain ⟨s', hs', hcontinues⟩ := hrun (reverseLookupCallbackWrapper callback) s
  rw [hs', hcontinues hwrapper, ← afterReports_flatMap]
  refine congrArg some ?_
  refine foldl_of_forall₂ (fun s n keyInfo ⟨hkey, hcode, hpre⟩ => ?_) hrel s
  -- the block of a key is filtered by the token and the type of its value
  have hdecoded := congrArg (fun entries : List (Token × Int × ValueType) =>
    (entries.filter (fun entry => t13nFilter katakanaToHiragana
      { token := entry.1, valueType := entry.2.2 })).map Prod.fst)
    (hblock keyInfo hkey n hcode hpre)
  simp only [List.filter_map, List.map_map] at hdecoded
  have htokens : ((block n).filter (t13nFilter katakanaToHiragana)).map TokenInfo.token
      = (keyInfo.tokens.filter (t13nFilter katakanaToHiragana)).map (report keyInfo.key) := by
    refine hdecoded.trans (congrArg (List.map _) (List.filter_congr ?_))
    intro info hinfo
    rw [Function.comp_apply, Scanned.decodedAs, report, ← (h.key_eq keyInfo hkey info hinfo).1]
    rfl
  rw [afterKey, hpre, htokens, afterTokens_wrapper]
  rfl

end

/-! ## What the second pass reports -/

theorem count_flatMap_const {α β : Type} [DecidableEq β] (as : List α) (bs : List β) (x : β) :
    (as.flatMap (fun _ => bs)).count x = as.length * bs.count x := by
  induction as with
  | nil => rw [List.flatMap_nil, List.count_nil, List.length_nil, Nat.zero_mul]
  | cons a as ih =>
    rw [List.flatMap_cons, List.count_append, ih, List.length_cons, Nat.succ_mul, Nat.add_comm]

theorem sumOver_perm {l l' : List KeyInfo} (h : l.Perm l') (weight : KeyInfo → TokenInfo → Nat)
    (x : Token) : sumOver l weight x = sumOver l' weight x :=
  (h.map _).sum_eq

theorem sum_sumOver (l : List KeyInfo) (weight : Int → KeyInfo → TokenInfo → Nat) (x : Token) :
    ∀ ids : List Int, (ids.map (fun id => sumOver l (weight id) x)).sum
      = sumOver l (fun keyInfo info => (ids.map (fun id => weight id keyInfo info)).sum) x := by
  intro ids
  induction ids with
  | nil =>
    rw [List.map_nil, List.sum_nil]
    symm
    refine List.sum_eq_zero (fun n hn => ?_)
    obtain ⟨keyInfo, -, rfl⟩ := List.mem_map.mp hn
    refine List.sum_eq_zero (fun n hn => ?_)
    obtain ⟨info, -, rfl⟩ := List.mem_map.mp hn
    exact ite_self _
  | cons id ids ih =>
    rw [List.map_cons, List.sum_cons, ih, ← sumOver_add]
    refine sumOver_congr (fun keyInfo _ info _ _ => ?_)
    rw [List.map_cons, List.sum_cons]

theorem sum_map_ite_eq_id (f : Int → Nat) (id : Int) : ∀ {ids : List Int}, ids.Nodup →
    (ids.map (fun id' => if id = id' then f id' else 0)).sum = if id ∈ ids then f id else 0 := by
  intro ids
  induction ids with
  | nil => intro _; rw [if_neg List.not_mem_nil]; rfl
  | cons id' ids ih =>
    intro hnodup
    obtain ⟨hnot, hnodup⟩ := List.nodup_cons.mp hnodup
    rw [List.map_cons, List.sum_cons, ih hnodup]
    by_cases heq : id = id'
    · rw [if_pos heq, heq, if_neg hnot, if_pos List.mem_cons_self, Nat.add_zero]
    · rw [if_neg heq, Nat.zero_add]
      simp only [List.mem_cons, heq, false_or]

/-- How often the scan visits the tokens of a key with an id. -/
def visits (l : List KeyInfo) (keyInfo : KeyInfo) (valueId : Int) : Nat :=
  ((visitedIn l keyInfo).filter (fun info => decide (valueIdOf info = valueId))).length

section

variable {hiraganaToKatakana : Bytes → Bytes} {tokens : List Token} {l : List KeyInfo}
  {dict : SystemDictionary} {idOfValue : Bytes → Int} {byId : List KeyInfo}
  (h : Scanned hiraganaToKatakana tokens l dict idOfValue byId)
include h

theorem count_valueReports (valueId : Int) (x : Token) :
    ((valueReports hiraganaToKatakana idOfValue byId valueId).map Prod.snd).count x
      = sumOver l (fun keyInfo info => visits l keyInfo valueId *
          if isSpelling info = false ∧
            storedIdOf hiraganaToKatakana idOfValue info.token = valueId then 1 else 0) x := by
  have hreports : ∀ keyInfo ∈ l,
      (reportsOf keyInfo.key (reverseTokens hiraganaToKatakana idOfValue valueId keyInfo)).map
        Prod.snd = (keyInfo.tokens.filter (fun info => !isSpelling info &&
          storedIdOf hiraganaToKatakana idOfValue info.token == valueId)).map reversed := by
    intro keyInfo hkey
    rw [reportsOf, reverseTokens, List.map_map, List.map_map]
    refine List.map_congr_left ?_
    intro info hinfo
    have hown := (h.key_eq keyInfo hkey info (List.mem_of_mem_filter hinfo)).1
    rw [reversed, hown]
    rfl
  rw [← sumOver_perm h.perm, valueReports, visitedPairs_eq h.perm h.at_id, List.filter_flatMap,
    List.flatMap_assoc, List.map_flatMap, List.count_flatMap, sumOver]
  refine congrArg List.sum (List.map_congr_left ?_)
  intro keyInfo hkey
  have hkey := h.perm.mem_iff.mp hkey
  rw [Function.comp_apply, List.filter_map, List.flatMap_map, List.map_flatMap]
  have hconst : ∀ infos : List TokenInfo, infos.flatMap (fun info =>
      (reportsOf (keyInfo, info).1.key (reverseTokens hiraganaToKatakana idOfValue valueId
        (keyInfo, info).1)).map Prod.snd)
      = infos.flatMap (fun _ => (keyInfo.tokens.filter (fun info => !isSpelling info &&
          storedIdOf hiraganaToKatakana idOfValue info.token == valueId)).map reversed) :=
    fun infos => List.flatMap_congr (fun info _ => hreports keyInfo hkey)
  rw [hconst, count_flatMap_const, count_reversed, ← List.sum_map_mul_left]
  refine congrArg List.sum (List.map_congr_left ?_)
  intro info _
  rw [visits]
  simp only [Bool.and_eq_true, Bool.not_eq_true', beq_iff_eq, mul_ite, mul_one, mul_zero]
  rfl

end

section

variable {hiraganaToKatakana katakanaToHiragana : Bytes → Bytes} {tokens : List Token}
  {l : List KeyInfo} {dict : SystemDictionary} {idOfValue : Bytes → Int} {byId : List KeyInfo}
  (h : Scanned hiraganaToKatakana tokens l dict idOfValue byId)
include h

theorem visits_eq_scanHits {keyInfo : KeyInfo} (hkey : keyInfo ∈ l) {info : TokenInfo}
    (hinfo : info ∈ keyInfo.tokens)
    (htype : getValueType hiraganaToKatakana info.token = .defaultValue) :
    visits l keyInfo (storedIdOf hiraganaToKatakana idOfValue info.token)
      = scanHits l keyInfo info.token.value := by
  obtain ⟨hpos, hinj⟩ := h.idOfValue_spec hkey hinfo htype
  rw [visits, scanHits, List.countP_eq_length_filter, storedIdOf, if_pos htype]
  refine congrArg List.length (List.filter_congr ?_)
  intro visited hvisited
  have hmem := mem_of_mem_visitedIn hvisited
  obtain ⟨hstored, hid⟩ := h.valueTypes keyInfo hkey visited hmem
  rw [← Bool.decide_and, decide_eq_decide, valueIdOf]
  split_ifs with hdefault
  · rw [hid hdefault]
    constructor
    · intro heq
      exact ⟨hdefault, hinj keyInfo hkey visited hmem (hstored.mp (Or.inl hdefault)) heq⟩
    · rintro ⟨-, heq⟩
      rw [heq]
  · constructor
    · intro heq
      omega
    · rintro ⟨hdefault', -⟩
      exact absurd hdefault' hdefault

variable {str : Bytes}

/-- The ids of the second pass are those of the stored values that start the string. -/
theorem storedIdOf_mem_iff (hspelled : Spelled str) {keyInfo : KeyInfo} (hkey : keyInfo ∈ l)
    {info : TokenInfo} (hinfo : info ∈ keyInfo.tokens) :
    storedIdOf hiraganaToKatakana idOfValue info.token
        ∈ addKeyIdsOfAllPrefixes dict.valueTrie (encodeValue str) []
      ↔ getValueType hiraganaToKatakana info.token = .defaultValue ∧ info.token.value <+: str := by
  have hvalue := (h.key_eq keyInfo hkey info hinfo).2.value_spelled
  rw [h.mem_prefixIds, storedIdOf]
  constructor
  · rintro ⟨k, hk, i, hi, htype, hstarts, hid⟩
    by_cases hdefault : getValueType hiraganaToKatakana info.token = .defaultValue
    · rw [if_pos hdefault] at hid
      have hsame := (h.idOfValue_spec hkey hinfo hdefault).2 k hk i hi htype hid
      rw [hsame] at hstarts
      exact ⟨hdefault, (encodeValue_prefix_iff hvalue hspelled).mp hstarts⟩
    · rw [if_neg hdefault] at hid
      have hpos := (h.idOfValue_spec hk hi htype).1
      omega
  · rintro ⟨htype, hstarts⟩
    rw [if_pos htype]
    exact ⟨keyInfo, hkey, info, hinfo, htype, (encodeValue_prefix_iff hvalue hspelled).mpr hstarts,
      rfl⟩

/-- **WHAT THE SECOND PASS REPORTS**, token by token. -/
theorem count_secondPass (hspelled : Spelled str) (x : Token) :
    (((addKeyIdsOfAllPrefixes dict.valueTrie (encodeValue str) []).flatMap
        (valueReports hiraganaToKatakana idOfValue byId)).map Prod.snd).count x
      = sumOver l (valueHits hiraganaToKatakana l str) x := by
  have hnodup : (addKeyIdsOfAllPrefixes dict.valueTrie (encodeValue str) []).Nodup := by
    rw [addKeyIdsOfAllPrefixes_eq]
    exact nodup_foldl_insertId _ List.nodup_nil
  rw [List.map_flatMap, List.count_flatMap]
  have hids : ((addKeyIdsOfAllPrefixes dict.valueTrie (encodeValue str) []).map
      (List.count x ∘ fun valueId =>
        (valueReports hiraganaToKatakana idOfValue byId valueId).map Prod.snd))
      = (addKeyIdsOfAllPrefixes dict.valueTrie (encodeValue str) []).map (fun valueId =>
        sumOver l (fun keyInfo info => visits l keyInfo valueId *
          if isSpelling info = false ∧
            storedIdOf hiraganaToKatakana idOfValue info.token = valueId then 1 else 0) x) :=
    List.map_congr_left (fun valueId _ => count_valueReports h valueId x)
  rw [hids, sum_sumOver]
  refine sumOver_congr (fun keyInfo hkey info hinfo _ => ?_)
  rw [valueHits]
  by_cases hspelling : isSpelling info = false
  · -- the only id that counts is that of the value
    have hone : ∀ valueId : Int, (visits l keyInfo valueId *
        if isSpelling info = false ∧
          storedIdOf hiraganaToKatakana idOfValue info.token = valueId then 1 else 0)
        = if storedIdOf hiraganaToKatakana idOfValue info.token = valueId then
            visits l keyInfo valueId else 0 := by
      intro valueId
      simp only [hspelling, true_and, mul_ite, mul_one, mul_zero]
    simp only [hone]
    rw [sum_map_ite_eq_id (visits l keyInfo) _ hnodup]
    by_cases hstored : getValueType hiraganaToKatakana info.token = .defaultValue ∧
        info.token.value <+: str
    · rw [if_pos ((storedIdOf_mem_iff h hspelled hkey hinfo).mpr hstored),
        if_pos ⟨hspelling, hstored⟩, visits_eq_scanHits h hkey hinfo hstored.1]
    · rw [if_neg (fun hmem => hstored ((storedIdOf_mem_iff h hspelled hkey hinfo).mp hmem)),
        if_neg (fun hc => hstored hc.2)]
  · rw [if_neg (fun hc => hspelling hc.1)]
    refine List.sum_eq_zero (fun n hn => ?_)
    obtain ⟨valueId, -, rfl⟩ := List.mem_map.mp hn
    rw [if_neg (fun hc => hspelling hc.1), Nat.mul_zero]

/-- **WHAT THE FIRST PASS REPORTS**, token by token. -/
theorem count_firstPass {keyInfos : List KeyInfo} (hperm : keyInfos.Perm
      (l.filter (fun keyInfo => decide (keyInfo.key <+: katakanaToHiragana str)))) (x : Token) :
    ((keyInfos.flatMap (t13nReports katakanaToHiragana)).map Prod.snd).count x
      = sumOver l (t13nHits katakanaToHiragana str) x := by
  have hreports : ∀ keyInfo ∈ l, (t13nReports katakanaToHiragana keyInfo).map Prod.snd
      = (keyInfo.tokens.filter (t13nFilter katakanaToHiragana)).map reversed := by
    intro keyInfo hkey
    rw [t13nReports, reportsOf, List.map_map, List.map_map]
    refine List.map_congr_left ?_
    intro info hinfo
    have hown := (h.key_eq keyInfo hkey info (List.mem_of_mem_filter hinfo)).1
    rw [reversed, hown]
    rfl
  rw [List.map_flatMap, (hperm.flatMap_right _).count_eq, List.count_flatMap]
  have hsum : ∀ keyInfos : List KeyInfo, (∀ keyInfo ∈ keyInfos, keyInfo ∈ l) →
      ((keyInfos.filter (fun keyInfo => decide (keyInfo.key <+: katakanaToHiragana str))).map
        (List.count x ∘ fun keyInfo => (t13nReports katakanaToHiragana keyInfo).map Prod.snd)).sum
        = sumOver keyInfos (t13nHits katakanaToHiragana str) x := by
    intro keyInfos
    induction keyInfos with
    | nil => intro _; rfl
    | cons keyInfo keyInfos ih =>
      intro hmem
      have hrest := ih (fun k hk => hmem k (List.mem_cons_of_mem _ hk))
      rw [sumOver] at hrest
      rw [List.filter_cons, sumOver, List.map_cons, List.sum_cons, ← hrest]
      by_cases hstarts : keyInfo.key <+: katakanaToHiragana str
      · rw [if_pos (decide_eq_true hstarts), List.map_cons, List.sum_cons, Function.comp_apply,
          hreports keyInfo (hmem keyInfo List.mem_cons_self), count_reversed]
        simp only [t13nHits, hstarts, true_and]
      · rw [if_neg (by rw [decide_eq_true_eq]; exact hstarts)]
        simp only [t13nHits, hstarts, false_and, if_false, ite_self, List.map_const',
          List.sum_replicate, smul_zero, Nat.zero_add]
  exact hsum l (fun _ hk => hk)

end

/-! ## How often a token is reported -/

/-- A string that starts another one still does so behind a map of the characters. -/
theorem CharacterWise.prefix_map {f : Bytes → Bytes} (hf : CharacterWise f) {s t : Bytes}
    (hs : Spelled s) (ht : Spelled t) (h : s <+: t) : Spelled (f t) ∧ f s <+: f t := by
  obtain ⟨g, hcode, hmap⟩ := hf
  obtain ⟨hspell, hcodes⟩ := hs.flatMap_chars32
  obtain ⟨hspell', hcodes'⟩ := ht.flatMap_chars32
  obtain ⟨rest, hrest⟩ := (prefix_iff_chars32 hs ht).mp h
  have hft := hmap (chars32 t) hcodes'
  rw [hspell'] at hft
  have hfs := hmap (chars32 s) hcodes
  rw [hspell] at hfs
  refine ⟨⟨(chars32 t).map g, ?_, hft⟩, ?_⟩
  · intro c hc
    obtain ⟨c, hmem, rfl⟩ := List.mem_map.mp hc
    exact hcode c (hcodes' c hmem)
  · rw [hfs, hft, ← hrest, List.map_append, List.flatMap_append]
    exact List.prefix_append _ _

section

variable {hiraganaToKatakana katakanaToHiragana : Bytes → Bytes} {tokens : List Token}
  {l : List KeyInfo} {dict : SystemDictionary} {idOfValue : Bytes → Int} {byId : List KeyInfo}
  (h : Scanned hiraganaToKatakana tokens l dict idOfValue byId)
include h

variable {keyInfo : KeyInfo} {info : TokenInfo}

theorem asIs_iff (hkey : keyInfo ∈ l) (hinfo : info ∈ keyInfo.tokens) :
    (info.valueType ≠ .asIsHiragana ∧ info.valueType ≠ .asIsKatakana)
      ↔ getValueType hiraganaToKatakana info.token = .defaultValue := by
  rw [← (h.valueTypes keyInfo hkey info hinfo).1]
  cases info.valueType <;> simp

theorem hits_congr {str : Bytes} {keyInfo keyInfo' : KeyInfo} (hkey : keyInfo ∈ l)
    (hkey' : keyInfo' ∈ l) {info info' : TokenInfo} (hinfo : info ∈ keyInfo.tokens)
    (hinfo' : info' ∈ keyInfo'.tokens) (heq : reversed info = reversed info') :
    keyInfo = keyInfo' ∧ isSpelling info = isSpelling info' ∧ info.token.value = info'.token.value ∧
      t13nHits katakanaToHiragana str keyInfo info + valueHits hiraganaToKatakana l str keyInfo info
        = t13nHits katakanaToHiragana str keyInfo' info'
          + valueHits hiraganaToKatakana l str keyInfo' info' := by
  have hvalue : info.token.value = info'.token.value := congrArg Token.key heq
  have hown : info.token.key = info'.token.key := congrArg Token.value heq
  have hattributes : (reversed info).attributes = (reversed info').attributes := by rw [heq]
  change info.token.attributes = info'.token.attributes at hattributes
  have hspelling : isSpelling info = isSpelling info' := by
    rw [isSpelling, isSpelling, hattributes]
  have htype : getValueType hiraganaToKatakana info.token
      = getValueType hiraganaToKatakana info'.token := getValueType_congr hown hvalue
  obtain rfl : keyInfo = keyInfo' := by
    refine List.inj_on_of_nodup_map h.keys_nodup hkey hkey' ?_
    rw [← (h.key_eq keyInfo hkey info hinfo).1, ← (h.key_eq keyInfo' hkey' info' hinfo').1, hown]
  refine ⟨rfl, hspelling, hvalue, ?_⟩
  have hfilter : t13nFilter katakanaToHiragana info = t13nFilter katakanaToHiragana info' := by
    rw [t13nFilter, t13nFilter]
    simp only [asIs_iff h hkey hinfo, asIs_iff h hkey hinfo', hspelling, htype, hown, hvalue]
  rw [t13nHits, t13nHits, valueHits, valueHits, hfilter, hspelling, htype, hvalue]

variable {str : Bytes} (hspelled : Spelled str) (hf : CharacterWise katakanaToHiragana)
include hspelled hf

theorem hits_of_stored (hkey : keyInfo ∈ l) (hinfo : info ∈ keyInfo.tokens)
    (hspelling : isSpelling info = false) (hstarts : info.token.value <+: str)
    (htype : getValueType hiraganaToKatakana info.token = .defaultValue) :
    t13nHits katakanaToHiragana str keyInfo info + valueHits hiraganaToKatakana l str keyInfo info
      = (if katakanaToHiragana info.token.value = keyInfo.key then 1 else 0)
        + scanHits l keyInfo info.token.value := by
  obtain ⟨hown, hacceptable⟩ := h.key_eq keyInfo hkey info hinfo
  have hstart := (hf.prefix_map hacceptable.value_spelled hspelled hstarts).2
  have hfilter : t13nFilter katakanaToHiragana info
      = decide (keyInfo.key = katakanaToHiragana info.token.value) := by
    rw [t13nFilter, if_neg (by rw [hspelling]; exact Bool.false_ne_true),
      if_pos ((asIs_iff h hkey hinfo).mpr htype), hown]
  rw [valueHits, if_pos ⟨hspelling, htype, hstarts⟩, t13nHits, hfilter]
  refine congrArg (· + _) ?_
  by_cases hsame : katakanaToHiragana info.token.value = keyInfo.key
  · rw [if_pos ⟨hsame ▸ hstart, decide_eq_true hsame.symm⟩, if_pos hsame]
  · rw [if_neg (fun hc => hsame (of_decide_eq_true hc.2).symm), if_neg hsame]

variable (hfixed : ∀ keyInfo ∈ l, katakanaToHiragana keyInfo.key = keyInfo.key ∧
  katakanaToHiragana (hiraganaToKatakana keyInfo.key) = keyInfo.key)
include hfixed

/-- A value that is spelled like the key is found by the first pass only. -/
theorem hits_of_asIs (hkey : keyInfo ∈ l) (hinfo : info ∈ keyInfo.tokens)
    (hspelling : isSpelling info = false) (hstarts : info.token.value <+: str)
    (htype : getValueType hiraganaToKatakana info.token ≠ .defaultValue) :
    t13nHits katakanaToHiragana str keyInfo info
      + valueHits hiraganaToKatakana l str keyInfo info = 1 := by
  obtain ⟨hown, hacceptable⟩ := h.key_eq keyInfo hkey info hinfo
  have hstart := (hf.prefix_map hacceptable.value_spelled hspelled hstarts).2
  have hsame : katakanaToHiragana info.token.value = keyInfo.key := by
    rw [getValueType] at htype
    split_ifs at htype with hhiragana hkatakana
    · rw [hhiragana, hown]
      exact (hfixed keyInfo hkey).1
    · rw [hkatakana, hown]
      exact (hfixed keyInfo hkey).2
    · exact absurd rfl htype
  have hfilter : t13nFilter katakanaToHiragana info = true := by
    rw [t13nFilter, if_neg (by rw [hspelling]; exact Bool.false_ne_true),
      if_neg (fun hc => htype ((asIs_iff h hkey hinfo).mp hc))]
  rw [valueHits, if_neg (fun hc => htype hc.2.1), t13nHits, if_pos ⟨hsame ▸ hstart, hfilter⟩]

omit hfixed in
theorem hits_le_one (honce : FoundOnce katakanaToHiragana l str) {keyInfo : KeyInfo}
    (hkey : keyInfo ∈ l) {info : TokenInfo} (hinfo : info ∈ keyInfo.tokens) :
    t13nHits katakanaToHiragana str keyInfo info
      + valueHits hiraganaToKatakana l str keyInfo info ≤ 1 := by
  have hfirst : t13nHits katakanaToHiragana str keyInfo info ≤ 1 := by
    rw [t13nHits]
    split_ifs
    · exact le_refl _
    · exact Nat.zero_le _
  by_cases hfound : isSpelling info = false ∧
      getValueType hiraganaToKatakana info.token = .defaultValue ∧ info.token.value <+: str
  · obtain ⟨hspelling, htype, hstarts⟩ := hfound
    obtain ⟨hhiragana, hkatakana⟩ := (asIs_iff h hkey hinfo).mpr htype
    rw [hits_of_stored h hspelled hf hkey hinfo hspelling hstarts htype]
    exact (honce keyInfo hkey info hinfo hspelling hstarts hhiragana hkatakana).le
  · rw [valueHits, if_neg hfound]
    exact hfirst

theorem one_le_hits (honce : FoundOnce katakanaToHiragana l str) {keyInfo : KeyInfo}
    (hkey : keyInfo ∈ l) {info : TokenInfo} (hinfo : info ∈ keyInfo.tokens)
    (hspelling : isSpelling info = false) (hstarts : info.token.value <+: str) :
    1 ≤ t13nHits katakanaToHiragana str keyInfo info
      + valueHits hiraganaToKatakana l str keyInfo info := by
  by_cases htype : getValueType hiraganaToKatakana info.token = .defaultValue
  · obtain ⟨hhiragana, hkatakana⟩ := (asIs_iff h hkey hinfo).mpr htype
    rw [hits_of_stored h hspelled hf hkey hinfo hspelling hstarts htype]
    exact (honce keyInfo hkey info hinfo hspelling hstarts hhiragana hkatakana).ge
  · exact (hits_of_asIs h hspelled hf hfixed hkey hinfo hspelling hstarts htype).ge

/-- **WHAT IS REPORTED IS RIGHT** exactly where every token is found once. -/
theorem reversesAll_iff {reported : List Token}
    (hcount : ∀ x, reported.count x = sumOver l (fun keyInfo info =>
      t13nHits katakanaToHiragana str keyInfo info
        + valueHits hiraganaToKatakana l str keyInfo info) x) :
    ReversesAll l str reported ↔ FoundOnce katakanaToHiragana l str := by
  have hwanted : ∀ x, (((l.flatMap KeyInfo.tokens).filter (fun info =>
      !isSpelling info && decide (info.token.value <+: str))).map reversed).count x
      = sumOver l (fun _ info =>
        if (!isSpelling info && decide (info.token.value <+: str)) = true then 1 else 0) x := by
    intro x
    rw [List.filter_flatMap, List.map_flatMap, ← count_map_reversed]
  have hall : ∀ x, ((l.flatMap KeyInfo.tokens).map reversed).count x
      = sumOver l (fun _ _ => 1) x := by
    intro x
    have hcount := count_map_reversed (fun _ _ => true) l x
    simp only [List.filter_true, if_true] at hcount
    rw [List.map_flatMap, hcount]
  rw [ReversesAll, List.subperm_ext_iff, List.subperm_ext_iff]
  constructor
  · rintro ⟨hcomplete, honly⟩ keyInfo hkey info hinfo hspelling hstarts hhiragana hkatakana
    have htype := (asIs_iff h hkey hinfo).mp ⟨hhiragana, hkatakana⟩
    rw [← hits_of_stored h hspelled hf hkey hinfo hspelling hstarts htype]
    generalize hw : t13nHits katakanaToHiragana str keyInfo info
      + valueHits hiraganaToKatakana l str keyInfo info = w
    -- all tokens that are reported alike have the same part in the sums
    have hreported : reported.count (reversed info)
        = w * sumOver l (fun _ _ => 1) (reversed info) := by
      rw [hcount, ← sumOver_mul]
      refine sumOver_congr (fun keyInfo' hkey' info' hinfo' heq => ?_)
      rw [(hits_congr h hkey' hkey hinfo' hinfo heq).2.2.2, hw, Nat.mul_one]
    have hwant : (((l.flatMap KeyInfo.tokens).filter (fun info =>
        !isSpelling info && decide (info.token.value <+: str))).map reversed).count (reversed info)
          = sumOver l (fun _ _ => 1) (reversed info) := by
      rw [hwanted]
      refine sumOver_congr (fun keyInfo' hkey' info' hinfo' heq => ?_)
      obtain ⟨-, hspelling', hvalue', -⟩ := @hits_congr _ katakanaToHiragana _ _ _ _ _ h str _ _
        hkey' hkey _ _ hinfo' hinfo heq
      rw [if_pos]
      rw [hspelling', hvalue', hspelling, decide_eq_true hstarts]
      rfl
    have hmem : info ∈ l.flatMap KeyInfo.tokens := List.mem_flatMap.mpr ⟨keyInfo, hkey, hinfo⟩
    have hpositive : 0 < sumOver l (fun _ _ => 1) (reversed info) := by
      rw [← hall]
      exact List.count_pos_iff.mpr (List.mem_map_of_mem hmem)
    have hge := hcomplete (reversed info) (List.mem_map_of_mem (List.mem_filter.mpr ⟨hmem, by
      rw [hspelling, decide_eq_true hstarts]
      rfl⟩))
    rw [hwant, hreported] at hge
    have hw1 : 1 ≤ w := by
      by_contra hzero
      rw [Nat.lt_one_iff.mp (Nat.not_le.mp hzero), Nat.zero_mul] at hge
      omega
    have hle := honly (reversed info) (List.count_pos_iff.mp (by
      rw [hreported]
      exact Nat.mul_pos hw1 hpositive))
    rw [hall, hreported] at hle
    have hw2 : w ≤ 1 := Nat.le_of_mul_le_mul_right (by rw [Nat.one_mul]; exact hle) hpositive
    omega
  · intro honce
    constructor
    · intro x _
      rw [hwanted, hcount]
      refine sumOver_le (fun keyInfo hkey info hinfo _ => ?_)
      split_ifs with hwant
      · rw [Bool.and_eq_true, Bool.not_eq_true', decide_eq_true_eq] at hwant
        exact one_le_hits h hspelled hf hfixed honce hkey hinfo hwant.1 hwant.2
      · exact Nat.zero_le _
    · intro x _
      rw [hall, hcount]
      exact sumOver_le (fun keyInfo hkey info hinfo _ =>
        hits_le_one h hspelled hf honce hkey hinfo)

end

/-! ## The lookup -/

/-- A lookup reports the tokens that it is to report, to every callback that continues. -/
def Reverses (hiraganaToKatakana katakanaToHiragana : Bytes → Bytes) (l : List KeyInfo)
    (dict : SystemDictionary) (fuel : Nat) (reverse : ReverseLookup) (str : Bytes) : Prop :=
  ∃ reported : List (Bytes × Token),
    (∀ (σ : Type) (callback : Callback σ), callback.Continues → ∀ s : σ,
      lookupReverse hiraganaToKatakana katakanaToHiragana dict callback fuel reverse str s
        = some (afterReports callback reported s)) ∧
    ReversesAll l str (reported.map Prod.snd)

/-- A callback that keeps what is reported. -/
def collectReports : Callback (List (Bytes × Token)) where
  onKey _ s := (.traverseContinue, s)
  onActualKey _ _ _ s := (.traverseContinue, s)
  onToken key _ token s := (.traverseContinue, s ++ [(key, token)])

theorem continues_collectReports : collectReports.Continues :=
  ⟨fun _ _ => rfl, fun _ _ _ _ => rfl, fun _ _ _ _ => rfl⟩

theorem afterReports_collectReports : ∀ reported s : List (Bytes × Token),
    afterReports collectReports reported s = s ++ reported := by
  intro reported
  induction reported with
  | nil => intro s; exact (List.append_nil s).symm
  | cons r reported ih =>
    intro s
    have hrest := ih (s ++ [r])
    rw [List.append_assoc, List.singleton_append] at hrest
    exact hrest

section

variable {hiraganaToKatakana katakanaToHiragana : Bytes → Bytes} {tokens : List Token}
  {l : List KeyInfo} {dict : SystemDictionary} {idOfValue : Bytes → Int} {byId : List KeyInfo}
  (h : Scanned hiraganaToKatakana tokens l dict idOfValue byId)
  {str : Bytes} (hspelled : Spelled str) (hf : CharacterWise katakanaToHiragana)
  (hfixed : ∀ keyInfo ∈ l, katakanaToHiragana keyInfo.key = keyInfo.key ∧
    katakanaToHiragana (hiraganaToKatakana keyInfo.key) = keyInfo.key)
  {fuel : Nat} (hfuel : tokens.length < fuel)
include h hspelled hf hfixed hfuel

/-- **THE LOOKUP IS RIGHT** exactly where every token is found once, for results that are those
    of the scan. -/
theorem reverses_iff {reverse : ReverseLookup} {cache : ReverseLookupCache}
    (hresults : reverseLookupResults dict fuel reverse
      (addKeyIdsOfAllPrefixes dict.valueTrie (encodeValue str) []) = some cache)
    (hrange : ∀ id ∈ addKeyIdsOfAllPrefixes dict.valueTrie (encodeValue str) [],
      cache.equalRange id = hits (scanResults elementOf 0 0 byId) id) :
    Reverses hiraganaToKatakana katakanaToHiragana l dict fuel reverse str
      ↔ FoundOnce katakanaToHiragana l str := by
  have hvalue := (hf.prefix_map hspelled hspelled (List.prefix_refl _)).1
  obtain ⟨keyInfos, hperm, hfirst⟩ :=
    exists_registerT13N_reports h hvalue hfuel
      (show katakanaToHiragana str = katakanaToHiragana str from rfl)
  -- the reports of both passes
  generalize hreported : keyInfos.flatMap (t13nReports katakanaToHiragana)
    ++ (addKeyIdsOfAllPrefixes dict.valueTrie (encodeValue str) []).flatMap
      (valueReports hiraganaToKatakana idOfValue byId) = reported
  have hrun : ∀ (σ : Type) (callback : Callback σ), callback.Continues → ∀ s : σ,
      lookupReverse hiraganaToKatakana katakanaToHiragana dict callback fuel reverse str s
        = some (afterReports callback reported s) := by
    intro σ callback hcallback s
    rw [lookupReverse_of_results h hfuel hresults hrange (hfirst hcallback s), afterValues_eq,
      ← hreported, afterReports, afterReports, afterReports, List.foldl_append]
  have hiff : ReversesAll l str (reported.map Prod.snd) ↔ FoundOnce katakanaToHiragana l str := by
    refine reversesAll_iff h hspelled hf hfixed ?_
    intro x
    rw [← hreported, List.map_append, List.count_append, count_firstPass h hperm,
      count_secondPass h hspelled, ← sumOver_add]
  rw [← hiff]
  constructor
  · rintro ⟨reported', hrun', hreverses⟩
    have hsame := (hrun' _ _ continues_collectReports []).symm.trans
      (hrun _ _ continues_collectReports [])
    rw [afterReports_collectReports, afterReports_collectReports] at hsame
    have hsame := Option.some.inj hsame
    rw [List.nil_append, List.nil_append] at hsame
    rw [← hsame]
    exact hreverses
  · intro hreverses
    exact ⟨reported, hrun, hreverses⟩

/-- Out of an index the lookup needs the ids of the string as well. -/
theorem reverses_index_iff {index : ReverseLookupIndex}
    (hbuilt : ReverseLookupIndex.build fuel dict.tokenArray = some index) :
    Reverses hiraganaToKatakana katakanaToHiragana l dict fuel { index := some index } str
      ↔ ReachesIds l str ∧ FoundOnce katakanaToHiragana l str := by
  obtain ⟨hsome, hnone⟩ := results_of_index h hfuel hbuilt str
  by_cases hreaches : ReachesIds l str
  · obtain ⟨cache, hresults, hrange⟩ := hsome hreaches
    rw [reverses_iff h hspelled hf hfixed hfuel hresults hrange]
    exact (and_iff_right hreaches).symm
  · refine ⟨?_, fun hc => absurd hc.1 hreaches⟩
    rintro ⟨reported, hrun, -⟩
    have hlookup := hrun _ _ continues_collectReports []
    rw [lookupReverse, Option.bind_eq_some_iff] at hlookup
    obtain ⟨s, -, hlookup⟩ := hlookup
    rw [registerReverseLookupTokensForValue, hnone hreaches] at hlookup
    cases hlookup

end

/-- **REVERSE LOOKUPS.**  Whatever tokens a dictionary is built from, for any string the lookup
    reports every token that it is to report, and none more often than the dictionary has it,
    exactly where every token is found once; out of an index it also needs the ids. -/
theorem lookupReverse_reverses_iff (hiraganaToKatakana katakanaToHiragana : Bytes → Bytes)
    (minKeyLen : Nat) (tokens : List Token) (hacceptable : ∀ token ∈ tokens, Acceptable token)
    (hfew : (storedValuesOf hiraganaToKatakana tokens).dedup.length ≤ 2 ^ 22)
    (hf : CharacterWise katakanaToHiragana)
    (hfixed : ∀ token ∈ tokens, katakanaToHiragana token.key = token.key ∧
      katakanaToHiragana (hiraganaToKatakana token.key) = token.key) :
    ∀ keyInfoList b, buildFromTokens hiraganaToKatakana minKeyLen tokens = some (keyInfoList, b) →
      (totalSize tokens < 2 ^ 28 → (openDictionaryFile b).isSome = true) ∧
      ∀ dict, openDictionaryFile b = some dict →
        ∀ (str : Bytes) (fuel : Nat), Spelled str → tokens.length < fuel →
          (∀ reverse, (reverse = {} ∨
              ∃ t, dict.populateReverseLookupCache fuel {} t = some reverse) →
            (Reverses hiraganaToKatakana katakanaToHiragana keyInfoList dict fuel reverse str
              ↔ FoundOnce katakanaToHiragana keyInfoList str)) ∧
          ∀ index, ReverseLookupIndex.build fuel dict.tokenArray = some index →
            (Reverses hiraganaToKatakana katakanaToHiragana keyInfoList dict fuel
                { index := some index } str
              ↔ ReachesIds keyInfoList str ∧ FoundOnce katakanaToHiragana keyInfoList str) := by
  intro keyInfoList b hbuild
  refine ⟨fun hsize => isSome_openDictionaryFile hacceptable hfew hsize hbuild, ?_⟩
  intro dict hopen
  obtain ⟨idOfValue, byId, hscanned⟩ := scanned_of_build hacceptable hfew hbuild hopen
  have hkeys : ∀ keyInfo ∈ keyInfoList, katakanaToHiragana keyInfo.key = keyInfo.key ∧
      katakanaToHiragana (hiraganaToKatakana keyInfo.key) = keyInfo.key := by
    intro keyInfo hkey
    obtain ⟨info, hinfo⟩ := List.exists_mem_of_ne_nil _ (hscanned.reads keyInfo hkey).1
    have htoken : info.token ∈ tokens := hscanned.infos.mem_iff.mp
      (List.mem_map_of_mem (List.mem_flatMap.mpr ⟨keyInfo, hkey, hinfo⟩))
    have hown := hfixed info.token htoken
    rw [(hscanned.key_eq keyInfo hkey info hinfo).1] at hown
    exact hown
  intro str fuel hspelled hfuel
  constructor
  · intro reverse hreverse
    have hne : ∀ id ∈ addKeyIdsOfAllPrefixes dict.valueTrie (encodeValue str) [], id ≠ -1 := by
      intro id hid
      have hpos := (prefixIds_spec hscanned str).2 id hid
      omega
    obtain ⟨t, hreverse⟩ : ∃ t, reverse = {} ∨
        dict.populateReverseLookupCache fuel {} t = some reverse := by
      rcases hreverse with hempty | ⟨t, hpopulate⟩
      · exact ⟨[], Or.inl hempty⟩
      · exact ⟨t, Or.inr hpopulate⟩
    obtain ⟨cache, hresults, hrange⟩ := exists_results_of_cache hscanned hfuel hne hreverse
    exact reverses_iff hscanned hspelled hf hkeys hfuel hresults hrange
  · intro index hbuilt
    exact reverses_index_iff hscanned hspelled hf hkeys hfuel hbuilt

/-! ## Values of hiragana and katakana -/

section

variable {hiraganaToKatakana katakanaToHiragana : Bytes → Bytes} {tokens : List Token}
  {l : List KeyInfo} {dict : SystemDictionary} {idOfValue : Bytes → Int} {byId : List KeyInfo}
  (h : Scanned hiraganaToKatakana tokens l dict idOfValue byId)
  (hsmall : (storedValuesOf hiraganaToKatakana tokens).dedup.length ≤ 0x3f0000)
include h hsmall

/-- **A STORED VALUE THAT IS THE KEY IN HIRAGANA** is found by both passes. -/
theorem not_foundOnce_of_mixed {token : Token} (hmem : token ∈ tokens)
    (hspelling : token.attributes &&& attributeSpellingCorrection = 0)
    (htype : getValueType hiraganaToKatakana token = .defaultValue)
    (hmixed : katakanaToHiragana token.value = token.key) :
    ¬ FoundOnce katakanaToHiragana l token.value := by
  intro honce
  obtain ⟨info, hinfo, rfl⟩ := List.mem_map.mp (h.infos.mem_iff.mpr hmem)
  obtain ⟨keyInfo, hkey, hinfo⟩ := List.mem_flatMap.mp hinfo
  obtain ⟨hhiragana, hkatakana⟩ := (asIs_iff h hkey hinfo).mpr htype
  have hone := honce keyInfo hkey info hinfo
    (by rw [isSpelling, decide_eq_false_iff_not, not_not]; exact hspelling)
    (List.prefix_refl _) hhiragana hkatakana
  rw [if_pos (hmixed.trans (h.key_eq keyInfo hkey info hinfo).1)] at hone
  obtain ⟨first, hfirst, hdefault, hvalue⟩ := h.first keyInfo hkey info hinfo htype
  have hpositive : 0 < scanHits l keyInfo info.token.value := by
    rw [scanHits, visitedIn_of_few h hsmall hkey, List.countP_pos_iff]
    exact ⟨first, hfirst, by rw [decide_eq_true hdefault, decide_eq_true hvalue]; rfl⟩
  omega

/-- **DIFFERENT VALUES OF A KEY**, none of which is the key in hiragana, are found once. -/
theorem foundOnce_of_nodup (hnodup : (tokens.map (fun token => (token.key, token.value))).Nodup)
    (hkanji : ∀ token ∈ tokens, getValueType hiraganaToKatakana token = .defaultValue →
      katakanaToHiragana token.value ≠ token.key) (str : Bytes) :
    FoundOnce katakanaToHiragana l str := by
  intro keyInfo hkey info hinfo _ _ hhiragana hkatakana
  have htype := (asIs_iff h hkey hinfo).mp ⟨hhiragana, hkatakana⟩
  obtain ⟨first, hfirst, hdefault, hvalue⟩ := h.first keyInfo hkey info hinfo htype
  have htoken : info.token ∈ tokens := h.infos.mem_iff.mp
    (List.mem_map_of_mem (List.mem_flatMap.mpr ⟨keyInfo, hkey, hinfo⟩))
  have hne := hkanji info.token htoken htype
  rw [(h.key_eq keyInfo hkey info hinfo).1] at hne
  -- the values of the key are different
  have hvalues : (keyInfo.tokens.map (fun info => info.token.value)).Nodup := by
    have hpairs := ((h.infos.map (fun token => (token.key, token.value))).nodup_iff).mpr hnodup
    rw [List.map_map, List.map_flatMap, List.nodup_flatMap] at hpairs
    have hown := hpairs.1 keyInfo hkey
    have hsame : keyInfo.tokens.map
        ((fun token : Token => (token.key, token.value)) ∘ TokenInfo.token)
          = (keyInfo.tokens.map (fun info => info.token.value)).map (Prod.mk keyInfo.key) := by
      rw [List.map_map]
      exact List.map_congr_left (fun info hinfo =>
        Prod.ext (h.key_eq keyInfo hkey info hinfo).1 rfl)
    rw [hsame] at hown
    exact List.Nodup.of_map _ hown
  have hcount := List.nodup_iff_count_le_one.mp hvalues info.token.value
  rw [List.count, List.countP_map] at hcount
  have hle : keyInfo.tokens.countP (fun i => decide (i.valueType = .defaultValue) &&
      decide (i.token.value = info.token.value)) ≤ 1 := by
    refine Nat.le_trans (List.countP_mono_left ?_) hcount
    intro i _ hi
    exact beq_iff_eq.mpr (of_decide_eq_true (Bool.and_eq_true _ _ ▸ hi).2)
  have hpositive : 0 < keyInfo.tokens.countP (fun i => decide (i.valueType = .defaultValue) &&
      decide (i.token.value = info.token.value)) :=
    List.countP_pos_iff.mpr
      ⟨first, hfirst, by rw [decide_eq_true hdefault, decide_eq_true hvalue]; rfl⟩
  rw [if_neg hne, scanHits, visitedIn_of_few h hsmall hkey]
  omega

end

/-- Reverse lookups in a dictionary of three tokens. -/
theorem lookupReverse_reverses_stored : ∃ built b dict,
    buildFromTokens id 0 storedTokens = some (built, b) ∧ openDictionaryFile b = some dict ∧
      ∀ str fuel, Spelled str → 3 < fuel → Reverses id id built dict fuel {} str := by
  obtain ⟨built, b, dict, hbuild, hopen⟩ :=
    exists_opened_of_few id acceptable_storedTokens (by decide) (by decide)
  have hid : CharacterWise id := ⟨id, fun _ hc => hc, fun cs _ => by rw [List.map_id]; rfl⟩
  have hiff := (lookupReverse_reverses_iff id id 0 storedTokens acceptable_storedTokens (by decide)
    hid (fun _ _ => ⟨rfl, rfl⟩) built b hbuild).2 dict hopen
  obtain ⟨_, _, hscanned⟩ :=
    scanned_of_build acceptable_storedTokens (by decide) hbuild hopen
  refine ⟨built, b, dict, hbuild, hopen, ?_⟩
  intro str fuel hspelled hfuel
  refine ((hiff str fuel hspelled hfuel).1 {} (Or.inl rfl)).mpr ?_
  exact foundOnce_of_nodup hscanned (by decide) (by decide) (by decide) str

/-- A string whose characters are mapped. -/
def mapCharacters (g : Nat → Nat) (s : Bytes) : Bytes :=
  ((chars32 s).map g).flatMap codepointToUtf8

/-- The hiragana of a katakana. -/
def toHiragana (c : Nat) : Nat := if 0x30a1 ≤ c ∧ c ≤ 0x30f6 then c - 0x60 else c

/-- The katakana of a hiragana. -/
def toKatakana (c : Nat) : Nat := if 0x3041 ≤ c ∧ c ≤ 0x3096 then c + 0x60 else c

theorem characterWise_mapCharacters {g : Nat → Nat} (hg : ∀ c, IsCode c → IsCode (g c)) :
    CharacterWise (mapCharacters g) := by
  refine ⟨g, hg, ?_⟩
  intro cs hcs
  rw [mapCharacters, chars32_flatMap (fun c hc => ?_)]
  obtain ⟨hpos, hle⟩ := hcs c hc
  exact ⟨hpos, by omega⟩

/-- A key in hiragana, with a value that is partly in katakana. -/
def mixedToken : Token :=
  { key := [0x3069, 0x3089, 0x3048, 0x3082, 0x3093].flatMap codepointToUtf8
    value := [0x30c9, 0x30e9, 0x3048, 0x3082, 0x3093].flatMap codepointToUtf8
    cost := 1, lid := 2, rid := 3, attributes := attributeNone }

theorem acceptable_mixedToken : ∀ token ∈ [mixedToken], Acceptable token := by
  intro token hmem
  rw [List.mem_singleton.mp hmem]
  exact
    { key_ne := by decide
      value_ne := by decide
      key_valid := ⟨[0x3069, 0x3089, 0x3048, 0x3082, 0x3093], by decide, by decide⟩
      value_valid := ⟨[0x30c9, 0x30e9, 0x3048, 0x3082, 0x3093], by decide, by decide⟩
      key_nul := by decide
      value_nul := by decide
      lid_le := by decide
      rid_le := by decide
      cost_nonneg := by decide
      cost_le := by decide
      key_depth := by decide
      value_depth := by decide
      attributes := Or.inl rfl }

/-- **A VALUE THAT IS PARTLY IN KATAKANA** is reported twice. -/
theorem lookupReverse_mixed :
    CharacterWise (mapCharacters toHiragana) ∧
    mapCharacters toHiragana mixedToken.key = mixedToken.key ∧
    mapCharacters toHiragana (mapCharacters toKatakana mixedToken.key) = mixedToken.key ∧
    ∃ built b dict,
      buildFromTokens (mapCharacters toKatakana) 0 [mixedToken] = some (built, b) ∧
      openDictionaryFile b = some dict ∧ ∀ fuel, 1 < fuel →
        ¬ Reverses (mapCharacters toKatakana) (mapCharacters toHiragana) built dict fuel {}
          mixedToken.value := by
  have hf : CharacterWise (mapCharacters toHiragana) := by
    refine characterWise_mapCharacters ?_
    rintro c ⟨hpos, hle⟩
    rw [toHiragana]
    split_ifs
    · exact ⟨by omega, by omega⟩
    · exact ⟨hpos, hle⟩
  have hkey : mapCharacters toHiragana mixedToken.key = mixedToken.key ∧
      mapCharacters toHiragana (mapCharacters toKatakana mixedToken.key) = mixedToken.key := by
    decide
  have hfew : (storedValuesOf (mapCharacters toKatakana) [mixedToken]).dedup.length ≤ 1 := by
    decide
  obtain ⟨built, b, dict, hbuild, hopen⟩ :=
    exists_opened_of_few (mapCharacters toKatakana) acceptable_mixedToken (by omega) (by decide)
  obtain ⟨idOfValue, byId, hscanned⟩ :=
    scanned_of_build acceptable_mixedToken (by omega) hbuild hopen
  refine ⟨hf, hkey.1, hkey.2, built, b, dict, hbuild, hopen, ?_⟩
  intro fuel hfuel hreverses
  have hspelled : Spelled mixedToken.value :=
    (acceptable_mixedToken mixedToken (List.mem_singleton.mpr rfl)).value_spelled
  have hfixed : ∀ keyInfo ∈ built,
      mapCharacters toHiragana keyInfo.key = keyInfo.key ∧
        mapCharacters toHiragana (mapCharacters toKatakana keyInfo.key) = keyInfo.key := by
    intro keyInfo hmem
    obtain ⟨info, hinfo⟩ := List.exists_mem_of_ne_nil _ (hscanned.reads keyInfo hmem).1
    have htoken := List.mem_singleton.mp (hscanned.infos.mem_iff.mp
      (List.mem_map_of_mem (List.mem_flatMap.mpr ⟨keyInfo, hmem, hinfo⟩)))
    rw [← (hscanned.key_eq keyInfo hmem info hinfo).1, htoken]
    exact hkey
  have hne : ∀ id ∈ addKeyIdsOfAllPrefixes dict.valueTrie (encodeValue mixedToken.value) [],
      id ≠ -1 := by
    intro id hid
    have hpos := (prefixIds_spec hscanned mixedToken.value).2 id hid
    omega
  obtain ⟨cache, hresults, hrange⟩ :=
    exists_results_of_cache hscanned hfuel (t := []) hne (Or.inl rfl)
  have honce := (reverses_iff hscanned hspelled hf hfixed hfuel hresults hrange).mp hreverses
  exact not_foundOnce_of_mixed hscanned (by omega) (List.mem_singleton.mpr rfl) (by decide)
    (by decide) (by decide) honce

end MozkeyDictionary
