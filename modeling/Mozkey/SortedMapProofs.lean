import Mathlib

/-! # Ordered maps — the map whose `[]` inserts a default

    An ordered association list with strictly increasing keys, the way a
    balanced-tree map iterates.  The one writer is `modify`, the idiom
    `f(m[k])`: the entry is created from a default when it is absent and then
    updated in place. -/

namespace OrderedMap

variable {κ ν : Type}

/-- Entries in strictly increasing key order. -/
structure SortedMap (κ ν : Type) [LinearOrder κ] where
  entries : List (κ × ν)
  sorted : entries.Pairwise (fun a b => a.1 < b.1)

/-- Update the entry of `k`, created from `d` when it is absent. -/
def modifyList [LinearOrder κ] (k : κ) (d : ν) (f : ν → ν) :
    List (κ × ν) → List (κ × ν)
  | [] => [(k, f d)]
  | (k', v) :: rest =>
    if k < k' then (k, f d) :: (k', v) :: rest
    else if k = k' then (k', f v) :: rest
    else (k', v) :: modifyList k d f rest

/-- The value stored at `k`. -/
def getList [LinearOrder κ] (k : κ) : List (κ × ν) → Option ν
  | [] => none
  | (k', v) :: rest => if k = k' then some v else getList k rest

variable [LinearOrder κ]

variable {k : κ} {d : ν} {f : ν → ν}

theorem mem_modifyList_key :
    ∀ (L : List (κ × ν)), ∀ e ∈ modifyList k d f L,
      e.1 = k ∨ ∃ e' ∈ L, e'.1 = e.1 := by
  intro L
  induction L with
  | nil =>
    intro e he
    rw [modifyList, List.mem_singleton] at he
    exact Or.inl (by rw [he])
  | cons hd rest ih =>
    intro e he
    obtain ⟨k', v⟩ := hd
    rw [modifyList] at he
    by_cases hlt : k < k'
    · rw [if_pos hlt] at he
      rcases List.mem_cons.mp he with heq | hmem
      · exact Or.inl (by rw [heq])
      · exact Or.inr ⟨e, hmem, rfl⟩
    · rw [if_neg hlt] at he
      by_cases heqk : k = k'
      · rw [if_pos heqk] at he
        rcases List.mem_cons.mp he with heq | hmem
        · exact Or.inl (by rw [heq, heqk])
        · exact Or.inr ⟨e, List.mem_cons_of_mem _ hmem, rfl⟩
      · rw [if_neg heqk] at he
        rcases List.mem_cons.mp he with heq | hmem
        · exact Or.inr ⟨(k', v), List.mem_cons_self, by rw [heq]⟩
        · rcases ih e hmem with h | ⟨e', he', h⟩
          · exact Or.inl h
          · exact Or.inr ⟨e', List.mem_cons_of_mem _ he', h⟩

theorem modifyList_sorted :
    ∀ (L : List (κ × ν)), L.Pairwise (fun a b => a.1 < b.1) →
      (modifyList k d f L).Pairwise (fun a b => a.1 < b.1) := by
  intro L
  induction L with
  | nil => intro _; exact List.pairwise_singleton _ _
  | cons hd rest ih =>
    intro hs
    obtain ⟨k', v⟩ := hd
    obtain ⟨hhead, htail⟩ := List.pairwise_cons.mp hs
    rw [modifyList]
    by_cases hlt : k < k'
    · rw [if_pos hlt]
      refine List.pairwise_cons.mpr ⟨?_, hs⟩
      intro e he
      rcases List.mem_cons.mp he with heq | hmem
      · rw [heq]; exact hlt
      · exact lt_trans hlt (hhead e hmem)
    · rw [if_neg hlt]
      by_cases heqk : k = k'
      · rw [if_pos heqk]
        exact List.pairwise_cons.mpr ⟨hhead, htail⟩
      · rw [if_neg heqk]
        refine List.pairwise_cons.mpr ⟨?_, ih htail⟩
        intro e he
        rcases mem_modifyList_key rest e he with h | ⟨e', he', h⟩
        · show k' < e.1
          rw [h]
          exact lt_of_le_of_ne (not_lt.mp hlt) (fun h' => heqk h'.symm)
        · show k' < e.1
          rw [← h]
          exact hhead e' he'

theorem getList_modifyList (k₀ : κ) :
    ∀ (L : List (κ × ν)), L.Pairwise (fun a b => a.1 < b.1) →
      getList k₀ (modifyList k d f L)
        = if k₀ = k then some (f ((getList k L).getD d)) else getList k₀ L := by
  intro L
  induction L with
  | nil => intro _; simp only [modifyList, getList, Option.getD_none]
  | cons hd rest ih =>
    intro hs
    obtain ⟨k', v⟩ := hd
    obtain ⟨hhead, htail⟩ := List.pairwise_cons.mp hs
    rw [modifyList]
    by_cases hlt : k < k'
    · -- `k` is smaller than every key of the list, so it is absent
      have habs : getList k ((k', v) :: rest) = none := by
        have hgone : ∀ M : List (κ × ν), (∀ e ∈ M, k < e.1) → getList k M = none := by
          intro M
          induction M with
          | nil => intro _; rfl
          | cons e M ihM =>
            intro hM
            rw [getList, if_neg (ne_of_lt (hM e List.mem_cons_self))]
            exact ihM (fun e' he' => hM e' (List.mem_cons_of_mem _ he'))
        refine hgone _ ?_
        intro e he
        rcases List.mem_cons.mp he with heq | hmem
        · rw [heq]; exact hlt
        · exact lt_trans hlt (hhead e hmem)
      rw [if_pos hlt, habs, getList]
      rfl
    · rw [if_neg hlt]
      by_cases heqk : k = k'
      · subst heqk
        rw [if_pos rfl]
        by_cases h0 : k₀ = k
        · simp only [getList, h0, if_true, Option.getD_some]
        · simp only [getList, h0, if_false]
      · rw [if_neg heqk]
        simp only [getList, if_neg heqk]
        rw [ih htail]
        by_cases h0 : k₀ = k'
        · subst h0
          rw [if_pos rfl, if_neg (fun h => heqk h.symm), if_pos rfl]
        · rw [if_neg h0, if_neg h0]

/-- A key found by lookup is the key of an entry, with that value. -/
theorem getList_eq_some_iff {v : ν} :
    ∀ (L : List (κ × ν)), L.Pairwise (fun a b => a.1 < b.1) →
      (getList k L = some v ↔ (k, v) ∈ L) := by
  intro L
  induction L with
  | nil => intro _; simp only [getList, reduceCtorEq, List.not_mem_nil]
  | cons hd rest ih =>
    intro hs
    obtain ⟨k', v'⟩ := hd
    obtain ⟨hhead, htail⟩ := List.pairwise_cons.mp hs
    rw [getList]
    by_cases heqk : k = k'
    · subst heqk
      rw [if_pos rfl]
      constructor
      · intro h
        rw [Option.some.inj h]
        exact List.mem_cons_self
      · intro h
        rcases List.mem_cons.mp h with heq | hmem
        · rw [(Prod.mk.inj heq).2]
        · exact absurd (hhead _ hmem) (lt_irrefl _)
    · rw [if_neg heqk, ih htail]
      constructor
      · exact List.mem_cons_of_mem _
      · intro h
        rcases List.mem_cons.mp h with heq | hmem
        · exact absurd (Prod.mk.inj heq).1 heqk
        · exact hmem

theorem filter_modifyList (p : κ → Bool) :
    ∀ (L : List (κ × ν)), L.Pairwise (fun a b => a.1 < b.1) →
      (modifyList k d f L).filter (fun e => p e.1)
        = if p k then modifyList k d f (L.filter (fun e => p e.1))
          else L.filter (fun e => p e.1) := by
  intro L
  induction L with
  | nil =>
    intro _
    by_cases hp : p k
    · simp only [modifyList, List.filter_cons, List.filter_nil, hp, if_true]
    · simp only [modifyList, List.filter_cons, List.filter_nil, hp, if_false,
        Bool.false_eq_true]
  | cons hd rest ih =>
    intro hs
    obtain ⟨k', v⟩ := hd
    obtain ⟨hhead, htail⟩ := List.pairwise_cons.mp hs
    -- a key below every remaining key goes to the front of any restriction
    have hfront : ∀ M : List (κ × ν), (∀ e ∈ M, k < e.1) →
        modifyList k d f M = (k, f d) :: M := by
      intro M hM
      cases M with
      | nil => rfl
      | cons e M =>
        obtain ⟨k₁, v₁⟩ := e
        rw [modifyList, if_pos (hM _ List.mem_cons_self)]
    rw [modifyList]
    by_cases hlt : k < k'
    · rw [if_pos hlt]
      have hall : ∀ e ∈ ((k', v) :: rest).filter (fun e => p e.1), k < e.1 := by
        intro e he
        rcases List.mem_cons.mp ((List.mem_filter.mp he).1) with heq | hmem
        · rw [heq]; exact hlt
        · exact lt_trans hlt (hhead e hmem)
      by_cases hp : p k
      · rw [if_pos hp, List.filter_cons, if_pos hp, hfront _ hall]
      · rw [if_neg hp, List.filter_cons, if_neg hp]
    · rw [if_neg hlt]
      by_cases heqk : k = k'
      · subst heqk
        rw [if_pos rfl]
        by_cases hp : p k
        · rw [if_pos hp, List.filter_cons, if_pos hp, List.filter_cons, if_pos hp,
            modifyList, if_neg (lt_irrefl k), if_pos rfl]
        · rw [if_neg hp, List.filter_cons, if_neg hp, List.filter_cons, if_neg hp]
      · rw [if_neg heqk]
        by_cases hp' : p k'
        · rw [List.filter_cons, if_pos hp', ih htail, List.filter_cons, if_pos hp']
          by_cases hp : p k
          · rw [if_pos hp, if_pos hp, modifyList, if_neg hlt, if_neg heqk]
          · rw [if_neg hp, if_neg hp]
        · rw [List.filter_cons, if_neg hp', ih htail, List.filter_cons, if_neg hp']

theorem getList_map {g : κ × ν → κ × ν} (hg : ∀ e, (g e).1 = e.1) (k : κ) :
    ∀ L : List (κ × ν), getList k (L.map g) = (getList k L).map fun v => (g (k, v)).2 := by
  intro L
  induction L with
  | nil => rfl
  | cons hd rest ih =>
    obtain ⟨k', v⟩ := hd
    have hcons : g (k', v) = (k', (g (k', v)).2) := Prod.ext (hg _) rfl
    rw [List.map_cons, hcons, getList, getList]
    by_cases hk : k = k'
    · rw [if_pos hk, if_pos hk, hk]
      rfl
    · rw [if_neg hk, if_neg hk, ih]

/-! ## Vectors that are searched by bisection -/

/-- `std::lower_bound`: where the first entry is whose key is not less. -/
def lowerBound (k : κ) (L : List (κ × ν)) : Nat := L.findIdx fun e => decide (k ≤ e.1)

theorem lowerBound_cons (k : κ) (e : κ × ν) (L : List (κ × ν)) :
    lowerBound k (e :: L) = if k ≤ e.1 then 0 else lowerBound k L + 1 := by
  unfold lowerBound
  rw [List.findIdx_cons]
  by_cases h : k ≤ e.1 <;> simp [h]

theorem getElem?_lowerBound : ∀ (L : List (κ × ν)), L.Pairwise (fun a b => a.1 < b.1) →
    (L[lowerBound k L]?.filter fun e => decide (e.1 = k)).map Prod.snd = getList k L := by
  intro L
  induction L with
  | nil => intro _; rfl
  | cons hd rest ih =>
    intro hs
    obtain ⟨k', v⟩ := hd
    obtain ⟨hhead, htail⟩ := List.pairwise_cons.mp hs
    rw [lowerBound_cons, getList]
    rcases lt_trichotomy k k' with hlt | heq | hgt
    · rw [if_pos (le_of_lt hlt), if_neg (ne_of_lt hlt)]
      cases hget : getList k rest with
      | none => simp [ne_of_gt hlt]
      | some w =>
        have hmem := (getList_eq_some_iff rest htail).mp hget
        exact absurd (lt_trans hlt (hhead _ hmem)) (lt_irrefl k)
    · subst heq
      simp
    · rw [if_neg (not_le_of_gt hgt), if_neg (ne_of_gt hgt), List.getElem?_cons_succ, ih htail]

/-- An entry that is inserted at the bound, or changed there, is what a write leaves. -/
theorem insertIdx_lowerBound : ∀ (L : List (κ × ν)),
    (match L[lowerBound k L]? with
      | none => L.insertIdx (lowerBound k L) (k, f d)
      | some e =>
        if e.1 ≠ k then L.insertIdx (lowerBound k L) (k, f d)
        else L.set (lowerBound k L) (e.1, f e.2)) = modifyList k d f L := by
  intro L
  induction L with
  | nil => rfl
  | cons hd rest ih =>
    obtain ⟨k', v⟩ := hd
    rw [lowerBound_cons, modifyList]
    rcases lt_trichotomy k k' with hlt | heq | hgt
    · rw [if_pos (le_of_lt hlt), if_pos hlt]
      simp [ne_of_gt hlt]
    · subst heq
      simp
    · rw [if_neg (not_le_of_gt hgt), if_neg (not_lt_of_gt hgt), if_neg (ne_of_gt hgt),
        List.getElem?_cons_succ, ← ih]
      cases rest[lowerBound k rest]? with
      | none => rfl
      | some e =>
        by_cases hne : e.1 ≠ k
        · simp [hne]
        · simp [hne]

/-! ## The map interface -/

namespace SortedMap

/-- The map with no entry. -/
def empty : SortedMap κ ν := ⟨[], List.Pairwise.nil⟩

/-- `f(m[k])`: update the entry of `k`, created from `d` when absent. -/
def modify (m : SortedMap κ ν) (k : κ) (d : ν) (f : ν → ν) : SortedMap κ ν :=
  ⟨modifyList k d f m.entries, modifyList_sorted _ m.sorted⟩

/-- The value at `k`, when there is one. -/
def get? (m : SortedMap κ ν) (k : κ) : Option ν := getList k m.entries

/-- **WRITE THEN READ**: the written key holds the updated value, every other
    key what it held before. -/
theorem get?_modify (m : SortedMap κ ν) (k : κ) (d : ν) (f : ν → ν) (k₀ : κ) :
    (m.modify k d f).get? k₀
      = if k₀ = k then some (f ((m.get? k).getD d)) else m.get? k₀ :=
  getList_modifyList k₀ m.entries m.sorted

theorem mem_entries_iff (m : SortedMap κ ν) (k : κ) (v : ν) :
    (k, v) ∈ m.entries ↔ m.get? k = some v :=
  (getList_eq_some_iff m.entries m.sorted).symm

/-- The entries whose key satisfies `p`, in order. -/
def restrict (m : SortedMap κ ν) (p : κ → Bool) : List (κ × ν) :=
  m.entries.filter (fun e => p e.1)

/-- Restricting commutes with writes: a write outside `p` is not seen, a write
    inside `p` acts on the restriction alone. -/
theorem restrict_modify (m : SortedMap κ ν) (k : κ) (d : ν) (f : ν → ν)
    (p : κ → Bool) :
    (m.modify k d f).restrict p
      = if p k then modifyList k d f (m.restrict p) else m.restrict p :=
  filter_modifyList p m.entries m.sorted

theorem ext_get? {m m' : SortedMap κ ν} (h : ∀ k, m.get? k = m'.get? k) : m = m' := by
  have hnodup : ∀ m : SortedMap κ ν, m.entries.Nodup := fun m =>
    m.sorted.imp fun hlt heq => absurd (heq ▸ hlt) (lt_irrefl _)
  have hperm : m.entries.Perm m'.entries := by
    rw [List.perm_ext_iff_of_nodup (hnodup m) (hnodup m')]
    intro e
    rw [mem_entries_iff, mem_entries_iff, h]
  have heq : m.entries = m'.entries :=
    hperm.eq_of_pairwise (fun _ _ _ _ hlt hgt => absurd hgt (lt_asymm hlt)) m.sorted m'.sorted
  cases m
  cases m'
  cases heq
  rfl

theorem modify_comm (m : SortedMap κ ν) (k k' : κ) (d : ν) {f g : ν → ν}
    (h : ∀ v, f (g v) = g (f v)) :
    (m.modify k d f).modify k' d g = (m.modify k' d g).modify k d f := by
  refine ext_get? fun k₀ => ?_
  simp only [get?_modify]
  by_cases hkeys : k = k'
  · subst hkeys
    simp only [↓reduceIte, Option.getD_some, h]
    split_ifs <;> rfl
  · simp only [if_neg hkeys, if_neg (Ne.symm hkeys)]
    split_ifs with hk' hk
    · exact absurd (hk.symm.trans hk') hkeys
    all_goals rfl

/-! ## Counting -/

theorem sum_modifyList : ∀ L : List (κ × Nat),
    ((modifyList k 0 (· + 1) L).map Prod.snd).sum = (L.map Prod.snd).sum + 1 := by
  intro L
  induction L with
  | nil => rfl
  | cons e rest ih =>
    obtain ⟨k', v⟩ := e
    rw [modifyList]
    by_cases hlt : k < k'
    · rw [if_pos hlt, List.map_cons, List.sum_cons, Nat.zero_add, Nat.add_comm]
    · rw [if_neg hlt]
      by_cases heq : k = k'
      · rw [if_pos heq, List.map_cons, List.sum_cons, List.map_cons, List.sum_cons]
        omega
      · rw [if_neg heq, List.map_cons, List.sum_cons, ih, List.map_cons, List.sum_cons]
        omega

/-- `m[k]++` for every key. -/
def countKeys (keys : List κ) : SortedMap κ Nat :=
  keys.foldl (fun m k => m.modify k 0 (· + 1)) empty

theorem sum_restrict_foldl (p : κ → Bool) : ∀ (keys : List κ) (m : SortedMap κ Nat),
    (((keys.foldl (fun m k => m.modify k 0 (· + 1)) m).restrict p).map Prod.snd).sum
      = ((m.restrict p).map Prod.snd).sum + keys.countP p := by
  intro keys
  induction keys with
  | nil => intro m; rfl
  | cons k keys ih =>
    intro m
    rw [List.foldl_cons, ih, restrict_modify, List.countP_cons]
    by_cases hp : p k = true
    · rw [if_pos hp, if_pos hp, sum_modifyList]
      omega
    · rw [if_neg hp, if_neg hp]
      omega

/-- **THE COUNTS ADD UP** to the number of the keys of a kind. -/
theorem sum_restrict_countKeys (p : κ → Bool) (keys : List κ) :
    (((countKeys keys).restrict p).map Prod.snd).sum = keys.countP p := by
  rw [countKeys, sum_restrict_foldl]
  exact Nat.zero_add _

theorem get?_foldl_count : ∀ (keys : List κ) (m : SortedMap κ Nat) (k : κ) (n : Nat),
    (keys.foldl (fun m k => m.modify k 0 (· + 1)) m).get? k = some n →
    k ∈ keys ∨ m.get? k = some n := by
  intro keys
  induction keys with
  | nil => intro m k n h; exact Or.inr h
  | cons k' keys ih =>
    intro m k n h
    rcases ih _ k n h with hmem | hget
    · exact Or.inl (List.mem_cons_of_mem _ hmem)
    · rw [get?_modify] at hget
      by_cases heq : k = k'
      · exact Or.inl (heq ▸ List.mem_cons_self)
      · rw [if_neg heq] at hget
        exact Or.inr hget

theorem mem_of_mem_countKeys {keys : List κ} {e : κ × Nat} (h : e ∈ (countKeys keys).entries) :
    e.1 ∈ keys := by
  rcases get?_foldl_count keys empty e.1 e.2 (((countKeys keys).mem_entries_iff _ _).mp h)
    with hmem | hget
  · exact hmem
  · exact nomatch hget

theorem le_of_mem_countKeys {keys : List κ} {e : κ × Nat} (h : e ∈ (countKeys keys).entries) :
    e.2 ≤ keys.length := by
  have hsum := sum_restrict_countKeys (fun _ => true) keys
  rw [restrict, List.filter_true, List.countP_true] at hsum
  rw [← hsum]
  exact List.le_sum_of_mem (List.mem_map_of_mem h)

end SortedMap

end OrderedMap
