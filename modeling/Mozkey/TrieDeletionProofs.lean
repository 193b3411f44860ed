import Mozkey.CharTrieProofs

/-! # Trie — deletion, the longest match and the predictive look-up

    `DeleteEntry` erases a subtrie whose own deletion says so, and it says so when no subtrie
    is left below it: it does not ask whether the node holds a value.  So the deletion of `ab`
    also deletes an `a` that has no other extension, and the deletion of the empty key keeps
    its value where the trie has no subtrie. -/

namespace CharTrie

variable {α : Type}

/-! ## The operations -/

/-- `trie_.erase(c)`. -/
def eraseSubTrie (c : Nat) (subTries : List (Nat × Trie α)) : List (Nat × Trie α) :=
  subTries.filter (fun sub => sub.1 != c)

/-- `Trie::DeleteEntry`: what it returns, and the trie it leaves. -/
def deleteEntry : List Nat → Trie α → Bool × Trie α
  | [], .node data subTries =>
    if subTries.isEmpty then (true, .node data subTries) else (false, .node none subTries)
  | c :: key, .node data subTries =>
    match subTries.lookup c with
    | none => (false, .node data subTries)
    | some t =>
      let deleted := deleteEntry key t
      if deleted.1 then
        ((eraseSubTrie c subTries).isEmpty, .node data (eraseSubTrie c subTries))
      else (false, .node data (setSubTrie c deleted.2 subTries))

/-- `Trie::LongestMatch`: `*data` where it returns true, and `*key_length`. -/
def longestMatch : List Letter → Trie α → Option α × Nat
  | [], .node data _ => (data, 0)
  | (c, firstCharLen) :: key, .node data subTries =>
    match subTries.lookup c with
    | none => (data, 0)
    | some t =>
      let found := longestMatch key t
      if found.1.isSome then (found.1, found.2 + firstCharLen) else (data, found.2)

mutual

/-- `Trie::LookUpPredictiveAll` of the empty key. -/
def allData : Trie α → List α
  | .node data subTries => data.toList ++ allSubData subTries

/-- The loop of `Trie::LookUpPredictiveAll` over the subtries. -/
def allSubData : List (Nat × Trie α) → List α
  | [] => []
  | (_, t) :: subTries => allData t ++ allSubData subTries

end

/-- `Trie::LookUpPredictiveAll`. -/
def lookUpPredictiveAll : List Nat → Trie α → List α
  | [], t => allData t
  | c :: key, .node _ subTries =>
    match subTries.lookup c with
    | none => []
    | some t => lookUpPredictiveAll key t

/-! ## Well-formed tries -/

/-- The node holds a value or has a subtrie. -/
def Trie.Occupied : Trie α → Prop
  | .node data subTries => data.isSome = true ∨ subTries ≠ []

/-- A character has one subtrie at most, and no subtrie is bare. -/
inductive WF : Trie α → Prop where
  | node {data : Option α} {subTries : List (Nat × Trie α)}
      (hnodup : (subTries.map Prod.fst).Nodup)
      (hoccupied : ∀ sub ∈ subTries, sub.2.Occupied)
      (hsub : ∀ sub ∈ subTries, WF sub.2) : WF (.node data subTries)

theorem wf_empty : WF (Trie.empty : Trie α) :=
  .node List.nodup_nil (fun _ hmem => absurd hmem List.not_mem_nil)
    (fun _ hmem => absurd hmem List.not_mem_nil)

variable {subTries : List (Nat × Trie α)} {c : Nat} {t : Trie α}

theorem lookup_eq_some_iff (hnodup : (subTries.map Prod.fst).Nodup) :
    subTries.lookup c = some t ↔ (c, t) ∈ subTries := by
  induction subTries with
  | nil => simp
  | cons sub subTries ih =>
    obtain ⟨c', t'⟩ := sub
    rw [List.map_cons, List.nodup_cons] at hnodup
    obtain ⟨hfresh, hnodup⟩ := hnodup
    rw [List.lookup_cons, List.mem_cons, Prod.mk.injEq]
    by_cases hc : c = c'
    · subst hc
      have hnot : (c, t) ∉ subTries := fun hmem => hfresh (List.mem_map.mpr ⟨_, hmem, rfl⟩)
      simp [hnot, eq_comm]
    · simp [beq_false_of_ne hc, hc, ih hnodup]

theorem mem_setSubTrie {sub : Nat × Trie α} (hsub : sub ∈ setSubTrie c t subTries) :
    sub = (c, t) ∨ sub ∈ subTries := by
  induction subTries with
  | nil => exact .inl (List.mem_singleton.mp hsub)
  | cons head subTries ih =>
    obtain ⟨c', t'⟩ := head
    rw [setSubTrie] at hsub
    split_ifs at hsub with hc
    · rcases List.mem_cons.mp hsub with rfl | hsub
      · exact .inl rfl
      · exact .inr (List.mem_cons_of_mem _ hsub)
    · rcases List.mem_cons.mp hsub with rfl | hsub
      · exact .inr List.mem_cons_self
      · exact (ih hsub).imp_right (List.mem_cons_of_mem _)

theorem setSubTrie_ne_nil (c : Nat) (t : Trie α) (subTries : List (Nat × Trie α)) :
    setSubTrie c t subTries ≠ [] := by
  cases subTries with
  | nil => exact List.cons_ne_nil _ _
  | cons head subTries =>
    rw [setSubTrie]
    split_ifs
    · exact List.cons_ne_nil _ _
    · exact List.cons_ne_nil _ _

theorem nodup_setSubTrie (c : Nat) (t : Trie α) (hnodup : (subTries.map Prod.fst).Nodup) :
    ((setSubTrie c t subTries).map Prod.fst).Nodup := by
  induction subTries with
  | nil => exact List.nodup_singleton _
  | cons head subTries ih =>
    obtain ⟨c', t'⟩ := head
    rw [List.map_cons, List.nodup_cons] at hnodup
    rw [setSubTrie]
    split_ifs with hc
    · subst hc
      exact List.nodup_cons.mpr hnodup
    · refine List.nodup_cons.mpr ⟨fun hmem => ?_, ih hnodup.2⟩
      obtain ⟨sub, hsub, hfst⟩ := List.mem_map.mp hmem
      rcases mem_setSubTrie hsub with rfl | hsub
      · exact hc hfst
      · exact hnodup.1 (List.mem_map.mpr ⟨sub, hsub, hfst⟩)

variable {data : Option α}

/-- A node stays well formed when one of its subtries is set to a well-formed one. -/
theorem wf_setSubTrie {data' : Option α} (h : WF (.node data subTries)) (c : Nat) (ht : WF t)
    (hoccupied : t.Occupied) :
    WF (.node data' (setSubTrie c t subTries)) := by
  obtain ⟨hnodup, hocc, hsub⟩ := h
  refine .node (nodup_setSubTrie c t hnodup) (fun sub hmem => ?_) (fun sub hmem => ?_)
  · rcases mem_setSubTrie hmem with rfl | hmem
    · exact hoccupied
    · exact hocc sub hmem
  · rcases mem_setSubTrie hmem with rfl | hmem
    · exact ht
    · exact hsub sub hmem

theorem wf_lookup (h : WF (.node data subTries)) (ht : subTries.lookup c = some t) :
    WF t ∧ t.Occupied := by
  obtain ⟨hnodup, hocc, hsub⟩ := h
  have hmem := (lookup_eq_some_iff hnodup).mp ht
  exact ⟨hsub _ hmem, hocc _ hmem⟩

/-- An entry keeps the trie well formed, and its node is not bare. -/
theorem wf_addEntry (key : List Nat) (d : α) (h : WF t) :
    WF (addEntry key d t) ∧ (addEntry key d t).Occupied := by
  induction key generalizing t with
  | nil =>
    obtain ⟨hnodup, hocc, hsub⟩ := h
    exact ⟨.node hnodup hocc hsub, .inl rfl⟩
  | cons c key ih =>
    obtain ⟨data, subTries⟩ := t
    have hsub : WF ((subTries.lookup c).getD .empty) := by
      cases ht : subTries.lookup c with
      | none => exact wf_empty
      | some t => exact (wf_lookup h ht).1
    obtain ⟨hwf, hoccupied⟩ := ih hsub
    exact ⟨wf_setSubTrie h c hwf hoccupied, .inr (setSubTrie_ne_nil c _ subTries)⟩

theorem exists_lookUp (h : WF t) (hoccupied : t.Occupied) :
    ∃ key, (lookUp key t).isSome = true := by
  induction h with
  | @node data subTries hnodup hocc hsub ih =>
    rcases hoccupied with hdata | hne
    · exact ⟨[], hdata⟩
    · obtain ⟨sub, hmem⟩ := List.exists_mem_of_ne_nil _ hne
      obtain ⟨key, hkey⟩ := ih sub hmem (hocc sub hmem)
      refine ⟨sub.1 :: key, ?_⟩
      rw [lookUp, (lookup_eq_some_iff hnodup).mpr hmem]
      exact hkey

/-! ## Deletion -/

theorem lookup_eraseSubTrie (c c' : Nat) (subTries : List (Nat × Trie α)) :
    (eraseSubTrie c subTries).lookup c' = if c' = c then none else subTries.lookup c' := by
  induction subTries with
  | nil => simp [eraseSubTrie]
  | cons sub subTries ih =>
    obtain ⟨c'', t⟩ := sub
    rw [eraseSubTrie] at ih
    rw [eraseSubTrie, List.filter_cons]
    by_cases hc : c'' = c
    · subst hc
      rw [if_neg (by simp), ih, List.lookup_cons]
      by_cases heq : c' = c''
      · rw [if_pos heq, if_pos heq]
      · rw [if_neg heq, if_neg heq, beq_false_of_ne heq]
    · rw [if_pos (by simpa using hc), List.lookup_cons, List.lookup_cons, ih]
      by_cases heq : c' = c''
      · subst heq
        simp [hc]
      · rw [beq_false_of_ne heq]

theorem mem_eraseSubTrie {sub : Nat × Trie α} :
    sub ∈ eraseSubTrie c subTries ↔ sub ∈ subTries ∧ sub.1 ≠ c := by
  rw [eraseSubTrie, List.mem_filter, bne_iff_ne]

theorem wf_eraseSubTrie (h : WF (.node data subTries)) (c : Nat) :
    WF (.node data (eraseSubTrie c subTries)) := by
  obtain ⟨hnodup, hocc, hsub⟩ := h
  refine .node (hnodup.sublist (List.filter_sublist.map _)) (fun sub hmem => ?_)
    (fun sub hmem => ?_)
  · exact hocc sub (mem_eraseSubTrie.mp hmem).1
  · exact hsub sub (mem_eraseSubTrie.mp hmem).1

/-- A deletion keeps the trie well formed, and what it does not erase is not bare. -/
theorem wf_deleteEntry (key : List Nat) (h : WF t) :
    WF (deleteEntry key t).2 ∧
      ((deleteEntry key t).1 = false → t.Occupied → (deleteEntry key t).2.Occupied) := by
  induction key generalizing t with
  | nil =>
    obtain ⟨data, subTries⟩ := t
    rw [deleteEntry]
    split_ifs with hempty
    · exact ⟨h, fun hfalse => absurd hfalse (by simp)⟩
    · obtain ⟨hnodup, hocc, hsub⟩ := h
      exact ⟨.node hnodup hocc hsub, fun _ _ => .inr (by simpa using hempty)⟩
  | cons c key ih =>
    obtain ⟨data, subTries⟩ := t
    rw [deleteEntry]
    cases ht : subTries.lookup c with
    | none => exact ⟨h, fun _ hocc => hocc⟩
    | some t =>
      obtain ⟨hwf, hoccupied⟩ := wf_lookup h ht
      obtain ⟨hwf', hoccupied'⟩ := ih hwf
      dsimp only
      split_ifs with hdeleted
      · exact ⟨wf_eraseSubTrie h c, fun hfalse _ => .inr (by simpa using hfalse)⟩
      · exact ⟨wf_setSubTrie h c hwf' (hoccupied' (by simpa using hdeleted) hoccupied),
          fun _ _ => .inr (setSubTrie_ne_nil c _ subTries)⟩

/-- `DeleteEntry` of `key` sweeps the node at `front`: the key is stored there, and nothing
    beside it but prefixes of it. -/
def Swept (key : List Nat) (t : Trie α) (front : List Nat) : Prop :=
  front <+: key ∧ (lookUp key t).isSome = true ∧
    ∀ q, (lookUp q t).isSome = true → front <+: q → q <+: key

theorem swept_cons_iff {c : Nat} {key front : List Nat} {data : Option α}
    {subTries : List (Nat × Trie α)} {t : Trie α} (ht : subTries.lookup c = some t) :
    Swept (c :: key) (.node data subTries) (c :: front) ↔ Swept key t front := by
  simp only [Swept, List.cons_prefix_cons, true_and]
  rw [lookUp, ht]
  refine and_congr_right fun _ => and_congr_right fun _ => ⟨fun h q hq hfront => ?_, fun h q => ?_⟩
  · have hcons := h (c :: q) (by rw [lookUp, ht]; exact hq)
    rw [List.cons_prefix_cons, List.cons_prefix_cons] at hcons
    exact (hcons ⟨rfl, hfront⟩).2
  · intro hq hfront
    cases q with
    | nil => exact List.nil_prefix
    | cons c' q =>
      obtain ⟨rfl, htail⟩ := List.cons_prefix_cons.mp hfront
      rw [lookUp, ht] at hq
      exact List.cons_prefix_cons.mpr ⟨rfl, h q hq htail⟩

/-- **A NODE IS ERASED** where it is swept. -/
theorem deleteEntry_true_iff (key : List Nat) (h : WF t) (hoccupied : t.Occupied) :
    (deleteEntry key t).1 = true ↔ Swept key t [] := by
  induction key generalizing t with
  | nil =>
    obtain ⟨data, subTries⟩ := t
    rw [deleteEntry]
    constructor
    · intro hdeleted
      split_ifs at hdeleted with hempty
      rw [List.isEmpty_iff] at hempty
      subst hempty
      refine ⟨List.prefix_rfl, hoccupied.resolve_right (not_not_intro rfl), fun q hq _ => ?_⟩
      cases q with
      | nil => exact List.prefix_rfl
      | cons c q => exact absurd hq (by simp [lookUp])
    · rintro ⟨-, -, hall⟩
      rw [if_pos]
      -- A subtrie would store a key that is no prefix of the empty one.
      by_contra hne
      obtain ⟨sub, hmem⟩ := List.exists_mem_of_ne_nil _ (by simpa using hne)
      obtain ⟨hnodup, hocc, hsub⟩ := h
      obtain ⟨q, hq⟩ := exists_lookUp (hsub sub hmem) (hocc sub hmem)
      have hstarts := hall (sub.1 :: q)
        (by rw [lookUp, (lookup_eq_some_iff hnodup).mpr hmem]; exact hq) List.nil_prefix
      exact absurd (List.prefix_nil.mp hstarts) (List.cons_ne_nil _ _)
  | cons c key ih =>
    obtain ⟨data, subTries⟩ := t
    rw [deleteEntry]
    cases ht : subTries.lookup c with
    | none =>
      refine iff_of_false Bool.false_ne_true fun hswept => ?_
      have hstored := hswept.2.1
      rw [lookUp, ht] at hstored
      exact absurd hstored Bool.false_ne_true
    | some t =>
      obtain ⟨hwf, hocc⟩ := wf_lookup h ht
      have hsub := (ih hwf hocc).trans (@swept_cons_iff _ c key [] data subTries t ht).symm
      dsimp only
      constructor
      · intro hdeleted
        split_ifs at hdeleted with hsubdel
        obtain ⟨-, hstored, hall⟩ := hsub.mp hsubdel
        refine ⟨List.nil_prefix, hstored, fun q hq _ => ?_⟩
        cases q with
        | nil => exact List.nil_prefix
        | cons c' q =>
          by_cases hc : c' = c
          · subst hc
            exact hall _ hq (List.cons_prefix_cons.mpr ⟨rfl, List.nil_prefix⟩)
          · -- No character but `c` has a subtrie.
            have hnone := lookup_eraseSubTrie c c' subTries
            rw [if_neg hc, List.isEmpty_iff.mp hdeleted] at hnone
            rw [lookUp, ← hnone] at hq
            exact absurd hq (by simp)
      · rintro ⟨-, hstored, hall⟩
        rw [if_pos (hsub.mpr ⟨List.cons_prefix_cons.mpr ⟨rfl, List.nil_prefix⟩, hstored,
          fun q hq _ => hall q hq List.nil_prefix⟩)]
        dsimp only
        rw [List.isEmpty_iff, List.eq_nil_iff_forall_not_mem]
        intro sub hmem
        obtain ⟨hmem, hne⟩ := mem_eraseSubTrie.mp hmem
        obtain ⟨hnodup, hocc, hsub⟩ := h
        obtain ⟨q, hq⟩ := exists_lookUp (hsub sub hmem) (hocc sub hmem)
        have hstarts := hall (sub.1 :: q)
          (by rw [lookUp, (lookup_eq_some_iff hnodup).mpr hmem]; exact hq) List.nil_prefix
        exact hne (List.cons_prefix_cons.mp hstarts).1

/-- What `q` finds in `t'`, where the deletion of `key` has left `t'` of `t`. -/
def Deleted (key : List Nat) (t t' : Trie α) (q : List Nat) : Prop :=
  (q = key ∨ Swept key t q → lookUp q t' = none) ∧
    (q ≠ key → ¬ Swept key t q → lookUp q t' = lookUp q t)

/-- Below the root a key finds what the deletion in its subtrie leaves. -/
theorem deleted_cons {key : List Nat} (h : WF (.node data subTries))
    (hkept : ∀ t : Trie α, WF t → t.Occupied → (deleteEntry key t).1 = false →
      ∀ q, Deleted key t (deleteEntry key t).2 q) (c' : Nat) (q : List Nat) :
    Deleted (c :: key) (.node data subTries) (deleteEntry (c :: key) (.node data subTries)).2
      (c' :: q) := by
  rw [deleteEntry]
  by_cases hc : c' = c
  · subst hc
    cases ht : subTries.lookup c' with
    | none =>
      refine ⟨fun _ => ?_, fun _ _ => rfl⟩
      dsimp only
      rw [lookUp, ht]
    | some t =>
      obtain ⟨hwf, hoccupied⟩ := wf_lookup h ht
      have hswept : ∀ q, Swept (c' :: key) (.node data subTries) (c' :: q) ↔ Swept key t q :=
        fun q => swept_cons_iff ht
      rw [Deleted, hswept, List.cons.injEq]
      simp only [ne_eq, List.cons.injEq, true_and]
      cases hdeleted : (deleteEntry key t).1 with
      | true =>
        -- The subtrie is erased: what was stored in it has been swept.
        obtain ⟨-, hstored, hall⟩ := (deleteEntry_true_iff key hwf hoccupied).mp hdeleted
        simp only [if_true, lookUp, lookup_eraseSubTrie, ht]
        refine ⟨fun _ => trivial, fun _ hnot => ?_⟩
        cases hq : lookUp q t with
        | none => rfl
        | some d =>
          have hstarts := hall q (by rw [hq]; rfl) List.nil_prefix
          exact absurd ⟨hstarts, hstored, fun q' hq' _ => hall q' hq' List.nil_prefix⟩ hnot
      | false =>
        simp only [Bool.false_eq_true, if_false, lookUp, lookup_setSubTrie, if_true, ht]
        exact hkept t hwf hoccupied hdeleted q
  · have hne : c' :: q ≠ c :: key := fun heq => hc (List.cons.inj heq).1
    have hnot : ¬ Swept (c :: key) (.node data subTries) (c' :: q) :=
      fun hswept => hc (List.cons_prefix_cons.mp hswept.1).1
    refine ⟨fun hor => absurd hor (not_or.mpr ⟨hne, hnot⟩), fun _ _ => ?_⟩
    cases subTries.lookup c with
    | none => rfl
    | some t =>
      dsimp only
      split_ifs
      · rw [lookUp, lookUp, lookup_eraseSubTrie, if_neg hc]
      · rw [lookUp, lookUp, lookup_setSubTrie, if_neg hc]

/-- The root keeps its value where a key that is not empty is deleted. -/
theorem lookUp_nil_deleteEntry (c : Nat) (key : List Nat) (t : Trie α) :
    lookUp [] (deleteEntry (c :: key) t).2 = lookUp [] t := by
  obtain ⟨data, subTries⟩ := t
  rw [deleteEntry]
  cases subTries.lookup c with
  | none => rfl
  | some t =>
    dsimp only
    split_ifs
    · rfl
    · rfl

theorem deleted_of_kept (key : List Nat) : ∀ t : Trie α, WF t → t.Occupied →
    (deleteEntry key t).1 = false → ∀ q, Deleted key t (deleteEntry key t).2 q := by
  induction key with
  | nil =>
    intro t hwf hoccupied hkept q
    obtain ⟨data, subTries⟩ := t
    rw [deleteEntry] at hkept ⊢
    split_ifs at hkept ⊢ with hempty
    refine ⟨fun hor => ?_, fun hne _ => ?_⟩
    · obtain rfl : q = [] := hor.elim id fun hswept => List.prefix_nil.mp hswept.1
      rfl
    · cases q with
      | nil => exact absurd rfl hne
      | cons c q => rfl
  | cons c key ih =>
    intro t hwf hoccupied hkept q
    cases q with
    | nil =>
      -- The node is kept, so it is not swept.
      have hnot : ¬ Swept (c :: key) t [] := fun hswept => by
        rw [(deleteEntry_true_iff (c :: key) hwf hoccupied).mpr hswept] at hkept
        exact Bool.noConfusion hkept
      exact ⟨fun hor => absurd hor (not_or.mpr ⟨(List.cons_ne_nil _ _).symm, hnot⟩),
        fun _ _ => lookUp_nil_deleteEntry c key t⟩
    | cons c' q =>
      obtain ⟨data, subTries⟩ := t
      exact deleted_cons hwf ih c' q

/-- **WHAT A DELETION LEAVES**: below the root, a key is lost if it is the one deleted or if
    its node is swept, and finds what it did else. -/
theorem lookUp_deleteEntry (c : Nat) (key : List Nat) (h : WF t) {q : List Nat} (hq : q ≠ []) :
    Deleted (c :: key) t (deleteEntry (c :: key) t).2 q := by
  obtain ⟨c', q, rfl⟩ := List.exists_cons_of_ne_nil hq
  obtain ⟨data, subTries⟩ := t
  exact deleted_cons h (deleted_of_kept key) c' q

/-- The deletion of a key spares what it should: the empty key is not the only stored one, and
    no other stored key but the empty one is swept. -/
def Spared (key : List Nat) (t : Trie α) : Prop :=
  (key = [] → ¬ ((lookUp [] t).isSome = true ∧ ∀ q, (lookUp q t).isSome = true → q = [])) ∧
    (key ≠ [] → ∀ q, q ≠ [] → q ≠ key → (lookUp q t).isSome = true → ¬ Swept key t q)

/-- **A DELETION IS THAT OF A MAP** if and only if it spares the other keys. -/
theorem deleteEntry_map_iff (key : List Nat) (h : WF t) :
    (∀ q, lookUp q (deleteEntry key t).2 = if q = key then none else lookUp q t) ↔
      Spared key t := by
  cases key with
  | nil =>
    obtain ⟨data, subTries⟩ := t
    rw [Spared, deleteEntry]
    simp only [true_implies, ne_eq, not_true_eq_false, false_implies, and_true]
    by_cases hempty : subTries = []
    · subst hempty
      have honly : ∀ q, (lookUp q (Trie.node data [])).isSome = true → q = [] := by
        intro q hq
        cases q with
        | nil => rfl
        | cons c q => exact absurd hq (by simp [lookUp])
      rw [List.isEmpty_nil, if_pos rfl]
      constructor
      · rintro hmap ⟨hdata, -⟩
        rw [hmap [], if_pos rfl] at hdata
        exact absurd hdata Bool.false_ne_true
      · intro hnot q
        split_ifs with hq
        · subst hq
          exact Option.not_isSome_iff_eq_none.mp fun hdata => hnot ⟨hdata, honly⟩
        · rfl
    · rw [if_neg (by simpa using hempty)]
      refine iff_of_true (fun q => ?_) fun honly => ?_
      · cases q with
        | nil => rfl
        | cons c q => rw [if_neg (List.cons_ne_nil _ _)]; rfl
      · obtain ⟨sub, hmem⟩ := List.exists_mem_of_ne_nil _ hempty
        obtain ⟨hnodup, hocc, hsub⟩ := h
        obtain ⟨q, hq⟩ := exists_lookUp (hsub sub hmem) (hocc sub hmem)
        exact List.cons_ne_nil _ _ (honly.2 (sub.1 :: q)
          (by rw [lookUp, (lookup_eq_some_iff hnodup).mpr hmem]; exact hq))
  | cons c key =>
    constructor
    · refine fun hmap => ⟨fun heq => absurd heq (List.cons_ne_nil _ _), ?_⟩
      intro _ q hq hne hstored hswept
      have hnone := (lookUp_deleteEntry c key h hq).1 (.inr hswept)
      rw [hmap q, if_neg hne] at hnone
      rw [hnone] at hstored
      exact Bool.false_ne_true hstored
    · rintro ⟨-, hspared⟩ q
      by_cases hq : q = []
      · subst hq
        rw [lookUp_nil_deleteEntry, if_neg (List.cons_ne_nil _ _).symm]
      · have hdeleted := lookUp_deleteEntry c key h hq
        split_ifs with heq
        · exact hdeleted.1 (.inl heq)
        · by_cases hswept : Swept (c :: key) t q
          · rw [hdeleted.1 (.inr hswept)]
            exact (Option.not_isSome_iff_eq_none.mp fun hstored =>
              hspared (List.cons_ne_nil _ _) q hq heq hstored hswept).symm
          · exact hdeleted.2 heq hswept

/-! ## The longest match -/

/-- `found` is the value of the longest stored prefix of `key` with the size of it, and nothing
    where no prefix is stored. -/
def IsLongest (key : List Letter) (t : Trie α) (found : Option α × Nat) : Prop :=
  (found.1 = none →
    found.2 = 0 ∧ ∀ front, front <+: key → lookUp (front.map Prod.fst) t = none) ∧
  (∀ d, found.1 = some d → ∃ front, front <+: key ∧ found.2 = size front ∧
    lookUp (front.map Prod.fst) t = some d ∧
    ∀ front', front' <+: key → (lookUp (front'.map Prod.fst) t).isSome = true →
      front'.length ≤ front.length)

theorem isLongest_root {key : List Letter} (hcons : ∀ front, front <+: key → front ≠ [] →
      lookUp (front.map Prod.fst) (.node data subTries) = none) :
    IsLongest key (.node data subTries) (data, 0) := by
  refine ⟨fun hnone => ⟨rfl, fun front hfront => ?_⟩, fun d hd => ?_⟩
  · by_cases hne : front = []
    · rw [hne]
      exact hnone
    · exact hcons front hfront hne
  · refine ⟨[], List.nil_prefix, rfl, hd, fun front' hfront' hstored => ?_⟩
    by_cases hne : front' = []
    · rw [hne]
    · rw [hcons front' hfront' hne] at hstored
      exact absurd hstored Bool.false_ne_true

/-- **THE LONGEST MATCH** is the longest stored prefix, if any is stored. -/
theorem longestMatch_spec (key : List Letter) (t : Trie α) :
    IsLongest key t (longestMatch key t) := by
  induction key generalizing t with
  | nil =>
    obtain ⟨data, subTries⟩ := t
    exact isLongest_root fun front hfront hne => absurd (List.prefix_nil.mp hfront) hne
  | cons letter key ih =>
    obtain ⟨c, len⟩ := letter
    obtain ⟨data, subTries⟩ := t
    rw [longestMatch]
    cases ht : subTries.lookup c with
    | none =>
      refine isLongest_root fun front hfront hne => ?_
      obtain ⟨letter, front, rfl⟩ := List.exists_cons_of_ne_nil hne
      rw [List.map_cons, (List.cons_prefix_cons.mp hfront).1, lookUp, ht]
    | some t =>
      obtain ⟨ihnone, ihsome⟩ := ih t
      dsimp only
      cases hfound : (longestMatch key t).1 with
      | none =>
        obtain ⟨hzero, hall⟩ := ihnone hfound
        rw [Option.isSome_none, if_neg Bool.false_ne_true, hzero]
        refine isLongest_root fun front hfront hne => ?_
        obtain ⟨letter, front, rfl⟩ := List.exists_cons_of_ne_nil hne
        obtain ⟨rfl, htail⟩ := List.cons_prefix_cons.mp hfront
        rw [List.map_cons, lookUp, ht]
        exact hall front htail
      | some found =>
        obtain ⟨front, hfront, hsize, hdata, hmax⟩ := ihsome found hfound
        rw [Option.isSome_some, if_pos rfl]
        refine ⟨fun hnone => absurd hnone (by simp), fun d hd => ?_⟩
        refine ⟨(c, len) :: front, List.cons_prefix_cons.mpr ⟨rfl, hfront⟩, ?_, ?_, ?_⟩
        · simp only [hsize, size, List.map_cons, List.sum_cons]
          exact Nat.add_comm _ _
        · rw [List.map_cons, lookUp, ht, ← hd]
          exact hdata
        · intro front' hfront' hstored
          cases front' with
          | nil => exact Nat.zero_le _
          | cons letter front' =>
            obtain ⟨rfl, htail⟩ := List.cons_prefix_cons.mp hfront'
            rw [List.map_cons, lookUp, ht] at hstored
            exact Nat.succ_le_succ (hmax front' htail hstored)

/-! ## The predictive look-up -/

mutual

/-- The stored keys of a trie with their values, in the order of `LookUpPredictiveAll`. -/
def entries : Trie α → List (List Nat × α)
  | .node data subTries => data.toList.map (fun d => ([], d)) ++ subEntries subTries

/-- The stored keys of subtries. -/
def subEntries : List (Nat × Trie α) → List (List Nat × α)
  | [] => []
  | (c, t) :: subTries =>
    (entries t).map (fun entry => (c :: entry.1, entry.2)) ++ subEntries subTries

end

theorem subEntries_eq (subTries : List (Nat × Trie α)) :
    subEntries subTries = subTries.flatMap fun sub =>
      (entries sub.2).map (fun entry => (sub.1 :: entry.1, entry.2)) := by
  induction subTries with
  | nil => rfl
  | cons sub subTries ih => rw [subEntries, ih, List.flatMap_cons]

theorem allSubData_eq (subTries : List (Nat × Trie α)) :
    allSubData subTries = subTries.flatMap fun sub => allData sub.2 := by
  induction subTries with
  | nil => rfl
  | cons sub subTries ih => rw [allSubData, ih, List.flatMap_cons]

theorem allData_eq (h : WF t) : allData t = (entries t).map Prod.snd := by
  induction h with
  | @node data subTries _ _ _ ih =>
    rw [allData, entries, allSubData_eq, subEntries_eq, List.map_append, List.map_map,
      List.map_flatMap]
    congr 1
    · exact (List.map_id _).symm
    · refine List.flatMap_congr fun sub hmem => ?_
      rw [ih sub hmem, List.map_map]
      rfl

theorem mem_entries (h : WF t) (key : List Nat) (d : α) :
    (key, d) ∈ entries t ↔ lookUp key t = some d := by
  induction h generalizing key with
  | @node data subTries hnodup _ _ ih =>
    rw [entries, subEntries_eq, List.mem_append, List.mem_flatMap]
    simp only [List.mem_map, Option.mem_toList, Prod.mk.injEq]
    cases key with
    | nil => simp [lookUp]
    | cons c key =>
      rw [lookUp]
      constructor
      · rintro (⟨_, _, hnil, _⟩ | ⟨sub, hsub, entry, hentry, hcons, rfl⟩)
        · exact absurd hnil.symm (List.cons_ne_nil _ _)
        · obtain ⟨rfl, rfl⟩ := List.cons.inj hcons
          rw [(lookup_eq_some_iff hnodup).mpr hsub]
          exact (ih sub hsub entry.1).mp hentry
      · intro hd
        cases ht : subTries.lookup c with
        | none => rw [ht] at hd; exact absurd hd (by simp)
        | some t =>
          rw [ht] at hd
          have hsub := (lookup_eq_some_iff hnodup).mp ht
          exact .inr ⟨(c, t), hsub, (key, d), (ih (c, t) hsub key).mpr hd, rfl, rfl⟩

theorem nodup_entries (h : WF t) : ((entries t).map Prod.fst).Nodup := by
  induction h with
  | @node data subTries hnodup _ _ ih =>
    rw [entries, subEntries_eq, List.map_append, List.map_flatMap, List.nodup_append]
    refine ⟨?_, ?_, ?_⟩
    · cases data with
      | none => exact List.nodup_nil
      | some d => exact List.nodup_singleton _
    · rw [List.nodup_flatMap]
      constructor
      · intro sub hsub
        have hcons : ((entries sub.2).map Prod.fst).map (sub.1 :: ·) |>.Nodup :=
          (ih sub hsub).map fun _ _ heq => (List.cons.inj heq).2
        rw [List.map_map] at hcons ⊢
        exact hcons
      · -- Keys of two subtries differ in their first characters.
        refine (List.pairwise_map.mp hnodup).imp fun hne => ?_
        refine List.disjoint_left.mpr fun key hkey hkey' => ?_
        simp only [List.mem_map] at hkey hkey'
        obtain ⟨_, ⟨_, _, rfl⟩, hfst⟩ := hkey
        obtain ⟨_, ⟨_, _, rfl⟩, hfst'⟩ := hkey'
        exact hne (List.cons.inj (hfst.trans hfst'.symm)).1
    · intro key hkey key' hkey'
      simp only [List.mem_map, List.mem_flatMap] at hkey hkey'
      obtain ⟨_, ⟨_, _, rfl⟩, rfl⟩ := hkey
      obtain ⟨_, _, _, ⟨_, _, rfl⟩, rfl⟩ := hkey'
      exact (List.cons_ne_nil _ _).symm

/-- **THE PREDICTIVE LOOK-UP** gives the values of the stored keys with the prefix, each of
    them once. -/
theorem lookUpPredictiveAll_spec (key : List Nat) (h : WF t) :
    ∃ keys : List (List Nat), keys.Nodup ∧
      (∀ q, q ∈ keys ↔ key <+: q ∧ (lookUp q t).isSome = true) ∧
      (lookUpPredictiveAll key t).map some = keys.map fun q => lookUp q t := by
  induction key generalizing t with
  | nil =>
    refine ⟨(entries t).map Prod.fst, nodup_entries h, fun q => ?_, ?_⟩
    · rw [List.mem_map, and_iff_right List.nil_prefix, Option.isSome_iff_exists]
      constructor
      · rintro ⟨⟨_, d⟩, hmem, rfl⟩
        exact ⟨d, (mem_entries h _ d).mp hmem⟩
      · rintro ⟨d, hd⟩
        exact ⟨(q, d), (mem_entries h q d).mpr hd, rfl⟩
    · rw [lookUpPredictiveAll, allData_eq h, List.map_map, List.map_map]
      exact List.map_congr_left fun entry hmem => ((mem_entries h _ _).mp hmem).symm
  | cons c key ih =>
    obtain ⟨data, subTries⟩ := t
    rw [lookUpPredictiveAll]
    cases ht : subTries.lookup c with
    | none =>
      refine ⟨[], List.nodup_nil, fun q => ?_, rfl⟩
      refine iff_of_false List.not_mem_nil ?_
      rintro ⟨⟨rest, rfl⟩, hstored⟩
      rw [List.cons_append, lookUp, ht] at hstored
      exact Bool.false_ne_true hstored
    | some t =>
      obtain ⟨keys, hnodup, hmem, hdata⟩ := ih (wf_lookup h ht).1
      refine ⟨keys.map (c :: ·), hnodup.map fun _ _ heq => (List.cons.inj heq).2, ?_, ?_⟩
      · intro q
        rw [List.mem_map]
        constructor
        · rintro ⟨q, hq, rfl⟩
          obtain ⟨hstarts, hstored⟩ := (hmem q).mp hq
          exact ⟨List.cons_prefix_cons.mpr ⟨rfl, hstarts⟩, by rw [lookUp, ht]; exact hstored⟩
        · rintro ⟨hstarts, hstored⟩
          obtain ⟨rest, rfl⟩ := hstarts
          rw [List.cons_append, lookUp, ht] at hstored
          exact ⟨key ++ rest, (hmem _).mpr ⟨List.prefix_append _ _, hstored⟩, rfl⟩
      · dsimp only
        rw [hdata, List.map_map]
        refine List.map_congr_left fun q _ => ?_
        rw [Function.comp_apply, lookUp, ht]

end CharTrie
