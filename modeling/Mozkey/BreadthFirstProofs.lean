import Mathlib

/-! # Breadth-first search with a limit

    A search takes elements off a queue, collects those that it accepts and appends what they
    expand to.  Once more than `limit` elements are collected, it takes those that are as deep
    as the last one from the queue, and stops. -/

namespace BreadthFirst

variable {α : Type} (expand : α → List α) (accept : α → Bool) (depth : α → Nat)

/-- The loop that takes the accepted elements up to a depth off the queue. -/
def drain (maxDepth : Nat) : List α → List α
  | [] => []
  | x :: queue =>
    if maxDepth < depth x then []
    else (if accept x then [x] else []) ++ drain maxDepth queue

/-- The search; `none` where the fuel does not do. -/
def search (limit : Nat) : Nat → List α → List α → Option (List α)
  | 0, _, _ => none
  | _ + 1, [], result => some result
  | fuel + 1, x :: queue, result =>
    let result := if accept x then result ++ [x] else result
    if limit < result.length then some (result ++ drain accept depth (depth x) queue)
    else search limit fuel (queue ++ expand x) result

/-- The elements in the order in which a search without a limit takes them off the queue. -/
def order : Nat → List α → Option (List α)
  | 0, _ => none
  | _ + 1, [] => some []
  | fuel + 1, x :: queue => (order fuel (queue ++ expand x)).map (x :: ·)

/-- The front of a list up to the depth of the element number `limit`. -/
def cut (limit : Nat) (hits : List α) : List α :=
  match hits[limit]? with
  | none => hits
  | some x => hits.filter (fun y => decide (depth y ≤ depth x))

/-! ## The queue -/

/-- The elements are those of a tree, by their depth. -/
structure IsTree : Prop where
  depth_expand : ∀ x, ∀ y ∈ expand x, depth y = depth x + 1
  parent_unique : ∀ x x' y, y ∈ expand x → y ∈ expand x' → x = x'
  nodup_expand : ∀ x, (expand x).Nodup

/-- What the queue of a search is like. -/
structure Front (queue : List α) : Prop where
  sorted : queue.Pairwise (fun x y => depth x ≤ depth y)
  near : ∀ x ∈ queue, ∀ y ∈ queue, depth y ≤ depth x + 1
  nodup : queue.Nodup
  apart : ∀ x ∈ queue, ∀ y ∈ queue, y ∉ expand x

variable {expand accept depth}

/-- The queue of the root. -/
theorem Front.singleton (htree : IsTree expand depth) (x : α) : Front expand depth [x] where
  sorted := List.pairwise_singleton _ _
  near := by simp
  nodup := List.nodup_singleton x
  apart := by
    intro y hy z hz hmem
    rw [List.mem_singleton] at hy hz
    subst hy hz
    exact absurd (htree.depth_expand z z hmem) (by omega)

/-- The queue spans two depths. -/
theorem Front.head_le {x : α} {queue : List α} (h : Front expand depth (x :: queue)) :
    ∀ y ∈ queue, depth x ≤ depth y ∧ depth y ≤ depth x + 1 :=
  fun y hy => ⟨List.rel_of_pairwise_cons h.sorted hy,
    h.near x List.mem_cons_self y (List.mem_cons_of_mem x hy)⟩

theorem Front.head_le_next (htree : IsTree expand depth) {x : α} {queue : List α}
    (h : Front expand depth (x :: queue)) : ∀ y ∈ queue ++ expand x, depth x ≤ depth y := by
  intro y hy
  rcases List.mem_append.mp hy with hy | hy
  · exact (h.head_le y hy).1
  · rw [htree.depth_expand x y hy]
    exact Nat.le_succ _

/-- **THE QUEUE STAYS A FRONT** as an element is expanded. -/
theorem Front.next (htree : IsTree expand depth) {x : α} {queue : List α}
    (h : Front expand depth (x :: queue)) : Front expand depth (queue ++ expand x) := by
  have hhead := h.head_le
  have hdepth := htree.depth_expand x
  have hbounds : ∀ y ∈ queue ++ expand x, depth x ≤ depth y ∧ depth y ≤ depth x + 1 := by
    intro y hy
    rcases List.mem_append.mp hy with hy | hy
    · exact hhead y hy
    · have := hdepth y hy
      omega
  have hnodup := List.nodup_cons.mp h.nodup
  refine ⟨?_, ?_, ?_, ?_⟩
  · refine List.pairwise_append.mpr ⟨h.sorted.of_cons, ?_, ?_⟩
    · refine List.pairwise_of_forall_mem_list ?_
      intro y hy z hz
      rw [hdepth y hy, hdepth z hz]
    · intro y hy z hz
      rw [hdepth z hz]
      exact (hhead y hy).2
  · intro y hy z hz
    have hy := hbounds y hy
    have hz := hbounds z hz
    omega
  · refine List.nodup_append.mpr ⟨hnodup.2, htree.nodup_expand x, ?_⟩
    rintro y hy z hz rfl
    exact h.apart x List.mem_cons_self y (List.mem_cons_of_mem x hy) hz
  · intro y hy z hz hmem
    rcases List.mem_append.mp hy with hy | hy
    · rcases List.mem_append.mp hz with hz | hz
      · exact h.apart y (List.mem_cons_of_mem x hy) z (List.mem_cons_of_mem x hz) hmem
      · rw [htree.parent_unique x y z hz hmem] at hnodup
        exact hnodup.1 hy
    · -- what a new element expands to is deeper than the queue
      have := hbounds z hz
      have := hdepth y hy
      have := htree.depth_expand y z hmem
      omega

/-! ## The order -/

/-- A list in the order in which a search takes its elements off a queue. -/
inductive Ordered (expand : α → List α) : List α → List α → Prop
  | nil : Ordered expand [] []
  | cons {x : α} {queue l : List α} :
    Ordered expand (queue ++ expand x) l → Ordered expand (x :: queue) (x :: l)

theorem ordered_of_order {fuel : Nat} {queue l : List α} (h : order expand fuel queue = some l) :
    Ordered expand queue l := by
  induction fuel generalizing queue l with
  | zero => cases h
  | succ fuel ih =>
    cases queue with
    | nil => rw [← Option.some.inj h]; exact .nil
    | cons x queue =>
      rw [order, Option.map_eq_some_iff] at h
      obtain ⟨rest, hrest, rfl⟩ := h
      exact .cons (ih hrest)

variable {queue l : List α} (htree : IsTree expand depth) (h : Ordered expand queue l)

include htree h

theorem le_depth_order {d : Nat} (hqueue : ∀ y ∈ queue, d ≤ depth y) : ∀ y ∈ l, d ≤ depth y := by
  induction h with
  | nil => exact hqueue
  | @cons x queue l _ ih =>
    obtain ⟨hx, hqueue⟩ := List.forall_mem_cons.mp hqueue
    refine List.forall_mem_cons.mpr ⟨hx, ih ?_⟩
    intro y hy
    rcases List.mem_append.mp hy with hy | hy
    · exact hqueue y hy
    · rw [htree.depth_expand x y hy]
      exact Nat.le_succ_of_le hx

/-- **WHAT IS NOT DEEPER THAN THE QUEUE** is in the queue. -/
theorem filter_order {d : Nat} (hqueue : ∀ y ∈ queue, d ≤ depth y) :
    l.filter (fun y => decide (depth y ≤ d)) = queue.filter (fun y => decide (depth y ≤ d)) := by
  induction h with
  | nil => rfl
  | @cons x queue l _ ih =>
    obtain ⟨hx, hqueue⟩ := List.forall_mem_cons.mp hqueue
    have hnew : ∀ y ∈ expand x, d + 1 ≤ depth y := by
      intro y hy
      rw [htree.depth_expand x y hy]
      exact Nat.succ_le_succ hx
    have hnone : (expand x).filter (fun y => decide (depth y ≤ d)) = [] := by
      refine List.filter_eq_nil_iff.mpr ?_
      intro y hy hle
      exact absurd (hnew y hy) (Nat.not_le_of_lt (Nat.lt_succ_of_le (of_decide_eq_true hle)))
    have hih := ih ?_
    · rw [List.filter_append, hnone, List.append_nil] at hih
      rw [List.filter_cons, List.filter_cons, hih]
    · intro y hy
      rcases List.mem_append.mp hy with hy | hy
      · exact hqueue y hy
      · exact Nat.le_of_succ_le (hnew y hy)

/-- **THE ORDER** is by depth. -/
theorem sorted_order (hfront : Front expand depth queue) :
    l.Pairwise (fun x y => depth x ≤ depth y) := by
  induction h with
  | nil => exact .nil
  | cons hrest ih =>
    exact List.pairwise_cons.mpr
      ⟨le_depth_order htree hrest (hfront.head_le_next htree), ih (hfront.next htree)⟩

/-- **NOTHING IS TAKEN TWICE.** -/
theorem nodup_order (hfront : Front expand depth queue) : l.Nodup := by
  induction h with
  | nil => exact .nil
  | @cons x queue l hrest ih =>
    refine List.nodup_cons.mpr ⟨?_, ih (hfront.next htree)⟩
    intro hmem
    -- the element would be in the queue again
    have hx : x ∈ l.filter (fun y => decide (depth y ≤ depth x)) :=
      List.mem_filter.mpr ⟨hmem, decide_eq_true (Nat.le_refl _)⟩
    rw [filter_order htree hrest (hfront.head_le_next htree)] at hx
    rcases List.mem_append.mp (List.mem_filter.mp hx).1 with hx | hx
    · exact (List.nodup_cons.mp hfront.nodup).1 hx
    · exact hfront.apart x List.mem_cons_self x List.mem_cons_self hx

omit htree in
/-- **WHAT IS TAKEN** is what the queue leads to. -/
theorem mem_order (y : α) :
    y ∈ l ↔ ∃ x ∈ queue, Relation.ReflTransGen (fun a b => b ∈ expand a) x y := by
  induction h with
  | nil => simp
  | @cons x queue l _ ih =>
    rw [List.mem_cons, ih]
    simp only [List.mem_append, List.mem_cons, exists_eq_or_imp]
    rw [Relation.ReflTransGen.cases_head_iff (a := x), eq_comm (a := y)]
    constructor
    · rintro (rfl | ⟨z, hz | hz, hreach⟩)
      · exact Or.inl (Or.inl rfl)
      · exact Or.inr ⟨z, hz, hreach⟩
      · exact Or.inl (Or.inr ⟨z, hz, hreach⟩)
    · rintro ((rfl | ⟨z, hz, hreach⟩) | ⟨z, hz, hreach⟩)
      · exact Or.inl rfl
      · exact Or.inr ⟨z, Or.inr hz, hreach⟩
      · exact Or.inr ⟨z, Or.inl hz, hreach⟩

omit htree h

/-! ## The search -/

/-- The accepted elements up to the depth of the first one of a sorted queue. -/
theorem drain_eq {maxDepth : Nat} : ∀ {queue : List α},
    queue.Pairwise (fun x y => depth x ≤ depth y) →
      drain accept depth maxDepth queue
        = (queue.filter (fun y => decide (depth y ≤ maxDepth))).filter accept := by
  intro queue
  induction queue with
  | nil => intro _; rfl
  | cons x queue ih =>
    intro hsorted
    rw [drain]
    by_cases hdeep : maxDepth < depth x
    · -- the rest is as deep
      have hnone : (x :: queue).filter (fun y => decide (depth y ≤ maxDepth)) = [] := by
        refine List.filter_eq_nil_iff.mpr ?_
        intro y hy hle
        have hxy : depth x ≤ depth y := by
          rcases List.mem_cons.mp hy with rfl | hy
          · exact Nat.le_refl _
          · exact List.rel_of_pairwise_cons hsorted hy
        have := of_decide_eq_true hle
        omega
      rw [if_pos hdeep, hnone]
      rfl
    · rw [if_neg hdeep, ih hsorted.of_cons, List.filter_cons,
        if_pos (decide_eq_true (Nat.le_of_not_lt hdeep)), List.filter_cons]
      cases accept x <;> rfl

/-- Nothing is cut below the limit. -/
theorem cut_of_length_le {limit : Nat} {hits : List α} (h : hits.length ≤ limit) :
    cut depth limit hits = hits := by
  rw [cut, List.getElem?_eq_none h]

variable (depth) in
theorem cut_sublist (limit : Nat) (hits : List α) : (cut depth limit hits).Sublist hits := by
  rw [cut]
  split
  · exact .refl hits
  · exact List.filter_sublist

/-- **THE SEARCH** collects the accepted part of the order, cut at the limit. -/
theorem search_eq (htree : IsTree expand depth) {limit : Nat} :
    ∀ {fuel : Nat} {queue l result : List α}, Front expand depth queue →
      order expand fuel queue = some l → result.length ≤ limit →
      (∀ r ∈ result, ∀ y ∈ queue, depth r ≤ depth y) →
      search expand accept depth limit fuel queue result
        = some (cut depth limit (result ++ l.filter accept)) := by
  intro fuel
  induction fuel with
  | zero => intro queue l result _ h; cases h
  | succ fuel ih =>
    intro queue l result hfront h hlen hresult
    cases queue with
    | nil =>
      rw [← Option.some.inj h, search, List.filter_nil, List.append_nil, cut_of_length_le hlen]
    | cons x queue =>
      rw [order, Option.map_eq_some_iff] at h
      obtain ⟨rest, hrest, rfl⟩ := h
      have hhead := hfront.head_le_next htree
      have hnext := hfront.next htree
      rw [search, List.filter_cons]
      by_cases haccept : accept x = true
      · rw [if_pos haccept, if_pos haccept]
        rw [List.length_append, List.length_singleton,
          List.append_cons result x (rest.filter accept)]
        by_cases hlimit : limit < result.length + 1
        · -- the element is the one that the limit numbers
          have hget : (result ++ [x] ++ rest.filter accept)[limit]? = some x := by
            rw [List.append_assoc, List.getElem?_append_right (by omega),
              show limit - result.length = 0 by omega]
            rfl
          have hkeep : (result ++ [x]).filter (fun y => decide (depth y ≤ depth x))
              = result ++ [x] := by
            refine List.filter_eq_self.mpr ?_
            intro y hy
            refine decide_eq_true ?_
            rcases List.mem_append.mp hy with hy | hy
            · exact hresult y hy x List.mem_cons_self
            · rw [List.mem_singleton.mp hy]
          have hrestFilter : (expand x).filter (fun y => decide (depth y ≤ depth x)) = [] := by
            refine List.filter_eq_nil_iff.mpr ?_
            intro y hy hle
            have := htree.depth_expand x y hy
            have := of_decide_eq_true hle
            omega
          rw [if_pos hlimit, cut, hget]
          dsimp only
          rw [List.filter_append, hkeep, drain_eq hfront.sorted.of_cons,
            List.filter_comm (fun y => decide (depth y ≤ depth x)) accept rest,
            filter_order htree (ordered_of_order hrest) hhead, List.filter_append, hrestFilter,
            List.append_nil]
        · rw [if_neg hlimit]
          refine ih hnext hrest (by rw [List.length_append, List.length_singleton]; omega) ?_
          intro r hr y hy
          rcases List.mem_append.mp hr with hr | hr
          · exact Nat.le_trans (hresult r hr x List.mem_cons_self) (hhead y hy)
          · rw [List.mem_singleton.mp hr]
            exact hhead y hy
      · rw [if_neg haccept, if_neg haccept]
        rw [if_neg (Nat.not_lt_of_le hlen)]
        exact ih hnext hrest hlen (fun r hr y hy =>
          Nat.le_trans (hresult r hr x List.mem_cons_self) (hhead y hy))

/-- **THE SEARCH ENDS**, as there are only so many elements to take. -/
theorem exists_order (htree : IsTree expand depth) {all : List α}
    (hclosed : ∀ x ∈ all, ∀ y ∈ expand x, y ∈ all) :
    ∀ {fuel : Nat} {queue taken : List α}, Front expand depth queue → (taken ++ queue).Nodup →
      (∀ x ∈ taken ++ queue, x ∈ all) → (∀ t ∈ taken, ∀ y ∈ queue, depth t ≤ depth y) →
      all.length < fuel + taken.length → ∃ l, order expand fuel queue = some l := by
  intro fuel
  induction fuel with
  | zero =>
    intro queue taken _ hnodup hsub _ hlt
    have := (List.subperm_of_subset (List.nodup_append.mp hnodup).1
      (fun x hx => hsub x (List.mem_append_left _ hx))).length_le
    omega
  | succ fuel ih =>
    intro queue taken hfront hnodup hsub htaken hlt
    cases queue with
    | nil => exact ⟨[], rfl⟩
    | cons x queue =>
      have hx : x ∈ all := hsub x (List.mem_append_right _ List.mem_cons_self)
      have hnext := hfront.next htree
      have hhead := hfront.head_le_next htree
      have hbounds : ∀ t ∈ taken ++ [x], depth t ≤ depth x := by
        intro t ht
        rcases List.mem_append.mp ht with ht | ht
        · exact htaken t ht x List.mem_cons_self
        · rw [List.mem_singleton.mp ht]
      have hrest := @ih (queue ++ expand x) (taken ++ [x]) hnext ?_ ?_ ?_ ?_
      · obtain ⟨l, hl⟩ := hrest
        exact ⟨x :: l, by rw [order, hl, Option.map_some]⟩
      · rw [← List.append_assoc]
        refine List.nodup_append.mpr ⟨?_, htree.nodup_expand x, ?_⟩
        · rw [List.append_assoc, List.singleton_append]
          exact hnodup
        · -- what is new is deeper than what was taken, and not in the queue
          rintro y hy z hz rfl
          rw [List.append_assoc, List.singleton_append] at hy
          have hdepth := htree.depth_expand x y hz
          rcases List.mem_append.mp hy with hy | hy
          · have := hbounds y (List.mem_append_left _ hy)
            omega
          · exact hfront.apart x List.mem_cons_self y hy hz
      · intro y hy
        rw [← List.append_assoc, List.append_assoc taken] at hy
        rcases List.mem_append.mp hy with hy | hy
        · exact hsub y hy
        · exact hclosed x hx y hy
      · exact fun t ht y hy => Nat.le_trans (hbounds t ht) (hhead y hy)
      · rw [List.length_append, List.length_singleton]
        omega

/-- **THE SEARCH FROM A ROOT** through finitely many elements. -/
theorem exists_search (htree : IsTree expand depth) {all : List α}
    (hclosed : ∀ x ∈ all, ∀ y ∈ expand x, y ∈ all) {root : α} (hroot : root ∈ all) {fuel : Nat}
    (hfuel : all.length < fuel) :
    ∃ l : List α, l.Nodup ∧ l.Pairwise (fun x y => depth x ≤ depth y) ∧
      (∀ y, y ∈ l ↔ Relation.ReflTransGen (fun a b => b ∈ expand a) root y) ∧
      ∀ (accept : α → Bool) (limit : Nat), search expand accept depth limit fuel [root] []
        = some (cut depth limit (l.filter accept)) := by
  have hfront := Front.singleton htree root
  obtain ⟨l, hl⟩ := @exists_order α expand depth htree all hclosed fuel [root] [] hfront
    (List.nodup_singleton root) (fun x hx => List.mem_singleton.mp hx ▸ hroot)
    (fun t ht => absurd ht List.not_mem_nil) hfuel
  have hordered := ordered_of_order hl
  refine ⟨l, nodup_order htree hordered hfront, sorted_order htree hordered hfront, ?_, ?_⟩
  · intro y
    rw [mem_order hordered y]
    simp only [List.mem_singleton, exists_eq_left]
  · intro accept limit
    exact search_eq htree hfront hl (Nat.zero_le limit) (fun r hr => absurd hr List.not_mem_nil)

end BreadthFirst
