import Mathlib

/-! # Cheapest paths — labels that are settled one after the other

    A graph has a source, a relation of steps and a cost for each.  A label is a node to come
    from and a cost; a node is settled when its label is the best of those that its
    predecessors give.  Steps lead to nodes of higher rank, so that nodes can be settled rank by
    rank.  Costs are integers and may be negative. -/

namespace ShortestPath

variable {α : Type}

/-! ## The scan for the cheapest candidate -/

/-- The first of the cheapest candidates that cost less than the bound. -/
def best (bound : Int) (candidates : List (α × Int)) : Int × Option α :=
  candidates.foldl (fun b c => if c.2 < b.1 then (c.2, some c.1) else b) (bound, none)

/-- One more candidate. -/
theorem best_concat (bound : Int) (candidates : List (α × Int)) (c : α × Int) :
    best bound (candidates ++ [c])
      = if c.2 < (best bound candidates).1 then (c.2, some c.1) else best bound candidates := by
  unfold best
  rw [List.foldl_append]
  rfl

/-- What a scan has found so far. -/
structure Found (bound : Int) (candidates : List (α × Int)) (b : Int × Option α) : Prop where
  none : b.2 = none → b.1 = bound
  some : ∀ a, b.2 = some a → (a, b.1) ∈ candidates ∧ b.1 < bound
  le : ∀ c ∈ candidates, b.1 ≤ c.2

theorem found_foldl {bound : Int} (rest : List (α × Int)) :
    ∀ {seen : List (α × Int)} {b : Int × Option α}, Found bound seen b →
      Found bound (seen ++ rest)
        (rest.foldl (fun b c => if c.2 < b.1 then (c.2, some c.1) else b) b) := by
  induction rest with
  | nil =>
    intro seen b h
    rw [List.append_nil]
    exact h
  | cons c rest ih =>
    intro seen b h
    have hle : b.1 ≤ bound := by
      cases hb : b.2 with
      | none => exact le_of_eq (h.none hb)
      | some a => exact le_of_lt (h.some a hb).2
    rw [List.foldl_cons, List.append_cons]
    refine ih ?_
    by_cases hlt : c.2 < b.1
    · rw [if_pos hlt]
      constructor
      · intro hnone
        cases hnone
      · intro a ha
        cases ha
        exact ⟨by simp, lt_of_lt_of_le hlt hle⟩
      · intro c' hmem
        rcases List.mem_append.mp hmem with hmem | hmem
        · exact le_of_lt (lt_of_lt_of_le hlt (h.le c' hmem))
        · rw [List.mem_singleton.mp hmem]
    · rw [if_neg hlt]
      constructor
      · exact h.none
      · intro a ha
        exact ⟨List.mem_append_left _ (h.some a ha).1, (h.some a ha).2⟩
      · intro c' hmem
        rcases List.mem_append.mp hmem with hmem | hmem
        · exact h.le c' hmem
        · rw [List.mem_singleton.mp hmem]
          exact not_lt.mp hlt

/-- The scan for the cheapest candidate below a bound. -/
theorem found_best (bound : Int) (candidates : List (α × Int)) :
    Found bound candidates (best bound candidates) := by
  have hempty : Found bound ([] : List (α × Int)) (bound, none) :=
    { none := fun _ => rfl
      some := fun a ha => by cases ha
      le := fun c hc => absurd hc List.not_mem_nil }
  have hfound := found_foldl candidates hempty
  rwa [List.nil_append] at hfound

/-! ## Graphs, walks and labels -/

/-- A source, the steps between nodes, and what a step costs. -/
structure Graph (α : Type) where
  source : α
  start : Int
  Step : α → α → Prop
  cost : α → α → Int

/-- The cost of going from a node along a path. -/
def pathCost (cost : α → α → Int) : α → List α → Int
  | _, [] => 0
  | l, r :: rest => cost l r + pathCost cost r rest

@[simp] theorem pathCost_nil (cost : α → α → Int) (l : α) : pathCost cost l [] = 0 := rfl

@[simp] theorem pathCost_cons (cost : α → α → Int) (l r : α) (rest : List α) :
    pathCost cost l (r :: rest) = cost l r + pathCost cost r rest := rfl

/-- One more step. -/
theorem pathCost_concat (cost : α → α → Int) (r : α) (path : List α) : ∀ l : α,
    pathCost cost l (path ++ [r])
      = pathCost cost l path + cost ((l :: path).getLast (List.cons_ne_nil _ _)) r := by
  induction path with
  | nil => intro l; simp
  | cons n path ih =>
    intro l
    rw [List.cons_append, pathCost_cons, ih, pathCost_cons, List.getLast_cons_cons]
    omega

variable {path : List α}

/-- A path from the source, with what it costs. -/
inductive Walk (g : Graph α) : α → List α → Int → Prop
  | nil : Walk g g.source [] g.start
  | snoc {l r : α} {path : List α} {c : Int} (walk : Walk g l path c) (step : g.Step l r) :
      Walk g r (path ++ [r]) (c + g.cost l r)

variable {r : α}

/-- A walk is a chain of steps, and costs what the steps cost. -/
theorem Walk.isChain {g : Graph α} {c : Int} (h : Walk g r path c) :
    (g.source :: path).IsChain g.Step ∧
      (g.source :: path).getLast (List.cons_ne_nil _ _) = r ∧
      c = g.start + pathCost g.cost g.source path := by
  induction h with
  | nil => exact ⟨List.isChain_singleton _, rfl, by simp⟩
  | @snoc l r path c walk step ih =>
    obtain ⟨hchain, hlast, hcost⟩ := ih
    refine ⟨?_, by simp, ?_⟩
    · rw [← List.cons_append, List.isChain_append]
      refine ⟨hchain, List.isChain_singleton _, ?_⟩
      intro x hx y hy
      rw [List.getLast?_eq_some_getLast (List.cons_ne_nil _ _), hlast] at hx
      cases hx
      cases hy
      exact step
    · rw [pathCost_concat, hlast, hcost]
      omega

/-- A chain of steps is a walk. -/
theorem walk_of_isChain {g : Graph α} (path : List α)
    (h : (g.source :: path).IsChain g.Step) :
    Walk g ((g.source :: path).getLast (List.cons_ne_nil _ _)) path
      (g.start + pathCost g.cost g.source path) := by
  induction path using List.reverseRecOn with
  | nil => simpa using Walk.nil
  | append_singleton path r ih =>
    rw [← List.cons_append, List.isChain_append] at h
    obtain ⟨hchain, -, hstep⟩ := h
    have hlast := List.getLast?_eq_some_getLast (List.cons_ne_nil g.source path)
    have hwalk := (ih hchain).snoc (hstep _ hlast r rfl)
    rw [pathCost_concat]
    simpa [add_assoc] using hwalk

/-- For each node the node to come from and a cost. -/
structure Labels (α : Type) where
  prev : α → Option α
  cost : α → Int

/-- A node that can be come from. -/
def Labels.Alive (labels : Labels α) (g : Graph α) (l : α) : Prop :=
  l = g.source ∨ labels.prev l ≠ none

/-- The label of a node is the best that its predecessors give. -/
structure Settled (g : Graph α) (labels : Labels α) (r : α) : Prop where
  dead : labels.prev r = none → ∀ l, g.Step l r → ¬ labels.Alive g l
  step : ∀ l, labels.prev r = some l → g.Step l r
  alive : ∀ l, labels.prev r = some l → labels.Alive g l
  cost_eq : ∀ l, labels.prev r = some l → labels.cost r = labels.cost l + g.cost l r
  cost_le : labels.prev r ≠ none → ∀ l, g.Step l r → labels.Alive g l →
    labels.cost r ≤ labels.cost l + g.cost l r

/-- A node without steps to it is settled. -/
theorem settled_of_not_step {g : Graph α} {labels : Labels α} (hnone : labels.prev r = none)
    (hstep : ∀ l, ¬ g.Step l r) : Settled g labels r := by
  have hsome : ∀ l, labels.prev r ≠ some l := by
    intro l hl
    rw [hnone] at hl
    cases hl
  constructor
  · intro _ l hl
    exact absurd hl (hstep l)
  · intro l hl
    exact absurd hl (hsome l)
  · intro l hl
    exact absurd hl (hsome l)
  · intro l hl
    exact absurd hl (hsome l)
  · intro hne
    exact absurd hnone hne

/-- Being settled depends on the labels of the node and of its predecessors. -/
theorem Settled.congr {g : Graph α} {labels labels' : Labels α} (h : Settled g labels r)
    (hprev : labels'.prev r = labels.prev r) (hcost : labels'.cost r = labels.cost r)
    (hbefore : ∀ l, g.Step l r →
      labels'.prev l = labels.prev l ∧ labels'.cost l = labels.cost l) :
    Settled g labels' r := by
  have halive : ∀ l, g.Step l r → (labels'.Alive g l ↔ labels.Alive g l) := by
    intro l hstep
    unfold Labels.Alive
    rw [(hbefore l hstep).1]
  constructor
  · intro hnone l hstep
    rw [halive l hstep]
    exact h.dead (hprev ▸ hnone) l hstep
  · intro l hl
    exact h.step l (hprev ▸ hl)
  · intro l hl
    rw [hprev] at hl
    exact (halive l (h.step l hl)).mpr (h.alive l hl)
  · intro l hl
    rw [hprev] at hl
    rw [hcost, (hbefore l (h.step l hl)).2]
    exact h.cost_eq l hl
  · intro hne l hstep hl
    rw [hprev] at hne
    rw [hcost, (hbefore l hstep).2]
    exact h.cost_le hne l hstep ((halive l hstep).mp hl)

/-- The nodes that a label comes from, down to the source. -/
inductive PrevChain (g : Graph α) (labels : Labels α) : α → List α → Prop
  | nil : PrevChain g labels g.source []
  | snoc {l r : α} {path : List α} (chain : PrevChain g labels l path)
      (hne : r ≠ g.source) (hprev : labels.prev r = some l) : PrevChain g labels r (path ++ [r])

theorem PrevChain.getLast {g : Graph α} {labels : Labels α} (h : PrevChain g labels r path) :
    (g.source :: path).getLast (List.cons_ne_nil _ _) = r := by
  cases h with
  | nil => rfl
  | snoc chain hne hprev => simp

section

variable {g : Graph α} {labels : Labels α} {rank : α → Nat} {bound : Nat}
  (hzero : rank g.source = 0) (hrank : ∀ l r, g.Step l r → rank l < rank r)
  (hstart : labels.cost g.source = g.start)
  (hsettled : ∀ r, rank r < bound → r ≠ g.source → Settled g labels r)
include hzero hrank hstart hsettled

omit hzero in
/-- **A LABEL IS ATTAINED** by the chain it comes from. -/
theorem exists_chain : ∀ r, rank r < bound → labels.Alive g r →
    ∃ path, PrevChain g labels r path ∧ Walk g r path (labels.cost r) := by
  intro r
  induction hn : rank r using Nat.strong_induction_on generalizing r with
  | _ n ih =>
    subst hn
    intro hlt halive
    by_cases hsource : r = g.source
    · rw [hsource, hstart]
      exact ⟨[], .nil, .nil⟩
    · have hs := hsettled r hlt hsource
      obtain ⟨l, hl⟩ := Option.ne_none_iff_exists'.mp (halive.resolve_left hsource)
      have hstep := hs.step l hl
      obtain ⟨path, hchain, hwalk⟩ := ih (rank l) (hrank l r hstep) l rfl
        (Nat.lt_trans (hrank l r hstep) hlt) (hs.alive l hl)
      refine ⟨path ++ [r], hchain.snoc hsource hl, ?_⟩
      rw [hs.cost_eq l hl]
      exact hwalk.snoc hstep

/-- **NO PATH IS CHEAPER** than a label. -/
theorem cost_le_walk {c : Int} (hwalk : Walk g r path c) (hlt : rank r < bound) :
    labels.Alive g r ∧ labels.cost r ≤ c := by
  induction hwalk with
  | nil => exact ⟨Or.inl rfl, le_of_eq hstart⟩
  | @snoc l r path c walk step ih =>
    obtain ⟨halive, hle⟩ := ih (Nat.lt_trans (hrank l r step) hlt)
    have hsource : r ≠ g.source := by
      rintro rfl
      have := hrank l g.source step
      omega
    have hs := hsettled r hlt hsource
    have hne : labels.prev r ≠ none := fun hnone => hs.dead hnone l step halive
    exact ⟨Or.inr hne, le_trans (hs.cost_le hne l step halive) (by omega)⟩

end

end ShortestPath
