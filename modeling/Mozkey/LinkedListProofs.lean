import Mathlib

/-! # Linked lists in a heap

    The cells of a list are addresses, and the links are two maps that an operation changes
    at single addresses.  `Linked` says that the links of some cells are those of a list
    between two cells, `Chained` that the next links alone are. -/

namespace LinkedList

open Function (update)

variable {A : Type}

/-- What is written to the cell at a pointer, if there is one. -/
def setAt [DecidableEq A] (f : A → Option A) : Option A → Option A → A → Option A
  | none, _ => f
  | some a, v => update f a v

/-- The links of the cells of a list that stands between two cells. -/
def Linked (next prev : A → Option A) : Option A → List A → Option A → Prop
  | _, [], _ => True
  | p, a :: l, q => prev a = p ∧ next a = l.head?.or q ∧ Linked next prev (some a) l q

/-- The next links of the cells of a list that a pointer starts. -/
def Chained (next : A → Option A) : Option A → List A → Prop
  | h, [] => h = none
  | h, a :: l => h = some a ∧ Chained next (next a) l

variable {next next' prev prev' : A → Option A}

variable {a : A}

theorem setAt_of_ne [DecidableEq A] {f : A → Option A} {x v : Option A} (h : x ≠ some a) :
    setAt f x v a = f a := by
  cases x with
  | none => rfl
  | some b => exact Function.update_of_ne (fun hab => h (congrArg some hab.symm)) _ _

theorem setAt_some [DecidableEq A] (f : A → Option A) (a : A) (v : Option A) :
    setAt f (some a) v a = v :=
  Function.update_self _ _ _

/-! ## What a change leaves -/

/-- Links of other cells do not matter. -/
theorem Linked.congr : ∀ {l : List A} {p q : Option A}, Linked next prev p l q →
    (∀ a ∈ l, next' a = next a ∧ prev' a = prev a) → Linked next' prev' p l q := by
  intro l
  induction l with
  | nil => intro p q _ _; trivial
  | cons a l ih =>
    rintro p q ⟨hprev, hnext, hrest⟩ hsame
    obtain ⟨hn, hp⟩ := hsame a List.mem_cons_self
    exact ⟨hp.trans hprev, hn.trans hnext,
      ih hrest fun b hb => hsame b (List.mem_cons_of_mem _ hb)⟩

/-- A chain goes by the links of its cells. -/
theorem Chained.congr : ∀ {l : List A} {h : Option A}, Chained next h l →
    (∀ a ∈ l, next' a = next a) → Chained next' h l := by
  intro l
  induction l with
  | nil => intro h hl _; exact hl
  | cons a l ih =>
    rintro h ⟨hhead, hrest⟩ hsame
    refine ⟨hhead, ?_⟩
    rw [hsame a List.mem_cons_self]
    exact ih hrest fun b hb => hsame b (List.mem_cons_of_mem _ hb)

theorem getLast?_cons_or (a : A) (l : List A) (p : Option A) :
    (a :: l).getLast?.or p = l.getLast?.or (some a) := by
  cases l with
  | nil => rfl
  | cons b l => rw [List.getLast?_cons_cons, List.getLast?_cons, Option.some_or, Option.some_or]

/-- Two lists, one behind the other. -/
theorem linked_append : ∀ {l₁ l₂ : List A} {p q : Option A},
    Linked next prev p (l₁ ++ l₂) q ↔
      Linked next prev p l₁ (l₂.head?.or q) ∧ Linked next prev (l₁.getLast?.or p) l₂ q := by
  intro l₁ l₂
  induction l₁ with
  | nil =>
    intro p q
    rw [List.nil_append, List.getLast?_nil, Option.none_or]
    exact ⟨fun h => ⟨trivial, h⟩, fun h => h.2⟩
  | cons a l₁ ih =>
    intro p q
    rw [List.cons_append, Linked, ih, Linked, getLast?_cons_or, List.head?_append,
      Option.or_assoc]
    constructor
    · rintro ⟨hprev, hnext, h₁, h₂⟩
      exact ⟨⟨hprev, hnext, h₁⟩, h₂⟩
    · rintro ⟨⟨hprev, hnext, h₁⟩, h₂⟩
      exact ⟨hprev, hnext, h₁, h₂⟩

/-! ## Linking to other cells -/

variable [DecidableEq A] {l : List A} {p q : Option A}

/-- The list is linked to another cell behind it. -/
theorem Linked.setAt_next (h : Linked next prev p l q) (hnodup : l.Nodup) (q' : Option A) :
    Linked (setAt next l.getLast? q') prev p l q' := by
  rcases List.eq_nil_or_concat l with rfl | ⟨l, a, rfl⟩
  · trivial
  · rw [List.concat_eq_append] at h hnodup ⊢
    obtain ⟨h₁, hprev, -, -⟩ := linked_append.mp h
    rw [List.nodup_append] at hnodup
    rw [List.getLast?_append, List.getLast?_singleton, Option.some_or]
    refine linked_append.mpr ⟨?_, hprev, ?_, trivial⟩
    · refine h₁.congr fun b hb => ⟨setAt_of_ne ?_, rfl⟩
      intro hab
      exact hnodup.2.2 b hb a (List.mem_singleton_self a) (Option.some.inj hab).symm
    · exact setAt_some _ _ _

/-- The list is linked to another cell in front of it. -/
theorem Linked.setAt_prev (h : Linked next prev p l q) (hnodup : l.Nodup) (p' : Option A) :
    Linked next (setAt prev l.head? p') p' l q := by
  cases l with
  | nil => trivial
  | cons a l =>
    obtain ⟨-, hnext, hrest⟩ := h
    rw [List.nodup_cons] at hnodup
    refine ⟨setAt_some _ _ _, hnext, hrest.congr fun b hb => ⟨rfl, setAt_of_ne ?_⟩⟩
    intro hab
    exact hnodup.1 (Option.some.inj hab ▸ hb)

omit [DecidableEq A] in

/-- The links of a cell in the middle. -/
theorem Linked.links {l₁ l₂ : List A} (h : Linked next prev p (l₁ ++ a :: l₂) q) :
    prev a = l₁.getLast?.or p ∧ next a = l₂.head?.or q := by
  obtain ⟨-, hprev, hnext, -⟩ := linked_append.mp h
  exact ⟨hprev, hnext⟩

/-- **A CELL IS TAKEN OUT**: its neighbours are linked to each other, and its own links are
    cleared. -/
theorem Linked.remove {l₁ l₂ : List A} (h : Linked next prev none (l₁ ++ a :: l₂) none)
    (hnodup : (l₁ ++ a :: l₂).Nodup) :
    Linked (update (setAt next (prev a) (next a)) a none)
      (update (setAt prev (next a) (prev a)) a none) none (l₁ ++ l₂) none := by
  obtain ⟨hprev, hnext⟩ := h.links
  rw [Option.or_none] at hprev hnext
  obtain ⟨h₁, -, -, h₂⟩ := linked_append.mp h
  obtain ⟨hnodup₁, hnodup₂, hdisj⟩ := List.nodup_append.mp hnodup
  obtain ⟨ha₂, hnodup₂⟩ := List.nodup_cons.mp hnodup₂
  have ha₁ : a ∉ l₁ := fun ha => hdisj a ha a List.mem_cons_self rfl
  have hd : ∀ b ∈ l₁, b ∉ l₂ := fun b hb hb₂ => hdisj b hb b (List.mem_cons_of_mem _ hb₂) rfl
  rw [hprev, hnext, linked_append, Option.or_none, Option.or_none]
  constructor
  · refine (h₁.setAt_next hnodup₁ l₂.head?).congr fun b hb => ?_
    have hba : b ≠ a := fun hba => ha₁ (hba ▸ hb)
    rw [Function.update_of_ne hba, Function.update_of_ne hba]
    refine ⟨rfl, setAt_of_ne fun hhead => hd b hb ?_⟩
    exact List.mem_of_mem_head? hhead
  · refine (h₂.setAt_prev hnodup₂ l₁.getLast?).congr fun b hb => ?_
    have hba : b ≠ a := fun hba => ha₂ (hba ▸ hb)
    rw [Function.update_of_ne hba, Function.update_of_ne hba]
    refine ⟨setAt_of_ne fun hlast => hd b ?_ hb, rfl⟩
    exact List.mem_of_mem_getLast? hlast

/-- **A CELL IS PUT IN FRONT.** -/
theorem Linked.push (h : Linked next prev none l none) (hnodup : l.Nodup) (ha : a ∉ l)
    (hprev : prev a = none) :
    Linked (update next a l.head?) (setAt prev l.head? (some a)) none (a :: l) none := by
  have hhead : l.head? ≠ some a := fun hhead => ha (List.mem_of_mem_head? hhead)
  refine ⟨?_, ?_, ?_⟩
  · rw [setAt_of_ne hhead, hprev]
  · rw [Function.update_self, Option.or_none]
  · refine (h.setAt_prev hnodup (some a)).congr fun b hb => ⟨?_, rfl⟩
    exact Function.update_of_ne (fun hba : b = a => ha (hba ▸ hb)) _ _

omit [DecidableEq A] in

/-- A list that ends is a chain. -/
theorem Linked.chained : ∀ {l : List A} {p : Option A}, Linked next prev p l none →
    Chained next l.head? l := by
  intro l
  induction l with
  | nil => intro p _; rfl
  | cons a l ih =>
    rintro p ⟨-, hnext, hrest⟩
    rw [Option.or_none] at hnext
    exact ⟨rfl, hnext ▸ ih hrest⟩

end LinkedList
