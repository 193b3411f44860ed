import Mathlib

/-! # Bucket tables — counting, allocating, filling

    A table of buckets that is built in two passes over a list: the first one counts the
    entries of each bucket, the blank buckets are allocated, and the second one puts every
    entry over the first blank of its bucket.  Entries without a bucket are passed over. -/

namespace BucketTable

variable {α β : Type}

/-- A pass over a list that changes the bucket of each entry. -/
def eachBucket {γ : Type} (slot : α → Option Nat) (f : α → γ → γ) (l : List α) (table : List γ) :
    List γ :=
  l.foldl (fun table a =>
    match slot a with
    | none => table
    | some k => table.modify k (f a)) table

/-- The number of entries of each of `n` buckets. -/
def countBuckets (slot : α → Option Nat) (n : Nat) (l : List α) : List Nat :=
  eachBucket slot (fun _ size => size + 1) l (List.replicate n 0)

section

variable [DecidableEq β] (blank : β)

/-- An entry over the first blank of a bucket. -/
def fillFirst (b : β) : List β → List β
  | [] => []
  | head :: rest => if head = blank then b :: rest else head :: fillFirst b rest

/-- The table behind both passes. -/
def fillBuckets (slot : α → Option Nat) (entry : α → β) (n : Nat) (l : List α) : List (List β) :=
  eachBucket slot (fun a => fillFirst blank (entry a)) l
    ((countBuckets slot n l).map (fun size => List.replicate size blank))

end

section

variable {γ : Type} (slot : α → Option Nat) (f : α → γ → γ)

@[simp] theorem length_eachBucket : ∀ (l : List α) (table : List γ),
    (eachBucket slot f l table).length = table.length := by
  intro l
  induction l with
  | nil => intro table; rfl
  | cons a l ih =>
    intro table
    rw [eachBucket, List.foldl_cons]
    refine (ih _).trans ?_
    cases slot a with
    | none => rfl
    | some k => exact List.length_modify _ _ _

/-- **A BUCKET BEHIND A PASS** depends on its own entries only. -/
theorem getElem?_eachBucket (k : Nat) : ∀ (l : List α) (table : List γ),
    (eachBucket slot f l table)[k]?
      = table[k]?.map
        ((l.filter (fun a => decide (slot a = some k))).foldl (fun c a => f a c)) := by
  intro l
  induction l with
  | nil => intro table; exact Option.map_id'.symm
  | cons a l ih =>
    intro table
    rw [eachBucket, List.foldl_cons]
    refine (ih _).trans ?_
    cases hslot : slot a with
    | none => rw [List.filter_cons, if_neg (by simp [hslot])]
    | some k' =>
      dsimp only
      by_cases heq : k' = k
      · subst heq
        rw [List.filter_cons, if_pos (decide_eq_true hslot), List.getElem?_modify_eq,
          Option.map_eq_map, Option.map_map]
        rfl
      · rw [List.filter_cons, if_neg (by simp [hslot, heq]), List.getElem?_modify_ne _ _ heq]

end

/-- **THE COUNTS.** -/
theorem getElem?_countBuckets (slot : α → Option Nat) (l : List α) {k n : Nat} (hk : k < n) :
    (countBuckets slot n l)[k]? = some (l.filter (fun a => decide (slot a = some k))).length := by
  have hcount : ∀ (l : List α) (size : Nat), l.foldl (fun size _ => size + 1) size
      = size + l.length := by
    intro l
    induction l with
    | nil => intro size; rfl
    | cons a l ih => intro size; rw [List.foldl_cons, ih, List.length_cons]; omega
  rw [countBuckets, getElem?_eachBucket, List.getElem?_replicate, if_pos hk, Option.map_some,
    hcount, Nat.zero_add]

section

variable [DecidableEq β] {blank : β}

/-- The first blank is filled. -/
theorem fillFirst_append {filled : List β} (hfilled : ∀ b ∈ filled, b ≠ blank) (b : β)
    (rest : List β) : fillFirst blank b (filled ++ blank :: rest) = filled ++ b :: rest := by
  induction filled with
  | nil => rw [List.nil_append, List.nil_append, fillFirst, if_pos rfl]
  | cons head filled ih =>
    rw [List.cons_append, fillFirst, if_neg (hfilled head List.mem_cons_self),
      ih (fun b hb => hfilled b (List.mem_cons_of_mem _ hb))]
    rfl

/-- **THE ENTRIES GO OVER THE BLANKS** one after the other; the induction is on the entries
    that are not yet filled in. -/
theorem foldl_fillFirst {entry : α → β} : ∀ {l : List α} {filled : List β},
    (∀ a ∈ l, entry a ≠ blank) → (∀ b ∈ filled, b ≠ blank) →
    l.foldl (fun c a => fillFirst blank (entry a) c) (filled ++ List.replicate l.length blank)
      = filled ++ l.map entry := by
  intro l
  induction l with
  | nil => intro filled _ _; rfl
  | cons a l ih =>
    intro filled hl hfilled
    rw [List.length_cons, List.replicate_succ, List.foldl_cons, fillFirst_append hfilled,
      List.append_cons, ih (fun a ha => hl a (List.mem_cons_of_mem _ ha)), List.map_cons,
      List.append_assoc]
    · rfl
    · intro b hb
      rcases List.mem_append.mp hb with hb | hb
      · exact hfilled b hb
      · rw [List.mem_singleton.mp hb]
        exact hl a List.mem_cons_self

/-- **A BUCKET HOLDS ITS ENTRIES** in the order of the list. -/
theorem getElem?_fillBuckets (slot : α → Option Nat) {entry : α → β} {l : List α}
    (hentry : ∀ a ∈ l, entry a ≠ blank) {k n : Nat} (hk : k < n) :
    (fillBuckets blank slot entry n l)[k]?
      = some ((l.filter (fun a => decide (slot a = some k))).map entry) := by
  rw [fillBuckets, getElem?_eachBucket, List.getElem?_map, getElem?_countBuckets slot l hk,
    Option.map_some, Option.map_some]
  exact congrArg some (foldl_fillFirst
    (fun a ha => hentry a (List.mem_filter.mp ha).1) (fun b hb => absurd hb List.not_mem_nil))

/-- There is a bucket for each number. -/
theorem length_fillBuckets (slot : α → Option Nat) (entry : α → β) (n : Nat) (l : List α) :
    (fillBuckets blank slot entry n l).length = n := by
  rw [fillBuckets, length_eachBucket, List.length_map, countBuckets, length_eachBucket,
    List.length_replicate]

end

end BucketTable
