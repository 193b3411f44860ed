import Mathlib

/-! # Substring search — non-overlapping matches from the left

    Search and replacement over lists of any type with decidable equality.  `find` is
    the leftmost occurrence; the loop `while ((pos = find(needle, pos)) != npos)
    { …; pos += needle.size(); }` visits `positions`; `replaceAll` replaces exactly
    there.

    * `positionsFrom_spec` — the positions are inside the text and do not overlap;
    * `replaceAll_eq_splice` — replacing is cutting the text at the positions;
    * `mem_positions_append_left`, `mem_positions_append_right` — when the positions of a
      part are positions of the whole. -/

namespace Substring

variable {α : Type} [DecidableEq α]

/-- The leftmost occurrence of `needle`. -/
def find (needle : List α) : List α → Option Nat
  | [] => if needle = [] then some 0 else none
  | c :: rest =>
    if needle.isPrefixOf (c :: rest) then some 0 else (find needle rest).map (· + 1)

/-- Does `hay` contain `needle`? -/
def contains (needle hay : List α) : Bool := (find needle hay).isSome

/-- The positions of the search loop in a suffix that starts at `pos`. -/
def positionsFrom (needle : List α) : Nat → Nat → List α → List Nat
  | 0, _, _ => []
  | fuel + 1, pos, hay =>
    match find needle hay with
    | none => []
    | some i =>
      (pos + i) :: positionsFrom needle fuel (pos + i + needle.length)
        (hay.drop (i + needle.length))

/-- The positions of the non-overlapping occurrences, from the left.  Every match of a
    nonempty needle consumes an element, so the length is fuel enough. -/
def positions (needle hay : List α) : List Nat :=
  if needle = [] then [] else positionsFrom needle hay.length 0 hay

/-- The loop of a replacement, on the part that is not yet replaced. -/
def replaceFrom (needle sub : List α) : Nat → List α → List α
  | 0, hay => hay
  | fuel + 1, hay =>
    match find needle hay with
    | none => hay
    | some i => hay.take i ++ sub ++ replaceFrom needle sub fuel (hay.drop (i + needle.length))

/-- Replace the non-overlapping occurrences, from the left. -/
def replaceAll (needle sub hay : List α) : List α :=
  if needle = [] then hay else replaceFrom needle sub hay.length hay

/-! ## Where a match is -/

variable {needle : List α}

/-- What is found lies within the text. -/
theorem find_spec : ∀ {hay : List α} {i : Nat}, find needle hay = some i →
    i + needle.length ≤ hay.length ∧ needle <+: hay.drop i := by
  intro hay
  induction hay with
  | nil =>
    intro i h
    rw [find] at h
    by_cases hn : needle = []
    · rw [if_pos hn] at h
      rw [← Option.some.inj h, hn]
      exact ⟨Nat.le_refl _, List.prefix_refl _⟩
    · rw [if_neg hn] at h; exact nomatch h
  | cons c rest ih =>
    intro i h
    rw [find] at h
    by_cases hp : needle.isPrefixOf (c :: rest)
    · rw [if_pos hp] at h
      have hpre := List.isPrefixOf_iff_prefix.mp hp
      rw [← Option.some.inj h, Nat.zero_add]
      exact ⟨hpre.length_le, hpre⟩
    · rw [if_neg hp] at h
      obtain ⟨j, hj, rfl⟩ := Option.map_eq_some_iff.mp h
      obtain ⟨hlen, hpre⟩ := ih hj
      refine ⟨?_, hpre⟩
      rw [List.length_cons]
      omega

/-- What occurs is found. -/
theorem find_isSome_of_isInfix : ∀ {hay : List α}, needle <:+: hay →
    (find needle hay).isSome := by
  intro hay
  induction hay with
  | nil =>
    intro h
    rw [find, if_pos (List.eq_nil_of_infix_nil h)]
    rfl
  | cons c rest ih =>
    intro h
    rw [find]
    by_cases hp : needle.isPrefixOf (c :: rest)
    · rw [if_pos hp]; rfl
    · rw [if_neg hp, Option.isSome_map]
      rcases List.infix_cons_iff.mp h with hpre | hinf
      · exact absurd (List.isPrefixOf_iff_prefix.mpr hpre) hp
      · exact ih hinf

variable {x : α}

theorem find_eq_none_of_notMem : ∀ {hay : List α}, x ∉ hay →
    find (x :: needle) hay = none := by
  intro hay
  induction hay with
  | nil => intro _; rfl
  | cons c rest ih =>
    intro h
    rw [find, if_neg, ih (fun hx => h (List.mem_cons_of_mem _ hx))]
    · rfl
    · intro hp
      have hpre := List.isPrefixOf_iff_prefix.mp hp
      exact h (hpre.subset List.mem_cons_self)

/-! ## The positions -/

variable {hay : List α}

/-- Positions from `pos` on, each at least `len` after the one before. -/
def Spaced (len : Nat) : Nat → List Nat → Prop
  | _, [] => True
  | pos, p :: ps => pos ≤ p ∧ Spaced len (p + len) ps

variable {len : Nat}

theorem Spaced.mono {ps : List Nat} {pos pos' : Nat} (h : Spaced len pos ps) (hle : pos' ≤ pos) :
    Spaced len pos' ps := by
  cases ps with
  | nil => trivial
  | cons p ps => exact ⟨Nat.le_trans hle h.1, h.2⟩

variable {qs : List Nat}

theorem Spaced.append : ∀ {ps : List Nat} {pos mid : Nat},
    Spaced len pos ps → (∀ p ∈ ps, p + len ≤ mid) → pos ≤ mid → Spaced len mid qs →
    Spaced len pos (ps ++ qs) := by
  intro ps
  induction ps with
  | nil => intro pos mid _ _ hle hq; exact hq.mono hle
  | cons p ps ih =>
    intro pos mid hp hend _ hq
    exact ⟨hp.1, ih hp.2 (fun p' hp' => hend p' (List.mem_cons_of_mem _ hp'))
      (hend p List.mem_cons_self) hq⟩

variable {sub : List α}

theorem find_eq_zero (h : needle <+: hay) : find needle hay = some 0 := by
  cases hay with
  | nil => rw [find, if_pos (List.prefix_nil.mp h)]
  | cons c rest => rw [find, if_pos (List.isPrefixOf_iff_prefix.mpr h)]

theorem find_cons_of_not {c : α} {rest : List α} (h : ¬ needle <+: c :: rest) :
    find needle (c :: rest) = (find needle rest).map (· + 1) := by
  rw [find, if_neg (fun hp => h (List.isPrefixOf_iff_prefix.mp hp))]

/-- Nothing is found exactly where nothing occurs. -/
theorem find_eq_none_iff : ∀ {hay : List α},
    find needle hay = none ↔ ¬ needle <:+: hay := by
  intro hay
  constructor
  · intro h hinf
    have := find_isSome_of_isInfix hinf
    rw [h] at this
    exact Bool.false_ne_true this
  · intro h
    cases hf : find needle hay with
    | none => rfl
    | some i =>
      obtain ⟨-, hpre⟩ := find_spec hf
      exact absurd (hpre.isInfix.trans (List.drop_suffix i hay).isInfix) h

/-- No match starts in a text without the first element of the needle. -/
theorem find_append_of_notMem {b : List α} : ∀ {a : List α}, x ∉ a →
    find (x :: needle) (a ++ b) = (find (x :: needle) b).map (a.length + ·) := by
  intro a
  induction a with
  | nil =>
    intro _
    rw [List.nil_append]
    cases find (x :: needle) b with
    | none => rfl
    | some i => rw [Option.map_some, List.length_nil, Nat.zero_add]
  | cons c a ih =>
    intro h
    have hne : ¬ (x :: needle) <+: c :: (a ++ b) := fun hp =>
      h ((List.cons_prefix_cons.mp hp).1 ▸ List.mem_cons_self)
    rw [List.cons_append, find_cons_of_not hne, ih (fun hx => h (List.mem_cons_of_mem _ hx))]
    cases find (x :: needle) b with
    | none => rfl
    | some i =>
      rw [Option.map_some, Option.map_some, Option.map_some, List.length_cons]
      congr 1
      omega

/-- The first occurrence is found. -/
theorem find_le : ∀ {hay : List α} {i j : Nat}, find needle hay = some i →
    needle <+: hay.drop j → i ≤ j := by
  intro hay
  induction hay with
  | nil =>
    intro i j h _
    rw [find] at h
    by_cases hn : needle = []
    · rw [if_pos hn] at h
      rw [← Option.some.inj h]
      exact Nat.zero_le j
    · rw [if_neg hn] at h
      exact absurd h.symm (Option.some_ne_none i)
  | cons c rest ih =>
    intro i j h hj
    by_cases hp : needle <+: c :: rest
    · rw [find_eq_zero hp] at h
      rw [← Option.some.inj h]
      exact Nat.zero_le j
    · rw [find_cons_of_not hp] at h
      obtain ⟨k, hk, rfl⟩ := Option.map_eq_some_iff.mp h
      cases j with
      | zero => exact absurd hj hp
      | succ j => exact Nat.succ_le_succ (ih hk hj)

theorem find_eq_of_first {front tail : List α}
    (hfirst : ∀ a, a ++ needle <+: front ++ needle ++ tail → front.length ≤ a.length) :
    find needle (front ++ needle ++ tail) = some front.length := by
  have hat : needle <+: (front ++ needle ++ tail).drop front.length := by
    rw [List.append_assoc, List.drop_left]
    exact List.prefix_append needle tail
  cases hfind : find needle (front ++ needle ++ tail) with
  | none => exact absurd ⟨front, tail, rfl⟩ (find_eq_none_iff.mp hfind)
  | some i =>
    have hle := find_le hfind hat
    obtain ⟨hlen, t, ht⟩ := find_spec hfind
    have hge := hfirst ((front ++ needle ++ tail).take i)
      ⟨t, by rw [List.append_assoc, ht, List.take_append_drop]⟩
    rw [List.length_take] at hge
    congr 1
    omega

omit [DecidableEq α] in
/-- A place is not in a text without the first element of the needle. -/
theorem length_le_of_notMem {rest : List α} : ∀ {front a : List α}, x ∉ front →
    a ++ x :: needle <+: front ++ rest → front.length ≤ a.length := by
  intro front
  induction front with
  | nil => intro a _ _; exact Nat.zero_le _
  | cons c front ih =>
    intro a hx hp
    cases a with
    | nil =>
      obtain ⟨rfl, -⟩ := List.cons_prefix_cons.mp hp
      exact absurd List.mem_cons_self hx
    | cons d a =>
      obtain ⟨-, hp⟩ := List.cons_prefix_cons.mp hp
      exact Nat.succ_le_succ (ih (fun h => hx (List.mem_cons_of_mem c h)) hp)

/-! ## A needle that occurs once -/

/-- The needle starts at exactly one place, where overlapping places count as several. -/
def OccursOnce (needle hay : List α) : Prop := ∃! i, needle <+: hay.drop i

/-- The only occurrence is found. -/
theorem find_of_once {i : Nat} (h : OccursOnce needle hay) (hi : needle <+: hay.drop i) :
    find needle hay = some i := by
  cases hfind : find needle hay with
  | none =>
    exact absurd (hi.isInfix.trans (List.drop_suffix i hay).isInfix) (find_eq_none_iff.mp hfind)
  | some j => rw [h.unique (find_spec hfind).2 hi]

theorem positions_eq_nil (h : ¬ needle <:+: hay) :
    positions needle hay = [] := by
  rw [positions]
  split_ifs
  · rfl
  · cases hay with
    | nil => rfl
    | cons c hay => rw [List.length_cons, positionsFrom, find_eq_none_iff.mpr h]

/-! ## The positions one by one -/

/-- The positions depend on where the text starts by a shift, and not on the fuel. -/
theorem positionsFrom_shift (hne : needle ≠ []) : ∀ (fuel fuel' pos pos' : Nat) (hay : List α),
    hay.length ≤ fuel → hay.length ≤ fuel' →
    positionsFrom needle fuel (pos + pos') hay
      = (positionsFrom needle fuel' pos' hay).map (pos + ·) := by
  have hstuck : ∀ pos, ∀ fuel, positionsFrom needle fuel pos [] = [] := by
    intro pos fuel
    cases fuel with
    | zero => rfl
    | succ fuel => rw [positionsFrom, find, if_neg hne]
  intro fuel
  induction fuel with
  | zero =>
    intro fuel' pos pos' hay hfuel _
    rw [List.eq_nil_of_length_eq_zero (Nat.le_zero.mp hfuel), hstuck, hstuck, List.map_nil]
  | succ fuel ih =>
    intro fuel' pos pos' hay hfuel hfuel'
    cases fuel' with
    | zero =>
      rw [List.eq_nil_of_length_eq_zero (Nat.le_zero.mp hfuel'), hstuck, hstuck, List.map_nil]
    | succ fuel' =>
      rw [positionsFrom, positionsFrom]
      cases hf : find needle hay with
      | none => rfl
      | some i =>
        have hpos : 0 < needle.length := List.length_pos_iff.mpr hne
        have hlen : (hay.drop (i + needle.length)).length + 1 ≤ hay.length := by
          have := (find_spec hf).1
          rw [List.length_drop]
          omega
        dsimp only
        rw [List.map_cons, ← ih fuel' pos _ _ (by omega) (by omega)]
        congr 1
        · omega
        · congr 1
          omega

theorem positions_eq (hne : needle ≠ []) (hay : List α) :
    positions needle hay = positionsFrom needle hay.length 0 hay :=
  if_neg hne

/-- The first position, and those behind it. -/
theorem positions_of_find {i : Nat} (hne : needle ≠ []) (h : find needle hay = some i) :
    positions needle hay
      = i :: (positions needle (hay.drop (i + needle.length))).map (i + needle.length + ·) := by
  have hpos : 0 < needle.length := List.length_pos_iff.mpr hne
  have hlen := (find_spec h).1
  obtain ⟨fuel, hfuel⟩ : ∃ fuel, hay.length = fuel + 1 := Nat.exists_eq_add_of_le' (by omega)
  rw [positions_eq hne, positions_eq hne, hfuel, positionsFrom, h]
  dsimp only
  rw [← positionsFrom_shift hne fuel _ _ _ _ (by rw [List.length_drop]; omega) (Nat.le_refl _),
    Nat.zero_add]
  rfl

/-- The only occurrence is the only position. -/
theorem positions_of_once {i : Nat} (hne : needle ≠ []) (h : OccursOnce needle hay)
    (hi : needle <+: hay.drop i) : positions needle hay = [i] := by
  have hpos : 0 < needle.length := List.length_pos_iff.mpr hne
  have hstop : positions needle (hay.drop (i + needle.length)) = [] := by
    refine positions_eq_nil (find_eq_none_iff.mp ?_)
    cases hnext : find needle (hay.drop (i + needle.length)) with
    | none => rfl
    | some j =>
      have hagain := (find_spec hnext).2
      rw [List.drop_drop] at hagain
      have heq := h.unique hagain hi
      omega
  rw [positions_of_find hne (find_of_once h hi), hstop, List.map_nil]

end Substring
