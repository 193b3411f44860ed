import Mozkey.ByteStringProofs

/-! # UserHistoryPredictor — matching of mistyped romaji

    A typed romaji text matches a stored one if one edit makes it a prefix of it: a character is
    put in, two neighbours are swapped, or a sign is read as the prolonged sound mark.  The edits
    are tried where the two texts first differ, and nowhere else. -/

namespace MozkeyRomanFuzzy

open ByteString

/-! ## The match -/

/-- `isalnum`, in the locale of the program. -/
def isAlnum (c : UInt8) : Bool :=
  (chr '0' ≤ c && c ≤ chr '9') || (chr 'A' ≤ c && c ≤ chr 'Z') || (chr 'a' ≤ c && c ≤ chr 'z')

/-- `std::swap` of the characters at an index and behind it. -/
def swapNext (pre : Bytes) (i : Nat) : Bytes :=
  (pre.set i (pre.getD (i + 1) 0)).set (i + 1) (pre.getD i 0)

/-- The edits at the index of a mismatch. -/
def editAt (str pre : Bytes) (i : Nat) : Bool :=
  let c := str.getD i 0
  if c = chr '-' then !isAlnum (pre.getD i 0) && (pre.set i c).isPrefixOf str
  else (pre.insertIdx i c).isPrefixOf str ||
    decide (i + 1 < pre.length) && (swapNext pre i).isPrefixOf str

/-- The loop of `RomanFuzzyPrefixMatch`, of the indices that are left. -/
def romanFuzzyLoop (str pre : Bytes) : List Nat → Bool
  | [] => false
  | i :: rest =>
    if pre.getD i 0 = str.getD i 0 then romanFuzzyLoop str pre rest else editAt str pre i

/-- `RomanFuzzyPrefixMatch`. -/
def romanFuzzyPrefixMatch (str pre : Bytes) : Bool :=
  if pre = [] ∨ str.length < pre.length then false
  else romanFuzzyLoop str pre (List.range pre.length)

/-! ## The edits -/

/-- A character is put in, but the prolonged sound mark. -/
def Inserted (str pre : Bytes) : Prop :=
  ∃ a b c, pre = a ++ b ∧ c ≠ chr '-' ∧ a ++ c :: b <+: str

/-- Two neighbours are swapped, and the one in front is not the prolonged sound mark. -/
def Swapped (str pre : Bytes) : Prop :=
  ∃ a u v b, pre = a ++ u :: v :: b ∧ v ≠ chr '-' ∧ a ++ v :: u :: b <+: str

/-- A sign is read as the prolonged sound mark. -/
def Replaced (str pre : Bytes) : Prop :=
  ∃ a u b, pre = a ++ u :: b ∧ isAlnum u = false ∧ a ++ chr '-' :: b <+: str

section

variable {α : Type} {x y c u v : α} {a b common p s : List α}

theorem not_isPrefix_of_ne (hne : x ≠ y) : ¬ common ++ x :: p <+: common ++ y :: s := by
  rw [List.prefix_append_right_inj, List.cons_prefix_cons]
  exact fun h => hne h.1

/-- What is changed in a text so that it becomes a prefix stands at the first difference, or in
    what is common. -/
theorem change_place {w w' : List α} (hne : x ≠ y) (hsplit : a ++ w = common ++ x :: p)
    (h : a ++ w' <+: common ++ y :: s) :
    ∃ rest, w = rest ++ x :: p ∧ w' <+: rest ++ y :: s := by
  rcases List.append_eq_append_iff.mp hsplit with ⟨rest, rfl, hw⟩ | ⟨rest, rfl, hx⟩
  · rw [List.append_assoc, List.prefix_append_right_inj] at h
    exact ⟨rest, hw, h⟩
  · cases rest with
    | nil =>
      rw [List.append_nil, List.prefix_append_right_inj] at h
      exact ⟨[], hx.symm, h⟩
    | cons r rest =>
      obtain ⟨rfl, rfl⟩ := List.cons.inj hx
      rw [List.append_assoc] at h
      exact absurd h (not_isPrefix_of_ne hne)

/-- What is put in anywhere may be put in at the first difference. -/
theorem insert_first (hne : x ≠ y) (hsplit : a ++ b = common ++ x :: p)
    (h : a ++ c :: b <+: common ++ y :: s) : c = y ∧ x :: p <+: s := by
  obtain ⟨rest, rfl, hrest⟩ := change_place hne hsplit h
  clear hsplit h
  induction rest generalizing c with
  | nil => exact List.cons_prefix_cons.mp hrest
  | cons d rest ih =>
    -- a run of equal characters: the one that is put in moves over it
    obtain ⟨rfl, hrest⟩ := List.cons_prefix_cons.mp hrest
    exact ih hrest

theorem swap_first (hne : x ≠ y) (hsplit : a ++ u :: v :: b = common ++ x :: p)
    (h : a ++ v :: u :: b <+: common ++ y :: s) : v = y ∧ p = v :: b ∧ x :: b <+: s := by
  obtain ⟨rest, hw, h⟩ := change_place hne hsplit h
  cases rest with
  | nil =>
    obtain ⟨rfl, rfl⟩ := List.cons.inj hw
    obtain ⟨hv, h⟩ := List.cons_prefix_cons.mp h
    exact ⟨hv, rfl, h⟩
  | cons d rest =>
    -- the two neighbours are equal, and nothing changes
    obtain ⟨rfl, hp⟩ := List.cons.inj hw
    obtain ⟨rfl, h⟩ := List.cons_prefix_cons.mp h
    rw [show v :: b = rest ++ x :: p from hp] at h
    exact absurd h (not_isPrefix_of_ne hne)

/-- An edit elsewhere is one at that place. -/
theorem replace_first (hne : x ≠ y) (hsplit : a ++ u :: b = common ++ x :: p)
    (h : a ++ c :: b <+: common ++ y :: s) : u = x ∧ c = y ∧ p <+: s := by
  obtain ⟨rest, hw, h⟩ := change_place hne hsplit h
  cases rest with
  | nil =>
    obtain ⟨rfl, rfl⟩ := List.cons.inj hw
    exact ⟨rfl, List.cons_prefix_cons.mp h⟩
  | cons d rest =>
    obtain ⟨rfl, rfl⟩ := List.cons.inj hw
    exact absurd (List.cons_prefix_cons.mp h).2 (not_isPrefix_of_ne hne)

theorem insertIdx_length (common rest : List α) (y : α) :
    (common ++ rest).insertIdx common.length y = common ++ y :: rest := by
  induction common with
  | nil => rfl
  | cons c common ih =>
    rw [List.cons_append, List.length_cons, List.insertIdx_succ_cons, ih, List.cons_append]

/-- Two texts differ at a first place, or the one that is not longer is a prefix. -/
theorem exists_first_difference [DecidableEq α] : ∀ {pre str : List α},
    pre.length ≤ str.length → pre <+: str ∨
      ∃ common x y p s, x ≠ y ∧ pre = common ++ x :: p ∧ str = common ++ y :: s
  | [], _, _ => .inl List.nil_prefix
  | x :: p, [], h => by simp at h
  | x :: p, y :: s, h => by
    by_cases hxy : x = y
    · obtain hprefix | ⟨common, x', y', p', s', hne, rfl, rfl⟩ :=
        exists_first_difference (Nat.le_of_succ_le_succ h)
      · exact .inl (List.cons_prefix_cons.mpr ⟨hxy, hprefix⟩)
      · exact .inr ⟨x :: common, x', y', p', s', hne, rfl, by rw [hxy, List.cons_append]⟩
    · exact .inr ⟨[], x, y, p, s, hxy, rfl, rfl⟩

end

/-! ## The loop -/

variable {str pre common p s : Bytes} {x y : UInt8}

theorem romanFuzzyLoop_skip {indices : List Nat} (rest : List Nat)
    (h : ∀ i ∈ indices, pre.getD i 0 = str.getD i 0) :
    romanFuzzyLoop str pre (indices ++ rest) = romanFuzzyLoop str pre rest := by
  induction indices with
  | nil => rfl
  | cons i indices ih =>
    rw [List.forall_mem_cons] at h
    rw [List.cons_append, romanFuzzyLoop, if_pos h.1, ih h.2]

theorem romanFuzzyLoop_of_begins (h : pre <+: str) :
    romanFuzzyLoop str pre (List.range pre.length) = false := by
  obtain ⟨rest, rfl⟩ := h
  rw [← List.append_nil (List.range pre.length), romanFuzzyLoop_skip]
  · rfl
  · intro i hi
    rw [List.getD_append _ _ _ _ (List.mem_range.mp hi)]

theorem romanFuzzyLoop_difference (hne : x ≠ y) :
    romanFuzzyLoop (common ++ y :: s) (common ++ x :: p)
        (List.range (common ++ x :: p).length) =
      editAt (common ++ y :: s) (common ++ x :: p) common.length := by
  have hrange : List.range (common ++ x :: p).length =
      List.range common.length ++ common.length ::
        (List.range p.length).map (common.length + 1 + ·) := by
    rw [List.length_append, List.length_cons, ← Nat.add_assoc, Nat.add_right_comm,
      List.range_add, List.range_succ, List.append_assoc]
    rfl
  rw [hrange, romanFuzzyLoop_skip, romanFuzzyLoop, if_neg]
  · rw [List.getD_append_right _ _ _ _ le_rfl, List.getD_append_right _ _ _ _ le_rfl, Nat.sub_self]
    exact hne
  · intro i hi
    rw [List.getD_append _ _ _ _ (List.mem_range.mp hi),
      List.getD_append _ _ _ _ (List.mem_range.mp hi)]

theorem editAt_iff :
    editAt (common ++ y :: s) (common ++ x :: p) common.length = true ↔
      if y = chr '-' then isAlnum x = false ∧ p <+: s
      else x :: p <+: s ∨ ∃ b, p = y :: b ∧ x :: b <+: s := by
  have hy : (common ++ y :: s).getD common.length 0 = y := by simp
  have hx : (common ++ x :: p).getD common.length 0 = x := by simp
  simp only [editAt, hy, hx]
  split_ifs with hmark
  · rw [Bool.and_eq_true, Bool.not_eq_true', List.isPrefixOf_iff_prefix,
      List.set_append_right _ _ le_rfl, Nat.sub_self, List.set_cons_zero,
      List.prefix_append_right_inj, List.cons_prefix_cons]
    simp
  · have hinsert : (common ++ x :: p).insertIdx common.length y = common ++ y :: x :: p :=
      insertIdx_length _ _ _
    rw [Bool.or_eq_true, Bool.and_eq_true, List.isPrefixOf_iff_prefix,
      List.isPrefixOf_iff_prefix, decide_eq_true_eq, hinsert, List.prefix_append_right_inj,
      List.cons_prefix_cons, and_iff_right rfl]
    refine or_congr_right ?_
    cases p with
    | nil => simp
    | cons z p =>
      have hswap : swapNext (common ++ x :: z :: p) common.length = common ++ z :: x :: p := by
        simp [swapNext]
      rw [hswap, List.prefix_append_right_inj, List.cons_prefix_cons]
      simp only [List.length_append, List.length_cons, List.cons.injEq]
      constructor
      · rintro ⟨-, rfl, h⟩
        exact ⟨p, ⟨rfl, rfl⟩, h⟩
      · rintro ⟨_, ⟨rfl, rfl⟩, h⟩
        exact ⟨by omega, rfl, h⟩

theorem edits_iff (hne : x ≠ y) :
    Inserted (common ++ y :: s) (common ++ x :: p) ∨ Swapped (common ++ y :: s) (common ++ x :: p) ∨
        Replaced (common ++ y :: s) (common ++ x :: p) ↔
      if y = chr '-' then isAlnum x = false ∧ p <+: s
      else x :: p <+: s ∨ ∃ b, p = y :: b ∧ x :: b <+: s := by
  constructor
  · rintro (⟨a, b, c, hsplit, hc, h⟩ | ⟨a, u, v, b, hsplit, hv, h⟩ | ⟨a, u, b, hsplit, hu, h⟩)
    · obtain ⟨rfl, hrest⟩ := insert_first hne hsplit.symm h
      rw [if_neg hc]
      exact .inl hrest
    · obtain ⟨rfl, hp, hrest⟩ := swap_first hne hsplit.symm h
      rw [if_neg hv]
      exact .inr ⟨b, hp, hrest⟩
    · obtain ⟨rfl, hmark, hrest⟩ := replace_first hne hsplit.symm h
      rw [if_pos hmark.symm]
      exact ⟨hu, hrest⟩
  · split_ifs with hmark
    · rintro ⟨hx, hrest⟩
      refine .inr (.inr ⟨common, x, p, rfl, hx, ?_⟩)
      rw [List.prefix_append_right_inj, List.cons_prefix_cons]
      exact ⟨hmark.symm, hrest⟩
    · rintro (hrest | ⟨b, rfl, hrest⟩)
      · refine .inl ⟨common, x :: p, y, rfl, hmark, ?_⟩
        rw [List.prefix_append_right_inj, List.cons_prefix_cons]
        exact ⟨rfl, hrest⟩
      · refine .inr (.inl ⟨common, x, y, b, rfl, hmark, ?_⟩)
        rw [List.prefix_append_right_inj, List.cons_prefix_cons]
        exact ⟨rfl, hrest⟩

/-- **HEADLINE**: a text matches just where it is not empty, not longer and not a prefix, and
    becomes a prefix by one of the edits anywhere. -/
theorem romanFuzzyPrefixMatch_iff (str pre : Bytes) :
    romanFuzzyPrefixMatch str pre = true ↔
      pre ≠ [] ∧ pre.length ≤ str.length ∧ ¬ pre <+: str ∧
        (Inserted str pre ∨ Swapped str pre ∨ Replaced str pre) := by
  rw [romanFuzzyPrefixMatch]
  split_ifs with h
  · refine iff_of_false id ?_
    rintro ⟨hne, hlen, -⟩
    exact h.elim hne (not_lt.mpr hlen)
  · rw [not_or, not_lt] at h
    obtain hprefix | ⟨common, x, y, p, s, hne, rfl, rfl⟩ := exists_first_difference h.2
    · rw [romanFuzzyLoop_of_begins hprefix]
      exact iff_of_false Bool.false_ne_true fun hmatch => hmatch.2.2.1 hprefix
    · rw [romanFuzzyLoop_difference hne, editAt_iff, ← edits_iff hne]
      exact ⟨fun hedit => ⟨h.1, h.2, not_isPrefix_of_ne hne, hedit⟩, fun hmatch => hmatch.2.2.2⟩

end MozkeyRomanFuzzy
