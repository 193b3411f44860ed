import Mathlib

/-! # Rank and select on bit lists

    `rank b bits n` counts the bits `b` before position `n`; `IsSelect b bits n p` says
    that `p` is the position of the `n`-th bit `b`, counted from one. -/

namespace RankSelect

/-- The number of bits `b` before position `n`. -/
def rank (b : Bool) (bits : List Bool) (n : Nat) : Nat := (bits.take n).count b

/-- `p` is the position of the `n`-th bit `b`. -/
def IsSelect (b : Bool) (bits : List Bool) (n p : Nat) : Prop :=
  bits[p]? = some b ∧ rank b bits p + 1 = n

variable {b : Bool} {bits : List Bool}

variable {n : Nat}

theorem rank_of_length_le (h : bits.length ≤ n) : rank b bits n = bits.count b := by
  rw [rank, List.take_of_length_le h]

/-- The rank counts a front and what is behind it. -/
theorem rank_add (m n : Nat) : rank b bits (m + n) = rank b bits m + rank b (bits.drop m) n := by
  rw [rank, List.take_add, List.count_append]
  rfl

variable {m : Nat}

/-- Ranks increase. -/
theorem rank_mono (h : m ≤ n) : rank b bits m ≤ rank b bits n := by
  obtain ⟨k, rfl⟩ := Nat.exists_eq_add_of_le h
  rw [rank_add]
  exact Nat.le_add_right _ _

theorem rank_le_count (n : Nat) : rank b bits n ≤ bits.count b :=
  (List.take_sublist n bits).count_le b

theorem rank_le_length (b : Bool) (bits : List Bool) (n : Nat) : rank b bits n ≤ bits.length :=
  (rank_le_count n).trans List.count_le_length

theorem rank_le (b : Bool) (bits : List Bool) (n : Nat) : rank b bits n ≤ n := by
  rw [rank]
  exact List.count_le_length.trans (List.length_take_le n bits)

theorem rank_append_left {rest : List Bool} (h : n ≤ bits.length) :
    rank b (bits ++ rest) n = rank b bits n := by
  rw [rank, List.take_append_of_le_length h, rank]

/-- One more bit. -/
theorem rank_succ {c : Bool} (h : bits[n]? = some c) :
    rank b bits (n + 1) = rank b bits n + if c = b then 1 else 0 := by
  rw [rank_add, rank, rank, List.take_one, List.head?_drop, h, Option.toList_some,
    List.count_singleton]
  by_cases hc : c = b
  · rw [if_pos hc, if_pos (by rw [hc]; exact beq_self_eq_true b)]
  · rw [if_neg hc, beq_eq_false_iff_ne.mpr hc]
    rfl

/-- The two ranks of a position add up to it. -/
theorem rank_not (h : n ≤ bits.length) : rank b bits n + rank (!b) bits n = n := by
  have := List.count_add_count_not (bits.take n) b
  rw [List.length_take, Nat.min_eq_left h] at this
  exact this

variable {p q : Nat}

theorem rank_lt_of_lt (hp : bits[p]? = some b) (h : p < q) :
    rank b bits p < rank b bits q := by
  have h1 := rank_succ (b := b) hp
  rw [if_pos rfl] at h1
  have h2 : rank b bits (p + 1) ≤ rank b bits q := rank_mono h
  omega

/-- A bit has one position. -/
theorem IsSelect.unique (hp : IsSelect b bits n p) (hq : IsSelect b bits n q) :
    p = q := by
  have hr : rank b bits p = rank b bits q := by have := hp.2; have := hq.2; omega
  rcases Nat.lt_trichotomy p q with hlt | heq | hgt
  · have := rank_lt_of_lt hp.1 hlt
    omega
  · exact heq
  · have := rank_lt_of_lt hq.1 hgt
    omega

theorem IsSelect.lt_length (h : IsSelect b bits n p) : p < bits.length :=
  (List.getElem?_eq_some_iff.mp h.1).1

theorem IsSelect.pos (h : IsSelect b bits n p) : 0 < n := by
  have := h.2
  omega

/-- The rank in front of a selected bit. -/
theorem IsSelect.rank_eq (h : IsSelect b bits n p) : rank b bits p = n - 1 := by
  have := h.2
  omega

/-- The rank behind a selected bit. -/
theorem IsSelect.rank_succ (h : IsSelect b bits n p) : rank b bits (p + 1) = n := by
  rw [RankSelect.rank_succ h.1, if_pos rfl, h.2]

theorem IsSelect.le_count (h : IsSelect b bits n p) : n ≤ bits.count b := by
  rw [← h.rank_succ]
  exact rank_le_count _

/-- Every bit that is there can be selected. -/
theorem exists_isSelect : ∀ {bits : List Bool} {n : Nat}, 0 < n → n ≤ bits.count b →
    ∃ p, IsSelect b bits n p := by
  intro bits
  induction bits with
  | nil =>
    intro n hpos hle
    rw [List.count_nil] at hle
    omega
  | cons c rest ih =>
    intro n hpos hle
    rw [List.count_cons] at hle
    by_cases hc : c = b
    · by_cases hn : n = 1
      · exact ⟨0, by rw [hc]; rfl, by rw [hn]; rfl⟩
      · obtain ⟨p, hget, hrank⟩ := ih (n := n - 1) (by omega) (by
          rw [if_pos (by rw [hc]; exact beq_self_eq_true b)] at hle
          omega)
        refine ⟨p + 1, hget, ?_⟩
        rw [rank, List.take_succ_cons, List.count_cons,
          if_pos (by rw [hc]; exact beq_self_eq_true b)]
        rw [rank] at hrank
        omega
    · have hcb : (c == b) = false := beq_eq_false_iff_ne.mpr hc
      obtain ⟨p, hget, hrank⟩ := ih (n := n) hpos (by rw [hcb] at hle; exact hle)
      refine ⟨p + 1, hget, ?_⟩
      rw [rank, List.take_succ_cons, List.count_cons, hcb]
      exact hrank

/-- **A SEARCH MAY START LATER**: behind `m` the `n`-th position is the one of the
    remaining rank. -/
theorem isSelect_of_drop (hm : rank b bits m < n)
    (h : IsSelect b (bits.drop m) (n - rank b bits m) q) : IsSelect b bits n (m + q) := by
  obtain ⟨hget, hrank⟩ := h
  refine ⟨?_, ?_⟩
  · rw [List.getElem?_drop] at hget
    exact hget
  · rw [rank_add]
    omega

theorem isSelect_of_take (h : IsSelect b (bits.take m) n q) :
    IsSelect b bits n q := by
  have hlt := h.lt_length
  rw [List.length_take] at hlt
  obtain ⟨hget, hrank⟩ := h
  refine ⟨?_, ?_⟩
  · rw [List.getElem?_take_of_lt (by omega)] at hget
    exact hget
  · rw [rank, List.take_take, Nat.min_eq_left (by omega)] at hrank
    exact hrank

/-- What is behind does not matter. -/
theorem IsSelect.append (h : IsSelect b bits n p) (rest : List Bool) :
    IsSelect b (bits ++ rest) n p := by
  refine ⟨?_, ?_⟩
  · rw [List.getElem?_append_left h.lt_length]
    exact h.1
  · rw [rank_append_left (Nat.le_of_lt h.lt_length)]
    exact h.2

theorem isSelect_map_not (h : IsSelect b (bits.map (!·)) n p) :
    IsSelect (!b) bits n p := by
  obtain ⟨hget, hrank⟩ := h
  refine ⟨?_, ?_⟩
  · rw [List.getElem?_map] at hget
    obtain ⟨c, hc, hcb⟩ := Option.map_eq_some_iff.mp hget
    rw [hc, ← hcb, Bool.not_not]
  · rw [rank, ← List.map_take] at hrank
    rw [rank, ← hrank]
    have := List.count_map_of_injective (bits.take p) (!·) (fun a c h => by simpa using h) (!b)
    rw [Bool.not_not] at this
    rw [this]

end RankSelect
