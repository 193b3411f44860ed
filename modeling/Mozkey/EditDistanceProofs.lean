import Mathlib

/-! # Edit distances — optimal string alignment

    The textbook recursion over the first characters of two lists: a character is inserted,
    deleted or substituted, or two adjacent ones are transposed.  A transposition reaches two
    rows back, and still no row has a smaller minimum than the row before it, since a
    substitution is as cheap as the transposition. -/

namespace EditDistance

variable {α : Type} [DecidableEq α] (a b : List α)

/-- The distance of the first `i` characters of a list from the first `j` ones of another. -/
def osa : Nat → Nat → Nat
  | 0, j => j
  | i + 1, 0 => i + 1
  | i + 1, j + 1 =>
    let edited := min (min (osa i (j + 1) + 1) (osa (i + 1) j + 1))
      (osa i j + if a[i]? = b[j]? then 0 else 1)
    if 0 < i ∧ 0 < j ∧ a[i]? = b[j - 1]? ∧ a[i - 1]? = b[j]? then
      min edited (osa (i - 1) (j - 1) + 1)
    else edited
termination_by i j => i + j

/-- The optimal-string-alignment distance. -/
def osaDistance : Nat := osa a b a.length b.length

@[simp] theorem osa_zero_left (j : Nat) : osa a b 0 j = j := by rw [osa]

@[simp] theorem osa_zero_right (i : Nat) : osa a b i 0 = i := by
  cases i <;> rw [osa]

theorem osa_substitute_le (i j : Nat) : osa a b (i + 1) (j + 1) ≤ osa a b i j + 1 := by
  rw [osa]
  split <;> split <;> omega

/-- What the distance comes from: a deletion, an insertion, a character that is kept or
    substituted, or two that are transposed. -/
theorem osa_cases (i j : Nat) :
    osa a b (i + 1) (j + 1) = osa a b i (j + 1) + 1 ∨
    osa a b (i + 1) (j + 1) = osa a b (i + 1) j + 1 ∨
    osa a b i j ≤ osa a b (i + 1) (j + 1) ∨
    ∃ i' j', i = i' + 1 ∧ j = j' + 1 ∧ osa a b (i + 1) (j + 1) = osa a b i' j' + 1 := by
  have hedited : ∀ d, d = min (min (osa a b i (j + 1) + 1) (osa a b (i + 1) j + 1))
      (osa a b i j + if a[i]? = b[j]? then 0 else 1) →
      d = osa a b i (j + 1) + 1 ∨ d = osa a b (i + 1) j + 1 ∨ osa a b i j ≤ d := by
    intro d hd
    split at hd <;> omega
  obtain ⟨d, hd⟩ : ∃ d, d = min (min (osa a b i (j + 1) + 1) (osa a b (i + 1) j + 1))
      (osa a b i j + if a[i]? = b[j]? then 0 else 1) := ⟨_, rfl⟩
  have hrec := osa.eq_3 a b i j
  rw [← hd] at hrec
  have hcases := hedited d hd
  by_cases htransposed : 0 < i ∧ 0 < j ∧ a[i]? = b[j - 1]? ∧ a[i - 1]? = b[j]?
  · rw [if_pos htransposed] at hrec
    by_cases hle : d ≤ osa a b (i - 1) (j - 1) + 1
    · rw [Nat.min_eq_left hle] at hrec
      rw [hrec]
      omega
    · rw [Nat.min_eq_right (by omega)] at hrec
      exact Or.inr (Or.inr (Or.inr ⟨i - 1, j - 1, by omega, by omega, hrec⟩))
  · rw [if_neg htransposed] at hrec
    rw [hrec]
    omega

/-- **THE LENGTHS DIFFER** by the distance at most. -/
theorem le_add_osa (i j : Nat) : i ≤ osa a b i j + j ∧ j ≤ osa a b i j + i := by
  induction hn : i + j using Nat.strong_induction_on generalizing i j with
  | _ n ih =>
    cases i with
    | zero => simp
    | succ i =>
      cases j with
      | zero => simp
      | succ j =>
        have hdelete := ih (i + (j + 1)) (by omega) i (j + 1) rfl
        have hinsert := ih (i + 1 + j) (by omega) (i + 1) j rfl
        have hkeep := ih (i + j) (by omega) i j rfl
        rcases osa_cases a b i j with h | h | h | ⟨i', j', rfl, rfl, h⟩
        · omega
        · omega
        · omega
        · have htranspose := ih (i' + j') (by omega) i' j' rfl
          omega

theorem exists_le_row (i j : Nat) : ∃ k ≤ j, osa a b i k ≤ osa a b (i + 1) j := by
  induction j with
  | zero => exact ⟨0, le_rfl, by simp⟩
  | succ j ih =>
    rcases osa_cases a b i j with h | h | h | ⟨i', j', rfl, rfl, h⟩
    · exact ⟨j + 1, le_rfl, by omega⟩
    · obtain ⟨k, hk, hle⟩ := ih
      exact ⟨k, by omega, by omega⟩
    · exact ⟨j, by omega, h⟩
    · -- the characters could be substituted instead, in the row between
      have hsubstitute := osa_substitute_le a b i' j'
      exact ⟨j' + 1, by omega, by omega⟩

/-- **NO LATER ROW** goes below the minimum of a row. -/
theorem exists_le_rows {i i' : Nat} (h : i ≤ i') : ∀ j, ∃ k ≤ j, osa a b i k ≤ osa a b i' j := by
  induction h with
  | refl => exact fun j => ⟨j, le_rfl, le_rfl⟩
  | @step i' _ ih =>
    intro j
    obtain ⟨k, hk, hle⟩ := exists_le_row a b i' j
    obtain ⟨k', hk', hle'⟩ := ih k
    exact ⟨k', hk'.trans hk, hle'.trans hle⟩

end EditDistance
