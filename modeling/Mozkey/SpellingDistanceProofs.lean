import Mozkey.ByteStringProofs
import Mozkey.EditDistanceProofs

/-! # Spelling — the bounded distance of two words

    `BoundedDamerauLevenshtein` keeps three rows of the table of distances and rotates them by
    swaps.  It gives up when the lengths differ by more than the bound, or when a whole row is
    above it. -/

namespace MozkeyRewriter

open ByteString EditDistance

/-! ## The table -/

/-- The longest words that are compared. -/
def kMaxEnglishWordLength : Nat := 40

/-- A row of the table. -/
abbrev Row := List Int

/-- A row of zeros. -/
def zeroRow : Row := List.replicate (kMaxEnglishWordLength + 1) 0

/-- What the loop over the columns assigns to `current[j]`. -/
def cell (source target : Bytes) (previousPrevious previous current : Row) (i j : Nat) : Int :=
  let substitutionCost : Int := if source.getD (i - 1) 0 = target.getD (j - 1) 0 then 0 else 1
  let edited := min (min (previous.getD j 0 + 1) (current.getD (j - 1) 0 + 1))
    (previous.getD (j - 1) 0 + substitutionCost)
  if 1 < i ∧ 1 < j ∧ source.getD (i - 1) 0 = target.getD (j - 2) 0 ∧
      source.getD (i - 2) 0 = target.getD (j - 1) 0 then
    min edited (previousPrevious.getD (j - 2) 0 + 1)
  else edited

/-- The loop over the columns from `j` on: the row, and its minimum. -/
def rowLoop (source target : Bytes) (previousPrevious previous : Row) (i : Nat) :
    Nat → Nat → Row → Int → Row × Int
  | 0, _, current, rowMin => (current, rowMin)
  | count + 1, j, current, rowMin =>
    let value := cell source target previousPrevious previous current i j
    rowLoop source target previousPrevious previous i count (j + 1) (current.set j value)
      (min rowMin value)

/-- The loop over the rows from `i` on, with the swaps at its end. -/
def rowsLoop (source target : Bytes) (maxDistance : Int) : Nat → Nat → Row → Row → Row → Int
  | 0, _, _, previous, _ => previous.getD target.length 0
  | count + 1, i, previousPrevious, previous, current =>
    let (filled, rowMin) :=
      rowLoop source target previousPrevious previous i target.length 1 (current.set 0 i) i
    if maxDistance < rowMin then maxDistance + 1
    else rowsLoop source target maxDistance count (i + 1) previous filled previousPrevious

/-- The distances from the empty word. -/
def firstRow (target : Bytes) : Row :=
  (List.range (target.length + 1)).foldl (fun row j => row.set j j) zeroRow

/-- `BoundedDamerauLevenshtein`. -/
def boundedDamerauLevenshtein (source target : Bytes) (maxDistance : Int) : Int :=
  if maxDistance < |(source.length : Int) - target.length| then maxDistance + 1
  else if kMaxEnglishWordLength < source.length ∨ kMaxEnglishWordLength < target.length then
    maxDistance + 1
  else rowsLoop source target maxDistance source.length 1 zeroRow (firstRow target) zeroRow

/-! ## The rows -/

variable {source target : Bytes}

/-- A row of the distances of the first `i` characters of the source, up to a column. -/
structure Filled (source target : Bytes) (i columns : Nat) (row : Row) : Prop where
  length : row.length = kMaxEnglishWordLength + 1
  value : ∀ j ≤ columns, row.getD j 0 = osa source target i j

theorem getD_set {row : Row} {j : Nat} (hj : j < row.length) (v : Int) (k : Nat) :
    (row.set j v).getD k 0 = if j = k then v else row.getD k 0 := by
  rw [List.getD_eq_getElem?_getD, List.getElem?_set, List.getD_eq_getElem?_getD]
  by_cases hk : j = k
  · rw [if_pos hk, if_pos hk, if_pos hj]
    rfl
  · rw [if_neg hk, if_neg hk]

theorem Filled.set {i columns : Nat} {row : Row} (h : Filled source target i columns row)
    (hcolumns : columns < kMaxEnglishWordLength) {v : Int}
    (hv : v = osa source target i (columns + 1)) :
    Filled source target i (columns + 1) (row.set (columns + 1) v) := by
  have hlt : columns + 1 < row.length := by
    rw [h.length]
    omega
  refine ⟨by rw [List.length_set, h.length], ?_⟩
  intro j hj
  rw [getD_set hlt]
  by_cases hlast : columns + 1 = j
  · rw [if_pos hlast, hv, hlast]
  · rw [if_neg hlast, h.value j (by omega)]

theorem getD_eq_iff {i j : Nat} (hi : i < source.length) (hj : j < target.length) :
    source.getD i 0 = target.getD j 0 ↔ source[i]? = target[j]? := by
  rw [List.getD_eq_getElem _ _ hi, List.getD_eq_getElem _ _ hj, List.getElem?_eq_getElem hi,
    List.getElem?_eq_getElem hj, Option.some.injEq]

/-- **A CELL** is the distance, if the cells that it is made of are. -/
theorem cell_spec {i j : Nat} (hi : i < source.length) (hj : j < target.length)
    {previousPrevious previous current : Row}
    (hpp : 0 < i → Filled source target (i - 1) target.length previousPrevious)
    (hp : Filled source target i target.length previous)
    (hc : Filled source target (i + 1) j current) :
    cell source target previousPrevious previous current (i + 1) (j + 1)
      = osa source target (i + 1) (j + 1) := by
  have htransposed : (1 < i + 1 ∧ 1 < j + 1 ∧
      source.getD (i + 1 - 1) 0 = target.getD (j + 1 - 2) 0 ∧
        source.getD (i + 1 - 2) 0 = target.getD (j + 1 - 1) 0) ↔
      0 < i ∧ 0 < j ∧ source[i]? = target[j - 1]? ∧ source[i - 1]? = target[j]? := by
    rw [show i + 1 - 2 = i - 1 by omega, show j + 1 - 2 = j - 1 by omega, Nat.add_sub_cancel,
      Nat.add_sub_cancel, getD_eq_iff hi (by omega), getD_eq_iff (by omega) hj]
    constructor <;> (rintro ⟨hipos, hjpos, hchars⟩; exact ⟨by omega, by omega, hchars⟩)
  unfold cell
  rw [osa.eq_3]
  simp only [Nat.add_sub_cancel, getD_eq_iff hi hj, hp.value (j + 1) hj, hp.value j (by omega),
    hc.value j le_rfl] at htransposed ⊢
  by_cases hchars : 0 < i ∧ 0 < j ∧ source[i]? = target[j - 1]? ∧ source[i - 1]? = target[j]?
  · rw [if_pos (htransposed.mpr hchars), if_pos hchars, show j + 1 - 2 = j - 1 by omega,
      (hpp hchars.1).value (j - 1) (by omega)]
    push_cast
    rfl
  · rw [if_neg (fun h => hchars (htransposed.mp h)), if_neg hchars]
    push_cast
    rfl

/-- The minimum of a row up to a column. -/
structure RowMin (source target : Bytes) (i columns : Nat) (m : Int) : Prop where
  le : ∀ j ≤ columns, m ≤ osa source target i j
  attained : ∃ j ≤ columns, m = osa source target i j

/-- **A ROW IS FILLED** from the two before it, with its minimum. -/
theorem rowLoop_spec {i : Nat} (hi : i < source.length)
    (htarget : target.length ≤ kMaxEnglishWordLength) {previousPrevious previous : Row}
    (hpp : 0 < i → Filled source target (i - 1) target.length previousPrevious)
    (hp : Filled source target i target.length previous) (count : Nat) :
    ∀ {j : Nat} {current : Row} {rowMin : Int}, j + count = target.length →
      Filled source target (i + 1) j current → RowMin source target (i + 1) j rowMin →
      Filled source target (i + 1) target.length (rowLoop source target previousPrevious previous
        (i + 1) count (j + 1) current rowMin).1 ∧
      RowMin source target (i + 1) target.length (rowLoop source target previousPrevious previous
        (i + 1) count (j + 1) current rowMin).2 := by
  induction count with
  | zero =>
    intro j current rowMin hj hc hmin
    rw [Nat.add_zero] at hj
    rw [hj] at hc hmin
    exact ⟨hc, hmin⟩
  | succ count ih =>
    intro j current rowMin hj hc hmin
    have hcell := cell_spec hi (by omega) hpp hp hc
    rw [rowLoop, hcell]
    refine ih (by omega) (hc.set (by omega) rfl) ⟨?_, ?_⟩
    · intro k hk
      rcases Nat.lt_or_ge j k with hlt | hle
      · rw [show k = j + 1 by omega]
        exact min_le_right _ _
      · exact (min_le_left _ _).trans (hmin.le k hle)
    · obtain ⟨k, hk, hattained⟩ := hmin.attained
      rcases le_total rowMin (osa source target (i + 1) (j + 1)) with hle | hle
      · exact ⟨k, by omega, by rw [min_eq_left hle, hattained]⟩
      · exact ⟨j + 1, le_rfl, min_eq_right hle⟩

/-- The distance is exact up to a maximum. -/
def ExactWithin (maxDistance distance : Int) (d : Nat) : Prop :=
  (d ≤ maxDistance → distance = d) ∧ (maxDistance < d → maxDistance < distance)

theorem exactWithin_above {maxDistance : Int} {d : Nat} (h : maxDistance < d) :
    ExactWithin maxDistance (maxDistance + 1) d :=
  ⟨fun hle => absurd hle (not_le.mpr h), fun _ => Int.lt_succ maxDistance⟩

/-- **THE TABLE** has the distance in its last cell; it is left early only above the bound. -/
theorem rowsLoop_spec (maxDistance : Int) (htarget : target.length ≤ kMaxEnglishWordLength)
    (count : Nat) : ∀ {i : Nat} {previousPrevious previous current : Row},
      i + count = source.length →
      (0 < i → Filled source target (i - 1) target.length previousPrevious) →
      previousPrevious.length = kMaxEnglishWordLength + 1 →
      current.length = kMaxEnglishWordLength + 1 →
      Filled source target i target.length previous →
      ExactWithin maxDistance
        (rowsLoop source target maxDistance count (i + 1) previousPrevious previous current)
        (osaDistance source target) := by
  induction count with
  | zero =>
    intro i previousPrevious previous current hi hpp hpplength hclength hp
    rw [Nat.add_zero] at hi
    rw [rowsLoop, hp.value _ le_rfl, hi]
    exact ⟨fun _ => rfl, id⟩
  | succ count ih =>
    intro i previousPrevious previous current hi hpp hpplength hclength hp
    have hfirst : Filled source target (i + 1) 0 (current.set 0 (i + 1 : Nat)) := by
      refine ⟨by rw [List.length_set, hclength], ?_⟩
      intro j hj
      rw [getD_set (by omega), if_pos (by omega), Nat.le_zero.mp hj, osa_zero_right]
    have hfirstMin : RowMin source target (i + 1) 0 ((i + 1 : Nat) : Int) := by
      refine ⟨?_, 0, le_rfl, by rw [osa_zero_right]⟩
      intro j hj
      rw [Nat.le_zero.mp hj, osa_zero_right]
    obtain ⟨hfilled, hmin⟩ := rowLoop_spec (by omega) htarget hpp hp target.length
      (Nat.zero_add _) hfirst hfirstMin
    rw [rowsLoop]
    dsimp only
    split
    · -- the distance is that of a later row, which does not go below this one
      rename_i habove
      obtain ⟨k, hk, hle⟩ := exists_le_rows source target
        (by omega : i + 1 ≤ source.length) target.length
      refine exactWithin_above (lt_of_lt_of_le habove ((hmin.le k hk).trans ?_))
      exact_mod_cast hle
    · refine ih (by omega) (fun _ => hp) hp.length hpplength hfilled

theorem filled_firstRow (htarget : target.length ≤ kMaxEnglishWordLength) :
    Filled source target 0 target.length (firstRow target) := by
  have hrun : ∀ n ≤ kMaxEnglishWordLength, Filled source target 0 n
      ((List.range (n + 1)).foldl (fun row j => row.set j (j : Int)) zeroRow) := by
    intro n
    induction n with
    | zero =>
      intro _
      refine ⟨by simp [zeroRow], ?_⟩
      intro j hj
      rw [Nat.le_zero.mp hj, osa_zero_left]
      rfl
    | succ n ih =>
      intro hn
      rw [List.range_succ, List.foldl_append]
      exact (ih (by omega)).set (by omega) (by rw [osa_zero_left])
  exact hrun target.length htarget

/-- **THE BOUNDED DISTANCE IS EXACT** within its bound, and above it elsewhere. -/
theorem boundedDamerauLevenshtein_spec (source target : Bytes) (maxDistance : Int)
    (hsource : source.length ≤ kMaxEnglishWordLength)
    (htarget : target.length ≤ kMaxEnglishWordLength) :
    ExactWithin maxDistance (boundedDamerauLevenshtein source target maxDistance)
      (osaDistance source target) := by
  rw [boundedDamerauLevenshtein]
  by_cases hlengths : maxDistance < |(source.length : Int) - target.length|
  · rw [if_pos hlengths]
    obtain ⟨hle, hle'⟩ := le_add_osa source target source.length target.length
    refine exactWithin_above (lt_of_lt_of_le hlengths (abs_le.mpr ⟨?_, ?_⟩))
    · rw [osaDistance]
      omega
    · rw [osaDistance]
      omega
  · rw [if_neg hlengths, if_neg (by omega)]
    exact rowsLoop_spec maxDistance htarget source.length (Nat.zero_add _)
      (fun h => absurd h (Nat.lt_irrefl 0)) (by simp [zeroRow]) (by simp [zeroRow])
      (filled_firstRow htarget)

/-- A transposition is one step: `teh` and `the`. -/
theorem boundedDamerauLevenshtein_teh :
    ExactWithin 1 (boundedDamerauLevenshtein [0x74, 0x65, 0x68] [0x74, 0x68, 0x65] 1)
      (osaDistance ([0x74, 0x65, 0x68] : Bytes) [0x74, 0x68, 0x65]) :=
  boundedDamerauLevenshtein_spec [0x74, 0x65, 0x68] [0x74, 0x68, 0x65] 1 (by decide) (by decide)

example : boundedDamerauLevenshtein [0x74, 0x65, 0x68] [0x74, 0x68, 0x65] 1 = 1 := by decide

end MozkeyRewriter
