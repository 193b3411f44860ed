import Mozkey.TransliteratorsProofs

/-! # Utf8SubString — slices of a string

    `CharsLen` and `Utf8SubString` step by the length that the leading byte of a character
    asks for.  `CharsLen` clips its step at the end of the string; the loops of `Utf8SubString`
    do not, and over a last character that is cut off they run past the end. -/

namespace MozkeyUtil

open ByteString MozkeyComposer

/-! ## Views -/

/-- A `string_view` into a string: where it begins, from the begin of the string on, and its
    size. -/
structure View where
  start : Nat
  size : Nat
deriving DecidableEq

/-- Arithmetic of `size_t` and of pointers. -/
def sizeT (n : Int) : Nat := (n % 2 ^ 64).toNat

/-- The loops of `Utf8SubString`: `count` steps, from a pointer on while it is below the end. -/
def advance (src : Bytes) (stop : Nat) : Nat → Nat → Nat
  | 0, p => p
  | count + 1, p =>
    if p < stop then advance src stop count (p + oneCharLen (src.getD p 0)) else p

/-- `Utf8SubString` of a start. -/
def utf8SubStringFrom (src : Bytes) (start : Nat) : View :=
  let prefixLen := advance src src.length start 0
  { start := prefixLen, size := sizeT (src.length - prefixLen) }

/-- `Utf8SubString` of a start and a length. -/
def utf8SubStringView (src : Bytes) (start length : Nat) : View :=
  let view := utf8SubStringFrom src start
  let stop := sizeT (view.start + view.size)
  let substrEnd := advance src stop length view.start
  { start := view.start, size := substrEnd - view.start }

/-- A view lies in the string. -/
def View.Inside (s : Bytes) (view : View) : Prop := view.start + view.size ≤ s.length

instance (s : Bytes) (view : View) : Decidable (view.Inside s) :=
  inferInstanceAs (Decidable (_ ≤ _))

/-- The bytes of a view in the string. -/
def View.text (s : Bytes) (view : View) : Bytes := (s.drop view.start).take view.size

/-- The string is cut into the characters before a position and those from it on. -/
structure CutAt (s : Bytes) (i : Nat) : Prop where
  front_inside : (utf8SubStringView s 0 i).Inside s
  back_inside : (utf8SubStringFrom s i).Inside s
  append : (utf8SubStringView s 0 i).text s ++ (utf8SubStringFrom s i).text s = s
  charsLen : charsLen ((utf8SubStringView s 0 i).text s)
    + charsLen ((utf8SubStringFrom s i).text s) = charsLen s

/-! ## The widths of the characters -/

theorem oneCharLen_pos (c : UInt8) : 0 < oneCharLen c := by
  unfold oneCharLen
  split_ifs <;> decide

/-- The loop of `CharsLen`, with the lengths that it asks for. -/
def widthsLoop : Nat → Bytes → List Nat
  | 0, _ => []
  | _ + 1, [] => []
  | fuel + 1, c :: rest => oneCharLen c :: widthsLoop fuel ((c :: rest).drop (oneCharLen c))

/-- The lengths that the leading bytes of the characters ask for. -/
def widths (s : Bytes) : List Nat := widthsLoop s.length s

/-- The last character is not cut off. -/
def EndsWhole (s : Bytes) : Prop := (widths s).sum = s.length

instance (s : Bytes) : Decidable (EndsWhole s) := inferInstanceAs (Decidable (_ = _))

theorem widthsLoop_eq : ∀ {fuel : Nat} {s : Bytes}, s.length ≤ fuel →
    widthsLoop fuel s = widths s := by
  have hrun : ∀ (fuel fuel' : Nat) {s : Bytes}, s.length ≤ fuel → s.length ≤ fuel' →
      widthsLoop fuel s = widthsLoop fuel' s := by
    intro fuel
    induction fuel with
    | zero =>
      intro fuel' s hfuel _
      rw [List.eq_nil_of_length_eq_zero (Nat.le_zero.mp hfuel)]
      cases fuel' <;> rfl
    | succ fuel ih =>
      intro fuel' s hfuel hfuel'
      cases s with
      | nil => cases fuel' <;> rfl
      | cons c rest =>
        obtain ⟨fuel', rfl⟩ := Nat.exists_eq_succ_of_ne_zero
          (Nat.ne_of_gt (Nat.lt_of_lt_of_le (Nat.succ_pos _) hfuel'))
        have hpos := oneCharLen_pos c
        have hlength : ((c :: rest).drop (oneCharLen c)).length ≤ rest.length := by
          rw [List.length_drop, List.length_cons]
          omega
        rw [List.length_cons] at hfuel hfuel'
        rw [widthsLoop, widthsLoop, ih fuel' (by omega) (by omega)]
  intro fuel s hfuel
  exact hrun fuel s.length hfuel le_rfl

theorem widths_cons (c : UInt8) (rest : Bytes) :
    widths (c :: rest) = oneCharLen c :: widths ((c :: rest).drop (oneCharLen c)) := by
  have hpos := oneCharLen_pos c
  have hlength : ((c :: rest).drop (oneCharLen c)).length ≤ rest.length := by
    rw [List.length_drop, List.length_cons]
    omega
  rw [widths, List.length_cons, widthsLoop, widthsLoop_eq hlength]

theorem charsLen_eq (s : Bytes) : charsLen s = (widths s).length := by
  have hrun : ∀ (fuel : Nat) (s : Bytes), charsLenLoop fuel s = (widthsLoop fuel s).length := by
    intro fuel
    induction fuel with
    | zero => exact fun s => rfl
    | succ fuel ih =>
      intro s
      cases s with
      | nil => rfl
      | cons c rest => rw [charsLenLoop, widthsLoop, List.length_cons, ih]
  exact hrun s.length s

/-- The first characters end before the string does, if there is one more. -/
theorem sum_take_lt {n : Nat} : ∀ {s : Bytes}, n < (widths s).length →
    ((widths s).take n).sum < s.length := by
  induction n with
  | zero =>
    intro s hn
    cases s with
    | nil => exact absurd hn (Nat.lt_irrefl 0)
    | cons c rest => exact Nat.succ_pos _
  | succ n ih =>
    intro s hn
    cases s with
    | nil => exact absurd hn (Nat.not_lt_zero _)
    | cons c rest =>
      rw [widths_cons, List.length_cons] at hn
      have hlt := ih (Nat.lt_of_succ_lt_succ hn)
      rw [List.length_drop] at hlt
      rw [widths_cons, List.take_succ_cons, List.sum_cons]
      omega

theorem length_le_sum (s : Bytes) : s.length ≤ (widths s).sum := by
  have hrun : ∀ (n : Nat) {s : Bytes}, s.length ≤ n → s.length ≤ (widths s).sum := by
    intro n
    induction n with
    | zero => exact fun h => h.trans (Nat.zero_le _)
    | succ n ih =>
      intro s hs
      cases s with
      | nil => exact Nat.zero_le _
      | cons c rest =>
        have hpos := oneCharLen_pos c
        rw [List.length_cons] at hs
        have hle := @ih ((c :: rest).drop (oneCharLen c))
          (by rw [List.length_drop, List.length_cons]; omega)
        rw [List.length_drop] at hle
        rw [widths_cons, List.sum_cons]
        omega
  exact hrun s.length le_rfl

theorem widths_drop (n : Nat) : ∀ s : Bytes,
    widths (s.drop ((widths s).take n).sum) = (widths s).drop n := by
  induction n with
  | zero => exact fun _ => rfl
  | succ n ih =>
    intro s
    cases s with
    | nil => rfl
    | cons c rest =>
      rw [widths_cons, List.take_succ_cons, List.sum_cons, List.drop_succ_cons,
        ← List.drop_drop, ih]

theorem widths_take {n : Nat} : ∀ {s : Bytes}, ((widths s).take n).sum ≤ s.length →
    widths (s.take ((widths s).take n).sum) = (widths s).take n := by
  induction n with
  | zero => exact fun _ => rfl
  | succ n ih =>
    intro s hle
    cases s with
    | nil => rfl
    | cons c rest =>
      rw [widths_cons, List.take_succ_cons, List.sum_cons] at hle ⊢
      have hpos := oneCharLen_pos c
      have hnext := @ih ((c :: rest).drop (oneCharLen c)) (by rw [List.length_drop]; omega)
      obtain ⟨width, hwidth⟩ := Nat.exists_eq_succ_of_ne_zero hpos.ne'
      obtain ⟨total, htotal⟩ :
          ∃ m, ((widths ((c :: rest).drop (oneCharLen c))).take n).sum = m := ⟨_, rfl⟩
      rw [htotal] at hnext ⊢
      have hcons : (c :: rest).take (oneCharLen c + total)
          = c :: rest.take (width + total) := by
        rw [hwidth, Nat.succ_add, List.take_succ_cons]
      have hdrop : (c :: rest.take (width + total)).drop (oneCharLen c)
          = ((c :: rest).drop (oneCharLen c)).take total := by
        rw [← hcons, List.drop_take, Nat.add_sub_cancel_left]
      rw [hcons, widths_cons, hdrop, hnext]

/-! ## Slices -/

/-- **THE LOOPS GO OVER THE WIDTHS** of the characters, as far as the string goes. -/
theorem advance_eq (s : Bytes) (count : Nat) : ∀ p,
    advance s s.length count p = p + ((widths (s.drop p)).take count).sum := by
  induction count with
  | zero => exact fun _ => rfl
  | succ count ih =>
    intro p
    rw [advance]
    by_cases hp : p < s.length
    · have hdrop : s.drop p = s.getD p 0 :: s.drop (p + 1) := by
        rw [List.drop_eq_getElem_cons hp, List.getD_eq_getElem _ _ hp]
      rw [if_pos hp, ih, hdrop, widths_cons, List.take_succ_cons, List.sum_cons, ← hdrop,
        List.drop_drop, Nat.add_assoc]
    · rw [if_neg hp, List.drop_eq_nil_of_le (Nat.le_of_not_lt hp)]
      rfl

theorem sum_take_le_iff (s : Bytes) (n : Nat) :
    ((widths s).take n).sum ≤ s.length ↔ EndsWhole s ∨ n < charsLen s := by
  rw [charsLen_eq]
  by_cases hn : n < (widths s).length
  · exact iff_of_true (Nat.le_of_lt (sum_take_lt hn)) (Or.inr hn)
  · have hle := length_le_sum s
    rw [List.take_of_length_le (Nat.le_of_not_lt hn), or_iff_left hn, EndsWhole]
    omega

theorem utf8SubStringFrom_start (s : Bytes) (start : Nat) :
    (utf8SubStringFrom s start).start = ((widths s).take start).sum := by
  rw [utf8SubStringFrom, advance_eq, Nat.zero_add, List.drop_zero]

theorem stop_eq {s : Bytes} (hs : s.length < 2 ^ 64) (start : Nat) :
    sizeT ((utf8SubStringFrom s start).start + (utf8SubStringFrom s start).size) = s.length := by
  simp only [utf8SubStringFrom, sizeT]
  omega

theorem utf8SubStringView_spec {s : Bytes} (hs : s.length < 2 ^ 64) (start length : Nat) :
    (utf8SubStringView s start length).start = ((widths s).take start).sum ∧
      (utf8SubStringView s start length).start + (utf8SubStringView s start length).size
        = ((widths s).take (start + length)).sum := by
  have hstart := utf8SubStringFrom_start s start
  have hstop := stop_eq hs start
  rw [hstart] at hstop
  refine ⟨hstart, ?_⟩
  simp only [utf8SubStringView, hstart, hstop, advance_eq, Nat.add_sub_cancel_left]
  rw [List.take_add, List.sum_append, widths_drop]

theorem inside_iff {s : Bytes} (hs : s.length < 2 ^ 64) (start length : Nat) :
    (utf8SubStringView s start length).Inside s ↔ EndsWhole s ∨ start + length < charsLen s := by
  rw [View.Inside, (utf8SubStringView_spec hs start length).2, sum_take_le_iff]

theorem cutAt_of_le {s : Bytes} (hs : s.length < 2 ^ 64) {i : Nat}
    (hle : ((widths s).take i).sum ≤ s.length) : CutAt s i := by
  obtain ⟨hstart, hsize⟩ := utf8SubStringView_spec hs 0 i
  rw [List.take_zero, List.sum_nil] at hstart
  rw [hstart, Nat.zero_add, Nat.zero_add] at hsize
  have hback := utf8SubStringFrom_start s i
  have hbackSize : (utf8SubStringFrom s i).size = s.length - ((widths s).take i).sum := by
    simp only [utf8SubStringFrom, advance_eq, Nat.zero_add, List.drop_zero, sizeT]
    omega
  have hfrontText : (utf8SubStringView s 0 i).text s = s.take ((widths s).take i).sum := by
    rw [View.text, hstart, hsize, List.drop_zero]
  have hbackText : (utf8SubStringFrom s i).text s = s.drop ((widths s).take i).sum := by
    rw [View.text, hback, hbackSize, List.take_of_length_le (List.length_drop ..).le]
  refine ⟨?_, ?_, ?_, ?_⟩
  · rw [View.Inside, hstart, hsize, Nat.zero_add]
    exact hle
  · rw [View.Inside, hback, hbackSize]
    omega
  · rw [hfrontText, hbackText, List.take_append_drop]
  · rw [hfrontText, hbackText, charsLen_eq, charsLen_eq, charsLen_eq, widths_take hle, widths_drop,
      ← List.length_append, List.take_append_drop]

/-- **SLICES STAY IN THE STRING** and cut it into its characters, exactly if the last character
    is not cut off, or none of them goes over it. -/
theorem slices_iff (s : Bytes) (hs : s.length < 2 ^ 64) (start length i : Nat) :
    (utf8SubStringView s start length).Inside s ∧ CutAt s i ↔
      EndsWhole s ∨ (start + length < charsLen s ∧ i < charsLen s) := by
  rw [inside_iff hs, or_and_left, and_congr_right_iff]
  intro _
  constructor
  · intro hcut
    have hinside := (inside_iff hs 0 i).mp hcut.front_inside
    rwa [Nat.zero_add] at hinside
  · intro hi
    exact cutAt_of_le hs ((sum_take_le_iff s i).mpr hi)

/-- The string ab, cut behind its first character. -/
theorem slices_ab : (utf8SubStringView [0x61, 0x62] 1 1).Inside [0x61, 0x62] ∧
    CutAt [0x61, 0x62] 1 :=
  (slices_iff [0x61, 0x62] (by decide) 1 1 1).mpr (Or.inl (by decide))

/-- The slice from the begin of a cut off character of three bytes is longer than the string. -/
theorem slice_runs_over : charsLen [0xE3] = 1 ∧
    utf8SubStringView [0xE3] 0 1 = ⟨0, 3⟩ ∧ ¬ (utf8SubStringView [0xE3] 0 1).Inside [0xE3] ∧
    utf8SubStringFrom [0xE3] 1 = ⟨3, 2 ^ 64 - 2⟩ ∧ ¬ CutAt [0xE3] 1 := by
  refine ⟨by decide, by decide, by decide, by decide, ?_⟩
  intro hcut
  exact absurd hcut.front_inside (by decide)

end MozkeyUtil
