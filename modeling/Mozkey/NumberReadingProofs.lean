import Mozkey.NumberUtilProofs

/-! # NumberUtil — what is normalized is read as a whole

    A reducer skips zeros before its part, and it gives up the whole rest of the sequence where
    a run of digits is too large for its place or stands before a smaller rank.  What was read
    before such a run is normalized without it; all else that is normalized is read as a whole. -/

namespace MozkeyNumberUtil

open ByteString

/-! ## What a reducer takes -/

/-- Only zeros. -/
def Zeros (zeros : List Nat) : Prop := ∀ x ∈ zeros, x = 0

/-- `[d, base]`, `[base]`, or 20 for the tens. -/
inductive RankPart (base : Nat) : List Nat → Nat → Prop where
  | digit {d : Nat} (hpos : 0 < d) (hlt : d < 10) : RankPart base [d, base] (d * base)
  | rank : RankPart base [base] base
  | twenty (hbase : base = 10) : RankPart base [20] 20

/-- Two digits or more before `rest`, with no zero at their start, and none left in `rest`. -/
structure IsRun (run rest : List Nat) : Prop where
  digits : ∀ x ∈ run, x < 10
  length : 2 ≤ run.length
  head : run.head? ≠ some 0
  maximal : ∀ x ∈ rest.head?, 10 ≤ x

/-- Two digits, the first of them no zero, stand at the start. -/
def StartsRun (begin : List Nat) : Prop :=
  ∃ x y rest, begin = x :: y :: rest ∧ x ≠ 0 ∧ x < 10 ∧ y < 10

/-- What `ReduceDigitsHelper` does to a sequence: behind zeros it takes a rank part or a run of
    digits that fits; or it takes the zeros only; or it gives up before a run that overruns. -/
inductive Reduced (base : Nat) : List Nat → Option Nat × List Nat → Prop where
  | part {zeros part rest : List Nat} {v : Nat} (hzeros : Zeros zeros)
      (hpart : RankPart base part v) : Reduced base (zeros ++ (part ++ rest)) (some v, rest)
  | run {zeros run rest : List Nat} (hzeros : Zeros zeros) (hrun : IsRun run rest)
      (hfits : base10 0 run < base * 10) (hrest : atBigRank rest = true) :
      Reduced base (zeros ++ (run ++ rest)) (some (base10 0 run), rest)
  | skip {zeros rest : List Nat} (hzeros : Zeros zeros) (hhead : rest.head? ≠ some 0)
      (hrun : ¬ StartsRun rest) : Reduced base (zeros ++ rest) (none, rest)
  | overrun {zeros run rest : List Nat} (hzeros : Zeros zeros) (hrun : IsRun run rest)
      (hover : base * 10 ≤ base10 0 run ∨ atBigRank rest = false) :
      Reduced base (zeros ++ (run ++ rest)) (none, [])

theorem isRun_takeWhile {x y : Nat} {rest : List Nat} (hx : x ≠ 0) (hlt : x < 10) (hy : y < 10) :
    IsRun ((x :: y :: rest).takeWhile (· < 10)) ((x :: y :: rest).dropWhile (· < 10)) where
  digits z hz := by simpa using List.mem_takeWhile_imp hz
  length := by simp [hlt, hy]
  head := by simp [List.takeWhile_cons, hlt, hx]
  maximal z hz := by
    have h := List.head?_dropWhile_not (fun z => decide (z < 10)) (x :: y :: rest)
    rw [Option.mem_def.mp hz] at h
    simpa using h

variable {base : Nat}

/-- **ONE REDUCER.** -/
theorem reduceDigitsHelper_spec (hbase : base ≤ 1000) (begin : List Nat) :
    Reduced base begin (reduceDigitsHelper base begin) := by
  have hsplit := (List.takeWhile_append_dropWhile (p := fun x : Nat => decide (x = 0))
    (l := begin)).symm
  have hzeros : Zeros (begin.takeWhile (· = 0)) := fun x hx => by
    simpa using List.mem_takeWhile_imp hx
  have hhead : ∀ x ∈ (begin.dropWhile (· = 0)).head?, x ≠ 0 := fun x hx => by
    have h := List.head?_dropWhile_not (fun x => decide (x = 0)) begin
    rw [Option.mem_def.mp hx] at h
    simpa using h
  generalize begin.takeWhile (· = 0) = zeros at hsplit hzeros
  rw [reduceDigitsHelper]
  generalize begin.dropWhile (· = 0) = trimmed at hsplit hhead
  subst hsplit
  obtain _ | ⟨x, _ | ⟨y, rest⟩⟩ := trimmed
  · exact .skip hzeros (by simp) (by rintro ⟨x, y, rest, h, -⟩; simp at h)
  · dsimp only
    split_ifs with hrank
    · obtain ⟨-, rfl | ⟨rfl, rfl⟩⟩ := hrank
      · exact @Reduced.part _ zeros _ [] _ hzeros .rank
      · exact @Reduced.part _ zeros _ [] _ hzeros (.twenty rfl)
    · have hx : x ≠ 0 := hhead x rfl
      exact .skip hzeros (by simpa using hx) (by rintro ⟨x, y, rest, h, -⟩; simp at h)
  · have hx : x ≠ 0 := hhead x rfl
    dsimp only
    by_cases hlt : x < 10
    · rw [if_pos hlt]
      by_cases hy : y < 10
      · -- A run of digits.
        have hrun := @isRun_takeWhile x y rest hx hlt hy
        have happend := (List.takeWhile_append_dropWhile (p := fun z : Nat => decide (z < 10))
          (l := x :: y :: rest)).symm
        rw [if_pos hy, reduceLeadingNumbersAsBase10System,
          reduceLeadingLoop_eq _ (Nat.zero_le _)]
        split_ifs with hmax
        · dsimp only
          split_ifs with hover
          · have h : Reduced base _ _ := .overrun hzeros hrun (by simpa using hover)
            rwa [← happend] at h
          · obtain ⟨hfits, hrest⟩ := not_or.mp hover
            have h : Reduced base _ _ :=
              .run hzeros hrun (Nat.not_le.mp hfits) (by simpa using hrest)
            rwa [← happend] at h
        · -- Digits that overflow are too many for any place.
          have hlarge : base * 10 ≤ base10 0 ((x :: y :: rest).takeWhile (· < 10)) := by
            simp only [maxUint64] at hmax
            omega
          have h : Reduced base _ _ := .overrun hzeros hrun (.inl hlarge)
          rwa [← happend] at h
      · -- A digit before a rank.
        rw [if_neg hy]
        split_ifs with hother
        · refine .skip hzeros (by simpa using hx) ?_
          rintro ⟨x', y', rest', heq, -, -, hy'⟩
          obtain ⟨-, heq⟩ := List.cons.inj heq
          exact hy ((List.cons.inj heq).1 ▸ hy')
        · obtain ⟨rfl, -⟩ : y = base ∧ _ := ⟨by_contra fun h => hother (.inl h), trivial⟩
          exact .part hzeros (.digit (Nat.pos_of_ne_zero hx) hlt)
    · -- A rank.
      rw [if_neg hlt]
      split_ifs with hrank
      · obtain rfl | ⟨rfl, rfl⟩ := hrank
        · exact .part hzeros .rank
        · exact .part hzeros (.twenty rfl)
      · refine .skip hzeros (by simpa using hx) ?_
        rintro ⟨x', y', rest', heq, -, hx', -⟩
        exact hlt ((List.cons.inj heq).1 ▸ hx')

/-! ## Blocks -/

/-- A part of a block: nothing, a rank part, or a run of digits. -/
inductive Part (base : Nat) : List Nat → Nat → Prop where
  | absent : Part base [] 0
  | rank {part : List Nat} {v : Nat} (hpart : RankPart base part v) : Part base part v
  | run {run : List Nat} (hne : run ≠ []) (hdigits : ∀ x ∈ run, x < 10) :
      Part base run (base10 0 run)

/-- The ones of a block: nothing, or a run of digits. -/
inductive Ones : List Nat → Nat → Prop where
  | absent : Ones [] 0
  | run {run : List Nat} (hne : run ≠ []) (hdigits : ∀ x ∈ run, x < 10) : Ones run (base10 0 run)

/-- Thousands, hundreds, tens and ones in that order, not all of them absent.  `Skip` tells what
    may stand before a part and adds nothing. -/
inductive Block (Skip : List Nat → Prop) : List Nat → Nat → Prop where
  | mk {z₁ t z₂ h z₃ e o : List Nat} {vt vh ve vo : Nat} (hz₁ : Skip z₁) (ht : Part 1000 t vt)
      (hz₂ : Skip z₂) (hh : Part 100 h vh) (hz₃ : Skip z₃) (he : Part 10 e ve) (ho : Ones o vo)
      (hne : t ++ h ++ e ++ o ≠ []) :
      Block Skip (z₁ ++ (t ++ (z₂ ++ (h ++ (z₃ ++ (e ++ o)))))) (vt + vh + ve + vo)

/-- Behind a thousands or a hundreds part, a run of digits is too large for the next place, or
    it stands before a rank below 10000. -/
def Overruns (numbers : List Nat) : Prop :=
  ∃ front base zeros run rest, numbers = front ++ base :: (zeros ++ (run ++ rest)) ∧
    (base = 100 ∨ base = 1000) ∧ Zeros zeros ∧ IsRun run rest ∧
    (base ≤ base10 0 run ∨ atBigRank rest = false)

variable {numbers : List Nat}

theorem Overruns.append (h : Overruns numbers) (front : List Nat) :
    Overruns (front ++ numbers) := by
  obtain ⟨front', base, zeros, run, rest, rfl, h⟩ := h
  exact ⟨front ++ front', base, zeros, run, rest, (List.append_assoc _ _ _).symm, h⟩

/-- How things stand before the reducer of `base`: the part of the next higher base has just
    been taken, or no run can start here, or the block is over. -/
inductive Stage (numbers : List Nat) (base : Nat) (begin : List Nat) : Prop where
  | taken (front : List Nat) (heq : numbers = front ++ base * 10 :: begin)
  | clean (hrun : ¬ StartsRun begin) (hhead : begin.head? ≠ some 0)
  | ended (hrest : atBigRank begin = true)

variable {rest : List Nat}

/-- A run at the start of a sequence without leading zeros is seen there. -/
theorem startsRun_of_isRun {zeros run : List Nat} (hzeros : Zeros zeros) (hrun : IsRun run rest)
    (hhead : (zeros ++ (run ++ rest)).head? ≠ some 0) :
    StartsRun (zeros ++ (run ++ rest)) := by
  cases zeros with
  | cons z zeros =>
    exact absurd (congrArg some (hzeros z List.mem_cons_self)) hhead
  | nil =>
    obtain ⟨hdigits, hlength, hnonzero, -⟩ := hrun
    obtain _ | ⟨x, _ | ⟨y, run⟩⟩ := run
    · exact absurd hlength (by simp)
    · exact absurd hlength (by simp)
    · exact ⟨x, y, run ++ rest, rfl, fun hx => hnonzero (congrArg some hx),
        hdigits x List.mem_cons_self, hdigits y (List.mem_cons_of_mem _ List.mem_cons_self)⟩

variable {x : Nat}

theorem atBigRank_cons : atBigRank (x :: rest) = true ↔ 10000 ≤ x := by
  simp [atBigRank]

variable {begin : List Nat}

theorem reduceDigitsHelper_over (hbase : base ≤ 1000) (h : atBigRank begin = true) :
    reduceDigitsHelper base begin = (none, begin) := by
  cases begin with
  | nil => rfl
  | cons x rest =>
    have hx := atBigRank_cons.mp h
    have htrim : (x :: rest).dropWhile (· = 0) = x :: rest :=
      List.dropWhile_cons_of_neg (by simp; omega)
    rw [reduceDigitsHelper, htrim]
    cases rest with
    | nil => dsimp only; rw [if_neg (by omega)]
    | cons y rest => dsimp only; rw [if_neg (by omega), if_neg (by omega)]

/-- What a reducer has taken of a sequence: zeros and a part. -/
def Taken (base : Nat) (begin : List Nat) (reduced : Option Nat × List Nat) : Prop :=
  ∃ zeros part v, Zeros zeros ∧ Part base part v ∧ begin = zeros ++ (part ++ reduced.2) ∧
    reduced.1.getD 0 = v ∧ (reduced.1.isSome = true ↔ part ≠ [])

/-- A reducer gives up before a run, or it takes zeros and a part and leaves the stage of the
    next lower base. -/
theorem reduced_cases (before : List Nat) (base' : Nat) {reduced : Option Nat × List Nat}
    (heq : numbers = before ++ begin) (h : Reduced base begin reduced) (hbase : base = base' * 10) :
    (reduced = (none, []) ∧ ∃ zeros run rest, begin = zeros ++ (run ++ rest) ∧ Zeros zeros ∧
      IsRun run rest ∧ (base * 10 ≤ base10 0 run ∨ atBigRank rest = false)) ∨
    Taken base begin reduced ∧ (base ≠ 10 → Stage numbers base' reduced.2) := by
  cases h with
  | @part zeros part rest v hzeros hpart =>
    refine .inr ⟨⟨zeros, part, v, hzeros, .rank hpart, rfl, rfl, ?_⟩, fun hten => ?_⟩
    · exact iff_of_true rfl (by cases hpart <;> simp)
    · cases hpart with
      | @digit d =>
        exact .taken (before ++ (zeros ++ [d])) (by rw [heq, ← hbase]; simp)
      | rank => exact .taken (before ++ zeros) (by rw [heq, ← hbase]; simp)
      | twenty hbase => exact absurd hbase hten
  | @run zeros run rest hzeros hrun hfits hrest =>
    have hne : run ≠ [] := List.ne_nil_of_length_pos (by have := hrun.length; omega)
    exact .inr ⟨⟨zeros, run, _, hzeros, .run hne hrun.digits, rfl, rfl, iff_of_true rfl hne⟩,
      fun _ => .ended hrest⟩
  | @skip zeros rest hzeros hhead hrun =>
    exact .inr ⟨⟨zeros, [], 0, hzeros, .absent, rfl, rfl, by simp⟩,
      fun _ => .clean hrun hhead⟩
  | @overrun zeros run rest hzeros hrun hover =>
    exact .inl ⟨rfl, zeros, run, rest, rfl, hzeros, hrun, hover⟩

/-- **ONE STAGE**: the reducer takes zeros and a part, or a run overruns. -/
theorem stage_spec (before : List Nat) (base' : Nat) (heq : numbers = before ++ begin)
    (hbase : base = base' * 10) (hle : base ≤ 100) (hover : base * 10 = 100 ∨ base * 10 = 1000)
    (hstage : Stage numbers base begin) :
    Overruns numbers ∨ Taken base begin (reduceDigitsHelper base begin) ∧
      (base ≠ 10 → Stage numbers base' (reduceDigitsHelper base begin).2) := by
  have hspec := reduceDigitsHelper_spec (show base ≤ 1000 by omega) begin
  cases hstage with
  | taken front hfront =>
    refine (reduced_cases before base' heq hspec hbase).imp_left ?_
    rintro ⟨-, zeros, run, rest, rfl, hzeros, hrun, hlarge⟩
    exact ⟨front, base * 10, zeros, run, rest, hfront, hover, hzeros, hrun, hlarge⟩
  | clean hstart hhead =>
    refine (reduced_cases before base' heq hspec hbase).imp_left ?_
    rintro ⟨-, zeros, run, rest, rfl, hzeros, hrun, -⟩
    exact absurd (startsRun_of_isRun hzeros hrun hhead) hstart
  | ended hrest =>
    rw [reduceDigitsHelper_over (by omega) hrest]
    exact .inr ⟨⟨[], [], 0, fun _ hmem => absurd hmem List.not_mem_nil, .absent, rfl, rfl,
      by simp⟩, fun _ => .ended hrest⟩

theorem reduceOnesDigit_spec (begin : List Nat) :
    ∃ ones v, Ones ones v ∧ begin = ones ++ (reduceOnesDigit begin).2 ∧
      (reduceOnesDigit begin).1.getD 0 = v ∧
      ((reduceOnesDigit begin).1.isSome = true ↔ ones ≠ []) := by
  cases begin with
  | nil => exact ⟨[], 0, .absent, rfl, rfl, by simp [reduceOnesDigit]⟩
  | cons x rest =>
    rw [reduceOnesDigit]
    split_ifs with hx
    · exact ⟨[], 0, .absent, rfl, rfl, by simp⟩
    · exact ⟨[x], base10 0 [x], .run (List.cons_ne_nil _ _) (by simpa using hx), rfl,
        by simp [base10], by simp⟩

variable {v : Nat}

/-- **ONE BLOCK**: what is taken is a block before its rank, or a run overruns. -/
theorem reduceNumberLessThan10000_spec (h : reduceNumberLessThan10000 begin = (some v, rest)) :
    Overruns begin ∨ ∃ block, begin = block ++ rest ∧ Block Zeros block v ∧
      atBigRank rest = true := by
  rw [reduceNumberLessThan10000] at h
  simp only [reduceThousandsDigit, reduceHundredsDigit, reduceTensDigit] at h
  obtain ⟨hnum, hrest⟩ := Prod.mk.inj h
  obtain ⟨hsuccess, hnum⟩ := Option.ite_none_right_eq_some.mp hnum
  rw [Bool.and_eq_true] at hsuccess
  obtain ⟨hsome, hbig⟩ := hsuccess
  obtain ⟨hreduced, -⟩ | ⟨⟨z₁, t, vt, hz₁, ht, hbegin, hvt, htsome⟩, hstage⟩ :=
    reduced_cases [] 100 (List.nil_append begin).symm (reduceDigitsHelper_spec le_rfl begin) rfl
  · -- The reducer of the thousands has given up, so nothing is taken.
    rw [hreduced] at hsome
    exact absurd hsome (by decide)
  obtain hover | ⟨⟨z₂, h, vh, hz₂, hh, hbegin₂, hvh, hhsome⟩, hstage₂⟩ :=
    stage_spec (z₁ ++ t) 10 (by rw [List.append_assoc]; exact hbegin) rfl le_rfl (.inr rfl)
      (hstage (by decide))
  · exact .inl hover
  obtain hover | ⟨⟨z₃, e, ve, hz₃, he, hbegin₃, hve, hesome⟩, -⟩ :=
    stage_spec (z₁ ++ t ++ z₂ ++ h) 1
      (by simp only [List.append_assoc]; rw [← hbegin₂]; exact hbegin) rfl (by decide) (.inl rfl)
      (hstage₂ (by decide))
  · exact .inl hover
  obtain ⟨o, vo, ho, hbegin₄, hvo, hosome⟩ :=
    reduceOnesDigit_spec (reduceDigitsHelper 10
      (reduceDigitsHelper 100 (reduceDigitsHelper 1000 begin).2).2).2
  refine .inr ⟨z₁ ++ (t ++ (z₂ ++ (h ++ (z₃ ++ (e ++ o))))), ?_, ?_, hrest ▸ hbig⟩
  · rw [← hrest]
    simp only [List.append_assoc]
    rw [← hbegin₄, ← hbegin₃, ← hbegin₂]
    exact hbegin
  · rw [← Option.some.inj hnum, hvt, hvh, hve, hvo]
    refine .mk hz₁ ht hz₂ hh hz₃ he ho ?_
    simp only [Bool.or_eq_true] at hsome
    rw [htsome, hhsome, hesome, hosome] at hsome
    simp only [ne_eq, List.append_eq_nil_iff, not_and]
    rintro ⟨⟨ht', hh'⟩, he'⟩ ho'
    exact hsome.elim (·.elim (·.elim (· ht') (· hh')) (· he')) (· ho')

/-! ## Readings -/

/-- A sequence of blocks with decreasing ranks from 10000 on; the last rank may be absent. -/
inductive Japanese (Skip : List Nat → Prop) : Nat → List Nat → Nat → Prop where
  | last {bound v : Nat} {block : List Nat} (hblock : Block Skip block v) :
      Japanese Skip bound block v
  | stop {bound v rank : Nat} {block : List Nat} (hblock : Block Skip block v)
      (hbig : 10000 ≤ rank) (hlt : rank < bound) :
      Japanese Skip bound (block ++ [rank]) (v * rank)
  | rank {bound v rank w : Nat} {block rest : List Nat} (hblock : Block Skip block v)
      (hbig : 10000 ≤ rank) (hlt : rank < bound) (hrest : Japanese Skip rank rest w) :
      Japanese Skip bound (block ++ rank :: rest) (v * rank + w)

/-- The sequence is read as `v`: digits in base ten, or blocks with ranks. -/
def Reading (Skip : List Nat → Prop) (numbers : List Nat) (v : Nat) : Prop :=
  (∀ x ∈ numbers, x < 10) ∧ v = base10 0 numbers ∨ Japanese Skip maxUint64 numbers v

theorem addAndCheckOverflow_eq_some {arg1 arg2 : Nat} (hle : arg1 ≤ maxUint64)
    (h : addAndCheckOverflow arg1 arg2 = some v) : v = arg1 + arg2 ∧ v ≤ maxUint64 := by
  rw [addAndCheckOverflow_eq hle] at h
  obtain ⟨hmax, h⟩ := Option.ite_none_right_eq_some.mp h
  obtain rfl := Option.some.inj h
  exact ⟨rfl, hmax⟩

theorem multiplyAndCheckOverflow_eq_some {arg1 arg2 : Nat}
    (h : multiplyAndCheckOverflow arg1 arg2 = some v) : v = arg1 * arg2 := by
  rw [multiplyAndCheckOverflow_eq] at h
  obtain ⟨-, h⟩ := Option.ite_none_right_eq_some.mp h
  exact (Option.some.inj h).symm

/-- **THE LOOP** reads blocks with ranks behind its output, or a run overruns. -/
theorem interpretLoop_spec (fuel : Nat) : ∀ {lastBase output v : Nat} {begin : List Nat},
    output ≤ maxUint64 → interpretLoop fuel lastBase output begin = some v →
    Overruns begin ∨ ∃ w, Japanese Zeros lastBase begin w ∧ v = output + w := by
  induction fuel with
  | zero => intro lastBase output v begin _ h; exact absurd h (by simp [interpretLoop])
  | succ fuel ih =>
    intro lastBase output v begin hle h
    rw [interpretLoop] at h
    obtain ⟨coef, hcoef, h⟩ := Option.bind_eq_some_iff.mp h
    obtain ⟨rest, hrest⟩ : ∃ rest, (reduceNumberLessThan10000 begin).2 = rest := ⟨_, rfl⟩
    rw [hrest] at h
    obtain hover | ⟨block, hbegin, hblock, hbig⟩ :=
      reduceNumberLessThan10000_spec (Prod.ext hcoef hrest)
    · exact .inl hover
    rw [hbegin]
    cases rest with
    | nil =>
      rw [List.append_nil]
      exact .inr ⟨coef, .last hblock, (addAndCheckOverflow_eq_some hle h).1⟩
    | cons base rest =>
      dsimp only at h
      by_cases hbase : base ≥ lastBase
      · rw [if_pos hbase] at h
        exact absurd h (by simp)
      rw [if_neg hbase] at h
      obtain ⟨delta, hdelta, hbind⟩ := Option.bind_eq_some_iff.mp h
      obtain ⟨output', houtput, hturn⟩ := Option.bind_eq_some_iff.mp hbind
      obtain rfl := multiplyAndCheckOverflow_eq_some hdelta
      obtain ⟨rfl, hle'⟩ := addAndCheckOverflow_eq_some hle houtput
      have hrank := atBigRank_cons.mp hbig
      have hlt := Nat.not_le.mp hbase
      by_cases hend : rest = []
      · subst hend
        exact .inr ⟨coef * base, .stop hblock hrank hlt, (Option.some.inj hturn).symm⟩
      · rw [if_neg (by simpa using hend)] at hturn
        obtain hover | ⟨w, hw, rfl⟩ := ih hle' hturn
        · refine .inl ?_
          have happend := hover.append (block ++ [base])
          rwa [List.append_assoc] at happend
        · exact .inr ⟨coef * base + w, .rank hblock hrank hlt hw, Nat.add_assoc _ _ _⟩

/-- **WHAT IS NORMALIZED IS READ** as a whole, or a run overruns. -/
theorem normalizeNumbersHelper_spec (h : normalizeNumbersHelper numbers = some v) :
    Overruns numbers ∨ Reading Zeros numbers v := by
  rw [normalizeNumbersHelper] at h
  cases hmax : numbers.max? with
  | none => rw [hmax] at h; exact absurd h (by simp)
  | some max =>
    rw [hmax] at h
    dsimp only at h
    split_ifs at h
    · exact .inr (.inl (interpretNumbersAsBase10System_eq_some h))
    · obtain hover | ⟨w, hw, rfl⟩ := interpretLoop_spec _ (Nat.zero_le _) h
      · exact .inl hover
      · rw [Nat.zero_add]
        exact .inr (.inr hw)

/-! ## Normalization -/

section Normalize

variable {arabicNumber : Bytes → Option Nat} {containsNumber : Text → Bool}

theorem gatherNumbers_spec {input : Text} {gathered : Gathered}
    (h : gatherNumbers arabicNumber containsNumber false input = some gathered) :
    input.map (fun ch => arabicNumber ch.utf8) = gathered.numbers.map some ∧
      gathered.suffix = none := by
  induction input generalizing gathered with
  | nil =>
    obtain rfl := Option.some.inj h
    exact ⟨rfl, rfl⟩
  | cons ch input ih =>
    rw [gatherNumbers] at h
    cases hch : arabicNumber ch.utf8 with
    | none => rw [hch] at h; exact absurd h (by simp)
    | some n =>
      rw [hch] at h
      obtain ⟨gathered', hgathered, h⟩ := Option.bind_eq_some_iff.mp h
      obtain rfl := Option.some.inj h
      obtain ⟨hnumbers, hsuffix⟩ := ih hgathered
      exact ⟨by rw [List.map_cons, hnumbers, hch, List.map_cons], hsuffix⟩

/-- **NORMALIZATION IGNORES NOTHING** but zeros before a part: the numbers of all characters
    are read as a whole, unless a run of digits overruns its place, and the output is the value
    behind the zeros that are kept. -/
theorem normalizeNumbers_reading (input : Text) (trimLeadingZeros : Bool) (out : Normalized)
    (h : normalizeNumbers arabicNumber containsNumber input trimLeadingZeros = some out) :
    ∃ numbers, input.map (fun ch => arabicNumber ch.utf8) = numbers.map some ∧
      (¬ Overruns numbers → ∃ v, Reading Zeros numbers v ∧
        out.arabicOutput =
          List.replicate (leadingZeros trimLeadingZeros numbers) (chr '0') ++ decimal v) := by
  obtain ⟨gathered, hgathered, h⟩ := Option.bind_eq_some_iff.mp h
  split_ifs at h
  obtain ⟨n, hn, h⟩ := Option.bind_eq_some_iff.mp h
  obtain rfl := Option.some.inj h
  refine ⟨gathered.numbers, (gatherNumbers_spec hgathered).1, fun hover => ⟨n, ?_, rfl⟩⟩
  exact (normalizeNumbersHelper_spec hn).resolve_left hover

end Normalize

/-- Behind the thousands of `二千三十` there is a single digit. -/
theorem not_overruns_2030 : ¬ Overruns [2, 1000, 3, 10] := by
  rintro ⟨front, base, zeros, run, rest, hsplit, hbase, -, hrun, -⟩
  have hbehind : zeros ++ (run ++ rest) = [3, 10] := by
    match front, hsplit with
    | [], hsplit => simp at hsplit; omega
    | [_], hsplit => simp at hsplit; exact hsplit.2.2.symm
    | [_, _], hsplit => simp at hsplit; omega
    | [_, _, _], hsplit => simp at hsplit; omega
    | _ :: _ :: _ :: _ :: _, hsplit => simp at hsplit
  have hsub : run.Sublist [3, 10] :=
    hbehind ▸ (List.sublist_append_left run rest).trans (List.sublist_append_right zeros _)
  have hall := hsub.eq_of_length_le hrun.length
  exact absurd (hrun.digits 10 (by simp [hall])) (by decide)

/-- `二千三十` is read as 2030. -/
theorem normalizeNumbers_reading_2030 : ∃ v, Reading Zeros [2, 1000, 3, 10] v ∧
    decimal 2030 = List.replicate (leadingZeros true [2, 1000, 3, 10]) (chr '0') ++ decimal v := by
  obtain ⟨numbers, hnumbers, hread⟩ := @normalizeNumbers_reading ruleNumber (fun _ => false)
    (['二', '千', '三', '十'].map character) true
    ⟨['二', '千', '三', '十'].map character, decimal 2030, none⟩ (by decide +kernel)
  obtain rfl : numbers = [2, 1000, 3, 10] :=
    List.map_injective_iff.mpr (Option.some_injective _) (hnumbers.symm.trans (by decide +kernel))
  exact hread not_overruns_2030

/-! ## A zero before a thousands part

    `零二千` is normalized to 2000, but no part stands for its zero. -/

theorem getLast_of_part {part : List Nat} (h : Part base part v) (hx : part.getLast? = some x) :
    x = base ∨ base = 10 ∧ x = 20 ∨ x < 10 := by
  cases h with
  | absent => exact absurd hx (by simp)
  | rank hpart =>
    cases hpart with
    | digit => exact .inl (Option.some.inj hx).symm
    | rank => exact .inl (Option.some.inj hx).symm
    | twenty hbase => exact .inr (.inl ⟨hbase, (Option.some.inj hx).symm⟩)
  | run hne hdigits => exact .inr (.inr (hdigits x (List.mem_of_getLast? hx)))

theorem getLast_of_ones {ones : List Nat} (h : Ones ones v) (hx : ones.getLast? = some x) :
    x < 10 := by
  cases h with
  | absent => exact absurd hx (by simp)
  | run hne hdigits => exact hdigits x (List.mem_of_getLast? hx)

theorem eq_nil_of_append (front : List Nat) {part : List Nat} (heq : front ++ part = [0, 2, 1000])
    (hlast : part.getLast? ≠ some 1000) : part = [] := by
  by_contra hne
  have h := congrArg List.getLast? heq
  rw [List.getLast?_append_of_ne_nil _ hne] at h
  exact hlast h

theorem not_block_zero (v : Nat) : ¬ Block (· = []) [0, 2, 1000] v := by
  intro hblock
  generalize hnumbers : [0, 2, 1000] = numbers at hblock
  cases hblock with
  | @mk z₁ t z₂ h z₃ e o vt vh ve vo hz₁ ht hz₂ hh hz₃ he ho hne =>
    subst hz₁ hz₂ hz₃
    simp only [List.nil_append] at hnumbers
    have ho' : o = [] := eq_nil_of_append (t ++ (h ++ e))
      (by rw [hnumbers]; simp) fun hx => absurd (getLast_of_ones ho hx) (by decide)
    subst ho'
    have he' : e = [] := eq_nil_of_append (t ++ h)
      (by rw [hnumbers]; simp) fun hx => absurd (getLast_of_part he hx) (by decide)
    subst he'
    have hh' : h = [] := eq_nil_of_append t
      (by rw [hnumbers]; simp) fun hx => absurd (getLast_of_part hh hx) (by decide)
    subst hh'
    simp only [List.append_nil] at hnumbers
    subst hnumbers
    cases ht with
    | rank hpart => cases hpart
    | run hne hdigits => exact absurd (hdigits 1000 (by simp)) (by decide)

/-- `零二千` is normalized to 2000, and it has no reading where nothing may be skipped. -/
theorem normalizeNumbers_skips_zero :
    ∃ input out, normalizeNumbers ruleNumber (fun _ => false) input true = some out ∧
      out.arabicOutput = decimal 2000 ∧
      ∀ numbers, input.map (fun ch => ruleNumber ch.utf8) = numbers.map some →
        ∀ v, ¬ Reading (· = []) numbers v := by
  refine ⟨['零', '二', '千'].map character,
    ⟨['零', '二', '千'].map character, decimal 2000, none⟩, by decide +kernel, rfl, ?_⟩
  intro numbers hnumbers v hreading
  have hvalues : (['零', '二', '千'].map character).map (fun ch => ruleNumber ch.utf8) =
      [0, 2, 1000].map some := by decide +kernel
  obtain rfl : numbers = [0, 2, 1000] :=
    (List.map_injective_iff.mpr (Option.some_injective _) (hvalues.symm.trans hnumbers)).symm
  obtain ⟨hdigits, -⟩ | hjapanese := hreading
  · exact absurd (hdigits 1000 (by simp)) (by decide)
  · generalize hlist : [0, 2, 1000] = list at hjapanese
    cases hjapanese with
    | last hblock => exact not_block_zero v (hlist ▸ hblock)
    | @stop _ _ rank block hblock hbig hlt =>
      have hmem : rank ∈ [0, 2, 1000] := hlist ▸ by simp
      simp at hmem
      omega
    | @rank _ _ rank _ block rest hblock hbig hlt hrest =>
      have hmem : rank ∈ [0, 2, 1000] := hlist ▸ by simp
      simp at hmem
      omega

end MozkeyNumberUtil
