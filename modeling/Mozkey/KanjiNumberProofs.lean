import Mozkey.NumberReadingProofs

/-! # NumberUtil — Kanji numbers and back

    `ArabicToKanji` cuts a decimal number into groups of four digits and writes each of them
    that is not zero, with its rank.  Zeros are dropped, and in Kanji also the ones before ten,
    a hundred and a thousand. -/

namespace MozkeyNumberUtil

open ByteString MozkeyUtil

/-! ## ArabicToKanji -/

/-- The styles of `kKanjiVariations`. -/
inductive Style where
  | arabicAndKanjiHalfwidth | arabicAndKanjiFullwidth | kanji | oldKanji
  deriving DecidableEq

/-- `NumberString`. -/
structure NumberString where
  value : Text
  description : String
  style : Style
  deriving DecidableEq

/-- `NumberStringVariation`, as far as `ArabicToKanji` reads it. -/
structure NumberStringVariation where
  digits : List Text
  description : String
  style : Style

/-- A table of one character each. -/
def characters (cs : List Char) : List Text := cs.map fun c => [character c]

/-- The digits and the ranks, by their values. -/
def kNumHalfWidthDigits : List Text :=
  characters ['0', '1', '2', '3', '4', '5', '6', '7', '8', '9']

/-- Digits in full width. -/
def kNumFullWidthDigits : List Text :=
  characters ['０', '１', '２', '３', '４', '５', '６', '７', '８', '９']

/-- The old digits. -/
def kNumKanjiOldDigits : List Text :=
  [] :: characters ['壱', '弐', '参', '四', '五', '六', '七', '八', '九']

/-- The ranks. -/
def kNumKanjiRanks : List Text := [] :: [] :: characters ['十', '百', '千']

/-- The bigger ranks. -/
def kNumKanjiBiggerRanks : List Text := [] :: characters ['万', '億', '兆', '京']

/-- The old ranks. -/
def kNumKanjiOldRanks : List Text := [] :: [] :: characters ['拾', '百', '阡']

/-- The bigger old ranks. -/
def kNumKanjiBiggerOldRanks : List Text := [] :: characters ['萬', '億', '兆', '京']

/-- `kKanjiVariations`. -/
def kKanjiVariations : List NumberStringVariation :=
  [⟨kNumHalfWidthDigits, "数字", .arabicAndKanjiHalfwidth⟩,
    ⟨kNumFullWidthDigits, "数字", .arabicAndKanjiFullwidth⟩,
    ⟨kNumKanjiDigits.map fun ch => [ch], "漢数字", .kanji⟩,
    ⟨kNumKanjiOldDigits, "大字", .oldKanji⟩]

/-- A bigger rank has four digits. -/
def kDigitsInBigRank : Nat := 4

/-- `NumberUtil::IsDecimalInteger`. -/
def isDecimalInteger (str : Bytes) : Bool :=
  !str.isEmpty && str.all fun c => chr '0' ≤ c && c ≤ chr '9'

/-- `NUMBER_ARABIC_AND_KANJI_HALFWIDTH` or `NUMBER_ARABIC_AND_KANJI_FULLWIDTH`. -/
def Style.isArabicAndKanji : Style → Bool
  | .arabicAndKanjiHalfwidth | .arabicAndKanjiFullwidth => true
  | _ => false

/-- The number of a digit character. -/
def digit (c : UInt8) : Nat := c.toNat - (chr '0').toNat

/-- `input` with zeros in front, up to a multiple of four digits. -/
def fillZeros (inputNum : Bytes) : Bytes :=
  List.replicate ((kDigitsInBigRank - inputNum.length % kDigitsInBigRank) % kDigitsInBigRank)
    (chr '0') ++ inputNum

/-- `ranked_numbers[rank]`: the four digits of a rank, counted from the end. -/
def rankedNumber (input : Bytes) (rank : Nat) : Bytes :=
  (input.drop (input.length - kDigitsInBigRank * (rank + 1))).take kDigitsInBigRank

/-- The loop of `ArabicToKanji` over the digits of a segment, from index `i` on. -/
def segmentLoop (digits ranks : List Text) (style : Style) : Nat → Bool → Bytes → Text
  | _, _, [] => []
  | i, leading, c :: segment =>
    if leading && c == chr '0' then segmentLoop digits ranks style (i + 1) leading segment
    else
      (if style.isArabicAndKanji then digits.getD (digit c) []
        else if c = chr '0' then []
        else
          (if style = .oldKanji ∨ i = kDigitsInBigRank - 1 ∨ c ≠ chr '1' then
            digits.getD (digit c) [] else []) ++ ranks.getD (kDigitsInBigRank - i) []) ++
        segmentLoop digits ranks style (i + 1) false segment

/-- The loop of `ArabicToKanji` over the ranks, from the highest down. -/
def mergeLoop (digits ranks biggerRanks : List Text) (style : Style) (input : Bytes) : Nat → Text
  | 0 => []
  | rank + 1 =>
    let segmentResult := segmentLoop digits ranks style 0 true (rankedNumber input rank)
    (if segmentResult.isEmpty then [] else segmentResult ++ biggerRanks.getD rank []) ++
      mergeLoop digits ranks biggerRanks style input rank

/-- `absl::StrReplaceAll` of two characters by one. -/
def replacePair (x y z : UnicodeChar) : Text → Text
  | c :: d :: text =>
    if c = x ∧ d = y then z :: replacePair x y z text else c :: replacePair x y z (d :: text)
  | text => text

/-- What `ArabicToKanji` puts out for a variation. -/
def convertVariation (input : Bytes) (rankSize : Nat) (variation : NumberStringVariation) :
    List NumberString :=
  if rankSize = 1 ∧ variation.style.isArabicAndKanji then []
  else
    let old := variation.style = .oldKanji
    let result := mergeLoop variation.digits (if old then kNumKanjiOldRanks else kNumKanjiRanks)
      (if old then kNumKanjiBiggerOldRanks else kNumKanjiBiggerRanks) variation.style input
      rankSize
    let numberString value : NumberString := ⟨value, variation.description, variation.style⟩
    numberString result ::
      if old then
        let twenty := replacePair (character '弐') (character '拾') (character '廿') result
        (if twenty ≠ result then [numberString twenty] else []) ++
          (if input = ascii "0010" then [numberString [character '拾']] else []) ++
          (if input = ascii "1000" then [numberString [character '阡']] else [])
      else []

/-- `NumberUtil::ArabicToKanji`: what it appends to the output where it returns true. -/
def arabicToKanji (inputNum : Bytes) : Option (List NumberString) :=
  if ¬ isDecimalInteger inputNum then none
  else if inputNum.all (· == chr '0') then some [⟨[character '零'], "大字", .oldKanji⟩]
  else if kNumKanjiBiggerRanks.length * kDigitsInBigRank < inputNum.length then none
  else
    let input := fillZeros inputNum
    some (kKanjiVariations.flatMap
      (convertVariation input (input.length / kDigitsInBigRank)))

/-! ## Reading a group back -/

/-- The numbers of a digit with its rank; one is left out before the rank. -/
def partNumbers (base x : Nat) : List Nat :=
  if x = 0 then [] else if x = 1 then [base] else [x, base]

/-- The numbers of the ones. -/
def onesNumbers (x : Nat) : List Nat := if x = 0 then [] else [x]

/-- The numbers of a group in Kanji. -/
def kanjiNumbers (a b c d : Nat) : List Nat :=
  partNumbers 1000 a ++ (partNumbers 100 b ++ (partNumbers 10 c ++ onesNumbers d))

/-- The numbers are read as a block of the value, before a rank from 10000 on or the end. -/
def ReadsBlock (numbers : List Nat) (v : Nat) : Prop :=
  ∀ rest, atBigRank rest = true → reduceNumberLessThan10000 (numbers ++ rest) = (some v, rest)

/-- A sequence of which the reducer of `base` takes nothing: at its end, at another rank, or at
    a digit that stands before another rank or the end. -/
def Passes (base : Nat) (begin : List Nat) : Prop :=
  begin = [] ∨ (∃ x rest, begin = x :: rest ∧ 10 ≤ x ∧ x ≠ base ∧ x ≠ 20) ∨
    ∃ x rest, begin = x :: rest ∧ x ≠ 0 ∧ x < 10 ∧ ∀ y ∈ rest.head?, 10 ≤ y ∧ y ≠ base

variable {base : Nat} {begin : List Nat}

theorem Passes.reduce (h : Passes base begin) :
    reduceDigitsHelper base begin = (none, begin) := by
  obtain rfl | ⟨x, rest, rfl, hx, hbase, htwenty⟩ | ⟨x, rest, rfl, hzero, hx, hrest⟩ := h
  · rfl
  · have htrim : (x :: rest).dropWhile (· = 0) = x :: rest :=
      List.dropWhile_cons_of_neg (by simp; omega)
    rw [reduceDigitsHelper, htrim]
    cases rest with
    | nil => dsimp only; rw [if_neg (by omega)]
    | cons y rest => dsimp only; rw [if_neg (by omega), if_neg (by omega)]
  · have htrim : (x :: rest).dropWhile (· = 0) = x :: rest :=
      List.dropWhile_cons_of_neg (by simpa using hzero)
    rw [reduceDigitsHelper, htrim]
    cases rest with
    | nil => dsimp only; rw [if_neg (by omega)]
    | cons y rest =>
      obtain ⟨hy, hbase⟩ := hrest y rfl
      dsimp only
      rw [if_pos hx, if_neg (by omega), if_pos (.inl hbase)]

variable {x : Nat} {rest : List Nat}

theorem passes_ones (hbase : base ≤ 1000) (hx : x < 10) (hrest : atBigRank rest = true) :
    Passes base (onesNumbers x ++ rest) := by
  have hhead : ∀ y ∈ rest.head?, 10000 ≤ y := by
    intro y hy
    cases rest with
    | nil => exact absurd hy (by simp)
    | cons z rest =>
      obtain rfl := Option.some.inj hy
      exact atBigRank_cons.mp hrest
  rw [onesNumbers]
  split_ifs with hzero
  · cases rest with
    | nil => exact .inl rfl
    | cons y rest =>
      have hy := hhead y rfl
      exact .inr (.inl ⟨y, rest, rfl, by omega, by omega, by omega⟩)
  · refine .inr (.inr ⟨x, rest, rfl, hzero, hx, fun y hy => ?_⟩)
    have hbig := hhead y hy
    omega

theorem passes_part {base' : Nat} (hbase' : base' = 10 ∨ base' = 100) (hlt : base' < base)
    (hx : x < 10) (h : Passes base begin) :
    Passes base (partNumbers base' x ++ begin) := by
  rw [partNumbers]
  split_ifs with hzero hone
  · exact h
  · exact .inr (.inl ⟨base', begin, rfl, by omega, by omega, by omega⟩)
  · refine .inr (.inr ⟨x, base' :: begin, rfl, hzero, hx, fun y hy => ?_⟩)
    obtain rfl := Option.some.inj hy
    omega

theorem reduce_partNumbers (hbase : 10 ≤ base) (hx : x < 10) (h : Passes base begin) :
    reduceDigitsHelper base (partNumbers base x ++ begin) =
      (if x = 0 then none else some (x * base), begin) := by
  rw [partNumbers]
  split_ifs with hzero hone
  · exact h.reduce
  · have htrim : ([base] ++ begin).dropWhile (· = 0) = base :: begin :=
      List.dropWhile_cons_of_neg (by simp; omega)
    rw [reduceDigitsHelper, htrim, hone, Nat.one_mul]
    cases begin with
    | nil => dsimp only; rw [if_pos ⟨hbase, .inl rfl⟩]
    | cons y begin => dsimp only; rw [if_neg (by omega), if_pos (.inl rfl)]
  · have htrim : ([x, base] ++ begin).dropWhile (· = 0) = x :: base :: begin :=
      List.dropWhile_cons_of_neg (by simpa using hzero)
    rw [reduceDigitsHelper, htrim]
    dsimp only
    rw [if_pos hx, if_neg (by omega), if_neg (by omega)]

theorem reduceOnesDigit_onesNumbers (hx : x < 10) (hrest : atBigRank rest = true) :
    reduceOnesDigit (onesNumbers x ++ rest) = (if x = 0 then none else some x, rest) := by
  rw [onesNumbers]
  split_ifs with hzero
  · cases rest with
    | nil => rfl
    | cons y rest =>
      have hy := atBigRank_cons.mp hrest
      exact if_pos (by omega)
  · exact if_neg (by omega)

theorem getD_ite (x y : Nat) (h : x = 0 → y = 0) :
    (if x = 0 then none else some y : Option Nat).getD 0 = y := by
  split_ifs with hzero
  · exact (h hzero).symm
  · rfl

theorem isSome_ite (x y : Nat) :
    (if x = 0 then none else some y : Option Nat).isSome = decide (x ≠ 0) := by
  split_ifs with hzero
  · simp [hzero]
  · simp [hzero]

/-- **A GROUP IN KANJI** is read back, if it is not zero. -/
theorem readsBlock_kanji {a b c d : Nat} (ha : a < 10) (hb : b < 10) (hc : c < 10) (hd : d < 10)
    (hne : ¬ (a = 0 ∧ b = 0 ∧ c = 0 ∧ d = 0)) :
    ReadsBlock (kanjiNumbers a b c d) (a * 1000 + b * 100 + c * 10 + d) := by
  intro rest hrest
  have hones : ∀ {base}, base ≤ 1000 → Passes base (onesNumbers d ++ rest) :=
    fun hbase => passes_ones hbase hd hrest
  have htens : ∀ {base}, 10 < base → base ≤ 1000 →
      Passes base (partNumbers 10 c ++ (onesNumbers d ++ rest)) :=
    fun hlt hbase => passes_part (.inl rfl) hlt hc (hones hbase)
  have hhundreds : Passes 1000 (partNumbers 100 b ++ (partNumbers 10 c ++
      (onesNumbers d ++ rest))) :=
    passes_part (.inr rfl) (by decide) hb (htens (by decide) le_rfl)
  simp only [reduceNumberLessThan10000, reduceThousandsDigit, reduceHundredsDigit,
    reduceTensDigit, kanjiNumbers, List.append_assoc]
  rw [reduce_partNumbers (by decide) ha hhundreds]
  dsimp only
  rw [reduce_partNumbers (by decide) hb (htens (by decide) (by decide))]
  dsimp only
  rw [reduce_partNumbers (by decide) hc (hones (by decide))]
  dsimp only
  rw [reduceOnesDigit_onesNumbers hd hrest]
  dsimp only
  rw [isSome_ite, isSome_ite, isSome_ite, isSome_ite, getD_ite _ _ (by omega),
    getD_ite _ _ (by omega), getD_ite _ _ (by omega), getD_ite _ _ id, if_pos]
  simp only [Bool.and_eq_true, Bool.or_eq_true, decide_eq_true_eq]
  exact ⟨by omega, hrest⟩

theorem base10_append (output : Nat) (xs ys : List Nat) :
    base10 output (xs ++ ys) = base10 (base10 output xs) ys := List.foldl_append

theorem base10_eq (digits : List Nat) : ∀ output,
    base10 output digits = output * 10 ^ digits.length + base10 0 digits := by
  induction digits with
  | nil => intro output; simp [base10]
  | cons d digits ih =>
    intro output
    have hcons : ∀ output, base10 output (d :: digits) = base10 (output * 10 + d) digits :=
      fun _ => rfl
    rw [hcons, hcons, ih, ih (0 * 10 + d), List.length_cons, Nat.pow_succ]
    ring

theorem base10_lt {digits : List Nat} (h : ∀ x ∈ digits, x < 10) :
    base10 0 digits < 10 ^ digits.length := by
  induction digits using List.reverseRecOn with
  | nil => exact Nat.one_pos
  | append_singleton digits d ih =>
    have hd := h d (by simp)
    have hdigits := ih fun x hx => h x (List.mem_append_left _ hx)
    rw [base10_append, List.length_append, List.length_singleton, Nat.pow_succ]
    have hstep : base10 (base10 0 digits) [d] = base10 0 digits * 10 + d := rfl
    omega

/-- The numbers of a group in digits: its zeros in front are dropped. -/
def arabicNumbers (digits : List Nat) : List Nat := digits.dropWhile (· = 0)

theorem base10_arabicNumbers (digits : List Nat) :
    base10 0 (arabicNumbers digits) = base10 0 digits := by
  induction digits with
  | nil => rfl
  | cons d digits ih =>
    rw [arabicNumbers, List.dropWhile_cons]
    split_ifs with hzero
    · obtain rfl := of_decide_eq_true hzero
      exact ih
    · rfl

/-- A run of digits is taken as a whole by the reducer of the thousands. -/
theorem reduce_run {run : List Nat} (hrun : IsRun run rest) (hlength : run.length ≤ 4)
    (hrest : atBigRank rest = true) :
    reduceDigitsHelper 1000 (run ++ rest) = (some (base10 0 run), rest) := by
  obtain ⟨hdigits, htwo, hhead, hmaximal⟩ := hrun
  have hvalue : base10 0 run < 10000 :=
    Nat.lt_of_lt_of_le (base10_lt hdigits) (Nat.pow_le_pow_right (by decide) hlength)
  have htake : (run ++ rest).takeWhile (· < 10) = run ∧
      (run ++ rest).dropWhile (· < 10) = rest := by
    have hnone : rest.takeWhile (· < 10) = [] ∧ rest.dropWhile (· < 10) = rest := by
      cases rest with
      | nil => exact ⟨rfl, rfl⟩
      | cons x rest =>
        have hx := hmaximal x rfl
        exact ⟨List.takeWhile_cons_of_neg (by simp; omega),
          List.dropWhile_cons_of_neg (by simp; omega)⟩
    constructor
    · rw [List.takeWhile_append_of_pos (by simpa using hdigits), hnone.1, List.append_nil]
    · rw [List.dropWhile_append_of_pos (by simpa using hdigits), hnone.2]
  obtain _ | ⟨x, _ | ⟨y, run⟩⟩ := run
  · exact absurd htwo (by simp)
  · exact absurd htwo (by simp)
  · have hx : x ≠ 0 := fun hx => hhead (congrArg some hx)
    have htrim : (x :: y :: run ++ rest).dropWhile (· = 0) = x :: y :: (run ++ rest) :=
      List.dropWhile_cons_of_neg (by simpa using hx)
    have hreduce : reduceLeadingNumbersAsBase10System (x :: y :: (run ++ rest)) =
        some (base10 0 (x :: y :: run), rest) := by
      rw [reduceLeadingNumbersAsBase10System, reduceLeadingLoop_eq _ (Nat.zero_le _)]
      rw [List.cons_append, List.cons_append] at htake
      rw [htake.1, htake.2, if_pos (by rw [maxUint64]; omega)]
    rw [reduceDigitsHelper, htrim]
    dsimp only
    rw [if_pos (hdigits x List.mem_cons_self),
      if_pos (hdigits y (List.mem_cons_of_mem _ List.mem_cons_self)), hreduce]
    dsimp only
    rw [if_neg (by simp only [hrest, not_true_eq_false, or_false]; omega)]

/-- **A GROUP IN DIGITS** is read back, if it is not zero. -/
theorem readsBlock_arabic {digits : List Nat} (hdigits : ∀ x ∈ digits, x < 10)
    (hlength : digits.length ≤ 4) (hne : arabicNumbers digits ≠ []) :
    ReadsBlock (arabicNumbers digits) (base10 0 digits) := by
  intro rest hrest
  rw [← base10_arabicNumbers]
  have hsub : ∀ x ∈ arabicNumbers digits, x < 10 :=
    fun x hx => hdigits x ((List.dropWhile_suffix _).subset hx)
  have hshort : (arabicNumbers digits).length ≤ 4 :=
    ((List.dropWhile_suffix _).length_le).trans hlength
  have hhead : ∀ x ∈ (arabicNumbers digits).head?, x ≠ 0 := fun x hx => by
    have h := List.head?_dropWhile_not (fun x => decide (x = 0)) digits
    rw [← arabicNumbers, Option.mem_def.mp hx] at h
    simpa using h
  have hmaximal : ∀ y ∈ rest.head?, 10 ≤ y := by
    intro y hy
    cases rest with
    | nil => exact absurd hy (by simp)
    | cons z rest =>
      obtain rfl := Option.some.inj hy
      have hz := atBigRank_cons.mp hrest
      omega
  generalize arabicNumbers digits = run at hne hsub hshort hhead
  obtain _ | ⟨x, _ | ⟨y, run⟩⟩ := run
  · exact absurd rfl hne
  · -- One digit is left for the ones.
    have hx := hsub x List.mem_cons_self
    have hzero : x ≠ 0 := hhead x rfl
    have hones : onesNumbers x = [x] := if_neg hzero
    have hpasses : ∀ {base}, base ≤ 1000 → reduceDigitsHelper base ([x] ++ rest) =
        (none, [x] ++ rest) := fun hbase => by
      rw [← hones]
      exact (passes_ones hbase hx hrest).reduce
    simp only [reduceNumberLessThan10000, reduceThousandsDigit, reduceHundredsDigit,
      reduceTensDigit, hpasses (le_refl 1000), hpasses (show 100 ≤ 1000 by decide),
      hpasses (show 10 ≤ 1000 by decide)]
    rw [← hones, reduceOnesDigit_onesNumbers hx hrest, hones]
    simp [hzero, hrest, base10]
  · -- Two digits or more are a run.
    have hrun : IsRun (x :: y :: run) rest :=
      ⟨hsub, by simp, fun h => hhead 0 h rfl, hmaximal⟩
    have hnone : ∀ {base}, base ≤ 1000 → reduceDigitsHelper base rest = (none, rest) :=
      fun hbase => reduceDigitsHelper_over hbase hrest
    simp only [reduceNumberLessThan10000, reduceThousandsDigit, reduceHundredsDigit,
      reduceTensDigit, reduce_run hrun hshort hrest, hnone (show 100 ≤ 1000 by decide),
      hnone (show 10 ≤ 1000 by decide)]
    have hones := reduceOnesDigit_onesNumbers (x := 0) (by decide) hrest
    rw [show onesNumbers 0 ++ rest = rest from rfl] at hones
    rw [hones]
    simp [hrest]

/-! ## Reading the ranks back -/

/-- The numbers of a rank: none for the lowest one. -/
def rankNumbers (rank : Nat) : List Nat := if rank = 0 then [] else [10000 ^ rank]

/-- The numbers of the groups below `rank`, each with its rank, where `numbers` gives those of a
    group. -/
def groupNumbers (numbers : Nat → List Nat) : Nat → List Nat
  | 0 => []
  | rank + 1 =>
    (if numbers rank = [] then [] else numbers rank ++ rankNumbers rank) ++
      groupNumbers numbers rank

/-- The value of the groups below `rank`. -/
def groupValue (value : Nat → Nat) : Nat → Nat
  | 0 => 0
  | rank + 1 => value rank * 10000 ^ rank + groupValue value rank

variable {numbers : Nat → List Nat} {value : Nat → Nat}

theorem groupNumbers_eq_nil_iff (hzero : ∀ rank, numbers rank = [] ↔ value rank = 0) (rank : Nat) :
    groupNumbers numbers rank = [] ↔ groupValue value rank = 0 := by
  induction rank with
  | zero => exact iff_of_true rfl rfl
  | succ rank ih =>
    rw [groupNumbers, groupValue, List.append_eq_nil_iff, ih, Nat.add_eq_zero_iff,
      Nat.mul_eq_zero, or_iff_left (Nat.ne_of_gt (Nat.pow_pos (by decide))), ← hzero]
    refine and_congr_left fun _ => ?_
    split_ifs with hnumbers
    · exact iff_of_true rfl hnumbers
    · exact iff_of_false (fun h => hnumbers (List.append_eq_nil_iff.mp h).1) hnumbers

/-- **THE RANKS** are read back with their groups. -/
theorem interpretLoop_groups (hzero : ∀ rank, numbers rank = [] ↔ value rank = 0)
    (hreads : ∀ rank, value rank ≠ 0 → ReadsBlock (numbers rank) (value rank)) (rank : Nat) :
    ∀ {fuel lastBase output : Nat}, (groupNumbers numbers rank).length < fuel →
      (∀ r < rank, 10000 ^ r < lastBase) → groupValue value rank ≠ 0 →
      output + groupValue value rank ≤ maxUint64 →
      interpretLoop fuel lastBase output (groupNumbers numbers rank) =
        some (output + groupValue value rank) := by
  induction rank with
  | zero => intro fuel lastBase output _ _ hne; exact absurd rfl hne
  | succ rank ih =>
    intro fuel lastBase output hfuel hbases hne hmax
    by_cases hvalue : value rank = 0
    · -- A group of zeros is left out.
      have hnumbers : groupNumbers numbers (rank + 1) = groupNumbers numbers rank := by
        rw [groupNumbers, if_pos ((hzero rank).mpr hvalue), List.nil_append]
      have hsame : groupValue value (rank + 1) = groupValue value rank := by
        rw [groupValue, hvalue, Nat.zero_mul, Nat.zero_add]
      rw [hnumbers] at hfuel ⊢
      rw [hsame] at hne hmax ⊢
      exact ih hfuel (fun r hr => hbases r (Nat.lt_succ_of_lt hr)) hne hmax
    · obtain ⟨fuel, rfl⟩ := Nat.exists_eq_succ_of_ne_zero (Nat.ne_of_gt (Nat.zero_lt_of_lt hfuel))
      have hnumbers : groupNumbers numbers (rank + 1) =
          numbers rank ++ (rankNumbers rank ++ groupNumbers numbers rank) := by
        rw [groupNumbers, if_neg (mt (hzero rank).mp hvalue), List.append_assoc]
      rw [groupValue] at hmax ⊢
      rw [hnumbers] at hfuel ⊢
      cases rank with
      | zero =>
        -- The lowest group has no rank behind it.
        have hreduce := hreads 0 hvalue [] rfl
        rw [List.append_nil] at hreduce
        simp only [rankNumbers, if_true, groupNumbers, groupValue, List.append_nil,
          Nat.pow_zero, Nat.mul_one, Nat.add_zero] at hmax ⊢
        rw [interpretLoop, hreduce]
        exact (addAndCheckOverflow_eq (by omega)).trans (if_pos hmax)
      | succ rank =>
        have hbig : atBigRank (10000 ^ (rank + 1) :: groupNumbers numbers (rank + 1)) = true :=
          atBigRank_cons.mpr (Nat.le_self_pow (Nat.succ_ne_zero _) _)
        have hreduce := hreads (rank + 1) hvalue _ hbig
        have hbase := hbases (rank + 1) (Nat.lt_succ_self _)
        rw [rankNumbers, if_neg (Nat.succ_ne_zero _), List.singleton_append] at hfuel ⊢
        simp only [List.length_append, List.length_cons] at hfuel
        rw [interpretLoop, hreduce]
        simp only [Option.bind_eq_bind, Option.bind_some]
        rw [if_neg (Nat.not_le.mpr hbase), multiplyAndCheckOverflow_eq, if_pos (by omega),
          Option.bind_some, addAndCheckOverflow_eq (by omega), if_pos (by omega),
          Option.bind_some]
        by_cases hend : groupValue value (rank + 1) = 0
        · rw [(groupNumbers_eq_nil_iff hzero (rank + 1)).mpr hend, hend]
          rfl
        · have hnil : groupNumbers numbers (rank + 1) ≠ [] :=
            mt (groupNumbers_eq_nil_iff hzero (rank + 1)).mp hend
          rw [if_neg (by simpa using hnil), ih (by omega)
            (fun r hr => Nat.pow_lt_pow_right (by decide) hr) hend (by omega), Nat.add_assoc]

/-! ## Texts and their numbers -/

/-- The characters that are read as digits and ranks, with their values. -/
def digitAndRankNumbers : List (Char × Nat) :=
  [('0', 0), ('1', 1), ('2', 2), ('3', 3), ('4', 4), ('5', 5), ('6', 6), ('7', 7), ('8', 8),
    ('9', 9), ('０', 0), ('１', 1), ('２', 2), ('３', 3), ('４', 4), ('５', 5), ('６', 6),
    ('７', 7), ('８', 8), ('９', 9), ('一', 1), ('二', 2), ('三', 3), ('四', 4), ('五', 5),
    ('六', 6), ('七', 7), ('八', 8), ('九', 9), ('十', 10), ('百', 100), ('千', 1000),
    ('万', 10 ^ 4), ('億', 10 ^ 8), ('兆', 10 ^ 12), ('京', 10 ^ 16)]

/-- The numbers of the characters of a text. -/
def Numbered (arabicNumber : Bytes → Option Nat) (text : Text) (numbers : List Nat) : Prop :=
  text.map (fun ch => arabicNumber ch.utf8) = numbers.map some

section Numbered

variable {arabicNumber : Bytes → Option Nat}

theorem Numbered.append {text text' : Text} {numbers numbers' : List Nat}
    (h : Numbered arabicNumber text numbers) (h' : Numbered arabicNumber text' numbers') :
    Numbered arabicNumber (text ++ text') (numbers ++ numbers') := by
  unfold Numbered at h h' ⊢
  rw [List.map_append, List.map_append, h, h']

theorem Numbered.isEmpty_iff {text : Text} {numbers : List Nat}
    (h : Numbered arabicNumber text numbers) : text.isEmpty = true ↔ numbers = [] := by
  have hlength := congrArg List.length h
  rw [List.length_map, List.length_map] at hlength
  rw [List.isEmpty_iff, ← List.length_eq_zero_iff, hlength, List.length_eq_zero_iff]

theorem gatherNumbers_of_numbered {containsNumber : Text → Bool} {text : Text}
    {numbers : List Nat} (h : Numbered arabicNumber text numbers) :
    ∃ kanjiOutput, gatherNumbers arabicNumber containsNumber false text =
      some ⟨numbers, kanjiOutput, none⟩ := by
  induction text generalizing numbers with
  | nil =>
    obtain rfl := List.map_eq_nil_iff.mp h.symm
    exact ⟨[], rfl⟩
  | cons ch text ih =>
    cases numbers with
    | nil => exact absurd h (by simp [Numbered])
    | cons n numbers =>
      obtain ⟨hch, htext⟩ := List.cons.inj h
      obtain ⟨kanjiOutput, hgather⟩ := ih htext
      refine ⟨kanjiChar ch :: kanjiOutput, ?_⟩
      rw [gatherNumbers, show arabicNumber ch.utf8 = some n from hch, hgather]
      rfl

variable (hrules : ∀ rule ∈ digitAndRankNumbers,
  arabicNumber (character rule.1).utf8 = some rule.2)

include hrules

theorem numbered_characters {cs : List Char} {v : Nat} (hx : x < cs.length)
    (hrule : (cs.getD x ' ', v) ∈ digitAndRankNumbers) :
    Numbered arabicNumber ((characters cs).getD x []) [v] := by
  have hget : (characters cs).getD x [] = [character (cs.getD x ' ')] := by
    rw [characters, List.getD_eq_getElem _ _ (by simpa using hx), List.getElem_map,
      List.getD_eq_getElem _ _ hx]
  rw [hget, Numbered, List.map_singleton, List.map_singleton, hrules _ hrule]

theorem numbered_halfWidth (hx : x < 10) :
    Numbered arabicNumber (kNumHalfWidthDigits.getD x []) [x] := by
  have hrule : ∀ x < 10, (['0', '1', '2', '3', '4', '5', '6', '7', '8', '9'].getD x ' ', x) ∈
      digitAndRankNumbers := by decide
  exact numbered_characters hrules hx (hrule x hx)

theorem numbered_fullWidth (hx : x < 10) :
    Numbered arabicNumber (kNumFullWidthDigits.getD x []) [x] := by
  have hrule : ∀ x < 10, (['０', '１', '２', '３', '４', '５', '６', '７', '８', '９'].getD x ' ', x) ∈
      digitAndRankNumbers := by decide
  exact numbered_characters hrules hx (hrule x hx)

theorem numbered_kanji (hzero : x ≠ 0) (hx : x < 10) :
    Numbered arabicNumber ((kNumKanjiDigits.map fun ch => [ch]).getD x []) [x] := by
  have hrule : ∀ x < 10, x ≠ 0 →
      (['〇', '一', '二', '三', '四', '五', '六', '七', '八', '九'].getD x ' ', x) ∈
        digitAndRankNumbers := by decide
  exact numbered_characters hrules hx (hrule x hx hzero)

/-- The rank behind the digit at an index of a segment. -/
def rankAt (i : Nat) : List Nat := if i < 3 then [10 ^ (3 - i)] else []

theorem numbered_ranks {i : Nat} (hi : i < 4) :
    Numbered arabicNumber (kNumKanjiRanks.getD (4 - i) []) (rankAt i) := by
  have hrank : ∀ x v, x < 3 → (['十', '百', '千'].getD x ' ', v) ∈ digitAndRankNumbers →
      Numbered arabicNumber (kNumKanjiRanks.getD (x + 2) []) [v] :=
    fun x v hx hrule => numbered_characters hrules hx hrule
  obtain rfl | rfl | rfl | rfl : i = 0 ∨ i = 1 ∨ i = 2 ∨ i = 3 := by omega
  · exact hrank 2 1000 (by decide) (by decide)
  · exact hrank 1 100 (by decide) (by decide)
  · exact hrank 0 10 (by decide) (by decide)
  · rfl

theorem numbered_biggerRanks {rank : Nat} (hrank : rank < 5) :
    Numbered arabicNumber (kNumKanjiBiggerRanks.getD rank []) (rankNumbers rank) := by
  have hbig : ∀ x v, x < 4 → (['万', '億', '兆', '京'].getD x ' ', v) ∈ digitAndRankNumbers →
      Numbered arabicNumber (kNumKanjiBiggerRanks.getD (x + 1) []) [v] :=
    fun x v hx hrule => numbered_characters hrules hx hrule
  obtain rfl | rfl | rfl | rfl | rfl :
      rank = 0 ∨ rank = 1 ∨ rank = 2 ∨ rank = 3 ∨ rank = 4 := by omega
  · rfl
  · exact hbig 0 _ (by decide) (by decide)
  · exact hbig 1 _ (by decide) (by decide)
  · exact hbig 2 _ (by decide) (by decide)
  · exact hbig 3 _ (by decide) (by decide)

variable {c : UInt8}

omit hrules in
theorem digit_spec (hc : chr '0' ≤ c ∧ c ≤ chr '9') :
    digit c < 10 ∧ c.toNat = digit c + 0x30 := by
  have hlow : 0x30 ≤ c.toNat := hc.1
  have hhigh : c.toNat ≤ 0x39 := hc.2
  have hzero : (chr '0').toNat = 0x30 := by decide
  rw [digit, hzero]
  omega

omit hrules in
theorem digit_eq_iff {d : UInt8} (hc : chr '0' ≤ c ∧ c ≤ chr '9') (hd : chr '0' ≤ d ∧ d ≤ chr '9') :
    c = d ↔ digit c = digit d := by
  refine ⟨congrArg digit, fun h => UInt8.toNat_inj.mp ?_⟩
  rw [(digit_spec hc).2, (digit_spec hd).2, h]

omit hrules in
theorem eq_zero_iff (hc : chr '0' ≤ c ∧ c ≤ chr '9') : c = chr '0' ↔ digit c = 0 :=
  digit_eq_iff hc (by decide)

omit hrules in
theorem eq_one_iff (hc : chr '0' ≤ c ∧ c ≤ chr '9') : c = chr '1' ↔ digit c = 1 :=
  digit_eq_iff hc (by decide)

omit hrules in
/-- The digits of a segment, without the zeros in front where these are skipped. -/
theorem numbered_segment_arabic {digits ranks : List Text} {style : Style}
    (hstyle : style.isArabicAndKanji = true)
    (hdigits : ∀ x < 10, Numbered arabicNumber (digits.getD x []) [x]) (segment : Bytes) :
    (∀ c ∈ segment, chr '0' ≤ c ∧ c ≤ chr '9') → ∀ i leading,
      Numbered arabicNumber (segmentLoop digits ranks style i leading segment)
        (if leading then arabicNumbers (segment.map digit) else segment.map digit) := by
  induction segment with
  | nil => intro _ i leading; cases leading <;> rfl
  | cons c segment ih =>
    intro hsegment i leading
    obtain ⟨hc, hsegment⟩ := List.forall_mem_cons.mp hsegment
    have hdigit := hdigits (digit c) (digit_spec hc).1
    have hall := ih hsegment (i + 1)
    rw [segmentLoop, hstyle, if_pos rfl, List.map_cons, arabicNumbers, List.dropWhile_cons]
    have hkeep := hdigit.append (hall false)
    rw [if_neg Bool.false_ne_true, List.singleton_append] at hkeep
    cases leading with
    | false => exact hkeep
    | true =>
      by_cases hzero : c = chr '0'
      · rw [if_pos (by simp [hzero]), if_pos rfl,
          if_pos (by simpa using (eq_zero_iff hc).mp hzero)]
        exact hall true
      · rw [if_neg (by simp [hzero]), if_pos rfl,
          if_neg (by simpa using mt (eq_zero_iff hc).mpr hzero)]
        exact hkeep

omit hrules in
/-- The numbers of the digits of a segment in Kanji, from index `i` on. -/
def kanjiPieces : Nat → List Nat → List Nat
  | _, [] => []
  | i, x :: digits =>
    (if x = 0 then [] else (if i = 3 ∨ x ≠ 1 then [x] else []) ++ rankAt i) ++
      kanjiPieces (i + 1) digits

theorem numbered_segment_kanji (segment : Bytes) :
    (∀ c ∈ segment, chr '0' ≤ c ∧ c ≤ chr '9') → ∀ i leading, i + segment.length ≤ 4 →
      Numbered arabicNumber
        (segmentLoop (kNumKanjiDigits.map fun ch => [ch]) kNumKanjiRanks .kanji i leading segment)
        (kanjiPieces i (segment.map digit)) := by
  induction segment with
  | nil => intro _ i leading _; rfl
  | cons c segment ih =>
    intro hsegment i leading hlength
    obtain ⟨hc, hsegment⟩ := List.forall_mem_cons.mp hsegment
    rw [List.length_cons] at hlength
    have hall := fun leading => ih hsegment (i + 1) leading (by omega)
    have hrank := numbered_ranks hrules (show i < 4 by omega)
    rw [segmentLoop, List.map_cons, kanjiPieces]
    by_cases hzero : digit c = 0
    · -- A zero is left out, at the front and elsewhere.
      have hchr := (eq_zero_iff hc).mpr hzero
      rw [if_pos hzero, List.nil_append,
        if_neg (by decide : ¬ Style.kanji.isArabicAndKanji = true), if_pos hchr,
        List.nil_append]
      split_ifs
      · exact hall leading
      · exact hall false
    · have hchr := mt (eq_zero_iff hc).mp hzero
      rw [if_neg (by simp [hchr]), if_neg (by decide), if_neg hchr, if_neg hzero]
      refine Numbered.append (Numbered.append ?_ hrank) (hall false)
      have hwrite : (Style.kanji = .oldKanji ∨ i = kDigitsInBigRank - 1 ∨ c ≠ chr '1') ↔
          (i = 3 ∨ digit c ≠ 1) := by
        simp [kDigitsInBigRank, eq_one_iff hc]
      by_cases hwritten : i = 3 ∨ digit c ≠ 1
      · rw [if_pos (hwrite.mpr hwritten), if_pos hwritten]
        exact numbered_kanji hrules hzero (digit_spec hc).1
      · rw [if_neg (mt hwrite.mp hwritten), if_neg hwritten]
        rfl

omit hrules in
theorem kanjiPieces_four (a b c d : Nat) : kanjiPieces 0 [a, b, c, d] = kanjiNumbers a b c d := by
  have hpart : ∀ x base, (if x = 0 then [] else (if x ≠ 1 then [x] else []) ++ [base]) =
      partNumbers base x := by
    intro x base
    rw [partNumbers]
    split_ifs <;> simp_all
  simp only [kanjiPieces, kanjiNumbers, rankAt, onesNumbers]
  simp [← hpart]

/-- The groups with their ranks, if the groups are written as `numbers` has them. -/
theorem numbered_mergeLoop {digits : List Text} {style : Style} {input : Bytes}
    (hsegment : ∀ rank, Numbered arabicNumber
      (segmentLoop digits kNumKanjiRanks style 0 true (rankedNumber input rank)) (numbers rank))
    {rank : Nat} (hrank : rank ≤ 5) :
    Numbered arabicNumber
      (mergeLoop digits kNumKanjiRanks kNumKanjiBiggerRanks style input rank)
      (groupNumbers numbers rank) := by
  induction rank with
  | zero => rfl
  | succ rank ih =>
    rw [mergeLoop, groupNumbers]
    refine Numbered.append ?_ (ih (by omega))
    by_cases hempty : numbers rank = []
    · rw [if_pos ((hsegment rank).isEmpty_iff.mpr hempty), if_pos hempty]
      rfl
    · rw [if_neg (mt (hsegment rank).isEmpty_iff.mp hempty), if_neg hempty]
      exact (hsegment rank).append (numbered_biggerRanks hrules (by omega))

end Numbered

/-! ## The value of the groups -/

/-- A decimal string: digits, at least one. -/
def AllDigits (s : Bytes) : Prop := ∀ c ∈ s, chr '0' ≤ c ∧ c ≤ chr '9'

/-- The value of a decimal string. -/
def decimalValue (s : Bytes) : Nat := base10 0 (s.map digit)

variable {s : Bytes}

theorem isDecimalInteger_iff :
    isDecimalInteger s = true ↔ s ≠ [] ∧ AllDigits s := by
  simp [isDecimalInteger, AllDigits]

theorem digits_lt (h : AllDigits s) : ∀ x ∈ s.map digit, x < 10 := by
  intro x hx
  obtain ⟨c, hc, rfl⟩ := List.mem_map.mp hx
  exact (digit_spec (h c hc)).1

theorem decimalValue_append (s t : Bytes) :
    decimalValue (s ++ t) = decimalValue s * 10 ^ t.length + decimalValue t := by
  rw [decimalValue, List.map_append, base10_append, base10_eq, List.length_map]
  rfl

theorem decimalValue_lt (h : AllDigits s) : decimalValue s < 10 ^ s.length := by
  have hlt := base10_lt (digits_lt h)
  rwa [List.length_map] at hlt

theorem pow_le_decimalValue {c : UInt8} (hc : chr '0' ≤ c ∧ c ≤ chr '9') (hne : c ≠ chr '0') :
    10 ^ s.length ≤ decimalValue (c :: s) := by
  rw [← List.singleton_append, decimalValue_append]
  have hpos : 1 ≤ decimalValue [c] := by
    have hdigit := mt (eq_zero_iff hc).mpr hne
    rw [show decimalValue [c] = 0 * 10 + digit c from rfl]
    omega
  exact le_trans (Nat.le_mul_of_pos_left _ hpos) (Nat.le_add_right _ _)

/-- A decimal string without a leading zero is what its value is printed as. -/
theorem decimal_decimalValue (hne : s ≠ []) (h : AllDigits s) (hhead : s.head? ≠ some (chr '0')) :
    decimal (decimalValue s) = s := by
  induction s using List.reverseRecOn with
  | nil => exact absurd rfl hne
  | append_singleton front c ih =>
    have hc := h c (by simp)
    obtain ⟨hlt, hnat⟩ := digit_spec hc
    have hone : decimal (digit c) = [c] := by
      have hdigits : ∀ d < 10, decimal d = [UInt8.ofNat (d + 0x30)] := by decide
      rw [hdigits _ hlt, ← hnat, UInt8.ofNat_toNat]
    rw [decimalValue_append, List.length_singleton, Nat.pow_one,
      show decimalValue [c] = 0 * 10 + digit c from rfl, Nat.zero_mul, Nat.zero_add]
    cases front with
    | nil => rw [show decimalValue [] = 0 from rfl, Nat.zero_mul, Nat.zero_add, hone]; rfl
    | cons d front =>
      have hd : d ≠ chr '0' := fun hd => hhead (by rw [hd]; rfl)
      have hfront := ih (List.cons_ne_nil _ _) (fun c hc => h c (List.mem_append_left _ hc))
        (by simpa using hd)
      have hpos : 0 < decimalValue (d :: front) :=
        lt_of_lt_of_le (Nat.pow_pos (by decide)) (pow_le_decimalValue (h d (by simp)) hd)
      rw [Nat.mul_comm, decimal, ← Nat.toDigits_append_toDigits (by decide) hpos hlt,
        List.map_append]
      rw [decimal] at hfront hone
      rw [hfront, hone]

theorem groupValue_eq (input : Bytes) {rank : Nat}
    (hrank : kDigitsInBigRank * rank ≤ input.length) :
    groupValue (fun rank => decimalValue (rankedNumber input rank)) rank =
      decimalValue (input.drop (input.length - kDigitsInBigRank * rank)) := by
  induction rank with
  | zero => rw [kDigitsInBigRank, Nat.mul_zero, Nat.sub_zero, List.drop_length]; rfl
  | succ rank ih =>
    rw [kDigitsInBigRank] at hrank
    have hdrop : input.drop (input.length - kDigitsInBigRank * (rank + 1)) =
        rankedNumber input rank ++ input.drop (input.length - kDigitsInBigRank * rank) := by
      rw [rankedNumber, show input.length - kDigitsInBigRank * rank =
        input.length - kDigitsInBigRank * (rank + 1) + kDigitsInBigRank by
          rw [kDigitsInBigRank]; omega, ← List.drop_drop, List.take_append_drop]
    rw [groupValue, ih (by rw [kDigitsInBigRank]; omega), hdrop, decimalValue_append,
      List.length_drop, show input.length - (input.length - kDigitsInBigRank * rank) = 4 * rank by
        rw [kDigitsInBigRank]; omega, Nat.pow_mul]

theorem allDigits_fillZeros (h : AllDigits s) : AllDigits (fillZeros s) := by
  intro c hc
  rcases List.mem_append.mp hc with hc | hc
  · rw [List.eq_of_mem_replicate hc]
    decide
  · exact h c hc

theorem decimalValue_fillZeros (s : Bytes) : decimalValue (fillZeros s) = decimalValue s := by
  have hzeros : ∀ n, decimalValue (List.replicate n (chr '0')) = 0 := by
    intro n
    induction n with
    | zero => rfl
    | succ n ih =>
      rw [List.replicate_succ', decimalValue_append, ih]
      rfl
  rw [fillZeros, decimalValue_append, hzeros, Nat.zero_mul, Nat.zero_add]

theorem length_fillZeros (s : Bytes) :
    (fillZeros s).length = kDigitsInBigRank * ((s.length + 3) / 4) := by
  rw [fillZeros, List.length_append, List.length_replicate, kDigitsInBigRank]
  omega

theorem length_rankedNumber {input : Bytes} (h : 4 ≤ input.length) (rank : Nat) :
    (rankedNumber input rank).length = 4 := by
  rw [rankedNumber, List.length_take, List.length_drop, kDigitsInBigRank]
  omega

theorem allDigits_rankedNumber {input : Bytes} (h : AllDigits input) (rank : Nat) :
    AllDigits (rankedNumber input rank) :=
  fun c hc => h c (List.mem_of_mem_drop (List.mem_of_mem_take hc))

/-! ## The groups of a style -/

theorem exists_four {segment : Bytes} (h : AllDigits segment) (hlength : segment.length = 4) :
    ∃ a b c d, segment.map digit = [a, b, c, d] ∧ a < 10 ∧ b < 10 ∧ c < 10 ∧ d < 10 := by
  have hlt := digits_lt h
  rw [← List.length_map (f := digit)] at hlength
  obtain ⟨a, b, c, d, hdigits⟩ := List.length_eq_four.mp hlength
  rw [hdigits] at hlt
  exact ⟨a, b, c, d, hdigits, hlt a (by simp), hlt b (by simp), hlt c (by simp), hlt d (by simp)⟩

theorem partNumbers_eq_nil_iff : partNumbers base x = [] ↔ x = 0 := by
  rw [partNumbers]
  by_cases hzero : x = 0
  · simp [hzero]
  · rw [if_neg hzero]
    split_ifs <;> simp [hzero]

theorem onesNumbers_eq_nil_iff : onesNumbers x = [] ↔ x = 0 := by
  by_cases hzero : x = 0 <;> simp [onesNumbers, hzero]

theorem kanjiNumbers_eq_nil_iff {a b c d : Nat} :
    kanjiNumbers a b c d = [] ↔ a = 0 ∧ b = 0 ∧ c = 0 ∧ d = 0 := by
  simp only [kanjiNumbers, List.append_eq_nil_iff, partNumbers_eq_nil_iff, onesNumbers_eq_nil_iff]

theorem eq_zero_of_partNumbers (hbase : 10 ≤ base) (h : ∀ y ∈ partNumbers base x, y < 10) :
    x = 0 := by
  by_contra hzero
  have hmem : base ∈ partNumbers base x := by
    rw [partNumbers, if_neg hzero]
    split_ifs <;> simp
  exact absurd (h base hmem) (Nat.not_lt.mpr hbase)

/-- The groups of a filled number in Kanji. -/
def kanjiGroup (input : Bytes) (rank : Nat) : List Nat :=
  kanjiPieces 0 ((rankedNumber input rank).map digit)

/-- The groups of a filled number in digits. -/
def arabicGroup (input : Bytes) (rank : Nat) : List Nat :=
  arabicNumbers ((rankedNumber input rank).map digit)

/-- The value of a group of a filled number. -/
def rankValue (input : Bytes) (rank : Nat) : Nat := decimalValue (rankedNumber input rank)

theorem kanjiGroup_spec {input : Bytes} (h : AllDigits input) (hlength : 4 ≤ input.length)
    (rank : Nat) : ∃ a b c d, kanjiGroup input rank = kanjiNumbers a b c d ∧
      rankValue input rank = a * 1000 + b * 100 + c * 10 + d ∧
      a < 10 ∧ b < 10 ∧ c < 10 ∧ d < 10 := by
  obtain ⟨a, b, c, d, hdigits, hlt⟩ :=
    exists_four (allDigits_rankedNumber h rank) (length_rankedNumber hlength rank)
  refine ⟨a, b, c, d, ?_, ?_, hlt⟩
  · rw [kanjiGroup, hdigits, kanjiPieces_four]
  · rw [rankValue, decimalValue, hdigits]
    simp only [base10, List.foldl_cons, List.foldl_nil]
    omega

theorem kanjiGroup_eq_nil_iff {input : Bytes} (h : AllDigits input) (hlength : 4 ≤ input.length)
    (rank : Nat) : kanjiGroup input rank = [] ↔ rankValue input rank = 0 := by
  obtain ⟨a, b, c, d, hgroup, hvalue, -⟩ := kanjiGroup_spec h hlength rank
  rw [hgroup, hvalue, kanjiNumbers_eq_nil_iff]
  omega

theorem readsBlock_kanjiGroup {input : Bytes} (h : AllDigits input) (hlength : 4 ≤ input.length)
    (rank : Nat) (hne : rankValue input rank ≠ 0) :
    ReadsBlock (kanjiGroup input rank) (rankValue input rank) := by
  obtain ⟨a, b, c, d, hgroup, hvalue, ha, hb, hc, hd⟩ := kanjiGroup_spec h hlength rank
  rw [hgroup, hvalue]
  exact readsBlock_kanji ha hb hc hd (by omega)

/-- A group in Kanji that shows no number from 10 on is a digit. -/
theorem kanjiGroup_small {input : Bytes} (h : AllDigits input) (hlength : 4 ≤ input.length)
    (rank : Nat) (hsmall : ∀ x ∈ kanjiGroup input rank, x < 10) :
    kanjiGroup input rank = onesNumbers (rankValue input rank) := by
  obtain ⟨a, b, c, d, hgroup, hvalue, -⟩ := kanjiGroup_spec h hlength rank
  rw [hgroup] at hsmall
  simp only [kanjiNumbers, List.forall_mem_append] at hsmall
  obtain ⟨ha, hb, hc, -⟩ := hsmall
  obtain rfl := eq_zero_of_partNumbers (by decide) ha
  obtain rfl := eq_zero_of_partNumbers (by decide) hb
  obtain rfl := eq_zero_of_partNumbers (by decide) hc
  rw [hgroup, hvalue]
  simp [kanjiNumbers, partNumbers]

theorem arabicGroup_eq_nil_iff {input : Bytes} (rank : Nat) :
    arabicGroup input rank = [] ↔ rankValue input rank = 0 := by
  rw [arabicGroup, rankValue, decimalValue]
  generalize (rankedNumber input rank).map digit = digits
  constructor
  · intro hnil
    rw [← base10_arabicNumbers, hnil]
    rfl
  · intro hzero
    by_contra hne
    obtain ⟨x, run, hrun⟩ := List.exists_cons_of_ne_nil hne
    have hx : x ≠ 0 := by
      have hhead := List.head?_dropWhile_not (fun x => decide (x = 0)) digits
      rw [← arabicNumbers, hrun] at hhead
      simpa using hhead
    rw [← base10_arabicNumbers, hrun, show base10 0 (x :: run) = base10 (0 * 10 + x) run from rfl]
      at hzero
    have hle := le_base10 run (0 * 10 + x)
    omega

theorem readsBlock_arabicGroup {input : Bytes} (h : AllDigits input) (hlength : 4 ≤ input.length)
    (rank : Nat) (hne : rankValue input rank ≠ 0) :
    ReadsBlock (arabicGroup input rank) (rankValue input rank) := by
  refine readsBlock_arabic (digits_lt (allDigits_rankedNumber h rank)) ?_
    (mt (arabicGroup_eq_nil_iff rank).mp hne)
  rw [List.length_map, length_rankedNumber hlength]

/-- Groups that show no number from 10 on are one digit, if each of them is. -/
theorem groupNumbers_small (hzero : ∀ rank, numbers rank = [] ↔ value rank = 0)
    (hdigit : ∀ rank, (∀ x ∈ numbers rank, x < 10) → numbers rank = onesNumbers (value rank))
    (rank : Nat) (hsmall : ∀ x ∈ groupNumbers numbers rank, x < 10) :
    groupNumbers numbers rank = onesNumbers (groupValue value rank) := by
  induction rank with
  | zero => rfl
  | succ rank ih =>
    rw [groupNumbers] at hsmall ⊢
    obtain ⟨hgroup, hlower⟩ := List.forall_mem_append.mp hsmall
    rw [groupValue]
    by_cases hnil : numbers rank = []
    · rw [if_pos hnil, List.nil_append, ih hlower, (hzero rank).mp hnil, Nat.zero_mul,
        Nat.zero_add]
    · rw [if_neg hnil] at hgroup ⊢
      obtain ⟨hnumbers, hrank⟩ := List.forall_mem_append.mp hgroup
      cases rank with
      | zero =>
        rw [hdigit 0 hnumbers]
        simp [rankNumbers, groupNumbers, groupValue]
      | succ rank =>
        -- The rank itself is larger.
        have hbig := hrank (10000 ^ (rank + 1)) (by simp [rankNumbers])
        have hle : 10000 ≤ 10000 ^ (rank + 1) := Nat.le_self_pow (Nat.succ_ne_zero _) _
        omega

/-! ## The round trip -/

theorem interpretNumbers_groups (hzero : ∀ rank, numbers rank = [] ↔ value rank = 0)
    (hreads : ∀ rank, value rank ≠ 0 → ReadsBlock (numbers rank) (value rank)) {rank : Nat}
    (hrank : rank ≤ 5) (hne : groupValue value rank ≠ 0) (hmax : groupValue value rank < 2 ^ 64) :
    interpretNumbersInJapaneseWay (groupNumbers numbers rank) = some (groupValue value rank) := by
  have hmax' : 0 + groupValue value rank ≤ maxUint64 := by
    rw [maxUint64, Nat.zero_add]
    omega
  have hbases : ∀ r < rank, 10000 ^ r < maxUint64 := by
    intro r hr
    have hle : 10000 ^ r ≤ 10000 ^ 4 := Nat.pow_le_pow_right (by decide) (by omega)
    exact lt_of_le_of_lt hle (by decide)
  rw [interpretNumbersInJapaneseWay,
    interpretLoop_groups hzero hreads rank (Nat.lt_succ_self _) hbases hne hmax', Nat.zero_add]

/-- Numbers that are read as blocks are normalized so, if they show a rank or are one digit. -/
theorem normalizeNumbersHelper_eq {numbers : List Nat} {n : Nat}
    (hblocks : interpretNumbersInJapaneseWay numbers = some n)
    (hdigit : (∀ x ∈ numbers, x < 10) → numbers = [n]) :
    normalizeNumbersHelper numbers = some n := by
  have hne : numbers ≠ [] := by
    rintro rfl
    exact absurd (hdigit (by simp)) (by simp)
  rw [normalizeNumbersHelper]
  cases hmax : numbers.max? with
  | none => exact absurd (List.max?_eq_none_iff.mp hmax) hne
  | some max =>
    dsimp only
    split_ifs with hlt
    · have hsmall : ∀ x ∈ numbers, x < 10 := fun x hx =>
        lt_of_le_of_lt ((List.max?_eq_some_iff.mp hmax).2 x hx) hlt
      have hone := hdigit hsmall
      have hn : n < 10 := hsmall n (by rw [hone]; exact List.mem_singleton.mpr rfl)
      have hsum : base10 0 [n] = n := by simp [base10]
      have hmax64 : n ≤ maxUint64 := by rw [maxUint64]; omega
      rw [hone, interpretNumbersAsBase10System, reduceLeadingNumbersAsBase10System,
        reduceLeadingLoop_eq _ (Nat.zero_le _), List.takeWhile_cons_of_pos (by simpa using hn),
        List.dropWhile_cons_of_pos (by simpa using hn), List.takeWhile_nil, hsum, if_pos hmax64]
      rfl
    · exact hblocks

theorem normalizeNumbers_of_numbered {arabicNumber : Bytes → Option Nat}
    {containsNumber : Text → Bool} {text : Text} {numbers : List Nat} {n : Nat}
    (h : Numbered arabicNumber text numbers) (hn : normalizeNumbersHelper numbers = some n) :
    ∃ kanjiOutput, normalizeNumbers arabicNumber containsNumber text true =
      some ⟨kanjiOutput, decimal n, none⟩ := by
  obtain ⟨kanjiOutput, hgather⟩ :=
    @gatherNumbers_of_numbered arabicNumber containsNumber text numbers h
  have hne : numbers ≠ [] := by
    rintro rfl
    simp [normalizeNumbersHelper] at hn
  refine ⟨kanjiOutput, ?_⟩
  rw [normalizeNumbers, normalizeNumbersInternal, hgather]
  simp only [Option.bind_eq_bind, Option.bind_some, List.isEmpty_iff, hne, if_false, hn]
  rfl

/-- What the round trip needs of a number: its groups make its value, and they are few. -/
structure Filled (s input : Bytes) (rankSize : Nat) : Prop where
  digits : AllDigits input
  length : input.length = 4 * rankSize
  pos : 1 ≤ rankSize
  few : rankSize ≤ 5
  value : groupValue (rankValue input) rankSize = decimalValue s
  top : 10 ^ (4 * (rankSize - 1)) ≤ decimalValue s

theorem filled_fillZeros (hdecimal : isDecimalInteger s = true) (hhead : s.head? ≠ some (chr '0'))
    (hmax : decimalValue s < 2 ^ 64) :
    Filled s (fillZeros s) ((fillZeros s).length / kDigitsInBigRank) ∧ s.length ≤ 20 := by
  obtain ⟨hne, hdigits⟩ := isDecimalInteger_iff.mp hdecimal
  obtain ⟨c, tail, rfl⟩ := List.exists_cons_of_ne_nil hne
  have hpow : 10 ^ tail.length ≤ decimalValue (c :: tail) :=
    pow_le_decimalValue (hdigits c List.mem_cons_self) (by simpa using hhead)
  have hshort : tail.length < 20 := by
    by_contra hlong
    have hle : 10 ^ 20 ≤ 10 ^ tail.length := Nat.pow_le_pow_right (by decide) (Nat.not_lt.mp hlong)
    omega
  have hlength := length_fillZeros (c :: tail)
  rw [kDigitsInBigRank, List.length_cons] at hlength
  have hrank : (fillZeros (c :: tail)).length / kDigitsInBigRank = (tail.length + 4) / 4 := by
    rw [hlength, kDigitsInBigRank, Nat.mul_div_cancel_left _ (by decide)]
  rw [hrank, List.length_cons]
  refine ⟨⟨allDigits_fillZeros hdigits, hlength, by omega, by omega, ?_, ?_⟩, by omega⟩
  · have hvalue := @groupValue_eq (fillZeros (c :: tail)) ((tail.length + 4) / 4)
      (by rw [hlength, kDigitsInBigRank])
    rw [hlength, kDigitsInBigRank, Nat.sub_self, List.drop_zero, decimalValue_fillZeros] at hvalue
    exact hvalue
  · exact le_trans (Nat.pow_le_pow_right (by decide) (by omega)) hpow

variable {rankSize : Nat}

theorem Filled.ne_zero {input : Bytes} (h : Filled s input rankSize) :
    groupValue (rankValue input) rankSize ≠ 0 := by
  rw [h.value]
  exact Nat.ne_of_gt (lt_of_lt_of_le (Nat.pow_pos (by decide)) h.top)

theorem Filled.four_le {input : Bytes} (h : Filled s input rankSize) :
    4 ≤ input.length := by
  have hlength := h.length
  have hpos := h.pos
  omega

theorem Filled.normalize_kanji {input : Bytes} (h : Filled s input rankSize)
    (hmax : decimalValue s < 2 ^ 64) :
    normalizeNumbersHelper (groupNumbers (kanjiGroup input) rankSize) = some (decimalValue s) := by
  have hzero := kanjiGroup_eq_nil_iff h.digits h.four_le
  rw [← h.value] at hmax ⊢
  refine normalizeNumbersHelper_eq (interpretNumbers_groups hzero
    (readsBlock_kanjiGroup h.digits h.four_le) h.few h.ne_zero hmax) fun hsmall => ?_
  rw [groupNumbers_small hzero (kanjiGroup_small h.digits h.four_le) rankSize hsmall, onesNumbers,
    if_neg h.ne_zero]

/-- The groups in digits are normalized to the number, if there are two at least. -/
theorem Filled.normalize_arabic {input : Bytes} (h : Filled s input rankSize)
    (hmax : decimalValue s < 2 ^ 64) (htwo : rankSize ≠ 1) :
    normalizeNumbersHelper (groupNumbers (arabicGroup input) rankSize) =
      some (decimalValue s) := by
  have hblocks := interpretNumbers_groups (@arabicGroup_eq_nil_iff input)
    (readsBlock_arabicGroup h.digits h.four_le) h.few h.ne_zero (h.value ▸ hmax)
  rw [h.value] at hblocks
  refine normalizeNumbersHelper_eq hblocks fun hsmall => ?_
  -- The highest group is not zero, and it has its rank behind it.
  have hpos := h.pos
  have htop := h.top
  have hvalue := h.value
  have hlength := h.length
  obtain ⟨rank, rfl⟩ := Nat.exists_eq_add_of_le' (show 2 ≤ rankSize by omega)
  rw [show rank + 2 = rank + 1 + 1 from rfl, groupNumbers] at hsmall
  have hlower : groupValue (rankValue input) (rank + 1) < 10 ^ (4 * (rank + 1)) := by
    have heq := @groupValue_eq input (rank + 1)
      (by rw [kDigitsInBigRank]; omega)
    rw [show (rankValue input) = fun rank => decimalValue (rankedNumber input rank) from rfl, heq]
    have hlt := decimalValue_lt (s := input.drop (input.length - kDigitsInBigRank * (rank + 1)))
      fun c hc => h.digits c (List.mem_of_mem_drop hc)
    rwa [List.length_drop, show input.length - (input.length - kDigitsInBigRank * (rank + 1)) =
      4 * (rank + 1) by rw [kDigitsInBigRank]; omega] at hlt
  have hgroup : arabicGroup input (rank + 1) ≠ [] := by
    intro hnil
    rw [show rank + 2 = rank + 1 + 1 from rfl, groupValue,
      (arabicGroup_eq_nil_iff (rank + 1)).mp hnil, Nat.zero_mul, Nat.zero_add] at hvalue
    rw [← hvalue, show rank + 2 - 1 = rank + 1 from rfl] at htop
    exact absurd hlower (Nat.not_lt.mpr htop)
  rw [if_neg hgroup] at hsmall
  have hbig := hsmall (10000 ^ (rank + 1)) (by simp [rankNumbers])
  have hle : 10000 ≤ 10000 ^ (rank + 1) := Nat.le_self_pow (Nat.succ_ne_zero _) _
  omega

/-- A variation puts out numbers in its own style, and all but the old one put out one. -/
theorem mem_convertVariation {input : Bytes} {variation : NumberStringVariation}
    {out : NumberString} (hout : out ∈ convertVariation input rankSize variation) :
    out.style = variation.style ∧ (variation.style ≠ .oldKanji →
      ¬ (rankSize = 1 ∧ variation.style.isArabicAndKanji = true) ∧
        out.value = mergeLoop variation.digits kNumKanjiRanks kNumKanjiBiggerRanks variation.style
          input rankSize) := by
  rw [convertVariation] at hout
  by_cases hskip : rankSize = 1 ∧ variation.style.isArabicAndKanji = true
  · rw [if_pos hskip] at hout
    simp at hout
  · rw [if_neg hskip] at hout
    by_cases hold : variation.style = .oldKanji
    · refine ⟨?_, fun hne => absurd hold hne⟩
      simp only [if_pos hold, List.mem_cons, List.mem_append, List.mem_ite_nil_right,
        List.not_mem_nil, or_false] at hout
      obtain rfl | (⟨-, rfl⟩ | ⟨-, rfl⟩) | ⟨-, rfl⟩ := hout <;> rfl
    · simp only [if_neg hold, List.mem_singleton] at hout
      subst hout
      exact ⟨rfl, fun _ => ⟨hskip, rfl⟩⟩

section Variations

variable {arabicNumber : Bytes → Option Nat}
  (hrules : ∀ rule ∈ digitAndRankNumbers, arabicNumber (character rule.1).utf8 = some rule.2)

include hrules

variable {input : Bytes}

theorem Filled.numbered_kanji (h : Filled s input rankSize) :
    Numbered arabicNumber
      (mergeLoop (kNumKanjiDigits.map fun ch => [ch]) kNumKanjiRanks kNumKanjiBiggerRanks .kanji
        input rankSize)
      (groupNumbers (kanjiGroup input) rankSize) := by
  refine numbered_mergeLoop hrules (fun rank => ?_) h.few
  exact numbered_segment_kanji hrules _ (allDigits_rankedNumber h.digits rank) 0 true
    (by rw [length_rankedNumber h.four_le])

theorem Filled.numbered_arabic (h : Filled s input rankSize) {digits : List Text} {style : Style}
    (hstyle : style.isArabicAndKanji = true)
    (hdigits : ∀ x < 10, Numbered arabicNumber (digits.getD x []) [x]) :
    Numbered arabicNumber
      (mergeLoop digits kNumKanjiRanks kNumKanjiBiggerRanks style input rankSize)
      (groupNumbers (arabicGroup input) rankSize) := by
  refine numbered_mergeLoop hrules (fun rank => ?_) h.few
  exact numbered_segment_arabic hstyle hdigits _ (allDigits_rankedNumber h.digits rank) 0 true

/-- **EVERY VARIATION** but the old one shows numbers that are normalized to the number. -/
theorem Filled.numbered_variation (h : Filled s input rankSize) (hmax : decimalValue s < 2 ^ 64)
    {variation : NumberStringVariation} (hmem : variation ∈ kKanjiVariations)
    (hold : variation.style ≠ .oldKanji)
    (hskip : ¬ (rankSize = 1 ∧ variation.style.isArabicAndKanji = true)) :
    ∃ numbers, Numbered arabicNumber
        (mergeLoop variation.digits kNumKanjiRanks kNumKanjiBiggerRanks variation.style input
          rankSize) numbers ∧
      normalizeNumbersHelper numbers = some (decimalValue s) := by
  simp only [kKanjiVariations, List.mem_cons, List.not_mem_nil, or_false] at hmem
  obtain rfl | rfl | rfl | rfl := hmem
  · exact ⟨_, h.numbered_arabic hrules rfl fun x hx => numbered_halfWidth hrules hx,
      h.normalize_arabic hmax fun hone => hskip ⟨hone, rfl⟩⟩
  · exact ⟨_, h.numbered_arabic hrules rfl fun x hx => numbered_fullWidth hrules hx,
      h.normalize_arabic hmax fun hone => hskip ⟨hone, rfl⟩⟩
  · exact ⟨_, h.numbered_kanji hrules, h.normalize_kanji hmax⟩
  · exact absurd rfl hold

end Variations

/-- **THE ROUND TRIP.**  A decimal string without a leading zero that fits in 64 bits is converted,
    and what is put out in Kanji, or in digits and Kanji, is normalized to that string. -/
theorem arabicToKanji_normalize {arabicNumber : Bytes → Option Nat} {containsNumber : Text → Bool}
    (hrules : ∀ rule ∈ digitAndRankNumbers, arabicNumber (character rule.1).utf8 = some rule.2)
    {s : Bytes} (hdecimal : isDecimalInteger s = true) (hhead : s.head? ≠ some (chr '0'))
    (hmax : decimalValue s < 2 ^ 64) :
    ∃ output, arabicToKanji s = some output ∧ ∀ out ∈ output,
      out.style = .kanji ∨ out.style = .arabicAndKanjiHalfwidth ∨
        out.style = .arabicAndKanjiFullwidth →
      ∃ kanjiOutput, normalizeNumbers arabicNumber containsNumber out.value true =
        some ⟨kanjiOutput, s, none⟩ := by
  obtain ⟨hne, hdigits⟩ := isDecimalInteger_iff.mp hdecimal
  obtain ⟨hfilled, hlength⟩ := filled_fillZeros hdecimal hhead hmax
  have hzeros : ¬ s.all (· == chr '0') = true := by
    obtain ⟨c, tail, rfl⟩ := List.exists_cons_of_ne_nil hne
    intro hall
    exact hhead (congrArg some (beq_iff_eq.mp (List.all_eq_true.mp hall c List.mem_cons_self)))
  have hfew : ¬ kNumKanjiBiggerRanks.length * kDigitsInBigRank < s.length :=
    Nat.not_lt.mpr hlength
  refine ⟨_, by rw [arabicToKanji, if_neg (by simpa using hdecimal), if_neg hzeros, if_neg hfew],
    fun out hout hstyle => ?_⟩
  obtain ⟨variation, hmem, hout⟩ := List.mem_flatMap.mp hout
  obtain ⟨hsame, hvalue⟩ := mem_convertVariation hout
  have hold : variation.style ≠ .oldKanji := by
    intro hold
    rw [hsame, hold] at hstyle
    simp at hstyle
  obtain ⟨hskip, hvalue⟩ := hvalue hold
  obtain ⟨numbers, hnumbers, hhelper⟩ := hfilled.numbered_variation hrules hmax hmem hold hskip
  have hnormalize := @normalizeNumbers_of_numbered _ containsNumber _ _ _ hnumbers hhelper
  rwa [decimal_decimalValue hne hdigits hhead, ← hvalue] at hnormalize

/-- 1010 comes back from its kanji. -/
theorem arabicToKanji_normalize_1010 :
    ∃ output, arabicToKanji (ascii "1010") = some output ∧ ∀ out ∈ output,
      out.style = .kanji ∨ out.style = .arabicAndKanjiHalfwidth ∨
        out.style = .arabicAndKanjiFullwidth →
      ∃ kanjiOutput, normalizeNumbers ruleNumber (fun _ => false) out.value true =
        some ⟨kanjiOutput, ascii "1010", none⟩ :=
  arabicToKanji_normalize (by decide +kernel) (by decide) (by decide) (by decide)

end MozkeyNumberUtil
