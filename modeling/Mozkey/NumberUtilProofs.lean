import Mozkey.Utf8Proofs

/-! # NumberUtil — reading Kanji numbers

    A number is a sequence of digit and rank values.  Four reducers read the thousands, the
    hundreds, the tens and the ones of a block from its start; a block is followed by a rank
    from 10000 on, or by nothing. -/

namespace MozkeyNumberUtil

open ByteString MozkeyUtil

/-! ## 64-bit arithmetic -/

/-- `std::numeric_limits<uint64_t>::max()`. -/
def maxUint64 : Nat := 2 ^ 64 - 1

/-- `AddAndCheckOverflow`. -/
def addAndCheckOverflow (arg1 arg2 : Nat) : Option Nat :=
  if arg2 > maxUint64 - arg1 then none else some (arg1 + arg2)

/-- `MultiplyAndCheckOverflow`. -/
def multiplyAndCheckOverflow (arg1 arg2 : Nat) : Option Nat :=
  if arg1 ≠ 0 ∧ arg2 > maxUint64 / arg1 then none else some (arg1 * arg2)

/-! ## The reducers -/

/-- The loop of `ReduceLeadingNumbersAsBase10System`: the output and the new `begin`. -/
def reduceLeadingLoop : Nat → List Nat → Option (Nat × List Nat)
  | output, [] => some (output, [])
  | output, number :: rest =>
    if number ≥ 10 then some (output, number :: rest)
    else do
      let output ← multiplyAndCheckOverflow output 10
      let output ← addAndCheckOverflow output number
      reduceLeadingLoop output rest

/-- `ReduceLeadingNumbersAsBase10System`. -/
def reduceLeadingNumbersAsBase10System (begin : List Nat) : Option (Nat × List Nat) :=
  reduceLeadingLoop 0 begin

/-- `InterpretNumbersAsBase10System`. -/
def interpretNumbersAsBase10System (numbers : List Nat) : Option Nat := do
  let reduced ← reduceLeadingNumbersAsBase10System numbers
  if reduced.2.isEmpty then some reduced.1 else none

/-- `ReduceOnesDigit`: `num` where it returns true, and the new `begin`. -/
def reduceOnesDigit : List Nat → Option Nat × List Nat
  | [] => (none, [])
  | number :: rest => if number ≥ 10 then (none, number :: rest) else (some number, rest)

/-- The sequence is at its end or at a rank from 10000 on. -/
def atBigRank (begin : List Nat) : Bool := begin.head?.all (· ≥ 10000)

/-- `ReduceDigitsHelper`: `num` where it returns true, and the new `begin`. -/
def reduceDigitsHelper (expectedBase : Nat) (begin : List Nat) : Option Nat × List Nat :=
  match begin.dropWhile (· = 0) with
  | [] => (none, [])
  | [leadingNumber] =>
    if leadingNumber ≥ 10 ∧
        (leadingNumber = expectedBase ∨ expectedBase = 10 ∧ leadingNumber = 20) then
      (some leadingNumber, [])
    else (none, [leadingNumber])
  | leadingNumber :: nextNumber :: rest =>
    if leadingNumber < 10 then
      if nextNumber < 10 then
        match reduceLeadingNumbersAsBase10System (leadingNumber :: nextNumber :: rest) with
        | none => (none, [])
        | some reduced =>
          if reduced.1 ≥ expectedBase * 10 ∨ ¬ atBigRank reduced.2 then (none, [])
          else (some reduced.1, reduced.2)
      else if nextNumber ≠ expectedBase ∨ leadingNumber = 1 ∧ expectedBase ≠ 1000 then
        (none, leadingNumber :: nextNumber :: rest)
      else (some (leadingNumber * expectedBase), rest)
    else if leadingNumber = expectedBase ∨ expectedBase = 10 ∧ leadingNumber = 20 then
      (some leadingNumber, nextNumber :: rest)
    else (none, leadingNumber :: nextNumber :: rest)

/-- `ReduceTensDigit`. -/
def reduceTensDigit (begin : List Nat) : Option Nat × List Nat := reduceDigitsHelper 10 begin

/-- `ReduceHundredsDigit`. -/
def reduceHundredsDigit (begin : List Nat) : Option Nat × List Nat := reduceDigitsHelper 100 begin

/-- `ReduceThousandsDigit`. -/
def reduceThousandsDigit (begin : List Nat) : Option Nat × List Nat :=
  reduceDigitsHelper 1000 begin

/-- `ReduceNumberLessThan10000`: `num` where it returns true, and the new `begin`. -/
def reduceNumberLessThan10000 (begin : List Nat) : Option Nat × List Nat :=
  let thousands := reduceThousandsDigit begin
  let hundreds := reduceHundredsDigit thousands.2
  let tens := reduceTensDigit hundreds.2
  let ones := reduceOnesDigit tens.2
  let num := thousands.1.getD 0 + hundreds.1.getD 0 + tens.1.getD 0 + ones.1.getD 0
  let success := thousands.1.isSome || hundreds.1.isSome || tens.1.isSome || ones.1.isSome
  (if success && atBigRank ones.2 then some num else none, ones.2)

/-- The loop of `InterpretNumbersInJapaneseWay`. -/
def interpretLoop : Nat → Nat → Nat → List Nat → Option Nat
  | 0, _, _, _ => none
  | fuel + 1, lastBase, output, begin => do
      let coef ← (reduceNumberLessThan10000 begin).1
      match (reduceNumberLessThan10000 begin).2 with
      | [] => addAndCheckOverflow output coef
      | base :: rest =>
        if base ≥ lastBase then none
        else do
          let delta ← multiplyAndCheckOverflow coef base
          let output ← addAndCheckOverflow output delta
          if rest.isEmpty then some output else interpretLoop fuel base output rest

/-- `InterpretNumbersInJapaneseWay`.  Every turn of the loop but the last takes a rank. -/
def interpretNumbersInJapaneseWay (numbers : List Nat) : Option Nat :=
  interpretLoop (numbers.length + 1) maxUint64 0 numbers

/-- `NormalizeNumbersHelper`. -/
def normalizeNumbersHelper (numbers : List Nat) : Option Nat :=
  match numbers.max? with
  | none => none
  | some max =>
    if max < 10 then interpretNumbersAsBase10System numbers
    else interpretNumbersInJapaneseWay numbers

/-! ## Texts -/

/-- `UnicodeChar`: the bytes of a character, and its code point. -/
structure UnicodeChar where
  utf8 : Bytes
  char32 : Nat
  deriving DecidableEq

/-- A text as `Utf8AsUnicodeChar` goes over it. -/
abbrev Text := List UnicodeChar

/-- The character of a string constant. -/
def character (c : Char) : UnicodeChar := ⟨MozkeyUtil.utf8 c.toNat, c.toNat⟩

/-- The kanji of the digits. -/
def kNumKanjiDigits : List UnicodeChar :=
  ['〇', '一', '二', '三', '四', '五', '六', '七', '八', '九'].map character

section Normalize

/- What `SimpleAtoi` reads of `KanjiNumberToArabicNumber` of a character, and what
   `ContainsScriptType` says of a text. -/
variable (arabicNumber : Bytes → Option Nat) (containsNumber : Text → Bool)

/-- The Kanji that `NormalizeNumbersInternal` writes for a character. -/
def kanjiChar (ch : UnicodeChar) : UnicodeChar :=
  if 0x30 ≤ ch.char32 ∧ ch.char32 ≤ 0x39 then kNumKanjiDigits.getD (ch.char32 - 0x30) ch
  else if 0xFF10 ≤ ch.char32 ∧ ch.char32 ≤ 0xFF19 then
    kNumKanjiDigits.getD (ch.char32 - 0xFF10) ch
  else ch

/-- What the loop of `NormalizeNumbersInternal` gathers. -/
structure Gathered where
  numbers : List Nat
  kanjiOutput : Text
  suffix : Option Text
  deriving DecidableEq

/-- The loop of `NormalizeNumbersInternal` over the characters. -/
def gatherNumbers (allowSuffix : Bool) : Text → Option Gathered
  | [] => some ⟨[], [], none⟩
  | ch :: input =>
    match arabicNumber ch.utf8 with
    | none =>
      if allowSuffix = false then none
      else if containsNumber (ch :: input) then none
      else some ⟨[], [], some (ch :: input)⟩
    | some n => do
        let gathered ← gatherNumbers allowSuffix input
        some ⟨n :: gathered.numbers, kanjiChar ch :: gathered.kanjiOutput, gathered.suffix⟩

/-- The zeros that `NormalizeNumbersInternal` adds to the output. -/
def leadingZeros (trimLeadingZeros : Bool) (numbers : List Nat) : Nat :=
  if trimLeadingZeros then 0
  else
    let numZeros := (numbers.takeWhile (· = 0)).length
    if numZeros = numbers.length then numZeros - 1 else numZeros

/-- What a normalization puts out. -/
structure Normalized where
  kanjiOutput : Text
  arabicOutput : Bytes
  suffix : Option Text
  deriving DecidableEq

/-- `NormalizeNumbersInternal`. -/
def normalizeNumbersInternal (input : Text) (trimLeadingZeros allowSuffix : Bool) :
    Option Normalized := do
  let gathered ← gatherNumbers arabicNumber containsNumber allowSuffix input
  if gathered.numbers.isEmpty then none
  else do
    let n ← normalizeNumbersHelper gathered.numbers
    some ⟨gathered.kanjiOutput,
      List.replicate (leadingZeros trimLeadingZeros gathered.numbers) (chr '0') ++ decimal n,
      gathered.suffix⟩

/-- `NumberUtil::NormalizeNumbers`. -/
def normalizeNumbers (input : Text) (trimLeadingZeros : Bool) : Option Normalized :=
  normalizeNumbersInternal arabicNumber containsNumber input trimLeadingZeros false

end Normalize

/-- The rules of `kanjinumber_to_arabicnumber`. -/
def kanjinumberToArabicnumber : List (Char × Nat) :=
  [('零', 0), ('一', 1), ('二', 2), ('三', 3), ('四', 4), ('五', 5), ('六', 6), ('七', 7),
    ('八', 8), ('九', 9), ('十', 10), ('百', 100), ('千', 1000), ('万', 10000),
    ('億', 100000000), ('兆', 1000000000000), ('京', 10000000000000000),
    ('0', 0), ('1', 1), ('2', 2), ('3', 3), ('4', 4), ('5', 5), ('6', 6), ('7', 7), ('8', 8),
    ('9', 9), ('０', 0), ('１', 1), ('２', 2), ('３', 3), ('４', 4), ('５', 5), ('６', 6),
    ('７', 7), ('８', 8), ('９', 9), ('壱', 1), ('弐', 2), ('参', 3), ('拾', 10), ('廿', 20),
    ('卅', 30), ('卌', 40)]

/-- The number of a character by the rules. -/
def ruleNumber (utf8 : Bytes) : Option Nat :=
  (kanjinumberToArabicnumber.find? fun rule => (character rule.1).utf8 == utf8).map Prod.snd

example : normalizeNumbersHelper [1, 10000, 2, 1000, 3, 100, 4, 10, 5] = some 12345 := by decide

/-! ## Digits -/

/-- The value of digits in base ten, behind `output`. -/
def base10 (output : Nat) (digits : List Nat) : Nat :=
  digits.foldl (fun output digit => output * 10 + digit) output

theorem le_base10 (digits : List Nat) (output : Nat) : output ≤ base10 output digits := by
  induction digits generalizing output with
  | nil => exact le_rfl
  | cons digit digits ih =>
    have h := ih (output * 10 + digit)
    exact le_trans (by omega) h

theorem addAndCheckOverflow_eq {arg1 arg2 : Nat} (h : arg1 ≤ maxUint64) :
    addAndCheckOverflow arg1 arg2 =
      if arg1 + arg2 ≤ maxUint64 then some (arg1 + arg2) else none := by
  rw [addAndCheckOverflow]
  split_ifs
  · omega
  · rfl
  · rfl
  · omega

theorem multiplyAndCheckOverflow_eq (arg1 arg2 : Nat) :
    multiplyAndCheckOverflow arg1 arg2 =
      if arg1 * arg2 ≤ maxUint64 then some (arg1 * arg2) else none := by
  rw [multiplyAndCheckOverflow]
  rcases Nat.eq_zero_or_pos arg1 with rfl | hpos
  · simp
  · have hdiv : arg2 > maxUint64 / arg1 ↔ ¬ arg1 * arg2 ≤ maxUint64 := by
      rw [gt_iff_lt, Nat.div_lt_iff_lt_mul hpos, Nat.not_le, Nat.mul_comm]
    simp only [hdiv, ne_eq, Nat.ne_of_gt hpos, not_false_eq_true, true_and, ite_not]

/-- The leading digits are read in base ten as long as their value fits in 64 bits. -/
theorem reduceLeadingLoop_eq (begin : List Nat) {output : Nat} (h : output ≤ maxUint64) :
    reduceLeadingLoop output begin =
      if base10 output (begin.takeWhile (· < 10)) ≤ maxUint64 then
        some (base10 output (begin.takeWhile (· < 10)), begin.dropWhile (· < 10))
      else none := by
  induction begin generalizing output with
  | nil =>
    rw [reduceLeadingLoop, if_pos]
    · rfl
    · exact h
  | cons number rest ih =>
    rw [reduceLeadingLoop]
    by_cases hnumber : number < 10
    · have hstep : base10 output ((number :: rest).takeWhile (· < 10)) =
          base10 (output * 10 + number) (rest.takeWhile (· < 10)) := by
        rw [List.takeWhile_cons_of_pos (by simpa using hnumber)]
        rfl
      have hle := le_base10 (rest.takeWhile (· < 10)) (output * 10 + number)
      rw [if_neg (Nat.not_le.mpr hnumber), hstep,
        List.dropWhile_cons_of_pos (by simpa using hnumber), multiplyAndCheckOverflow_eq]
      by_cases hmul : output * 10 ≤ maxUint64
      · rw [if_pos hmul, Option.bind_eq_bind, Option.bind_some, addAndCheckOverflow_eq hmul]
        by_cases hadd : output * 10 + number ≤ maxUint64
        · rw [if_pos hadd, Option.bind_some, ih hadd]
        · rw [if_neg hadd, if_neg (by omega)]
          rfl
      · rw [if_neg hmul, if_neg (by omega)]
        rfl
    · rw [if_pos (Nat.not_lt.mp hnumber), List.takeWhile_cons_of_neg (by simpa using hnumber),
        List.dropWhile_cons_of_neg (by simpa using hnumber)]
      exact (if_pos h).symm

/-- What is read so as a whole consists of digits. -/
theorem interpretNumbersAsBase10System_eq_some {numbers : List Nat} {v : Nat}
    (h : interpretNumbersAsBase10System numbers = some v) :
    (∀ x ∈ numbers, x < 10) ∧ v = base10 0 numbers := by
  obtain ⟨reduced, hreduced, h⟩ := Option.bind_eq_some_iff.mp h
  rw [reduceLeadingNumbersAsBase10System, reduceLeadingLoop_eq numbers (Nat.zero_le _)] at hreduced
  split_ifs at hreduced
  obtain rfl := Option.some.inj hreduced
  dsimp only at h
  split_ifs at h with hend
  have hdigits : ∀ x ∈ numbers, x < 10 := by
    simpa [List.dropWhile_eq_nil_iff] using List.isEmpty_iff.mp hend
  refine ⟨hdigits, ?_⟩
  rw [← Option.some.inj h, List.takeWhile_eq_self_iff.mpr (by simpa using hdigits)]

end MozkeyNumberUtil
