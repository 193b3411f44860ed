import Mozkey.UnicodeStringsProofs

/-! # Transliterators — how a chunk is displayed and split

    A transliterator shows either the raw or the converted string of a chunk, and splits both
    strings where the one it shows is to be split.  The conversions between scripts and widths
    are parameters.  A string that ends in the middle of a character cannot be split: the scan
    would run past its end. -/

namespace MozkeyComposer

open ByteString MozkeyUtil

/-- The conversions that the transliterators call: `japanese_util`, and the forms that the
    character form manager prefers for a preedit string. -/
structure JapaneseUtil where
  halfWidthToFullWidth : Bytes → Bytes
  fullWidthToHalfWidth : Bytes → Bytes
  hiraganaToKatakana : Bytes → Bytes
  katakanaToHiragana : Bytes → Bytes
  halfWidthKatakanaToFullWidthKatakana : Bytes → Bytes
  fullWidthAsciiToHalfWidthAscii : Bytes → Bytes
  halfWidthAsciiToFullWidthAscii : Bytes → Bytes
  convertPreeditString : Bytes → Bytes

/-- `Transliterators::Transliterator`. -/
inductive Transliterator where
  | conversionString | rawString | hiragana | fullKatakana | halfKatakana | fullAscii | halfAscii
  | localT12r
  deriving DecidableEq

/-- `Utf8SubString` from a start to the end; `none` where the last character is cut off and the
    scan runs past the end of the string. -/
def utf8Drop : Nat → Bytes → Option Bytes
  | 0, src => some src
  | _ + 1, [] => some []
  | start + 1, c :: src =>
    if (c :: src).length < oneCharLen c then none
    else utf8Drop start ((c :: src).drop (oneCharLen c))

/-- `Utf8SubString` of a length from the start of a string; `none` as above. -/
def utf8Take : Nat → Bytes → Option Bytes
  | 0, _ => some []
  | _ + 1, [] => some []
  | length + 1, c :: src =>
    if (c :: src).length < oneCharLen c then none
    else (utf8Take length ((c :: src).drop (oneCharLen c))).map
      ((c :: src).take (oneCharLen c) ++ ·)

/-- `Utf8SubString` with the length `npos`; every character takes a byte at least. -/
def utf8SubString (src : Bytes) (start : Nat) : Option Bytes :=
  (utf8Drop start src).bind fun rest => utf8Take rest.length rest

/-- `Utf8SubString` of a start and a length. -/
def utf8SubStringOf (src : Bytes) (start length : Nat) : Option Bytes :=
  (utf8Drop start src).bind (utf8Take length)

theorem utf8Drop_flatMap : ∀ {cs : List Nat} (n : Nat), (∀ c ∈ cs, IsScalar c) →
    utf8Drop n (cs.flatMap utf8) = some ((cs.drop n).flatMap utf8) := by
  intro cs
  induction cs with
  | nil => intro n _; cases n <;> rfl
  | cons c cs ih =>
    intro n hcs
    obtain ⟨hc, hcs⟩ := List.forall_mem_cons.mp hcs
    cases n with
    | zero => rfl
    | succ n =>
      obtain ⟨b, bs, htext, hle, hdrop, -⟩ := MozkeyStrings.utf8_append_spec hc (cs.flatMap utf8)
      rw [List.flatMap_cons, htext, utf8Drop, if_neg hle, hdrop, ih n hcs, List.drop_succ_cons]

theorem utf8Take_flatMap : ∀ {cs : List Nat} (n : Nat), (∀ c ∈ cs, IsScalar c) →
    utf8Take n (cs.flatMap utf8) = some ((cs.take n).flatMap utf8) := by
  intro cs
  induction cs with
  | nil => intro n _; cases n <;> rfl
  | cons c cs ih =>
    intro n hcs
    obtain ⟨hc, hcs⟩ := List.forall_mem_cons.mp hcs
    cases n with
    | zero => rfl
    | succ n =>
      obtain ⟨b, bs, htext, hle, hdrop, htake⟩ :=
        MozkeyStrings.utf8_append_spec hc (cs.flatMap utf8)
      rw [List.flatMap_cons, htext, utf8Take, if_neg hle, hdrop, htake, ih n hcs,
        List.take_succ_cons, List.flatMap_cons]
      rfl

theorem utf8SubStringOf_flatMap {cs : List Nat} (hcs : ∀ c ∈ cs, IsScalar c)
    (start length : Nat) :
    utf8SubStringOf (cs.flatMap utf8) start length
      = some (((cs.drop start).take length).flatMap utf8) := by
  rw [utf8SubStringOf, utf8Drop_flatMap start hcs, Option.bind_some,
    utf8Take_flatMap length fun c hc => hcs c (List.mem_of_mem_drop hc)]

theorem utf8Take_add : ∀ (a b : Nat) (src : Bytes), utf8Take (a + b) src
    = (utf8Take a src).bind fun front =>
        (utf8SubStringOf src a b).map fun rest => front ++ rest := by
  intro a
  induction a with
  | zero =>
    intro b src
    rw [Nat.zero_add]
    simp [utf8Take, utf8SubStringOf, utf8Drop]
  | succ a ih =>
    intro b src
    rw [Nat.succ_add]
    cases src with
    | nil => cases b <;> rfl
    | cons c src =>
      rw [utf8SubStringOf, utf8Take, utf8Take, utf8Drop]
      split
      · rfl
      · rw [ih, utf8SubStringOf]
        cases utf8Take a _ with
        | none => rfl
        | some front =>
          cases (utf8Drop a _).bind (utf8Take b) with
          | none => rfl
          | some rest => simp

/-- What `Split` gives. -/
structure SplitStrings where
  rawLhs : Bytes
  rawRhs : Bytes
  convertedLhs : Bytes
  convertedRhs : Bytes

/-- `SplitPrimaryString`: both parts of the primary and the secondary string, and whether the
    strings have the same end. -/
def splitPrimaryString (position : Nat) (primary secondary : Bytes) :
    Option ((Bytes × Bytes) × (Bytes × Bytes) × Bool) :=
  match utf8Take position primary, utf8SubString primary position with
  | some primaryLhs, some primaryRhs =>
    if primaryRhs <:+ secondary then
      some ((primaryLhs, primaryRhs),
        (secondary.take (secondary.length - primaryRhs.length), primaryRhs), true)
    else some ((primaryLhs, primaryRhs), (primaryLhs, primaryRhs), false)
  | _, _ => none

/-- `Transliterators::SplitRaw`. -/
def splitRaw (position : Nat) (raw converted : Bytes) : Option (SplitStrings × Bool) :=
  (splitPrimaryString position raw converted).map fun parts =>
    (⟨parts.1.1, parts.1.2, parts.2.1.1, parts.2.1.2⟩, parts.2.2)

/-- `Transliterators::SplitConverted`. -/
def splitConverted (position : Nat) (raw converted : Bytes) : Option (SplitStrings × Bool) :=
  (splitPrimaryString position converted raw).map fun parts =>
    (⟨parts.2.1.1, parts.2.1.2, parts.1.1, parts.1.2⟩, parts.2.2)

/-- `HalfKatakanaTransliterator::HalfKatakanaToHiragana`. -/
def JapaneseUtil.halfKatakanaToHiragana (j : JapaneseUtil) (halfKatakana : Bytes) : Bytes :=
  j.katakanaToHiragana (j.halfWidthKatakanaToFullWidthKatakana halfKatakana)

/-- `Transliterate` of the transliterators. -/
def JapaneseUtil.transliterate (j : JapaneseUtil) (transliterator : Transliterator)
    (raw converted : Bytes) : Bytes :=
  match transliterator with
  | .conversionString => converted
  | .rawString => raw
  | .hiragana => j.convertPreeditString (j.halfWidthToFullWidth converted)
  | .fullKatakana =>
    j.convertPreeditString (j.halfWidthToFullWidth (j.hiraganaToKatakana converted))
  | .halfKatakana => j.fullWidthToHalfWidth (j.hiraganaToKatakana converted)
  | .fullAscii => j.halfWidthAsciiToFullWidthAscii (if raw.isEmpty then converted else raw)
  | .halfAscii => j.fullWidthAsciiToHalfWidthAscii (if raw.isEmpty then converted else raw)
  | .localT12r => converted

/-- `HalfKatakanaTransliterator::Split`. -/
def JapaneseUtil.splitHalfKatakana (j : JapaneseUtil) (position : Nat) (raw converted : Bytes) :
    Option SplitStrings :=
  (splitConverted position raw (j.transliterate .halfKatakana raw converted)).map fun parts =>
    { rawLhs := if parts.2 then parts.1.rawLhs else j.halfKatakanaToHiragana parts.1.rawLhs
      rawRhs := if parts.2 then parts.1.rawRhs else j.halfKatakanaToHiragana parts.1.rawRhs
      convertedLhs := j.halfKatakanaToHiragana parts.1.convertedLhs
      convertedRhs := j.halfKatakanaToHiragana parts.1.convertedRhs }

/-- `Split` of the transliterators. -/
def JapaneseUtil.split (j : JapaneseUtil) (transliterator : Transliterator) (position : Nat)
    (raw converted : Bytes) : Option SplitStrings :=
  match transliterator with
  | .rawString | .fullAscii | .halfAscii => (splitRaw position raw converted).map Prod.fst
  | .halfKatakana => j.splitHalfKatakana position raw converted
  | .conversionString | .hiragana | .fullKatakana | .localT12r =>
    (splitConverted position raw converted).map Prod.fst

end MozkeyComposer
