import Mozkey.TransliteratorsProofs
import Mozkey.UnicodeStringsProofs

/-! # ZenzContextSelector — the text around the cursor that a model may see

    `SelectLeft` keeps the end of the text before the cursor, from the last paragraph
    boundary on; `SelectRight` keeps the start of the text behind it, up to a paragraph
    boundary or the end of a sentence.  Both scan code points with lookahead.  A paragraph
    boundary is two logical line breaks with only blanks between them. -/

namespace MozkeyZenz

open ByteString MozkeyUtil MozkeyComposer

/-! ## Runs -/

section Runs

variable {α : Type} {p : α → Bool} {l : List α}

/-- The element at a position has a property. -/
def At (p : α → Bool) (l : List α) (i : Nat) : Prop := ∃ c, l[i]? = some c ∧ p c = true

/-- Where `while (i < l.size() && p(l[i])) ++i` stops. -/
def runEnd (p : α → Bool) (l : List α) (i : Nat) : Nat := i + ((l.drop i).takeWhile p).length

theorem le_runEnd (p : α → Bool) (l : List α) (i : Nat) : i ≤ runEnd p l i := Nat.le_add_right i _

variable {i : Nat}

theorem At.lt (h : At p l i) : i < l.length := by
  obtain ⟨c, hc, -⟩ := h
  exact (List.getElem?_eq_some_iff.mp hc).1

theorem runEnd_of_at (h : At p l i) : runEnd p l i = runEnd p l (i + 1) := by
  obtain ⟨c, hc, hp⟩ := h
  obtain ⟨hlt, rfl⟩ := List.getElem?_eq_some_iff.mp hc
  rw [runEnd, runEnd, List.drop_eq_getElem_cons hlt, List.takeWhile_cons_of_pos hp,
    List.length_cons]
  omega

theorem runEnd_of_not_at (h : ¬ At p l i) : runEnd p l i = i := by
  by_cases hlt : i < l.length
  · have hp : ¬ p l[i] = true := fun hp => h ⟨l[i], List.getElem?_eq_getElem hlt, hp⟩
    rw [runEnd, List.drop_eq_getElem_cons hlt, List.takeWhile_cons_of_neg hp]
    rfl
  · rw [runEnd, List.drop_of_length_le (by omega)]
    rfl

/-- A run goes over positions with the property and stops before one without. -/
theorem runEnd_spec (p : α → Bool) (l : List α) (i : Nat) :
    (∀ k, i ≤ k → k < runEnd p l i → At p l k) ∧ ¬ At p l (runEnd p l i) := by
  generalize hn : l.length - i = n
  induction n generalizing i with
  | zero =>
    have hnot : ¬ At p l i := fun h => by have := h.lt; omega
    rw [runEnd_of_not_at hnot]
    exact ⟨fun k hk hlt => absurd hlt (Nat.not_lt.mpr hk), hnot⟩
  | succ n ih =>
    by_cases hat : At p l i
    · obtain ⟨hall, hstop⟩ := ih (i + 1) (by omega)
      rw [runEnd_of_at hat]
      refine ⟨fun k hk hlt => ?_, hstop⟩
      rcases Nat.eq_or_lt_of_le hk with rfl | hk
      · exact hat
      · exact hall k hk hlt
    · rw [runEnd_of_not_at hat]
      exact ⟨fun k hk hlt => absurd hlt (Nat.not_lt.mpr hk), hat⟩

theorem runEnd_eq {e : Nat} (hle : i ≤ e) (hall : ∀ k, i ≤ k → k < e → At p l k)
    (hstop : ¬ At p l e) : runEnd p l i = e := by
  obtain ⟨hall', hstop'⟩ := runEnd_spec p l i
  rcases Nat.lt_trichotomy (runEnd p l i) e with h | h | h
  · exact absurd (hall _ (le_runEnd p l i) h) hstop'
  · exact h
  · exact absurd (hall' e hle h) hstop

theorem runEnd_le (h : i ≤ l.length) : runEnd p l i ≤ l.length := by
  by_contra hgt
  have hat := (runEnd_spec p l i).1 l.length h (by omega)
  exact Nat.lt_irrefl _ hat.lt

end Runs

/-! ## The scanners of the source -/

/-- `IsHorizontalBlankSpace`. -/
def isHorizontalBlankSpace (c : Nat) : Bool := c == 0x20 || c == 0x09 || c == 0x3000

/-- `LogicalLineBreakLength`; 0 where there is no break. -/
def logicalLineBreakLength (cs : List Nat) (index : Nat) : Nat :=
  match cs[index]? with
  | none => 0
  | some c =>
    if c = 0x0D then if cs[index + 1]? = some 0x0A then 2 else 1
    else if c = 0x0A then 1
    else 0

/-- The loop of `FindCurrentParagraphStart` over empty lines and indentation. -/
def skipEmptyLines (cs : List Nat) : Nat → Nat → Nat
  | 0, j => j
  | fuel + 1, j =>
    match cs[j]? with
    | none => j
    | some c =>
      if isHorizontalBlankSpace c then skipEmptyLines cs fuel (j + 1)
      else if logicalLineBreakLength cs j ≠ 0 then
        skipEmptyLines cs fuel (j + logicalLineBreakLength cs j)
      else j

/-- The loop of `FindCurrentParagraphStart`; a round passes a code point at least. -/
def paragraphStartLoop (cs : List Nat) : Nat → Nat → Nat → Nat
  | 0, _, paragraphStart => paragraphStart
  | fuel + 1, i, paragraphStart =>
    if i < cs.length then
      let first := logicalLineBreakLength cs i
      if first = 0 then paragraphStartLoop cs fuel (i + 1) paragraphStart
      else
        let j := runEnd isHorizontalBlankSpace cs (i + first)
        let second := logicalLineBreakLength cs j
        if second = 0 then paragraphStartLoop cs fuel (i + first) paragraphStart
        else
          let j := skipEmptyLines cs cs.length (j + second)
          paragraphStartLoop cs fuel j j
    else paragraphStart

/-- `FindCurrentParagraphStart`. -/
def findCurrentParagraphStart (cs : List Nat) : Nat := paragraphStartLoop cs cs.length 0 0

/-- The loop of `FindFirstParagraphBoundary`. -/
def paragraphBoundaryLoop (cs : List Nat) : Nat → Nat → Nat
  | 0, _ => cs.length
  | fuel + 1, i =>
    if i < cs.length then
      let first := logicalLineBreakLength cs i
      if first = 0 then paragraphBoundaryLoop cs fuel (i + 1)
      else if logicalLineBreakLength cs (runEnd isHorizontalBlankSpace cs (i + first)) ≠ 0 then i
      else paragraphBoundaryLoop cs fuel (i + first)
    else cs.length

/-- `FindFirstParagraphBoundary`. -/
def findFirstParagraphBoundary (cs : List Nat) : Nat := paragraphBoundaryLoop cs cs.length 0

/-- `IsSentenceTerminator`. -/
def isSentenceTerminator (c : Nat) : Bool :=
  c == 0x3002 || c == 0xFF01 || c == 0xFF1F || c == 0x21 || c == 0x3F

/-- `IsSentenceTrailingCloser`. -/
def isSentenceTrailingCloser (c : Nat) : Bool :=
  c == 0x300D || c == 0x300F || c == 0xFF09 || c == 0xFF3D || c == 0x3011 || c == 0x3009 ||
    c == 0x300B || c == 0x201D || c == 0x2019 || c == 0x29 || c == 0x5D || c == 0x22

/-- A terminator or a closer. -/
def isSentenceEnd (c : Nat) : Bool := isSentenceTerminator c || isSentenceTrailingCloser c

/-- The loop of `FindFirstSentenceEnd` over the code points before `limit`. -/
def sentenceEndLoop (cs : List Nat) (limit : Nat) : Nat → Nat → Nat
  | 0, _ => limit
  | fuel + 1, i =>
    match (cs.take limit)[i]? with
    | none => limit
    | some c =>
      if isSentenceTerminator c then runEnd isSentenceEnd (cs.take limit) (i + 1)
      else sentenceEndLoop cs limit fuel (i + 1)

/-- `FindFirstSentenceEnd`. -/
def findFirstSentenceEnd (cs : List Nat) (limit : Nat) : Nat := sentenceEndLoop cs limit limit 0

/-- `SelectLeft`; `none` where `Utf8SubString` would read past the end of the text. -/
def selectLeft (text : Bytes) (maxChars : Nat) : Option Bytes :=
  if text.isEmpty || maxChars == 0 then some []
  else
    let cs := chars32 text
    if cs.isEmpty then some []
    else
      let paragraphStart := findCurrentParagraphStart cs
      let availableChars := cs.length - paragraphStart
      let selectedStart :=
        if availableChars ≤ maxChars then paragraphStart else cs.length - maxChars
      (utf8Drop selectedStart text).bind (utf8Take (cs.length - selectedStart))

/-- `SelectRight`. -/
def selectRight (text : Bytes) (maxChars : Nat) : Option Bytes :=
  if text.isEmpty || maxChars == 0 then some []
  else
    let cs := chars32 text
    if cs.isEmpty then some []
    else
      let leadingBlankEnd := runEnd isHorizontalBlankSpace cs 0
      if logicalLineBreakLength cs leadingBlankEnd ≠ 0 then some []
      else
        let paragraphLimit := findFirstParagraphBoundary cs
        let sentenceLimit := findFirstSentenceEnd cs paragraphLimit
        let selectedChars := min maxChars sentenceLimit
        if selectedChars = 0 then some [] else utf8Take selectedChars text

/-! ## What a boundary is -/

/-- CR or LF. -/
def isLineBreak (c : Nat) : Bool := c == 0x0D || c == 0x0A

/-- What stands on empty lines. -/
def isEmptyLine (c : Nat) : Bool := isHorizontalBlankSpace c || isLineBreak c

/-- The LF of a CRLF. -/
def InsideCrlf (cs : List Nat) (i : Nat) : Prop :=
  ∃ k, i = k + 1 ∧ cs[k]? = some 0x0D ∧ cs[i]? = some 0x0A

/-- A logical line break starts here; CRLF is one. -/
def BreakAt (cs : List Nat) (i : Nat) : Prop := At isLineBreak cs i ∧ ¬ InsideCrlf cs i

/-- Two logical line breaks, at `i` and at `j`, with only horizontal blanks between them. -/
structure StrongBoundary (cs : List Nat) (i j : Nat) : Prop where
  first : BreakAt cs i
  second : BreakAt cs j
  after : i + logicalLineBreakLength cs i ≤ j
  blank : ∀ k, i + logicalLineBreakLength cs i ≤ k → k < j → At isHorizontalBlankSpace cs k

/-- The end of a boundary whose second line break is at `j`, behind all blanks and line
    breaks. -/
def boundaryEnd (cs : List Nat) (j : Nat) : Nat := runEnd isEmptyLine cs j

/-- Where a left window of at most `maxChars` code points may start. -/
def LeftStart (cs : List Nat) (maxChars s : Nat) : Prop :=
  s ≤ cs.length ∧ cs.length - s ≤ maxChars ∧ ∀ i j, StrongBoundary cs i j → boundaryEnd cs j ≤ s

/-- The end of the first run of terminators and closers; it starts with a terminator. -/
def SentenceEnd (cs : List Nat) (n : Nat) : Prop :=
  ∃ t, At isSentenceTerminator cs t ∧ (∀ k < t, ¬ At isSentenceTerminator cs k) ∧
    n = runEnd isSentenceEnd cs t

/-- What ends a right window. -/
def RightEnd (cs : List Nat) (maxChars n : Nat) : Prop :=
  n = maxChars ∨ n = cs.length ∨ (∃ j, StrongBoundary cs n j) ∨ SentenceEnd cs n

/-- The first code point that is not blank is a line break. -/
def StartsWithBreak (cs : List Nat) : Prop :=
  At isLineBreak cs (runEnd isHorizontalBlankSpace cs 0)

/-! ## Logical line breaks -/

theorem not_blank_of_lineBreak {c : Nat} (h : isLineBreak c = true) :
    isHorizontalBlankSpace c = false := by
  simp only [isLineBreak, Bool.or_eq_true, beq_iff_eq] at h
  rcases h with rfl | rfl
  · rfl
  · rfl

variable {cs : List Nat}

theorem at_emptyLine_of_blank {i : Nat} (h : At isHorizontalBlankSpace cs i) :
    At isEmptyLine cs i := by
  obtain ⟨c, hc, hblank⟩ := h
  exact ⟨c, hc, by rw [isEmptyLine, hblank, Bool.true_or]⟩

theorem at_emptyLine_of_break {i : Nat} (h : At isLineBreak cs i) :
    At isEmptyLine cs i := by
  obtain ⟨c, hc, hbreak⟩ := h
  exact ⟨c, hc, by rw [isEmptyLine, hbreak, Bool.or_true]⟩

theorem not_at_blank_of_break {i : Nat} (h : At isLineBreak cs i) :
    ¬ At isHorizontalBlankSpace cs i := by
  rintro ⟨c, hc, hblank⟩
  obtain ⟨d, hd, hbreak⟩ := h
  rw [hc] at hd
  rw [Option.some.inj hd, not_blank_of_lineBreak hbreak] at hblank
  exact Bool.false_ne_true hblank

theorem logicalLineBreakLength_ne_zero {i : Nat} :
    logicalLineBreakLength cs i ≠ 0 ↔ At isLineBreak cs i := by
  rw [logicalLineBreakLength]
  cases hc : cs[i]? with
  | none =>
    constructor
    · intro h; exact absurd rfl h
    · rintro ⟨c, hc', -⟩
      rw [hc] at hc'
      exact absurd hc'.symm (Option.some_ne_none c)
  | some c =>
    dsimp only
    constructor
    · intro h
      refine ⟨c, hc, ?_⟩
      rw [isLineBreak, Bool.or_eq_true, beq_iff_eq, beq_iff_eq]
      by_contra hno
      rw [not_or] at hno
      rw [if_neg hno.1, if_neg hno.2] at h
      exact h rfl
    · rintro ⟨d, hd, hbreak⟩
      rw [hc] at hd
      rw [← Option.some.inj hd, isLineBreak, Bool.or_eq_true, beq_iff_eq, beq_iff_eq] at hbreak
      rcases hbreak with rfl | rfl
      · rw [if_pos rfl]
        split_ifs
        · decide
        · decide
      · exact Nat.one_ne_zero

theorem logicalLineBreakLength_le (cs : List Nat) (i : Nat) : logicalLineBreakLength cs i ≤ 2 := by
  rw [logicalLineBreakLength]
  cases cs[i]? with
  | none => exact Nat.zero_le 2
  | some c =>
    dsimp only
    split_ifs <;> omega

theorem crlf_of_length_two {i : Nat} (h : logicalLineBreakLength cs i = 2) :
    cs[i]? = some 0x0D ∧ cs[i + 1]? = some 0x0A := by
  rw [logicalLineBreakLength] at h
  cases hc : cs[i]? with
  | none =>
    rw [hc] at h
    exact absurd (show 0 = 2 from h) (by decide)
  | some c =>
    rw [hc] at h
    dsimp only at h
    split_ifs at h with h1 h2 h3
    · exact ⟨by rw [h1], h2⟩
    · exact absurd h (by decide)
    · exact absurd h (by decide)

variable {k : Nat}

theorem at_break_of_lt {i : Nat} (hi : i ≤ k) (hk : k < i + logicalLineBreakLength cs i) :
    At isLineBreak cs k := by
  have hle := logicalLineBreakLength_le cs i
  rcases Nat.eq_or_lt_of_le hi with rfl | hlt
  · exact logicalLineBreakLength_ne_zero.mp (by omega)
  · have htwo : logicalLineBreakLength cs i = 2 := by omega
    obtain rfl : k = i + 1 := by omega
    exact ⟨0x0A, (crlf_of_length_two htwo).2, rfl⟩

theorem insideCrlf_of_lt {i : Nat} (hi : i < k) (hk : k < i + logicalLineBreakLength cs i) :
    InsideCrlf cs k := by
  have hle := logicalLineBreakLength_le cs i
  have htwo : logicalLineBreakLength cs i = 2 := by omega
  obtain rfl : k = i + 1 := by omega
  obtain ⟨hcr, hlf⟩ := crlf_of_length_two htwo
  exact ⟨i, rfl, hcr, hlf⟩

theorem not_insideCrlf_behind {i : Nat} (hbreak : logicalLineBreakLength cs i ≠ 0)
    (hi : ¬ InsideCrlf cs i) :
    ¬ InsideCrlf cs (i + logicalLineBreakLength cs i) := by
  rintro ⟨k, heq, hcr, hlf⟩
  have hle := logicalLineBreakLength_le cs i
  by_cases htwo : logicalLineBreakLength cs i = 2
  · obtain ⟨-, hlf'⟩ := crlf_of_length_two htwo
    obtain rfl : k = i + 1 := by omega
    rw [hlf'] at hcr
    exact absurd hcr (by decide)
  · have hone : logicalLineBreakLength cs i = 1 := by omega
    obtain rfl : k = i := by omega
    rw [heq] at hlf
    rw [logicalLineBreakLength, hcr] at hone
    dsimp only at hone
    rw [if_pos rfl, if_pos hlf] at hone
    exact absurd hone (by decide)

theorem not_insideCrlf_succ {i : Nat} (h : logicalLineBreakLength cs i = 0) :
    ¬ InsideCrlf cs (i + 1) := by
  rintro ⟨k, heq, hcr, -⟩
  obtain rfl : k = i := by omega
  exact logicalLineBreakLength_ne_zero.mpr ⟨0x0D, hcr, rfl⟩ h

variable {j : Nat}

theorem StrongBoundary.second_eq {i : Nat} (h : StrongBoundary cs i j) :
    runEnd isHorizontalBlankSpace cs (i + logicalLineBreakLength cs i) = j :=
  runEnd_eq h.after h.blank (not_at_blank_of_break h.second.1)

/-- Everything from the start of a boundary to its second line break stands on empty
    lines. -/
theorem StrongBoundary.emptyLine {i : Nat} (h : StrongBoundary cs i j) (hi : i ≤ k) (hj : k ≤ j) :
    At isEmptyLine cs k := by
  rcases Nat.lt_or_ge k (i + logicalLineBreakLength cs i) with hlt | hge
  · exact at_emptyLine_of_break (at_break_of_lt hi hlt)
  · rcases Nat.eq_or_lt_of_le hj with rfl | hlt
    · exact at_emptyLine_of_break h.second.1
    · exact at_emptyLine_of_blank (h.blank k hge hlt)

/-- Two line breaks that a scanner sees, with blanks between them, are a boundary. -/
theorem strongBoundary_of_scan {i : Nat} (hi : ¬ InsideCrlf cs i)
    (hfirst : logicalLineBreakLength cs i ≠ 0) (hsecond : logicalLineBreakLength cs
      (runEnd isHorizontalBlankSpace cs (i + logicalLineBreakLength cs i)) ≠ 0) :
    StrongBoundary cs i (runEnd isHorizontalBlankSpace cs (i + logicalLineBreakLength cs i)) := by
  have hblank := (runEnd_spec isHorizontalBlankSpace cs (i + logicalLineBreakLength cs i)).1
  have hle := le_runEnd isHorizontalBlankSpace cs (i + logicalLineBreakLength cs i)
  refine ⟨⟨logicalLineBreakLength_ne_zero.mp hfirst, hi⟩,
    ⟨logicalLineBreakLength_ne_zero.mp hsecond, ?_⟩, hle, hblank⟩
  -- the second break starts right behind the first or behind a blank
  rcases Nat.eq_or_lt_of_le hle with heq | hlt
  · rw [← heq]
    exact not_insideCrlf_behind hfirst hi
  · rintro ⟨k, heq, hcr, -⟩
    have hat := hblank k (by omega) (by omega)
    exact not_at_blank_of_break ⟨0x0D, hcr, rfl⟩ hat

theorem skipEmptyLines_eq : ∀ {fuel j : Nat}, cs.length - j ≤ fuel →
    skipEmptyLines cs fuel j = runEnd isEmptyLine cs j := by
  intro fuel
  induction fuel with
  | zero =>
    intro j hfuel
    have hnot : ¬ At isEmptyLine cs j := fun h => by have := h.lt; omega
    rw [skipEmptyLines, runEnd_of_not_at hnot]
  | succ fuel ih =>
    intro j hfuel
    rw [skipEmptyLines]
    cases hc : cs[j]? with
    | none =>
      rw [runEnd_of_not_at]
      rintro ⟨c, hc', -⟩
      rw [hc] at hc'
      exact absurd hc'.symm (Option.some_ne_none c)
    | some c =>
      dsimp only
      split_ifs with hblank hbreak
      · have hat : At isEmptyLine cs j := at_emptyLine_of_blank ⟨c, hc, hblank⟩
        rw [ih (by omega), ← runEnd_of_at hat]
      · have hrun : ∀ n, n ≤ logicalLineBreakLength cs j →
            runEnd isEmptyLine cs j = runEnd isEmptyLine cs (j + n) := by
          intro n
          induction n with
          | zero => intro _; rfl
          | succ n ihn =>
            intro hn
            have hat : At isLineBreak cs (j + n) :=
              at_break_of_lt (i := j) (by omega) (by omega)
            rw [ihn (by omega), runEnd_of_at (at_emptyLine_of_break hat)]
            rfl
        rw [ih (by omega), ← hrun _ (Nat.le_refl _)]
      · rw [runEnd_of_not_at]
        rintro ⟨d, hd, hempty⟩
        rw [hc] at hd
        rw [← Option.some.inj hd, isEmptyLine, Bool.or_eq_true] at hempty
        rcases hempty with h | h
        · exact hblank h
        · exact hbreak (logicalLineBreakLength_ne_zero.mpr ⟨c, hc, h⟩)

/-! ## The left scanner -/

theorem add_logicalLineBreakLength_le {i : Nat} (h : logicalLineBreakLength cs i ≠ 0) :
    i + logicalLineBreakLength cs i ≤ cs.length := by
  have hat : At isLineBreak cs (i + logicalLineBreakLength cs i - 1) :=
    at_break_of_lt (i := i) (by omega) (by omega)
  have := hat.lt
  omega

theorem runEnd_of_range {p : Nat → Bool} {i e : Nat} (hle : i ≤ e)
    (h : ∀ k, i ≤ k → k < e → At p cs k) : runEnd p cs i = runEnd p cs e := by
  obtain ⟨hall, hstop⟩ := runEnd_spec p cs e
  have hge := le_runEnd p cs e
  refine runEnd_eq (by omega) (fun k hk hlt => ?_) hstop
  rcases Nat.lt_or_ge k e with hke | hke
  · exact h k hk hke
  · exact hall k hke hlt

/-- What the left scanner knows at position `i`: it is not inside a CRLF, and
    `paragraphStart` is the end of the last boundary that starts before `i`. -/
structure BoundaryScan (cs : List Nat) (i paragraphStart : Nat) : Prop where
  le : i ≤ cs.length
  outside : ¬ InsideCrlf cs i
  start_le : paragraphStart ≤ i
  covered : ∀ a b, StrongBoundary cs a b → a < i → boundaryEnd cs b ≤ paragraphStart
  reached : paragraphStart = 0 ∨ ∃ a b, StrongBoundary cs a b ∧ paragraphStart = boundaryEnd cs b

theorem boundaryScan_start (cs : List Nat) : BoundaryScan cs 0 0 where
  le := Nat.zero_le _
  outside := by
    rintro ⟨k, heq, -⟩
    exact absurd heq.symm (Nat.succ_ne_zero k)
  start_le := Nat.le_refl 0
  covered a _ _ ha := absurd ha (Nat.not_lt_zero a)
  reached := Or.inl rfl

variable {start : Nat}

theorem BoundaryScan.step_char {i : Nat} (h : BoundaryScan cs i start) (hi : i < cs.length)
    (hzero : logicalLineBreakLength cs i = 0) :
    BoundaryScan cs (i + 1) start where
  le := hi
  outside := not_insideCrlf_succ hzero
  start_le := Nat.le_succ_of_le h.start_le
  covered a b hab ha := by
    rcases Nat.eq_or_lt_of_le (Nat.le_of_lt_succ ha) with rfl | hlt
    · exact absurd hzero (logicalLineBreakLength_ne_zero.mpr hab.first.1)
    · exact h.covered a b hab hlt
  reached := h.reached

theorem BoundaryScan.step_break {i : Nat} (h : BoundaryScan cs i start)
    (hfirst : logicalLineBreakLength cs i ≠ 0) (hsecond : logicalLineBreakLength cs
      (runEnd isHorizontalBlankSpace cs (i + logicalLineBreakLength cs i)) = 0) :
    BoundaryScan cs (i + logicalLineBreakLength cs i) start where
  le := add_logicalLineBreakLength_le hfirst
  outside := not_insideCrlf_behind hfirst h.outside
  start_le := Nat.le_trans h.start_le (Nat.le_add_right i _)
  covered a b hab ha := by
    rcases Nat.lt_trichotomy a i with hlt | rfl | hgt
    · exact h.covered a b hab hlt
    · rw [hab.second_eq] at hsecond
      exact absurd hsecond (logicalLineBreakLength_ne_zero.mpr hab.second.1)
    · exact absurd (insideCrlf_of_lt hgt ha) hab.first.2
  reached := h.reached

theorem BoundaryScan.step_boundary {i : Nat} (h : BoundaryScan cs i start)
    (hij : StrongBoundary cs i j) : BoundaryScan cs (boundaryEnd cs j) (boundaryEnd cs j) where
  le := runEnd_le (Nat.le_of_lt hij.second.1.lt)
  outside := by
    rintro ⟨k, -, -, hlf⟩
    exact (runEnd_spec isEmptyLine cs j).2 ⟨0x0A, hlf, rfl⟩
  start_le := Nat.le_refl _
  covered a b hab ha := by
    obtain ⟨hall, hstop⟩ := runEnd_spec isEmptyLine cs j
    have hj : i ≤ j := Nat.le_trans (Nat.le_add_right i _) hij.after
    have hle := le_runEnd isEmptyLine cs j
    rcases Nat.lt_or_ge a i with hlt | hge
    · exact (h.covered a b hab hlt).trans (h.start_le.trans (hj.trans hle))
    · -- the second line break is in the same run
      have hb : b < runEnd isEmptyLine cs j := by
        by_contra hno
        exact hstop (hab.emptyLine (Nat.le_of_lt ha) (Nat.not_lt.mp hno))
      have hab' : a ≤ b := Nat.le_trans (Nat.le_add_right a _) hab.after
      refine Nat.le_of_eq (runEnd_eq (Nat.le_of_lt hb) (fun k hk hlt => ?_) hstop)
      rcases Nat.lt_or_ge k j with hkj | hkj
      · exact hij.emptyLine (by omega) (Nat.le_of_lt hkj)
      · exact hall k hkj hlt
  reached := Or.inr ⟨i, j, hij, rfl⟩

theorem paragraphStartLoop_scan : ∀ {fuel i start : Nat},
    cs.length - i ≤ fuel → BoundaryScan cs i start →
    BoundaryScan cs cs.length (paragraphStartLoop cs fuel i start) := by
  intro fuel
  induction fuel with
  | zero =>
    intro i start hfuel h
    have hle := h.le
    obtain rfl : i = cs.length := by omega
    exact h
  | succ fuel ih =>
    intro i start hfuel h
    rw [paragraphStartLoop]
    split_ifs with hi
    · dsimp only
      split_ifs with hfirst hsecond
      · exact ih (by omega) (h.step_char hi hfirst)
      · exact ih (by omega) (h.step_break hfirst hsecond)
      · have hij := strongBoundary_of_scan h.outside hfirst hsecond
        have hend : skipEmptyLines cs cs.length
            (runEnd isHorizontalBlankSpace cs (i + logicalLineBreakLength cs i)
              + logicalLineBreakLength cs
                (runEnd isHorizontalBlankSpace cs (i + logicalLineBreakLength cs i)))
            = boundaryEnd cs
              (runEnd isHorizontalBlankSpace cs (i + logicalLineBreakLength cs i)) := by
          rw [skipEmptyLines_eq (Nat.sub_le _ _), boundaryEnd]
          exact (runEnd_of_range (Nat.le_add_right _ _) (fun k hk hlt =>
            at_emptyLine_of_break (at_break_of_lt hk hlt))).symm
        rw [hend]
        have hlt : i < boundaryEnd cs
            (runEnd isHorizontalBlankSpace cs (i + logicalLineBreakLength cs i)) := by
          have h1 := le_runEnd isHorizontalBlankSpace cs (i + logicalLineBreakLength cs i)
          have h2 := le_runEnd isEmptyLine cs
            (runEnd isHorizontalBlankSpace cs (i + logicalLineBreakLength cs i))
          rw [boundaryEnd]
          omega
        exact ih (by omega) (h.step_boundary hij)
    · have hle := h.le
      obtain rfl : i = cs.length := by omega
      exact h

/-- **THE PARAGRAPH START** is the end of the last boundary, or the start of the text. -/
theorem findCurrentParagraphStart_spec (cs : List Nat) :
    BoundaryScan cs cs.length (findCurrentParagraphStart cs) :=
  paragraphStartLoop_scan (Nat.le_refl _) (boundaryScan_start cs)

/-! ## The right scanners -/

theorem paragraphBoundaryLoop_spec : ∀ {fuel i : Nat},
    cs.length - i ≤ fuel → i ≤ cs.length → ¬ InsideCrlf cs i →
    (∀ a b, StrongBoundary cs a b → i ≤ a) →
    IsLeast {n | n = cs.length ∨ ∃ j, StrongBoundary cs n j} (paragraphBoundaryLoop cs fuel i) := by
  have hend : (∀ a b, StrongBoundary cs a b → cs.length ≤ a) →
      IsLeast {n | n = cs.length ∨ ∃ j, StrongBoundary cs n j} cs.length := by
    intro hnone
    refine ⟨Or.inl rfl, ?_⟩
    rintro n (rfl | ⟨j, hj⟩)
    · exact Nat.le_refl _
    · exact hnone n j hj
  intro fuel
  induction fuel with
  | zero =>
    intro i hfuel hle _ hnone
    obtain rfl : i = cs.length := by omega
    exact hend hnone
  | succ fuel ih =>
    intro i hfuel hle houtside hnone
    rw [paragraphBoundaryLoop]
    split_ifs with hi
    · dsimp only
      split_ifs with hfirst hsecond
      · refine ih (by omega) hi (not_insideCrlf_succ hfirst) (fun a b hab => ?_)
        rcases Nat.eq_or_lt_of_le (hnone a b hab) with rfl | hlt
        · exact absurd hfirst (logicalLineBreakLength_ne_zero.mpr hab.first.1)
        · exact hlt
      · refine ⟨Or.inr ⟨_, strongBoundary_of_scan houtside hfirst hsecond⟩, ?_⟩
        rintro n (rfl | ⟨j, hj⟩)
        · exact hle
        · exact hnone n j hj
      · refine ih (by omega) (add_logicalLineBreakLength_le hfirst)
          (not_insideCrlf_behind hfirst houtside) (fun a b hab => ?_)
        by_contra hlt
        rcases Nat.eq_or_lt_of_le (hnone a b hab) with rfl | hgt
        · rw [hab.second_eq] at hsecond
          exact hsecond (logicalLineBreakLength_ne_zero.mpr hab.second.1)
        · exact hab.first.2 (insideCrlf_of_lt hgt (Nat.not_le.mp hlt))
    · obtain rfl : i = cs.length := by omega
      exact hend hnone

/-- **THE FIRST BOUNDARY**, or the end of the text. -/
theorem findFirstParagraphBoundary_spec (cs : List Nat) :
    IsLeast {n | n = cs.length ∨ ∃ j, StrongBoundary cs n j} (findFirstParagraphBoundary cs) :=
  paragraphBoundaryLoop_spec (Nat.le_refl _) (Nat.zero_le _) (boundaryScan_start cs).outside
    (fun a _ _ => Nat.zero_le a)

/-! ## The end of a sentence -/

variable {limit : Nat}

theorem at_take {p : Nat → Bool} :
    At p (cs.take limit) k ↔ k < limit ∧ At p cs k := by
  constructor
  · rintro ⟨c, hc, hp⟩
    have hlt := (List.getElem?_eq_some_iff.mp hc).1
    rw [List.length_take] at hlt
    rw [List.getElem?_take_of_lt (by omega)] at hc
    exact ⟨by omega, c, hc, hp⟩
  · rintro ⟨hlt, c, hc, hp⟩
    exact ⟨c, by rw [List.getElem?_take_of_lt hlt]; exact hc, hp⟩

theorem runEnd_take {p : Nat → Bool} {i : Nat} (hi : i ≤ limit) :
    runEnd p (cs.take limit) i = min limit (runEnd p cs i) := by
  obtain ⟨hall, hstop⟩ := runEnd_spec p cs i
  have hle := le_runEnd p cs i
  refine runEnd_eq (by omega) (fun k hk hlt => ?_) (fun hat => ?_)
  · exact at_take.mpr ⟨by omega, hall k hk (by omega)⟩
  · obtain ⟨hlt, hat⟩ := at_take.mp hat
    rw [Nat.min_eq_right (by omega)] at hat
    exact hstop hat

theorem at_sentenceEnd_of_terminator {i : Nat} (h : At isSentenceTerminator cs i) :
    At isSentenceEnd cs i := by
  obtain ⟨c, hc, hp⟩ := h
  exact ⟨c, hc, by rw [isSentenceEnd, hp, Bool.true_or]⟩

theorem sentenceEndLoop_spec (hlimit : limit ≤ cs.length) :
    ∀ {fuel i : Nat}, limit - i ≤ fuel → (∀ k < i, ¬ At isSentenceTerminator cs k) →
    IsLeast {n | n = limit ∨ SentenceEnd cs n} (sentenceEndLoop cs limit fuel i) := by
  have hend : (∀ k < limit, ¬ At isSentenceTerminator cs k) →
      IsLeast {n | n = limit ∨ SentenceEnd cs n} limit := by
    intro hnone
    refine ⟨Or.inl rfl, ?_⟩
    rintro n (rfl | ⟨t, ht, -, rfl⟩)
    · exact Nat.le_refl _
    · have hle := le_runEnd isSentenceEnd cs t
      by_contra hlt
      exact hnone t (by omega) ht
  intro fuel
  induction fuel with
  | zero =>
    intro i hfuel hnone
    exact hend (fun k hk => hnone k (by omega))
  | succ fuel ih =>
    intro i hfuel hnone
    rw [sentenceEndLoop]
    cases hc : (cs.take limit)[i]? with
    | none =>
      have hge := List.getElem?_eq_none_iff.mp hc
      rw [List.length_take, Nat.min_eq_left hlimit] at hge
      exact hend (fun k hk => hnone k (by omega))
    | some c =>
      have hlt := (List.getElem?_eq_some_iff.mp hc).1
      rw [List.length_take, Nat.min_eq_left hlimit] at hlt
      rw [List.getElem?_take_of_lt hlt] at hc
      dsimp only
      split_ifs with hterm
      · have hat : At isSentenceTerminator cs i := ⟨c, hc, hterm⟩
        have hrun := runEnd_of_at (at_sentenceEnd_of_terminator hat)
        rw [runEnd_take hlt, ← hrun]
        constructor
        · rcases Nat.le_total limit (runEnd isSentenceEnd cs i) with hle | hle
          · exact Or.inl (Nat.min_eq_left hle)
          · exact Or.inr ⟨i, hat, hnone, Nat.min_eq_right hle⟩
        · rintro n (rfl | ⟨t, ht, hfirst, rfl⟩)
          · exact Nat.min_le_left _ _
          · rcases Nat.lt_trichotomy t i with h | rfl | h
            · exact absurd ht (hnone t h)
            · exact Nat.min_le_right _ _
            · exact absurd hat (hfirst i h)
      · refine ih (by omega) (fun k hk => ?_)
        rcases Nat.eq_or_lt_of_le (Nat.le_of_lt_succ hk) with rfl | hk
        · rintro ⟨d, hd, hp⟩
          rw [hc] at hd
          rw [← Option.some.inj hd] at hp
          exact hterm hp
        · exact hnone k hk

/-- **THE SENTENCE END**, or the limit. -/
theorem findFirstSentenceEnd_spec (hlimit : limit ≤ cs.length) :
    IsLeast {n | n = limit ∨ SentenceEnd cs n} (findFirstSentenceEnd cs limit) :=
  sentenceEndLoop_spec hlimit (Nat.le_refl _) (fun k hk => absurd hk (Nat.not_lt_zero k))

/-! ## The windows -/

theorem leftStart_isLeast (cs : List Nat) (maxChars : Nat) :
    IsLeast {s | LeftStart cs maxChars s}
      (if cs.length - findCurrentParagraphStart cs ≤ maxChars then findCurrentParagraphStart cs
        else cs.length - maxChars) := by
  have hscan := findCurrentParagraphStart_spec cs
  have hstart := hscan.start_le
  have hcovered : ∀ i j, StrongBoundary cs i j → boundaryEnd cs j ≤ findCurrentParagraphStart cs :=
    fun i j hij => hscan.covered i j hij hij.first.1.lt
  constructor
  · split_ifs with hfits
    · exact ⟨hstart, hfits, hcovered⟩
    · exact ⟨Nat.sub_le _ _, by omega, fun i j hij => (hcovered i j hij).trans (by omega)⟩
  · rintro s ⟨hle, hmax, hends⟩
    split_ifs with hfits
    · rcases hscan.reached with hzero | ⟨i, j, hij, heq⟩
      · rw [hzero]
        exact Nat.zero_le s
      · rw [heq]
        exact hends i j hij
    · omega

theorem rightEnd_isLeast (cs : List Nat) (maxChars : Nat) :
    IsLeast {n | RightEnd cs maxChars n}
      (min maxChars (findFirstSentenceEnd cs (findFirstParagraphBoundary cs))) := by
  obtain ⟨hboundary, hfirst⟩ := findFirstParagraphBoundary_spec cs
  have hlimit : findFirstParagraphBoundary cs ≤ cs.length := hfirst (Or.inl rfl)
  obtain ⟨hsentence, hleast⟩ := findFirstSentenceEnd_spec hlimit
  have hle : findFirstSentenceEnd cs (findFirstParagraphBoundary cs)
      ≤ findFirstParagraphBoundary cs := hleast (Or.inl rfl)
  constructor
  · rcases Nat.le_total maxChars (findFirstSentenceEnd cs (findFirstParagraphBoundary cs)) with
      hmax | hmax
    · exact Or.inl (Nat.min_eq_left hmax)
    · rw [Nat.min_eq_right hmax]
      rcases hsentence with heq | hend
      · rw [heq]
        exact Or.inr (hboundary.elim Or.inl (fun h => Or.inr (Or.inl h)))
      · exact Or.inr (Or.inr (Or.inr hend))
  · rintro n (rfl | rfl | hstrong | hend)
    · exact Nat.min_le_left _ _
    · exact (Nat.min_le_right _ _).trans (hle.trans hlimit)
    · exact (Nat.min_le_right _ _).trans (hle.trans (hfirst (Or.inr hstrong)))
    · exact (Nat.min_le_right _ _).trans (hleast (Or.inr hend))

theorem selectLeft_eq (hcs : ∀ c ∈ cs, IsScalar c) (maxChars : Nat) :
    selectLeft (cs.flatMap utf8) maxChars = some ((cs.drop
      (if cs.length - findCurrentParagraphStart cs ≤ maxChars then findCurrentParagraphStart cs
        else cs.length - maxChars)).flatMap utf8) := by
  have hchars : chars32 (cs.flatMap utf8) = cs := chars32_flatMap_utf8 (fun c hc => (hcs c hc).lt)
  have hstart := (findCurrentParagraphStart_spec cs).start_le
  rw [selectLeft, hchars]
  by_cases hearly : (cs.flatMap utf8).isEmpty = true ∨ maxChars = 0
  · have hcond : ((cs.flatMap utf8).isEmpty || maxChars == 0) = true := by
      rw [Bool.or_eq_true, beq_iff_eq]
      exact hearly
    rw [if_pos hcond]
    rcases hearly with hnil | rfl
    · have hcs' : cs = [] := by
        rw [← hchars, List.isEmpty_iff.mp hnil]
        rfl
      rw [hcs', List.drop_nil]
      rfl
    · rw [List.drop_of_length_le]
      · rfl
      · split_ifs <;> omega
  · have hcond : ¬ ((cs.flatMap utf8).isEmpty || maxChars == 0) = true := by
      rw [Bool.or_eq_true, beq_iff_eq]
      exact hearly
    rw [if_neg hcond]
    dsimp only
    split_ifs with hnil hfits
    · rw [List.isEmpty_iff.mp hnil, List.drop_nil]
      rfl
    · rw [List.isEmpty_iff.mp hnil, List.drop_nil]
      rfl
    all_goals
      rw [utf8Drop_flatMap _ hcs, Option.bind_some,
        utf8Take_flatMap _ (fun c hc => hcs c (List.mem_of_mem_drop hc)), List.take_of_length_le]
      rw [List.length_drop]

theorem selectRight_eq (hcs : ∀ c ∈ cs, IsScalar c) (maxChars : Nat) (hbreak : ¬ StartsWithBreak cs)
    :
    selectRight (cs.flatMap utf8) maxChars = some ((cs.take
      (min maxChars (findFirstSentenceEnd cs (findFirstParagraphBoundary cs)))).flatMap utf8) := by
  have hchars : chars32 (cs.flatMap utf8) = cs := chars32_flatMap_utf8 (fun c hc => (hcs c hc).lt)
  rw [selectRight, hchars]
  by_cases hearly : (cs.flatMap utf8).isEmpty = true ∨ maxChars = 0
  · have hcond : ((cs.flatMap utf8).isEmpty || maxChars == 0) = true := by
      rw [Bool.or_eq_true, beq_iff_eq]
      exact hearly
    rw [if_pos hcond]
    rcases hearly with hnil | rfl
    · have hcs' : cs = [] := by
        rw [← hchars, List.isEmpty_iff.mp hnil]
        rfl
      rw [hcs', List.take_nil]
      rfl
    · rw [Nat.zero_min]
      rfl
  · have hcond : ¬ ((cs.flatMap utf8).isEmpty || maxChars == 0) = true := by
      rw [Bool.or_eq_true, beq_iff_eq]
      exact hearly
    rw [if_neg hcond]
    dsimp only
    split_ifs with hnil hlead hzero
    · rw [List.isEmpty_iff.mp hnil, List.take_nil]
      rfl
    · exact absurd (logicalLineBreakLength_ne_zero.mp hlead) hbreak
    · rw [hzero]
      rfl
    · exact utf8Take_flatMap _ hcs

theorem selectRight_of_break (hcs : ∀ c ∈ cs, IsScalar c) (maxChars : Nat)
    (hbreak : StartsWithBreak cs) : selectRight (cs.flatMap utf8) maxChars = some [] := by
  have hchars : chars32 (cs.flatMap utf8) = cs := chars32_flatMap_utf8 (fun c hc => (hcs c hc).lt)
  rw [selectRight, hchars]
  dsimp only
  split_ifs with _ _ hlead
  · rfl
  · rfl
  · rfl
  all_goals exact absurd (logicalLineBreakLength_ne_zero.mpr hbreak) hlead

/-- **THE WINDOWS**: the left one is the longest end of the text of at most `maxChars` code
    points that starts behind every paragraph boundary; the right one is empty when the
    text goes on with a line break, and else stops at the first of `maxChars` code points,
    a paragraph boundary and the end of a sentence. -/
theorem select_windows (text : Bytes) (h : ValidUtf8 text) (maxChars : Nat) :
    (∃ s, IsLeast {s | LeftStart (chars32 text) maxChars s} s ∧
        selectLeft text maxChars = some (((chars32 text).drop s).flatMap utf8)) ∧
      (StartsWithBreak (chars32 text) → selectRight text maxChars = some []) ∧
      (¬ StartsWithBreak (chars32 text) →
        ∃ n, IsLeast {n | RightEnd (chars32 text) maxChars n} n ∧
          selectRight text maxChars = some (((chars32 text).take n).flatMap utf8)) := by
  obtain ⟨cs, hcs, rfl⟩ := h
  rw [chars32_flatMap_utf8 (fun c hc => (hcs c hc).lt)]
  refine ⟨?_, ?_, ?_⟩
  · exact ⟨_, leftStart_isLeast cs maxChars, selectLeft_eq hcs maxChars⟩
  · exact selectRight_of_break hcs maxChars
  · intro hbreak
    exact ⟨_, rightEnd_isLeast cs maxChars, selectRight_eq hcs maxChars hbreak⟩

/-- Two letters with an empty line between them. -/
theorem select_windows_letters :
    (∃ s, IsLeast {s | LeftStart (chars32 [0x61, 0x0A, 0x0A, 0x62]) 9 s} s ∧
        selectLeft [0x61, 0x0A, 0x0A, 0x62] 9
          = some (((chars32 [0x61, 0x0A, 0x0A, 0x62]).drop s).flatMap utf8)) ∧
      ∃ n, IsLeast {n | RightEnd (chars32 [0x61, 0x0A, 0x0A, 0x62]) 9 n} n ∧
        selectRight [0x61, 0x0A, 0x0A, 0x62] 9
          = some (((chars32 [0x61, 0x0A, 0x0A, 0x62]).take n).flatMap utf8) := by
  have hvalid : ValidUtf8 [0x61, 0x0A, 0x0A, 0x62] := ⟨[0x61, 0x0A, 0x0A, 0x62], by decide, rfl⟩
  obtain ⟨hleft, -, hright⟩ := select_windows _ hvalid 9
  refine ⟨hleft, hright ?_⟩
  rw [StartsWithBreak, ← logicalLineBreakLength_ne_zero]
  decide

end MozkeyZenz
