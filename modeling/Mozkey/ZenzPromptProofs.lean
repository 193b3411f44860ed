import Mozkey.Utf8Proofs

/-! # ZenzPromptBuilder — a prompt that can be taken apart

    A prompt is a sequence of fields, each behind a marker of its own from the private use
    area.  The conditions are sanitized before they are put in: they are decoded, control
    code points are dropped, and the rest is spelled again.  The reading is only put into
    katakana. -/

namespace MozkeyZenz

open ByteString MozkeyUtil

/-! ## The builder of the source -/

/-- `ZenzPromptOptions`. -/
structure ZenzPromptOptions where
  leftContext : Bytes := []
  rightContext : Bytes := []
  profile : Bytes := []
  topic : Bytes := []
  style : Bytes := []
  settings : Bytes := []

/-- The markers of a prompt. -/
def kZenzReadingBegin : Bytes := [0xEE, 0xB8, 0x80]
def kZenzOutputBegin : Bytes := [0xEE, 0xB8, 0x81]
def kZenzContextBegin : Bytes := [0xEE, 0xB8, 0x82]
def kZenzProfileBegin : Bytes := [0xEE, 0xB8, 0x83]
def kZenzTopicBegin : Bytes := [0xEE, 0xB8, 0x84]
def kZenzStyleBegin : Bytes := [0xEE, 0xB8, 0x85]
def kZenzSettingsBegin : Bytes := [0xEE, 0xB8, 0x86]
def kZenzRightContextBegin : Bytes := [0xEE, 0xB8, 0x87]
def kMaxZenzConditionChars : Nat := 64

/-- A byte that continues a code point. -/
def isTrailing (c : UInt8) : Bool := c &&& 0xC0 == 0x80

/-- `DecodeOneUtf8`: the code point and what is behind it; `none` where it returns `false`. -/
def decodeOneUtf8 : Bytes → Option (Nat × Bytes)
  | [] => none
  | c0 :: rest =>
    if c0 < 0x80 then some (c0.toNat, rest)
    else if c0 &&& 0xE0 = 0xC0 then
      match rest with
      | c1 :: rest =>
        if !isTrailing c1 then none
        else some (((c0 &&& 0x1F).toNat <<< 6) ||| (c1 &&& 0x3F).toNat, rest)
      | _ => none
    else if c0 &&& 0xF0 = 0xE0 then
      match rest with
      | c1 :: c2 :: rest =>
        if !isTrailing c1 || !isTrailing c2 then none
        else some (((c0 &&& 0x0F).toNat <<< 12) ||| ((c1 &&& 0x3F).toNat <<< 6) |||
          (c2 &&& 0x3F).toNat, rest)
      | _ => none
    else if c0 &&& 0xF8 = 0xF0 then
      match rest with
      | c1 :: c2 :: c3 :: rest =>
        if !isTrailing c1 || !isTrailing c2 || !isTrailing c3 then none
        else some (((c0 &&& 0x07).toNat <<< 18) ||| ((c1 &&& 0x3F).toNat <<< 12) |||
          ((c2 &&& 0x3F).toNat <<< 6) ||| (c3 &&& 0x3F).toNat, rest)
      | _ => none
    else none

/-- What `AppendUtf8` appends. -/
def appendUtf8 (codepoint : Nat) : Bytes :=
  if codepoint ≤ 0x7F then [UInt8.ofNat codepoint]
  else if codepoint ≤ 0x7FF then
    [UInt8.ofNat (0xC0 ||| ((codepoint >>> 6) &&& 0x1F)),
      UInt8.ofNat (0x80 ||| (codepoint &&& 0x3F))]
  else if codepoint ≤ 0xFFFF then
    [UInt8.ofNat (0xE0 ||| ((codepoint >>> 12) &&& 0x0F)),
      UInt8.ofNat (0x80 ||| ((codepoint >>> 6) &&& 0x3F)),
      UInt8.ofNat (0x80 ||| (codepoint &&& 0x3F))]
  else
    [UInt8.ofNat (0xF0 ||| ((codepoint >>> 18) &&& 0x07)),
      UInt8.ofNat (0x80 ||| ((codepoint >>> 12) &&& 0x3F)),
      UInt8.ofNat (0x80 ||| ((codepoint >>> 6) &&& 0x3F)),
      UInt8.ofNat (0x80 ||| (codepoint &&& 0x3F))]

/-- `IsZenzControlCodepoint`. -/
def isZenzControlCodepoint (codepoint : Nat) : Bool :=
  decide (0xEE00 ≤ codepoint) && decide (codepoint ≤ 0xEE0F)

/-- `IsUnsafeControlCodepoint`. -/
def isUnsafeControlCodepoint (codepoint : Nat) : Bool :=
  decide (codepoint < 0x20) || decide (codepoint = 0x7F)

/-- The loop of `SanitizeConditionText`; every code point takes a byte at least. -/
def sanitizeLoop (maxChars : Nat) : Nat → Bytes → Nat → Bytes
  | 0, _, _ => []
  | fuel + 1, input, chars =>
    if input.isEmpty then []
    else if maxChars > 0 ∧ chars ≥ maxChars then []
    else
      match decodeOneUtf8 input with
      | none => []
      | some (cp, rest) =>
        if isZenzControlCodepoint cp then sanitizeLoop maxChars fuel rest chars
        else if isUnsafeControlCodepoint cp then
          -- a tab or the end of a line
          if cp = 0x09 ∨ cp = 0x0A ∨ cp = 0x0D then
            0x20 :: sanitizeLoop maxChars fuel rest (chars + 1)
          else sanitizeLoop maxChars fuel rest chars
        else appendUtf8 cp ++ sanitizeLoop maxChars fuel rest (chars + 1)

/-- `SanitizeConditionText`. -/
def sanitizeConditionText (input : Bytes) (maxChars : Nat) : Bytes :=
  sanitizeLoop maxChars input.length input 0

/-- The loop of `HiraganaToKatakana`; every code point takes a byte at least. -/
def hiraganaToKatakanaLoop : Nat → Bytes → Bytes
  | 0, input => input
  | fuel + 1, input =>
    if input.isEmpty then []
    else
      match decodeOneUtf8 input with
      -- what cannot be decoded stays
      | none => input
      | some (cp, rest) =>
        appendUtf8 (if 0x3041 ≤ cp ∧ cp ≤ 0x3096 then cp + 0x60 else cp) ++
          hiraganaToKatakanaLoop fuel rest

/-- `HiraganaToKatakana`. -/
def hiraganaToKatakana (input : Bytes) : Bytes := hiraganaToKatakanaLoop input.length input

/-- The conditions as `Build` sanitizes them. -/
def sanitizeOptions (options : ZenzPromptOptions) : ZenzPromptOptions where
  leftContext := sanitizeConditionText options.leftContext 0
  rightContext := sanitizeConditionText options.rightContext 0
  profile := sanitizeConditionText options.profile kMaxZenzConditionChars
  topic := sanitizeConditionText options.topic kMaxZenzConditionChars
  style := sanitizeConditionText options.style kMaxZenzConditionChars
  settings := sanitizeConditionText options.settings kMaxZenzConditionChars

/-- `Build`. -/
def build (readingHiragana : Bytes) (options : ZenzPromptOptions) : Bytes :=
  let s := sanitizeOptions options
  let readingKatakana := hiraganaToKatakana readingHiragana
  let prompt := kZenzContextBegin ++ s.leftContext
  let prompt := if s.rightContext.isEmpty then prompt
    else prompt ++ kZenzRightContextBegin ++ s.rightContext
  let prompt := if s.profile.isEmpty then prompt else prompt ++ kZenzProfileBegin ++ s.profile
  let prompt := if s.topic.isEmpty then prompt else prompt ++ kZenzTopicBegin ++ s.topic
  let prompt := if s.style.isEmpty then prompt else prompt ++ kZenzStyleBegin ++ s.style
  let prompt := if s.settings.isEmpty then prompt else prompt ++ kZenzSettingsBegin ++ s.settings
  prompt ++ kZenzReadingBegin ++ readingKatakana ++ kZenzOutputBegin

/-! ## Taking a prompt apart -/

/-- The text before the first of the spellings of U+EE00..U+EE0F, and the text behind each
    with its code point. -/
def splitAtMarkers : Bytes → Bytes × List (Nat × Bytes)
  | b0 :: b1 :: b2 :: rest =>
    if b0 = 0xEE ∧ b1 = 0xB8 ∧ b2 &&& 0xF0 = 0x80 then
      let split := splitAtMarkers rest
      ([], (0xEE00 + (b2 &&& 0x0F).toNat, split.1) :: split.2)
    else
      let split := splitAtMarkers (b1 :: b2 :: rest)
      (b0 :: split.1, split.2)
  | text => (text, [])

/-- The spelling of a marker. -/
def marker (codepoint : Nat) : Bytes := [0xEE, 0xB8, UInt8.ofNat (codepoint - 0xEE00 + 0x80)]

/-- The conditions behind the left context, with their markers. -/
def conditions (s : ZenzPromptOptions) : List (Nat × Bytes) :=
  [(0xEE07, s.rightContext), (0xEE03, s.profile), (0xEE04, s.topic), (0xEE05, s.style),
    (0xEE06, s.settings)]

/-- A condition behind its marker; one that is empty is left out. -/
def condition (piece : Nat × Bytes) : List (Nat × Bytes) :=
  if piece.2.isEmpty then [] else [piece]

/-- The conditions of a prompt, each behind its marker. -/
def conditionPieces (s : ZenzPromptOptions) : List (Nat × Bytes) :=
  (0xEE02, s.leftContext) :: (conditions s).flatMap condition

/-- The fields of a prompt, each behind its marker. -/
def promptPieces (s : ZenzPromptOptions) (readingKatakana : Bytes) : List (Nat × Bytes) :=
  conditionPieces s ++ [(0xEE00, readingKatakana), (0xEE01, [])]

/-- The field of a marker, empty where it is left out. -/
def fieldOf (codepoint : Nat) (prompt : Bytes) : Bytes :=
  ((splitAtMarkers prompt).2.lookup codepoint).getD []

/-- The conditions and the reading, from the prompt alone. -/
def recover (prompt : Bytes) : ZenzPromptOptions × Bytes :=
  ({ leftContext := fieldOf 0xEE02 prompt
     rightContext := fieldOf 0xEE07 prompt
     profile := fieldOf 0xEE03 prompt
     topic := fieldOf 0xEE04 prompt
     style := fieldOf 0xEE05 prompt
     settings := fieldOf 0xEE06 prompt },
    fieldOf 0xEE00 prompt)

/-- The prompt is split into its fields, in their order, and they are recovered from it. -/
structure Structured (readingHiragana : Bytes) (options : ZenzPromptOptions) : Prop where
  split_eq : splitAtMarkers (build readingHiragana options)
    = ([], promptPieces (sanitizeOptions options) (hiraganaToKatakana readingHiragana))
  markers : ((splitAtMarkers (build readingHiragana options)).2.map Prod.fst).Sublist
    [0xEE02, 0xEE07, 0xEE03, 0xEE04, 0xEE05, 0xEE06, 0xEE00, 0xEE01]
  recover_eq : recover (build readingHiragana options)
    = (sanitizeOptions options, hiraganaToKatakana readingHiragana)

/-- The code points of a text, and the rest that cannot be decoded. -/
def decodeLoop : Nat → Bytes → List Nat × Bytes
  | 0, input => ([], input)
  | fuel + 1, input =>
    match decodeOneUtf8 input with
    | none => ([], input)
    | some (cp, rest) =>
      let decoded := decodeLoop fuel rest
      (cp :: decoded.1, decoded.2)

/-- The code points of a text, and the rest that cannot be decoded. -/
def decodeAll (input : Bytes) : List Nat × Bytes := decodeLoop input.length input

/-! ## Where the markers are -/

theorem isZenzControlCodepoint_iff (cp : Nat) :
    isZenzControlCodepoint cp = true ↔ 0xEE00 ≤ cp ∧ cp ≤ 0xEE0F := by
  rw [isZenzControlCodepoint, Bool.and_eq_true, decide_eq_true_eq, decide_eq_true_eq]

theorem leading2_ne_marker : ∀ x < 0x20, UInt8.ofNat (0xC0 ||| x) ≠ 0xEE := by decide
theorem leading3_eq_marker : ∀ x < 0x10, UInt8.ofNat (0xE0 ||| x) = 0xEE ↔ x = 0x0E := by decide
theorem leading4_ne_marker : ∀ x < 0x08, UInt8.ofNat (0xF0 ||| x) ≠ 0xEE := by decide

theorem trailing_marker : ∀ x < 0x40, UInt8.ofNat (0x80 ||| x) ≠ 0xEE ∧
    (UInt8.ofNat (0x80 ||| x) = 0xB8 ↔ x = 0x38) ∧
    (UInt8.ofNat (0x80 ||| x) &&& 0xF0 = 0x80 ↔ x < 0x10) := by decide

theorem trailing_nibble : ∀ x < 0x10, (UInt8.ofNat (0x80 ||| x) &&& 0x0F).toNat = x ∧
    UInt8.ofNat (0x80 ||| x) = UInt8.ofNat (x + 0x80) := by decide

theorem splitAtMarkers_cons {b0 : UInt8} {l : Bytes}
    (h : ∀ b1 b2 rest, l = b1 :: b2 :: rest → ¬ (b0 = 0xEE ∧ b1 = 0xB8 ∧ b2 &&& 0xF0 = 0x80)) :
    splitAtMarkers (b0 :: l) = (b0 :: (splitAtMarkers l).1, (splitAtMarkers l).2) := by
  match l with
  | [] => rfl
  | [_] => rfl
  | b1 :: b2 :: rest =>
    rw [splitAtMarkers, if_neg (h b1 b2 rest rfl)]

theorem splitAtMarkers_cons_of_ne {b0 : UInt8} (h : b0 ≠ 0xEE) (l : Bytes) :
    splitAtMarkers (b0 :: l) = (b0 :: (splitAtMarkers l).1, (splitAtMarkers l).2) :=
  splitAtMarkers_cons fun _ _ _ _ hm => h hm.1

variable {cp : Nat}

theorem splitAtMarkers_marker (hcp : isZenzControlCodepoint cp = true) (rest : Bytes) :
    splitAtMarkers (marker cp ++ rest)
      = ([], (cp, (splitAtMarkers rest).1) :: (splitAtMarkers rest).2) := by
  rw [isZenzControlCodepoint_iff] at hcp
  have hx : cp - 0xEE00 < 0x10 := by omega
  obtain ⟨hnibble, hbyte⟩ := trailing_nibble _ hx
  have hhigh := (trailing_marker _ (Nat.lt_trans hx (by decide))).2.2.mpr hx
  rw [hbyte] at hnibble hhigh
  show splitAtMarkers (0xEE :: 0xB8 :: UInt8.ofNat (cp - 0xEE00 + 0x80) :: rest) = _
  rw [splitAtMarkers, if_pos ⟨rfl, rfl, hhigh⟩, hnibble, Nat.add_sub_cancel' hcp.1]

/-- **A MARKER ENDS WHAT IS BEFORE IT**: no text completes or hides the marker behind it. -/
theorem splitAtMarkers_append_marker (text : Bytes) (hcp : isZenzControlCodepoint cp = true)
    (rest : Bytes) :
    splitAtMarkers (text ++ (marker cp ++ rest))
      = ((splitAtMarkers text).1, (splitAtMarkers text).2 ++
          (cp, (splitAtMarkers rest).1) :: (splitAtMarkers rest).2) := by
  induction text using splitAtMarkers.induct with
  | case1 b0 b1 b2 text hm ih =>
    show splitAtMarkers (b0 :: b1 :: b2 :: (text ++ (marker cp ++ rest))) = _
    rw [splitAtMarkers, if_pos hm, splitAtMarkers, if_pos hm, ih]
    rfl
  | case2 b0 b1 b2 text hm ih =>
    show splitAtMarkers (b0 :: b1 :: b2 :: (text ++ (marker cp ++ rest))) = _
    rw [splitAtMarkers, if_neg hm, splitAtMarkers, if_neg hm]
    have hs : splitAtMarkers (b1 :: b2 :: (text ++ (marker cp ++ rest))) = _ := ih
    rw [hs]
  | case3 text hshort =>
    match text with
    | [] => rw [List.nil_append, splitAtMarkers_marker hcp]; rfl
    | [b0] =>
      -- the second byte would be the first of the marker
      show splitAtMarkers (b0 :: (marker cp ++ rest)) = _
      rw [splitAtMarkers_cons, splitAtMarkers_marker hcp]
      · rfl
      · intro b1 b2 l hl hm
        have hb1 : 0xEE = b1 := (List.cons.inj hl).1
        rw [← hb1] at hm
        exact absurd hm.2.1 (by decide)
    | [b0, b1] =>
      show splitAtMarkers (b0 :: b1 :: (marker cp ++ rest)) = _
      rw [splitAtMarkers_cons, splitAtMarkers_cons, splitAtMarkers_marker hcp]
      · rfl
      · intro b2 b3 l hl hm
        have hb2 : 0xEE = b2 := (List.cons.inj hl).1
        rw [← hb2] at hm
        exact absurd hm.2.1 (by decide)
      · intro c1 c2 l hl hm
        have hc2 : 0xEE = c2 := (List.cons.inj (List.cons.inj hl).2).1
        rw [← hc2] at hm
        exact absurd hm.2.2 (by decide)
    | b0 :: b1 :: b2 :: text => exact absurd rfl (hshort b0 b1 b2 text)

/-- **A CODE POINT THAT IS SPELLED IS A MARKER OR TEXT.** -/
theorem splitAtMarkers_append_codepoint (cp : Nat) (rest : Bytes) :
    splitAtMarkers (appendUtf8 cp ++ rest)
      = if isZenzControlCodepoint cp then
          ([], (cp, (splitAtMarkers rest).1) :: (splitAtMarkers rest).2)
        else (appendUtf8 cp ++ (splitAtMarkers rest).1, (splitAtMarkers rest).2) := by
  have hlow : ∀ n, n &&& 0x3F < 0x40 := fun n => by rw [and_mask 0x3F 0x40 6]; omega
  unfold appendUtf8
  by_cases h1 : cp ≤ 0x7F
  · rw [if_pos h1, if_neg (by rw [isZenzControlCodepoint_iff]; omega)]
    have hne : UInt8.ofNat cp ≠ 0xEE := fun hc => by
      have hto := congrArg UInt8.toNat hc
      rw [UInt8.toNat_ofNat'] at hto
      have : (0xEE : UInt8).toNat = 0xEE := rfl
      omega
    exact splitAtMarkers_cons_of_ne hne rest
  · rw [if_neg h1]
    by_cases h2 : cp ≤ 0x7FF
    · rw [if_pos h2, if_neg (by rw [isZenzControlCodepoint_iff]; omega)]
      show splitAtMarkers (_ :: _ :: rest) = _
      rw [splitAtMarkers_cons_of_ne (leading2_ne_marker _ (by rw [and_mask 0x1F 0x20 5]; omega)),
        splitAtMarkers_cons_of_ne (trailing_marker _ (hlow _)).1]
      rfl
    · rw [if_neg h2]
      by_cases h3 : cp ≤ 0xFFFF
      · rw [if_pos h3]
        by_cases hcp : isZenzControlCodepoint cp = true
        · rw [if_pos hcp, ← splitAtMarkers_marker hcp]
          rw [isZenzControlCodepoint_iff] at hcp
          have hx : cp - 0xEE00 < 0x10 := by omega
          -- the spelling of such a code point is its marker
          have e1 : (cp >>> 12) &&& 0x0F = 0x0E := by
            rw [and_mask 0x0F 0x10 4, Nat.shiftRight_eq_div_pow]; omega
          have e2 : (cp >>> 6) &&& 0x3F = 0x38 := by
            rw [and_mask 0x3F 0x40 6, Nat.shiftRight_eq_div_pow]; omega
          have e3 : cp &&& 0x3F = cp - 0xEE00 := by rw [and_mask 0x3F 0x40 6]; omega
          rw [e1, e2, e3, (trailing_nibble _ hx).2]
          rfl
        · rw [if_neg hcp]
          show splitAtMarkers (_ :: _ :: _ :: rest) = _
          rw [splitAtMarkers_cons, splitAtMarkers_cons_of_ne (trailing_marker _ (hlow _)).1,
            splitAtMarkers_cons_of_ne (trailing_marker _ (hlow _)).1]
          · rfl
          · intro b1 b2 l hl hm
            have hb1 := (List.cons.inj hl).1
            have hb2 := (List.cons.inj (List.cons.inj hl).2).1
            rw [← hb1, ← hb2] at hm
            have e1 := (leading3_eq_marker _ (by rw [and_mask 0x0F 0x10 4]; omega)).mp hm.1
            have e2 := (trailing_marker _ (hlow _)).2.1.mp hm.2.1
            have e3 := (trailing_marker _ (hlow _)).2.2.mp hm.2.2
            rw [and_mask 0x0F 0x10 4, Nat.shiftRight_eq_div_pow] at e1
            rw [and_mask 0x3F 0x40 6, Nat.shiftRight_eq_div_pow] at e2
            rw [and_mask 0x3F 0x40 6] at e3
            rw [isZenzControlCodepoint_iff] at hcp
            omega
      · rw [if_neg h3, if_neg (by rw [isZenzControlCodepoint_iff]; omega)]
        show splitAtMarkers (_ :: _ :: _ :: _ :: rest) = _
        rw [splitAtMarkers_cons_of_ne (leading4_ne_marker _ (by rw [and_mask 0x07 0x08 3]; omega)),
          splitAtMarkers_cons_of_ne (trailing_marker _ (hlow _)).1,
          splitAtMarkers_cons_of_ne (trailing_marker _ (hlow _)).1,
          splitAtMarkers_cons_of_ne (trailing_marker _ (hlow _)).1]
        rfl

theorem eq_of_splitAtMarkers {text : Bytes} (h : (splitAtMarkers text).2 = []) :
    (splitAtMarkers text).1 = text := by
  induction text using splitAtMarkers.induct with
  | case1 b0 b1 b2 text hm ih =>
    rw [splitAtMarkers, if_pos hm] at h
    exact nomatch h
  | case2 b0 b1 b2 text hm ih =>
    rw [splitAtMarkers, if_neg hm] at h ⊢
    exact congrArg (b0 :: ·) (ih h)
  | case3 text hshort =>
    match text with
    | [] => rfl
    | [_] => rfl
    | [_, _] => rfl
    | b0 :: b1 :: b2 :: text => exact absurd rfl (hshort b0 b1 b2 text)

/-! ## What is put into a prompt -/

/-- **A SANITIZED CONDITION HAS NO MARKER.** -/
theorem splitAtMarkers_sanitizeLoop (maxChars : Nat) : ∀ (fuel : Nat) (input : Bytes) (chars : Nat),
    splitAtMarkers (sanitizeLoop maxChars fuel input chars)
      = (sanitizeLoop maxChars fuel input chars, []) := by
  intro fuel
  induction fuel with
  | zero => intro input chars; rfl
  | succ fuel ih =>
    intro input chars
    rw [sanitizeLoop]
    by_cases hempty : input.isEmpty
    · rw [if_pos hempty]; rfl
    · rw [if_neg hempty]
      by_cases hmax : maxChars > 0 ∧ chars ≥ maxChars
      · rw [if_pos hmax]; rfl
      · rw [if_neg hmax]
        match decodeOneUtf8 input with
        | none => rfl
        | some (cp, rest) =>
          show splitAtMarkers (if isZenzControlCodepoint cp then _ else _)
            = (if isZenzControlCodepoint cp then _ else _, [])
          by_cases hcp : isZenzControlCodepoint cp
          · rw [if_pos hcp]
            exact ih rest chars
          · rw [if_neg hcp]
            by_cases hunsafe : isUnsafeControlCodepoint cp
            · rw [if_pos hunsafe]
              by_cases hblank : cp = 0x09 ∨ cp = 0x0A ∨ cp = 0x0D
              · rw [if_pos hblank, splitAtMarkers_cons_of_ne (by decide), ih]
              · rw [if_neg hblank]
                exact ih rest chars
            · rw [if_neg hunsafe, splitAtMarkers_append_codepoint, if_neg hcp, ih]

theorem splitAtMarkers_sanitized (input : Bytes) (maxChars : Nat) :
    splitAtMarkers (sanitizeConditionText input maxChars)
      = (sanitizeConditionText input maxChars, []) :=
  splitAtMarkers_sanitizeLoop maxChars _ _ _

/-- **THE MARKERS OF A READING IN KATAKANA** are the control code points it decodes to, and
    what its undecodable rest contains. -/
theorem markers_hiraganaToKatakanaLoop : ∀ (fuel : Nat) (input : Bytes),
    (splitAtMarkers (hiraganaToKatakanaLoop fuel input)).2 = [] ↔
      (∀ cp ∈ (decodeLoop fuel input).1, isZenzControlCodepoint cp = false) ∧
        (splitAtMarkers (decodeLoop fuel input).2).2 = [] := by
  intro fuel
  induction fuel with
  | zero =>
    intro input
    exact ⟨fun h => ⟨fun _ hcp => (nomatch hcp), h⟩, fun h => h.2⟩
  | succ fuel ih =>
    intro input
    rw [hiraganaToKatakanaLoop, decodeLoop]
    match input with
    | [] => exact ⟨fun _ => ⟨fun _ hcp => (nomatch hcp), rfl⟩, fun _ => rfl⟩
    | b :: input =>
      rw [if_neg (by rw [List.isEmpty_cons]; decide)]
      match decodeOneUtf8 (b :: input) with
      | none => exact ⟨fun h => ⟨fun _ hcp => (nomatch hcp), h⟩, fun h => h.2⟩
      | some (cp, rest) =>
        dsimp only
        rw [splitAtMarkers_append_codepoint]
        -- the shift to katakana neither makes nor hides a control code point
        have hshift : isZenzControlCodepoint
            (if 0x3041 ≤ cp ∧ cp ≤ 0x3096 then cp + 0x60 else cp)
              = isZenzControlCodepoint cp := by
          by_cases hkana : 0x3041 ≤ cp ∧ cp ≤ 0x3096
          · rw [if_pos hkana, isZenzControlCodepoint, isZenzControlCodepoint]
            rw [decide_eq_false (by omega : ¬ 0xEE00 ≤ cp + 0x60),
              decide_eq_false (by omega : ¬ 0xEE00 ≤ cp), Bool.false_and, Bool.false_and]
          · rw [if_neg hkana]
        rw [hshift, List.forall_mem_cons]
        by_cases hcp : isZenzControlCodepoint cp = true
        · rw [if_pos hcp, hcp]
          exact ⟨fun h => (nomatch h), fun h => Bool.noConfusion h.1.1⟩
        · rw [if_neg hcp, Bool.not_eq_true] at *
          rw [ih rest, and_assoc]
          exact ⟨fun h => ⟨hcp, h⟩, fun h => h.2⟩

/-! ## The prompt as a sequence of fields -/

/-- The fields as they stand in a prompt. -/
def spellPieces (pieces : List (Nat × Bytes)) : Bytes :=
  pieces.flatMap fun piece => marker piece.1 ++ piece.2

theorem append_spellPieces_condition (prompt : Bytes) (piece : Nat × Bytes) :
    prompt ++ spellPieces (condition piece)
      = if piece.2.isEmpty then prompt else prompt ++ marker piece.1 ++ piece.2 := by
  unfold condition
  split
  · exact List.append_nil _
  · rw [List.append_assoc]
    exact congrArg (prompt ++ ·) (List.append_nil _)

theorem spellPieces_append (front pieces : List (Nat × Bytes)) :
    spellPieces (front ++ pieces) = spellPieces front ++ spellPieces pieces :=
  List.flatMap_append

theorem build_eq (readingHiragana : Bytes) (options : ZenzPromptOptions) :
    build readingHiragana options
      = spellPieces (conditionPieces (sanitizeOptions options)) ++
          (marker 0xEE00 ++ (hiraganaToKatakana readingHiragana ++ marker 0xEE01)) := by
  have hpieces : ∀ s : ZenzPromptOptions, spellPieces (conditionPieces s)
      = marker 0xEE02 ++ s.leftContext ++ spellPieces (condition (0xEE07, s.rightContext)) ++
        spellPieces (condition (0xEE03, s.profile)) ++ spellPieces (condition (0xEE04, s.topic)) ++
        spellPieces (condition (0xEE05, s.style)) ++
        spellPieces (condition (0xEE06, s.settings)) := by
    intro s
    show (marker 0xEE02 ++ s.leftContext) ++ spellPieces (condition _ ++ (condition _ ++
      (condition _ ++ (condition _ ++ (condition _ ++ []))))) = _
    rw [spellPieces_append, spellPieces_append, spellPieces_append, spellPieces_append,
      List.append_nil]
    simp only [List.append_assoc]
  rw [hpieces]
  simp only [append_spellPieces_condition]
  rw [← List.append_assoc, ← List.append_assoc]
  rfl

/-- A piece whose text has no marker, behind its own. -/
def WellFormedPiece (piece : Nat × Bytes) : Prop :=
  isZenzControlCodepoint piece.1 = true ∧ splitAtMarkers piece.2 = (piece.2, [])

variable {pieces : List (Nat × Bytes)}

/-- **FIELDS WITHOUT MARKERS ARE WHAT A PROMPT IS SPLIT INTO.** -/
theorem splitAtMarkers_pieces (h : ∀ piece ∈ pieces, WellFormedPiece piece)
    (hcp : isZenzControlCodepoint cp = true) (rest : Bytes) :
    ∀ text : Bytes, splitAtMarkers text = (text, []) →
      splitAtMarkers (text ++ (spellPieces pieces ++ (marker cp ++ rest)))
        = (text, pieces ++ (cp, (splitAtMarkers rest).1) :: (splitAtMarkers rest).2) := by
  induction pieces with
  | nil =>
    intro text htext
    show splitAtMarkers (text ++ (marker cp ++ rest)) = _
    rw [splitAtMarkers_append_marker text hcp, htext]
  | cons piece pieces ih =>
    intro text htext
    obtain ⟨hcontrol, hpiece⟩ := h piece List.mem_cons_self
    show splitAtMarkers (text ++ ((marker piece.1 ++ piece.2) ++ spellPieces pieces ++ _)) = _
    rw [List.append_assoc, List.append_assoc, splitAtMarkers_append_marker text hcontrol, htext,
      ih (fun p hp => h p (List.mem_cons_of_mem _ hp)) piece.2 hpiece]
    rfl

/-- The conditions that `Build` puts in are sanitized, behind markers of their own. -/
theorem wellFormed_conditionPieces (options : ZenzPromptOptions) :
    ∀ piece ∈ conditionPieces (sanitizeOptions options), WellFormedPiece piece := by
  have hconditions : ∀ piece ∈ conditions (sanitizeOptions options), WellFormedPiece piece := by
    intro piece hmem
    simp only [conditions, List.mem_cons, List.not_mem_nil, or_false] at hmem
    rcases hmem with rfl | rfl | rfl | rfl | rfl <;>
      exact ⟨(isZenzControlCodepoint_iff _).mpr (by omega), splitAtMarkers_sanitized _ _⟩
  intro piece hmem
  rcases List.mem_cons.mp hmem with rfl | hmem
  · exact ⟨(isZenzControlCodepoint_iff _).mpr (by omega), splitAtMarkers_sanitized _ _⟩
  · obtain ⟨whole, hwhole, hmem⟩ := List.mem_flatMap.mp hmem
    unfold condition at hmem
    split at hmem
    · exact nomatch hmem
    · rw [List.mem_singleton.mp hmem]
      exact hconditions whole hwhole

/-- **WHAT A PROMPT IS SPLIT INTO**: its fields, with whatever markers the reading has. -/
theorem splitAtMarkers_build (readingHiragana : Bytes) (options : ZenzPromptOptions) :
    splitAtMarkers (build readingHiragana options)
      = ([], conditionPieces (sanitizeOptions options) ++
          (0xEE00, (splitAtMarkers (hiraganaToKatakana readingHiragana)).1) ::
            ((splitAtMarkers (hiraganaToKatakana readingHiragana)).2 ++ [(0xEE01, [])])) := by
  have hnil : splitAtMarkers [] = ([], []) := rfl
  have hreading : isZenzControlCodepoint 0xEE00 = true := by decide
  have houtput : isZenzControlCodepoint 0xEE01 = true := by decide
  have hlast := splitAtMarkers_append_marker (hiraganaToKatakana readingHiragana) houtput []
  rw [List.append_nil, hnil] at hlast
  have hsplit := splitAtMarkers_pieces (wellFormed_conditionPieces options) hreading
    (hiraganaToKatakana readingHiragana ++ marker 0xEE01) [] hnil
  rw [List.nil_append, hlast] at hsplit
  rw [build_eq, hsplit]

/-! ## The fields from the prompt alone -/

theorem condition_append (piece : Nat × Bytes) (rest : List (Nat × Bytes)) :
    condition piece ++ rest = if piece.2.isEmpty then rest else piece :: rest := by
  unfold condition
  split <;> rfl

theorem lookup_conditions_of_notMem {rest : List (Nat × Bytes)} (h : cp ∉ pieces.map Prod.fst) :
    (pieces.flatMap condition ++ rest).lookup cp = rest.lookup cp := by
  induction pieces with
  | nil => rfl
  | cons piece pieces ih =>
    obtain ⟨hne, hnotin⟩ := not_or.mp (mt List.mem_cons.mpr h)
    rw [List.flatMap_cons, List.append_assoc, condition_append]
    split
    · exact ih hnotin
    · rw [List.lookup_cons, beq_false_of_ne hne]
      exact ih hnotin

/-- A condition is found behind its marker; one that is left out is read as empty, which is
    what it is. -/
theorem lookup_conditions {text : Bytes} {rest : List (Nat × Bytes)} (hmem : (cp, text) ∈ pieces)
    (hnodup : (pieces.map Prod.fst).Nodup) (hrest : rest.lookup cp = none) :
    ((pieces.flatMap condition ++ rest).lookup cp).getD [] = text := by
  induction pieces with
  | nil => exact nomatch hmem
  | cons piece pieces ih =>
    obtain ⟨hnotin, hnodup⟩ := List.nodup_cons.mp hnodup
    rw [List.flatMap_cons, List.append_assoc, condition_append]
    rcases List.mem_cons.mp hmem with rfl | hmem
    · split
      · rename_i hempty
        rw [lookup_conditions_of_notMem hnotin, hrest]
        exact (List.isEmpty_iff.mp hempty).symm
      · rw [List.lookup_cons_self]
        rfl
    · split
      · exact ih hmem hnodup
      · have hne : cp ≠ piece.1 := fun hc => hnotin (hc ▸ List.mem_map_of_mem hmem)
        rw [List.lookup_cons, beq_false_of_ne hne]
        exact ih hmem hnodup

/-- **THE FIELDS ARE RECOVERED** from what a prompt is split into. -/
theorem recover_of_split {prompt : Bytes} {s : ZenzPromptOptions} {readingKatakana : Bytes}
    (h : (splitAtMarkers prompt).2 = promptPieces s readingKatakana) :
    recover prompt = (s, readingKatakana) := by
  have hnodup : ((conditions s).map Prod.fst).Nodup := by
    show [0xEE07, 0xEE03, 0xEE04, 0xEE05, 0xEE06].Nodup
    simp
  have hcondition : ∀ {cp : Nat} (text : Bytes), (cp, text) ∈ conditions s → cp ≠ 0xEE02 →
      cp ≠ 0xEE00 → cp ≠ 0xEE01 → fieldOf cp prompt = text := by
    intro cp text hmem h2 h0 h1
    unfold fieldOf
    rw [h]
    show (List.lookup cp ((0xEE02, _) :: ((conditions s).flatMap condition ++ _))).getD [] = text
    rw [List.lookup_cons, beq_false_of_ne h2]
    refine lookup_conditions hmem hnodup ?_
    rw [List.lookup_cons, beq_false_of_ne h0, List.lookup_cons, beq_false_of_ne h1]
    rfl
  have hleft : fieldOf 0xEE02 prompt = s.leftContext := by
    unfold fieldOf
    rw [h]
    show (List.lookup 0xEE02 ((0xEE02, _) :: _)).getD [] = _
    rw [List.lookup_cons_self]
    rfl
  have hreading : fieldOf 0xEE00 prompt = readingKatakana := by
    unfold fieldOf
    rw [h]
    show (List.lookup 0xEE00 ((0xEE02, _) :: ((conditions s).flatMap condition ++ _))).getD [] = _
    rw [List.lookup_cons, beq_false_of_ne (by omega)]
    show (List.lookup 0xEE00 ((conditions s).flatMap condition ++ _)).getD [] = _
    rw [lookup_conditions_of_notMem (by simp [conditions]), List.lookup_cons_self]
    rfl
  unfold recover
  rw [hleft, hreading, hcondition s.rightContext (by simp [conditions]) (by omega)
      (by omega) (by omega),
    hcondition s.profile (by simp [conditions]) (by omega) (by omega) (by omega),
    hcondition s.topic (by simp [conditions]) (by omega) (by omega) (by omega),
    hcondition s.style (by simp [conditions]) (by omega) (by omega) (by omega),
    hcondition s.settings (by simp [conditions]) (by omega) (by omega) (by omega)]

/-- The markers of a prompt stand in their order, each at most once. -/
theorem markers_promptPieces (s : ZenzPromptOptions) (readingKatakana : Bytes) :
    ((promptPieces s readingKatakana).map Prod.fst).Sublist
      [0xEE02, 0xEE07, 0xEE03, 0xEE04, 0xEE05, 0xEE06, 0xEE00, 0xEE01] := by
  have hconditions : ∀ pieces : List (Nat × Bytes),
      ((pieces.flatMap condition).map Prod.fst).Sublist (pieces.map Prod.fst) := by
    intro pieces
    induction pieces with
    | nil => exact List.Sublist.refl _
    | cons piece pieces ih =>
      rw [List.flatMap_cons, List.map_append]
      unfold condition
      split
      · exact ih.cons _
      · exact ih.cons_cons _
  show (0xEE02 :: ((conditions s).flatMap condition ++ _).map Prod.fst).Sublist _
  rw [List.map_append]
  exact ((hconditions (conditions s)).append (List.Sublist.refl [0xEE00, 0xEE01])).cons_cons _

/-- **WHEN A PROMPT CAN BE TAKEN APART**: the conditions are sanitized and cannot change its
    structure; the reading is not, and does where it decodes to a control code point or where
    its undecodable rest contains one. -/
theorem structured_iff (readingHiragana : Bytes) (options : ZenzPromptOptions) :
    Structured readingHiragana options ↔
      (∀ cp ∈ (decodeAll readingHiragana).1, isZenzControlCodepoint cp = false) ∧
        (splitAtMarkers (decodeAll readingHiragana).2).2 = [] := by
  have hmarkers := markers_hiraganaToKatakanaLoop readingHiragana.length readingHiragana
  have hsplit := splitAtMarkers_build readingHiragana options
  constructor
  · intro hstructured
    refine hmarkers.mp ?_
    -- as many markers as fields
    have hlength := congrArg (fun split => split.2.length) (hstructured.split_eq.symm.trans hsplit)
    show (splitAtMarkers (hiraganaToKatakana readingHiragana)).2 = []
    unfold promptPieces at hlength
    simp only [List.length_append, List.length_cons, List.length_nil] at hlength
    exact List.length_eq_zero_iff.mp (by omega)
  · intro hreading
    have hnone : (splitAtMarkers (hiraganaToKatakana readingHiragana)).2 = [] :=
      hmarkers.mpr hreading
    have htext := eq_of_splitAtMarkers hnone
    rw [hnone, htext] at hsplit
    refine ⟨hsplit, ?_, recover_of_split (congrArg Prod.snd hsplit)⟩
    rw [hsplit]
    exact markers_promptPieces _ _

/-- A reading with the marker of the output. -/
theorem not_structured_marker : ¬ Structured kZenzOutputBegin {} := by
  intro h
  have hread := ((structured_iff kZenzOutputBegin {}).mp h).1 0xEE01 (by decide)
  exact absurd hread (by decide)

end MozkeyZenz
