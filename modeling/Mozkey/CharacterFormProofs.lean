import Mozkey.LinkedListProofs
import Mozkey.SegmentHistoryProofs

/-! # Character forms — the width that a string is converted to

    Each class of characters has a width that the user prefers.  A string is converted run by run,
    or stays if its characters prefer different widths.  The preference of a character is looked
    up where the script changes; in between it is taken from the character before, which is not
    the same for `ー` and `・` among katakana and for emoji.

    A string is the list of its characters, and the conversions of its width are arbitrary, as
    long as they keep the classes of characters and do nothing the second time. -/

namespace MozkeyCharacterForm

open MozkeyReranker (ScriptType getScriptType)
open MozkeySegmentHistory (scriptTypeLoop allScriptTypes)

/-! ## Preferences -/

/-- `Config::CharacterForm`. -/
inductive CharacterForm
  | fullWidth
  | halfWidth
  | lastForm
  | noConversion
  deriving DecidableEq

/-- A form that `SaveCharacterFormToStorage` stores. -/
inductive Width
  | full
  | half

/-- The value of a stored form. -/
def Width.form : Width → CharacterForm
  | .full => .fullWidth
  | .half => .halfWidth

/-- `CharacterFormManagerImpl` with the conversions of the width. -/
structure CharacterFormManager where
  conversionTable : Nat → Option CharacterForm
  storage : Option (Nat → Option Width)
  requireConsistentConversion : Bool
  halfWidthToFullWidth : List Nat → List Nat
  fullWidthToHalfWidth : List Nat → List Nat

/-- `GetScriptType` of a string. -/
def textScriptType (str : List Nat) : ScriptType :=
  match scriptTypeLoop allScriptTypes str with
  | [type] => type
  | _ => .unknownScript

variable (m : CharacterFormManager)

/-- `GetNormalizedCharacter`: one character for each script. -/
def getNormalizedCharacter (str : List Nat) : Nat :=
  match textScriptType str with
  | .katakana => 0x30A2
  | .number => 0x0030
  | .alphabet => 0x0041
  | .kanji | .hiragana => 0x0000
  | .unknownScript | .emoji =>
    if str.length = 1 then
      let codepoint := (m.halfWidthToFullWidth str).headD 0
      if codepoint ≤ 0xFFFF then codepoint else 0x0000
    else 0x0000

/-- `GetCharacterFormFromStorage`. -/
def getCharacterFormFromStorage (ucs2 : Nat) : CharacterForm :=
  match m.storage with
  | none => .fullWidth
  | some storage => ((storage ucs2).map Width.form).getD .fullWidth

/-- What `GetCharacterForm` says of a normalized character. -/
def formOf (ucs2 : Nat) : CharacterForm :=
  if ucs2 = 0x0000 then .noConversion
  else
    match m.conversionTable ucs2 with
    | none => .noConversion
    | some .lastForm => getCharacterFormFromStorage m ucs2
    | some form => form

/-- `GetCharacterForm` of a string. -/
def getCharacterForm (str : List Nat) : CharacterForm := formOf m (getNormalizedCharacter m str)

/-- `ConvertWidth`. -/
def convertWidth (input : List Nat) : CharacterForm → List Nat
  | .fullWidth => m.halfWidthToFullWidth input
  | .halfWidth => m.fullWidthToHalfWidth input
  | .lastForm | .noConversion => input

/-! ## The loop -/

/-- The variables of `TryConvertStringWithPreference`. -/
structure Scan where
  targetForm : CharacterForm := .noConversion
  prevForm : CharacterForm := .noConversion
  prevType : ScriptType := .unknownScript
  ret : Bool := true
  buf : List Nat := []
  output : List Nat := []
  begun : Bool := false

/-- The form of a character after a character of another form and type. -/
def formAfter (prevForm : CharacterForm) (prevType : ScriptType) (c : Nat) : CharacterForm :=
  let type := getScriptType c
  if type = .unknownScript ∨ (type = .katakana ∧ prevType ≠ .katakana) ∨
      (type = .number ∧ prevType ≠ .number) ∨ (type = .alphabet ∧ prevType ≠ .alphabet) then
    getCharacterForm m [c]
  else if type = .kanji ∨ type = .hiragana then .noConversion
  else prevForm

/-- The body of the loop. -/
def Scan.step (scan : Scan) (c : Nat) : Scan :=
  let form := formAfter m scan.prevForm scan.prevType c
  let flush := scan.begun = true ∧ scan.prevForm ≠ form
  { targetForm := if scan.targetForm = .noConversion then form else scan.targetForm
    prevForm := form
    prevType := getScriptType c
    ret := if scan.targetForm ≠ .noConversion ∧ form ≠ .noConversion ∧ form ≠ scan.targetForm then
        false
      else scan.ret
    buf := (if flush then [] else scan.buf) ++ [c]
    output := if flush then scan.output ++ convertWidth m scan.buf scan.prevForm else scan.output
    begun := true }

/-- `TryConvertStringWithPreference`. -/
def tryConvertStringWithPreference (str : List Nat) : Bool × List Nat :=
  let scan := str.foldl (Scan.step m) {}
  (scan.ret, if scan.buf = [] then scan.output
    else scan.output ++ convertWidth m scan.buf scan.prevForm)

/-- `ConvertString`. -/
def convertString (str : List Nat) : List Nat :=
  let converted := tryConvertStringWithPreference m str
  if converted.1 = false ∧ m.requireConsistentConversion = true then str else converted.2

/-! ## What is asked for -/

/-- The form that a character prefers; hiragana has none. -/
def preferred (c : Nat) : CharacterForm :=
  if getScriptType c = .hiragana then .noConversion else getCharacterForm m [c]

/-- No two characters with a preference prefer different widths. -/
def Consistent (str : List Nat) : Prop :=
  ∀ c ∈ str, ∀ d ∈ str, preferred m c ≠ .noConversion → preferred m d ≠ .noConversion →
    preferred m c = preferred m d

/-- The longest runs of characters with the same preference. -/
def runs (str : List Nat) : List (List Nat) :=
  str.splitBy fun c d => preferred m c == preferred m d

/-- A run in the width that its characters prefer. -/
def convertRun (run : List Nat) : List Nat := convertWidth m run (preferred m (run.headD 0))

/-- Every run in the width that is preferred for it. -/
def convertRuns (str : List Nat) : List Nat := (runs m str).flatMap (convertRun m)

/-- The class of a character: its script and the character that it stands with in the table. -/
def charClass (c : Nat) : ScriptType × Nat := (getScriptType c, getNormalizedCharacter m [c])

/-- Two strings with the same classes of characters, run by run. -/
inductive SameClasses : List Nat → List Nat → Prop
  | nil : SameClasses [] []
  | run {a b s t : List Nat} (k : ScriptType × Nat) (ha : a ≠ []) (hb : b ≠ [])
      (hka : ∀ c ∈ a, charClass m c = k) (hkb : ∀ c ∈ b, charClass m c = k) :
      SameClasses s t → SameClasses (a ++ s) (b ++ t)

/-- What is assumed of a conversion of the width. -/
structure Lawful (convert : List Nat → List Nat) : Prop where
  classes : ∀ str, SameClasses m str (convert str)
  idempotent : ∀ str, convert (convert str) = convert str

/-- The forms that the loop gives to the characters. -/
def formsOf : CharacterForm → ScriptType → List Nat → List CharacterForm
  | _, _, [] => []
  | prevForm, prevType, c :: rest =>
    formAfter m prevForm prevType c ::
      formsOf (formAfter m prevForm prevType c) (getScriptType c) rest

/-- A string stays if its characters prefer different widths, else every run is converted; and
    what comes out stays. -/
def ConvertsAsPreferred (str : List Nat) : Prop :=
  (¬ Consistent m str → convertString m str = str) ∧
    (Consistent m str → convertString m str = convertRuns m str) ∧
    convertString m (convertString m str) = convertString m str

/-- No character takes another preference over from the one before: among katakana the preference
    does not change, and it does not change before emoji. -/
def Unmixed : Option Nat → List Nat → Prop
  | _, [] => True
  | prev, c :: rest =>
    (getScriptType c = .katakana → ∀ b ∈ prev, getScriptType b = .katakana →
      preferred m c = preferred m b) ∧
    (getScriptType c = .emoji → preferred m c = (prev.map (preferred m)).getD .noConversion) ∧
    Unmixed (some c) rest

/-! ## When a character gets the form that it prefers -/

variable {m} {c : Nat}

theorem textScriptType_singleton (hkatakana : getScriptType c ≠ .katakana)
    (hhiragana : getScriptType c ≠ .hiragana) : textScriptType [c] = getScriptType c := by
  have hletter : ¬ (c = 0x30FC ∨ c = 0x30FB ∨ 0x3099 ≤ c ∧ c ≤ 0x309C) := by
    rintro (rfl | rfl | ⟨hle, hge⟩)
    · exact hkatakana (by decide)
    · exact hkatakana (by decide)
    · obtain rfl | rfl | rfl | rfl : c = 0x3099 ∨ c = 0x309A ∨ c = 0x309B ∨ c = 0x309C := by omega
      all_goals exact hhiragana (by decide)
  rw [textScriptType, scriptTypeLoop, if_neg (by decide), if_neg hletter,
    if_neg (fun h => absurd h.2 (by decide)), scriptTypeLoop]
  cases getScriptType c <;> rfl

/-- The classes of numbers and of letters have one preference each; kanji have none. -/
theorem preferred_eq : (getScriptType c = .number → preferred m c = formOf m 0x0030) ∧
    (getScriptType c = .alphabet → preferred m c = formOf m 0x0041) ∧
    (getScriptType c = .kanji → preferred m c = .noConversion) := by
  refine ⟨fun h => ?_, fun h => ?_, fun h => ?_⟩
  all_goals
    rw [preferred, h, if_neg (by decide), getCharacterForm, getNormalizedCharacter,
      textScriptType_singleton (by rw [h]; decide) (by rw [h]; decide), h]
  rfl

/-- **THE FORM OF A CHARACTER** is the one that it prefers unless the one before it, among
    katakana, or before an emoji, is another one. -/
theorem formAfter_eq_iff (prev : Option Nat) :
    formAfter m ((prev.map (preferred m)).getD .noConversion)
        ((prev.map getScriptType).getD .unknownScript) c = preferred m c ↔
      (getScriptType c = .katakana → ∀ b ∈ prev, getScriptType b = .katakana →
        preferred m c = preferred m b) ∧
      (getScriptType c = .emoji →
        preferred m c = (prev.map (preferred m)).getD .noConversion) := by
  obtain ⟨hnumber, halphabet, hkanji⟩ := @preferred_eq m c
  have hlookup (h : getScriptType c ≠ .hiragana) : getCharacterForm m [c] = preferred m c :=
    (if_neg h).symm
  rw [formAfter]
  cases htype : getScriptType c with
  | unknownScript => simp [hlookup, htype]
  | hiragana => simp [preferred, htype]
  | kanji => simp [hkanji htype]
  | emoji => simp [eq_comm]
  | katakana =>
    cases prev with
    | none => simp [hlookup, htype]
    | some b =>
      by_cases hb : getScriptType b = .katakana
      · simp [hb, eq_comm]
      · simp [hb, hlookup, htype]
  | number =>
    cases prev with
    | none => simp [hlookup, htype]
    | some b =>
      by_cases hb : getScriptType b = .number
      · simp [hb, hnumber htype, (@preferred_eq m b).1 hb]
      · simp [hb, hlookup, htype]
  | alphabet =>
    cases prev with
    | none => simp [hlookup, htype]
    | some b =>
      by_cases hb : getScriptType b = .alphabet
      · simp [hb, halphabet htype, (@preferred_eq m b).2.1 hb]
      · simp [hb, hlookup, htype]

/-- The loop gives every character the form that it prefers if no preference is taken over, and
    only then. -/
theorem formsOf_eq_iff {prev : Option Nat} {str : List Nat} :
    formsOf m ((prev.map (preferred m)).getD .noConversion)
        ((prev.map getScriptType).getD .unknownScript) str = str.map (preferred m) ↔
      Unmixed m prev str := by
  induction str generalizing prev with
  | nil => simp [formsOf, Unmixed]
  | cons c rest ih =>
    rw [formsOf, List.map_cons, List.cons.injEq, Unmixed, ← and_assoc, ← formAfter_eq_iff]
    constructor
    · rintro ⟨hform, hrest⟩
      rw [hform] at hrest
      exact ⟨hform, (@ih (some c)).mp hrest⟩
    · rintro ⟨hform, hrest⟩
      rw [hform]
      exact ⟨rfl, (@ih (some c)).mpr hrest⟩

/-! ## Runs -/

theorem runs_of_same {run : List Nat} {form : CharacterForm} (hne : run ≠ [])
    (h : ∀ c ∈ run, preferred m c = form) : convertRuns m run = convertWidth m run form := by
  have hchain : run.IsChain fun c d => (preferred m c == preferred m d) = true :=
    (List.pairwise_of_forall_mem_list fun c hc d hd => by simp [h c hc, h d hd]).isChain
  obtain ⟨c, rest, rfl⟩ := List.exists_cons_of_ne_nil hne
  rw [convertRuns, runs, List.splitBy_of_isChain hne hchain, List.flatMap_singleton, convertRun,
    List.headD_cons, h c List.mem_cons_self]

theorem convertRuns_append {s t : List Nat}
    (h : ∀ b ∈ s.getLast?, ∀ c ∈ t.head?, preferred m b ≠ preferred m c) :
    convertRuns m (s ++ t) = convertRuns m s ++ convertRuns m t := by
  rw [convertRuns, runs, List.splitBy_append (fun b hb c hc => by simpa using h b hb c hc),
    List.flatMap_append]
  rfl

/-! ## The loop -/

/-- What holds of the variables of the loop after some characters. -/
structure Scanned (m : CharacterFormManager) (done : List Nat) (scan : Scan) : Prop where
  prevForm : scan.prevForm = (done.getLast?.map (preferred m)).getD .noConversion
  prevType : scan.prevType = (done.getLast?.map getScriptType).getD .unknownScript
  begun : scan.begun = true ↔ done ≠ []
  split : ∃ front, done = front ++ scan.buf ∧ scan.output = convertRuns m front ∧
    ∀ b ∈ front.getLast?, ∀ c ∈ scan.buf.head?, preferred m b ≠ preferred m c
  buf : (scan.buf = [] → done = []) ∧ ∀ c ∈ scan.buf, preferred m c = scan.prevForm
  target : (scan.targetForm = .noConversion → ∀ c ∈ done, preferred m c = .noConversion) ∧
    (scan.targetForm ≠ .noConversion → ∃ c ∈ done, preferred m c = scan.targetForm)
  ret : scan.ret = true ↔
    ∀ c ∈ done, preferred m c ≠ .noConversion → preferred m c = scan.targetForm

/-- **ONE ROUND** of the loop, on a character that gets the form that it prefers. -/
theorem Scanned.step {done : List Nat} {scan : Scan} (h : Scanned m done scan)
    (hform : formAfter m scan.prevForm scan.prevType c = preferred m c) :
    Scanned m (done ++ [c]) (scan.step m c) := by
  obtain ⟨front, hdone, houtput, hapart⟩ := h.split
  rw [Scan.step, hform]
  refine ⟨by simp, by simp, by simp, ?_, ?_, ?_, ?_⟩
  · dsimp only
    split_ifs with hflush
    · have hne : scan.buf ≠ [] := fun hempty => h.begun.mp hflush.1 (h.buf.1 hempty)
      refine ⟨done, by simp, ?_, fun b hb d hd => ?_⟩
      · rw [hdone, convertRuns_append hapart, houtput, runs_of_same hne h.buf.2]
      · obtain rfl : c = d := by simpa using hd
        rw [h.prevForm, hb] at hflush
        exact hflush.2
    · refine ⟨front, by rw [hdone, List.append_assoc], houtput, fun b hb d hd => ?_⟩
      cases hbuf : scan.buf with
      | nil =>
        have hempty := h.buf.1 hbuf
        rw [hempty, hbuf, List.append_nil] at hdone
        rw [← hdone] at hb
        cases hb
      | cons e buf =>
        rw [hbuf] at hd hapart
        exact hapart b hb d hd
  · refine ⟨by simp, fun d hd => ?_⟩
    dsimp only at hd ⊢
    rcases List.mem_append.mp hd with hd | hd
    · split_ifs at hd with hflush
      · cases hd
      · have hbegun := h.begun.mpr fun hempty => by
          rw [hempty] at hdone
          simp [(List.append_eq_nil_iff.mp hdone.symm).2] at hd
        rw [h.buf.2 d hd]
        by_contra hne
        exact hflush ⟨hbegun, hne⟩
    · obtain rfl := List.mem_singleton.mp hd
      rfl
  · dsimp only
    refine ⟨fun hnone d hd => ?_, fun hsome => ?_⟩
    · split_ifs at hnone with htarget
      · rcases List.mem_append.mp hd with hd | hd
        · exact h.target.1 htarget d hd
        · obtain rfl := List.mem_singleton.mp hd
          exact hnone
      · exact absurd hnone htarget
    · split_ifs at hsome ⊢ with htarget
      · exact ⟨c, by simp, rfl⟩
      · obtain ⟨d, hd, hd'⟩ := h.target.2 htarget
        exact ⟨d, List.mem_append_left _ hd, hd'⟩
  · dsimp only
    rw [List.forall_mem_append, List.forall_mem_singleton]
    by_cases htarget : scan.targetForm = .noConversion
    · have hnone := h.target.1 htarget
      simp only [htarget, ne_eq, not_true_eq_false, false_and, if_false, if_true, h.ret]
      constructor
      · exact fun _ => ⟨fun d hd hne => absurd (hnone d hd) hne, fun _ => trivial⟩
      · exact fun _ d hd hne => absurd (hnone d hd) hne
    · rw [if_neg htarget]
      by_cases hother : preferred m c ≠ .noConversion ∧ preferred m c ≠ scan.targetForm
      · rw [if_pos ⟨htarget, hother⟩]
        exact ⟨(nomatch ·), fun hall => absurd (hall.2 hother.1) hother.2⟩
      · rw [if_neg fun hall => hother hall.2, h.ret]
        refine ⟨fun hall => ⟨hall, fun hne => ?_⟩, fun hall => hall.1⟩
        by_contra hdiff
        exact hother ⟨hne, hdiff⟩

theorem unmixed_append {prev : Option Nat} {s t : List Nat} :
    Unmixed m prev (s ++ t) ↔ Unmixed m prev s ∧ Unmixed m (s.getLast?.or prev) t := by
  induction s generalizing prev with
  | nil => simp [Unmixed]
  | cons c s ih =>
    rw [List.cons_append, Unmixed, Unmixed, ih, LinkedList.getLast?_cons_or, and_assoc, and_assoc]

/-- **THE LOOP** over a string in which no preference is taken over. -/
theorem scan_spec {str : List Nat} (h : Unmixed m none str) :
    Scanned m str (str.foldl (Scan.step m) {}) := by
  induction str using List.reverseRecOn with
  | nil =>
    exact ⟨rfl, rfl, by simp, ⟨[], rfl, rfl, by simp⟩, by simp, by simp, by simp⟩
  | append_singleton done c ih =>
    obtain ⟨hdone, hlast⟩ := unmixed_append.mp h
    rw [List.foldl_append, List.foldl_cons, List.foldl_nil]
    have hscanned := ih hdone
    refine hscanned.step ?_
    rw [hscanned.prevForm, hscanned.prevType, formAfter_eq_iff]
    rw [Option.or_none] at hlast
    exact ⟨hlast.1, hlast.2.1⟩

theorem tryConvert_spec {str : List Nat} (h : Unmixed m none str) :
    ((tryConvertStringWithPreference m str).1 = true ↔ Consistent m str) ∧
      (tryConvertStringWithPreference m str).2 = convertRuns m str := by
  have hscanned := scan_spec h
  rw [tryConvertStringWithPreference]
  generalize str.foldl (Scan.step m) {} = scan at hscanned
  obtain ⟨front, hdone, houtput, hapart⟩ := hscanned.split
  constructor
  · refine hscanned.ret.trans ⟨fun hall c hc d hd hcne hdne => ?_, fun hall c hc hne => ?_⟩
    · rw [hall c hc hcne, hall d hd hdne]
    · by_cases htarget : scan.targetForm = .noConversion
      · exact absurd (hscanned.target.1 htarget c hc) hne
      · obtain ⟨d, hd, hsame⟩ := hscanned.target.2 htarget
        rw [← hsame]
        exact hall c hc d hd hne (hsame ▸ htarget)
  · dsimp only
    split_ifs with hempty
    · rw [hscanned.buf.1 hempty] at hdone ⊢
      rw [houtput, (List.append_eq_nil_iff.mp hdone.symm).1]
    · rw [hdone, convertRuns_append hapart, houtput, runs_of_same hempty hscanned.buf.2]

/-! ## Strings with the same classes -/

theorem preferred_of_class {c d : Nat} (h : charClass m c = charClass m d) :
    getScriptType c = getScriptType d ∧ preferred m c = preferred m d := by
  obtain ⟨htype, hnormalized⟩ := Prod.mk.inj h
  refine ⟨htype, ?_⟩
  rw [preferred, preferred, htype, getCharacterForm, getCharacterForm, hnormalized]

theorem SameClasses.refl (str : List Nat) : SameClasses m str str := by
  induction str with
  | nil => exact .nil
  | cons c str ih =>
    exact .run (a := [c]) (b := [c]) (charClass m c) (by simp) (by simp) (by simp) (by simp) ih

theorem SameClasses.append {s s' t t' : List Nat} (h : SameClasses m s t)
    (h' : SameClasses m s' t') : SameClasses m (s ++ s') (t ++ t') := by
  induction h with
  | nil => exact h'
  | run k ha hb hka hkb _ ih =>
    rw [List.append_assoc, List.append_assoc]
    exact .run k ha hb hka hkb ih

theorem SameClasses.eq_nil {s t : List Nat} (h : SameClasses m s t) : s = [] ↔ t = [] := by
  cases h with
  | nil => exact Iff.rfl
  | run k ha hb => simp [ha, hb]

theorem SameClasses.exists_mem {s t : List Nat} (h : SameClasses m s t) {c : Nat} (hc : c ∈ t) :
    ∃ d ∈ s, charClass m c = charClass m d := by
  induction h with
  | nil => cases hc
  | run k ha hb hka hkb _ ih =>
    rcases List.mem_append.mp hc with hc | hc
    · obtain ⟨d, hd⟩ := List.exists_mem_of_ne_nil _ ha
      exact ⟨d, List.mem_append_left _ hd, (hkb c hc).trans (hka d hd).symm⟩
    · obtain ⟨d, hd, hsame⟩ := ih hc
      exact ⟨d, List.mem_append_right _ hd, hsame⟩

theorem unmixed_of_class {prev : Option Nat} {k : ScriptType × Nat} {a rest : List Nat}
    (hka : ∀ c ∈ a, charClass m c = k) (hprev : ∀ b ∈ prev, charClass m b = k) (hne : prev ≠ none)
    (hrest : Unmixed m (a.getLast?.or prev) rest) : Unmixed m prev (a ++ rest) := by
  induction a generalizing prev with
  | nil => simpa using hrest
  | cons c a ih =>
    obtain ⟨b, rfl⟩ := Option.ne_none_iff_exists'.mp hne
    obtain ⟨hc, ha⟩ := List.forall_mem_cons.mp hka
    have hsame := (preferred_of_class (hc.trans (hprev b rfl).symm)).2
    refine ⟨fun _ b' hb' _ => ?_, fun _ => hsame, ?_⟩
    · obtain rfl := Option.some.inj hb'
      exact hsame
    · rw [LinkedList.getLast?_cons_or] at hrest
      refine ih ha (fun b' hb' => ?_) (by simp) hrest
      obtain rfl := Option.some.inj hb'
      exact hc

theorem SameClasses.unmixed {s t : List Nat} (h : SameClasses m s t) {prev prev' : Option Nat}
    (hprev : prev.map (charClass m) = prev'.map (charClass m)) (hs : Unmixed m prev s) :
    Unmixed m prev' t := by
  induction h generalizing prev prev' with
  | nil => trivial
  | @run a b s t k ha hb hka hkb _ ih =>
    obtain ⟨x, a, rfl⟩ := List.exists_cons_of_ne_nil ha
    obtain ⟨y, b, rfl⟩ := List.exists_cons_of_ne_nil hb
    obtain ⟨hx, ha'⟩ := List.forall_mem_cons.mp hka
    obtain ⟨hy, hb'⟩ := List.forall_mem_cons.mp hkb
    obtain ⟨htype, hsame⟩ := preferred_of_class (hy.trans hx.symm)
    obtain ⟨hfirst, hrest⟩ := (unmixed_append (s := x :: a)).mp hs
    have hlast {l : List Nat} {z : Nat} (hk : ∀ c ∈ z :: l, charClass m c = k) (p : Option Nat) :
        ((z :: l).getLast?.or p).map (charClass m) = some k := by
      rw [List.getLast?_eq_some_getLast (List.cons_ne_nil z l), Option.some_or, Option.map_some,
        hk _ (List.getLast_mem _)]
    have ht := ih ((hlast hka prev).trans (hlast hkb prev').symm) hrest
    rw [List.cons_append]
    refine ⟨fun hkatakana p' hp' hp'k => ?_, fun hemoji => ?_, ?_⟩
    · rw [hp', Option.map_some] at hprev
      obtain ⟨p, rfl, hclass⟩ := Option.map_eq_some_iff.mp hprev
      obtain ⟨hptype, hpsame⟩ := preferred_of_class hclass
      rw [hsame, ← hpsame]
      exact hfirst.1 (htype ▸ hkatakana) p rfl (hptype.trans hp'k)
    · rw [hsame, hfirst.2.1 (htype ▸ hemoji)]
      cases prev with
      | none =>
        cases prev' with
        | none => rfl
        | some p' => cases hprev
      | some p =>
        cases prev' with
        | none => cases hprev
        | some p' => exact (preferred_of_class (Option.some.inj hprev)).2
    · rw [LinkedList.getLast?_cons_or] at ht
      refine unmixed_of_class hb' (fun b' hb' => ?_) (by simp) ht
      obtain rfl := Option.some.inj hb'
      exact hy

/-! ## What comes out stays -/

theorem same_of_mem_runs {str run : List Nat} (h : run ∈ runs m str) :
    run ≠ [] ∧ ∀ c ∈ run, preferred m c = preferred m (run.headD 0) := by
  have hne := List.ne_nil_of_mem_splitBy h
  obtain ⟨c, rest, rfl⟩ := List.exists_cons_of_ne_nil hne
  let R (c d : Nat) : Prop := (preferred m c == preferred m d) = true
  have htrans : Trans R R R :=
    ⟨fun hab hbc => beq_of_eq ((eq_of_beq hab).trans (eq_of_beq hbc))⟩
  have hpairwise : (c :: rest).Pairwise R := List.IsChain.pairwise (List.isChain_of_mem_splitBy h)
  refine ⟨hne, List.forall_mem_cons.mpr ⟨rfl, fun d hd => ?_⟩⟩
  exact (eq_of_beq (List.rel_of_pairwise_cons hpairwise hd)).symm

theorem Lawful.convertWidth (hfull : Lawful m m.halfWidthToFullWidth)
    (hhalf : Lawful m m.fullWidthToHalfWidth) (run : List Nat) (form : CharacterForm) :
    SameClasses m run (convertWidth m run form) ∧
      MozkeyCharacterForm.convertWidth m (convertWidth m run form) form =
        convertWidth m run form := by
  cases form with
  | fullWidth => exact ⟨hfull.classes run, hfull.idempotent run⟩
  | halfWidth => exact ⟨hhalf.classes run, hhalf.idempotent run⟩
  | lastForm | noConversion => exact ⟨.refl run, rfl⟩

section

variable (hfull : Lawful m m.halfWidthToFullWidth) (hhalf : Lawful m m.fullWidthToHalfWidth)
include hfull hhalf

theorem sameClasses_convertRuns (str : List Nat) : SameClasses m str (convertRuns m str) := by
  have hruns : ∀ l : List (List Nat), SameClasses m l.flatten (l.flatMap (convertRun m)) := by
    intro l
    induction l with
    | nil => exact .nil
    | cons run l ih => exact ((hfull.convertWidth hhalf run _).1).append ih
  have hstr := hruns (runs m str)
  rwa [runs, List.flatten_splitBy] at hstr

/-- The characters of a converted run prefer what those of the run do. -/
theorem same_convertRun {str run : List Nat} (h : run ∈ runs m str) :
    convertRun m run ≠ [] ∧
      ∀ c ∈ convertRun m run, preferred m c = preferred m (run.headD 0) := by
  obtain ⟨hne, hsame⟩ := same_of_mem_runs h
  have hclasses := (hfull.convertWidth hhalf run (preferred m (run.headD 0))).1
  refine ⟨fun hempty => hne (hclasses.eq_nil.mpr hempty), fun c hc => ?_⟩
  obtain ⟨d, hd, hclass⟩ := hclasses.exists_mem hc
  rw [(preferred_of_class hclass).2, hsame d hd]

/-- **THE RUNS STAY** what they are. -/
theorem runs_convertRuns (str : List Nat) :
    runs m (convertRuns m str) = (runs m str).map (convertRun m) := by
  rw [convertRuns, List.flatMap_def]
  refine List.splitBy_flatten ?_ ?_ ?_
  · intro hempty
    obtain ⟨run, hrun, hnil⟩ := List.mem_map.mp hempty
    exact (same_convertRun hfull hhalf hrun).1 hnil
  · intro converted hmem
    obtain ⟨run, hrun, rfl⟩ := List.mem_map.mp hmem
    obtain ⟨-, hsame⟩ := same_convertRun hfull hhalf hrun
    exact (List.pairwise_of_forall_mem_list fun c hc d hd => by
      simp [hsame c hc, hsame d hd]).isChain
  · rw [List.isChain_map]
    refine (List.isChain_getLast_head_splitBy _ str).imp_of_mem_imp fun a b ha hb hab => ?_
    obtain ⟨hane, hbne, hapart⟩ := hab
    obtain ⟨hane', hasame⟩ := same_convertRun hfull hhalf ha
    obtain ⟨hbne', hbsame⟩ := same_convertRun hfull hhalf hb
    refine ⟨hane', hbne', ?_⟩
    rw [hasame _ (List.getLast_mem hane'), hbsame _ (List.head_mem hbne'),
      ← (same_of_mem_runs ha).2 _ (List.getLast_mem hane),
      ← (same_of_mem_runs hb).2 _ (List.head_mem hbne)]
    exact hapart

theorem convertRuns_convertRuns (str : List Nat) :
    convertRuns m (convertRuns m str) = convertRuns m str := by
  rw [convertRuns, runs_convertRuns hfull hhalf, List.flatMap_map, convertRuns]
  refine List.flatMap_congr fun run hrun => ?_
  obtain ⟨hne, hsame⟩ := same_convertRun hfull hhalf hrun
  obtain ⟨c, rest, hcons⟩ := List.exists_cons_of_ne_nil hne
  have hhead : preferred m ((convertRun m run).headD 0) = preferred m (run.headD 0) := by
    rw [hcons] at hsame ⊢
    exact hsame c List.mem_cons_self
  rw [convertRun, hhead]
  exact (hfull.convertWidth hhalf run _).2

/-- **THE STRING THAT COMES OUT** where no preference is taken over. -/
theorem convertString_spec (hrequire : m.requireConsistentConversion = true) {str : List Nat}
    (h : Unmixed m none str) : ConvertsAsPreferred m str := by
  have hconvert {str : List Nat} (h : Unmixed m none str) :
      (¬ Consistent m str → convertString m str = str) ∧
        (Consistent m str → convertString m str = convertRuns m str) := by
    obtain ⟨hret, houtput⟩ := tryConvert_spec h
    rw [convertString, houtput]
    constructor
    · intro hmixed
      exact if_pos ⟨by simpa using fun htrue => hmixed (hret.mp htrue), hrequire⟩
    · intro hconsistent
      exact if_neg fun hfalse => by simp [hret.mpr hconsistent] at hfalse
  obtain ⟨hstays, hruns⟩ := hconvert h
  refine ⟨hstays, hruns, ?_⟩
  by_cases hconsistent : Consistent m str
  · have hclasses := sameClasses_convertRuns hfull hhalf str
    have hagain : Consistent m (convertRuns m str) := by
      intro c hc d hd
      obtain ⟨c', hc', hcsame⟩ := hclasses.exists_mem hc
      obtain ⟨d', hd', hdsame⟩ := hclasses.exists_mem hd
      rw [(preferred_of_class hcsame).2, (preferred_of_class hdsame).2]
      exact hconsistent c' hc' d' hd'
    rw [hruns hconsistent, (hconvert (hclasses.unmixed rfl h)).2 hagain,
      convertRuns_convertRuns hfull hhalf]
  · rw [hstays hconsistent, hstays hconsistent]

end

theorem lawful_map {f : Nat → Nat} (hclass : ∀ c, charClass m (f c) = charClass m c)
    (hidempotent : ∀ c, f (f c) = f c) : Lawful m (List.map f) := by
  refine ⟨fun str => ?_, fun str => ?_⟩
  · induction str with
    | nil => exact .nil
    | cons c str ih =>
      exact .run (a := [c]) (b := [f c]) (charClass m c) (by simp) (by simp) (by simp)
        (by simpa using hclass c) ih
  · rw [List.map_map]
    exact List.map_congr_left fun c _ => hidempotent c

/-- **WIDTHS AS PREFERRED**: the loop gives every character the form that it prefers exactly when
    none takes the preference of the one before over, and then a string stays if its characters
    prefer different widths, has every run converted otherwise, and comes out as it stays. -/
theorem convertString_asPreferred (hfull : Lawful m m.halfWidthToFullWidth)
    (hhalf : Lawful m m.fullWidthToHalfWidth) (hrequire : m.requireConsistentConversion = true)
    (str : List Nat) :
    (formsOf m .noConversion .unknownScript str = str.map (preferred m) ↔ Unmixed m none str) ∧
      (Unmixed m none str → ConvertsAsPreferred m str) :=
  ⟨@formsOf_eq_iff m none str, convertString_spec hfull hhalf hrequire⟩

/-- Numbers go to full width. -/
def fullNumbers : CharacterFormManager where
  conversionTable ucs2 := if ucs2 = 0x0030 then some .fullWidth else none
  storage := none
  requireConsistentConversion := true
  halfWidthToFullWidth := List.map fun c => if 0x30 ≤ c ∧ c ≤ 0x39 then c + 0xFEE0 else c
  fullWidthToHalfWidth := List.map id

/-- A number in front of a kanji is converted. -/
theorem convertString_number : ConvertsAsPreferred fullNumbers [0x33, 0x5E74] := by
  refine (convertString_asPreferred (lawful_map (fun c => ?_) fun c => ?_)
    (lawful_map (fun _ => rfl) fun _ => rfl) rfl _).2 ?_
  · split_ifs with hdigit
    · obtain ⟨hle, hge⟩ := hdigit
      interval_cases c <;> rfl
    · rfl
  · split_ifs <;> omega
  · refine ⟨?_, ?_, ?_, ?_, trivial⟩ <;> decide

/-- Katakana go to half width. -/
def halfKatakana : CharacterFormManager where
  conversionTable ucs2 := if ucs2 = 0x30A2 then some .halfWidth else none
  storage := none
  requireConsistentConversion := true
  halfWidthToFullWidth := List.map fun c => if c = 0xFF71 then 0x30A2 else c
  fullWidthToHalfWidth := List.map fun c => if c = 0x30A2 then 0xFF71 else c

/-- Behind `ー` a katakana keeps its width: the form of the first one is taken over. -/
theorem takes_over : ¬ ∀ (m : CharacterFormManager) (str : List Nat),
    m.requireConsistentConversion = true → Lawful m m.halfWidthToFullWidth →
      Lawful m m.fullWidthToHalfWidth → ConvertsAsPreferred m str := by
  intro h
  have hkept := (h halfKatakana [0x30FC, 0x30A2] rfl
    (lawful_map (fun c => ?_) fun c => ?_) (lawful_map (fun c => ?_) fun c => ?_)).2.1
    (by unfold Consistent; decide)
  · exact absurd hkept (by decide)
  · split_ifs with hc
    · rw [hc]
      rfl
    · rfl
  · split_ifs <;> omega
  · split_ifs with hc
    · rw [hc]
      rfl
    · rfl
  · split_ifs <;> omega

end MozkeyCharacterForm
