import Mathlib.Data.List.Basic
import Mathlib.Data.List.Induction
import Mathlib.Data.List.Nodup
import Mathlib.Data.Int.ModEq
import Mathlib.Tactic.Ring

/-! # Session — moving through the conversion candidates with the Zenz candidate among them

    The Zenz candidate is put in front of the converter's own candidates.  The session keeps
    whether it is the selected one, the converter keeps its own focus, and a move merges the
    two into one index, moves that and maps it back by the id of the candidate. -/

namespace MozkeyZenzCandidates

/-! ## The output -/

/-- `commands::Annotation`, the fields that are written here. -/
structure Annotation where
  description : String := ""
  shortcut : String := ""
  deriving DecidableEq

/-- A candidate of the converter. -/
structure Candidate where
  id : Int
  key : String := ""
  value : String
  annotationProto : Annotation := {}
  numSegmentsInCandidate : Nat := 1
  deriving DecidableEq

/-- A candidate with its id. -/
structure CandidateWord extends Candidate where
  index : Nat
  deriving DecidableEq

/-- The words of a page. -/
structure CandidateList where
  focusedIndex : Option Nat := none
  candidates : List CandidateWord := []

/-- `commands::CandidateWindow::Candidate`. -/
structure WindowCandidate where
  id : Int
  index : Nat
  value : String
  annotationProto : Annotation := {}
  deriving DecidableEq

/-- `commands::CandidateWindow`; of the usages only the ids. -/
structure CandidateWindow where
  focusedIndex : Option Nat := none
  size : Nat := 0
  candidate : List WindowCandidate := []
  position : Nat := 0
  subCandidateWindow : Option (List WindowCandidate) := none
  usages : List Int := []
  pageSize : Nat := 9

/-- `commands::Preedit::Segment`. -/
structure PreeditSegment where
  highlight : Bool
  key : String
  value : String
  valueLength : Nat

/-- `Preedit`. -/
structure Preedit where
  cursor : Nat := 0
  segment : List PreeditSegment := []

/-- A segment is added. -/
def addPreeditSegment (key value : String) (highlight : Bool) (preedit : Preedit) : Preedit :=
  { preedit with segment := preedit.segment ++ [⟨highlight, key, value, value.length⟩] }

/-- `Output`, as far as candidates go. -/
structure Output where
  preedit : Option Preedit := none
  candidateWindow : Option CandidateWindow := none
  allCandidateWords : Option CandidateList := none
  zenzConversionPending : Bool := false
  zenzConversionApplied : Bool := false

/-! ## The converter -/

/-- `EngineConverter` in `CONVERSION`, as far as its candidates go. -/
structure Converter where
  words : List Candidate
  focusedIndex : Nat
  pageSize : Nat
  candidateListVisible : Bool
  shortcuts : List Char
  position : Nat
  usages : List Int
  /-- The preedit, for the focused candidate. -/
  conversion : Nat → Preedit

/-- `FillShortcuts`, for the candidate at `slot` of the window. -/
def setShortcut (shortcuts : List Char) (slot : Nat) (annotationProto : Annotation) : Annotation :=
  match shortcuts[slot]? with
  | some shortcut => { annotationProto with shortcut := shortcut.toString }
  | none => annotationProto

/-- A candidate of the window. -/
def windowCandidate (word : Candidate) (index : Nat) (annotationProto : Annotation) :
    WindowCandidate :=
  { id := word.id, index := index, value := word.value, annotationProto := annotationProto }

/-- `FillCandidateWindow`: the page of the focus. -/
def fillCandidateWindow (converter : Converter) : CandidateWindow :=
  let begin := converter.focusedIndex - converter.focusedIndex % converter.pageSize
  let page := (converter.words.drop begin).take converter.pageSize
  { focusedIndex := some converter.focusedIndex
    size := converter.words.length
    candidate := page.mapIdx fun slot word =>
      windowCandidate word (begin + slot)
        (setShortcut converter.shortcuts slot word.annotationProto)
    position := converter.position
    usages := converter.usages
    pageSize := converter.pageSize }

/-- `EngineConverter::FillOutput`. -/
def fillOutput (converter : Converter) : Output :=
  { preedit := some (converter.conversion converter.focusedIndex)
    candidateWindow :=
      if converter.candidateListVisible then some (fillCandidateWindow converter) else none
    allCandidateWords := some
      { focusedIndex := some converter.focusedIndex
        candidates := converter.words.mapIdx fun index word =>
          { toCandidate := word, index := index } } }

/-- `CandidateMoveToId`. -/
def candidateMoveToId (id : Int) (converter : Converter) : Converter :=
  { converter with
    focusedIndex := (converter.words.findIdx? fun word => word.id = id).getD converter.focusedIndex
    candidateListVisible := false }

/-- `SetCandidateListVisible`. -/
def setCandidateListVisible (visible : Bool) (converter : Converter) : Converter :=
  { converter with candidateListVisible := visible }

/-! ## The session -/

/-- The id of the Zenz candidate. -/
def kZenzConversionCandidateId : Int := 0x7ffffffe

variable {φ : Type}

/-- `Session`, as far as the Zenz candidate goes; the pending feedback is only passed on. -/
structure Session (φ : Type) where
  converter : Converter
  /-- `context_->state() == ImeContext::CONVERSION`. -/
  inConversion : Bool
  queryForConversion : String
  zenzConversionVisibleGeneration : Nat
  zenzConversionSelected : Bool
  zenzConversionKey : String
  zenzConversionDisplayKey : String
  zenzConversionValue : String
  zenzConversionMozcValue : String
  pendingZenzFeedback : φ

/-- Is there a candidate of Zenz for the key? -/
def hasZenzConversionCandidate (s : Session φ) : Bool :=
  if s.zenzConversionVisibleGeneration = 0 ∨ s.zenzConversionKey.isEmpty ∨
      s.zenzConversionValue.isEmpty ∨ s.zenzConversionMozcValue.isEmpty ∨ ¬ s.inConversion then
    false
  else s.zenzConversionKey = s.queryForConversion

/-- Is it shown? -/
def hasVisibleZenzConversion (s : Session φ) : Bool :=
  s.zenzConversionSelected && hasZenzConversionCandidate s

/-- The list with one more candidate in front, in `AddZenzCandidate`. -/
def addZenzWord (key value : String) (focused : Bool) (id : Int) (original : CandidateList) :
    CandidateList :=
  { focusedIndex := if focused then some 0 else original.focusedIndex.map (· + 1)
    candidates :=
      { id := id, key := key, value := value, index := 0
        annotationProto :=
          if id = kZenzConversionCandidateId then { description := "Zenz" } else {} } ::
      original.candidates.map fun word => { word with index := word.index + 1 } }

/-- The window with one more candidate in front, in `AddZenzCandidate`. -/
def addZenzToWindow (value : String) (focused : Bool) (id : Int) (original : CandidateWindow) :
    CandidateWindow :=
  { original with
    size := original.size + 1
    focusedIndex := if focused then some 0 else original.focusedIndex.map (· + 1)
    candidate := { id := id, index := 0, value := value } ::
      original.candidate.map fun candidate => { candidate with index := candidate.index + 1 } }

/-- The candidate of Zenz comes in front of the others. -/
def addZenzCandidate (output : Output) (key value : String) (focused : Bool) (id : Int) : Output :=
  { output with
    allCandidateWords := output.allCandidateWords.map (addZenzWord key value focused id)
    candidateWindow := output.candidateWindow.map (addZenzToWindow value focused id) }

/-- The shortcuts that the window goes by, told from its first candidate. -/
def shortcutsOf (window : CandidateWindow) : List Char :=
  match window.candidate with
  | [] => []
  | first :: _ =>
    if first.annotationProto.shortcut = "1" then "123456789".toList
    else if first.annotationProto.shortcut = "a" then "asdfghjkl".toList
    else []

/-- A candidate of the page, at `slot`. -/
def pageCandidate (shortcuts : List Char) (start slot : Nat) (word : CandidateWord) :
    WindowCandidate :=
  let annotationProto :=
    if word.id = kZenzConversionCandidateId then { word.annotationProto with description := "Zenz" }
    else word.annotationProto
  windowCandidate word.toCandidate (start + slot) (setShortcut shortcuts slot annotationProto)

/-- The part of `FillZenzConversionCandidateOutput` that builds the window. -/
def fillPage (shortcuts : List Char) (selected : Bool) (candidates : CandidateList)
    (window : CandidateWindow) : CandidateWindow :=
  let focusedIndex := candidates.focusedIndex.getD 0
  let pageSize := max 1 window.pageSize
  let start := focusedIndex / pageSize * pageSize
  let last := min (start + pageSize) candidates.candidates.length
  { focusedIndex := some focusedIndex
    size := candidates.candidates.length
    candidate := ((candidates.candidates.drop start).take (last - start)).mapIdx
      (pageCandidate shortcuts start)
    position := if selected then 0 else window.position
    subCandidateWindow := none
    usages := if selected then [] else window.usages
    pageSize := window.pageSize }

/-- `FillZenzConversionCandidateOutput`. -/
def fillZenzConversionCandidateOutput (s : Session φ) (output : Output) : Output :=
  if ¬ hasZenzConversionCandidate s ∨ output.allCandidateWords.isNone then output
  else
    let shortcuts := shortcutsOf (output.candidateWindow.getD {})
    let added := addZenzCandidate output s.zenzConversionKey s.zenzConversionValue
      s.zenzConversionSelected kZenzConversionCandidateId
    let displayKey :=
      if s.zenzConversionDisplayKey.isEmpty then s.zenzConversionKey
      else s.zenzConversionDisplayKey
    { added with
      candidateWindow := added.candidateWindow.map
        (fillPage shortcuts s.zenzConversionSelected (added.allCandidateWords.getD {}))
      zenzConversionPending := false
      zenzConversionApplied := s.zenzConversionSelected
      preedit :=
        if s.zenzConversionSelected then
          some (addPreeditSegment displayKey s.zenzConversionValue true
            { cursor := s.zenzConversionValue.length })
        else added.preedit }

/-- The output with which a command ends. -/
def output (s : Session φ) : Output :=
  fillZenzConversionCandidateOutput s (fillOutput s.converter)

/-- The index at which `MoveZenzConversionCandidate` arrives. -/
def movedIndex (current count pageSize : Nat) (direction : Int) (byPage : Bool) : Nat :=
  if byPage then
    let pageCount := (count + pageSize - 1) / pageSize
    (((current / pageSize : Nat) + direction + pageCount).tmod pageCount).toNat * pageSize
  else ((current + direction + count).tmod count).toNat

-- `SetPendingZenzFeedbackRejected`
variable (setRejected : String → Session φ → φ)

/-- A move through the candidates of which that of Zenz is one. -/
def moveZenzConversionCandidate (direction : Int) (byPage : Bool) (s : Session φ) :
    Bool × Session φ :=
  if ¬ hasZenzConversionCandidate s then (false, s)
  else
    let out := output s
    let candidates := out.allCandidateWords.getD {}
    let count := candidates.candidates.length
    if count = 0 then (false, s)
    else
      let current := candidates.focusedIndex.getD 0
      -- without a window its page size has its default
      let pageSize := max 1 (out.candidateWindow.getD {}).pageSize
      let index := movedIndex current count pageSize direction byPage
      let id := ((candidates.candidates[index]?).map fun word => word.id).getD 0
      let feedback :=
        if hasVisibleZenzConversion s ∧ id ≠ kZenzConversionCandidateId then
          setRejected "conversion_command_after_zenz" s
        else s.pendingZenzFeedback
      let selected : Bool := id = kZenzConversionCandidateId
      let moved := if selected then s.converter else candidateMoveToId id s.converter
      (true,
        { s with
          pendingZenzFeedback := feedback
          zenzConversionSelected := selected
          converter := setCandidateListVisible true moved })

/-! ## The merged list -/

theorem map_mapIdx {α β γ : Type} (f : Nat → α → β) (g : β → γ) (l : List α) :
    (l.mapIdx f).map g = l.mapIdx fun i a => g (f i a) :=
  List.ext_getElem? fun i => by simp [Function.comp_def]

/-- The candidates that are shown, by id and value: the Zenz candidate and the converter's. -/
def merged (s : Session φ) : List (Int × String) :=
  (kZenzConversionCandidateId, s.zenzConversionValue) ::
    s.converter.words.map fun word => (word.id, word.value)

/-- The focused position of the merged list. -/
def focus (s : Session φ) : Nat :=
  if s.zenzConversionSelected then 0 else s.converter.focusedIndex + 1

/-- There is a Zenz candidate, and the converter has candidates with ids of their own. -/
structure Ready (s : Session φ) : Prop where
  hasZenz : hasZenzConversionCandidate s = true
  focused_lt : s.converter.focusedIndex < s.converter.words.length
  ids_nodup : (s.converter.words.map Candidate.id).Nodup
  zenzId_notMem : kZenzConversionCandidateId ∉ s.converter.words.map Candidate.id
  pageSize_pos : 1 ≤ s.converter.pageSize

/-- The words of the merged list. -/
def mergedWords (s : Session φ) : List CandidateWord :=
  { id := kZenzConversionCandidateId, key := s.zenzConversionKey, value := s.zenzConversionValue
    annotationProto := { description := "Zenz" }, index := 0 } ::
    s.converter.words.mapIdx fun index word => { toCandidate := word, index := index + 1 }

@[simp] theorem length_mergedWords (s : Session φ) :
    (mergedWords s).length = s.converter.words.length + 1 := by
  simp [mergedWords]

theorem merged_eq (s : Session φ) :
    merged s = (mergedWords s).map fun word => (word.id, word.value) := by
  rw [merged, mergedWords, List.map_cons, map_mapIdx]
  exact congrArg _ (List.ext_getElem? fun i => by simp)

variable {s : Session φ}

/-- The merged list is put out as it is, with the focus merged. -/
theorem allCandidateWords_output (h : hasZenzConversionCandidate s = true) :
    (output s).allCandidateWords =
      some { focusedIndex := some (focus s), candidates := mergedWords s } := by
  rw [output, fillZenzConversionCandidateOutput, if_neg (by simp [h, fillOutput])]
  have hwords : (s.converter.words.mapIdx fun index word =>
      ({ toCandidate := word, index := index } : CandidateWord)).map
        (fun word => { word with index := word.index + 1 }) =
      s.converter.words.mapIdx fun index word => { toCandidate := word, index := index + 1 } :=
    map_mapIdx _ _ _
  simp only [addZenzCandidate, fillOutput, Option.map_some, addZenzWord, focus, mergedWords, hwords]
  cases s.zenzConversionSelected <;> simp

/-- The page of a position. -/
def pageOf {α : Type} (pageSize position : Nat) (l : List α) : List (α × Nat) :=
  ((l.mapIdx fun index entry => (entry, index)).drop (position / pageSize * pageSize)).take pageSize

variable {pageSize position : Nat}

theorem mem_pageOf {α : Type} (hpos : 1 ≤ pageSize) {l : List α} (hlt : position < l.length) :
    position ∈ (pageOf pageSize position l).map Prod.snd := by
  have hstart := Nat.div_mul_le_self position pageSize
  have hnext := Nat.lt_div_mul_add hpos (a := position)
  refine List.mem_map.mpr ⟨(l[position], position), ?_, rfl⟩
  refine List.mem_of_getElem? (i := position - position / pageSize * pageSize) ?_
  rw [pageOf, List.getElem?_take_of_lt (by omega), List.getElem?_drop, Nat.add_sub_cancel' hstart,
    List.getElem?_mapIdx, List.getElem?_eq_getElem hlt]
  rfl

theorem candidate_fillPage (shortcuts : List Char) (selected : Bool) {candidates : CandidateList}
    {window : CandidateWindow} (hfocus : candidates.focusedIndex = some position)
    (hpos : 1 ≤ window.pageSize) :
    ((fillPage shortcuts selected candidates window).candidate.map
        fun candidate => ((candidate.id, candidate.value), candidate.index)) =
      pageOf window.pageSize position
        (candidates.candidates.map fun word => (word.id, word.value)) := by
  have hpage : max 1 window.pageSize = window.pageSize := max_eq_right hpos
  have hlast (start : Nat) : min (start + window.pageSize) candidates.candidates.length - start =
      min window.pageSize (candidates.candidates.drop start).length := by
    rw [List.length_drop]
    omega
  refine List.ext_getElem? fun slot => ?_
  simp only [fillPage, hfocus, Option.getD_some, hpage, hlast, ← List.take_eq_take_min, pageOf,
    List.getElem?_map, List.getElem?_mapIdx, List.getElem?_take, List.getElem?_drop]
  split_ifs <;> simp [Function.comp_def, pageCandidate, windowCandidate]

/-- The window that is put out for the merged list. -/
def mergedWindow (s : Session φ) : CandidateWindow :=
  fillPage (shortcutsOf (fillCandidateWindow s.converter)) s.zenzConversionSelected
    { focusedIndex := some (focus s), candidates := mergedWords s }
    (addZenzToWindow s.zenzConversionValue s.zenzConversionSelected kZenzConversionCandidateId
      (fillCandidateWindow s.converter))

theorem candidateWindow_output (h : hasZenzConversionCandidate s = true) :
    (output s).candidateWindow =
      if s.converter.candidateListVisible then some (mergedWindow s) else none := by
  have hwords := allCandidateWords_output h
  rw [output, fillZenzConversionCandidateOutput, if_neg (by simp [h, fillOutput])] at hwords ⊢
  dsimp only at hwords ⊢
  rw [hwords]
  cases hvisible : s.converter.candidateListVisible
  · simp [addZenzCandidate, fillOutput, hvisible]
  · simp [addZenzCandidate, fillOutput, hvisible, mergedWindow]

/-- The page size that a move goes by. -/
def effectivePageSize (s : Session φ) : Nat :=
  if s.converter.candidateListVisible then s.converter.pageSize else 9

theorem Ready.pageSize_output (h : Ready s) :
    max 1 ((output s).candidateWindow.getD {}).pageSize = effectivePageSize s := by
  rw [candidateWindow_output h.hasZenz, effectivePageSize]
  split_ifs
  · exact max_eq_right h.pageSize_pos
  · rfl

/-! ## What is shown -/

/-- The window shows the page of the focus, and the focus on it. -/
def ShowsPage (s : Session φ) : Prop :=
  ∃ window, (output s).candidateWindow = some window ∧ window.focusedIndex = some (focus s) ∧
    (window.candidate.map fun candidate => ((candidate.id, candidate.value), candidate.index)) =
      pageOf s.converter.pageSize (focus s) (merged s) ∧
    focus s ∈ window.candidate.map WindowCandidate.index

theorem Ready.focus_lt (h : Ready s) :
    focus s < s.converter.words.length + 1 := by
  have hlt := h.focused_lt
  rw [focus]
  split_ifs <;> omega

/-- **THE WINDOW** of a merged list. -/
theorem Ready.showsPage (h : Ready s) (hvisible : s.converter.candidateListVisible = true) :
    ShowsPage s := by
  have hcandidates : ((mergedWindow s).candidate.map
      fun candidate => ((candidate.id, candidate.value), candidate.index)) =
        pageOf s.converter.pageSize (focus s) (merged s) := by
    rw [merged_eq]
    exact candidate_fillPage _ _ rfl h.pageSize_pos
  have hindexes : (mergedWindow s).candidate.map WindowCandidate.index =
      (pageOf s.converter.pageSize (focus s) (merged s)).map Prod.snd := by
    rw [← hcandidates, List.map_map]
    rfl
  refine ⟨mergedWindow s, by rw [candidateWindow_output h.hasZenz, if_pos hvisible], rfl,
    hcandidates, ?_⟩
  rw [hindexes]
  refine mem_pageOf h.pageSize_pos ?_
  rw [merged, List.length_cons, List.length_map]
  exact h.focus_lt

/-! ## Where a move ends -/

theorem tmod_next (a n : Nat) : (((a : Int) + 1 + n).tmod n).toNat = (a + 1) % n := by
  have hcast : (a : Int) + 1 + n = ((a + 1 + n : Nat) : Int) := by push_cast; ring
  rw [hcast, ← Int.ofNat_tmod, Int.toNat_natCast, Nat.add_mod_right]

theorem tmod_prev (a : Nat) {n : Nat} (hn : 1 ≤ n) :
    (((a : Int) + -1 + n).tmod n).toNat = (a + (n - 1)) % n := by
  have hcast : (a : Int) + -1 + n = ((a + (n - 1) : Nat) : Int) := by omega
  rw [hcast, ← Int.ofNat_tmod, Int.toNat_natCast]

/-- How many pages so many candidates take. -/
def pageCount (count pageSize : Nat) : Nat := (count + pageSize - 1) / pageSize

variable {count : Nat}

theorem pageCount_pos (hcount : 1 ≤ count) (hsize : 1 ≤ pageSize) :
    1 ≤ pageCount count pageSize :=
  (Nat.one_le_div_iff hsize).mpr (by omega)

theorem page_lt {page : Nat} (hcount : 1 ≤ count) (hpage : page < pageCount count pageSize) :
    page * pageSize < count := by
  have hle : (page + 1) * pageSize ≤ count + pageSize - 1 :=
    (Nat.mul_le_mul_right pageSize hpage).trans (Nat.div_mul_le_self _ _)
  rw [Nat.add_mul, Nat.one_mul] at hle
  omega

theorem movedIndex_next (current count pageSize : Nat) :
    movedIndex current count pageSize 1 false = (current + 1) % count := by
  simp [movedIndex, tmod_next]

theorem movedIndex_prev (current pageSize : Nat) (hcount : 1 ≤ count) :
    movedIndex current count pageSize (-1) false = (current + (count - 1)) % count := by
  simp [movedIndex, tmod_prev _ hcount]

theorem movedIndex_nextPage (current count pageSize : Nat) :
    movedIndex current count pageSize 1 true =
      (current / pageSize + 1) % pageCount count pageSize * pageSize :=
  congrArg (· * pageSize) (tmod_next _ _)

theorem movedIndex_prevPage (current : Nat) (hcount : 1 ≤ count) (hsize : 1 ≤ pageSize) :
    movedIndex current count pageSize (-1) true =
      (current / pageSize + (pageCount count pageSize - 1)) % pageCount count pageSize * pageSize :=
  congrArg (· * pageSize) (tmod_prev _ (pageCount_pos hcount hsize))

variable {direction : Int}

theorem movedIndex_lt (current : Nat) (hcount : 1 ≤ count) (hsize : 1 ≤ pageSize)
    (hdirection : direction = 1 ∨ direction = -1) (byPage : Bool) :
    movedIndex current count pageSize direction byPage < count := by
  have hpages := pageCount_pos hcount hsize
  cases byPage with
  | false =>
    rcases hdirection with rfl | rfl
    · rw [movedIndex_next]
      exact Nat.mod_lt _ hcount
    · rw [movedIndex_prev _ _ hcount]
      exact Nat.mod_lt _ hcount
  | true =>
    rcases hdirection with rfl | rfl
    · rw [movedIndex_nextPage]
      exact page_lt hcount (Nat.mod_lt _ hpages)
    · rw [movedIndex_prevPage _ hcount hsize]
      exact page_lt hcount (Nat.mod_lt _ hpages)

/-- A move ends at a position of the same list, and shows the window. -/
structure Moved (s : Session φ) (position : Nat) (s' : Session φ) : Prop where
  ready : Ready s'
  words : s'.converter.words = s.converter.words
  pageSize : s'.converter.pageSize = s.converter.pageSize
  visible : s'.converter.candidateListVisible = true
  focus : focus s' = position

theorem focusedIndex_candidateMoveToId {converter : Converter} {i : Nat} {word : Candidate}
    (hnodup : (converter.words.map Candidate.id).Nodup) (hget : converter.words[i]? = some word) :
    (candidateMoveToId word.id converter).focusedIndex = i := by
  obtain ⟨hi, rfl⟩ := List.getElem?_eq_some_iff.mp hget
  have hfind : (converter.words.findIdx? fun w => w.id = converter.words[i].id) = some i := by
    refine List.findIdx?_eq_some_iff_getElem.mpr ⟨hi, by simp, fun j hj => ?_⟩
    have hne := (List.pairwise_iff_getElem.mp hnodup) j i (by simpa using hj.trans hi)
      (by simpa using hi) hj
    simpa using hne
  rw [candidateMoveToId, hfind]
  rfl

/-- **A MOVE**. -/
theorem moveZenzConversionCandidate_spec (h : Ready s) (hdirection : direction = 1 ∨ direction = -1)
    (byPage : Bool) :
    (moveZenzConversionCandidate setRejected direction byPage s).1 = true ∧
    Moved s
      (movedIndex (focus s) (s.converter.words.length + 1) (effectivePageSize s) direction byPage)
      (moveZenzConversionCandidate setRejected direction byPage s).2 := by
  have hsize : 1 ≤ effectivePageSize s := by
    rw [effectivePageSize]
    split_ifs
    · exact h.pageSize_pos
    · omega
  have hlt := movedIndex_lt (focus s) (Nat.le_add_left 1 s.converter.words.length) hsize hdirection
    byPage
  rw [moveZenzConversionCandidate, if_neg (by simp [h.hasZenz])]
  dsimp only
  rw [allCandidateWords_output h.hasZenz, Option.getD_some, if_neg (by simp), Option.getD_some,
    h.pageSize_output, length_mergedWords]
  refine ⟨rfl, ?_⟩
  generalize movedIndex (focus s) (s.converter.words.length + 1) (effectivePageSize s) direction
    byPage = position at hlt ⊢
  cases position with
  | zero =>
    have hid : (((mergedWords s)[0]?).map fun word => word.id).getD 0
        = kZenzConversionCandidateId := rfl
    rw [hid]
    exact
      { ready := ⟨h.hasZenz, h.focused_lt, h.ids_nodup, h.zenzId_notMem, h.pageSize_pos⟩
        words := rfl, pageSize := rfl, visible := rfl, focus := rfl }
  | succ i =>
    have hi : i < s.converter.words.length := by omega
    have hid : (((mergedWords s)[i + 1]?).map fun word => word.id).getD 0
        = s.converter.words[i].id := by
      simp [mergedWords, hi]
    have hne : s.converter.words[i].id ≠ kZenzConversionCandidateId := fun heq =>
      h.zenzId_notMem (heq ▸ List.mem_map_of_mem (List.getElem_mem hi))
    have hfocused : (candidateMoveToId s.converter.words[i].id s.converter).focusedIndex = i :=
      focusedIndex_candidateMoveToId h.ids_nodup (List.getElem?_eq_getElem hi)
    rw [hid, decide_eq_false hne]
    exact
      { ready := ⟨h.hasZenz, hfocused.trans_lt hi, h.ids_nodup, h.zenzId_notMem, h.pageSize_pos⟩
        words := rfl, pageSize := rfl, visible := rfl, focus := congrArg (· + 1) hfocused }

/-! ## Runs of moves -/

/-- The session after a move. -/
def moved (direction : Int) (byPage : Bool) (s : Session φ) : Session φ :=
  (moveZenzConversionCandidate setRejected direction byPage s).2

/-- The session after a run of moves. -/
def afterMoves (moves : List (Int × Bool)) (s : Session φ) : Session φ :=
  moves.foldl (fun s move => moved setRejected move.1 move.2 s) s

theorem afterMoves_concat (moves : List (Int × Bool)) (move : Int × Bool) (s : Session φ) :
    afterMoves setRejected (moves ++ [move]) s =
      moved setRejected move.1 move.2
        (afterMoves setRejected moves s) :=
  List.foldl_concat _ _ _ _

/-- Navigation is a cycle. -/
structure Cycles (s : Session φ) : Prop where
  next : ∀ k, focus ((moved setRejected 1 false)^[k] s) =
    (focus s + k) % (s.converter.words.length + 1)
  undo : focus (moved setRejected (-1) false
    (moved setRejected 1 false s)) = focus s
  nextPage : ∀ k, focus ((moved setRejected 1 true)^[k + 1] s) =
    (focus s / s.converter.pageSize + (k + 1)) %
      pageCount (s.converter.words.length + 1) s.converter.pageSize * s.converter.pageSize
  prevPage : ∀ k, (focus ((moved setRejected (-1) true)^[k + 1] s) : Int) =
    ((focus s / s.converter.pageSize : Nat) - (k + 1) : Int) %
      pageCount (s.converter.words.length + 1) s.converter.pageSize * s.converter.pageSize
  shown : ∀ moves, moves ≠ [] → (∀ move ∈ moves, move.1 = 1 ∨ move.1 = (-1 : Int)) →
    ShowsPage (afterMoves setRejected moves s)

theorem Ready.moves (h : Ready s) (hdirection : direction = 1 ∨ direction = -1) (byPage : Bool) :
    Moved s
      (movedIndex (focus s) (s.converter.words.length + 1) (effectivePageSize s) direction byPage)
      (moved setRejected direction byPage s) :=
  (moveZenzConversionCandidate_spec _ h hdirection byPage).2

theorem Moved.effectivePageSize_eq {s' : Session φ} (h : Moved s position s') :
    effectivePageSize s' = s'.converter.pageSize := if_pos h.visible

theorem afterMoves_ready (h : Ready s) (moves : List (Int × Bool)) (hne : moves ≠ [])
    (hmoves : ∀ move ∈ moves, move.1 = 1 ∨ move.1 = (-1 : Int)) :
    Ready (afterMoves setRejected moves s) ∧
      (afterMoves setRejected moves s).converter.candidateListVisible = true := by
  induction moves using List.reverseRecOn with
  | nil => exact absurd rfl hne
  | append_singleton moves move ih =>
    have hready : Ready (afterMoves setRejected moves s) := by
      rcases eq_or_ne moves [] with rfl | hsome
      · exact h
      · exact (ih hsome fun m hm => hmoves m (List.mem_append_left _ hm)).1
    have hmove := hmoves move (List.mem_append_right _ List.mem_cons_self)
    have hmoved := hready.moves setRejected hmove move.2
    rw [afterMoves_concat]
    exact ⟨hmoved.ready, hmoved.visible⟩

theorem next_iterate (h : Ready s) (k : Nat) :
    Ready ((moved setRejected 1 false)^[k] s) ∧
    ((moved setRejected 1 false)^[k] s).converter.words = s.converter.words ∧
    focus ((moved setRejected 1 false)^[k] s) =
      (focus s + k) % (s.converter.words.length + 1) := by
  induction k with
  | zero => exact ⟨h, rfl, (Nat.mod_eq_of_lt h.focus_lt).symm⟩
  | succ k ih =>
    obtain ⟨hready, hwords, hfocus⟩ := ih
    have hmoved := hready.moves setRejected (Or.inl rfl) false
    rw [Function.iterate_succ_apply']
    refine ⟨hmoved.ready, hmoved.words.trans hwords, ?_⟩
    rw [hmoved.focus, movedIndex_next, hfocus, hwords, Nat.mod_add_mod, Nat.add_assoc]

theorem next_prev (h : Ready s) :
    focus (moved setRejected (-1) false (moved setRejected 1 false s)) = focus s := by
  have hnext := h.moves setRejected (Or.inl rfl) false
  have hprev := hnext.ready.moves setRejected (Or.inr rfl) false
  rw [hprev.focus, hnext.words, movedIndex_prev _ _ (Nat.le_add_left 1 _), hnext.focus,
    movedIndex_next, Nat.mod_add_mod, Nat.add_sub_cancel, Nat.add_assoc, Nat.add_comm 1,
    Nat.add_mod_right, Nat.mod_eq_of_lt h.focus_lt]

/-- The first page move goes by the converter's own page size, or there is no difference. -/
def FirstPageMove (s : Session φ) (direction : Int) : Prop :=
  movedIndex (focus s) (s.converter.words.length + 1) (effectivePageSize s) direction true =
    movedIndex (focus s) (s.converter.words.length + 1) s.converter.pageSize direction true

theorem nextPage_iterate (h : Ready s) (hfirst : FirstPageMove s 1) (k : Nat) :
    Moved s
      ((focus s / s.converter.pageSize + (k + 1)) %
        pageCount (s.converter.words.length + 1) s.converter.pageSize * s.converter.pageSize)
      ((moved setRejected 1 true)^[k + 1] s) := by
  induction k with
  | zero =>
    have hmoved := h.moves setRejected (Or.inl rfl) true
    rw [hfirst, movedIndex_nextPage] at hmoved
    exact hmoved
  | succ k ih =>
    have hmoved := ih.ready.moves setRejected (Or.inl rfl) true
    rw [Function.iterate_succ_apply']
    refine ⟨hmoved.ready, hmoved.words.trans ih.words, hmoved.pageSize.trans ih.pageSize,
      hmoved.visible, ?_⟩
    rw [hmoved.focus, ih.effectivePageSize_eq, movedIndex_nextPage, ih.focus, ih.words,
      ih.pageSize, Nat.mul_div_cancel _ h.pageSize_pos, Nat.mod_add_mod, Nat.add_assoc]

theorem natCast_prev (a : Nat) {n : Nat} (hn : 1 ≤ n) :
    (((a + (n - 1)) % n : Nat) : Int) = ((a : Int) - 1) % n := by
  have hcast : ((a + (n - 1) : Nat) : Int) = (a : Int) - 1 + n := by omega
  rw [Int.natCast_mod, hcast, Int.add_emod_right]

theorem prevPage_iterate (h : Ready s) (hfirst : FirstPageMove s (-1)) (k : Nat) :
    ∃ page : Nat, (page : Int) = ((focus s / s.converter.pageSize : Nat) - (k + 1) : Int) %
        pageCount (s.converter.words.length + 1) s.converter.pageSize ∧
      Moved s (page * s.converter.pageSize) ((moved setRejected (-1) true)^[k + 1] s) := by
  have hpages := pageCount_pos (Nat.le_add_left 1 s.converter.words.length) h.pageSize_pos
  induction k with
  | zero =>
    have hmoved := h.moves setRejected (Or.inr rfl) true
    rw [hfirst, movedIndex_prevPage _ (Nat.le_add_left 1 _) h.pageSize_pos] at hmoved
    exact ⟨_, by rw [natCast_prev _ hpages]; norm_num, hmoved⟩
  | succ k ih =>
    obtain ⟨page, hpage, ih⟩ := ih
    have hmoved := ih.ready.moves setRejected (Or.inr rfl) true
    rw [Function.iterate_succ_apply']
    refine ⟨(page + (pageCount (s.converter.words.length + 1) s.converter.pageSize - 1)) %
      pageCount (s.converter.words.length + 1) s.converter.pageSize, ?_,
      ⟨hmoved.ready, hmoved.words.trans ih.words, hmoved.pageSize.trans ih.pageSize,
        hmoved.visible, ?_⟩⟩
    · rw [natCast_prev _ hpages, hpage, Int.emod_sub_emod]
      push_cast
      ring_nf
    · rw [hmoved.focus, ih.effectivePageSize_eq, ih.words, ih.pageSize,
        movedIndex_prevPage _ (Nat.le_add_left 1 _) h.pageSize_pos, ih.focus,
        Nat.mul_div_cancel _ h.pageSize_pos]

/-- **NAVIGATION** is a cycle where the first page moves go by the right page size. -/
theorem Ready.cycles (h : Ready s) (hnext : FirstPageMove s 1) (hprev : FirstPageMove s (-1)) :
    Cycles setRejected s where
  next k := (next_iterate setRejected h k).2.2
  undo := next_prev setRejected h
  nextPage k := (nextPage_iterate setRejected h hnext k).focus
  prevPage k := by
    obtain ⟨page, hpage, hmoved⟩ := prevPage_iterate setRejected h hprev k
    rw [hmoved.focus, Nat.cast_mul, hpage]
  shown moves hne hmoves := by
    obtain ⟨hready, hvisible⟩ := afterMoves_ready setRejected h moves hne hmoves
    exact hready.showsPage hvisible

/-! ## A hidden window -/

/-- The same list, with another focus. -/
def focusOn (selected : Bool) (index : Nat) (s : Session φ) : Session φ :=
  { s with
    zenzConversionSelected := selected
    converter := { s.converter with focusedIndex := index } }

theorem Ready.focusOn (h : Ready s) (selected : Bool) {index : Nat}
    (hindex : index < s.converter.words.length) : Ready (focusOn selected index s) :=
  ⟨h.hasZenz, hindex, h.ids_nodup, h.zenzId_notMem, h.pageSize_pos⟩

theorem pageCount_eq_one (hcount : 1 ≤ count) (hle : count ≤ pageSize) :
    pageCount count pageSize = 1 :=
  Nat.div_eq_of_lt_le (by omega) (by omega)

theorem two_le_pageCount (hsize : 1 ≤ pageSize) (hlt : pageSize < count) :
    2 ≤ pageCount count pageSize :=
  (Nat.le_div_iff_mul_le hsize).mpr (by omega)

theorem movedIndex_single (current : Nat) (hcount : 1 ≤ count) (hle : count ≤ pageSize)
    (hdirection : direction = 1 ∨ direction = -1) :
    movedIndex current count pageSize direction true = 0 := by
  have hone := pageCount_eq_one hcount hle
  rcases hdirection with rfl | rfl
  · rw [movedIndex_nextPage, hone, Nat.mod_one, Nat.zero_mul]
  · rw [movedIndex_prevPage _ hcount (hcount.trans hle), hone, Nat.mod_one, Nat.zero_mul]

theorem movedIndex_several (hsize : 1 ≤ pageSize) (hlt : pageSize < count) :
    movedIndex 0 count pageSize 1 true = pageSize := by
  have htwo := two_le_pageCount hsize hlt
  rw [movedIndex_nextPage, Nat.zero_div, Nat.zero_add, Nat.mod_eq_of_lt htwo, Nat.one_mul]

/-- Two page sizes that differ lead to different pages, unless there is only one. -/
theorem movedIndex_ne {pageSize' : Nat} (hsize : 1 ≤ pageSize) (hsize' : 1 ≤ pageSize')
    (hne : pageSize ≠ pageSize') (hseveral : pageSize < count ∨ pageSize' < count) :
    movedIndex 0 count pageSize 1 true ≠ movedIndex 0 count pageSize' 1 true := by
  have hcount : 1 ≤ count := by omega
  rcases Nat.lt_or_ge pageSize count with hlt | hge
  · rw [movedIndex_several hsize hlt]
    rcases Nat.lt_or_ge pageSize' count with hlt' | hge'
    · rw [movedIndex_several hsize' hlt']
      exact hne
    · rw [movedIndex_single _ hcount hge' (Or.inl rfl)]
      exact Nat.ne_of_gt hsize
  · have hlt' : pageSize' < count := hseveral.resolve_left (Nat.not_lt.mpr hge)
    rw [movedIndex_single _ hcount hge (Or.inl rfl), movedIndex_several hsize' hlt']
    exact Nat.ne_of_lt hsize'

/-- Where the page size of the converter is the one that a page move goes by, or both leave a
    single page. -/
def PagesAgree (s : Session φ) : Prop :=
  s.converter.candidateListVisible = true ∨ s.converter.pageSize = 9 ∨
    (s.converter.words.length + 1 ≤ s.converter.pageSize ∧ s.converter.words.length + 1 ≤ 9)

theorem PagesAgree.firstPageMove (h : PagesAgree s) (hdirection : direction = 1 ∨ direction = -1) :
    FirstPageMove s direction := by
  rcases h with hvisible | hnine | hsingle
  · rw [FirstPageMove, effectivePageSize, if_pos hvisible]
  · have heffective : effectivePageSize s = s.converter.pageSize := by
      rw [effectivePageSize, hnine, ite_self]
    rw [FirstPageMove, heffective]
  · have heffective : s.converter.words.length + 1 ≤ effectivePageSize s := by
      rw [effectivePageSize]
      split_ifs
      · exact hsingle.1
      · exact hsingle.2
    exact (movedIndex_single _ (Nat.le_add_left 1 _) heffective hdirection).trans
      (movedIndex_single _ (Nat.le_add_left 1 _) hsingle.1 hdirection).symm

/-- **THE CYCLE** is kept from every focus exactly where the window is shown, or its page size is
    the default one, or both page sizes leave a single page. -/
theorem cycles_iff {s : Session φ} (h : Ready s) :
    (∀ selected index, index < s.converter.words.length →
        Cycles setRejected (focusOn selected index s)) ↔ PagesAgree s := by
  constructor
  · intro hcycles
    by_contra hnot
    obtain ⟨hhidden, hnine, hsingle⟩ := not_or.mp hnot |>.imp_right not_or.mp
    -- the first page move from the Zenz candidate
    have hwords : 0 < s.converter.words.length := Nat.zero_lt_of_lt h.focused_lt
    have hcode := ((h.focusOn true hwords).moves setRejected (Or.inl rfl) true).focus
    have hclaim := (hcycles true 0 hwords).nextPage 0
    rw [Nat.zero_add, Function.iterate_one, ← movedIndex_nextPage, hcode] at hclaim
    have heffective : effectivePageSize (focusOn true 0 s) = 9 := if_neg hhidden
    rw [heffective] at hclaim
    have hseveral : 9 < s.converter.words.length + 1 ∨
        s.converter.pageSize < s.converter.words.length + 1 := by
      omega
    exact movedIndex_ne (by decide) h.pageSize_pos (Ne.symm hnine) hseveral hclaim
  · intro hagree selected index hindex
    have hagree' : PagesAgree (focusOn selected index s) := hagree
    exact (h.focusOn selected hindex).cycles setRejected (hagree'.firstPageMove (Or.inl rfl))
      (hagree'.firstPageMove (Or.inr rfl))

/-- Three candidates on pages of two, the first one focused, after a move between segments. -/
def hiddenSession : Session Unit where
  converter :=
    { words := [{ id := 0, value := "a" }, { id := 1, value := "b" }, { id := 2, value := "c" }]
      focusedIndex := 0, pageSize := 2, candidateListVisible := false, shortcuts := []
      position := 0, usages := [], conversion := fun _ => {} }
  inConversion := true
  queryForConversion := "k"
  zenzConversionVisibleGeneration := 1
  zenzConversionSelected := false
  zenzConversionKey := "k"
  zenzConversionDisplayKey := "k"
  zenzConversionValue := "z"
  zenzConversionMozcValue := "a"
  pendingZenzFeedback := ()

/-- **A HIDDEN WINDOW**: the next page of the first candidate is that of the Zenz candidate. -/
theorem hiddenSession_not_cycles :
    Ready hiddenSession ∧ focus (moved (fun _ _ => ()) 1 true hiddenSession) = 0 ∧
      ¬ Cycles (fun _ _ => ()) hiddenSession := by
  have hmoved : focus (moved (fun _ _ => ()) 1 true hiddenSession) = 0 := by decide
  refine ⟨⟨by decide, by decide, by decide, by decide, by decide⟩, hmoved, fun h => ?_⟩
  have hnext := h.nextPage 0
  rw [Function.iterate_one, hmoved] at hnext
  exact absurd hnext (by decide)

/-- The same candidates in a window that is shown. -/
def visibleSession : Session Unit :=
  { hiddenSession with
    converter := { hiddenSession.converter with candidateListVisible := true } }

theorem cycles_visibleSession : Cycles (fun _ _ => ()) (focusOn false 2 visibleSession) :=
  (cycles_iff (fun _ _ => ()) ⟨by decide, by decide, by decide, by decide, by decide⟩).mpr
    (Or.inl rfl) false 2 (by decide)

end MozkeyZenzCandidates
