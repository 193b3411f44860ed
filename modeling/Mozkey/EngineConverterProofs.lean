import Mozkey.CandidateListProofs
import Mozkey.SegmentsProofs

/-! # EngineConverter — the conversion of one composition

    The engine converter holds the segments of a conversion, the segment that has the focus,
    the candidates of that segment, and an index for every segment.  The commands of a session
    call it, and it calls a converter, of which only the interface is used: what a converter
    answers is arbitrary, within what its interface promises.

    Keys and values are well-formed text and are given as strings.  What is only shown (the
    tokens of a result, the incognito candidates) is left out.

    `commitSegmentsSize` answers `none` where its `CHECK` fails. -/

namespace MozkeyEngine

open MozkeyConverter (SegmentType)

/-! ## Segments -/

/-- The command of a candidate. -/
inductive Command where
  | defaultCommand | enableIncognitoMode | disableIncognitoMode
  | enablePresentationMode | disablePresentationMode
  deriving DecidableEq

/-- `converter::Candidate`, with the bits of its attributes. -/
structure Candidate where
  key : String := ""
  value : String := ""
  contentKey : String := ""
  contentValue : String := ""
  commandCandidate : Bool := false
  partiallyKeyConsumed : Bool := false
  spellingCorrection : Bool := false
  reranked : Bool := false
  consumedKeySize : Nat := 0
  command : Command := .defaultCommand
  deriving DecidableEq

/-- `Segment`, with its transliterations. -/
structure Segment where
  segmentType : SegmentType := .free
  key : String := ""
  candidates : List Candidate := []
  metaCandidates : List Candidate := []
  deriving DecidableEq

/-- `Segments`, of which only the conversion segments count. -/
abbrev Segments := List Segment

/-- `Segment::key_len`. -/
def Segment.keyLen (segment : Segment) : Nat := segment.key.length

/-- `is_valid_index`, as the converter checks it for a candidate or a transliteration. -/
def Segment.isValidIndex (segment : Segment) (index : Int) : Prop :=
  -11 ≤ index ∧ index < segment.candidates.length

/-- A segment that has been committed. -/
def Segment.isHistory (segment : Segment) : Bool :=
  segment.segmentType = .history ∨ segment.segmentType = .submitted

namespace Segments

/-- The segments behind the history. -/
def conversionSegments (segments : Segments) : List Segment := segments.dropWhile Segment.isHistory

/-- `conversion_segments_size`. -/
def conversionSegmentsSize (segments : Segments) : Nat := segments.conversionSegments.length

/-- A segment by its index behind the history; an empty one where there is none. -/
def conversionSegment (segments : Segments) (index : Nat) : Segment :=
  segments.conversionSegments.getD index {}

/-- Only the history is left. -/
def clearConversionSegments (segments : Segments) : Segments := segments.takeWhile Segment.isHistory

/-- One fixed segment behind the history. -/
def initForCommit (segments : Segments) (key value : String) : Segments :=
  segments.clearConversionSegments ++
    [{ segmentType := .fixedValue, key
       candidates := [{ key, value, contentKey := key, contentValue := value }] }]

/-- The keys of the conversion segments, one after the other. -/
def conversionKey (segments : Segments) : List Char :=
  segments.conversionSegments.flatMap fun segment => segment.key.toList

end Segments

/-! ## The converter -/

/-- `ConversionRequest::RequestType`. -/
inductive RequestType where
  | conversion | prediction | suggestion | partialPrediction | partialSuggestion
  deriving DecidableEq

/-- What is read of the composer. -/
structure Composer where
  cursor : Nat
  length : Nat
  preedit : String
  submission : String
  query : String
  password : Bool
  deriving DecidableEq

/-- What the client wants of history and suggestions. -/
structure ConversionPreferences where
  useHistory : Bool := true
  requestSuggestion : Bool := true
  deriving DecidableEq

/-- `ConversionRequest`, as far as it differs between the calls. -/
structure ConversionRequest where
  composer : Composer
  requestType : RequestType := .conversion
  enableUserHistoryForConversion : Bool := true
  createPartialCandidates : Bool := false
  useActualConverterForRealtimeConversion : Bool := false
  deriving DecidableEq

/-- `ConverterInterface`: what is called during a conversion. -/
structure ConverterInterface where
  startConversion : ConversionRequest → Segments → Bool × Segments
  startPrediction : ConversionRequest → Segments → Bool × Segments
  startPredictionWithPreviousSuggestion :
    ConversionRequest → Segment → Segments → Bool × Segments
  prependCandidates : ConversionRequest → Segment → Segments → Segments
  finishConversion : ConversionRequest → Segments → Segments
  cancelConversion : Segments → Segments
  resetConversion : Segments → Segments
  commitSegmentValue : Segments → Nat → Int → Bool × Segments
  commitPartialSuggestionSegmentValue : Segments → Nat → Int → String → String → Bool × Segments
  focusSegmentValue : Segments → Nat → Int → Bool × Segments
  commitSegments : Segments → List Int → Bool × Segments
  resizeSegment : Segments → ConversionRequest → Nat → Int → Bool × Segments
  resizeSegments : Segments → ConversionRequest → Nat → List UInt8 → Bool × Segments

/-- Functions on texts and segments that the engine converter calls. -/
structure Toolbox where
  /-- `CityFingerprint`. -/
  cityFingerprint : String → UInt64
  /-- `ContextualCandidateReranker::Rerank`. -/
  rerank : Segments → Segments
  /-- Whether a text is transliterated to katakana rather than to ASCII. -/
  containsKana : String → Bool
  /-- `TextNormalizer::NormalizeText`. -/
  normalizeText : String → String

/-! ## The engine converter -/

/-- The four states of a session converter. -/
inductive State where
  | composition | suggestion | prediction | conversion
  deriving DecidableEq

/-- What is read of `commands::Request` and of the configuration. -/
structure Settings where
  mixedConversion : Bool := false
  zeroQuerySuggestion : Bool := false
  autoPartialSuggestion : Bool := false
  isA11yTalkbackEnabled : Bool := false
  useCascadingWindow : Bool := true
  selectionShortcut : List Char := ['1', '2', '3', '4', '5', '6', '7', '8', '9']
  deriving DecidableEq

/-- `EngineConverter`: the segments, and the bookkeeping on what is focused and selected. -/
structure EngineConverter where
  segments : Segments := []
  segmentIndex : Nat := 0
  selectedCandidateIndices : List Int := []
  previousSuggestions : Segment := {}
  candidateList : CandidateList := { rotate := true }
  state : State := .composition
  requestType : RequestType := .conversion
  candidateListVisible : Bool := false
  /-- The key and the value of the result, if there is one. -/
  result : Option (String × String) := none
  updatedCommand : Command := .defaultCommand
  conversionPreferences : ConversionPreferences := {}
  settings : Settings := {}
  deriving DecidableEq

/-- `TransliterationType`, in the order of the meta candidates. -/
inductive TransliterationType where
  | hiragana | fullKatakana | halfAscii | halfAsciiUpper | halfAsciiLower | halfAsciiCapitalized
  | fullAscii | fullAsciiUpper | fullAsciiLower | fullAsciiCapitalized | halfKatakana
  deriving DecidableEq

/-- The transliterations, in the order in which they are added. -/
def transliterationTypeArray : List TransliterationType :=
  [.hiragana, .fullKatakana, .halfAscii, .halfAsciiUpper, .halfAsciiLower, .halfAsciiCapitalized,
    .fullAscii, .fullAsciiUpper, .fullAsciiLower, .fullAsciiCapitalized, .halfKatakana]

/-! `Attribute`. -/

/-- The attributes of a candidate. -/
def kHalfWidth : Attributes := 1
def kFullWidth : Attributes := 2
def kAscii : Attributes := 4
def kHiragana : Attributes := 8
def kKatakana : Attributes := 16
def kUpper : Attributes := 32
def kLower : Attributes := 64
def kCapitalized : Attributes := 128
def kAsIs : Attributes := 256

/-- `GetT13nAttributes`: how a transliteration is found in the list. -/
def getT13nAttributes : TransliterationType → Attributes
  | .hiragana => kHiragana
  | .fullKatakana => kFullWidth ||| kKatakana
  | .halfAscii => kHalfWidth ||| kAscii ||| kAsIs
  | .halfAsciiUpper => kHalfWidth ||| kAscii ||| kUpper
  | .halfAsciiLower => kHalfWidth ||| kAscii ||| kLower
  | .halfAsciiCapitalized => kHalfWidth ||| kAscii ||| kCapitalized
  | .fullAscii => kFullWidth ||| kAscii ||| kAsIs
  | .fullAsciiUpper => kFullWidth ||| kAscii ||| kUpper
  | .fullAsciiLower => kFullWidth ||| kAscii ||| kLower
  | .fullAsciiCapitalized => kFullWidth ||| kAscii ||| kCapitalized
  | .halfKatakana => kHalfWidth ||| kKatakana

/-- Whether two sets of attributes meet. -/
def meets (attributes query : Attributes) : Bool := attributes &&& query ≠ 0

/-- One step of `CycleAlphaCase`: the case after the current one. -/
def nextCase (current base : Attributes) : Attributes :=
  if meets current kUpper then base ||| kLower
  else if meets current kLower then base ||| kCapitalized
  else if meets current kCapitalized then base ||| kAsIs
  else base ||| kUpper

/-- The loop of `CycleAlphaCase`. -/
def cycleAlphaCaseLoop : Nat → Attributes → Attributes → CandidateList → CandidateList
  | 0, _, _, list => list
  | fuel + 1, current, base, list =>
    let query := nextCase current base
    let list := (list.moveNextAttributes query).2
    let attributes := list.deepestAttributes
    let sum := attributes ||| current
    -- the next case is taken unless it is what was typed, and there are others
    if meets query kAsIs || !meets attributes kAsIs
        || (meets sum kAsIs && meets sum kUpper && meets sum kLower && meets sum kCapitalized)
    then list
    else cycleAlphaCaseLoop fuel attributes base list

/-- Lower case, upper case and capitals take turns. -/
def cycleAlphaCase (query : Attributes) (list : CandidateList) : CandidateList :=
  let current := list.deepestAttributes
  if meets current kAsIs then
    (list.moveNextAttributes (query ||| if meets current kUpper then kLower else kUpper)).2
  else cycleAlphaCaseLoop 3 current query list

/-- The candidates of a segment, as `AppendCandidateList` adds them. -/
def addCandidates (cityFingerprint : String → UInt64) (list : CandidateList)
    (segment : Segment) : CandidateList :=
  (segment.candidates.zipIdx.drop list.availableId.toNat).foldl (fun list entry =>
    list.addCandidateWithAttributes entry.2 (cityFingerprint entry.1.value) 0) list

/-- The transliterations of a segment, as `AppendCandidateList` adds them. -/
def addTransliterations {Sub : Type} (cityFingerprint : String → UInt64)
    (list : CandidateListOf Sub) (segment : Segment) : CandidateListOf Sub :=
  transliterationTypeArray.zipIdx.foldl (fun list entry =>
    list.addCandidateWithAttributes (-(entry.2 + 1 : Int))
      (cityFingerprint (segment.metaCandidates.getD entry.2 {}).value)
      (getT13nAttributes entry.1)) list

/-- The list of transliterations in a cascading window. -/
def transliterationList (cityFingerprint : String → UInt64) (segment : Segment) :
    SubCandidateList :=
  addTransliterations cityFingerprint { rotate := false, focused := true } segment

namespace EngineConverter

/-- The segment that has the focus. -/
def focusedSegment (s : EngineConverter) : Segment := s.segments.conversionSegment s.segmentIndex

/-- Is there anything but a composition? -/
def isActive (s : EngineConverter) : Bool := s.state ≠ .composition

/-- `ResetResult`. -/
def resetResult (s : EngineConverter) : EngineConverter := { s with result := none }

/-- Back to the composition, with nothing selected. -/
def resetState (s : EngineConverter) : EngineConverter :=
  { s with
    state := .composition, segmentIndex := 0, previousSuggestions := {}
    candidateListVisible := false, candidateList := s.candidateList.clear
    selectedCandidateIndices := [] }

/-- The focused id in the focused segment, and 0 in the others. -/
def getCandidateIndexForConverter (s : EngineConverter) (segmentIndex : Nat) : Int :=
  if segmentIndex ≠ s.segmentIndex then 0 else s.candidateList.focusedId

/-- The candidate or the transliteration of that id. -/
def getSelectedCandidate (s : EngineConverter) (segmentIndex : Nat) : Candidate :=
  let segment := s.segments.conversionSegment segmentIndex
  match s.getCandidateIndexForConverter segmentIndex with
  | .ofNat id => segment.candidates.getD id {}
  -- a transliteration
  | .negSucc id => segment.metaCandidates.getD id {}

/-- Its value; a command has none. -/
def getSelectedCandidateValue (s : EngineConverter) (segmentIndex : Nat) : String :=
  let candidate := s.getSelectedCandidate segmentIndex
  if candidate.commandCandidate then "" else candidate.value

/-- The index of the focused candidate is kept for the focused segment. -/
def updateSelectedCandidateIndex (s : EngineConverter) : EngineConverter :=
  let index : Int :=
    match s.candidateList.focusedCandidate.subcandidateList with
    | some sub => -1 - (sub.focusedIndex : Int)
    | none => s.candidateList.focusedIndex
  { s with selectedCandidateIndices := s.selectedCandidateIndices.set s.segmentIndex index }

/-- An index for each segment, all of them 0. -/
def initializeSelectedCandidateIndices (s : EngineConverter) : EngineConverter :=
  { s with
    selectedCandidateIndices := List.replicate s.segments.conversionSegmentsSize 0 }

/-- `CommitSegmentsSize` of a number of segments. -/
def commitSegmentsSize (s : EngineConverter) (size : Nat) : Option EngineConverter :=
  if size ≤ s.selectedCandidateIndices.length then
    some { s with selectedCandidateIndices := s.selectedCandidateIndices.drop size }
  else none

/-- `CommitSegmentsSize` of a state. -/
def commitSegmentsSizeOfState (s : EngineConverter) : State → Option EngineConverter
  | .composition => s.commitSegmentsSize 0
  | .suggestion | .prediction => s.commitSegmentsSize 1
  | .conversion => s.commitSegmentsSize s.segments.conversionSegmentsSize

/-- `MaybePerformCommandCandidate` of the first segments. -/
def maybePerformCommandCandidate (s : EngineConverter) (size : Nat) : Bool × EngineConverter :=
  match (List.range size).find? fun i => (s.getSelectedCandidate i).commandCandidate with
  | none => (false, s)
  | some i =>
    match (s.getSelectedCandidate i).command with
    | .defaultCommand => (true, s)
    | command => (true, { s with updatedCommand := command })

/-- `GetPreedit` of the first segments. -/
def getPreedit (s : EngineConverter) (size : Nat) : String :=
  (List.range size).foldl (fun preedit i =>
    preedit ++ if s.state = .conversion then (s.segments.conversionSegment i).key
      else (s.getSelectedCandidate i).contentKey) ""

/-- `GetConversion` of the first segments. -/
def getConversion (s : EngineConverter) (size : Nat) : String :=
  (List.range size).foldl (fun conversion i => conversion ++ s.getSelectedCandidateValue i) ""

/-- The largest `size_t`. -/
def kConsumedAllCharacters : Nat := 2 ^ 64 - 1

/-- `GetConsumedPreeditSize` of the first segments. -/
def getConsumedPreeditSize (s : EngineConverter) (size : Nat) : Nat :=
  if s.state = .conversion then
    ((List.range size).map fun i => (s.segments.conversionSegment i).keyLen).sum
  else if (s.getSelectedCandidate 0).partiallyKeyConsumed then
    (s.getSelectedCandidate 0).consumedKeySize
  else kConsumedAllCharacters

/-- `UpdateResult` of the first segments. -/
def updateResult (s : EngineConverter) (size : Nat) : Bool × EngineConverter :=
  let (performed, s) := s.maybePerformCommandCandidate size
  if performed then (false, s)
  else (true, { s with result := some (s.getPreedit size, s.getConversion size) })

section

variable (c : ConverterInterface) (t : Toolbox)

/-- The candidates of the focused segment that the list does not have yet, and its
    transliterations. -/
def appendCandidateList (s : EngineConverter) : EngineConverter :=
  let segment := s.focusedSegment
  let addMetaCandidates := s.candidateList.size = 0
  let shown := (segment.candidates.zipIdx.drop s.candidateList.availableId.toNat).any
    fun entry => entry.2 < 10 && entry.1.spellingCorrection
  let focused := s.requestType ≠ .suggestion ∧ s.requestType ≠ .partialSuggestion
    ∧ s.requestType ≠ .partialPrediction
  let list := { addCandidates t.cityFingerprint s.candidateList segment with focused }
  let s := { s with candidateListVisible := s.candidateListVisible || shown }
  if segment.metaCandidates = [] ∨ ¬ addMetaCandidates then { s with candidateList := list }
  else if s.settings.useCascadingWindow then
    { s with
      candidateList := list.addSubCandidateList (transliterationList t.cityFingerprint segment) }
  else { s with candidateList := addTransliterations t.cityFingerprint list segment }

/-- The list is made anew. -/
def updateCandidateList (s : EngineConverter) : EngineConverter :=
  appendCandidateList t { s with candidateList := s.candidateList.clear }

/-- The converter is told of the focused candidate. -/
def segmentFocus (s : EngineConverter) : EngineConverter :=
  { s with
    segments := (c.focusSegmentValue s.segments s.segmentIndex
      (s.getCandidateIndexForConverter s.segmentIndex)).2 }

/-- The converter is told to fix the focused segment. -/
def segmentFix (s : EngineConverter) : EngineConverter :=
  { s with
    segments := (c.commitSegmentValue s.segments s.segmentIndex
      (s.getCandidateIndexForConverter s.segmentIndex)).2 }

/-- The conversion is given up. -/
def cancel (s : EngineConverter) : EngineConverter :=
  ({ s.resetResult with segments := c.cancelConversion s.segments } : EngineConverter).resetState

/-- The conversion is given up together with the history. -/
def reset (s : EngineConverter) : EngineConverter :=
  let s := { s.resetResult with segments := c.resetConversion s.segments }
  if s.state = .composition then s else s.resetState

/-- A conversion of the preedit is started. -/
def convertWithPreferences (s : EngineConverter) (composer : Composer)
    (preferences : ConversionPreferences) : Bool × EngineConverter :=
  let request : ConversionRequest :=
    { composer, enableUserHistoryForConversion := preferences.useHistory }
  let s := { s with requestType := .conversion }
  let (started, segments) := c.startConversion request s.segments
  if started = false then (false, ({ s with segments } : EngineConverter).resetState)
  else
    let s := { s with
      segments := t.rerank segments, segmentIndex := 0, state := .conversion
      candidateListVisible := s.settings.isA11yTalkbackEnabled }
    (true, (s.updateCandidateList t).initializeSelectedCandidateIndices)

/-- `Convert`. -/
def convert (s : EngineConverter) (composer : Composer) : Bool × EngineConverter :=
  s.convertWithPreferences c t composer s.conversionPreferences

/-- The focused segment gets longer or shorter. -/
def resizeSegmentWidth (s : EngineConverter) (composer : Composer) (delta : Int) :
    EngineConverter :=
  let s := { s with candidateListVisible := false }
  if s.state = .prediction then s
  else
    let s := s.resetResult
    let (resized, segments) := c.resizeSegment s.segments { composer } s.segmentIndex delta
    let s := { s with segments }
    if resized = false then s
    else
      let s := s.updateCandidateList t
      -- the indices behind the focused one are cleared
      let size := s.segments.conversionSegmentsSize
      let indices := s.selectedCandidateIndices.take (min size (s.segmentIndex + 1))
      let indices := indices ++ List.replicate (size - indices.length) 0
      { s with selectedCandidateIndices := indices }.updateSelectedCandidateIndex

end

end EngineConverter

/-! ## The commands -/

namespace EngineConverter

section

variable (c : ConverterInterface) (t : Toolbox)

/-- The end of `ConvertToTransliteration` and `SwitchKanaType`. -/
def finishTransliteration (s : EngineConverter) (list : CandidateList) : EngineConverter :=
  { s with
    candidateList := list, candidateListVisible := false
    selectedCandidateIndices :=
      s.selectedCandidateIndices.set s.segmentIndex 0 }.segmentFocus c

/-- A prediction is cancelled before it is transliterated. -/
def cancelPrediction (s : EngineConverter) : EngineConverter :=
  if s.state = .prediction then s.cancel c else s

/-- The whole preedit, or the focused segment, is transliterated. -/
def convertToTransliteration (s : EngineConverter) (composer : Composer)
    (type : TransliterationType) : Bool × EngineConverter :=
  let s := s.cancelPrediction c
  let query := getT13nAttributes type
    &&& (kHalfWidth ||| kFullWidth ||| kAscii ||| kHiragana ||| kKatakana)
  if s.state = .composition ∨ s.state = .suggestion then
    let (converted, s) := s.convert c t composer
    if converted = false then (false, s)
    else
      -- the whole preedit becomes one segment
      let s :=
        if s.segmentIndex + 1 ≠ s.segments.conversionSegmentsSize then
          let offset :=
            ((s.segments.conversionSegments.drop (s.segmentIndex + 1)).map Segment.keyLen).sum
          s.resizeSegmentWidth c t composer offset
        else s
      let query := if meets query kAscii then query ||| kAsIs else query
      (true, s.finishTransliteration c (s.candidateList.moveToAttributes query).2)
  else
    let current := s.candidateList.deepestAttributes
    let common := current &&& query
    let query :=
      if meets common kAscii && (meets query kHalfWidth && meets current kFullWidth
          || meets query kFullWidth && meets current kHalfWidth) then
        query ||| (current &&& (kUpper ||| kLower ||| kCapitalized ||| kAsIs))
      else query
    let list :=
      if meets common kAscii && (meets common kHalfWidth || meets common kFullWidth) then
        cycleAlphaCase query s.candidateList
      else (s.candidateList.moveNextAttributes query).2
    (true, s.finishTransliteration c list)

/-- Half-width katakana where there is kana, else half-width ASCII. -/
def convertToHalfWidth (s : EngineConverter) (composer : Composer) : Bool × EngineConverter :=
  let s := s.cancelPrediction c
  let composition :=
    if s.state = .composition ∨ s.state = .suggestion then composer.preedit
    else (s.getSelectedCandidate s.segmentIndex).value
  if t.containsKana composition then s.convertToTransliteration c t composer .halfKatakana
  else s.convertToTransliteration c t composer .halfAscii

/-- The attributes that `SwitchKanaType` moves to. -/
def nextKanaType (current : Attributes) : Attributes :=
  if meets current kHiragana then kFullWidth ||| kKatakana
  else if meets current kKatakana && meets current kFullWidth then kHalfWidth ||| kKatakana
  else kHiragana

/-- The sum of the lengths of the conversion segments, in the eight bits it is kept in. -/
def kanaOffset (segments : Segments) : UInt8 :=
  segments.conversionSegments.foldl (fun offset segment => offset + UInt8.ofNat segment.keyLen) 0

/-- Hiragana, katakana and half-width katakana take turns. -/
def switchKanaType (s : EngineConverter) (composer : Composer) : Bool × EngineConverter :=
  let s := s.cancelPrediction c
  if s.state = .composition ∨ s.state = .suggestion then
    let (converted, s) := s.convert c t composer
    if converted = false then (false, s)
    else
      -- the whole preedit becomes one segment
      let s :=
        if s.segments.conversionSegmentsSize ≠ 1 then
          let segments := (c.resizeSegments s.segments { composer } 0 [kanaOffset s.segments]).2
          { s with segments }.updateCandidateList t
        else s
      (true, s.finishTransliteration c
        (s.candidateList.moveNextAttributes (kFullWidth ||| kKatakana)).2)
  else
    let attributes := nextKanaType s.candidateList.deepestAttributes
    (true, s.finishTransliteration c (s.candidateList.moveNextAttributes attributes).2)

/-- Suggestions for what is composed. -/
def suggestWithPreferences (s : EngineConverter) (composer : Composer)
    (preferences : ConversionPreferences) : Bool × EngineConverter :=
  let s := s.resetState
  if ¬ preferences.requestSuggestion ∨ composer.password then (false, s)
  else
    let usePartialComposition := composer.cursor ≠ composer.length ∧ composer.cursor ≠ 0
      ∧ s.settings.mixedConversion
    let request : ConversionRequest :=
      { composer
        enableUserHistoryForConversion := preferences.useHistory
        useActualConverterForRealtimeConversion := true
        createPartialCandidates :=
          if usePartialComposition then false else s.settings.autoPartialSuggestion
        requestType :=
          if usePartialComposition then .partialPrediction
          else if s.settings.mixedConversion then .prediction
          else .suggestion }
    let (started, segments) :=
      c.startPrediction request s.segments.clearConversionSegments
    if started = false then
      (false, { s with
        requestType := request.requestType, segments := c.cancelConversion segments })
    else
      let s := { s with
        segments, previousSuggestions := segments.conversionSegment 0
        requestType := .suggestion, segmentIndex := 0, state := .suggestion }
      let s := s.updateCandidateList t
      (true, ({ s with candidateListVisible := true } :
        EngineConverter).initializeSelectedCandidateIndices)

/-- Is there no candidate in a segment? -/
def isEmptySegment (segment : Segment) : Bool :=
  segment.candidates = [] ∧ segment.metaCandidates = []

/-- The end of `PredictWithPreferences`. -/
def startPredicting (s : EngineConverter) (segments : Segments) : EngineConverter :=
  let s := { s with segments, segmentIndex := 0, state := .prediction }
  let s := s.updateCandidateList t
  ({ s with candidateListVisible := true } : EngineConverter).initializeSelectedCandidateIndices

/-- Predictions for the preedit; the suggestions that were shown come first. -/
def predictWithPreferences (s : EngineConverter) (composer : Composer)
    (preferences : ConversionPreferences) : Bool × EngineConverter :=
  let s := { s.resetResult with requestType := .prediction }
  let request : ConversionRequest :=
    { composer, requestType := .prediction
      enableUserHistoryForConversion := preferences.useHistory
      useActualConverterForRealtimeConversion := true }
  let predictFirst := s.state ≠ .prediction ∧ isEmptySegment s.previousSuggestions
  let predictExpand := s.state = .prediction ∧ ¬ isEmptySegment s.previousSuggestions
    ∧ 0 < s.candidateList.size ∧ s.candidateList.focused
    ∧ s.candidateList.focusedIndex = s.candidateList.lastIndex
  let segments := s.segments.clearConversionSegments
  if predictExpand ∨ predictFirst then
    let (started, segments) :=
      c.startPredictionWithPreviousSuggestion request s.previousSuggestions segments
    if started = false ∧ predictFirst then
      (false, ({ s with segments } : EngineConverter).resetState)
    else (true, s.startPredicting t segments)
  else (true, s.startPredicting t (c.prependCandidates request s.previousSuggestions segments))

/-- `Predict`. -/
def predict (s : EngineConverter) (composer : Composer) : Bool × EngineConverter :=
  s.predictWithPreferences c t composer s.conversionPreferences

/-- At the end of the list, more predictions are asked for. -/
def maybeExpandPrediction (s : EngineConverter) (composer : Composer) : EngineConverter :=
  if s.state ≠ .prediction ∨ isEmptySegment s.previousSuggestions ∨ ¬ s.candidateList.focused
      ∨ s.candidateList.focusedIndex ≠ s.candidateList.lastIndex then s
  else
    let previousIndex := s.candidateList.focusedIndex
    let (predicted, s) := s.resetResult.predict c t composer
    if predicted = false then s
    else
      let id := (s.candidateList.candidates.getD previousIndex {}).id
      ({ s with candidateList := (s.candidateList.moveToId id).2 } :
        EngineConverter).updateSelectedCandidateIndex

end

end EngineConverter

namespace EngineConverter

section

variable (c : ConverterInterface) (t : Toolbox)

/-- The loop of `Commit` over the segments. -/
def commitSegmentValues (s : EngineConverter) : EngineConverter :=
  (List.range s.segments.conversionSegmentsSize).foldl (fun s i =>
    { s with
      segments := (c.commitSegmentValue s.segments i (s.getCandidateIndexForConverter i)).2 }) s

/-- All segments are committed. -/
def commit (s : EngineConverter) (composer : Composer) : Option EngineConverter := do
  let s := s.resetResult
  let (updated, s) := s.updateResult s.segments.conversionSegmentsSize
  if updated = false then return (s.cancel c).resetState
  let s := s.commitSegmentValues c
  let s ← s.commitSegmentsSizeOfState s.state
  return ({ s with segments := c.finishConversion { composer } s.segments } :
    EngineConverter).resetState

/-- `CommitSuggestionInternal`; the size of the consumed key is only returned. -/
def commitSuggestionInternal (s : EngineConverter) (composer : Composer) :
    Option (Bool × EngineConverter) := do
  let s := s.resetResult
  let consumedKeySize := s.getConsumedPreeditSize s.segments.conversionSegmentsSize
  let (updated, s) := s.updateResult s.segments.conversionSegmentsSize
  if updated = false then return (false, s.resetState)
  let id := s.getCandidateIndexForConverter 0
  if s.settings.zeroQuerySuggestion ∧ consumedKeySize < composer.length then
    let current := String.ofList (composer.preedit.toList.take consumedKeySize)
    let new := String.ofList (composer.preedit.toList.drop consumedKeySize)
    let (committed, segments) :=
      c.commitPartialSuggestionSegmentValue s.segments 0 id current new
    let s := { s with segments }
    if committed = false then return (false, s)
    let s ← s.commitSegmentsSizeOfState .suggestion
    return (true, s.initializeSelectedCandidateIndices)
  else
    let (committed, segments) := c.commitSegmentValue s.segments 0 id
    let s := { s with segments }
    if committed = false then return (false, s)
    let s ← s.commitSegmentsSizeOfState .suggestion
    return (true, ({ s with segments := c.finishConversion { composer } s.segments } :
      EngineConverter).resetState)

/-- A suggestion is committed by its place on the page. -/
def commitSuggestionByIndex (s : EngineConverter) (index : Nat) (composer : Composer) :
    Option (Bool × EngineConverter) :=
  if s.candidateList.size ≤ index then some (false, s)
  else
    ({ s with candidateList := (s.candidateList.moveToPageIndex index).2 } :
      EngineConverter).updateSelectedCandidateIndex.commitSuggestionInternal c composer

/-- A suggestion is committed by its id. -/
def commitSuggestionById (s : EngineConverter) (id : Int) (composer : Composer) :
    Option (Bool × EngineConverter) :=
  let (moved, list) := s.candidateList.moveToId id
  let s := { s with candidateList := list }
  if moved = false then some (false, s)
  else s.updateSelectedCandidateIndex.commitSuggestionInternal c composer

/-- The first segments are committed, the others stay. -/
def commitSegmentsInternal (s : EngineConverter) (composer : Composer)
    (segmentsToCommit : Nat) : Option EngineConverter := do
  let s := { s.resetResult with candidateListVisible := false }
  if s.segments.conversionSegmentsSize ≤ segmentsToCommit then s.commit c composer
  else
    let (updated, s) := s.updateResult segmentsToCommit
    if updated = false then return (s.cancel c).resetState
    let candidateIds := (List.range segmentsToCommit).map s.getCandidateIndexForConverter
    let s := { s with segments := (c.commitSegments s.segments candidateIds).2 }
    let s ← s.commitSegmentsSize segmentsToCommit
    let segmentIndex :=
      if segmentsToCommit < s.segmentIndex then s.segmentIndex - segmentsToCommit else 0
    return ({ s with segmentIndex } : EngineConverter).updateCandidateList t

/-- The segments up to the focused one are committed. -/
def commitHeadToFocusedSegments (s : EngineConverter) (composer : Composer) :
    Option EngineConverter :=
  s.commitSegmentsInternal c t composer (s.segmentIndex + 1)

/-- The first segment is committed. -/
def commitFirstSegment (s : EngineConverter) (composer : Composer) : Option EngineConverter :=
  s.commitSegmentsInternal c t composer 1

/-- `InitRerankedPreeditCommitSegmentsWithSegmentKeys`, with what it checks. -/
def rerankedSegments (key value : String) (segmentKeys : List String) : Option Segments :=
  if segmentKeys = [] ∨ "" ∈ segmentKeys ∨ String.join segmentKeys ≠ key
      ∨ String.join segmentKeys ≠ value then none
  else some (segmentKeys.map fun key =>
    { segmentType := .fixedValue, key
      candidates := [{ key, value := key, contentKey := key, contentValue := key
                       reranked := true }] })

/-- The only candidate of an only segment is marked as reranked. -/
def markReranked (segments : Segments) : Segments :=
  if segments.conversionSegmentsSize = 1
      ∧ (segments.conversionSegment 0).candidates.length = 1 then
    segments.modify (segments.clearConversionSegments.length) fun segment =>
      { segment with
        candidates := segment.candidates.map fun candidate => { candidate with reranked := true } }
  else segments

/-- What is composed is committed as it is. -/
def commitPreedit (s : EngineConverter) (composer : Composer) (markPreeditAsReranked : Bool)
    (segmentKeys : List String) : Option EngineConverter := do
  let normalized := t.normalizeText composer.submission
  let s := { s with result := some (composer.submission, composer.submission) }
  let fallback := s.segments.initForCommit composer.query normalized
  let segments :=
    match markPreeditAsReranked, rerankedSegments composer.query normalized segmentKeys with
    | true, some segments => s.segments.clearConversionSegments ++ segments
    | _, _ => fallback
  let segments := if markPreeditAsReranked then markReranked segments else segments
  let s ← ({ s with segments } : EngineConverter).commitSegmentsSizeOfState .composition
  return ({ s with
    requestType := .conversion, segments := c.finishConversion { composer } s.segments } :
      EngineConverter).resetState

/-- Another segment gets the focus. -/
def segmentFocusInternal (s : EngineConverter) (index : Nat) : EngineConverter :=
  let s := { s with candidateListVisible := false }
  if s.state = .prediction then s
  else
    let s := s.resetResult
    if s.segmentIndex = index then s
    else ({ s.segmentFix c with segmentIndex := index } : EngineConverter).updateCandidateList t

/-- `SegmentFocusLeftEdge`. -/
def segmentFocusLeftEdge (s : EngineConverter) : EngineConverter := s.segmentFocusInternal c t 0

/-- `SegmentFocusLast`. -/
def segmentFocusLast (s : EngineConverter) : EngineConverter :=
  s.segmentFocusInternal c t (s.segments.conversionSegmentsSize - 1)

/-- `SegmentFocusRight`; it wraps around. -/
def segmentFocusRight (s : EngineConverter) : EngineConverter :=
  if s.segments.conversionSegmentsSize ≤ s.segmentIndex + 1 then s.segmentFocusLeftEdge c t
  else s.segmentFocusInternal c t (s.segmentIndex + 1)

/-- `SegmentFocusLeft`; it wraps around. -/
def segmentFocusLeft (s : EngineConverter) : EngineConverter :=
  if s.segmentIndex = 0 then s.segmentFocusLast c t
  else s.segmentFocusInternal c t (s.segmentIndex - 1)

/-- What the candidate moves have in common. -/
def moveCandidate (s : EngineConverter) (list : CandidateList) (visible : Bool) :
    EngineConverter :=
  ({ s with candidateList := list, candidateListVisible := visible } :
    EngineConverter).updateSelectedCandidateIndex.segmentFocus c

/-- The next candidate, where the predictions may be asked for first. -/
def candidateNext (s : EngineConverter) (composer : Composer) : EngineConverter :=
  let s := s.resetResult.maybeExpandPrediction c t composer
  s.moveCandidate c s.candidateList.moveNext.2 true

/-- `CandidateNextPage`. -/
def candidateNextPage (s : EngineConverter) : EngineConverter :=
  s.resetResult.moveCandidate c s.candidateList.moveNextPage.2 true

/-- `CandidatePrev`. -/
def candidatePrev (s : EngineConverter) : EngineConverter :=
  s.resetResult.moveCandidate c s.candidateList.movePrev.2 true

/-- `CandidatePrevPage`. -/
def candidatePrevPage (s : EngineConverter) : EngineConverter :=
  s.resetResult.moveCandidate c s.candidateList.movePrevPage.2 true

/-- The candidate of an id gets the focus. -/
def candidateMoveToId (s : EngineConverter) (id : Int) (composer : Composer) : EngineConverter :=
  let s := s.resetResult
  let s := if s.state = .suggestion then (s.predict c t composer).2 else s
  s.moveCandidate c (s.candidateList.moveToId id).2 false

/-- The candidate at a place of the page gets the focus. -/
def candidateMoveToPageIndex (s : EngineConverter) (index : Nat) : EngineConverter :=
  s.resetResult.moveCandidate c (s.candidateList.moveToPageIndex index).2 false

/-- The candidate of a shortcut gets the focus. -/
def candidateMoveToShortcut (s : EngineConverter) (shortcut : Char) : Bool × EngineConverter :=
  if ¬ s.candidateListVisible then (false, s)
  else
    match s.settings.selectionShortcut.findIdx? fun key => key = shortcut with
    | none => (false, s)
    | some index =>
      let (moved, list) := s.candidateList.moveToPageIndex index
      let s := { s with candidateList := list }
      if moved = false then (false, s)
      else (true, s.updateSelectedCandidateIndex.resetResult.segmentFocus c)

/-- The window is shown or hidden. -/
def setCandidateListVisible (s : EngineConverter) (visible : Bool) : EngineConverter :=
  { s with candidateListVisible := visible }

/-- `PopOutput`; what is shown is not part of the state. -/
def popOutput (s : EngineConverter) : EngineConverter :=
  { s with updatedCommand := .defaultCommand, result := none }

end

end EngineConverter

/-! ## Runs -/

/-- The calls of an engine converter. -/
inductive Operation where
  | suggest (composer : Composer) (preferences : ConversionPreferences)
  | predict (composer : Composer) (preferences : ConversionPreferences)
  | convert (composer : Composer) (preferences : ConversionPreferences)
  | convertToTransliteration (composer : Composer) (type : TransliterationType)
  | convertToHalfWidth (composer : Composer)
  | switchKanaType (composer : Composer)
  | cancel
  | reset
  | commit (composer : Composer)
  | commitSuggestionByIndex (index : Nat) (composer : Composer)
  | commitSuggestionById (id : Int) (composer : Composer)
  | commitHeadToFocusedSegments (composer : Composer)
  | commitFirstSegment (composer : Composer)
  | commitPreedit (composer : Composer) (markPreeditAsReranked : Bool)
      (segmentKeys : List String)
  | segmentFocusRight
  | segmentFocusLast
  | segmentFocusLeft
  | segmentFocusLeftEdge
  | segmentWidthExpand (composer : Composer)
  | segmentWidthShrink (composer : Composer)
  | candidateNext (composer : Composer)
  | candidateNextPage
  | candidatePrev
  | candidatePrevPage
  | candidateMoveToId (id : Int) (composer : Composer)
  | candidateMoveToPageIndex (index : Nat)
  | candidateMoveToShortcut (shortcut : Char)
  | setCandidateListVisible (visible : Bool)
  | popOutput

/-- The states in which a call is made, as its `DCHECK` says. -/
def Operation.allowedIn : Operation → State → Bool
  | .suggest .., state => state = .composition ∨ state = .suggestion
  | .predict .., _ => true
  | .convert .., state => state ≠ .prediction
  | .convertToTransliteration .., _ | .convertToHalfWidth .., _ | .switchKanaType .., _ => true
  | .cancel, state => state ≠ .composition
  | .reset, _ => true
  | .commit .., state => state = .prediction ∨ state = .conversion
  | .commitSuggestionByIndex .., state | .commitSuggestionById .., state => state = .suggestion
  | .commitPreedit .., _ => true
  | .candidateMoveToId .., state => state ≠ .composition
  | .setCandidateListVisible .., _ | .popOutput, _ => true
  | _, state => state = .prediction ∨ state = .conversion

namespace EngineConverter

/-- One call; there is no next state where a `CHECK` fails. -/
def step (t : Toolbox) (c : ConverterInterface) (s : EngineConverter) :
    Operation → Option EngineConverter
  | .suggest composer preferences => some (s.suggestWithPreferences c t composer preferences).2
  | .predict composer preferences => some (s.predictWithPreferences c t composer preferences).2
  | .convert composer preferences => some (s.convertWithPreferences c t composer preferences).2
  | .convertToTransliteration composer type =>
    some (s.convertToTransliteration c t composer type).2
  | .convertToHalfWidth composer => some (s.convertToHalfWidth c t composer).2
  | .switchKanaType composer => some (s.switchKanaType c t composer).2
  | .cancel => some (s.cancel c)
  | .reset => some (s.reset c)
  | .commit composer => s.commit c composer
  | .commitSuggestionByIndex index composer =>
    (s.commitSuggestionByIndex c index composer).map Prod.snd
  | .commitSuggestionById id composer => (s.commitSuggestionById c id composer).map Prod.snd
  | .commitHeadToFocusedSegments composer => s.commitHeadToFocusedSegments c t composer
  | .commitFirstSegment composer => s.commitFirstSegment c t composer
  | .commitPreedit composer markPreeditAsReranked segmentKeys =>
    s.commitPreedit c t composer markPreeditAsReranked segmentKeys
  | .segmentFocusRight => some (s.segmentFocusRight c t)
  | .segmentFocusLast => some (s.segmentFocusLast c t)
  | .segmentFocusLeft => some (s.segmentFocusLeft c t)
  | .segmentFocusLeftEdge => some (s.segmentFocusLeftEdge c t)
  | .segmentWidthExpand composer => some (s.resizeSegmentWidth c t composer 1)
  | .segmentWidthShrink composer => some (s.resizeSegmentWidth c t composer (-1))
  | .candidateNext composer => some (s.candidateNext c t composer)
  | .candidateNextPage => some (s.candidateNextPage c)
  | .candidatePrev => some (s.candidatePrev c)
  | .candidatePrevPage => some (s.candidatePrevPage c)
  | .candidateMoveToId id composer => some (s.candidateMoveToId c t id composer)
  | .candidateMoveToPageIndex index => some (s.candidateMoveToPageIndex c index)
  | .candidateMoveToShortcut shortcut => some (s.candidateMoveToShortcut c shortcut).2
  | .setCandidateListVisible visible => some (s.setCandidateListVisible visible)
  | .popOutput => some s.popOutput

end EngineConverter

/-- A call together with what the converter would answer at that time. -/
structure Call where
  converter : ConverterInterface
  operation : Operation

end MozkeyEngine
