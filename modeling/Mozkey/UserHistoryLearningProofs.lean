import Mozkey.ContextualRerankerProofs
import Mozkey.InnerSegmentProofs
import Mozkey.UndoLogProofs

/-! # UserHistoryPredictor — learning a commit, and forgetting it

    `Finish` inserts the committed text, its segments and their contents, and joined suffixes of
    the preceding segments; it links each entry to the next one, and drops entries that were
    shown often and chosen rarely.  Before an entry is changed it is saved; `Revert` writes back
    what was saved, in the order in which it was saved, and the entry before the commit last. -/

namespace MozkeyHistory

open ByteString MozkeyUtil MozkeyInnerSegment UndoLog
open MozkeyReranker (getScriptType)

/-! ## Entries -/

/-- `UserHistory::Entry`; the frequencies stay below 2^32. -/
structure Entry where
  key : Bytes := []
  value : Bytes := []
  description : Bytes := []
  suggestionFreq : Nat := 0
  conversionFreqDeprecated : Nat := 0
  shownFreq : Nat := 0
  lastAccessTime : Nat := 0
  nextEntriesDeprecated : List UInt32 := []
  nextEntryFps : List UInt64 := []
  removed : Bool := false
  innerSegmentBoundary : List Nat := []
  allowPartialMatch : Bool := false
  attributes : Nat := 0
  deriving DecidableEq, Inhabited

/-- The sizes of the history. -/
def kLruCacheSize : Nat := 10000

/-- `UserHistoryStorage` below its capacity, by fingerprint. -/
abbrev Storage := UInt64 → Option Entry

/-- What the predictor uses of other modules. -/
structure Modules where
  /-- `CityFingerprint`. -/
  cityFingerprint : Bytes → UInt64
  /-- `1.0 * suggestion_freq / shown_freq < kMinSelectedRatio`, in floating point. -/
  belowMinSelectedRatio : Nat → Nat → Bool
  /-- `GetReadingAlignment`: surfaces and readings. -/
  getReadingAlignment : Bytes → Bytes → List (Bytes × Bytes)

/-- `UserHistoryStorage::Fingerprint`. -/
def Modules.fingerprint (m : Modules) (key value : Bytes) : UInt64 :=
  m.cityFingerprint (key ++ ascii "\t" ++ value)

/-- `UserHistoryStorage::Fingerprint`, of an entry. -/
def Modules.entryFingerprint (m : Modules) (entry : Entry) : UInt64 :=
  m.fingerprint entry.key entry.value

/-- The longest strings that are learned. -/
def kMaxStringLength : Nat := 256

/-- How many links an entry holds. -/
def kMaxNextEntriesSize : Nat := 6

/-- `kPrefixZeroSpace`, which is U+200B. -/
def kPrefixZeroSpace : Bytes := [0xE2, 0x80, 0x8B]

/-- `kPunctuations`: 。.、,？?！!，．. -/
def kPunctuations : List Bytes :=
  [[0xE3, 0x80, 0x82], [0x2E], [0xE3, 0x80, 0x81], [0x2C], [0xEF, 0xBC, 0x9F], [0x3F],
    [0xEF, 0xBC, 0x81], [0x21], [0xEF, 0xBC, 0x8C], [0xEF, 0xBC, 0x8E]]

/-- `StartsWithPunctuation`. -/
def startsWithPunctuation (value : Bytes) : Bool :=
  kPunctuations.any fun punctuation => punctuation.isPrefixOf value

/-- `EndsWithPunctuation`. -/
def endsWithPunctuation (value : Bytes) : Bool :=
  kPunctuations.any fun punctuation => punctuation.isSuffixOf value

/-- Is the first character a letter? -/
def startsWithValidLetter (value : Bytes) : Bool :=
  let type := getScriptType ((chars32 value).headD 0)
  type = .kanji ∨ type = .hiragana ∨ type = .katakana ∨ type = .alphabet

/-- `absl::ascii_isspace`. -/
def isAsciiSpace (c : UInt8) : Bool := c = 0x20 ∨ (0x09 ≤ c ∧ c ≤ 0x0D)

/-- `absl::StripTrailingAsciiWhitespace`. -/
def stripTrailingAsciiWhitespace (s : Bytes) : Bytes := s.rdropWhile isAsciiSpace

/-! ## One step -/

/-- `InsertNextEntry`: the latest six links are kept. -/
def insertNextEntry (fp : UInt64) (entry : Entry) : Entry :=
  if fp = 0 then entry
  else
    let nextFps := entry.nextEntryFps.filter (fun next => next ≠ fp) ++ [fp]
    { entry with nextEntryFps := nextFps.drop (nextFps.length - kMaxNextEntriesSize) }

/-- The arguments of `Insert`. -/
structure NewEntry where
  keyBegin : Nat := 0
  valueBegin : Nat := 0
  key : Bytes
  value : Bytes
  description : Bytes := []
  innerSegmentBoundary : List Nat := []
  nextFps : List UInt64 := []
  allowPartialMatch : Bool := false
  lastAccessTime : Nat := 0

/-- The key and the value without trailing spaces. -/
def NewEntry.stripped (new : NewEntry) : NewEntry :=
  { new with
    key := stripTrailingAsciiWhitespace new.key
    value := stripTrailingAsciiWhitespace new.value }

/-- What `Insert` inserts, without its trailing spaces. -/
def NewEntry.accepted (new : NewEntry) : Bool :=
  isValidUtf8 new.key && isValidUtf8 new.value &&
    !(new.key.isEmpty || new.value.isEmpty || kMaxStringLength < new.key.length ||
      kMaxStringLength < new.value.length || kMaxStringLength < new.description.length) &&
    !(startsWithValidLetter new.value && endsWithPunctuation new.value)

/-- What is saved before an insert: the entry, or one that is removed. -/
def NewEntry.save (new : NewEntry) (entry : Option Entry) : Entry :=
  match entry with
  | some entry => entry
  | none => { key := new.key, value := new.value, removed := true }

/-- What an insert makes of an entry. -/
def NewEntry.write (new : NewEntry) (entry : Option Entry) : Entry :=
  let entry := entry.getD {}
  let entry :=
    { entry with
      key := new.key
      value := new.value
      removed := false
      attributes := 0
      allowPartialMatch := entry.allowPartialMatch || new.allowPartialMatch
      description := new.description
      innerSegmentBoundary :=
        if new.innerSegmentBoundary.isEmpty then entry.innerSegmentBoundary
        else new.innerSegmentBoundary
      lastAccessTime := new.lastAccessTime
      suggestionFreq := entry.suggestionFreq + 1 }
  new.nextFps.foldl (fun entry fp => insertNextEntry fp entry) entry

/-- A step at an entry; it notes `key_begin` and `value_begin` of what it saves. -/
abbrev HistoryStep := Step UInt64 (Nat × Nat) Entry

/-- The step of an insert, without its trailing spaces. -/
def insertStep (m : Modules) (new : NewEntry) : HistoryStep where
  key := m.fingerprint new.key new.value
  note := (new.keyBegin, new.valueBegin)
  save entry := some (new.save entry)
  update entry := some (new.write entry)

/-- The inserts that are accepted, without trailing spaces. -/
def acceptedInserts (news : List NewEntry) : List NewEntry :=
  (news.map NewEntry.stripped).filter NewEntry.accepted

/-- Calls of `Insert`. -/
def insertSteps (m : Modules) (news : List NewEntry) : List HistoryStep :=
  (acceptedInserts news).map (insertStep m)

/-- `InsertNextEntry`, of the entry at a fingerprint. -/
def linkStep (fp next : UInt64) : HistoryStep where
  key := fp
  note := (0, 0)
  save _ := none
  update entry := entry.map (insertNextEntry next)

/-! ## Segments -/

/-- `SegmentForLearning`. -/
structure Segment where
  keyBegin : Nat := 0
  valueBegin : Nat := 0
  key : Bytes
  value : Bytes
  contentKey : Bytes
  contentValue : Bytes
  description : Bytes := []

/-- `SegmentsForLearning`. -/
structure Segments where
  conversionSegmentsKey : Bytes
  conversionSegmentsValue : Bytes
  innerSegmentBoundary : List Nat
  historySegments : List Segment
  conversionSegments : List Segment
  hasSpacePrefix : Bool
  allowPartialMatch : Bool

/-- `Result`, as far as it is learned. -/
structure Result where
  key : Bytes
  value : Bytes
  innerSegmentBoundary : List Nat := []
  /-- `GetDescription`. -/
  description : Bytes := []
  noSuggestLearning : Bool := false
  /-- `IsProperNoun`. -/
  isProperNoun : Bool := false

/-- `LearningSegmentFingerprint`. -/
def learningSegmentFingerprint (m : Modules) (segment : Segment) : UInt64 :=
  m.fingerprint segment.key segment.value

/-- `LearningSegmentFingerprints`. -/
def learningSegmentFingerprints (m : Modules) (segment : Segment) : List UInt64 :=
  m.fingerprint segment.key segment.value ::
    if segment.key ≠ segment.contentKey then
      [m.fingerprint segment.contentKey segment.contentValue]
    else []

/-- `MakeLearningSegments`. -/
def makeLearningSegments (result : Result) : List Segment :=
  let start : IteratorData := ⟨result.key, result.value, result.innerSegmentBoundary⟩
  let isSingleSegment : Bool := (InnerSegments.mk start).size ≤ 1
  start.visits.map fun d =>
    { keyBegin := result.key.length - d.key.length
      valueBegin := result.value.length - d.value.length
      key := d.getKey
      value := d.getValue
      contentKey := d.getContentKey
      contentValue := d.getContentValue
      description := if isSingleSegment then result.description else [] }

/-! ## A commit -/

/-- The request of a commit; `head` and `headNext` are the newest entries of the storage. -/
structure Request where
  incognitoMode : Bool := false
  defaultHistory : Bool := true
  useHistorySuggest : Bool := true
  /-- `IsSyncerInCriticalSection`. -/
  syncerInCriticalSection : Bool := false
  precedingText : Bytes := []
  historyResult : Result := { key := [], value := [] }
  head : Option Entry := none
  headNext : Option Entry := none
  /-- `IsPrivacySensitive`, of the results. -/
  privacySensitive : Bool := false
  /-- `absl::ToUnixSeconds(Clock::GetAbslTime())`. -/
  lastAccessTime : Nat

/-- `get_space_prefix`: half or full width. -/
def spacePrefix (precedingText : Bytes) : Bytes :=
  if [0x20].isSuffixOf precedingText then [0x20]
  else if [0xE3, 0x80, 0x80].isSuffixOf precedingText then [0xE3, 0x80, 0x80]
  else []

/-- The history segments, and whether a space precedes. -/
def makeHistoryLearningSegments (request : Request) : List Segment × Bool :=
  let segments := makeLearningSegments request.historyResult
  let space := spacePrefix request.precedingText
  if ¬ segments.isEmpty ∨ space.isEmpty then (segments, !space.isEmpty)
  else
    let precedingText := request.precedingText.take (request.precedingText.length - space.length)
    match request.head with
    | none => (segments, false)
    | some head =>
      if ¬ head.value.isSuffixOf precedingText then (segments, false)
      else if request.headNext.any fun next => next.value.isPrefixOf head.value then
        (segments, false)
      else
        (segments ++
          [{ key := head.key, value := head.value, contentKey := head.key
             contentValue := head.value }], true)

/-- `MakeLearningSegments`, for the first result. -/
def makeSegments (request : Request) (result : Result) : Segments :=
  let history := makeHistoryLearningSegments request
  { conversionSegmentsKey := result.key
    conversionSegmentsValue := result.value
    innerSegmentBoundary := result.innerSegmentBoundary
    historySegments := history.1
    conversionSegments := makeLearningSegments result
    hasSpacePrefix := history.2
    allowPartialMatch := result.isProperNoun }

/-- The loop of `InsertHistoryForConversionSegments`: the calls of `Insert` from segment `i` on.
    Of two segments of the same successors only the first one is linked. -/
def segmentInserts (m : Modules) (allowPartialMatch : Bool) (lastAccessTime : Nat) :
    Nat → List (List UInt64) → Bool → List Segment → List NewEntry
  | _, _, _, [] => []
  | i, seen, thisWasSeen, segment :: rest =>
    let nextFps := (rest.head?.map (learningSegmentFingerprints m)).getD []
    let seen := if i = 0 then learningSegmentFingerprints m segment :: seen else seen
    let nextWasSeen : Bool := nextFps ∈ seen
    let hasContentKv : Bool :=
      segment.contentKey ≠ segment.key ∧ segment.contentValue ≠ segment.value
    let content : List NewEntry :=
      if hasContentKv then
        [{ keyBegin := segment.keyBegin, valueBegin := segment.valueBegin
           key := segment.contentKey, value := segment.contentValue
           description := segment.description
           allowPartialMatch := i = 0 ∧ allowPartialMatch
           lastAccessTime := lastAccessTime }]
      else []
    let whole : NewEntry :=
      { keyBegin := segment.keyBegin, valueBegin := segment.valueBegin
        key := segment.key, value := segment.value
        description := segment.description
        innerSegmentBoundary :=
          if hasContentKv then
            buildBoundary [⟨segment.key.length, segment.value.length, segment.contentKey.length,
              segment.contentValue.length⟩] segment.key segment.value
          else []
        nextFps := if thisWasSeen ∨ nextWasSeen then [] else nextFps
        allowPartialMatch := i = 0 ∧ allowPartialMatch ∧ ¬ hasContentKv
        lastAccessTime := lastAccessTime }
    content ++ whole ::
      segmentInserts m allowPartialMatch lastAccessTime (i + 1) (nextFps :: seen) nextWasSeen rest

/-- The calls of `Insert` in `InsertHistoryForConversionSegments`. -/
def conversionInserts (m : Modules) (lastAccessTime : Nat) (segments : Segments) : List NewEntry :=
  let whole : List NewEntry :=
    if 1 < segments.conversionSegments.length then
      [{ key := segments.conversionSegmentsKey, value := segments.conversionSegmentsValue
         innerSegmentBoundary := segments.innerSegmentBoundary
         lastAccessTime := lastAccessTime }]
    else []
  whole ++
    segmentInserts m segments.allowPartialMatch lastAccessTime 0 [] false
      segments.conversionSegments

/-- The segments that a link joins, where there is to be one. -/
def linkedSegments (segments : Segments) : Option (Segment × Segment) :=
  match segments.historySegments.getLast?, segments.conversionSegments.head? with
  | some history, some conversion =>
    if history.value.isEmpty ∨ conversion.value.isEmpty then none
    else if endsWithPunctuation history.value then none
    else if 1 < charsLen conversion.value ∧ startsWithPunctuation conversion.value then none
    else if segments.hasSpacePrefix ∧
        (startsWithPunctuation conversion.value ∨ endsWithPunctuation history.value) then none
    else some (history, conversion)
  | _, _ => none

/-- The word behind a space: it is inserted with a zero-width space before it. -/
def spacedWord (lastAccessTime : Nat) (segments : Segments) (conversion : Segment) :
    Option NewEntry :=
  if segments.hasSpacePrefix ∧ conversion.key = conversion.contentKey ∧
      conversion.value = conversion.contentValue then
    -- the time is passed as the flag, and the flag as the time
    some
      { key := kPrefixZeroSpace ++ conversion.key, value := kPrefixZeroSpace ++ conversion.value
        allowPartialMatch := lastAccessTime ≠ 0 }
  else none

/-- What the entry before the commit is linked to. -/
def linkTargets (m : Modules) (lastAccessTime : Nat) (segments : Segments) (conversion : Segment) :
    List UInt64 :=
  if segments.hasSpacePrefix then
    (spacedWord lastAccessTime segments conversion).toList.map fun new =>
      m.fingerprint new.key new.value
  else learningSegmentFingerprints m conversion

/-- The inserts of joined suffixes of the preceding segments, by their sizes. -/
def contextInserts (m : Modules) (lastAccessTime : Nat) (history : List Segment)
    (conversion : Segment) : List NewEntry :=
  ((List.range' 2 2).filter fun size => size ≤ history.length).map fun size =>
    let context := history.drop (history.length - size)
    { key := (context.map Segment.key).flatten, value := (context.map Segment.value).flatten
      nextFps := learningSegmentFingerprints m conversion, lastAccessTime := lastAccessTime }

/-- The inserts of `InsertHistoryForHistorySegments`. -/
def historyInserts (m : Modules) (lastAccessTime : Nat) (segments : Segments)
    (conversion : Segment) : List NewEntry :=
  (spacedWord lastAccessTime segments conversion).toList ++
    contextInserts m lastAccessTime segments.historySegments conversion

/-- `InsertHistoryForHistorySegments` from the lookup of the entry before the commit on. -/
def historySteps (m : Modules) (lastAccessTime : Nat) (segments : Segments) (fp : UInt64)
    (conversion : Segment) : List HistoryStep :=
  insertSteps m (spacedWord lastAccessTime segments conversion).toList ++
    ((linkTargets m lastAccessTime segments conversion).map (linkStep fp) ++
      insertSteps m (contextInserts m lastAccessTime segments.historySegments conversion))

/-- How many history segments are linked. -/
def kMaxHistorySize : Nat := 5

/-- An entry that was shown once more. -/
def shown (entry : Entry) : Entry := { entry with shownFreq := entry.shownFreq + 1 }

/-- It was chosen too rarely. -/
def unselected (m : Modules) (entry : Entry) : Bool :=
  m.belowMinSelectedRatio (shown entry).suggestionFreq (shown entry).shownFreq

/-- What is left of it then. -/
def dropped (entry : Entry) : Entry :=
  { entry with suggestionFreq := 0, shownFreq := 0, removed := true }

/-- A round of `MaybeRemoveUnselectedHistory`. -/
def showStep (m : Modules) (result : Result) : HistoryStep where
  key := m.fingerprint result.key result.value
  note := (0, 0)
  save entry := entry.filter fun entry => unselected m entry
  update entry :=
    entry.map fun entry => if unselected m entry then dropped (shown entry) else shown entry

/-- `MaybeRemoveUnselectedHistory`. -/
def showSteps (m : Modules) (results : List Result) : List HistoryStep :=
  (results.take kMaxHistorySize).map (showStep m)

/-- `RevertEntries`; an entry stands beside its `key_begin` and `value_begin`. -/
structure RevertEntries where
  result : Result
  historyEntry : Option Entry
  entries : List ((Nat × Nat) × Entry)

/-- The conditions under which `Finish` learns. -/
def learns (request : Request) (result : Result) : Bool :=
  !request.incognitoMode && request.defaultHistory && request.useHistorySuggest &&
    !request.syncerInCriticalSection && !result.noSuggestLearning && !request.privacySensitive

/-- The steps of `InsertHistoryForConversionSegments`. -/
def conversionSteps (m : Modules) (request : Request) (result : Result) : List HistoryStep :=
  insertSteps m (conversionInserts m request.lastAccessTime (makeSegments request result))

/-- The entry before the commit that is linked, and the segment it is linked to. -/
def linkedEntry (m : Modules) (request : Request) (result : Result) (storage : Storage) :
    Option (UInt64 × Segment) :=
  (linkedSegments (makeSegments request result)).bind fun linked =>
    let fp := learningSegmentFingerprint m linked.1
    (run (conversionSteps m request result) storage fp).map fun _ => (fp, linked.2)

/-- The steps of `Finish`, one after the other. -/
def commitSteps (m : Modules) (request : Request) (result : Result) (rest : List Result)
    (storage : Storage) : List HistoryStep :=
  conversionSteps m request result ++
    ((linkedEntry m request result storage).elim [] fun linked =>
      historySteps m request.lastAccessTime (makeSegments request result) linked.1 linked.2) ++
    showSteps m (result :: rest)

/-- `Finish`, with what it puts into the revert cache. -/
def finish (m : Modules) (request : Request) (results : List Result) (storage : Storage) :
    Storage × Option RevertEntries :=
  match results with
  | [] => (storage, none)
  | result :: rest =>
    if ¬ learns request result then (storage, none)
    else
      let steps := commitSteps m request result rest storage
      let historyEntry := (linkedEntry m request result storage).bind fun linked =>
        run (conversionSteps m request result) storage linked.1
      (run steps storage,
        if (log steps storage).isEmpty then none
        else some ⟨result, historyEntry, log steps storage⟩)

/-! ## Forgetting it -/

/-- One saved entry is written back; the one after the commit is kept. -/
def revertEntry (m : Modules) (r : Storage × List ((Nat × Nat) × Entry))
    (saved : (Nat × Nat) × Entry) : Storage × List ((Nat × Nat) × Entry) :=
  let fp := m.entryFingerprint saved.2
  match r.1 fp with
  | none => r
  | some committed => (Function.update r.1 fp (some saved.2), r.2 ++ [(saved.1, committed)])

/-- `Revert` while no syncer is in its critical section, with `last_committed_entries_`. -/
def revert (m : Modules) (reverts : RevertEntries) (storage : Storage) :
    Storage × RevertEntries :=
  let r := reverts.entries.foldl (revertEntry m) (storage, [])
  match reverts.historyEntry with
  | none => (r.1, ⟨reverts.result, none, r.2⟩)
  | some history =>
    match r.1 (m.entryFingerprint history) with
    | none => (r.1, ⟨reverts.result, none, r.2⟩)
    | some committed =>
      (Function.update r.1 (m.entryFingerprint history) (some history),
        ⟨reverts.result, some committed, r.2⟩)

end MozkeyHistory
