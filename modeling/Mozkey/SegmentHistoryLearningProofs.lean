import Mozkey.BoundaryHistoryProofs
import Mozkey.InnerSegmentProofs
import Mozkey.SegmentHistoryForgettingProofs

/-! # UserSegmentHistoryRewriter — what a commit learns

    A commit goes through the fixed segments, or through the inner segments of their candidates.
    For each, the features of the whole candidate, of its content and of a closing bracket are
    inserted; by force if the candidate was reranked, else only where they are already stored.
    What is inserted does not depend on the storage: a commit is a list of calls. -/

namespace MozkeySegmentHistory

open ByteString MozkeyUtil
open MozkeyReranker (ScriptType ja)
open MozkeyConverter (SegmentType)
open MozkeyInnerSegment (InnerSegments IteratorData)
open MozkeyLru (LruStorage Slot Linked Deleted Inserted readValue)

/-! ## Requests -/

/-- `ConversionRequest::RequestType`. -/
inductive RequestType where
  | conversion | reverseConversion | prediction | suggestion | partialPrediction
  | partialSuggestion
  deriving DecidableEq

/-- `ConversionRequest`, as far as the rewriter reads it. -/
structure ConversionRequest extends MozkeyRewriter.LearningOptions where
  requestType : RequestType
  key : Bytes
  precedingText : Bytes
  useSymbolChoiceLearning : Bool
  usePunctuationChoiceLearning : Bool
  kanaModifierInsensitiveConversion : Bool

/-- The bit by which a request disables this rewriter. -/
def kDisableUserSegmentHistory : Nat := 1

/-- `IsAvailable`. -/
def isAvailable (request : ConversionRequest) (segments : Segments) : Bool :=
  !request.incognitoMode && request.enableUserHistoryForConversion &&
    segments.segments.all (·.candidates ≠ []) &&
    !request.disableLegacyRewriter kDisableUserSegmentHistory

/-! ## Kinds of segments -/

/-- `IsAsciiAlphaNumericKey`. -/
def isAsciiAlphaNumericKey : Bytes → Bool
  | [c] => (chr '0' ≤ c && c ≤ chr '9') || (chr 'A' ≤ c && c ≤ chr 'Z') ||
      (chr 'a' ≤ c && c ≤ chr 'z')
  | _ => false

/-- `IsPunctuationForSymbolChoice`, which is `IsPunctuationInternal`. -/
def isPunctuationForSymbolChoice (value : Bytes) : Bool :=
  value ∈ [ja "。", ja "｡", ja "、", ja "､", ja "，", ja ",", ja "．", ja "."]

/-- `Util::IsKanaSymbolContained`. -/
def isKanaSymbolContained (input : Bytes) : Bool :=
  (chars32 input).any (· ∈ [0x3002, 0x300C, 0x300D, 0x3001, 0x30FB, 0x30FC, 0x3099, 0x309A,
    0xFF61, 0xFF62, 0xFF63, 0xFF64, 0xFF65, 0xFF70, 0xFF9E, 0xFF9F])

/-- `IsSymbolKeySegment`. -/
def isSymbolKeySegment (segment : Segment) : Bool :=
  if charsLen segment.key ≠ 1 ∨ isAsciiAlphaNumericKey segment.key then false
  else
    let scriptType := getScriptType segment.key
    if scriptType = .number ∨ scriptType = .alphabet then false
    else scriptType = .unknownScript || isKanaSymbolContained segment.key

/-- `IsExplicitSymbolKeyVariantChoice`. -/
def isExplicitSymbolKeyVariantChoice (segment : Segment) : Bool :=
  match segment.candidates with
  | [] => false
  | candidate :: _ =>
    isSymbolKeySegment segment && candidate.has kReranked && candidate.value ≠ segment.key

/-- `IsNumberSegment`. -/
def isNumberSegment (segment : Segment) : Bool :=
  segment.key ≠ [] && segment.key.all fun c => chr '0' ≤ c && c ≤ chr '9'

/-- `IsPunctuation`. -/
def isPunctuation (pos : Pos) (segment : Segment) (candidate : Candidate) : Bool :=
  pos.isJapanesePunctuations candidate.lid && candidate.lid = candidate.rid &&
    isPunctuationForSymbolChoice segment.key && isPunctuationForSymbolChoice candidate.value

/-! ## Calls -/

/-- A call that writes to the storage: `Insert` of a feature, or the insertion of a
    `KeyTriggerValue`. -/
inductive Call where
  | insert (key value : Bytes) (valueBegin valueEnd : Nat) (force : Bool)
  | insertTrigger (key : Bytes) (candidatesSize : Nat)

/-- `NUMBER_SEPARATED_ARABIC_HALFWIDTH` and `NUMBER_SEPARATED_ARABIC_FULLWIDTH`. -/
def isSeparatedArabic (style : Nat) : Bool := style = 1 ∨ style = 2

/-- `RememberNumberPreference`, as calls: in front of a separated style the default one. -/
def rememberNumberPreference (candidate : Candidate) : List Call :=
  let call style :=
    Call.insert (FeatureKey.number style) candidate.value 0 candidate.value.length true
  if isSeparatedArabic candidate.style then [call 0, call candidate.style]
  else [call candidate.style]

section

variable (pos : Pos) (segments : Segments) (segmentIndex : Nat)

/-- `Insert` of features of a key and a value. -/
def insertFeatures (key value : Bytes) (valueBegin valueEnd : Nat) (force : Bool)
    (features : List Feature) : Option (List Call) :=
  features.mapM fun feature => do
    let key ← featureKey segments pos segmentIndex key value feature
    some (.insert key value valueBegin valueEnd force)

/-- The features that are learned besides `Current`. -/
def learnedFeatures : List Feature :=
  [.leftRight, .leftLeft, .rightRight, .left, .right, .leftNumber, .rightNumber, .single]

/-- `RememberFirstCandidate`, as calls. -/
def rememberFirstCandidate (valueBegin valueEnd : Nat) (allowPunctuation : Bool) :
    Option (List Call) := do
  let segment ← segments.segments[segmentIndex]?
  let candidate ← segment.candidate 0
  if isPunctuation pos segment candidate && !allowPunctuation then some []
  else
    let contextSensitive := segments.resized || candidate.has kContextSensitive
    let forceInsert := candidate.has kReranked
    let topIndex := getDefaultCandidateIndex segment
    let top ← segment.candidate topIndex
    let isReplaceableWithTop := topIndex = 0 || replaceable pos top candidate
    let current (learned : Bool) : List Feature := if learned then [.current] else []
    let all ← insertFeatures pos segments segmentIndex segment.key candidate.value valueBegin
      valueEnd forceInsert (learnedFeatures ++ current (!contextSensitive && isReplaceableWithTop))
    -- the content is saved separately
    let content ←
      if candidate.value ≠ candidate.contentValue ∧ segment.key ≠ candidate.contentKey ∧
          isReplaceableWithTop then
        insertFeatures pos segments segmentIndex candidate.contentKey candidate.contentValue
          valueBegin (valueBegin + candidate.contentValue.length) forceInsert
          (learnedFeatures ++ current (!contextSensitive))
      else some []
    -- the closing bracket is learned with the opening one
    let closeBracket ←
      match isOpenBracket candidate.contentKey, isOpenBracket candidate.contentValue with
      | some closeBracketKey, some closeBracketValue =>
        insertFeatures pos segments segmentIndex closeBracketKey closeBracketValue valueBegin
          (valueBegin + closeBracketValue.length) forceInsert
          ([.single] ++ current (!contextSensitive))
      | _, _ => some []
    some (all ++ content ++ closeBracket)

end

/-- `InsertTriggerKey`, as calls. -/
def insertTriggerKey (segment : Segment) (candidate : Candidate) : List Call :=
  if !candidate.has kReranked then []
  else
    let call key := Call.insertTrigger key (min segment.candidates.length 255)
    [call segment.key] ++
      (if segment.key ≠ candidate.contentKey then [call candidate.contentKey] else []) ++
      ((isOpenBracket segment.key).map call).toList

/-! ## The segments of a commit -/

section

variable (innerSegmentBoundary : Candidate → List Nat)

/-- The segments for learning of one segment. -/
def makeLearningSegment (segment : Segment) : Option (List Segment) := do
  let candidate ← segment.candidate 0
  if innerSegmentBoundary candidate = [] then some [segment]
  else
    let inner : InnerSegments := ⟨⟨candidate.key, candidate.value, innerSegmentBoundary candidate⟩⟩
    some (inner.visits.mapIdx fun index iter =>
      let posId := if index = 0 then candidate.lid
        else if index = inner.size - 1 then candidate.rid else 0
      { segmentType := segment.segmentType
        key := iter.getKey
        candidates := [{
          id := candidate.id
          key := iter.getKey
          value := iter.getValue
          contentKey := iter.getContentKey
          contentValue := iter.getContentValue
          description := []
          lid := posId
          rid := posId
          attributes := candidate.attributes
          style := 0 }]
        metaCandidates := [] })

/-- `MakeLearningSegmentsFromInnerSegments`. -/
def makeLearningSegmentsFromInnerSegments (segments : Segments) : Option Segments := do
  let inner ← segments.segments.mapM (makeLearningSegment innerSegmentBoundary)
  some ⟨inner.flatten, false, 0⟩

/-- A round of the loop of `Finish`: `committed_value`, and the calls. -/
def finishSegment (pos : Pos) (request : ConversionRequest) (segments : Segments) (i : Nat)
    (committedValue : Bytes) : Option (Bytes × List Call) := do
  let symbolKeyOnly : Bool := request.requestType ≠ .conversion
  let segment ← segments.segments[i]?
  match segment.candidates with
  | [] => some (committedValue, [])
  | candidate :: _ =>
    let allowPunctuation := symbolKeyOnly && request.usePunctuationChoiceLearning
    if segment.segmentType ≠ .fixedValue ∨ candidate.has kNoHistoryLearning then
      some (committedValue, [])
    else if symbolKeyOnly && !isExplicitSymbolKeyVariantChoice segment then
      some (committedValue, [])
    else if symbolKeyOnly && !allowPunctuation && (isPunctuation pos segment candidate ||
        isPunctuationForSymbolChoice segment.key ||
        isPunctuationForSymbolChoice candidate.value) then
      some (committedValue, [])
    else
      let valueBegin := committedValue.length
      let committedValue := committedValue ++ candidate.value
      if isNumberSegment segment && !request.kanaModifierInsensitiveConversion then
        some (committedValue, rememberNumberPreference candidate)
      else do
        let first ← rememberFirstCandidate pos segments i valueBegin committedValue.length
          allowPunctuation
        some (committedValue, insertTriggerKey segment candidate ++ first)

/-- The loop of `Finish`. -/
def finishLoop (pos : Pos) (request : ConversionRequest) (segments : Segments) :
    List Nat → Bytes → Option (List Call × Bytes)
  | [], committedValue => some ([], committedValue)
  | i :: is, committedValue => do
    let (committedValue, calls) ← finishSegment pos request segments i committedValue
    let (rest, committedValue) ← finishLoop pos request segments is committedValue
    some (calls ++ rest, committedValue)

/-- Does `Finish` learn from a request? -/
def learnsFrom (request : ConversionRequest) (segments : Segments) : Bool :=
  request.requestType ≠ .reverseConversion &&
    (request.requestType = .conversion || request.useSymbolChoiceLearning) &&
    isAvailable request segments && request.historyLearningLevel = .defaultHistory

/-- The calls of `Finish`, and `committed_value`. -/
def learningCalls (pos : Pos) (request : ConversionRequest) (segments : Segments) :
    Option (List Call × Bytes) :=
  if !learnsFrom request segments then some ([], [])
  else do
    let targetSegments ←
      if request.mixedConversion && request.requestType = .conversion then
        makeLearningSegmentsFromInnerSegments innerSegmentBoundary segments
      else some segments
    finishLoop pos request targetSegments
      ((List.range targetSegments.segments.length).drop targetSegments.historySegmentsSize) []

end

/-! ## The calls of a commit are defined -/

section

variable {pos : Pos} {segments : Segments}

theorem exists_bind {α β : Type} {a : Option α} {f : α → Option β} (ha : ∃ x, a = some x)
    (hf : ∀ x, ∃ y, f x = some y) : ∃ y, a.bind f = some y := by
  obtain ⟨x, rfl⟩ := ha
  exact hf x

/-- Every segment has a candidate. -/
def Segments.HaveCandidates (segments : Segments) : Prop :=
  ∀ segment ∈ segments.segments, segment.candidates ≠ []

theorem getDefaultCandidateIndex_lt {segment : Segment} (h : segment.candidates ≠ []) :
    getDefaultCandidateIndex segment < segment.candidates.length := by
  rw [getDefaultCandidateIndex]
  cases hfind : (segment.candidates.take (kMaxRerankSize + 1)).findIdx? (·.has kBestCandidate) with
  | none => exact List.length_pos_iff.mpr h
  | some i =>
    obtain ⟨hi, -⟩ := List.findIdx?_eq_some_iff_getElem.mp hfind
    rw [List.length_take] at hi
    exact lt_of_lt_of_le hi (min_le_right _ _)

theorem candidate_isSome {segment : Segment} {i : Nat} (h : i < segment.candidates.length) :
    ∃ candidate, segment.candidate i = some candidate := by
  rw [Segment.candidate, if_neg (by omega)]
  exact ⟨_, List.getElem?_eq_getElem h⟩

theorem defaultCandidate_isSome (h : segments.HaveCandidates) {index : Nat}
    (hindex : index < segments.segments.length) :
    ∃ candidate, segments.defaultCandidate index = some candidate := by
  have hsegment : segments.segments[index]? = some segments.segments[index] :=
    List.getElem?_eq_getElem hindex
  obtain ⟨candidate, hcandidate⟩ := candidate_isSome
    (getDefaultCandidateIndex_lt (h _ (List.getElem_mem hindex)))
  exact ⟨candidate, by simp [Segments.defaultCandidate, hsegment, hcandidate]⟩

theorem featureKey_isSome (h : segments.HaveCandidates) {index : Nat}
    (hindex : index < segments.segments.length) (key value : Bytes) (kind : Feature) :
    (featureKey segments pos index key value kind).isSome := by
  have hdefault : ∀ i < segments.segments.length, ∃ candidate,
      segments.defaultCandidate i = some candidate := fun i hi => defaultCandidate_isSome h hi
  cases kind
  case current => rfl
  case single =>
    rw [featureKey, FeatureKey.single]
    split <;> rfl
  case leftNumber | left =>
    first | rw [featureKey, FeatureKey.leftNumber] | rw [featureKey, FeatureKey.left]
    split
    · rfl
    · obtain ⟨left, hleft⟩ := hdefault (index - 1) (by omega)
      simp only [hleft, Option.bind_eq_bind, Option.bind_some]
      first | rfl | (split <;> rfl)
  case rightNumber | right =>
    first | rw [featureKey, FeatureKey.rightNumber] | rw [featureKey, FeatureKey.right]
    split
    · rfl
    · obtain ⟨right, hright⟩ := hdefault (index + 1) (by omega)
      simp only [hright, Option.bind_eq_bind, Option.bind_some]
      first | rfl | (split <;> rfl)
  case leftRight =>
    rw [featureKey, FeatureKey.leftRight]
    split
    · rfl
    · obtain ⟨left, hleft⟩ := hdefault (index - 1) (by omega)
      obtain ⟨right, hright⟩ := hdefault (index + 1) (by omega)
      simp [hleft, hright]
  case leftLeft =>
    rw [featureKey, FeatureKey.leftLeft]
    split
    · rfl
    · obtain ⟨first, hfirst⟩ := hdefault (index - 2) (by omega)
      obtain ⟨second, hsecond⟩ := hdefault (index - 1) (by omega)
      simp [hfirst, hsecond]
  case rightRight =>
    rw [featureKey, FeatureKey.rightRight]
    split
    · rfl
    · obtain ⟨first, hfirst⟩ := hdefault (index + 1) (by omega)
      obtain ⟨second, hsecond⟩ := hdefault (index + 2) (by omega)
      simp [hfirst, hsecond]

theorem insertFeatures_isSome (h : segments.HaveCandidates) {index : Nat}
    (hindex : index < segments.segments.length) (key value : Bytes) (valueBegin valueEnd : Nat)
    (force : Bool) (features : List Feature) :
    ∃ calls, insertFeatures pos segments index key value valueBegin valueEnd force features =
      some calls := by
  refine OptionList.exists_mapM fun kind _ => ?_
  obtain ⟨feature, hfeature⟩ := Option.isSome_iff_exists.mp
    (@featureKey_isSome pos _ h _ hindex key value kind)
  simp [hfeature]

theorem rememberFirstCandidate_isSome (h : segments.HaveCandidates) {index : Nat}
    (hindex : index < segments.segments.length) (valueBegin valueEnd : Nat)
    (allowPunctuation : Bool) :
    ∃ calls, rememberFirstCandidate pos segments index valueBegin valueEnd allowPunctuation =
      some calls := by
  have hsegment : segments.segments[index]? = some segments.segments[index] :=
    List.getElem?_eq_getElem hindex
  have hne := h _ (List.getElem_mem hindex)
  obtain ⟨candidate, hcandidate⟩ := candidate_isSome (List.length_pos_iff.mpr hne)
  obtain ⟨top, htop⟩ := candidate_isSome (getDefaultCandidateIndex_lt hne)
  have hfeatures := @insertFeatures_isSome pos _ h _ hindex
  rw [Nat.cast_zero] at hcandidate
  simp only [rememberFirstCandidate, hsegment, hcandidate, htop, Option.bind_eq_bind,
    Option.bind_some]
  split
  · exact ⟨[], rfl⟩
  · refine exists_bind (hfeatures ..) fun all => ?_
    split
    · refine exists_bind (hfeatures ..) fun content => ?_
      split
      · exact exists_bind (hfeatures ..) fun closeBracket => ⟨_, rfl⟩
      · exact ⟨_, rfl⟩
    · split
      · exact exists_bind (hfeatures ..) fun closeBracket => ⟨_, rfl⟩
      · exact ⟨_, rfl⟩

theorem finishSegment_isSome (request : ConversionRequest) (h : segments.HaveCandidates)
    {index : Nat} (hindex : index < segments.segments.length) (committedValue : Bytes) :
    ∃ result, finishSegment pos request segments index committedValue = some result := by
  have hsegment : segments.segments[index]? = some segments.segments[index] :=
    List.getElem?_eq_getElem hindex
  simp only [finishSegment, hsegment, Option.bind_eq_bind, Option.bind_some]
  split
  · exact ⟨_, rfl⟩
  · split_ifs
    any_goals exact ⟨_, rfl⟩
    exact exists_bind (rememberFirstCandidate_isSome h hindex ..) fun calls => ⟨_, rfl⟩

theorem finishLoop_isSome (request : ConversionRequest) (h : segments.HaveCandidates)
    {indices : List Nat} (hindices : ∀ i ∈ indices, i < segments.segments.length) :
    ∀ committedValue, ∃ result,
      finishLoop pos request segments indices committedValue = some result := by
  induction indices with
  | nil => exact fun _ => ⟨_, rfl⟩
  | cons i indices ih =>
    intro committedValue
    obtain ⟨hi, hrest⟩ := List.forall_mem_cons.mp hindices
    exact exists_bind (finishSegment_isSome request h hi committedValue) fun result =>
      exists_bind (ih hrest result.1) fun rest => ⟨_, rfl⟩

theorem makeLearningSegments_haveCandidates (innerSegmentBoundary : Candidate → List Nat)
    (h : segments.HaveCandidates) :
    ∃ target, makeLearningSegmentsFromInnerSegments innerSegmentBoundary segments = some target ∧
      target.HaveCandidates := by
  have hone : ∀ segment ∈ segments.segments, ∃ inner,
      makeLearningSegment innerSegmentBoundary segment = some inner ∧
        ∀ s ∈ inner, s.candidates ≠ [] := by
    intro segment hmem
    have hne := h segment hmem
    obtain ⟨candidate, hcandidate⟩ := candidate_isSome (List.length_pos_iff.mpr hne)
    rw [Nat.cast_zero] at hcandidate
    simp only [makeLearningSegment, hcandidate, Option.bind_eq_bind, Option.bind_some]
    split
    · exact ⟨_, rfl, List.forall_mem_singleton.mpr hne⟩
    · refine ⟨_, rfl, fun s hs => ?_⟩
      obtain ⟨i, hi, rfl⟩ := List.mem_mapIdx.mp hs
      exact List.cons_ne_nil _ _
  obtain ⟨inner, hinner⟩ := OptionList.exists_mapM fun segment hmem =>
    Option.isSome_iff_exists.mpr ((hone segment hmem).imp fun _ h => h.1)
  refine ⟨⟨inner.flatten, false, 0⟩, by simp [makeLearningSegmentsFromInnerSegments, hinner], ?_⟩
  intro s hs
  obtain ⟨l, hl, hs⟩ := List.mem_flatten.mp hs
  obtain ⟨k, hk, rfl⟩ := List.getElem_of_mem hl
  rw [OptionList.length_mapM hinner] at hk
  obtain ⟨b, hb, hlast⟩ := OptionList.getElem?_mapM hinner (List.getElem?_eq_getElem hk)
  obtain ⟨b', hb', hall⟩ := hone _ (List.getElem_mem hk)
  rw [hb] at hb'
  cases hb'
  rw [List.getElem?_eq_getElem (by rw [OptionList.length_mapM hinner]; exact hk)] at hlast
  cases hlast
  exact hall s hs

/-- **THE CALLS OF A COMMIT** are defined. -/
theorem learningCalls_isSome (innerSegmentBoundary : Candidate → List Nat)
    (request : ConversionRequest) (segments : Segments) :
    ∃ result, learningCalls innerSegmentBoundary pos request segments = some result := by
  rw [learningCalls]
  split
  · exact ⟨_, rfl⟩
  · rename_i hlearns
    have hcandidates : segments.HaveCandidates := by
      simp only [learnsFrom, isAvailable, Bool.not_eq_true', Bool.not_eq_false, Bool.and_eq_true,
        List.all_eq_true, decide_eq_true_eq] at hlearns
      exact hlearns.1.2.1.2
    have hloop : ∀ target : Segments, target.HaveCandidates → ∃ result,
        finishLoop pos request target
          ((List.range target.segments.length).drop target.historySegmentsSize) [] = some result :=
      fun target htarget => finishLoop_isSome request htarget
        (fun i hi => List.mem_range.mp (List.mem_of_mem_drop hi)) []
    split
    · obtain ⟨target, htarget, hall⟩ :=
        makeLearningSegments_haveCandidates innerSegmentBoundary hcandidates
      obtain ⟨result, hresult⟩ := hloop target hall
      exact ⟨result, by simp [htarget, hresult]⟩
    · exact hloop segments hcandidates

/-! ## When the scores are defined -/

variable {storage : LruStorage} {e : Nat} {segment : Segment}

end

/-! ## Running the calls -/

/-- `RevertEntry`. -/
structure RevertEntry where
  key : Bytes
  value : Bytes
  valueBegin : Nat
  valueEnd : Nat

/-- `MaybeInsertRevertEntry`. -/
def maybeInsertRevertEntry (revertEntries : List RevertEntry) (key value : Bytes)
    (valueBegin valueEnd : Nat) : List RevertEntry :=
  if key = [] ∨ revertEntries.any (·.key = key) then revertEntries
  else revertEntries ++ [⟨key, value, valueBegin, valueEnd⟩]

/-- The bytes of a `FeatureValue`. -/
def featureValue : Nat → UInt8 := fun i => if i = 0 then 1 else 0

/-- The bytes of a `KeyTriggerValue`. -/
def keyTriggerValue (candidatesSize : Nat) : Nat → UInt8 :=
  fun i => if i = 3 then UInt8.ofNat candidatesSize else 0

/-- What a commit writes to: the storage, and `revert_entries`. -/
structure Learned where
  storage : LruStorage
  revertEntries : List RevertEntry

section

variable (pos : Pos)

/-- A call, when the clock is at `now`. -/
def Call.run (now : UInt32) (learned : Learned) : Call → Option Learned
  | .insert key value valueBegin valueEnd force =>
    if key = [] then some learned
    else do
      let revertEntries :=
        maybeInsertRevertEntry learned.revertEntries key value valueBegin valueEnd
      let (_, storage) ←
        if force then learned.storage.insert now (pos.fingerprint key) (some featureValue)
        else learned.storage.tryInsert now (pos.fingerprint key) featureValue
      some ⟨storage, revertEntries⟩
  | .insertTrigger key candidatesSize => do
    let (_, storage) ← learned.storage.insert now (pos.fingerprint key)
      (some (keyTriggerValue candidatesSize))
    some { learned with storage := storage }

/-- Calls, each with the time of it. -/
def runCalls : List (UInt32 × Call) → Learned → Option Learned
  | [], learned => some learned
  | (now, call) :: calls, learned => do
    let learned ← call.run pos now learned
    runCalls calls learned

/-- Is something written under a fingerprint even if nothing is there? -/
def Call.forces (fp : UInt64) : Call → Prop
  | .insert key _ _ _ force => key ≠ [] ∧ pos.fingerprint key = fp ∧ force = true
  | .insertTrigger key _ => pos.fingerprint key = fp

/-- Is something written under a fingerprint if something is there? -/
def Call.touches (fp : UInt64) : Call → Prop
  | .insert key _ _ _ _ => key ≠ [] ∧ pos.fingerprint key = fp
  | .insertTrigger key _ => pos.fingerprint key = fp

instance (fp : UInt64) (call : Call) : Decidable (call.forces pos fp) := by
  cases call <;> unfold Call.forces <;> infer_instance

instance (fp : UInt64) (call : Call) : Decidable (call.touches pos fp) := by
  cases call <;> unfold Call.touches <;> infer_instance

/-- The last access time under a fingerprint after a call. -/
def Call.timeAfter (fp : UInt64) (now : UInt32) (call : Call) (time : Option UInt32) :
    Option UInt32 :=
  if call.forces pos fp ∨ call.touches pos fp ∧ time.isSome then some now else time

/-- The last access time under a fingerprint after calls. -/
def timeAfterCalls (fp : UInt64) (calls : List (UInt32 × Call)) (time : Option UInt32) :
    Option UInt32 :=
  calls.foldl (fun time item => item.2.timeAfter pos fp item.1 time) time

end

/-- The entries for a revert after a call. -/
def Call.record (revertEntries : List RevertEntry) : Call → List RevertEntry
  | .insert key value valueBegin valueEnd _ =>
    maybeInsertRevertEntry revertEntries key value valueBegin valueEnd
  | .insertTrigger .. => revertEntries

/-- A call that may take a new slot. -/
def Call.grows : Call → Bool
  | .insert key _ _ _ force => key ≠ [] && force
  | .insertTrigger .. => true

/-- The last access time of what is under a fingerprint. -/
def timeOf (storage : LruStorage) (fp : UInt64) : Option UInt32 :=
  (storage.lookup fp).join.map Slot.timestamp

section

variable {pos : Pos} {storage storage' : LruStorage}

/-- What a row of calls does to a storage. -/
structure Called (pos : Pos) (storage storage' : LruStorage) (growth : Nat)
    (after : UInt64 → Option UInt32 → Option UInt32) : Prop where
  linked : Linked storage' storage'.size
  size : storage'.size = storage.size
  length : storage'.lruList.length ≤ storage.lruList.length + growth
  time : ∀ fp, timeOf storage' fp = after fp (timeOf storage fp)

theorem timeOf_isSome (h : Linked storage storage.size) {fp : UInt64}
    (hsome : storage.lookup fp ≠ some none) : (timeOf storage fp).isSome := by
  obtain ⟨found, hfound⟩ := MozkeyLru.lookup_defined h fp
  cases found with
  | none => exact absurd hfound hsome
  | some slot => rw [timeOf, hfound]; rfl

theorem timeOf_inserted {c : Slot} (h : Inserted storage storage' c) (fp : UInt64) :
    timeOf storage' fp = if fp = c.fp then some c.timestamp else timeOf storage fp := by
  rw [timeOf, h.lookup]
  split <;> rfl

/-- A call is defined where there is room for it, and leaves the time of it. -/
theorem Call.run_spec (h : Linked storage storage.size) (revertEntries : List RevertEntry)
    (now : UInt32) (call : Call) (hroom : call.grows → storage.lruList.length < storage.size) :
    ∃ storage', call.run pos now ⟨storage, revertEntries⟩ =
        some ⟨storage', call.record revertEntries⟩ ∧
      Called pos storage storage' (if call.grows then 1 else 0)
        fun fp => call.timeAfter pos fp now := by
  cases call with
  | insertTrigger key candidatesSize =>
    obtain ⟨storage', hinsert, hinserted⟩ := MozkeyLru.insert_spec h (hroom rfl) now
      (pos.fingerprint key) (keyTriggerValue candidatesSize)
    refine ⟨storage', by simp [Call.run, hinsert, Call.record], hinserted.linked, hinserted.size,
      hinserted.length, fun fp => ?_⟩
    rw [timeOf_inserted hinserted]
    by_cases hfp : fp = pos.fingerprint key
    · rw [if_pos hfp, Call.timeAfter, if_pos (.inl hfp.symm)]
    · rw [if_neg hfp, Call.timeAfter, if_neg]
      rintro (hforces | ⟨htouches, -⟩)
      · exact hfp hforces.symm
      · exact hfp htouches.symm
  | insert key value valueBegin valueEnd force =>
    by_cases hkey : key = []
    · refine ⟨storage, ?_, h, rfl, Nat.le_add_right _ _, fun fp => ?_⟩
      · simp [Call.run, Call.record, maybeInsertRevertEntry, hkey]
      · rw [Call.timeAfter, if_neg]
        rintro (hforces | ⟨htouches, -⟩)
        · exact hforces.1 hkey
        · exact htouches.1 hkey
    · cases force with
      | true =>
        obtain ⟨storage', hinsert, hinserted⟩ := MozkeyLru.insert_spec h
          (hroom (by simp [Call.grows, hkey])) now (pos.fingerprint key) featureValue
        refine ⟨storage', by simp [Call.run, hinsert, Call.record, hkey], hinserted.linked,
          hinserted.size, ?_, fun fp => ?_⟩
        · rw [if_pos (by simp [Call.grows, hkey])]
          exact hinserted.length
        · rw [timeOf_inserted hinserted]
          by_cases hfp : fp = pos.fingerprint key
          · rw [if_pos hfp, Call.timeAfter, if_pos (.inl ⟨hkey, hfp.symm, rfl⟩)]
          · rw [if_neg hfp, Call.timeAfter, if_neg]
            rintro (hforces | ⟨htouches, -⟩)
            · exact hfp hforces.2.1.symm
            · exact hfp htouches.2.symm
      | false =>
        obtain ⟨storage', htry, hcases⟩ := MozkeyLru.tryInsert_spec h now (pos.fingerprint key)
          featureValue
        have hrun : (Call.insert key value valueBegin valueEnd false).run pos now
            ⟨storage, revertEntries⟩ = some ⟨storage',
              Call.record revertEntries (.insert key value valueBegin valueEnd false)⟩ := by
          simp [Call.run, htry, Call.record, hkey]
        refine ⟨storage', hrun, ?_⟩
        have hforces : ∀ fp, ¬ (Call.insert key value valueBegin valueEnd false).forces pos fp :=
          fun fp hforces => Bool.noConfusion hforces.2.2
        rcases hcases with ⟨rfl, hnone⟩ | ⟨hinserted, hsome, hlength⟩
        · refine ⟨h, rfl, Nat.le_add_right _ _, fun fp => ?_⟩
          rw [Call.timeAfter, if_neg]
          rintro (hforced | ⟨htouches, htime⟩)
          · exact hforces fp hforced
          · rw [← htouches.2, timeOf, hnone] at htime
            cases htime
        · refine ⟨hinserted.linked, hinserted.size, hlength.le.trans (Nat.le_add_right _ _),
            fun fp => ?_⟩
          rw [timeOf_inserted hinserted]
          by_cases hfp : fp = pos.fingerprint key
          · have htime : (timeOf storage fp).isSome := hfp ▸ timeOf_isSome h hsome
            rw [if_pos hfp, Call.timeAfter, if_pos (.inr ⟨⟨hkey, hfp.symm⟩, htime⟩)]
          · rw [if_neg hfp, Call.timeAfter, if_neg]
            rintro (hforced | ⟨htouches, -⟩)
            · exact hforces fp hforced
            · exact hfp htouches.2.symm

/-- The entries for a revert after calls. -/
def recordCalls (calls : List Call) (revertEntries : List RevertEntry) : List RevertEntry :=
  calls.foldl Call.record revertEntries

/-- **A ROW OF CALLS** is defined where there is room for it, and leaves the times of it. -/
theorem runCalls_spec (calls : List (UInt32 × Call)) : ∀ {storage : LruStorage},
    Linked storage storage.size → ∀ revertEntries,
    storage.lruList.length + (calls.filter (·.2.grows)).length ≤ storage.size →
    ∃ storage', runCalls pos calls ⟨storage, revertEntries⟩ =
        some ⟨storage', recordCalls (calls.map Prod.snd) revertEntries⟩ ∧
      Called pos storage storage' (calls.filter (·.2.grows)).length
        fun fp => timeAfterCalls pos fp calls := by
  induction calls with
  | nil => exact fun h revertEntries _ => ⟨_, rfl, h, rfl, le_rfl, fun fp => rfl⟩
  | cons item calls ih =>
    intro storage h revertEntries hroom
    have hgrowth : ((item :: calls).filter (·.2.grows)).length =
        (if item.2.grows then 1 else 0) + (calls.filter (·.2.grows)).length := by
      rw [List.filter_cons]
      split <;> simp [Nat.add_comm]
    rw [hgrowth] at hroom ⊢
    obtain ⟨storage₁, hrun, hcalled⟩ := @Call.run_spec pos _ h revertEntries item.1 item.2
      fun hgrows => by rw [if_pos hgrows] at hroom; omega
    have hlength := hcalled.length
    obtain ⟨storage', hruns, hrest⟩ := ih hcalled.linked (item.2.record revertEntries)
      (by rw [hcalled.size]; omega)
    refine ⟨storage', ?_, hrest.linked, hrest.size.trans hcalled.size, ?_, fun fp => ?_⟩
    · rw [runCalls, hrun]
      exact hruns
    · have := hrest.length
      omega
    · rw [hrest.time, hcalled.time]
      rfl

end

end MozkeySegmentHistory
