import Mozkey.EngineConverterProofs

/-! # EngineConverter — the focus and the indices stay in range

    The number of segments, the focused segment and the index of every segment are kept apart
    and changed by different commands.  The invariant ties them together: the focus is on a
    segment, and every segment has an index.

    What a converter answers is arbitrary as long as it keeps what its interface promises. -/

namespace MozkeyEngine

open MozkeyConverter (SegmentType)

/-! ## What a converter promises -/

/-- Every conversion segment has a candidate. -/
def Segments.Filled (segments : Segments) : Prop :=
  ∀ segment ∈ segments.conversionSegments, segment.candidates ≠ []

/-- No conversion segment has an empty key. -/
def Segments.Keyed (segments : Segments) : Prop :=
  ∀ segment ∈ segments.conversionSegments, segment.key ≠ ""

/-- The same segments, with their candidates in some order, and maybe more of them. -/
def SameSegments : List Segment → List Segment → Prop :=
  List.Forall₂ fun before after : Segment =>
    after.key = before.key ∧ before.candidates.length ≤ after.candidates.length

/-- The conversion segments stay the same. -/
def Segments.Kept (segments segments' : Segments) : Prop :=
  SameSegments segments.conversionSegments segments'.conversionSegments

/-- What the interface of a converter promises. -/
structure ConverterInterface.Lawful (c : ConverterInterface) : Prop where
  startConversion : ∀ {request segments segments'},
    c.startConversion request segments = (true, segments') →
      segments'.conversionSegments ≠ [] ∧ segments'.Filled ∧ segments'.Keyed
  startPrediction : ∀ {request segments segments'}, segments.conversionSegments = [] →
    c.startPrediction request segments = (true, segments') → segments'.conversionSegmentsSize = 1
  startPredictionWithPreviousSuggestion : ∀ {request previous segments started segments'},
    segments.conversionSegments = [] →
    c.startPredictionWithPreviousSuggestion request previous segments = (started, segments') →
    started = true ∨ EngineConverter.isEmptySegment previous = false →
      segments'.conversionSegmentsSize = 1
  prependCandidates : ∀ {request previous segments}, segments.conversionSegments = [] →
    (c.prependCandidates request previous segments).conversionSegmentsSize = 1
  commitSegmentValue : ∀ (segments : Segments) (index : Nat) (id : Int),
    segments.Kept (c.commitSegmentValue segments index id).2
  focusSegmentValue : ∀ (segments : Segments) (index : Nat) (id : Int),
    segments.Kept (c.focusSegmentValue segments index id).2
  commitPartialSuggestionSegmentValue : ∀ segments index id current new,
    (c.commitPartialSuggestionSegmentValue segments index id current new).2.conversionSegmentsSize
      = segments.conversionSegmentsSize
  commitSegments : ∀ {segments : Segments} {ids : List Int},
    ids.length ≤ segments.conversionSegmentsSize →
    (∀ i < ids.length, (segments.conversionSegment i).isValidIndex (ids.getD i 0)) →
      SameSegments (segments.conversionSegments.drop ids.length)
        (c.commitSegments segments ids).2.conversionSegments
  resizeSegment : ∀ {segments request index delta segments'},
    c.resizeSegment segments request index delta = (true, segments') →
      segments'.conversionKey = segments.conversionKey ∧ segments'.Filled
        ∧ index < segments'.conversionSegmentsSize
  resizeSegment_failed : ∀ {segments request index delta segments'},
    c.resizeSegment segments request index delta = (false, segments') → segments' = segments
  resizeSegments : ∀ {segments request start sizes segments'},
    c.resizeSegments segments request start sizes = (true, segments') →
      segments'.conversionKey = segments.conversionKey ∧ segments'.Filled ∧ segments'.Keyed
        ∧ ((∀ size ∈ sizes, 0 < size) →
          ((segments'.conversionSegments.drop start).take sizes.length).map Segment.keyLen
            = sizes.map UInt8.toNat)
  resizeSegments_failed : ∀ {segments request start sizes segments'},
    c.resizeSegments segments request start sizes = (false, segments') → segments' = segments

theorem SameSegments.filled {before after : List Segment} (h : SameSegments before after)
    (hfilled : ∀ segment ∈ before, segment.candidates ≠ []) :
    ∀ segment ∈ after, segment.candidates ≠ [] := by
  intro segment hsegment
  obtain ⟨i, hi, rfl⟩ := List.getElem_of_mem hsegment
  have hi' : i < before.length := by rw [List.Forall₂.length_eq h]; exact hi
  have hsame := List.Forall₂.get h hi' hi
  have hne := hfilled _ (List.getElem_mem hi')
  rw [← List.length_pos_iff] at hne ⊢
  exact Nat.lt_of_lt_of_le hne hsame.2

namespace Segments

@[simp] theorem conversionSegments_clear (segments : Segments) :
    segments.clearConversionSegments.conversionSegments = [] := by
  unfold conversionSegments clearConversionSegments
  rw [List.dropWhile_eq_nil_iff]
  intro segment hsegment
  exact (List.all_eq_true.mp (List.all_takeWhile)) segment hsegment

variable {segments' : Segments}

theorem Kept.size {segments : Segments} (h : segments.Kept segments') :
    segments'.conversionSegmentsSize = segments.conversionSegmentsSize :=
  (List.Forall₂.length_eq h).symm

theorem Kept.refl (segments : Segments) : segments.Kept segments :=
  List.forall₂_same.mpr fun _ _ => ⟨rfl, Nat.le_refl _⟩

theorem Kept.filled {segments : Segments} (h : segments.Kept segments')
    (hfilled : segments.Filled) : segments'.Filled :=
  SameSegments.filled h hfilled

theorem Kept.keyed {segments : Segments} (h : segments.Kept segments') (hkeyed : segments.Keyed) :
    segments'.Keyed := by
  intro segment hsegment
  obtain ⟨i, hi, rfl⟩ := List.getElem_of_mem hsegment
  have hi' : i < segments.conversionSegments.length := by rw [List.Forall₂.length_eq h]; exact hi
  have hkept := List.Forall₂.get h hi' hi
  have hkey : (segments'.conversionSegments[i]).key = (segments.conversionSegments[i]).key :=
    hkept.1
  rw [hkey]
  exact hkeyed _ (List.getElem_mem hi')

theorem Kept.isValidIndex {segments : Segments} (h : segments.Kept segments') {i : Nat} {id : Int}
    (hid : (segments.conversionSegment i).isValidIndex id) :
    (segments'.conversionSegment i).isValidIndex id := by
  unfold conversionSegment at *
  by_cases hi : i < segments.conversionSegments.length
  · have hi' : i < segments'.conversionSegments.length := by
      rw [← List.Forall₂.length_eq h]; exact hi
    have hkept := List.Forall₂.get h hi hi'
    rw [List.getD_eq_getElem _ _ hi] at hid
    rw [List.getD_eq_getElem _ _ hi']
    have hle : (segments.conversionSegments[i]).candidates.length
        ≤ (segments'.conversionSegments[i]).candidates.length := hkept.2
    refine ⟨hid.1, ?_⟩
    have := hid.2
    omega
  · have hi' : ¬ i < segments'.conversionSegments.length := by
      rw [← List.Forall₂.length_eq h]; exact hi
    rw [List.getD_eq_default _ _ (by omega)] at hid
    rw [List.getD_eq_default _ _ (by omega)]
    exact hid

theorem Filled.isValidIndex_zero {segments : Segments} (h : segments.Filled) {i : Nat}
    (hi : i < segments.conversionSegmentsSize) :
    (segments.conversionSegment i).isValidIndex 0 := by
  unfold conversionSegment
  rw [List.getD_eq_getElem _ _ hi]
  have hne := h _ (List.getElem_mem hi)
  rw [← List.length_pos_iff] at hne
  exact ⟨by omega, by exact_mod_cast hne⟩

end Segments

/-! ## The candidates of the focused segment -/

/-- Every id of a list is an index of a segment. -/
def Indexes {Sub : Type} [Sublist Sub] (list : CandidateListOf Sub) (segment : Segment) : Prop :=
  ∀ id ∈ list.ids, id = 0 ∨ segment.isValidIndex id

variable {list : CandidateList} {segment : Segment}

theorem indexes_addCandidates (cityFingerprint : String → UInt64) (h : Indexes list segment) :
    Indexes (addCandidates cityFingerprint list segment) segment := by
  unfold addCandidates
  have hall : ∀ entry ∈ segment.candidates.zipIdx.drop list.availableId.toNat,
      entry.2 < segment.candidates.length := by
    intro entry hentry
    have := List.snd_lt_of_mem_zipIdx (List.mem_of_mem_drop hentry)
    simpa using this
  generalize segment.candidates.zipIdx.drop list.availableId.toNat = entries at hall ⊢
  induction entries generalizing list with
  | nil => exact h
  | cons entry entries ih =>
    refine ih ?_ fun e he => hall e (List.mem_cons_of_mem _ he)
    intro id hid
    rcases CandidateListOf.mem_ids_addCandidateWithAttributes hid with hold | rfl
    · exact h id hold
    · right
      have hlt := hall entry List.mem_cons_self
      exact ⟨by omega, by exact_mod_cast hlt⟩

theorem indexes_addTransliterations {Sub : Type} [Sublist Sub] (cityFingerprint : String → UInt64)
    {list : CandidateListOf Sub} (h : Indexes list segment) :
    Indexes (addTransliterations cityFingerprint list segment) segment := by
  unfold addTransliterations
  have hall : ∀ entry ∈ transliterationTypeArray.zipIdx, entry.2 < 11 := by decide
  generalize transliterationTypeArray.zipIdx = entries at hall ⊢
  induction entries generalizing list with
  | nil => exact h
  | cons entry entries ih =>
    refine ih ?_ fun e he => hall e (List.mem_cons_of_mem _ he)
    intro id hid
    rcases CandidateListOf.mem_ids_addCandidateWithAttributes hid with hold | rfl
    · exact h id hold
    · right
      have hlt := hall entry List.mem_cons_self
      exact ⟨by omega, by omega⟩

theorem indexes_addSubCandidateList {sub : SubCandidateList} (h : Indexes list segment)
    (hsub : Indexes sub segment) :
    Indexes (list.addSubCandidateList sub) segment := by
  intro id hid
  have hcases : id ∈ list.ids ∨ id = 0 ∨ id ∈ sub.ids := by
    simpa [CandidateListOf.ids, CandidateListOf.addSubCandidateList, CandidateListOf.candidateIds,
      Sublist.ids] using hid
  rcases hcases with hold | rfl | hnew
  · exact h id hold
  · exact Or.inl rfl
  · exact hsub id hnew

namespace EngineConverter

/-- Rebuilding the candidate list changes the list and whether it is shown, and the new list
    indexes the focused segment. -/
theorem updateCandidateList_spec (t : Toolbox) (s : EngineConverter) :
    ∃ candidateList candidateListVisible, s.updateCandidateList t
        = { s with candidateList, candidateListVisible } ∧
      Indexes candidateList s.focusedSegment := by
  have hclear : Indexes s.candidateList.clear s.focusedSegment := by rintro id ⟨⟩
  have hadded := indexes_addCandidates t.cityFingerprint hclear
  unfold updateCandidateList appendCandidateList
  dsimp only
  split
  · exact ⟨_, _, rfl, hadded⟩
  · split
    · refine ⟨_, _, rfl, indexes_addSubCandidateList hadded ?_⟩
      exact indexes_addTransliterations t.cityFingerprint (by rintro id ⟨⟩)
    · exact ⟨_, _, rfl, indexes_addTransliterations t.cityFingerprint hadded⟩

/-! ## The invariant -/

/-- The focus is on a segment, and every segment has an index; where segments can be committed
    one by one, what is selected can be committed. -/
structure Invariant (s : EngineConverter) : Prop where
  focus : s.isActive → s.segmentIndex < s.segments.conversionSegmentsSize
  indices : s.isActive →
    s.segments.conversionSegmentsSize ≤ s.selectedCandidateIndices.length
  single : s.state = .suggestion ∨ s.state = .prediction → s.segments.conversionSegmentsSize = 1
  filled : s.state = .conversion → s.segments.Filled
  indexes : s.state = .conversion → Indexes s.candidateList s.focusedSegment

variable {s : EngineConverter}

theorem invariant_composition (h : s.state = .composition) :
    s.Invariant := by
  refine ⟨?_, ?_, ?_, ?_, ?_⟩ <;> simp [isActive, h]

theorem invariant_resetState (s : EngineConverter) : s.resetState.Invariant :=
  invariant_composition rfl

theorem invariant_single (h : s.state = .suggestion ∨ s.state = .prediction)
    (hsize : s.segments.conversionSegmentsSize = 1) (hfocus : s.segmentIndex = 0)
    (hindices : s.selectedCandidateIndices ≠ []) : s.Invariant := by
  have hne : s.state ≠ .conversion := by rcases h with h | h <;> simp [h]
  rw [← List.length_pos_iff] at hindices
  exact ⟨fun _ => by omega, fun _ => by omega, fun _ => hsize, fun h => absurd h hne,
    fun h => absurd h hne⟩

theorem Invariant.segmentIndex_eq (hs : s.Invariant)
    (h : s.state = .suggestion ∨ s.state = .prediction) : s.segmentIndex = 0 := by
  have hactive : s.isActive := by rcases h with h | h <;> simp [isActive, h]
  have := hs.focus hactive
  have := hs.single h
  omega

/-- A change of what the invariant does not speak of, or of segments that are kept. -/
theorem Invariant.of_kept {s' : EngineConverter} (hs : s.Invariant) (hstate : s'.state = s.state)
    (hfocus : s'.segmentIndex = s.segmentIndex) (hsegments : s.segments.Kept s'.segments)
    (hindices : s'.selectedCandidateIndices.length = s.selectedCandidateIndices.length)
    (hids : s'.candidateList.ids = s.candidateList.ids) : s'.Invariant := by
  have hactive : s'.isActive = s.isActive := by simp [isActive, hstate]
  refine ⟨?_, ?_, ?_, ?_, ?_⟩
  · rw [hactive, hfocus, hsegments.size]
    exact hs.focus
  · rw [hactive, hsegments.size, hindices]
    exact hs.indices
  · rw [hstate, hsegments.size]
    exact hs.single
  · rw [hstate]
    exact fun h => hsegments.filled (hs.filled h)
  · rw [hstate]
    intro h id hid
    rw [hids] at hid
    rcases hs.indexes h id hid with hzero | hvalid
    · exact Or.inl hzero
    · refine Or.inr ?_
      unfold focusedSegment at *
      rw [hfocus]
      exact hsegments.isValidIndex hvalid

theorem invariant_updateCandidateList (t : Toolbox)
    (hfocus : s.isActive → s.segmentIndex < s.segments.conversionSegmentsSize)
    (hindices : s.isActive →
      s.segments.conversionSegmentsSize ≤ s.selectedCandidateIndices.length)
    (hsingle : s.state = .suggestion ∨ s.state = .prediction →
      s.segments.conversionSegmentsSize = 1) (hfilled : s.state = .conversion → s.segments.Filled) :
    (s.updateCandidateList t).Invariant := by
  obtain ⟨list, visible, heq, hlist⟩ := updateCandidateList_spec t s
  rw [heq]
  exact ⟨hfocus, hindices, hsingle, hfilled, fun _ => hlist⟩

theorem Invariant.isValidIndex (hs : s.Invariant) (hstate : s.state = .conversion) {i : Nat}
    (hi : i < s.segments.conversionSegmentsSize) :
    (s.segments.conversionSegment i).isValidIndex (s.getCandidateIndexForConverter i) := by
  have hzero := (hs.filled hstate).isValidIndex_zero hi
  unfold getCandidateIndexForConverter
  split
  · exact hzero
  next hfocus =>
    obtain rfl : i = s.segmentIndex := by simpa using hfocus
    rcases s.candidateList.focusedId_mem with hmem | hid
    · rcases hs.indexes hstate _ hmem with hid | hvalid
      · rw [hid]
        exact hzero
      · exact hvalid
    · rw [hid]
      exact hzero

end EngineConverter

namespace EngineConverter

/-! ## Calls that keep the segments -/

variable {c : ConverterInterface} {t : Toolbox} {s : EngineConverter}

/-- What the result is, and which command is performed, is not part of the invariant. -/
theorem updateResult_spec (s : EngineConverter) (size : Nat) :
    ∃ updated result updatedCommand,
      s.updateResult size = (updated, { s with result, updatedCommand }) := by
  have hperform : ∃ performed updatedCommand,
      s.maybePerformCommandCandidate size = (performed, { s with updatedCommand }) := by
    unfold maybePerformCommandCandidate
    split
    · exact ⟨false, s.updatedCommand, rfl⟩
    · split <;> exact ⟨true, _, rfl⟩
  obtain ⟨performed, updatedCommand, hperform⟩ := hperform
  unfold updateResult
  rw [hperform]
  cases performed with
  | true => exact ⟨false, s.result, updatedCommand, rfl⟩
  | false => exact ⟨true, _, updatedCommand, rfl⟩

theorem Invariant.resetResult (hs : s.Invariant) : s.resetResult.Invariant :=
  hs.of_kept rfl rfl (Segments.Kept.refl _) rfl rfl

theorem Invariant.updateSelectedCandidateIndex (hs : s.Invariant) :
    s.updateSelectedCandidateIndex.Invariant :=
  hs.of_kept rfl rfl (Segments.Kept.refl _) List.length_set rfl

theorem Invariant.segmentFocus (hc : c.Lawful) (hs : s.Invariant) :
    (s.segmentFocus c).Invariant :=
  hs.of_kept rfl rfl (hc.focusSegmentValue _ _ _) rfl rfl

theorem Invariant.moveCandidate (hc : c.Lawful) (hs : s.Invariant)
    (hids : list.ids = s.candidateList.ids) (visible : Bool) :
    (s.moveCandidate c list visible).Invariant := by
  refine Invariant.segmentFocus hc (Invariant.updateSelectedCandidateIndex ?_)
  exact hs.of_kept rfl rfl (Segments.Kept.refl _) rfl hids

theorem Invariant.finishTransliteration (hc : c.Lawful) (hs : s.Invariant)
    (hids : list.ids = s.candidateList.ids) : (s.finishTransliteration c list).Invariant := by
  refine Invariant.segmentFocus hc ?_
  exact hs.of_kept rfl rfl (Segments.Kept.refl _) List.length_set hids

theorem ids_cycleAlphaCaseLoop (fuel : Nat) : ∀ (current base : Attributes)
    (list : CandidateList), (cycleAlphaCaseLoop fuel current base list).ids = list.ids := by
  induction fuel with
  | zero => intro current base list; rfl
  | succ fuel ih =>
    intro current base list
    unfold cycleAlphaCaseLoop
    dsimp only
    split
    · exact CandidateListOf.ids_moveNextAttributes _ list
    · exact (ih _ _ _).trans (CandidateListOf.ids_moveNextAttributes _ list)

theorem ids_cycleAlphaCase (query : Attributes) (list : CandidateList) :
    (cycleAlphaCase query list).ids = list.ids := by
  unfold cycleAlphaCase
  dsimp only
  split
  · exact CandidateListOf.ids_moveNextAttributes _ list
  · exact ids_cycleAlphaCaseLoop _ _ _ list

theorem invariant_cancel (c : ConverterInterface) (s : EngineConverter) :
    (s.cancel c).Invariant := invariant_resetState _

theorem Invariant.cancelPrediction (c : ConverterInterface) (hs : s.Invariant) :
    (s.cancelPrediction c).Invariant := by
  unfold EngineConverter.cancelPrediction
  split
  · exact invariant_cancel c s
  · exact hs

theorem invariant_reset (c : ConverterInterface) (s : EngineConverter) :
    (s.reset c).Invariant := by
  unfold reset
  dsimp only
  split
  next h => exact invariant_composition h
  next => exact invariant_resetState _

/-! ## Calls that start something -/

theorem convertWithPreferences_spec (hc : c.Lawful)
    (ht : ∀ segments : Segments, segments.Kept (t.rerank segments)) (s : EngineConverter)
    (composer : Composer) (preferences : ConversionPreferences) :
    (s.convertWithPreferences c t composer preferences).2.Invariant ∧
    ((s.convertWithPreferences c t composer preferences).1 = true →
      (s.convertWithPreferences c t composer preferences).2.state = .conversion ∧
      (s.convertWithPreferences c t composer preferences).2.segmentIndex = 0 ∧
      (s.convertWithPreferences c t composer preferences).2.selectedCandidateIndices.length
        = (s.convertWithPreferences c t composer preferences).2.segments.conversionSegmentsSize ∧
      (s.convertWithPreferences c t composer preferences).2.segments.Keyed) := by
  unfold convertWithPreferences
  generalize ({ composer, enableUserHistoryForConversion := preferences.useHistory } :
    ConversionRequest) = request
  dsimp only
  cases hstarted : c.startConversion request s.segments with
  | mk started segments =>
    simp only [hstarted]
    cases started with
    | false =>
      simp only [if_true]
      exact ⟨invariant_resetState _, by rintro ⟨⟩⟩
    | true =>
      obtain ⟨hne, hfilled, hkeyed⟩ := hc.startConversion hstarted
      have hkept := ht segments
      simp only [Bool.true_eq_false, if_false]
      obtain ⟨list, visible, heq, hlist⟩ := updateCandidateList_spec t
        { s with
          requestType := .conversion, segments := t.rerank segments, segmentIndex := 0
          state := .conversion, candidateListVisible := s.settings.isA11yTalkbackEnabled }
      rw [heq]
      refine ⟨⟨?_, ?_, ?_, ?_, ?_⟩, ?_⟩
      · intro _
        show 0 < (t.rerank segments).conversionSegmentsSize
        rw [hkept.size]
        exact List.length_pos_iff.mpr hne
      · intro _
        simp [initializeSelectedCandidateIndices]
      · rintro (h | h) <;> cases h
      · exact fun _ => hkept.filled hfilled
      · exact fun _ => hlist
      · intro _
        exact ⟨rfl, rfl, List.length_replicate, hkept.keyed hkeyed⟩

theorem invariant_suggestWithPreferences (hc : c.Lawful) (s : EngineConverter)
    (composer : Composer) (preferences : ConversionPreferences) :
    (s.suggestWithPreferences c t composer preferences).2.Invariant := by
  unfold suggestWithPreferences
  dsimp only
  split
  · exact invariant_resetState s
  · generalize hrequest : ConversionRequest.mk composer _ _ _ _ = request
    cases hstarted : c.startPrediction request
        s.resetState.segments.clearConversionSegments with
    | mk started segments =>
      simp only [hstarted]
      cases started with
      | false =>
        simp only [if_true]
        exact invariant_composition rfl
      | true =>
        have hsize := hc.startPrediction (Segments.conversionSegments_clear _) hstarted
        simp only [Bool.true_eq_false, if_false]
        obtain ⟨list, visible, heq, -⟩ := updateCandidateList_spec t
          { s.resetState with
            segments, previousSuggestions := segments.conversionSegment 0
            requestType := .suggestion, segmentIndex := 0, state := .suggestion }
        rw [heq]
        refine invariant_single (Or.inl rfl) hsize rfl ?_
        simp [initializeSelectedCandidateIndices, hsize]

theorem invariant_startPredicting (s : EngineConverter) {segments : Segments}
    (hsize : segments.conversionSegmentsSize = 1) : (s.startPredicting t segments).Invariant := by
  unfold startPredicting
  obtain ⟨list, visible, heq, -⟩ := updateCandidateList_spec t
    { s with segments, segmentIndex := 0, state := .prediction }
  dsimp only
  rw [heq]
  refine invariant_single (Or.inr rfl) hsize rfl ?_
  simp [initializeSelectedCandidateIndices, hsize]

/-- A prediction has one segment: what is predicted, or what was suggested before. -/
theorem invariant_predictWithPreferences (hc : c.Lawful) (s : EngineConverter)
    (composer : Composer) (preferences : ConversionPreferences) :
    (s.predictWithPreferences c t composer preferences).2.Invariant := by
  unfold predictWithPreferences
  generalize ({ composer, requestType := RequestType.prediction
                enableUserHistoryForConversion := preferences.useHistory
                useActualConverterForRealtimeConversion := true } : ConversionRequest) = request
  dsimp only
  have hclear := Segments.conversionSegments_clear s.segments
  split
  next hstart =>
    cases hstarted : c.startPredictionWithPreviousSuggestion request s.previousSuggestions
        s.segments.clearConversionSegments with
    | mk started segments =>
      simp only [resetResult, hstarted]
      split
      · exact invariant_resetState _
      next hgo =>
        refine invariant_startPredicting _
          (hc.startPredictionWithPreviousSuggestion hclear hstarted ?_)
        -- an expansion has a previous suggestion to fall back to
        rcases hstart with hexpand | hfirst
        · right
          simpa [resetResult] using hexpand.2.1
        · left
          cases started with
          | true => rfl
          | false => exact absurd ⟨rfl, hfirst⟩ hgo
  next =>
    exact invariant_startPredicting _ (hc.prependCandidates hclear)

end EngineConverter

namespace EngineConverter

variable {c : ConverterInterface} {t : Toolbox} {s : EngineConverter}

/-! ## Calls that change the segments -/

theorem Invariant.resizeSegmentWidth (hc : c.Lawful) (hs : s.Invariant)
    (hactive : s.state = .prediction ∨ s.state = .conversion) (composer : Composer)
    (delta : Int) : (s.resizeSegmentWidth c t composer delta).Invariant := by
  have hhidden : ∀ visible, ({ s with candidateListVisible := visible } :
      EngineConverter).Invariant :=
    fun visible => hs.of_kept rfl rfl (Segments.Kept.refl _) rfl rfl
  unfold EngineConverter.resizeSegmentWidth
  dsimp only
  split
  · exact hhidden false
  next hprediction =>
    have hconversion : s.state = .conversion := hactive.resolve_left hprediction
    generalize ({ composer } : ConversionRequest) = request
    cases hresized : c.resizeSegment s.segments request s.segmentIndex delta with
    | mk resized segments =>
      simp only [EngineConverter.resetResult, hresized]
      cases resized with
      | false =>
        obtain rfl := hc.resizeSegment_failed hresized
        simp only [if_true]
        exact (hhidden false).resetResult
      | true =>
        obtain ⟨-, hfilled, hfocus⟩ := hc.resizeSegment hresized
        simp only [Bool.true_eq_false, if_false]
        obtain ⟨list, visible, heq, hlist⟩ := updateCandidateList_spec t
          { s with candidateListVisible := false, result := none, segments }
        rw [heq]
        refine Invariant.updateSelectedCandidateIndex ⟨fun _ => hfocus, ?_, ?_,
          fun _ => hfilled, fun _ => hlist⟩
        · intro _
          simp only [List.length_append, List.length_take, List.length_replicate]
          omega
        · intro hsingle
          simp [hconversion] at hsingle

theorem size_segmentFix (hc : c.Lawful) (s : EngineConverter) :
    (s.segmentFix c).segments.conversionSegmentsSize = s.segments.conversionSegmentsSize :=
  (hc.commitSegmentValue _ _ _).size

theorem Invariant.segmentFix (hc : c.Lawful) (hs : s.Invariant) : (s.segmentFix c).Invariant :=
  hs.of_kept rfl rfl (hc.commitSegmentValue _ _ _) rfl rfl

theorem Invariant.refocus (hs : s.Invariant) {index : Nat}
    (hindex : index < s.segments.conversionSegmentsSize) :
    (({ s with segmentIndex := index } : EngineConverter).updateCandidateList t).Invariant := by
  exact invariant_updateCandidateList t (fun _ => hindex) hs.indices hs.single hs.filled

theorem Invariant.segmentFocusInternal (hc : c.Lawful) (hs : s.Invariant) {index : Nat}
    (hindex : index < s.segments.conversionSegmentsSize)
    (hactive : s.state = .prediction ∨ s.state = .conversion) :
    (s.segmentFocusInternal c t index).Invariant := by
  have hhidden : ∀ result, ({ s with candidateListVisible := false, result } :
      EngineConverter).Invariant :=
    fun result => hs.of_kept rfl rfl (Segments.Kept.refl _) rfl rfl
  unfold EngineConverter.segmentFocusInternal
  dsimp only
  split
  · exact hhidden s.result
  next hprediction =>
    have hconversion : s.state = .conversion := hactive.resolve_left hprediction
    split
    · exact hhidden none
    · have hfixed := (hhidden none).segmentFix hc
      refine hfixed.refocus ?_
      rw [size_segmentFix hc]
      exact hindex

theorem isActive_of_state (h : s.state = .prediction ∨ s.state = .conversion) : s.isActive := by
  rcases h with h | h <;> simp [isActive, h]

section

variable (hc : c.Lawful) (hs : s.Invariant)
  (hactive : s.state = .prediction ∨ s.state = .conversion)

include hc hs hactive

theorem Invariant.segmentFocusLeftEdge : (s.segmentFocusLeftEdge c t).Invariant := by
  have := hs.focus (isActive_of_state hactive)
  exact hs.segmentFocusInternal hc (by omega) hactive

theorem Invariant.segmentFocusLast : (s.segmentFocusLast c t).Invariant := by
  have := hs.focus (isActive_of_state hactive)
  exact hs.segmentFocusInternal hc (by omega) hactive

theorem Invariant.segmentFocusRight : (s.segmentFocusRight c t).Invariant := by
  unfold EngineConverter.segmentFocusRight
  split
  · exact hs.segmentFocusLeftEdge hc hactive
  · exact hs.segmentFocusInternal hc (by omega) hactive

theorem Invariant.segmentFocusLeft : (s.segmentFocusLeft c t).Invariant := by
  have := hs.focus (isActive_of_state hactive)
  unfold EngineConverter.segmentFocusLeft
  split
  · exact hs.segmentFocusLast hc hactive
  · exact hs.segmentFocusInternal hc (by omega) hactive

end

theorem Invariant.maybeExpandPrediction (hc : c.Lawful) (hs : s.Invariant) (composer : Composer) :
    (s.maybeExpandPrediction c t composer).Invariant := by
  unfold EngineConverter.maybeExpandPrediction
  dsimp only
  split
  · exact hs
  · have hpredicted := invariant_predictWithPreferences (t := t) hc s.resetResult composer
      s.resetResult.conversionPreferences
    split
    · exact hpredicted
    · refine Invariant.updateSelectedCandidateIndex ?_
      exact hpredicted.of_kept rfl rfl (Segments.Kept.refl _) rfl
        (CandidateListOf.ids_moveToId _ _)

theorem Invariant.candidateNext (hc : c.Lawful) (hs : s.Invariant) (composer : Composer) :
    (s.candidateNext c t composer).Invariant :=
  (hs.resetResult.maybeExpandPrediction hc composer).moveCandidate hc
    (CandidateListOf.ids_moveNext _) true

theorem Invariant.candidateMoveToId (hc : c.Lawful) (hs : s.Invariant) (id : Int)
    (composer : Composer) : (s.candidateMoveToId c t id composer).Invariant := by
  unfold EngineConverter.candidateMoveToId
  dsimp only
  refine Invariant.moveCandidate hc ?_ (CandidateListOf.ids_moveToId _ _) false
  split
  · exact invariant_predictWithPreferences hc _ composer _
  · exact hs.resetResult

theorem Invariant.candidateMoveToShortcut (hc : c.Lawful) (hs : s.Invariant) (shortcut : Char) :
    (s.candidateMoveToShortcut c shortcut).2.Invariant := by
  unfold EngineConverter.candidateMoveToShortcut
  split
  · exact hs
  · split
    · exact hs
    next index _ =>
      have hmoved : ({ s with candidateList := (s.candidateList.moveToPageIndex index).2 } :
          EngineConverter).Invariant :=
        hs.of_kept rfl rfl (Segments.Kept.refl _) rfl (CandidateListOf.ids_moveToPageIndex _ _)
      dsimp only
      split
      · exact hmoved
      · exact hmoved.updateSelectedCandidateIndex.resetResult.segmentFocus hc

end EngineConverter

/-! ## Eight bits -/

namespace Segments

/-- The characters of the conversion segments. -/
def conversionLength (segments : Segments) : Nat :=
  (segments.conversionSegments.map Segment.keyLen).sum

theorem length_conversionKey (segments : Segments) :
    segments.conversionKey.length = segments.conversionLength := by
  unfold conversionKey conversionLength
  rw [List.length_flatMap]
  rfl

end Segments

namespace EngineConverter

theorem foldl_offset (segments : List Segment) : ∀ offset : UInt8,
    (segments.foldl (fun offset segment => offset + UInt8.ofNat segment.keyLen) offset).toNat
      = (offset.toNat + (segments.map Segment.keyLen).sum) % 256 := by
  induction segments with
  | nil =>
    intro offset
    have := offset.toNat_lt
    simp only [List.foldl_nil, List.map_nil, List.sum_nil, Nat.add_zero]
    omega
  | cons segment segments ih =>
    intro offset
    rw [List.foldl_cons, ih, UInt8.toNat_add, UInt8.toNat_ofNat']
    simp only [List.map_cons, List.sum_cons]
    omega

theorem toNat_kanaOffset (segments : Segments) :
    (kanaOffset segments).toNat = segments.conversionLength % 256 := by
  unfold kanaOffset
  rw [foldl_offset]
  simp [Segments.conversionLength]

/-- A list of segments with keys has at least as many characters as segments. -/
theorem length_le_sum {segments : List Segment} (h : ∀ segment ∈ segments, segment.key ≠ "") :
    segments.length ≤ (segments.map Segment.keyLen).sum := by
  induction segments with
  | nil => exact Nat.le_refl _
  | cons segment segments ih =>
    have hkey := h segment List.mem_cons_self
    have hpos : 0 < segment.keyLen := by
      unfold Segment.keyLen
      rw [Nat.pos_iff_ne_zero]
      intro hzero
      exact hkey (by simpa using hzero)
    have hrest := ih fun other hother => h other (List.mem_cons_of_mem _ hother)
    simp only [List.length_cons, List.map_cons, List.sum_cons]
    omega

/-- **ONE SEGMENT**: a resized first segment that takes all characters leaves none to others. -/
theorem size_resizeSegments {c : ConverterInterface} (hc : c.Lawful) {segments segments' : Segments}
    {request : ConversionRequest} (hkeyed : segments.Keyed)
    (hne : segments.conversionSegments ≠ []) (hshort : segments.conversionLength < 256)
    (hresized : c.resizeSegments segments request 0 [kanaOffset segments] = (true, segments')) :
    segments'.conversionSegmentsSize = 1 := by
  obtain ⟨hkey, -, hkeyed', hsizes⟩ := hc.resizeSegments hresized
  have hlength : segments'.conversionLength = segments.conversionLength := by
    rw [← Segments.length_conversionKey, hkey, Segments.length_conversionKey]
  have hoffset : (kanaOffset segments).toNat = segments.conversionLength := by
    rw [toNat_kanaOffset, Nat.mod_eq_of_lt hshort]
  have hpos : 0 < segments.conversionLength := by
    have := length_le_sum hkeyed
    have := List.length_pos_iff.mpr hne
    unfold Segments.conversionLength
    omega
  have hfirst := hsizes (by
    intro size hsize
    obtain rfl := List.mem_singleton.mp hsize
    rw [UInt8.lt_iff_toNat_lt, hoffset]
    exact hpos)
  unfold Segments.conversionSegmentsSize
  unfold Segments.conversionLength at hlength hoffset hpos
  unfold Segments.Keyed at hkeyed'
  cases hsegments : segments'.conversionSegments with
  | nil =>
    rw [hsegments] at hlength
    simp at hlength
    omega
  | cons first rest =>
    rw [hsegments] at hlength hfirst hkeyed'
    have hfirst' : first.keyLen = (kanaOffset segments).toNat := by simpa using hfirst
    have hrest := length_le_sum fun other hother => hkeyed' other (List.mem_cons_of_mem _ hother)
    simp only [List.map_cons, List.sum_cons] at hlength
    simp only [List.length_cons]
    omega

/-! ## Transliterations -/

variable {c : ConverterInterface} {t : Toolbox} {s : EngineConverter}

theorem Invariant.convertToTransliteration (hc : c.Lawful)
    (ht : ∀ segments : Segments, segments.Kept (t.rerank segments)) (hs : s.Invariant)
    (composer : Composer) (type : TransliterationType) :
    (s.convertToTransliteration c t composer type).2.Invariant := by
  have hs' := hs.cancelPrediction c
  unfold EngineConverter.convertToTransliteration
  dsimp only
  split
  · obtain ⟨hinvariant, hconverted⟩ := convertWithPreferences_spec hc ht (s.cancelPrediction c)
      composer (s.cancelPrediction c).conversionPreferences
    split
    · exact hinvariant
    next hstarted =>
      have hstate := (hconverted (by simpa [EngineConverter.convert] using hstarted)).1
      refine Invariant.finishTransliteration hc ?_ (CandidateListOf.ids_moveToAttributes _ _)
      split
      · exact Invariant.resizeSegmentWidth hc hinvariant (Or.inr hstate) composer _
      · exact hinvariant
  · refine hs'.finishTransliteration hc ?_
    split
    · exact ids_cycleAlphaCase _ _
    · exact CandidateListOf.ids_moveNextAttributes _ _

theorem Invariant.convertToHalfWidth (hc : c.Lawful)
    (ht : ∀ segments : Segments, segments.Kept (t.rerank segments)) (hs : s.Invariant)
    (composer : Composer) : (s.convertToHalfWidth c t composer).2.Invariant := by
  unfold EngineConverter.convertToHalfWidth
  dsimp only
  split
  · split <;> exact (hs.cancelPrediction c).convertToTransliteration hc ht composer _
  · split <;> exact (hs.cancelPrediction c).convertToTransliteration hc ht composer _

/-- The conversion that `SwitchKanaType` starts, if it starts one, has one segment, or its
    length is kept in eight bits. -/
def KanaFits (t : Toolbox) (c : ConverterInterface) (s : EngineConverter) (composer : Composer) :
    Prop :=
  let converted := (s.cancelPrediction c).convert c t composer
  (s.state ≠ .conversion ∧ converted.1 = true) →
    converted.2.segments.conversionSegmentsSize = 1
      ∨ converted.2.segments.conversionLength < 256

theorem Invariant.switchKanaType (hc : c.Lawful)
    (ht : ∀ segments : Segments, segments.Kept (t.rerank segments)) (hs : s.Invariant)
    (composer : Composer) (hfits : KanaFits t c s composer) :
    (s.switchKanaType c t composer).2.Invariant := by
  have hs' := hs.cancelPrediction c
  unfold EngineConverter.switchKanaType
  dsimp only
  split
  next hidle =>
    have hnot : s.state ≠ .conversion := by
      intro h
      simp [EngineConverter.cancelPrediction, h] at hidle
    obtain ⟨hinvariant, hconverted⟩ := convertWithPreferences_spec hc ht (s.cancelPrediction c)
      composer (s.cancelPrediction c).conversionPreferences
    unfold KanaFits EngineConverter.convert at hfits
    unfold EngineConverter.convert
    generalize (s.cancelPrediction c).convertWithPreferences c t composer
      (s.cancelPrediction c).conversionPreferences = converted at hinvariant hconverted hfits ⊢
    split
    · exact hinvariant
    next hstarted =>
      have hstarted' : converted.1 = true := by simpa using hstarted
      obtain ⟨hstate, hfocus, hindices, hkeyed⟩ := hconverted hstarted'
      refine Invariant.finishTransliteration hc ?_ (CandidateListOf.ids_moveNextAttributes _ _)
      split
      next hseveral =>
        have hshort := (hfits ⟨hnot, hstarted'⟩).resolve_left hseveral
        have hactive : converted.2.isActive := by simp [isActive, hstate]
        have hpos := hinvariant.focus hactive
        have hne : converted.2.segments.conversionSegments ≠ [] := by
          rw [← List.length_pos_iff]
          exact Nat.lt_of_le_of_lt (Nat.zero_le _) hpos
        cases hresized : c.resizeSegments converted.2.segments { composer } 0
            [kanaOffset converted.2.segments] with
        | mk resized segments =>
          cases resized with
          | false =>
            obtain rfl := hc.resizeSegments_failed hresized
            exact invariant_updateCandidateList t hinvariant.focus hinvariant.indices
              hinvariant.single hinvariant.filled
          | true =>
            have hsize := size_resizeSegments hc hkeyed hne hshort hresized
            refine invariant_updateCandidateList t ?_ ?_ (fun _ => hsize)
              (fun _ => (hc.resizeSegments hresized).2.1)
            · intro _
              show converted.2.segmentIndex < segments.conversionSegmentsSize
              omega
            · intro _
              show segments.conversionSegmentsSize
                ≤ converted.2.selectedCandidateIndices.length
              omega
      next => exact hinvariant
  next =>
    exact hs'.finishTransliteration hc (CandidateListOf.ids_moveNextAttributes _ _)

end EngineConverter

namespace EngineConverter

/-! ## Commits -/

variable {c : ConverterInterface} {t : Toolbox} {s : EngineConverter}

/-- A `CHECK` that holds, and the invariant after it. -/
def Succeeds (result : Option EngineConverter) : Prop :=
  ∃ s', result = some s' ∧ s'.Invariant

theorem commitSegmentsSize_eq {size : Nat} (h : size ≤ s.selectedCandidateIndices.length) :
    s.commitSegmentsSize size
      = some { s with selectedCandidateIndices := s.selectedCandidateIndices.drop size } :=
  if_pos h

theorem commitSegmentValues_spec (hc : c.Lawful) (s : EngineConverter) :
    ∃ segments, s.commitSegmentValues c = { s with segments } ∧
      segments.conversionSegmentsSize = s.segments.conversionSegmentsSize := by
  unfold commitSegmentValues
  generalize List.range s.segments.conversionSegmentsSize = indices
  induction indices generalizing s with
  | nil => exact ⟨s.segments, rfl, rfl⟩
  | cons i indices ih =>
    obtain ⟨segments, heq, hsize⟩ := ih
      { s with
        segments := (c.commitSegmentValue s.segments i (s.getCandidateIndexForConverter i)).2 }
    refine ⟨segments, heq, hsize.trans ?_⟩
    exact (hc.commitSegmentValue _ _ _).size

theorem Invariant.length_indices (hs : s.Invariant) (hstate : s.state ≠ .composition) :
    s.segments.conversionSegmentsSize ≤ s.selectedCandidateIndices.length ∧
      1 ≤ s.selectedCandidateIndices.length := by
  have hactive : s.isActive := by simp [isActive, hstate]
  have hindices := hs.indices hactive
  have hfocus := hs.focus hactive
  exact ⟨hindices, by omega⟩

theorem Invariant.commit (hc : c.Lawful) (hs : s.Invariant)
    (hstate : s.state = .prediction ∨ s.state = .conversion) (composer : Composer) :
    Succeeds (s.commit c composer) := by
  obtain ⟨hall, hone⟩ := hs.length_indices (by rcases hstate with h | h <;> simp [h])
  obtain ⟨updated, result, updatedCommand, hupdated⟩ :=
    updateResult_spec s.resetResult s.resetResult.segments.conversionSegmentsSize
  unfold EngineConverter.commit
  simp only [hupdated]
  cases updated with
  | false => exact ⟨_, rfl, invariant_resetState _⟩
  | true =>
    obtain ⟨segments, hcommitted, hsize⟩ := commitSegmentValues_spec hc
      { s.resetResult with result, updatedCommand }
    simp only [hcommitted, Bool.true_eq_false, if_false]
    have hsome : ∃ s₂, ({ s.resetResult with result, updatedCommand, segments } :
        EngineConverter).commitSegmentsSizeOfState s.state = some s₂ := by
      rcases hstate with h | h
      · rw [h]
        exact ⟨_, commitSegmentsSize_eq hone⟩
      · rw [h]
        exact ⟨_, commitSegmentsSize_eq (hsize.le.trans hall)⟩
    obtain ⟨s₂, h₂⟩ := hsome
    refine ⟨({ s₂ with segments := c.finishConversion { composer } s₂.segments } :
      EngineConverter).resetState, ?_, invariant_resetState _⟩
    exact Option.bind_eq_some_iff.mpr ⟨s₂, h₂, rfl⟩

theorem Invariant.commitSuggestionInternal (hc : c.Lawful) (hs : s.Invariant)
    (hstate : s.state = .suggestion) (composer : Composer) :
    Succeeds ((s.commitSuggestionInternal c composer).map Prod.snd) := by
  have hsingle := hs.single (Or.inl hstate)
  have hfocus := hs.segmentIndex_eq (Or.inl hstate)
  obtain ⟨-, hone⟩ := hs.length_indices (by simp [hstate])
  have hindices := List.length_pos_iff.mp hone
  obtain ⟨updated, result, updatedCommand, hupdated⟩ :=
    updateResult_spec s.resetResult s.resetResult.segments.conversionSegmentsSize
  unfold EngineConverter.commitSuggestionInternal
  simp only [hupdated]
  cases updated with
  | false => exact ⟨_, rfl, invariant_resetState _⟩
  | true =>
    simp only [Bool.true_eq_false, if_false]
    split
    · have hsize := fun id current new =>
        (hc.commitPartialSuggestionSegmentValue s.segments 0 id current new).trans hsingle
      split
      · exact ⟨_, rfl, invariant_single (Or.inl hstate) (hsize _ _ _) hfocus hindices⟩
      · refine ⟨_, Option.map_eq_some_iff.mpr ⟨_, Option.bind_eq_some_iff.mpr
          ⟨_, commitSegmentsSize_eq hone, rfl⟩, rfl⟩, ?_⟩
        refine invariant_single (Or.inl hstate) (hsize _ _ _) hfocus ?_
        refine List.ne_nil_of_length_pos ?_
        rw [initializeSelectedCandidateIndices, List.length_replicate]
        exact (hsize _ _ _).symm ▸ Nat.one_pos
    · have hsize := fun id => (hc.commitSegmentValue s.segments 0 id).size.trans hsingle
      split
      · exact ⟨_, rfl, invariant_single (Or.inl hstate) (hsize _) hfocus hindices⟩
      · exact ⟨_, Option.map_eq_some_iff.mpr ⟨_, Option.bind_eq_some_iff.mpr
          ⟨_, commitSegmentsSize_eq hone, rfl⟩, rfl⟩, invariant_resetState _⟩

end EngineConverter

namespace EngineConverter

variable {c : ConverterInterface} {t : Toolbox} {s : EngineConverter}

theorem Invariant.commitSegmentsInternal (hc : c.Lawful) (hs : s.Invariant)
    (hstate : s.state = .prediction ∨ s.state = .conversion) (composer : Composer)
    {size : Nat} (hpos : 0 < size) : Succeeds (s.commitSegmentsInternal c t composer size) := by
  have hhidden : ({ s.resetResult with candidateListVisible := false } :
      EngineConverter).Invariant :=
    hs.of_kept rfl rfl (Segments.Kept.refl _) rfl rfl
  have hfocus := hs.focus (isActive_of_state hstate)
  obtain ⟨hall, -⟩ := hs.length_indices (by rcases hstate with h | h <;> simp [h])
  unfold EngineConverter.commitSegmentsInternal
  dsimp only
  split
  · exact hhidden.commit hc hstate composer
  next hmore =>
    have hmore' : size < s.segments.conversionSegmentsSize := Nat.lt_of_not_le hmore
    have hconversion : s.state = .conversion := by
      rcases hstate with h | h
      · have := hs.single (Or.inr h)
        omega
      · exact h
    obtain ⟨updated, result, updatedCommand, hupdated⟩ :=
      updateResult_spec { s.resetResult with candidateListVisible := false } size
    simp only [hupdated]
    cases updated with
    | false => exact ⟨_, rfl, invariant_resetState _⟩
    | true =>
      simp only [Bool.true_eq_false, if_false]
      -- what is selected in the first segments can be committed
      have hrest : ∀ ids : List Int, ids = (List.range size).map s.getCandidateIndexForConverter →
          SameSegments (s.segments.conversionSegments.drop size)
            (c.commitSegments s.segments ids).2.conversionSegments := by
        rintro ids rfl
        have hlength : ((List.range size).map s.getCandidateIndexForConverter).length = size := by
          simp
        have hvalid : ∀ i < ((List.range size).map s.getCandidateIndexForConverter).length,
            (s.segments.conversionSegment i).isValidIndex
              (((List.range size).map s.getCandidateIndexForConverter).getD i 0) := by
          intro i hi
          rw [hlength] at hi
          have hindex := hs.isValidIndex hconversion (i := i) (by omega)
          simpa [List.getD_eq_getElem?_getD, hi] using hindex
        have h := hc.commitSegments (by omega) hvalid
        rw [hlength] at h
        exact h
      have hrest' := hrest _ rfl
      refine ⟨_, Option.bind_eq_some_iff.mpr ⟨_, commitSegmentsSize_eq ?_, rfl⟩, ?_⟩
      · show size ≤ s.selectedCandidateIndices.length
        omega
      · have hsize : (c.commitSegments s.segments ((List.range size).map
            s.getCandidateIndexForConverter)).2.conversionSegmentsSize
            = s.segments.conversionSegmentsSize - size := by
          unfold Segments.conversionSegmentsSize
          rw [← List.Forall₂.length_eq hrest', List.length_drop]
        refine invariant_updateCandidateList t ?_ ?_ ?_ ?_
        · intro _
          show (if size < s.segmentIndex then s.segmentIndex - size else 0)
            < (c.commitSegments s.segments ((List.range size).map
              s.getCandidateIndexForConverter)).2.conversionSegmentsSize
          rw [hsize]
          split <;> omega
        · intro _
          show (c.commitSegments s.segments ((List.range size).map
              s.getCandidateIndexForConverter)).2.conversionSegmentsSize
            ≤ (s.selectedCandidateIndices.drop size).length
          rw [hsize, List.length_drop]
          omega
        · intro hsingle
          exact absurd hsingle (by simp [EngineConverter.resetResult, hconversion])
        · intro _
          exact hrest'.filled fun segment hsegment =>
            hs.filled hconversion segment (List.mem_of_mem_drop hsegment)

theorem succeeds_commitPreedit (s : EngineConverter) (composer : Composer)
    (markPreeditAsReranked : Bool) (segmentKeys : List String) :
    Succeeds (s.commitPreedit c t composer markPreeditAsReranked segmentKeys) := by
  have hnone : ∀ s : EngineConverter, s.commitSegmentsSizeOfState .composition
      = some { s with selectedCandidateIndices := s.selectedCandidateIndices.drop 0 } :=
    fun s => commitSegmentsSize_eq (Nat.zero_le _)
  unfold commitPreedit
  dsimp only
  rw [hnone]
  exact ⟨_, rfl, invariant_resetState _⟩

theorem Invariant.commitSuggestionByIndex (hc : c.Lawful) (hs : s.Invariant)
    (hstate : s.state = .suggestion) (index : Nat) (composer : Composer) :
    Succeeds ((s.commitSuggestionByIndex c index composer).map Prod.snd) := by
  unfold EngineConverter.commitSuggestionByIndex
  split
  · exact ⟨s, rfl, hs⟩
  · have hmoved : ({ s with candidateList := (s.candidateList.moveToPageIndex index).2 } :
        EngineConverter).Invariant :=
      hs.of_kept rfl rfl (Segments.Kept.refl _) rfl (CandidateListOf.ids_moveToPageIndex _ _)
    exact hmoved.updateSelectedCandidateIndex.commitSuggestionInternal hc hstate composer

theorem Invariant.commitSuggestionById (hc : c.Lawful) (hs : s.Invariant)
    (hstate : s.state = .suggestion) (id : Int) (composer : Composer) :
    Succeeds ((s.commitSuggestionById c id composer).map Prod.snd) := by
  have hmoved : ({ s with candidateList := (s.candidateList.moveToId id).2 } :
      EngineConverter).Invariant :=
    hs.of_kept rfl rfl (Segments.Kept.refl _) rfl (CandidateListOf.ids_moveToId _ _)
  unfold EngineConverter.commitSuggestionById
  dsimp only
  split
  · exact ⟨_, rfl, hmoved⟩
  · exact hmoved.updateSelectedCandidateIndex.commitSuggestionInternal hc hstate composer

/-! ## One call, and a run -/

/-- `SwitchKanaType` is the only call with a condition. -/
def Fits (t : Toolbox) (s : EngineConverter) (call : Call) : Prop :=
  ∀ composer, call.operation = .switchKanaType composer → KanaFits t call.converter s composer

theorem succeeds_some {s : EngineConverter} (hs : s.Invariant) : Succeeds (some s) :=
  ⟨s, rfl, hs⟩

/-- **ONE CALL** keeps the invariant, and no `CHECK` fails. -/
theorem invariant_step (ht : ∀ segments : Segments, segments.Kept (t.rerank segments))
    (hc : c.Lawful) (hs : s.Invariant) {operation : Operation}
    (hallowed : operation.allowedIn s.state = true) (hfits : Fits t s ⟨c, operation⟩) :
    Succeeds (s.step t c operation) := by
  cases operation with
  | suggest composer preferences =>
    exact succeeds_some (invariant_suggestWithPreferences hc s composer preferences)
  | predict composer preferences =>
    exact succeeds_some (invariant_predictWithPreferences hc s composer preferences)
  | convert composer preferences =>
    exact succeeds_some (convertWithPreferences_spec hc ht s composer preferences).1
  | convertToTransliteration composer type =>
    exact succeeds_some (hs.convertToTransliteration hc ht composer type)
  | convertToHalfWidth composer => exact succeeds_some (hs.convertToHalfWidth hc ht composer)
  | switchKanaType composer =>
    exact succeeds_some (hs.switchKanaType hc ht composer (hfits composer rfl))
  | cancel => exact succeeds_some (invariant_cancel c s)
  | reset => exact succeeds_some (invariant_reset c s)
  | commit composer => exact hs.commit hc (by simpa [Operation.allowedIn] using hallowed) composer
  | commitSuggestionByIndex index composer =>
    exact hs.commitSuggestionByIndex hc (by simpa [Operation.allowedIn] using hallowed) index
      composer
  | commitSuggestionById id composer =>
    exact hs.commitSuggestionById hc (by simpa [Operation.allowedIn] using hallowed) id composer
  | commitHeadToFocusedSegments composer =>
    exact hs.commitSegmentsInternal hc (by simpa [Operation.allowedIn] using hallowed) composer
      (Nat.succ_pos _)
  | commitFirstSegment composer =>
    exact hs.commitSegmentsInternal hc (by simpa [Operation.allowedIn] using hallowed) composer
      Nat.one_pos
  | commitPreedit composer markPreeditAsReranked segmentKeys =>
    exact succeeds_commitPreedit s composer markPreeditAsReranked segmentKeys
  | segmentFocusRight =>
    exact succeeds_some
      (hs.segmentFocusRight hc (by simpa [Operation.allowedIn] using hallowed))
  | segmentFocusLast =>
    exact succeeds_some
      (hs.segmentFocusLast hc (by simpa [Operation.allowedIn] using hallowed))
  | segmentFocusLeft =>
    exact succeeds_some
      (hs.segmentFocusLeft hc (by simpa [Operation.allowedIn] using hallowed))
  | segmentFocusLeftEdge =>
    exact succeeds_some
      (hs.segmentFocusLeftEdge hc (by simpa [Operation.allowedIn] using hallowed))
  | segmentWidthExpand composer =>
    exact succeeds_some
      (hs.resizeSegmentWidth hc (by simpa [Operation.allowedIn] using hallowed) composer 1)
  | segmentWidthShrink composer =>
    exact succeeds_some
      (hs.resizeSegmentWidth hc (by simpa [Operation.allowedIn] using hallowed) composer (-1))
  | candidateNext composer => exact succeeds_some (hs.candidateNext hc composer)
  | candidateNextPage =>
    exact succeeds_some
      (hs.resetResult.moveCandidate hc (CandidateListOf.ids_moveNextPage _) true)
  | candidatePrev =>
    exact succeeds_some (hs.resetResult.moveCandidate hc (CandidateListOf.ids_movePrev _) true)
  | candidatePrevPage =>
    exact succeeds_some
      (hs.resetResult.moveCandidate hc (CandidateListOf.ids_movePrevPage _) true)
  | candidateMoveToId id composer => exact succeeds_some (hs.candidateMoveToId hc id composer)
  | candidateMoveToPageIndex index =>
    exact succeeds_some
      (hs.resetResult.moveCandidate hc (CandidateListOf.ids_moveToPageIndex _ _) false)
  | candidateMoveToShortcut shortcut =>
    exact succeeds_some (hs.candidateMoveToShortcut hc shortcut)
  | setCandidateListVisible visible =>
    exact succeeds_some (hs.of_kept rfl rfl (Segments.Kept.refl _) rfl rfl)
  | popOutput => exact succeeds_some (hs.of_kept rfl rfl (Segments.Kept.refl _) rfl rfl)

end EngineConverter

namespace EngineConverter

/-- The focus and the focused index are in range. -/
def InRange (s : EngineConverter) : Prop :=
  s.isActive → s.segmentIndex < s.segments.conversionSegmentsSize ∧
    s.segmentIndex < s.selectedCandidateIndices.length

/-- Every state of a run is in range, and no `CHECK` fails; a run ends at a call that is not
    made in its state. -/
def Safe (t : Toolbox) : EngineConverter → List Call → Prop
  | s, [] => s.InRange
  | s, call :: calls =>
    s.InRange ∧ (call.operation.allowedIn s.state = true →
      ∃ s', s.step t call.converter call.operation = some s' ∧ Safe t s' calls)

/-- Every `SwitchKanaType` of a run fits. -/
def AlwaysFits (t : Toolbox) : EngineConverter → List Call → Prop
  | _, [] => True
  | s, call :: calls =>
    Fits t s call ∧ ∀ s', s.step t call.converter call.operation = some s' → AlwaysFits t s' calls

theorem Invariant.inRange {s : EngineConverter} (hs : s.Invariant) : s.InRange := by
  intro hactive
  have hfocus := hs.focus hactive
  exact ⟨hfocus, Nat.lt_of_lt_of_le hfocus (hs.indices hactive)⟩

theorem safe_of_invariant (t : Toolbox)
    (ht : ∀ segments : Segments, segments.Kept (t.rerank segments)) (calls : List Call)
    (hlawful : ∀ call ∈ calls, call.converter.Lawful) : ∀ s : EngineConverter, s.Invariant →
    AlwaysFits t s calls → Safe t s calls := by
  induction calls with
  | nil => intro s hs _; exact hs.inRange
  | cons call calls ih =>
    rintro s hs ⟨hfits, hrest⟩
    refine ⟨hs.inRange, ?_⟩
    intro hallowed
    obtain ⟨s', hstep, hs'⟩ := invariant_step ht (hlawful call List.mem_cons_self) hs hallowed
      hfits
    exact ⟨s', hstep, ih (fun other hother => hlawful other (List.mem_cons_of_mem _ hother)) s'
      hs' (hrest s' hstep)⟩

/-- **IN RANGE** in every state of every run of calls, whatever a converter answers within
    what its interface promises, as long as every `SwitchKanaType` fits. -/
theorem bookkeeping_in_range (t : Toolbox)
    (ht : ∀ segments : Segments, segments.Kept (t.rerank segments)) (calls : List Call)
    (hlawful : ∀ call ∈ calls, call.converter.Lawful) (s : EngineConverter)
    (hstart : s.state = .composition) (hfits : AlwaysFits t s calls) : Safe t s calls :=
  safe_of_invariant t ht calls hlawful s (invariant_composition hstart) hfits

end EngineConverter

/-! ## A converter -/

/-- A segment with a candidate. -/
def sampleSegment (key : String) : Segment := { key, candidates := [{}] }

/-- A converter that knows one conversion, and one way to resize it. -/
def sampleConverter (keys resized : List String) (size : UInt8) : ConverterInterface where
  startConversion _ _ := (true, keys.map sampleSegment)
  startPrediction _ _ := (false, [])
  startPredictionWithPreviousSuggestion _ _ _ := (true, [sampleSegment ""])
  prependCandidates _ _ _ := [sampleSegment ""]
  finishConversion _ _ := []
  cancelConversion := Segments.clearConversionSegments
  resetConversion _ := []
  commitSegmentValue segments _ _ := (true, segments)
  commitPartialSuggestionSegmentValue segments _ _ _ _ := (true, segments)
  focusSegmentValue segments _ _ := (true, segments)
  commitSegments segments ids :=
    (true, (segments.conversionSegments.drop ids.length).map fun segment =>
      { segment with segmentType := .free })
  resizeSegment segments _ _ _ := (false, segments)
  resizeSegments segments _ start sizes :=
    if segments = keys.map sampleSegment ∧ start = 0 ∧ sizes = [size] then
      (true, resized.map sampleSegment)
    else (false, segments)

theorem conversionSegments_free {segments : List Segment}
    (h : ∀ segment ∈ segments, segment.segmentType = .free) :
    Segments.conversionSegments segments = segments := by
  cases segments with
  | nil => rfl
  | cons segment segments =>
    have hfree := h segment List.mem_cons_self
    simp [Segments.conversionSegments, Segment.isHistory, hfree]

theorem conversionSegments_sample (keys : List String) :
    Segments.conversionSegments (keys.map sampleSegment) = keys.map sampleSegment := by
  refine conversionSegments_free ?_
  intro segment hsegment
  obtain ⟨key, -, rfl⟩ := List.mem_map.mp hsegment
  rfl

theorem filled_sample (keys : List String) :
    Segments.Filled (keys.map sampleSegment) := by
  intro segment hsegment
  rw [conversionSegments_sample] at hsegment
  obtain ⟨key, -, rfl⟩ := List.mem_map.mp hsegment
  simp [sampleSegment]

theorem keyed_sample {keys : List String} (h : "" ∉ keys) :
    Segments.Keyed (keys.map sampleSegment) := by
  intro segment hsegment hempty
  rw [conversionSegments_sample] at hsegment
  obtain ⟨key, hkey, rfl⟩ := List.mem_map.mp hsegment
  exact h (by simpa [sampleSegment] using hempty ▸ hkey)

theorem conversionKey_sample (keys : List String) :
    Segments.conversionKey (keys.map sampleSegment) = keys.flatMap String.toList := by
  unfold Segments.conversionKey
  rw [conversionSegments_sample, List.flatMap_map]
  rfl

/-- It keeps what the interface promises where it resizes to the size it is given. -/
theorem lawful_sampleConverter {keys resized : List String} {size : UInt8} (hne : keys ≠ [])
    (hkeys : "" ∉ keys) (hresized : "" ∉ resized)
    (hsame : resized.flatMap String.toList = keys.flatMap String.toList)
    (hsize : (resized.take 1).map String.length = [size.toNat]) :
    (sampleConverter keys resized size).Lawful where
  startConversion := by
    rintro request segments segments' ⟨⟩
    refine ⟨?_, filled_sample keys, keyed_sample hkeys⟩
    rw [conversionSegments_sample]
    simpa using hne
  startPrediction := by rintro request segments segments' - ⟨⟩
  startPredictionWithPreviousSuggestion := by
    rintro request previous segments started segments' - ⟨⟩ -
    rfl
  prependCandidates := by
    intro request previous segments _
    rfl
  commitSegmentValue := fun segments _ _ => Segments.Kept.refl segments
  focusSegmentValue := fun segments _ _ => Segments.Kept.refl segments
  commitPartialSuggestionSegmentValue := fun _ _ _ _ _ => rfl
  commitSegments := by
    intro segments ids _ _
    have hfree : Segments.conversionSegments ((segments.conversionSegments.drop ids.length).map
        fun segment => { segment with segmentType := .free })
          = (segments.conversionSegments.drop ids.length).map
            fun segment => { segment with segmentType := .free } := by
      refine conversionSegments_free ?_
      intro segment hsegment
      obtain ⟨before, -, rfl⟩ := List.mem_map.mp hsegment
      rfl
    unfold SameSegments sampleConverter
    dsimp only
    rw [hfree, List.forall₂_map_right_iff]
    exact List.forall₂_same.mpr fun _ _ => ⟨rfl, Nat.le_refl _⟩
  resizeSegment := by rintro segments request index delta segments' ⟨⟩
  resizeSegment_failed := by
    rintro segments request index delta segments' ⟨⟩
    rfl
  resizeSegments := by
    intro segments request start sizes segments' h
    unfold sampleConverter at h
    dsimp only at h
    split at h
    next hmatches =>
      obtain ⟨rfl, rfl, rfl⟩ := hmatches
      cases h
      refine ⟨?_, filled_sample resized, keyed_sample hresized, ?_⟩
      · rw [conversionKey_sample, conversionKey_sample, hsame]
      · intro _
        rw [conversionSegments_sample]
        simpa [← List.map_take, Function.comp_def, sampleSegment, Segment.keyLen] using hsize
    next => cases h
  resizeSegments_failed := by
    intro segments request start sizes segments' h
    unfold sampleConverter at h
    dsimp only at h
    split at h
    next => cases h
    next =>
      cases h
      rfl

/-- Functions on texts that do nothing. -/
def sampleToolbox : Toolbox where
  cityFingerprint _ := 0
  rerank := id
  containsKana _ := true
  normalizeText := id

/-- A composer without text. -/
def sampleComposer : Composer :=
  { cursor := 0, length := 0, preedit := "", submission := "", query := "", password := false }

namespace EngineConverter

/-- A conversion into two segments becomes one segment in katakana, and is committed. -/
theorem bookkeeping_in_range_kana :
    Safe sampleToolbox {} [⟨sampleConverter ["a", "b"] ["ab"] 2,
        .switchKanaType sampleComposer⟩,
      ⟨sampleConverter ["a", "b"] ["ab"] 2, .commit sampleComposer⟩] := by
  have hlawful : (sampleConverter ["a", "b"] ["ab"] 2).Lawful :=
    lawful_sampleConverter (by decide) (by decide) (by decide) (by decide +kernel)
      (by decide +kernel)
  refine bookkeeping_in_range sampleToolbox Segments.Kept.refl _ ?_ {} rfl ⟨?_, ?_⟩
  · intro call hcall
    rcases List.mem_cons.mp hcall with rfl | hcall
    · exact hlawful
    · obtain rfl := List.mem_singleton.mp hcall
      exact hlawful
  · rintro composer ⟨⟩ _
    right
    decide +kernel
  · rintro s' -
    exact ⟨by rintro composer ⟨⟩, fun _ _ => trivial⟩

/-- A key of many characters. -/
def sampleKey (length : Nat) : String := String.ofList (List.replicate length 'a')

/-- A converter of two segments of 128 and 129 characters: 257 is 1 in eight bits, so the first
    segment is resized to one character, and the rest becomes two segments. -/
def longConverter : ConverterInterface :=
  sampleConverter [sampleKey 128, sampleKey 129] [sampleKey 1, sampleKey 128, sampleKey 128] 1

@[simp] theorem length_sampleKey (length : Nat) : (sampleKey length).length = length := by
  simp [sampleKey]

theorem sampleKey_ne_empty {length : Nat} (h : 0 < length) : sampleKey length ≠ "" := by
  intro hempty
  have := length_sampleKey length
  rw [hempty] at this
  simp at this
  omega

/-- The three segments have two indices, and the `CHECK` of the commit fails. -/
theorem check_fails : longConverter.Lawful ∧
    ¬ Safe sampleToolbox {} [⟨longConverter, .switchKanaType sampleComposer⟩,
      ⟨longConverter, .commit sampleComposer⟩] := by
  refine ⟨?_, ?_⟩
  · refine lawful_sampleConverter (by simp) ?_ ?_ ?_ ?_
    · simp [sampleKey_ne_empty]
    · simp [sampleKey_ne_empty]
    · simp [sampleKey]
    · simp
  · rintro ⟨-, h⟩
    obtain ⟨s', hstep, -, h'⟩ := h rfl
    have hrun : (({} : EngineConverter).step sampleToolbox longConverter
        (.switchKanaType sampleComposer)).map (fun s =>
          (s.state, (s.step sampleToolbox longConverter (.commit sampleComposer)).isNone))
            = some (.conversion, true) := by
      decide +kernel
    rw [hstep] at hrun
    obtain ⟨hstate, hcheck⟩ : s'.state = .conversion ∧
        s'.step sampleToolbox longConverter (.commit sampleComposer) = none := by
      simpa using hrun
    obtain ⟨s'', hcommit, -⟩ := h' (by simp [Operation.allowedIn, hstate])
    have hsome : some s'' = none := hcommit.symm.trans hcheck
    cases hsome

end EngineConverter

end MozkeyEngine
