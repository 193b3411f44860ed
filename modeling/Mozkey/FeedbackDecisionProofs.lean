import Mozkey.SortedMapProofs
import Mozkey.FeedbackRecordProofs

/-! # Feedback decisions — one value at a time, or all values ranked

    `ZenzFeedbackStore` answers two questions about the same records.  `Decide`
    sums the counts of one value; `GetRankedCandidates` sums them per value in
    two maps and filters the maps.  This file embeds both and compares them.

    * `sensitive_isolation`: `sensitive_like` records and all others never
      influence each other's lookups. -/

namespace MozkeyFeedback

open ByteString OrderedMap

/-- The weights of feedback, and the thresholds. -/
def kAcceptThreshold : Int := 1
def kAcceptedFeedbackWeight : Int := 1000
def kSpaceRevertRejectWeight : Int := 150
def kPredictAfterZenzRejectWeight : Int := 200
def kExplicitConversionRejectWeight : Int := 400
def kLegacyRejectWeight : Int := 400
def kHardRejectWeight : Int := 2000

/-- What is to be done with a value of Zenz. -/
inductive ZenzFeedbackAction where
  | kNeutral
  | kPrefer
  | kReject
  deriving DecidableEq

/-- From how many rejections on a value is blocked, if at all. -/
structure ZenzFeedbackAutoBlockPolicy where
  enabled : Bool := false
  rejectThreshold : Int := 0

/-- The action, with the counts it was taken on. -/
structure ZenzFeedbackDecision where
  action : ZenzFeedbackAction := .kNeutral
  reason : Bytes := ascii "feedback_neutral"
  acceptedCount : Int := 0
  rejectedCount : Int := 0
  positiveScore : Int := 0
  negativeScore : Int := 0
  totalScore : Int := 0
  autoBlockRejectCount : Int := 0
  hardRejected : Bool := false
  autoBlocked : Bool := false
  deriving DecidableEq

/-- A value with its decision. -/
structure ZenzFeedbackCandidate where
  value : Bytes
  acceptedCount : Int := 0
  rejectedCount : Int := 0
  positiveScore : Int := 0
  negativeScore : Int := 0
  totalScore : Int := 0
  autoBlockRejectCount : Int := 0
  hardRejected : Bool := false
  autoBlocked : Bool := false
  reason : Bytes := ascii "feedback_neutral"
  deriving DecidableEq

/-- How often a value was accepted and rejected, with the scores. -/
structure Counts where
  accepted : Int := 0
  rejected : Int := 0
  autoBlockRejected : Int := 0
  positiveScore : Int := 0
  negativeScore : Int := 0
  hardRejected : Bool := false
  deriving DecidableEq

/-- What speaks for a value, less what speaks against it. -/
def totalScore (c : Counts) : Int := c.positiveScore - c.negativeScore

/-- The reasons of a hard rejection. -/
def isHardRejectReason (reason : Bytes) : Bool :=
  reason == ascii "hard_reject"
    || reason == ascii "user_hard_reject"
    || reason == ascii "manual_hard_reject"
    || reason == ascii "explicit_hard_reject"

/-- How much a rejection weighs. -/
def rejectWeightForReason (reason : Bytes) : Int :=
  if isHardRejectReason reason then kHardRejectWeight
  else if reason = ascii "space_revert_zenz_to_mozc" then kSpaceRevertRejectWeight
  else if reason = ascii "predict_after_zenz" then kPredictAfterZenzRejectWeight
  else if reason = ascii "explicit_conversion_after_zenz" then
    kExplicitConversionRejectWeight
  else kLegacyRejectWeight

/-- One more acceptance. -/
def addAccepted (c : Counts) : Counts :=
  { c with
    accepted := c.accepted + 1
    positiveScore := c.positiveScore + kAcceptedFeedbackWeight }

/-- One more rejection for a reason. -/
def addRejected (reason : Bytes) (c : Counts) : Counts :=
  { c with
    rejected := c.rejected + 1
    negativeScore := c.negativeScore + rejectWeightForReason reason
    autoBlockRejected :=
      if isHardRejectReason reason then c.autoBlockRejected else c.autoBlockRejected + 1
    hardRejected := c.hardRejected || isHardRejectReason reason }

/-- The counts of two groups of records. -/
def mergeCounts (src dest : Counts) : Counts where
  accepted := dest.accepted + src.accepted
  rejected := dest.rejected + src.rejected
  autoBlockRejected := dest.autoBlockRejected + src.autoBlockRejected
  positiveScore := dest.positiveScore + src.positiveScore
  negativeScore := dest.negativeScore + src.negativeScore
  hardRejected := dest.hardRejected || src.hardRejected

/-- A policy that is off or has no positive threshold is the default one. -/
def normalizeAutoBlockPolicy (policy : ZenzFeedbackAutoBlockPolicy) :
    ZenzFeedbackAutoBlockPolicy :=
  if !policy.enabled ∨ policy.rejectThreshold ≤ 0 then {} else policy

/-- Has a value been rejected often enough to be blocked? -/
def isAutoBlockedByPolicy (c : Counts) (autoBlockPolicy : ZenzFeedbackAutoBlockPolicy) :
    Bool :=
  let policy := normalizeAutoBlockPolicy autoBlockPolicy
  policy.enabled && decide (c.autoBlockRejected ≥ policy.rejectThreshold)

/-- `IsRejectCountDominant`. -/
def isRejectCountDominant (c : Counts) : Bool := decide (c.autoBlockRejected > c.accepted)

/-- A preferred value is not preferred any more where rejections prevail. -/
def applyRejectDominanceDecision (exactCounts : Counts) (decision : ZenzFeedbackDecision) :
    ZenzFeedbackDecision :=
  if decision.hardRejected ∨ decision.autoBlocked ∨ decision.action ≠ .kPrefer then decision
  else
    let decision := { decision with autoBlockRejectCount := exactCounts.autoBlockRejected }
    if !isRejectCountDominant exactCounts then decision
    else
      { decision with
        action := .kNeutral
        reason := ascii "feedback_reject_count_dominant" }

/-- A value is blocked by its own counts. -/
def applyAutoBlockDecision (exactCounts : Counts)
    (autoBlockPolicy : ZenzFeedbackAutoBlockPolicy) (decision : ZenzFeedbackDecision) :
    ZenzFeedbackDecision :=
  if decision.hardRejected then decision
  else
    let decision := { decision with autoBlockRejectCount := exactCounts.autoBlockRejected }
    if !isAutoBlockedByPolicy exactCounts autoBlockPolicy then decision
    else
      { decision with
        action := .kReject
        reason := ascii "feedback_auto_blocked"
        autoBlocked := true }

/-- Classes of fields whose feedback stays apart. -/
def isSensitiveFeedbackContextClass (contextClass : Bytes) : Bool :=
  contextClass == ascii "sensitive_like"

/-- Classes whose feedback may promote in each other. -/
def isSharedPromotionContextClass (contextClass : Bytes) : Bool :=
  contextClass == ascii "empty"
    || contextClass == ascii "japanese_only"
    || contextClass == ascii "japanese_with_punctuation"
    || contextClass == ascii "mixed_japanese_ascii"
    || contextClass == ascii "symbol_or_other"
    || contextClass == ascii "legacy"

/-- The body shared, line for line, by the two compatibility predicates. -/
def isCompatibleContextClass (requestedContextClass recordContextClass : Bytes) : Bool :=
  if requestedContextClass = recordContextClass then true
  else if isSensitiveFeedbackContextClass requestedContextClass
      || isSensitiveFeedbackContextClass recordContextClass then false
  else if isSharedPromotionContextClass requestedContextClass
      && isSharedPromotionContextClass recordContextClass then true
  else false

/-- `IsPromotionCompatibleContextClass`. -/
def isPromotionCompatibleContextClass (requestedContextClass recordContextClass : Bytes) :
    Bool :=
  isCompatibleContextClass requestedContextClass recordContextClass

/-- `IsDecisionCompatibleContextClass`. -/
def isDecisionCompatibleContextClass (requestedContextClass recordContextClass : Bytes) :
    Bool :=
  isCompatibleContextClass requestedContextClass recordContextClass

/-- The decision on counts, before dominance and blocking. -/
def buildDecisionFromCounts (c : Counts) : ZenzFeedbackDecision :=
  let decision : ZenzFeedbackDecision :=
    { acceptedCount := c.accepted
      rejectedCount := c.rejected
      autoBlockRejectCount := c.autoBlockRejected
      positiveScore := c.positiveScore
      negativeScore := c.negativeScore
      totalScore := totalScore c
      hardRejected := c.hardRejected }
  if c.hardRejected then
    { decision with action := .kReject, reason := ascii "feedback_hard_rejected" }
  else if c.accepted ≥ kAcceptThreshold ∧ decision.totalScore > 0 then
    { decision with action := .kPrefer, reason := ascii "feedback_preferred" }
  else
    { decision with
      action := .kNeutral
      reason := if c.rejected > 0 then ascii "feedback_downgraded"
                else ascii "feedback_neutral" }

/-! ## The two aggregations -/

/-- `FeedbackKey`: key, context class, value, compared lexicographically. -/
abbrev FeedbackKey := Bytes ×ₗ Bytes ×ₗ Bytes

/-- The key a record is counted under. -/
def feedbackKey (record : ParsedFeedbackRecord) : FeedbackKey :=
  toLex (record.key, toLex (record.contextClass, record.value))

/-- The fields of a `FeedbackKey` (`std::get<0>`, `<1>`, `<2>`). -/
def FeedbackKey.key (k : FeedbackKey) : Bytes := (ofLex k).1

/-- The context class of a key. -/
def FeedbackKey.contextClass (k : FeedbackKey) : Bytes := (ofLex (ofLex k).2).1

/-- The value of a key. -/
def FeedbackKey.value (k : FeedbackKey) : Bytes := (ofLex (ofLex k).2).2

/-- What one record does to the counts of its key. -/
def addRecord (record : ParsedFeedbackRecord) (c : Counts) : Counts :=
  if record.action = ascii "accepted" then addAccepted c
  else if record.action = ascii "rejected" then addRejected record.reason c
  else c

/-- `LoadCounts` on the loaded records. -/
def loadCounts (records : List ParsedFeedbackRecord) : SortedMap FeedbackKey Counts :=
  records.foldl (fun counts record => counts.modify (feedbackKey record) {}
    (addRecord record)) SortedMap.empty

/-- The loop body of `Decide`, on `(aggregated, exact)`. -/
def decideStep (key contextClass value : Bytes) (acc : Counts × Counts)
    (item : FeedbackKey × Counts) : Counts × Counts :=
  if item.1.key ≠ key ∨ item.1.value ≠ value then acc
  else
    let exact :=
      if item.1.contextClass = contextClass then mergeCounts item.2 acc.2 else acc.2
    if !isDecisionCompatibleContextClass contextClass item.1.contextClass then (acc.1, exact)
    else (mergeCounts item.2 acc.1, exact)

/-- The loop of `Decide` over the counts: `(aggregated, exact)`. -/
def decideCounts (counts : SortedMap FeedbackKey Counts) (key contextClass value : Bytes) :
    Counts × Counts :=
  counts.entries.foldl (decideStep key contextClass value) ({}, {})

/-- `ZenzFeedbackStore::Decide`. -/
def decideFeedback (records : List ParsedFeedbackRecord) (key contextClass value : Bytes)
    (autoBlockPolicy : ZenzFeedbackAutoBlockPolicy) : ZenzFeedbackDecision :=
  let acc := decideCounts (loadCounts records) key (normalizeContextClass contextClass) value
  applyAutoBlockDecision acc.2 autoBlockPolicy
    (applyRejectDominanceDecision acc.2 (buildDecisionFromCounts acc.1))

/-- The loop body of `GetRankedCandidates`, on `(value_counts, exact_value_counts)`. -/
def rankStep (key contextClass : Bytes)
    (acc : SortedMap Bytes Counts × SortedMap Bytes Counts)
    (item : FeedbackKey × Counts) : SortedMap Bytes Counts × SortedMap Bytes Counts :=
  if item.1.key ≠ key then acc
  else
    let exact :=
      if item.1.contextClass = contextClass then
        acc.2.modify item.1.value {} (mergeCounts item.2)
      else acc.2
    if !isPromotionCompatibleContextClass contextClass item.1.contextClass then (acc.1, exact)
    else (acc.1.modify item.1.value {} (mergeCounts item.2), exact)

/-- The loop of `GetRankedCandidates` over the counts:
    `(value_counts, exact_value_counts)`. -/
def rankCounts (counts : SortedMap FeedbackKey Counts) (key contextClass : Bytes) :
    SortedMap Bytes Counts × SortedMap Bytes Counts :=
  counts.entries.foldl (rankStep key contextClass) (SortedMap.empty, SortedMap.empty)

/-- The candidate made for one entry of `value_counts`, unless it is skipped. -/
def rankedCandidate (exactValueCounts : SortedMap Bytes Counts)
    (autoBlockPolicy : ZenzFeedbackAutoBlockPolicy) (item : Bytes × Counts) :
    Option ZenzFeedbackCandidate :=
  let c := item.2
  let exactCounts := (exactValueCounts.get? item.1).getD {}
  if c.hardRejected
      || isAutoBlockedByPolicy exactCounts autoBlockPolicy
      || isRejectCountDominant exactCounts
      || decide (c.accepted < kAcceptThreshold)
      || decide (totalScore c ≤ 0) then none
  else
    some
      { value := item.1
        acceptedCount := c.accepted
        rejectedCount := c.rejected
        positiveScore := c.positiveScore
        negativeScore := c.negativeScore
        totalScore := totalScore c
        autoBlockRejectCount := exactCounts.autoBlockRejected
        hardRejected := c.hardRejected
        autoBlocked := false
        reason := ascii "feedback_preferred" }

/-- The comparator of the final sort. -/
def rankedBefore (a b : ZenzFeedbackCandidate) : Prop :=
  if a.totalScore ≠ b.totalScore then a.totalScore > b.totalScore
  else if a.positiveScore ≠ b.positiveScore then a.positiveScore > b.positiveScore
  else if a.negativeScore ≠ b.negativeScore then a.negativeScore < b.negativeScore
  else a.value < b.value

instance (a b : ZenzFeedbackCandidate) : Decidable (rankedBefore a b) := by
  unfold rankedBefore; infer_instance

/-- `ZenzFeedbackStore::GetRankedCandidates`. -/
def getRankedCandidates (records : List ParsedFeedbackRecord) (key contextClass : Bytes)
    (autoBlockPolicy : ZenzFeedbackAutoBlockPolicy) : List ZenzFeedbackCandidate :=
  let acc := rankCounts (loadCounts records) key (normalizeContextClass contextClass)
  (acc.1.entries.filterMap (rankedCandidate acc.2 autoBlockPolicy)).insertionSort
    (fun a b => ¬ rankedBefore b a)

/-! ## Agreement of the two queries -/

/-- The two maps, read at one value, are the two accumulators. -/
def RankMatches (value : Bytes) (d : Counts × Counts)
    (r : SortedMap Bytes Counts × SortedMap Bytes Counts) : Prop :=
  (r.1.get? value).getD {} = d.1 ∧ (r.2.get? value).getD {} = d.2

theorem getD_modify (m : SortedMap Bytes Counts) (k v : Bytes) (c : Counts) :
    ((m.modify k {} (mergeCounts c)).get? v).getD {}
      = if v = k then mergeCounts c ((m.get? v).getD {}) else (m.get? v).getD {} := by
  rw [SortedMap.get?_modify]
  by_cases h : v = k
  · rw [if_pos h, if_pos h, h]; rfl
  · rw [if_neg h, if_neg h]

theorem rankStep_matches (key contextClass value : Bytes) {d : Counts × Counts}
    {r : SortedMap Bytes Counts × SortedMap Bytes Counts} (h : RankMatches value d r)
    (item : FeedbackKey × Counts) :
    RankMatches value (decideStep key contextClass value d item)
      (rankStep key contextClass r item) := by
  obtain ⟨h1, h2⟩ := h
  rw [decideStep, rankStep]
  by_cases hk : item.1.key = key
  · rw [if_neg (not_not.mpr hk)]
    by_cases hv : item.1.value = value
    · -- the item counts for this value, in both loops alike
      rw [if_neg (not_or.mpr ⟨not_not.mpr hk, not_not.mpr hv⟩), hv]
      have hexact : ((if item.1.contextClass = contextClass then
            r.2.modify value {} (mergeCounts item.2) else r.2).get? value).getD {}
          = if item.1.contextClass = contextClass then mergeCounts item.2 d.2 else d.2 := by
        by_cases hc : item.1.contextClass = contextClass
        · rw [if_pos hc, if_pos hc, getD_modify, if_pos rfl, h2]
        · rw [if_neg hc, if_neg hc, h2]
      show RankMatches value
        (if !isCompatibleContextClass contextClass item.1.contextClass then _ else _)
        (if !isCompatibleContextClass contextClass item.1.contextClass then _ else _)
      cases isCompatibleContextClass contextClass item.1.contextClass with
      | false => exact ⟨h1, hexact⟩
      | true =>
        refine ⟨?_, hexact⟩
        show ((r.1.modify value {} (mergeCounts item.2)).get? value).getD {} = _
        rw [getD_modify, if_pos rfl, h1]
        rfl
    · -- the item writes another value
      rw [if_pos (Or.inr hv)]
      have hne : ¬ value = item.1.value := fun h' => hv h'.symm
      have hexact : ((if item.1.contextClass = contextClass then
            r.2.modify item.1.value {} (mergeCounts item.2) else r.2).get? value).getD {}
          = d.2 := by
        by_cases hc : item.1.contextClass = contextClass
        · rw [if_pos hc, getD_modify, if_neg hne, h2]
        · rw [if_neg hc, h2]
      show RankMatches value d
        (if !isCompatibleContextClass contextClass item.1.contextClass then _ else _)
      cases isCompatibleContextClass contextClass item.1.contextClass with
      | false => exact ⟨h1, hexact⟩
      | true =>
        refine ⟨?_, hexact⟩
        show ((r.1.modify item.1.value {} (mergeCounts item.2)).get? value).getD {} = _
        rw [getD_modify, if_neg hne, h1]
  · rw [if_pos (Or.inl hk), if_pos hk]
    exact ⟨h1, h2⟩

/-- **THE RANKING SIMULATES THE DECISION**, at every value and through the whole
    loop over the counts. -/
theorem rank_simulates_decide (counts : SortedMap FeedbackKey Counts)
    (key contextClass value : Bytes) :
    RankMatches value (decideCounts counts key contextClass value)
      (rankCounts counts key contextClass) := by
  have hrun : ∀ (L : List (FeedbackKey × Counts)) (d : Counts × Counts)
      (r : SortedMap Bytes Counts × SortedMap Bytes Counts), RankMatches value d r →
      RankMatches value (L.foldl (decideStep key contextClass value) d)
        (L.foldl (rankStep key contextClass) r) := by
    intro L
    induction L with
    | nil => intro d r h; exact h
    | cons item L ih =>
      intro d r h
      exact ih _ _ (rankStep_matches key contextClass value h item)
  exact hrun counts.entries _ _ ⟨rfl, rfl⟩

/-- The condition both queries test, on the aggregated and the exact counts. -/
def Preferred (c exact : Counts) (policy : ZenzFeedbackAutoBlockPolicy) : Prop :=
  c.hardRejected = false ∧ isAutoBlockedByPolicy exact policy = false ∧
    isRejectCountDominant exact = false ∧ kAcceptThreshold ≤ c.accepted ∧ 0 < totalScore c

/-- The decision made from the final accumulators. -/
def decisionOf (c exact : Counts) (policy : ZenzFeedbackAutoBlockPolicy) :
    ZenzFeedbackDecision :=
  applyAutoBlockDecision exact policy
    (applyRejectDominanceDecision exact (buildDecisionFromCounts c))

/-- What a decision reports when the tested condition holds. -/
def preferredDecision (c exact : Counts) : ZenzFeedbackDecision where
  action := .kPrefer
  reason := ascii "feedback_preferred"
  acceptedCount := c.accepted
  rejectedCount := c.rejected
  positiveScore := c.positiveScore
  negativeScore := c.negativeScore
  totalScore := totalScore c
  autoBlockRejectCount := exact.autoBlockRejected
  hardRejected := false
  autoBlocked := false

variable {policy : ZenzFeedbackAutoBlockPolicy}

theorem decisionOf_preferred {c exact : Counts} (h : Preferred c exact policy) :
    decisionOf c exact policy = preferredDecision c exact := by
  obtain ⟨hhard, hblock, hdom, hacc, htot⟩ := h
  simp [decisionOf, buildDecisionFromCounts, applyRejectDominanceDecision,
    applyAutoBlockDecision, preferredDecision, hhard, hblock, hdom, hacc, htot]

theorem preferred_of_decisionOf {c exact : Counts}
    (h : (decisionOf c exact policy).action = .kPrefer) : Preferred c exact policy := by
  cases hhard : c.hardRejected with
  | true =>
    simp [decisionOf, buildDecisionFromCounts, applyRejectDominanceDecision,
      applyAutoBlockDecision, hhard] at h
  | false =>
    by_cases hpos : kAcceptThreshold ≤ c.accepted ∧ 0 < totalScore c
    · cases hdom : isRejectCountDominant exact <;>
        cases hblock : isAutoBlockedByPolicy exact policy <;>
        simp [decisionOf, buildDecisionFromCounts, applyRejectDominanceDecision,
          applyAutoBlockDecision, hhard, hdom, hblock, hpos] at h
      exact ⟨hhard, hblock, hdom, hpos.1, hpos.2⟩
    · cases hblock : isAutoBlockedByPolicy exact policy <;>
        simp [decisionOf, buildDecisionFromCounts, applyRejectDominanceDecision,
          applyAutoBlockDecision, hhard, hblock, hpos] at h

theorem rankedCandidate_eq_some_iff (exactValueCounts : SortedMap Bytes Counts)
    (policy : ZenzFeedbackAutoBlockPolicy) (value : Bytes) (c : Counts)
    (cand : ZenzFeedbackCandidate) :
    rankedCandidate exactValueCounts policy (value, c) = some cand ↔
      Preferred c ((exactValueCounts.get? value).getD {}) policy ∧
      cand =
        { value := value
          acceptedCount := c.accepted
          rejectedCount := c.rejected
          positiveScore := c.positiveScore
          negativeScore := c.negativeScore
          totalScore := totalScore c
          autoBlockRejectCount := ((exactValueCounts.get? value).getD {}).autoBlockRejected
          hardRejected := false
          autoBlocked := false
          reason := ascii "feedback_preferred" } := by
  rw [rankedCandidate]
  dsimp only
  split
  · rename_i hskip
    constructor
    · intro h
      exact nomatch h
    · rintro ⟨⟨hhard, hblock, hdom, hacc, htot⟩, -⟩
      simp [hhard, hblock, hdom] at hskip
      omega
  · rename_i hkeep
    simp only [Bool.or_eq_true, decide_eq_true_eq, not_or, Bool.not_eq_true, not_lt,
      not_le] at hkeep
    obtain ⟨⟨⟨⟨hhard, hblock⟩, hdom⟩, hacc⟩, htot⟩ := hkeep
    constructor
    · intro h
      refine ⟨⟨hhard, hblock, hdom, hacc, htot⟩, ?_⟩
      rw [← Option.some.inj h, hhard]
    · rintro ⟨-, rfl⟩
      rw [hhard]

theorem not_preferred_default (exact : Counts) (policy : ZenzFeedbackAutoBlockPolicy) :
    ¬ Preferred {} exact policy := by
  rintro ⟨-, -, -, hacc, -⟩
  exact absurd hacc (by decide)

theorem mem_getRankedCandidates_iff (records : List ParsedFeedbackRecord)
    (key contextClass : Bytes) (policy : ZenzFeedbackAutoBlockPolicy)
    (cand : ZenzFeedbackCandidate) :
    cand ∈ getRankedCandidates records key contextClass policy ↔
      ∃ value c, (rankCounts (loadCounts records) key
          (normalizeContextClass contextClass)).1.get? value = some c ∧
        rankedCandidate (rankCounts (loadCounts records) key
          (normalizeContextClass contextClass)).2 policy (value, c) = some cand := by
  rw [getRankedCandidates, List.mem_insertionSort, List.mem_filterMap]
  constructor
  · rintro ⟨⟨value, c⟩, hmem, hc⟩
    exact ⟨value, c, (SortedMap.mem_entries_iff _ _ _).mp hmem, hc⟩
  · rintro ⟨value, c, hget, hc⟩
    exact ⟨(value, c), (SortedMap.mem_entries_iff _ _ _).mpr hget, hc⟩

/-- The decision for a value, read off the two maps of the ranking. -/
theorem decideFeedback_eq (records : List ParsedFeedbackRecord)
    (key contextClass value : Bytes) (policy : ZenzFeedbackAutoBlockPolicy) :
    decideFeedback records key contextClass value policy
      = decisionOf
          (((rankCounts (loadCounts records) key
            (normalizeContextClass contextClass)).1.get? value).getD {})
          (((rankCounts (loadCounts records) key
            (normalizeContextClass contextClass)).2.get? value).getD {}) policy := by
  obtain ⟨h1, h2⟩ := rank_simulates_decide (loadCounts records) key
    (normalizeContextClass contextClass) value
  rw [h1, h2]
  rfl

theorem ranked_reports_decision {records : List ParsedFeedbackRecord} {key contextClass : Bytes}
    {cand : ZenzFeedbackCandidate} (h : cand ∈ getRankedCandidates records key contextClass policy)
    :
    ∃ c exact : Counts, Preferred c exact policy ∧
      decideFeedback records key contextClass cand.value policy = preferredDecision c exact ∧
      cand =
        { value := cand.value
          acceptedCount := c.accepted
          rejectedCount := c.rejected
          positiveScore := c.positiveScore
          negativeScore := c.negativeScore
          totalScore := totalScore c
          autoBlockRejectCount := exact.autoBlockRejected
          hardRejected := false
          autoBlocked := false
          reason := ascii "feedback_preferred" } := by
  obtain ⟨v, c, hget, hc⟩ := (mem_getRankedCandidates_iff _ _ _ _ _).mp h
  obtain ⟨hpref, rfl⟩ := (rankedCandidate_eq_some_iff _ _ _ _ _).mp hc
  refine ⟨c, _, hpref, ?_, rfl⟩
  rw [decideFeedback_eq, hget, Option.getD_some, decisionOf_preferred hpref]

theorem ranked_of_preferred {records : List ParsedFeedbackRecord} {key contextClass value : Bytes}
    (h : (decideFeedback records key contextClass value policy).action = .kPrefer) :
    ∃ cand ∈ getRankedCandidates records key contextClass policy, cand.value = value := by
  rw [decideFeedback_eq] at h
  have hpref := preferred_of_decisionOf h
  cases hget : (rankCounts (loadCounts records) key
      (normalizeContextClass contextClass)).1.get? value with
  | none =>
    rw [hget] at hpref
    exact absurd hpref (not_preferred_default _ _)
  | some c =>
    rw [hget, Option.getD_some] at hpref
    exact ⟨_, (mem_getRankedCandidates_iff _ _ _ _ _).mpr
      ⟨value, c, hget, (rankedCandidate_eq_some_iff _ _ _ _ _).mpr ⟨hpref, rfl⟩⟩, rfl⟩

/-- **DECISION AND RANKING AGREE.**  A value is among the ranked candidates exactly
    when its decision is `kPrefer`, and then all reported counts, scores and flags
    are equal. -/
theorem decide_agrees_with_ranking (records : List ParsedFeedbackRecord)
    (key contextClass value : Bytes) (policy : ZenzFeedbackAutoBlockPolicy) :
    ((∃ cand ∈ getRankedCandidates records key contextClass policy, cand.value = value) ↔
      (decideFeedback records key contextClass value policy).action = .kPrefer) ∧
    (∀ cand ∈ getRankedCandidates records key contextClass policy, cand.value = value →
      let d := decideFeedback records key contextClass value policy
      cand.acceptedCount = d.acceptedCount ∧ cand.rejectedCount = d.rejectedCount ∧
      cand.positiveScore = d.positiveScore ∧ cand.negativeScore = d.negativeScore ∧
      cand.totalScore = d.totalScore ∧
      cand.autoBlockRejectCount = d.autoBlockRejectCount ∧
      cand.hardRejected = d.hardRejected ∧ cand.autoBlocked = d.autoBlocked ∧
      cand.reason = d.reason) := by
  refine ⟨⟨?_, ranked_of_preferred⟩, ?_⟩
  · rintro ⟨cand, hmem, rfl⟩
    obtain ⟨c, exact, -, hd, -⟩ := ranked_reports_decision hmem
    rw [hd]
    rfl
  · rintro cand hmem rfl
    obtain ⟨c, exact, -, hd, hform⟩ := ranked_reports_decision hmem
    rw [hd, hform]
    exact ⟨rfl, rfl, rfl, rfl, rfl, rfl, rfl, rfl, rfl⟩

/-- The agreement, met by a value accepted in one class and looked up in another. -/
theorem decide_agrees_with_ranking_shared :
    (decideFeedback [⟨ascii "accepted", ascii "k", ascii "japanese_only", ascii "v", []⟩]
      (ascii "k") [] (ascii "v") {}).action = .kPrefer :=
  (decide_agrees_with_ranking _ _ _ _ _).1.mp (by decide)

/-! ## Isolation of the sensitive class -/

section Isolation

variable (visible : Bytes → Bool)

theorem loadCounts_restrict (records : List ParsedFeedbackRecord) :
    (loadCounts records).restrict (fun k => visible k.contextClass)
      = (records.filter (fun r => visible r.contextClass)).foldl
          (fun L r => modifyList (feedbackKey r) {} (addRecord r) L) [] := by
  have hrun : ∀ (L : List ParsedFeedbackRecord) (m : SortedMap FeedbackKey Counts),
      (L.foldl (fun counts record => counts.modify (feedbackKey record) {}
          (addRecord record)) m).restrict (fun k => visible k.contextClass)
        = (L.filter (fun r => visible r.contextClass)).foldl
            (fun L r => modifyList (feedbackKey r) {} (addRecord r) L)
            (m.restrict (fun k => visible k.contextClass)) := by
    intro L
    induction L with
    | nil => intro m; rfl
    | cons r L ih =>
      intro m
      rw [List.foldl_cons, ih, SortedMap.restrict_modify]
      show List.foldl _ (if visible r.contextClass then _ else _) _ = _
      cases hv : visible r.contextClass with
      | true => rw [List.filter_cons, hv]; rfl
      | false => rw [List.filter_cons, hv]; rfl
  exact hrun records SortedMap.empty

/-- A lookup sees at most the classes `visible`: any other class is neither its own
    nor compatible with it. -/
def SeesOnly (contextClass : Bytes) : Prop :=
  ∀ c, visible c = false → c ≠ contextClass ∧ isCompatibleContextClass contextClass c = false

variable {visible}

theorem decideStep_skip {key contextClass value : Bytes} (h : SeesOnly visible contextClass)
    (acc : Counts × Counts) (item : FeedbackKey × Counts)
    (hv : visible item.1.contextClass = false) :
    decideStep key contextClass value acc item = acc := by
  obtain ⟨hne, hcompat⟩ := h _ hv
  rw [decideStep]
  split
  · rfl
  · show (if !isCompatibleContextClass contextClass item.1.contextClass then _ else _) = _
    rw [hcompat]
    rfl

theorem rankStep_skip {key contextClass : Bytes} (h : SeesOnly visible contextClass)
    (acc : SortedMap Bytes Counts × SortedMap Bytes Counts) (item : FeedbackKey × Counts)
    (hv : visible item.1.contextClass = false) :
    rankStep key contextClass acc item = acc := by
  obtain ⟨hne, hcompat⟩ := h _ hv
  rw [rankStep]
  split
  · rfl
  · show (if !isCompatibleContextClass contextClass item.1.contextClass then _ else _) = _
    rw [hcompat]
    rfl

theorem foldl_restrict {σ ν : Type} (f : σ → FeedbackKey × ν → σ) (p : FeedbackKey → Bool)
    (hskip : ∀ s item, p item.1 = false → f s item = s) (m : SortedMap FeedbackKey ν)
    (s : σ) : m.entries.foldl f s = (m.restrict p).foldl f s := by
  rw [SortedMap.restrict, List.foldl_filter]
  congr 1
  funext s item
  cases hp : p item.1 with
  | true => rw [if_pos rfl]
  | false => rw [if_neg Bool.false_ne_true]; exact hskip s item hp

/-- **A LOOKUP DEPENDS ON THE VISIBLE RECORDS ONLY**, on both query paths. -/
theorem lookup_depends_on_visible {key contextClass : Bytes}
    (h : SeesOnly visible (normalizeContextClass contextClass))
    {records₁ records₂ : List ParsedFeedbackRecord}
    (hagree : records₁.filter (fun r => visible r.contextClass)
      = records₂.filter (fun r => visible r.contextClass))
    (policy : ZenzFeedbackAutoBlockPolicy) :
    (∀ value, decideFeedback records₁ key contextClass value policy
      = decideFeedback records₂ key contextClass value policy) ∧
    getRankedCandidates records₁ key contextClass policy
      = getRankedCandidates records₂ key contextClass policy := by
  have hcounts : (loadCounts records₁).restrict (fun k => visible k.contextClass)
      = (loadCounts records₂).restrict (fun k => visible k.contextClass) := by
    rw [loadCounts_restrict, loadCounts_restrict, hagree]
  have hdecide : ∀ value, decideCounts (loadCounts records₁) key
        (normalizeContextClass contextClass) value
      = decideCounts (loadCounts records₂) key (normalizeContextClass contextClass) value := by
    intro value
    rw [decideCounts, decideCounts,
      foldl_restrict _ (fun k => visible k.contextClass) (decideStep_skip h),
      foldl_restrict _ (fun k => visible k.contextClass) (decideStep_skip h), hcounts]
  have hrank : rankCounts (loadCounts records₁) key (normalizeContextClass contextClass)
      = rankCounts (loadCounts records₂) key (normalizeContextClass contextClass) := by
    rw [rankCounts, rankCounts,
      foldl_restrict _ (fun k => visible k.contextClass) (rankStep_skip h),
      foldl_restrict _ (fun k => visible k.contextClass) (rankStep_skip h), hcounts]
  refine ⟨?_, ?_⟩
  · intro value
    rw [decideFeedback, decideFeedback, hdecide]
  · rw [getRankedCandidates, getRankedCandidates, hrank]

end Isolation

theorem seesOnly_nonsensitive {contextClass : Bytes}
    (h : isSensitiveFeedbackContextClass contextClass = false) :
    SeesOnly (fun c => !isSensitiveFeedbackContextClass c) contextClass := by
  intro c hc
  have hs : isSensitiveFeedbackContextClass c = true := by
    simpa using hc
  have hne : c ≠ contextClass := by
    intro heq
    rw [heq, h] at hs
    exact nomatch hs
  refine ⟨hne, ?_⟩
  rw [isCompatibleContextClass, if_neg (fun heq => hne heq.symm), hs, Bool.or_true, if_pos rfl]

theorem seesOnly_sensitive {contextClass : Bytes}
    (h : isSensitiveFeedbackContextClass contextClass = true) :
    SeesOnly isSensitiveFeedbackContextClass contextClass := by
  intro c hc
  have hne : c ≠ contextClass := by
    intro heq
    rw [heq, h] at hc
    exact nomatch hc
  refine ⟨hne, ?_⟩
  rw [isCompatibleContextClass, if_neg (fun heq => hne heq.symm), h, Bool.true_or, if_pos rfl]

/-- **SENSITIVE ISOLATION.**  Two record lists that agree outside `sensitive_like`
    answer every non-sensitive lookup alike, and two lists that agree on
    `sensitive_like` answer every sensitive lookup alike. -/
theorem sensitive_isolation (records₁ records₂ : List ParsedFeedbackRecord)
    (key contextClass : Bytes) (policy : ZenzFeedbackAutoBlockPolicy) :
    (records₁.filter (fun r => !isSensitiveFeedbackContextClass r.contextClass)
        = records₂.filter (fun r => !isSensitiveFeedbackContextClass r.contextClass) →
      normalizeContextClass contextClass ≠ ascii "sensitive_like" →
      (∀ value, decideFeedback records₁ key contextClass value policy
        = decideFeedback records₂ key contextClass value policy) ∧
      getRankedCandidates records₁ key contextClass policy
        = getRankedCandidates records₂ key contextClass policy) ∧
    (records₁.filter (fun r => isSensitiveFeedbackContextClass r.contextClass)
        = records₂.filter (fun r => isSensitiveFeedbackContextClass r.contextClass) →
      normalizeContextClass contextClass = ascii "sensitive_like" →
      (∀ value, decideFeedback records₁ key contextClass value policy
        = decideFeedback records₂ key contextClass value policy) ∧
      getRankedCandidates records₁ key contextClass policy
        = getRankedCandidates records₂ key contextClass policy) := by
  constructor
  · intro hagree hclass
    exact lookup_depends_on_visible
      (seesOnly_nonsensitive (beq_eq_false_iff_ne.mpr hclass)) hagree policy
  · intro hagree hclass
    exact lookup_depends_on_visible
      (seesOnly_sensitive (beq_iff_eq.mpr hclass)) hagree policy

/-- A sensitive rejection does not change an ordinary lookup, and an ordinary record
    does not change a sensitive one. -/
theorem sensitive_isolation_two :
    let ordinary : ParsedFeedbackRecord :=
      ⟨ascii "accepted", ascii "k", ascii "empty", ascii "v", []⟩
    let sensitive : ParsedFeedbackRecord :=
      ⟨ascii "rejected", ascii "k", ascii "sensitive_like", ascii "v", ascii "hard_reject"⟩
    decideFeedback [ordinary, sensitive] (ascii "k") [] (ascii "v") {}
        = decideFeedback [ordinary] (ascii "k") [] (ascii "v") {} ∧
    decideFeedback [ordinary, sensitive] (ascii "k") (ascii "sensitive_like") (ascii "v") {}
        = decideFeedback [sensitive] (ascii "k") (ascii "sensitive_like") (ascii "v") {} :=
  ⟨((sensitive_isolation _ _ _ _ _).1 (by decide) (by decide)).1 _,
   ((sensitive_isolation _ _ _ _ _).2 (by decide) (by decide)).1 _⟩

/-! ## The order of the candidates -/

/-- The comparator compares these lexicographically. -/
def rankKey (a : ZenzFeedbackCandidate) : Int ×ₗ Int ×ₗ Int ×ₗ Bytes :=
  toLex (-a.totalScore, toLex (-a.positiveScore, toLex (a.negativeScore, a.value)))

theorem rankedBefore_iff (a b : ZenzFeedbackCandidate) :
    rankedBefore a b ↔ rankKey a < rankKey b := by
  simp only [rankedBefore, rankKey, Prod.Lex.toLex_lt_toLex, neg_lt_neg_iff, neg_inj]
  split_ifs <;> simp_all

/-- **THE RANKING IS STRICT**: each value is ranked once, and the candidates are ordered without
    a tie, whatever the records are. -/
theorem getRankedCandidates_pairwise (records : List ParsedFeedbackRecord)
    (key contextClass : Bytes) (policy : ZenzFeedbackAutoBlockPolicy) :
    (getRankedCandidates records key contextClass policy).Pairwise fun a b =>
      rankedBefore a b ∧ a.value ≠ b.value := by
  have htotal : Std.Total fun a b : ZenzFeedbackCandidate => ¬ rankedBefore b a :=
    ⟨fun a b => by simp only [rankedBefore_iff, not_lt]; exact le_total _ _⟩
  have htrans : IsTrans _ fun a b : ZenzFeedbackCandidate => ¬ rankedBefore b a :=
    ⟨fun a b c => by simp only [rankedBefore_iff, not_lt]; exact le_trans⟩
  rw [getRankedCandidates]
  generalize rankCounts (loadCounts records) key (normalizeContextClass contextClass) = acc
  have hvalues : (acc.1.entries.filterMap (rankedCandidate acc.2 policy)).Pairwise
      fun a b => a.value ≠ b.value := by
    rw [List.pairwise_filterMap]
    refine acc.1.sorted.imp fun {item item'} hlt a ha b hb => ?_
    rw [((rankedCandidate_eq_some_iff ..).mp ha).2, ((rankedCandidate_eq_some_iff ..).mp hb).2]
    exact ne_of_lt hlt
  have hsorted := List.pairwise_insertionSort
    (fun a b : ZenzFeedbackCandidate => ¬ rankedBefore b a)
    (acc.1.entries.filterMap (rankedCandidate acc.2 policy))
  have hdistinct := (List.Perm.pairwise_iff (fun h => Ne.symm h)
    (List.perm_insertionSort (fun a b : ZenzFeedbackCandidate => ¬ rankedBefore b a) _)).mpr hvalues
  refine (hsorted.and hdistinct).imp fun {a b} ⟨hle, hne⟩ => ⟨?_, hne⟩
  rw [rankedBefore_iff, not_lt] at hle
  rw [rankedBefore_iff]
  exact lt_of_le_of_ne hle fun heq => hne (congrArg (fun k => (ofLex (ofLex (ofLex k).2).2).2) heq)

/-! ## The order of the records -/

theorem addRecord_comm (record record' : ParsedFeedbackRecord) (c : Counts) :
    addRecord record (addRecord record' c) = addRecord record' (addRecord record c) := by
  simp only [addRecord, addAccepted, addRejected]
  split_ifs <;> simp [add_right_comm, Bool.or_right_comm]

/-- **THE ORDER OF THE RECORDS** is no matter: a file whose lines were written in another order,
    or that was merged from several, answers every lookup alike. -/
theorem lookups_of_perm {records₁ records₂ : List ParsedFeedbackRecord}
    (h : records₁.Perm records₂) (key contextClass : Bytes)
    (policy : ZenzFeedbackAutoBlockPolicy) :
    (∀ value, decideFeedback records₁ key contextClass value policy =
      decideFeedback records₂ key contextClass value policy) ∧
    getRankedCandidates records₁ key contextClass policy =
      getRankedCandidates records₂ key contextClass policy := by
  have hcounts : loadCounts records₁ = loadCounts records₂ :=
    h.foldl_eq' (fun record _ record' _ counts =>
      counts.modify_comm _ _ _ (addRecord_comm record record')) _
  simp only [decideFeedback, getRankedCandidates, hcounts, implies_true, and_self]

/-- An acceptance and a rejection, in either order. -/
theorem lookups_of_perm_two :
    let accepted : ParsedFeedbackRecord :=
      ⟨ascii "accepted", ascii "k", ascii "empty", ascii "v", []⟩
    let rejected : ParsedFeedbackRecord :=
      ⟨ascii "rejected", ascii "k", ascii "empty", ascii "v", ascii "hard_reject"⟩
    decideFeedback [accepted, rejected] (ascii "k") [] (ascii "v") {} =
      decideFeedback [rejected, accepted] (ascii "k") [] (ascii "v") {} :=
  (lookups_of_perm (List.Perm.swap ..) _ _ _).1 _

end MozkeyFeedback
