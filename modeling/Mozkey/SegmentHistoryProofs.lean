import Mozkey.ContextualRerankerProofs
import Mozkey.LruLookupProofs
import Mozkey.UnicodeStringsProofs

/-! # UserSegmentHistoryRewriter — features and scores

    The rewriter stores features: a tag, a key and a value, and the values of the segments around.
    To rank the candidates of a segment, each is scored by the features that are stored for it.
    The scoring loop counts through the candidates and then the meta candidates, which have
    negative indices, by one counter. -/

namespace MozkeySegmentHistory

open ByteString MozkeyUtil
open MozkeyReranker (ScriptType ja)
open MozkeyConverter (SegmentType)
open MozkeyLru (LruStorage Slot)

/-! ## Candidates and segments -/

/-- `converter::Candidate`, as far as the rewriter reads and writes it; `id` tells the objects
    apart that the list of a segment points to. -/
structure Candidate where
  id : Nat
  key : Bytes
  value : Bytes
  contentKey : Bytes
  contentValue : Bytes
  description : Bytes
  lid : Nat
  rid : Nat
  attributes : BitVec 32
  style : Nat
  deriving DecidableEq

/-- `Attribute::BEST_CANDIDATE`. -/
def kBestCandidate : BitVec 32 := 1#32 <<< 0

/-- `Attribute::RERANKED`. -/
def kReranked : BitVec 32 := 1#32 <<< 1

/-- `Attribute::NO_HISTORY_LEARNING`. -/
def kNoHistoryLearning : BitVec 32 := 1#32 <<< 2

/-- `Attribute::CONTEXT_SENSITIVE`. -/
def kContextSensitive : BitVec 32 := 1#32 <<< 4

/-- Is an attribute set? -/
def Candidate.has (c : Candidate) (mask : BitVec 32) : Bool := c.attributes &&& mask ≠ 0

/-- What is behind the content value. -/
def Candidate.functionalValue (c : Candidate) : Bytes :=
  c.value.drop (min c.value.length c.contentValue.length)

/-- `Segment`, with its meta candidates. -/
structure Segment where
  segmentType : SegmentType
  key : Bytes
  candidates : List Candidate
  metaCandidates : List Candidate

/-- `meta_candidate`: an index that is too large reads the first one. -/
def Segment.metaCandidate (segment : Segment) (i : Nat) : Option Candidate :=
  if segment.metaCandidates.length ≤ i then segment.metaCandidates[0]?
  else segment.metaCandidates[i]?

/-- `candidate`; `none` where there is none at the index. -/
def Segment.candidate (segment : Segment) (i : Int) : Option Candidate :=
  if i < 0 then segment.metaCandidate (-i - 1).toNat else segment.candidates[i.toNat]?

/-- `is_valid_index`; negative indexes are those of meta candidates. -/
def Segment.isValidIndex (segment : Segment) (i : Int) : Prop :=
  if i < 0 then -i - 1 < segment.metaCandidates.length else i < segment.candidates.length

/-- `Segments`, and how many of them are resized. -/
structure Segments where
  segments : List Segment
  resized : Bool
  revertId : UInt64

/-- `history_segments_size`. -/
def Segments.historySegmentsSize (segments : Segments) : Nat :=
  (segments.segments.takeWhile fun segment =>
    segment.segmentType = .history ∨ segment.segmentType = .submitted).length

/-- `conversion_segments_size`. -/
def Segments.conversionSegmentsSize (segments : Segments) : Nat :=
  segments.segments.length - segments.historySegmentsSize

/-- How many candidates are looked at. -/
def kMaxRerankSize : Nat := 5

/-- The first candidate that is marked as the best, else the first one. -/
def getDefaultCandidateIndex (segment : Segment) : Nat :=
  ((segment.candidates.take (kMaxRerankSize + 1)).findIdx? (·.has kBestCandidate)).getD 0

/-- The default candidate of the segment at an index. -/
def Segments.defaultCandidate (segments : Segments) (index : Nat) : Option Candidate := do
  let segment ← segments.segments[index]?
  segment.candidate (getDefaultCandidateIndex segment)

/-! ## Script types and brackets -/

/-- The bits of `ScriptTypeBitSet`. -/
def allScriptTypes : List ScriptType :=
  [.unknownScript, .katakana, .hiragana, .kanji, .number, .alphabet, .emoji]

/-- The loop of `GetScriptTypeInternal`, with symbols. -/
def scriptTypeLoop : List ScriptType → List Nat → List ScriptType
  | bs, [] => bs
  | bs, c :: rest =>
    if bs = [] then []
    else if c = 0x30FC ∨ c = 0x30FB ∨ 0x3099 ≤ c ∧ c ≤ 0x309C then
      scriptTypeLoop (bs.filter fun type => type = .hiragana ∨ type = .katakana) rest
    else if (c = 0xFF0E ∨ c = 0x2E) ∧ bs = [.number] then scriptTypeLoop bs rest
    else scriptTypeLoop (bs.filter (· = MozkeyReranker.getScriptType c)) rest

/-- `GetScriptType` of a text. -/
def getScriptType (text : Bytes) : ScriptType :=
  match scriptTypeLoop allScriptTypes (MozkeyStrings.chars32 text) with
  | [type] => type
  | _ => .unknownScript

/-- Opening brackets with their closing ones. -/
def kSortedBrackets : List (Bytes × Bytes) :=
  [(ja "(", ja ")"), (ja "[", ja "]"), (ja "\x7b", ja "\x7d"), (ja "«", ja "»"), (ja "‘", ja "’"),
    (ja "“", ja "”"), (ja "‹", ja "›"), (ja "〈", ja "〉"), (ja "《", ja "》"), (ja "「", ja "」"),
    (ja "『", ja "』"), (ja "【", ja "】"), (ja "〔", ja "〕"), (ja "〘", ja "〙"),
    (ja "〚", ja "〛"), (ja "〝", ja "〟"), (ja "（", ja "）"), (ja "［", ja "］"),
    (ja "｛", ja "｝"), (ja "｢", ja "｣")]

/-- `IsOpenBracket`, with the closing one. -/
def isOpenBracket (key : Bytes) : Option Bytes := kSortedBrackets.lookup key

/-! ## Features -/

/-- `PosMatcher`, `PosGroup` and the fingerprint of a key, which come from data and a hash. -/
structure Pos where
  isNumber : Nat → Bool
  isKanjiNumber : Nat → Bool
  isJapanesePunctuations : Nat → Bool
  posGroup : Nat → Nat
  fingerprint : Bytes → UInt64

/-- The strings with tabs between them. -/
def strJoinWithTabs (strings : List Bytes) : Bytes := List.intercalate [chr '\t'] strings

/-- A feature of `FeatureKey`, but `Number`. -/
inductive Feature where
  | leftRight | leftLeft | rightRight | left | right | leftNumber | rightNumber | single | current
  deriving DecidableEq

namespace FeatureKey

variable (segments : Segments) (pos : Pos) (index : Nat) (baseKey baseValue : Bytes)

/-- The values on both sides. -/
def leftRight : Option Bytes :=
  if segments.segments.length ≤ index + 1 ∨ index ≤ 0 then some []
  else do
    let left ← segments.defaultCandidate (index - 1)
    let right ← segments.defaultCandidate (index + 1)
    some (strJoinWithTabs [ascii "LR", baseKey, left.value, baseValue, right.value])

/-- The values of the two segments before. -/
def leftLeft : Option Bytes :=
  if index < 2 then some []
  else do
    let first ← segments.defaultCandidate (index - 2)
    let second ← segments.defaultCandidate (index - 1)
    some (strJoinWithTabs [ascii "LL", baseKey, first.value, second.value, baseValue])

/-- The values of the two segments behind. -/
def rightRight : Option Bytes :=
  if segments.segments.length ≤ index + 2 then some []
  else do
    let first ← segments.defaultCandidate (index + 1)
    let second ← segments.defaultCandidate (index + 2)
    some (strJoinWithTabs [ascii "RR", baseKey, baseValue, first.value, second.value])

/-- The value before. -/
def left : Option Bytes :=
  if index < 1 then some []
  else do
    let left ← segments.defaultCandidate (index - 1)
    some (strJoinWithTabs [ascii "L", baseKey, left.value, baseValue])

/-- The value behind. -/
def right : Option Bytes :=
  if segments.segments.length ≤ index + 1 then some []
  else do
    let right ← segments.defaultCandidate (index + 1)
    some (strJoinWithTabs [ascii "R", baseKey, baseValue, right.value])

/-- No context. -/
def current : Option Bytes := some (strJoinWithTabs [ascii "C", baseKey, baseValue])

/-- The only segment of a conversion. -/
def single : Option Bytes :=
  if segments.conversionSegmentsSize ≠ 1 then some []
  else some (strJoinWithTabs [ascii "S", baseKey, baseValue])

/-- A number before. -/
def leftNumber : Option Bytes :=
  if index < 1 then some []
  else do
    let candidate ← segments.defaultCandidate (index - 1)
    if pos.isNumber candidate.rid || pos.isKanjiNumber candidate.rid ||
        getScriptType candidate.value = .number then
      some (strJoinWithTabs [ascii "LN", baseKey, baseValue])
    else some []

/-- A number behind. -/
def rightNumber : Option Bytes :=
  if segments.segments.length ≤ index + 1 then some []
  else do
    let candidate ← segments.defaultCandidate (index + 1)
    if pos.isNumber candidate.lid || pos.isKanjiNumber candidate.lid ||
        getScriptType candidate.value = .number then
      some (strJoinWithTabs [ascii "RN", baseKey, baseValue])
    else some []

/-- The style of a number. -/
def number (type : Nat) : Bytes := strJoinWithTabs [ascii "N", decimal (type % 2 ^ 16)]

end FeatureKey

/-- The key of a feature; the empty one if the segment has no such context. -/
def featureKey (segments : Segments) (pos : Pos) (index : Nat) (baseKey baseValue : Bytes) :
    Feature → Option Bytes
  | .leftRight => FeatureKey.leftRight segments index baseKey baseValue
  | .leftLeft => FeatureKey.leftLeft segments index baseKey baseValue
  | .rightRight => FeatureKey.rightRight segments index baseKey baseValue
  | .left => FeatureKey.left segments index baseKey baseValue
  | .right => FeatureKey.right segments index baseKey baseValue
  | .leftNumber => FeatureKey.leftNumber segments pos index baseKey baseValue
  | .rightNumber => FeatureKey.rightNumber segments pos index baseKey baseValue
  | .single => FeatureKey.single segments baseKey baseValue
  | .current => FeatureKey.current baseKey baseValue

/-! ## Scores -/

/-- The weight of the best feature, and when one was stored last. -/
structure Score where
  score : UInt32
  lastAccessTime : UInt32
  deriving DecidableEq

/-- `Score::Update`: the larger of each. -/
def Score.update (score other : Score) : Score :=
  ⟨max score.score other.score, max score.lastAccessTime other.lastAccessTime⟩

/-- `operator>`. -/
def Score.gt (a b : Score) : Bool :=
  if a.score = b.score then b.lastAccessTime < a.lastAccessTime else b.score < a.score

/-- A candidate with its score. -/
structure ScoreCandidate extends Score where
  candidate : Candidate

/-- A transliteration has no part of speech. -/
def isT13NCandidate (c : Candidate) : Bool := c.lid = 0 ∧ c.rid = 0

/-- May a candidate stand in the place of the best one? -/
def replaceable (pos : Pos) (best target : Candidate) : Bool :=
  best.functionalValue = target.functionalValue ∧
    (pos.posGroup best.lid = pos.posGroup target.lid ∨ isT13NCandidate best ∨
      isT13NCandidate target)

/-- The number of transliterations. -/
def numT13nTypes : Nat := 11

/-- The index that a counter stands for, if that of the first meta candidate is as far below
    0 as there are meta candidates expected. -/
def scoringIndex (segment : Segment) (expected l : Nat) : Int :=
  if segment.candidates.length ≤ l then (l : Int) - ↑(segment.candidates.length + expected) else l

/-- The indices that the scoring loop of `Rewrite` goes through. -/
def rewriteIndices (segment : Segment) : List Int :=
  (List.range (segment.candidates.length + segment.metaCandidates.length)).map
    (scoringIndex segment numT13nTypes)

/-- The indices that the scoring loop of `RewriteNumber` goes through. -/
def rewriteNumberIndices (segment : Segment) : List Int :=
  (List.range (segment.candidates.length + segment.metaCandidates.length)).map
    (scoringIndex segment segment.metaCandidates.length)

/-- Every candidate and meta candidate is visited once, and no other index is. -/
def VisitsOnce (segment : Segment) (indices : List Int) : Prop :=
  (∀ j ∈ indices, segment.isValidIndex j) ∧ ∀ j, segment.isValidIndex j → indices.count j = 1

variable {segment : Segment} {expected : Nat}

theorem mem_scoringIndices {j : Int} :
    j ∈ (List.range (segment.candidates.length + segment.metaCandidates.length)).map
        (scoringIndex segment expected) ↔
      ∃ l < segment.candidates.length + segment.metaCandidates.length,
        scoringIndex segment expected l = j := by
  simp [List.mem_map]

theorem visitsOnce_of_expected (h : expected = segment.metaCandidates.length) :
    VisitsOnce segment ((List.range (segment.candidates.length + segment.metaCandidates.length)).map
      (scoringIndex segment expected)) := by
  subst h
  constructor
  · intro j hj
    obtain ⟨l, hl, rfl⟩ := mem_scoringIndices.mp hj
    rw [Segment.isValidIndex, scoringIndex]
    split_ifs <;> omega
  · intro j hj
    have hnodup : ((List.range (segment.candidates.length + segment.metaCandidates.length)).map
        (scoringIndex segment segment.metaCandidates.length)).Nodup := by
      refine (List.nodup_map_iff_inj_on List.nodup_range).mpr ?_
      intro l hl l' hl' heq
      rw [List.mem_range] at hl hl'
      rw [scoringIndex, scoringIndex] at heq
      split_ifs at heq <;> omega
    refine List.count_eq_one_of_mem hnodup (mem_scoringIndices.mpr ?_)
    rw [Segment.isValidIndex] at hj
    split_ifs at hj with hneg
    · refine ⟨(j + ↑(segment.candidates.length + segment.metaCandidates.length)).toNat, ?_, ?_⟩
      · omega
      · rw [scoringIndex, if_pos] <;> omega
    · refine ⟨j.toNat, by omega, ?_⟩
      rw [scoringIndex, if_neg] <;> omega

/-- **NUMBERS**: every candidate is scored once. -/
theorem rewriteNumberIndices_visitsOnce (segment : Segment) :
    VisitsOnce segment (rewriteNumberIndices segment) :=
  visitsOnce_of_expected rfl

theorem VisitsOnce.nodup {indices : List Int} (h : VisitsOnce segment indices) :
    indices.Nodup := by
  rw [List.nodup_iff_count_le_one]
  intro j
  by_cases hj : j ∈ indices
  · exact (h.2 j (h.1 j hj)).le
  · rw [List.count_eq_zero_of_not_mem hj]
    exact Nat.zero_le 1

/-- Another number of meta candidates than expected makes the first of them invalid, or the first
    candidate visited twice. -/
theorem visitsOnce_iff (hexpected : 0 < expected) :
    VisitsOnce segment ((List.range (segment.candidates.length + segment.metaCandidates.length)).map
        (scoringIndex segment expected)) ↔
      segment.metaCandidates.length = 0 ∨ segment.metaCandidates.length = expected := by
  constructor
  · intro h
    by_contra hne
    rw [not_or] at hne
    have hpos : 0 < segment.metaCandidates.length := Nat.pos_of_ne_zero hne.1
    rcases Nat.lt_or_gt_of_ne hne.2 with hlt | hgt
    · -- the first meta candidate is looked for further down than there are any
      have hfirst := h.1 (-expected) (mem_scoringIndices.mpr
        ⟨segment.candidates.length, by omega, by rw [scoringIndex, if_pos le_rfl]; omega⟩)
      rw [Segment.isValidIndex, if_pos (by omega)] at hfirst
      omega
    · -- the first meta candidate that is not expected has the index of the first candidate
      have hsecond : scoringIndex segment expected (segment.candidates.length + expected) = 0 := by
        rw [scoringIndex, if_pos (Nat.le_add_right _ _), sub_self]
      have hvalid := h.1 0 (mem_scoringIndices.mpr ⟨_, by omega, hsecond⟩)
      rw [Segment.isValidIndex, if_neg (lt_irrefl 0)] at hvalid
      have hfirst : scoringIndex segment expected 0 = 0 := if_neg (by omega)
      have hinj := List.inj_on_of_nodup_map h.nodup
        (List.mem_range.mpr (by omega)) (List.mem_range.mpr (by omega))
        (hfirst.trans hsecond.symm)
      omega
  · rintro (hzero | hsame)
    · have hmap : (List.range (segment.candidates.length + segment.metaCandidates.length)).map
          (scoringIndex segment expected) = rewriteNumberIndices segment := by
        refine List.map_congr_left fun l hl => ?_
        rw [List.mem_range] at hl
        rw [scoringIndex, scoringIndex, if_neg (by omega), if_neg (by omega)]
      rw [hmap]
      exact rewriteNumberIndices_visitsOnce segment
    · exact visitsOnce_of_expected hsame.symm

/-- Both loops score every candidate once. -/
def ScoresOnce (segment : Segment) : Prop :=
  VisitsOnce segment (rewriteIndices segment) ∧ VisitsOnce segment (rewriteNumberIndices segment)

/-- **EVERY CANDIDATE IS SCORED ONCE** if there are as many meta candidates as transliterations,
    or none. -/
theorem scoresOnce_iff (segment : Segment) :
    ScoresOnce segment ↔
      segment.metaCandidates.length = 0 ∨ segment.metaCandidates.length = numT13nTypes :=
  (and_iff_left (rewriteNumberIndices_visitsOnce segment)).trans (visitsOnce_iff (by decide))

/-- A candidate with one transliteration. -/
def oneTransliteration : Segment where
  segmentType := .free
  key := ascii "a"
  candidates := [⟨0, ascii "a", ascii "a", ascii "a", ascii "a", [], 0, 0, 0, 0⟩]
  metaCandidates := [⟨1, ascii "a", ascii "A", ascii "a", ascii "A", [], 0, 0, 0, 0⟩]

/-- A single meta candidate is not scored, but one eleven places down. -/
theorem oneTransliteration_outside :
    rewriteIndices oneTransliteration = [0, -11] ∧ ¬ oneTransliteration.isValidIndex (-11) ∧
      ¬ ScoresOnce oneTransliteration := by
  have hindices : rewriteIndices oneTransliteration = [0, -11] := by decide
  have hinvalid : ¬ oneTransliteration.isValidIndex (-11) := by
    rw [Segment.isValidIndex]
    decide
  exact ⟨hindices, hinvalid, fun h => hinvalid (h.1.1 (-11) (by rw [hindices]; decide))⟩

end MozkeySegmentHistory
