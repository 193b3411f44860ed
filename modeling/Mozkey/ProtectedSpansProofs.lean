import Mozkey.AdoptionPreservationProofs
import Mozkey.ReverseLearningProofs
import Mozkey.Utf8Proofs

/-! # Session — protected spans, and the conversion they come from

    A surface is protected as often as it occurs in the Mozc value, while `Decide` counts the
    occurrences with boundaries only. -/

namespace MozkeyProtectedSpans

open ByteString Substring MozkeyUtil MozkeyAdoption
open MozkeySession (PreeditSegment countSurfaceOccurrences)

/-! ## Surfaces -/

/-- `IsAsciiIdentityChar`. -/
def isAsciiIdentityChar (c : UInt8) : Bool :=
  isAsciiAlnum c || c = chr '_' || c = chr '-' || c = chr '.' || c = chr '+' || c = chr '#'

/-- The loop of `ExtractAsciiIdentitySurfaces`, with the characters since `start`. -/
def identityLoop : Bytes → Bytes → List Bytes
  | run, [] => if run.any isAsciiAlnum then [run] else []
  | run, c :: rest =>
    if isAsciiIdentityChar c then identityLoop (run ++ [c]) rest
    else (if run.any isAsciiAlnum then [run] else []) ++ identityLoop [] rest

/-- `ExtractAsciiIdentitySurfaces`. -/
def extractAsciiIdentitySurfaces (value : Bytes) : List Bytes := identityLoop [] value

/-- `FindPreeditKeyForValue`. -/
def findPreeditKeyForValue (preedit : List PreeditSegment) (value : Bytes) : Bytes :=
  ((preedit.find? fun segment => segment.value = value).map PreeditSegment.key).getD []

/-- `InferProtectedKeyForEmbeddedSurface`: the rest of the value ends the key literally. -/
def inferProtectedKeyForEmbeddedSurface (segmentKey segmentValue surface : Bytes) : Bytes :=
  if segmentKey = [] ∨ segmentValue = [] ∨ surface = [] then []
  else if segmentValue = surface then segmentKey
  else if ¬ surface.isPrefixOf segmentValue then []
  else
    let suffix := segmentValue.drop surface.length
    if suffix = [] ∨ segmentKey.length ≤ suffix.length then []
    else if ¬ suffix.isSuffixOf segmentKey then []
    else segmentKey.take (segmentKey.length - suffix.length)

/-- `FindPreeditKeyForProtectedSurface`. -/
def findPreeditKeyForProtectedSurface (preedit : List PreeditSegment)
    (surface candidateKey : Bytes) : Bytes :=
  if surface = [] then []
  else
    (preedit.findSome? fun segment =>
      if segment.value = [] then none
      else
        let protectedKey :=
          inferProtectedKeyForEmbeddedSurface segment.key segment.value surface
        if protectedKey ≠ [] then some protectedKey
        else if candidateKey ≠ [] ∧ surface.isPrefixOf segment.value ∧
            candidateKey.isPrefixOf segment.key then some candidateKey
        else none).getD []

/-! ## Spans -/

/-- The arguments of `AddOrUpdateProtectedSpan`. -/
structure NewSpan where
  key : Bytes
  value : Bytes
  tier : Tier
  repairable : Bool
  deriving DecidableEq

/-- A surface that is protected already. -/
def updateSpan (new : NewSpan) (requiredOccurrences : Nat) (existing : ProtectedConversionSpan) :
    ProtectedConversionSpan :=
  { existing with
    requiredOccurrences :=
      if existing.requiredOccurrences < requiredOccurrences then requiredOccurrences
      else existing.requiredOccurrences
    key := if existing.key = [] ∧ new.key ≠ [] then new.key else existing.key
    tier := if new.tier = .identityCritical then new.tier else existing.tier
    repairable := existing.repairable || (new.repairable && new.key ≠ []) }

/-- The first span of the surface is updated, or a span is added. -/
def upsertSpan (new : NewSpan) (requiredOccurrences : Nat) :
    List ProtectedConversionSpan → List ProtectedConversionSpan
  | [] =>
    [⟨new.key, new.value, new.tier, new.repairable && new.key ≠ [], requiredOccurrences, []⟩]
  | span :: rest =>
    if span.value = new.value then updateSpan new requiredOccurrences span :: rest
    else span :: upsertSpan new requiredOccurrences rest

/-- What is required of a surface. -/
def occurrencesOf (mozcValue value : Bytes) : Nat :=
  if countSurfaceOccurrences mozcValue value = 0 then 1
  else countSurfaceOccurrences mozcValue value

/-- `AddOrUpdateProtectedSpan`. -/
def addOrUpdateProtectedSpan (mozcValue : Bytes) (spans : List ProtectedConversionSpan)
    (new : NewSpan) : List ProtectedConversionSpan :=
  if new.value = [] ∨ ¬ contains new.value mozcValue then spans
  else upsertSpan new (occurrencesOf mozcValue new.value) spans

/-- `commands::CandidateWord`; an absent key reads as the empty one. -/
structure CandidateWord where
  index : Nat := 0
  key : Bytes := []
  value : Bytes
  /-- It has the attribute `USER_DICTIONARY`. -/
  userDictionary : Bool

/-- `commands::CandidateList`. -/
structure CandidateList where
  focusedIndex : Option Nat := none
  candidates : List CandidateWord

/-- `commands::Output`, as far as spans are built from it. -/
structure Output where
  preedit : Option (List PreeditSegment)
  allCandidateWords : Option CandidateList

/-- The spans of the ASCII surfaces in a value. -/
def identitySpans (key value : Bytes) : List NewSpan :=
  (extractAsciiIdentitySurfaces value).map fun surface =>
    let surfaceKey := inferProtectedKeyForEmbeddedSurface key value surface
    ⟨surfaceKey, surface, .identityCritical, surfaceKey ≠ []⟩

/-- The spans of a candidate. -/
def candidateSpans (preedit : Option (List PreeditSegment)) (focusedIndex : Nat)
    (candidate : CandidateWord) : List NewSpan :=
  if ¬ candidate.userDictionary ∨ candidate.value = [] then []
  else
    let candidateKey :=
      if candidate.key = [] then
        preedit.elim [] fun preedit => findPreeditKeyForValue preedit candidate.value
      else candidate.key
    let preeditKey := preedit.elim [] fun preedit =>
      findPreeditKeyForProtectedSurface preedit candidate.value candidateKey
    if candidate.index ≠ focusedIndex ∧ preeditKey = [] then []
    else
      let protectedKey := if preeditKey ≠ [] then preeditKey else candidateKey
      if extractAsciiIdentitySurfaces candidate.value ≠ [] then
        identitySpans protectedKey candidate.value
      else [⟨protectedKey, candidate.value, .userPreferred, false⟩]

/-- The spans of `AddPreeditIdentityProtectedSpans`. -/
def preeditSpans (preedit : List PreeditSegment) : List NewSpan :=
  preedit.flatMap fun segment =>
    if segment.value = [] then [] else identitySpans segment.key segment.value

/-- `IsSafeDirectUserDictionaryProtectedEntry`. -/
def isSafeDirectUserDictionaryProtectedEntry (key value : Bytes) : Bool :=
  key ≠ [] ∧ value ≠ [] ∧ 2 ≤ charsLen key ∧ 2 ≤ charsLen value

/-- `GetUtf8SuffixesForUserDictionaryLookup`. -/
def getUtf8SuffixesForUserDictionaryLookup (key : Bytes) : List Bytes :=
  ((List.range key.length).filter fun i => i = 0 ∨ (key.getD i 0).toNat &&& 0xC0 ≠ 0x80).map
    key.drop

/-- The spans of `AddDirectUserDictionaryEntryProtectedSpans`; `lookup` is
    `LookupUserDictionaryPrefixEntries`. -/
def dictionarySpans (lookup : Bytes → List (Bytes × Bytes)) (conversionKey mozcValue : Bytes) :
    List NewSpan :=
  if conversionKey = [] ∨ mozcValue = [] then []
  else
    (getUtf8SuffixesForUserDictionaryLookup conversionKey).flatMap fun suffix =>
      ((lookup suffix).filter fun entry =>
        isSafeDirectUserDictionaryProtectedEntry entry.1 entry.2 && entry.1.isPrefixOf suffix &&
          contains entry.2 mozcValue).map fun entry =>
            ⟨entry.1, entry.2, .userPreferred, false⟩

/-- The calls of `AddOrUpdateProtectedSpan`, in their order. -/
def newSpans (lookup : Bytes → List (Bytes × Bytes)) (output : Output)
    (conversionKey mozcValue : Bytes) : List NewSpan :=
  (output.allCandidateWords.elim [] fun list =>
    list.candidates.flatMap (candidateSpans output.preedit (list.focusedIndex.getD 0))) ++
    (output.preedit.elim [] preeditSpans ++ dictionarySpans lookup conversionKey mozcValue)

/-- `BuildZenzProtectedConversionSpans`. -/
def buildZenzProtectedConversionSpans (lookup : Bytes → List (Bytes × Bytes)) (output : Output)
    (conversionKey mozcValue : Bytes) : List ProtectedConversionSpan :=
  (newSpans lookup output conversionKey mozcValue).foldl (addOrUpdateProtectedSpan mozcValue) []

/-! ## What is required -/

variable {mozcValue : Bytes}

theorem forall_upsertSpan (P : Bytes → Prop) (new : NewSpan) (n : Nat)
    (spans : List ProtectedConversionSpan) : (∀ span ∈ upsertSpan new n spans, P span.value) ↔
      (∀ span ∈ spans, P span.value) ∧ P new.value := by
  induction spans with
  | nil => simp [upsertSpan]
  | cons span rest ih =>
    rw [upsertSpan]
    split_ifs with hvalue
    · rw [List.forall_mem_cons, List.forall_mem_cons, ← hvalue]
      exact ⟨fun h => ⟨h, h.1⟩, And.left⟩
    · rw [List.forall_mem_cons, List.forall_mem_cons, ih, and_assoc]

/-- A span requires what is required of its surface. -/
def Exact (mozcValue : Bytes) (span : ProtectedConversionSpan) : Prop :=
  span.requiredOccurrences = occurrencesOf mozcValue span.value

theorem exact_upsertSpan (new : NewSpan) {spans : List ProtectedConversionSpan}
    (h : ∀ span ∈ spans, Exact mozcValue span) :
    ∀ span ∈ upsertSpan new (occurrencesOf mozcValue new.value) spans, Exact mozcValue span := by
  induction spans with
  | nil => exact List.forall_mem_singleton.mpr rfl
  | cons span rest ih =>
    rw [List.forall_mem_cons] at h
    rw [upsertSpan]
    split_ifs with hvalue
    · refine List.forall_mem_cons.mpr ⟨?_, h.2⟩
      have hexact : span.requiredOccurrences = occurrencesOf mozcValue span.value := h.1
      rw [Exact, updateSpan, hexact, hvalue, if_neg (lt_irrefl _)]
    · exact List.forall_mem_cons.mpr ⟨h.1, ih h.2⟩

/-- **THE SPANS**: what is required of them, and which surfaces they have. -/
theorem protectedSpans_spec (P : Bytes → Prop) (news : List NewSpan) :
    ∀ {spans : List ProtectedConversionSpan}, (∀ span ∈ spans, Exact mozcValue span) →
      (∀ span ∈ news.foldl (addOrUpdateProtectedSpan mozcValue) spans, Exact mozcValue span) ∧
      ((∀ span ∈ news.foldl (addOrUpdateProtectedSpan mozcValue) spans, P span.value) ↔
        (∀ span ∈ spans, P span.value) ∧
          ∀ new ∈ news, new.value ≠ [] → contains new.value mozcValue → P new.value) := by
  induction news with
  | nil => exact fun h => ⟨h, by simp⟩
  | cons new rest ih =>
    intro spans h
    rw [List.foldl_cons, List.forall_mem_cons, addOrUpdateProtectedSpan]
    split_ifs with hskip
    · obtain ⟨hexact, hiff⟩ := ih h
      refine ⟨hexact, hiff.trans (and_congr_right fun _ => (and_iff_right ?_).symm)⟩
      exact fun hne hcontains => (hskip.resolve_left hne hcontains).elim
    · obtain ⟨hexact, hiff⟩ := ih (exact_upsertSpan new h)
      obtain ⟨hne, hcontains⟩ := not_or.mp hskip
      rw [not_not] at hcontains
      rw [hiff, forall_upsertSpan, and_assoc]
      exact ⟨hexact, and_congr_right fun _ => and_congr_left fun _ => by simp [hne, hcontains]⟩

/-- Every occurrence of a surface has boundaries. -/
def AlwaysBounded (value surface : Bytes) : Prop :=
  ∀ pos ∈ positions surface value, hasProtectedSurfaceBoundaries value pos surface = true

theorem positions_ne_nil {surface : Bytes} (hne : surface ≠ [])
    (h : contains surface mozcValue = true) : positions surface mozcValue ≠ [] := by
  obtain ⟨i, hi⟩ := Option.isSome_iff_exists.mp h
  cases mozcValue with
  | nil => simp [find, hne] at hi
  | cons c rest => simp [positions, hne, positionsFrom, hi]

theorem preserves_iff {span : ProtectedConversionSpan} (hexact : Exact mozcValue span)
    (hne : span.value ≠ []) (hcontains : contains span.value mozcValue = true) :
    Preserves span mozcValue ↔ AlwaysBounded mozcValue span.value := by
  have hpos : countSurfaceOccurrences mozcValue span.value ≠ 0 :=
    mt List.length_eq_zero_iff.mp (positions_ne_nil hne hcontains)
  have hrequired : required span = (positions span.value mozcValue).length := by
    rw [required, hexact, occurrencesOf, if_neg hpos, if_neg hpos]
    rfl
  rw [Preserves, hrequired, AlwaysBounded, ← List.length_filter_eq_length_iff]
  exact ⟨fun h => le_antisymm (List.length_filter_le _ _) h, fun h => h.ge⟩

/-! ## What is accepted -/

/-- The text is accepted as it is if all spans are preserved in it. -/
theorem accepts_iff_preserves (spans : List ProtectedConversionSpan) (text : Bytes) :
    (∃ fuel result, decide? fuel mozcValue text spans = some result ∧
      result.action = .acceptAsIs) ↔ ∀ span ∈ spans, span.value ≠ [] → Preserves span text := by
  constructor
  · rintro ⟨fuel, result, h, haction⟩
    exact ((run_of_decideLoop [] h (by simp [haction])).2 haction).2.2
  · intro h
    refine ⟨1, ⟨.acceptAsIs, text, ascii "accepted"⟩, ?_, rfl⟩
    rw [decide?]
    induction spans with
    | nil => rfl
    | cons span rest ih =>
      rw [List.forall_mem_cons] at h
      rw [decideLoop]
      split_ifs with hv
      · exact ih h.2
      · rw [Iteration.iterate, repairStep, if_neg (Nat.not_lt.mpr (h.1 hv))]
        exact ih h.2

/-- All spans of a conversion are preserved in it if their surfaces always have boundaries. -/
theorem preserves_protectedSpans (news : List NewSpan) :
    (∀ span ∈ news.foldl (addOrUpdateProtectedSpan mozcValue) [],
        span.value ≠ [] → Preserves span mozcValue) ↔
      ∀ new ∈ news, AlwaysBounded mozcValue new.value := by
  obtain ⟨hexact, hvisible⟩ := @protectedSpans_spec mozcValue
    (fun value => value ≠ [] ∧ contains value mozcValue = true) news [] (by simp)
  have hall := hvisible.mpr ⟨by simp, fun _ _ hne hcontains => ⟨hne, hcontains⟩⟩
  have hiff := (@protectedSpans_spec mozcValue (AlwaysBounded mozcValue) news [] (by simp)).2
  have hbounded : (∀ span ∈ news.foldl (addOrUpdateProtectedSpan mozcValue) [],
      span.value ≠ [] → Preserves span mozcValue) ↔
      ∀ span ∈ news.foldl (addOrUpdateProtectedSpan mozcValue) [],
        AlwaysBounded mozcValue span.value := by
    refine forall₂_congr fun span hmem => ?_
    obtain ⟨hne, hcontains⟩ := hall span hmem
    rw [forall_prop_of_true hne, preserves_iff (hexact span hmem) hne hcontains]
  rw [hbounded, hiff, and_iff_right (by simp)]
  refine forall₂_congr fun new _ => ⟨fun h => ?_, fun h _ _ => h⟩
  -- a surface that does not occur has no occurrence without boundaries
  by_cases hne : new.value = []
  · simp [AlwaysBounded, positions, hne]
  · by_cases hcontains : contains new.value mozcValue = true
    · exact h hne hcontains
    · rw [contains, Option.isSome_iff_ne_none, not_not, find_eq_none_iff] at hcontains
      simp [AlwaysBounded, positions_eq_nil hcontains]

/-- **THE MOZC VALUE** is accepted as it is if every occurrence in it of a surface that is to be
    protected has boundaries, and not otherwise. -/
theorem acceptsItself_iff (lookup : Bytes → List (Bytes × Bytes)) (output : Output)
    (conversionKey mozcValue : Bytes) :
    (∃ fuel result, decide? fuel mozcValue mozcValue
        (buildZenzProtectedConversionSpans lookup output conversionKey mozcValue) = some result ∧
      result.action = .acceptAsIs) ↔
      ∀ new ∈ newSpans lookup output conversionKey mozcValue,
        AlwaysBounded mozcValue new.value := by
  rw [accepts_iff_preserves, buildZenzProtectedConversionSpans, preserves_protectedSpans]

/-- 辞書語, of じしょご. -/
def jishogo : PreeditSegment where
  key := [0xE3, 0x81, 0x98, 0xE3, 0x81, 0x97, 0xE3, 0x82, 0x87, 0xE3, 0x81, 0x94]
  value := [0xE8, 0xBE, 0x9E, 0xE6, 0x9B, 0xB8, 0xE8, 0xAA, 0x9E]

/-- A user dictionary with 辞書, of じしょ. -/
def jisho (suffix : Bytes) : List (Bytes × Bytes) :=
  if (jishogo.key.take 9).isPrefixOf suffix then [(jishogo.key.take 9, jishogo.value.take 6)]
  else []

/-- 辞書 is protected, and has no boundary in 辞書語: so 辞書語 itself is rejected. -/
theorem jishogo_rejected :
    (decide? 1 jishogo.value jishogo.value
      (buildZenzProtectedConversionSpans jisho ⟨some [jishogo], none⟩ jishogo.key
        jishogo.value)).map ZenzAdoptionResult.action = some .reject ∧
    ¬ ∃ fuel result, decide? fuel jishogo.value jishogo.value
        (buildZenzProtectedConversionSpans jisho ⟨some [jishogo], none⟩ jishogo.key
          jishogo.value) = some result ∧ result.action = .acceptAsIs := by
  constructor
  · decide +kernel
  · rw [accepts_iff_preserves, buildZenzProtectedConversionSpans, preserves_protectedSpans]
    intro h
    have hbounded := h ⟨jishogo.key.take 9, jishogo.value.take 6, .userPreferred, false⟩ (by
      decide +kernel) 0 (by decide +kernel)
    revert hbounded
    decide +kernel

end MozkeyProtectedSpans
