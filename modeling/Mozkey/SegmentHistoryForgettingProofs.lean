import Mozkey.LruDeleteProofs
import Mozkey.LruRunProofs
import Mozkey.OptionListProofs
import Mozkey.SegmentHistoryProofs

/-! # UserSegmentHistoryRewriter — forgetting a candidate

    A candidate is deleted from the history by the nine features of its key and value.  The
    features are recomputed from the segments around; but the candidate that they are computed for
    is the first one of the segment, and not the one at the index. -/

namespace MozkeySegmentHistory

open ByteString MozkeyUtil
open MozkeyLru (LruStorage Slot Linked Deleted)

/-! ## Deletions -/

/-- `DeleteEntry`. -/
def deleteEntry (pos : Pos) (storage : LruStorage) (key : Bytes) : Option (Bool × LruStorage) := do
  match ← storage.lookup (pos.fingerprint key) with
  | none => some (false, storage)
  | some _ =>
    let (_, storage) ← storage.delete (pos.fingerprint key)
    some (true, storage)

/-- A row of `DeleteEntry`. -/
def deleteEntries (pos : Pos) : LruStorage → List Bytes → Option (Bool × LruStorage)
  | storage, [] => some (false, storage)
  | storage, key :: keys => do
    let (deleted, storage) ← deleteEntry pos storage key
    let (result, storage) ← deleteEntries pos storage keys
    some (deleted || result, storage)

/-- The features that `ClearHistoryEntry` deletes. -/
def clearedFeatures : List Feature :=
  [.leftRight, .leftLeft, .rightRight, .left, .right, .leftNumber, .rightNumber, .single, .current]

/-- The keys that `ClearHistoryEntry` deletes; those of the first candidate. -/
def clearedKeys (pos : Pos) (segments : Segments) (segmentIndex : Nat) : Option (List Bytes) := do
  let segment ← segments.segments[segmentIndex]?
  let candidate ← segment.candidate 0
  clearedFeatures.mapM (featureKey segments pos segmentIndex candidate.key candidate.value)

/-- `ClearHistoryEntry`; the index of the candidate is not read. -/
def clearHistoryEntry (pos : Pos) (storage : LruStorage) (segments : Segments) (segmentIndex : Nat)
    (_candidateIndex : Int) : Option (Bool × LruStorage) := do
  deleteEntries pos storage (← clearedKeys pos segments segmentIndex)

/-- `Converter::DeleteCandidateFromHistory`, with the `ClearHistoryEntry` of the predictor. -/
def deleteCandidateFromHistory (pos : Pos) (predictor : Bytes → Bytes → Bool)
    (storage : LruStorage) (segments : Segments) (segmentIndex : Nat) (candidateIndex : Int) :
    Option (Bool × LruStorage) := do
  let segment ← segments.segments[segmentIndex]?
  let candidate ← segment.candidate candidateIndex
  let (result, storage) ← clearHistoryEntry pos storage segments segmentIndex candidateIndex
  some (result || predictor candidate.key candidate.value, storage)

/-- Is there anything under a key? -/
def Stored (pos : Pos) (storage : LruStorage) (key : Bytes) : Prop :=
  ∃ slot, storage.lookup (pos.fingerprint key) = some (some slot)

section

variable {pos : Pos} {storage : LruStorage}

theorem not_stored_iff (h : Linked storage storage.size) (key : Bytes) :
    ¬ Stored pos storage key ↔ storage.lookup (pos.fingerprint key) = some none := by
  obtain ⟨found, hfound⟩ := MozkeyLru.lookup_defined h (pos.fingerprint key)
  rw [Stored, hfound]
  cases found <;> simp

theorem deleteEntry_spec (h : Linked storage storage.size) (key : Bytes) :
    ∃ deleted storage', deleteEntry pos storage key = some (deleted, storage') ∧
      Deleted storage storage' (· = pos.fingerprint key) := by
  obtain ⟨found, hfound⟩ := MozkeyLru.lookup_defined h (pos.fingerprint key)
  rw [deleteEntry, hfound]
  cases found with
  | none =>
    refine ⟨false, storage, rfl, h, rfl, rfl, le_rfl, fun fp => ?_⟩
    by_cases hfp : fp = pos.fingerprint key
    · rw [if_pos hfp, hfp, hfound]
    · rw [if_neg hfp]
  | some slot =>
    obtain ⟨storage', hdelete, hdeleted⟩ := MozkeyLru.delete_spec h (pos.fingerprint key)
    refine ⟨true, storage', ?_, hdeleted⟩
    simp [hdelete]

theorem deleteEntries_spec (keys : List Bytes) : ∀ {storage : LruStorage},
    Linked storage storage.size → ∃ result storage',
      deleteEntries pos storage keys = some (result, storage') ∧
        Deleted storage storage' (· ∈ keys.map pos.fingerprint) := by
  induction keys with
  | nil => exact fun h => ⟨false, _, rfl, h, rfl, rfl, le_rfl, fun fp => by simp⟩
  | cons key keys ih =>
    intro storage h
    obtain ⟨deleted, storage₁, hdelete, hfirst⟩ := @deleteEntry_spec pos _ h key
    obtain ⟨result, storage', hdeletes, hrest⟩ := ih hfirst.linked
    refine ⟨deleted || result, storage', ?_, hfirst.trans hrest ?_⟩
    · rw [deleteEntries, hdelete]
      simp [hdeletes]
    · simp

/-! ## Forgetting -/

variable {segments : Segments} {segmentIndex : Nat} {candidateIndex : Int} {segment : Segment}
  {candidate : Candidate}

/-- A feature of a key and a value; the empty one is none. -/
def IsFeature (pos : Pos) (segments : Segments) (index : Nat) (key value feature : Bytes) : Prop :=
  feature ≠ [] ∧ ∃ kind, featureKey segments pos index key value kind = some feature

/-- A feature of another key or value than those of a candidate, of any segments. -/
def IsOtherFeature (pos : Pos) (candidate : Candidate) (feature : Bytes) : Prop :=
  ∃ segments index key value, (key, value) ≠ (candidate.key, candidate.value) ∧
    IsFeature pos segments index key value feature

/-- No feature of a candidate is left of a storage, and every feature of another key or value. -/
structure Forgotten (pos : Pos) (segments : Segments) (segmentIndex : Nat) (candidate : Candidate)
    (storage storage' : LruStorage) : Prop where
  forgotten : ∀ feature, IsFeature pos segments segmentIndex candidate.key candidate.value feature →
    storage'.lookup (pos.fingerprint feature) = some none
  kept : ∀ feature, IsOtherFeature pos candidate feature →
    storage'.lookup (pos.fingerprint feature) = storage.lookup (pos.fingerprint feature)

/-- The keys of the first candidate are those that are to be deleted: the stored features of the
    candidate are under their fingerprints, and no stored feature of another key or value is. -/
structure Clears (pos : Pos) (segments : Segments) (segmentIndex : Nat) (candidate : Candidate)
    (storage : LruStorage) (keys : List Bytes) : Prop where
  cleared : ∀ feature, IsFeature pos segments segmentIndex candidate.key candidate.value feature →
    Stored pos storage feature → pos.fingerprint feature ∈ keys.map pos.fingerprint
  spared : ∀ feature, IsOtherFeature pos candidate feature → Stored pos storage feature →
    pos.fingerprint feature ∉ keys.map pos.fingerprint

/-- What is left by the deletion of the keys of the first candidate. -/
theorem clearHistoryEntry_spec (h : Linked storage storage.size) {keys : List Bytes}
    (hkeys : clearedKeys pos segments segmentIndex = some keys) (candidateIndex : Int) :
    ∃ result storage',
      clearHistoryEntry pos storage segments segmentIndex candidateIndex = some (result, storage') ∧
        Deleted storage storage' (· ∈ keys.map pos.fingerprint) := by
  rw [clearHistoryEntry, hkeys]
  exact deleteEntries_spec keys h

/-- The deletion of keys forgets a candidate just where they are those that are to be deleted. -/
theorem forgotten_iff (h : Linked storage storage.size) {storage' : LruStorage} {keys : List Bytes}
    (hdeleted : Deleted storage storage' (· ∈ keys.map pos.fingerprint)) :
    Forgotten pos segments segmentIndex candidate storage storage' ↔
      Clears pos segments segmentIndex candidate storage keys := by
  have hlookup := hdeleted.lookup
  constructor
  · refine fun hforgotten => ⟨fun feature hfeature hstored => ?_,
      fun feature hother hstored hmem => ?_⟩
    · by_contra hmem
      have hnone := hforgotten.forgotten feature hfeature
      rw [hlookup, if_neg hmem] at hnone
      exact (not_stored_iff h feature).mpr hnone hstored
    · have hsame := hforgotten.kept feature hother
      rw [hlookup, if_pos hmem] at hsame
      exact (not_stored_iff h feature).mpr hsame.symm hstored
  · refine fun hclears => ⟨fun feature hfeature => ?_, fun feature hother => ?_⟩
    · rw [hlookup]
      by_cases hmem : pos.fingerprint feature ∈ keys.map pos.fingerprint
      · rw [if_pos hmem]
      · rw [if_neg hmem, ← not_stored_iff h]
        exact fun hstored => hmem (hclears.cleared feature hfeature hstored)
    · rw [hlookup]
      by_cases hmem : pos.fingerprint feature ∈ keys.map pos.fingerprint
      · rw [if_pos hmem, eq_comm, ← not_stored_iff h]
        exact fun hstored => hclears.spared feature hother hstored hmem
      · rw [if_neg hmem]

/-- The features of the key and the value of the first candidate are deleted. -/
theorem mem_clearedKeys {first : Candidate} {keys : List Bytes}
    (hsegment : segments.segments[segmentIndex]? = some segment)
    (hfirst : segment.candidate 0 = some first)
    (hkeys : clearedKeys pos segments segmentIndex = some keys) {feature : Bytes}
    (hfeature : IsFeature pos segments segmentIndex first.key first.value feature) :
    feature ∈ keys := by
  obtain ⟨-, kind, hkind⟩ := hfeature
  have hmap : clearedFeatures.mapM
      (featureKey segments pos segmentIndex first.key first.value) = some keys := by
    simpa [clearedKeys, hsegment, hfirst] using hkeys
  obtain ⟨i, hi⟩ : ∃ i, clearedFeatures[i]? = some kind :=
    List.mem_iff_getElem?.mp (by cases kind <;> decide)
  obtain ⟨feature', hfeature', hkeys⟩ := OptionList.getElem?_mapM hmap hi
  rw [hkind] at hfeature'
  cases hfeature'
  exact List.mem_of_getElem? hkeys

/-- **HEADLINE**: a candidate is forgotten, and nothing else, just where the nine keys of the first
    candidate of the segment can be read and are those that are to be deleted. -/
theorem deleteCandidateFromHistory_iff (predictor : Bytes → Bytes → Bool)
    (h : Linked storage storage.size)
    (hsegment : segments.segments[segmentIndex]? = some segment)
    (hcandidate : segment.candidate candidateIndex = some candidate) :
    (∃ result storage', deleteCandidateFromHistory pos predictor storage segments segmentIndex
        candidateIndex = some (result, storage') ∧
        Forgotten pos segments segmentIndex candidate storage storage') ↔
      ∃ keys, clearedKeys pos segments segmentIndex = some keys ∧
        Clears pos segments segmentIndex candidate storage keys := by
  cases hkeys : clearedKeys pos segments segmentIndex with
  | none =>
    refine iff_of_false ?_ (by simp)
    rintro ⟨result, storage', hdelete, -⟩
    simp [deleteCandidateFromHistory, clearHistoryEntry, hsegment, hkeys] at hdelete
  | some keys =>
    obtain ⟨result, storage', hclear, hdeleted⟩ := clearHistoryEntry_spec h hkeys candidateIndex
    have hdelete : deleteCandidateFromHistory pos predictor storage segments segmentIndex
        candidateIndex = some (result || predictor candidate.key candidate.value, storage') := by
      simp [deleteCandidateFromHistory, hsegment, hcandidate, hclear]
    constructor
    · rintro ⟨result', storage'', hdelete', hforgotten⟩
      rw [hdelete] at hdelete'
      cases hdelete'
      exact ⟨keys, rfl, (forgotten_iff h hdeleted).mp hforgotten⟩
    · rintro ⟨keys', hkeys', hclears⟩
      cases hkeys'
      exact ⟨_, storage', hdelete, (forgotten_iff h hdeleted).mpr hclears⟩

end

/-! ## Two candidates -/

/-- The key of the feature that is stored. -/
def currentA : Bytes := ascii "C\ta\tA"

/-- Fingerprints that tell the stored feature from all others. -/
def onlyCurrentA : Pos where
  isNumber _ := false
  isKanjiNumber _ := false
  isJapanesePunctuations _ := false
  posGroup _ := 0
  fingerprint key := if key = currentA then 7 else 0

/-- A candidate. -/
def candidateA : Candidate := ⟨0, ascii "a", ascii "A", ascii "a", ascii "A", [], 0, 0, 0, 0⟩

/-- Another candidate for the same key. -/
def candidateB : Candidate := ⟨1, ascii "a", ascii "B", ascii "a", ascii "B", [], 0, 0, 0, 0⟩

/-- A segment with the candidates A and B. -/
def segmentAB : Segment where
  segmentType := .free
  key := ascii "a"
  candidates := [candidateA, candidateB]
  metaCandidates := []

/-- One segment with both candidates. -/
def segmentsAB : Segments := ⟨[segmentAB], false, 0⟩

theorem linked_tinyInserted : Linked MozkeyLru.tinyInserted MozkeyLru.tinyInserted.size :=
  ((MozkeyLru.tinyInserted_reachable MozkeyLru.SafeToClear).sound (by decide)).linked

/-- The tag of a feature. -/
def Feature.tag : Feature → Bytes
  | .leftRight => ascii "LR"
  | .leftLeft => ascii "LL"
  | .rightRight => ascii "RR"
  | .left => ascii "L"
  | .right => ascii "R"
  | .leftNumber => ascii "LN"
  | .rightNumber => ascii "RN"
  | .single => ascii "S"
  | .current => ascii "C"

theorem strJoinWithTabs_cons (string : Bytes) {strings : List Bytes} (h : strings ≠ []) :
    strJoinWithTabs (string :: strings) = string ++ chr '\t' :: strJoinWithTabs strings := by
  cases strings with
  | nil => exact absurd rfl h
  | cons => simp [strJoinWithTabs, List.intercalate_cons_cons]

theorem featureKey_tag {pos : Pos} {segments : Segments} {index : Nat} {key value : Bytes}
    {kind : Feature} {feature : Bytes}
    (h : featureKey segments pos index key value kind = some feature) (hne : feature ≠ []) :
    ∃ rest, feature = kind.tag ++ chr '\t' :: rest := by
  have hjoin : ∀ {tag string : Bytes} {strings : List Bytes},
      some (strJoinWithTabs (tag :: string :: strings)) = some feature →
        ∃ rest, feature = tag ++ chr '\t' :: rest := by
    intro tag string strings hsome
    cases hsome
    exact ⟨_, strJoinWithTabs_cons _ (List.cons_ne_nil _ _)⟩
  have hempty : some [] ≠ some feature := fun hsome => hne (Option.some.inj hsome).symm
  cases kind
  case current => exact hjoin h
  case single =>
    rw [featureKey, FeatureKey.single] at h
    split at h
    · exact absurd h hempty
    · exact hjoin h
  case leftNumber | rightNumber =>
    first
      | rw [featureKey, FeatureKey.leftNumber] at h
      | rw [featureKey, FeatureKey.rightNumber] at h
    split at h
    · exact absurd h hempty
    · obtain ⟨candidate, -, h⟩ := Option.bind_eq_some_iff.mp h
      split at h
      · exact hjoin h
      · exact absurd h hempty
  case left | right =>
    first | rw [featureKey, FeatureKey.left] at h | rw [featureKey, FeatureKey.right] at h
    split at h
    · exact absurd h hempty
    · obtain ⟨candidate, -, h⟩ := Option.bind_eq_some_iff.mp h
      exact hjoin h
  all_goals
    first
      | rw [featureKey, FeatureKey.leftRight] at h
      | rw [featureKey, FeatureKey.leftLeft] at h
      | rw [featureKey, FeatureKey.rightRight] at h
    split at h
    · exact absurd h hempty
    · obtain ⟨first, -, h⟩ := Option.bind_eq_some_iff.mp h
      obtain ⟨second, -, h⟩ := Option.bind_eq_some_iff.mp h
      exact hjoin h

/-- The feature that is stored is one of the key a and the value A only. -/
theorem key_value_of_currentA {segments : Segments} {index : Nat} {key value : Bytes}
    (h : IsFeature onlyCurrentA segments index key value currentA) :
    key = ascii "a" ∧ value = ascii "A" := by
  obtain ⟨hne, kind, hkind⟩ := h
  obtain ⟨rest, hrest⟩ := featureKey_tag hkind hne
  cases kind
  case current =>
    have hjoin : currentA = strJoinWithTabs [ascii "C", key, value] := (Option.some.inj hkind).symm
    rw [strJoinWithTabs_cons _ (List.cons_ne_nil _ _),
      strJoinWithTabs_cons _ (List.cons_ne_nil _ _)] at hjoin
    simp [currentA, ascii, chr, strJoinWithTabs] at hjoin
    rcases key with _ | ⟨first, _ | ⟨second, _ | ⟨third, key⟩⟩⟩ <;> simp at hjoin
    obtain ⟨rfl, rfl⟩ := hjoin
    exact ⟨rfl, rfl⟩
  all_goals simp [currentA, Feature.tag, ascii, chr] at hrest

theorem eq_currentA_of_stored {feature : Bytes}
    (h : Stored onlyCurrentA MozkeyLru.tinyInserted feature) : feature = currentA := by
  by_contra hne
  refine (not_stored_iff linked_tinyInserted feature).mpr ?_ h
  rw [show onlyCurrentA.fingerprint feature = 0 from if_neg hne]
  rfl

/-- The first candidate is forgotten. -/
theorem forgets_first :
    ∃ result storage', deleteCandidateFromHistory onlyCurrentA (fun _ _ => false)
        MozkeyLru.tinyInserted segmentsAB 0 0 = some (result, storage') ∧
        Forgotten onlyCurrentA segmentsAB 0 candidateA MozkeyLru.tinyInserted storage' := by
  refine (deleteCandidateFromHistory_iff _ linked_tinyInserted rfl rfl).mpr
    ⟨_, rfl, fun feature hfeature _ => List.mem_map_of_mem (mem_clearedKeys rfl rfl rfl hfeature),
      ?_⟩
  rintro feature ⟨segments, index, key, value, hother, hfeature⟩ hstored
  obtain rfl := eq_currentA_of_stored hstored
  obtain ⟨rfl, rfl⟩ := key_value_of_currentA hfeature
  exact absurd rfl hother

/-- The second candidate is to be forgotten, and the first one is. -/
theorem forgets_first_not_second :
    ¬ ∀ (pos : Pos) (predictor : Bytes → Bytes → Bool) (storage : LruStorage),
      Linked storage storage.size →
      ∀ (segments : Segments) (segmentIndex : Nat) (candidateIndex : Int) (segment : Segment)
        (candidate : Candidate), segments.segments[segmentIndex]? = some segment →
        segment.candidate candidateIndex = some candidate →
        ∃ result storage', deleteCandidateFromHistory pos predictor storage segments segmentIndex
          candidateIndex = some (result, storage') ∧
          Forgotten pos segments segmentIndex candidate storage storage' := by
  intro h
  obtain ⟨result, storage', hdelete, hforgotten⟩ := h onlyCurrentA (fun _ _ => false)
    MozkeyLru.tinyInserted linked_tinyInserted segmentsAB 0 1 segmentAB candidateB rfl rfl
  have hkept := hforgotten.kept currentA
    ⟨segmentsAB, 0, ascii "a", ascii "A", by decide, by decide, .current, rfl⟩
  have hstorage : (deleteCandidateFromHistory onlyCurrentA (fun _ _ => false)
      MozkeyLru.tinyInserted segmentsAB 0 1).bind (fun left =>
        left.2.lookup (onlyCurrentA.fingerprint currentA)) = some none := by rfl
  rw [hdelete, Option.bind_some, hkept] at hstorage
  cases hstorage

end MozkeySegmentHistory
