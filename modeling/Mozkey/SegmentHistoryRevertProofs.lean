import Mozkey.LruCacheProofs
import Mozkey.SegmentHistoryLearningProofs

/-! # UserSegmentHistoryRewriter — learning and revert

    A commit records the keys of the features that it touches.  A revert makes them pending, and
    the next conversion deletes those that are not within what is left of the committed text.  A
    key that was stored before the commit is recorded and deleted like the others. -/

namespace MozkeySegmentHistory

open ByteString MozkeyUtil
open MozkeyLru (LruStorage Slot Linked Deleted)

/-! ## The rewriter -/

/-- `PendingRevert`. -/
structure PendingRevert where
  entries : List RevertEntry
  committedValue : Bytes
  deriving Inhabited

/-- `UserSegmentHistoryRewriter`: its storage, `revert_cache_`, and `pending_revert_`, which all
    rewriters share. -/
structure Rewriter where
  storage : LruStorage
  revertCache : LruCache UInt64 PendingRevert
  pendingRevert : Option PendingRevert

/-- `LongestCommittedPrefixSuffixSize`, of the sizes that are left to try. -/
def longestCommittedPrefixSuffixSize (committedValue precedingText : Bytes) : Nat → Nat
  | 0 => 0
  | size + 1 =>
    if (committedValue.take (size + 1)).isSuffixOf precedingText then size + 1
    else longestCommittedPrefixSuffixSize committedValue precedingText size

/-- The preceding text without the key of the request at its end. -/
def strippedPrecedingText (request : ConversionRequest) : Bytes :=
  if request.key ≠ [] ∧ request.key.isSuffixOf request.precedingText then
    request.precedingText.take (request.precedingText.length - request.key.length)
  else request.precedingText

/-- How much of the committed value still precedes. -/
def retainedSize (pending : PendingRevert) (request : ConversionRequest) : Nat :=
  longestCommittedPrefixSuffixSize pending.committedValue (strippedPrecedingText request)
    pending.committedValue.length

namespace Rewriter

variable (pos : Pos) (innerSegmentBoundary : Candidate → List Nat) (clock : Nat → UInt32)
  (r : Rewriter)

/-- `Finish`; `clock` gives the time of each call. -/
def finish (request : ConversionRequest) (segments : Segments) : Option Rewriter := do
  let (calls, committedValue) ← learningCalls innerSegmentBoundary pos request segments
  let learned ← runCalls pos (calls.mapIdx fun i call => (clock i, call)) ⟨r.storage, []⟩
  if learned.revertEntries = [] then some { r with storage := learned.storage }
  else
    let revertCache ← r.revertCache.insert segments.revertId
      fun _ => ⟨learned.revertEntries, committedValue⟩
    some { r with storage := learned.storage, revertCache := revertCache }

/-- `Revert`. -/
def revert (segments : Segments) : Rewriter :=
  match r.revertCache.lookupInternal segments.revertId with
  | none => r
  | some revertData => { r with pendingRevert := some revertData.value }

/-- The loop of `MaybeApplyPendingRevert`. -/
def deleteEntriesBeyond (retained : Nat) : List RevertEntry → LruStorage → Option LruStorage
  | [], storage => some storage
  | entry :: entries, storage =>
    if entry.key = [] then deleteEntriesBeyond retained entries storage
    else if entry.valueEnd ≤ retained then deleteEntriesBeyond retained entries storage
    else do
      let (_, storage) ← storage.delete (pos.fingerprint entry.key)
      deleteEntriesBeyond retained entries storage

/-- `MaybeApplyPendingRevert`. -/
def maybeApplyPendingRevert (request : ConversionRequest) : Option Rewriter :=
  match r.pendingRevert with
  | none => some r
  | some pending => do
    let storage ← deleteEntriesBeyond pos (retainedSize pending request) pending.entries r.storage
    some { r with storage := storage, pendingRevert := none }

/-- `Rewrite`, as far as it writes to the rewriter; the rest of it reads the storage. -/
def rewrite (request : ConversionRequest) : Option Rewriter :=
  if request.requestType ≠ .conversion ∧ ¬ request.useSymbolChoiceLearning then some r
  else if request.requestType = .conversion ∨ request.key ≠ [] then
    r.maybeApplyPendingRevert pos request
  else some r

end Rewriter

/-! ## What calls leave -/

section

variable {pos : Pos} {storage : LruStorage}

theorem Call.forces.touches {fp : UInt64} {call : Call} (h : call.forces pos fp) :
    call.touches pos fp := by
  cases call with
  | insert => exact ⟨h.1, h.2.1⟩
  | insertTrigger => exact h

theorem timeAfterCalls_concat (fp : UInt64) (calls : List (UInt32 × Call)) (item : UInt32 × Call)
    (time : Option UInt32) :
    timeAfterCalls pos fp (calls ++ [item]) time =
      item.2.timeAfter pos fp item.1 (timeAfterCalls pos fp calls time) := by
  rw [timeAfterCalls, List.foldl_append]
  rfl

/-- The last of the calls that touch a fingerprint. -/
def lastTouch (pos : Pos) (fp : UInt64) (calls : List (UInt32 × Call)) : Option (UInt32 × Call) :=
  (calls.filter (·.2.touches pos fp)).getLast?

theorem lastTouch_concat (fp : UInt64) (calls : List (UInt32 × Call)) (item : UInt32 × Call) :
    lastTouch pos fp (calls ++ [item]) =
      if item.2.touches pos fp then some item else lastTouch pos fp calls := by
  rw [lastTouch, List.filter_append, List.filter_singleton]
  by_cases htouches : item.2.touches pos fp
  · simp [htouches]
  · simp [htouches, lastTouch]

/-- Where something is stored, the last call that touches it leaves its time. -/
theorem timeAfterCalls_some (fp : UInt64) (calls : List (UInt32 × Call)) (time : UInt32) :
    timeAfterCalls pos fp calls (some time) =
      some (((lastTouch pos fp calls).map Prod.fst).getD time) := by
  induction calls using List.reverseRecOn with
  | nil => rfl
  | append_singleton calls item ih =>
    rw [timeAfterCalls_concat, ih, Call.timeAfter, lastTouch_concat]
    by_cases htouches : item.2.touches pos fp
    · rw [if_pos (.inr ⟨htouches, rfl⟩), if_pos htouches]
      rfl
    · rw [if_neg htouches, if_neg]
      rintro (hforces | ⟨h, -⟩)
      · exact htouches hforces.touches
      · exact htouches h

/-- Where nothing is stored, nothing is left just where no call forces it. -/
theorem timeAfterCalls_none (fp : UInt64) (calls : List (UInt32 × Call)) :
    timeAfterCalls pos fp calls none = none ↔ ∀ item ∈ calls, ¬ item.2.forces pos fp := by
  induction calls using List.reverseRecOn with
  | nil => simp [timeAfterCalls]
  | append_singleton calls item ih =>
    rw [timeAfterCalls_concat, Call.timeAfter, List.forall_mem_append, List.forall_mem_singleton,
      ← ih]
    by_cases hforces : item.2.forces pos fp
    · simp [hforces]
    · cases timeAfterCalls pos fp calls none with
      | none => simp [hforces]
      | some time => by_cases htouches : item.2.touches pos fp <;> simp [hforces, htouches]

/-! ## What a pending revert deletes -/

/-- The keys that a pending revert deletes. -/
def revertedKeys (retained : Nat) (entries : List RevertEntry) : List Bytes :=
  (entries.filter fun entry => entry.key ≠ [] ∧ retained < entry.valueEnd).map RevertEntry.key

theorem deleteEntriesBeyond_spec (retained : Nat) (entries : List RevertEntry) :
    ∀ {storage : LruStorage}, Linked storage storage.size → ∃ storage',
      Rewriter.deleteEntriesBeyond pos retained entries storage = some storage' ∧
        Deleted storage storage' (· ∈ (revertedKeys retained entries).map pos.fingerprint) := by
  induction entries with
  | nil => exact fun h => ⟨_, rfl, h, rfl, rfl, le_rfl, fun fp => by simp [revertedKeys]⟩
  | cons entry entries ih =>
    intro storage h
    by_cases hskip : entry.key = [] ∨ entry.valueEnd ≤ retained
    · obtain ⟨storage', hloop, hdeleted⟩ := ih h
      refine ⟨storage', ?_, ?_⟩
      · rw [Rewriter.deleteEntriesBeyond]
        rcases hskip with hkey | hretained
        · rw [if_pos hkey, hloop]
        · rw [if_pos hretained, ite_self, hloop]
      · rw [revertedKeys, List.filter_cons, if_neg]
        · exact hdeleted
        · simp only [ne_eq, decide_eq_true_eq, not_and, not_lt]
          exact fun hkey => hskip.resolve_left hkey
    · rw [not_or, not_le] at hskip
      obtain ⟨storage₁, hdelete, hfirst⟩ := MozkeyLru.delete_spec h (pos.fingerprint entry.key)
      obtain ⟨storage', hloop, hrest⟩ := ih hfirst.linked
      refine ⟨storage', ?_, hfirst.trans hrest fun fp => ?_⟩
      · rw [Rewriter.deleteEntriesBeyond, if_neg hskip.1, if_neg (not_le.mpr hskip.2), hdelete]
        exact hloop
      · rw [revertedKeys, List.filter_cons, if_pos (by simpa using hskip)]
        simp [revertedKeys]

/-! ## A commit and its revert -/

/-- How many commits can be reverted. -/
def kRevertCacheSize : Nat := 16

/-- What holds of a rewriter between its calls. -/
structure Rewriter.Valid (r : Rewriter) : Prop where
  linked : Linked r.storage r.storage.size
  cacheSound : r.revertCache.Sound
  cacheSize : r.revertCache.maxElements = kRevertCacheSize

/-- What is pending after a commit and its revert: what the commit recorded, or else what was
    recorded for the id before, or what was pending before. -/
def Rewriter.pendingAfter (r : Rewriter) (revertId : UInt64) (calls : List Call)
    (committedValue : Bytes) : Option PendingRevert :=
  if recordCalls calls [] = [] then
    ((r.revertCache.lookupInternal revertId).map LruElement.value).or r.pendingRevert
  else some ⟨recordCalls calls [], committedValue⟩

/-- The keys that the next conversion deletes. -/
def pendingKeys (next : ConversionRequest) : Option PendingRevert → List Bytes
  | none => []
  | some pending => revertedKeys (retainedSize pending next) pending.entries

variable {innerSegmentBoundary : Candidate → List Nat} {clock : Nat → UInt32} {r r' : Rewriter}
  {request next : ConversionRequest} {segments reverted : Segments} {calls : List Call}
  {committedValue : Bytes}

/-- The calls of a commit with the times of them. -/
def timedCalls (clock : Nat → UInt32) (calls : List Call) : List (UInt32 × Call) :=
  calls.mapIdx fun i call => (clock i, call)

theorem map_snd_timedCalls (clock : Nat → UInt32) (calls : List Call) :
    (timedCalls clock calls).map Prod.snd = calls := by
  refine List.ext_getElem (by simp [timedCalls]) fun i _ _ => ?_
  simp [timedCalls]

theorem length_grows_timedCalls (clock : Nat → UInt32) (calls : List Call) :
    ((timedCalls clock calls).filter (·.2.grows)).length = (calls.filter Call.grows).length := by
  have hcalls := congrArg (List.filter Call.grows) (map_snd_timedCalls clock calls)
  rw [List.filter_map] at hcalls
  rw [← hcalls, List.length_map]
  rfl

theorem revert_eq (hid : reverted.revertId = segments.revertId) :
    r.revert reverted = { r with
      pendingRevert := ((r.revertCache.lookupInternal segments.revertId).map LruElement.value).or
        r.pendingRevert } := by
  rw [Rewriter.revert, hid]
  cases r.revertCache.lookupInternal segments.revertId <;> rfl

theorem finish_revert_spec (hr : r.Valid)
    (hcalls : learningCalls innerSegmentBoundary pos request segments =
      some (calls, committedValue))
    (hroom : r.storage.lruList.length + (calls.filter Call.grows).length ≤ r.storage.size)
    (hid : reverted.revertId = segments.revertId) :
    ∃ r₁, r.finish pos innerSegmentBoundary clock request segments = some r₁ ∧
      Linked r₁.storage r₁.storage.size ∧
      (∀ fp, timeOf r₁.storage fp =
        timeAfterCalls pos fp (timedCalls clock calls) (timeOf r.storage fp)) ∧
      r₁.revert reverted = { r₁ with
        pendingRevert := r.pendingAfter segments.revertId calls committedValue } := by
  obtain ⟨storage', hrun, hcalled⟩ := @runCalls_spec pos (timedCalls clock calls) _ hr.linked []
    (by rw [length_grows_timedCalls]; exact hroom)
  rw [map_snd_timedCalls] at hrun
  by_cases hempty : recordCalls calls [] = []
  · refine ⟨{ r with storage := storage' }, ?_, hcalled.linked, hcalled.time, ?_⟩
    · rw [timedCalls] at hrun
      simp [Rewriter.finish, hcalls, hrun, hempty]
    · rw [revert_eq hid, Rewriter.pendingAfter, if_pos hempty]
  · obtain ⟨revertCache, old, hinsert, -, -, hlru, -⟩ := LruCache.insert_spec hr.cacheSound
      (by rw [hr.cacheSize]; exact LruCache.Blocks.fills_of_le (by decide) (by decide))
      (by rw [hr.cacheSize]; decide) segments.revertId
      fun _ => (⟨recordCalls calls [], committedValue⟩ : PendingRevert)
    refine ⟨{ r with storage := storage', revertCache := revertCache }, ?_, hcalled.linked,
      hcalled.time, ?_⟩
    · rw [timedCalls] at hrun
      simp [Rewriter.finish, hcalls, hrun, hempty, hinsert]
    · rw [revert_eq hid, Rewriter.pendingAfter, if_neg hempty]
      simp [LruCache.lookupInternal, hlru]

/-- What a pending revert deletes. -/
theorem rewrite_spec (hlinked : Linked r.storage r.storage.size)
    (hnext : next.requestType = .conversion) :
    ∃ r', r.rewrite pos next = some r' ∧ Deleted r.storage r'.storage
      (· ∈ (pendingKeys next r.pendingRevert).map pos.fingerprint) := by
  rw [Rewriter.rewrite, if_neg fun h => h.1 hnext, if_pos (.inl hnext),
    Rewriter.maybeApplyPendingRevert]
  cases r.pendingRevert with
  | none => exact ⟨r, rfl, hlinked, rfl, rfl, le_rfl, fun fp => by simp [pendingKeys]⟩
  | some pending =>
    obtain ⟨storage', hloop, hdeleted⟩ := @deleteEntriesBeyond_spec pos
      (retainedSize pending next) pending.entries _ hlinked
    exact ⟨{ r with storage := storage', pendingRevert := none }, by simp [hloop], hdeleted⟩

/-! ## No trace -/

/-- A key of a feature. -/
def IsFeatureKey (pos : Pos) (feature : Bytes) : Prop :=
  (∃ segments index key value, IsFeature pos segments index key value feature) ∨
    ∃ style, feature = FeatureKey.number style

/-- The preceding text does not end with a part of the committed value. -/
def Erased (committedValue : Bytes) (request : ConversionRequest) : Prop :=
  ∀ kept, kept ≠ [] → kept <+: committedValue → ¬ kept <:+ request.precedingText

/-- No feature that is deleted was stored before.  One that is touched but not deleted was stored,
    with the time of the commit; or it was not, and is not forced. -/
structure LeavesNoTrace (pos : Pos) (storage : LruStorage) (calls : List (UInt32 × Call))
    (deleted : List Bytes) : Prop where
  fresh : ∀ feature, IsFeatureKey pos feature →
    pos.fingerprint feature ∈ deleted.map pos.fingerprint →
    timeOf storage (pos.fingerprint feature) = none
  renewed : ∀ feature, IsFeatureKey pos feature →
    pos.fingerprint feature ∉ deleted.map pos.fingerprint →
    ∀ time, timeOf storage (pos.fingerprint feature) = some time →
      ∀ touch, lastTouch pos (pos.fingerprint feature) calls = some touch → touch.1 = time
  forced : ∀ feature, IsFeatureKey pos feature →
    pos.fingerprint feature ∉ deleted.map pos.fingerprint →
    timeOf storage (pos.fingerprint feature) = none →
      ∀ item ∈ calls, ¬ item.2.forces pos (pos.fingerprint feature)

/-- Times that are taken away or left by calls are as before just where there was none, or the
    calls leave it. -/
theorem leavesNoTrace_iff (calls : List (UInt32 × Call)) (deleted : List Bytes) :
    (∀ feature, IsFeatureKey pos feature →
      (if pos.fingerprint feature ∈ deleted.map pos.fingerprint then none
        else timeAfterCalls pos (pos.fingerprint feature) calls
          (timeOf storage (pos.fingerprint feature))) =
        timeOf storage (pos.fingerprint feature)) ↔
      LeavesNoTrace pos storage calls deleted := by
  constructor
  · intro h
    refine ⟨fun feature hfeature hmem => ?_,
      fun feature hfeature hmem time htime touch htouch => ?_,
      fun feature hfeature hmem htime => ?_⟩
    · have hsame := h feature hfeature
      rw [if_pos hmem] at hsame
      exact hsame.symm
    · have hsame := h feature hfeature
      rw [if_neg hmem, htime, timeAfterCalls_some, htouch] at hsame
      exact Option.some.inj hsame
    · have hsame := h feature hfeature
      rw [if_neg hmem, htime] at hsame
      exact (timeAfterCalls_none _ _).mp hsame
  · intro h feature hfeature
    by_cases hmem : pos.fingerprint feature ∈ deleted.map pos.fingerprint
    · rw [if_pos hmem, h.fresh feature hfeature hmem]
    · rw [if_neg hmem]
      cases htime : timeOf storage (pos.fingerprint feature) with
      | none => exact (timeAfterCalls_none _ _).mpr (h.forced feature hfeature hmem htime)
      | some time =>
        rw [timeAfterCalls_some]
        cases htouch : lastTouch pos (pos.fingerprint feature) calls with
        | none => rfl
        | some touch =>
          exact congrArg some (h.renewed feature hfeature hmem time htime touch htouch)

/-- **HEADLINE**: a commit that is reverted, with the committed text erased, leaves no trace in the
    features just where none that is deleted was stored before, and those that are touched and not
    deleted are left as they were. -/
theorem revertedCommit_iff (hr : r.Valid)
    (hcalls : learningCalls innerSegmentBoundary pos request segments =
      some (calls, committedValue))
    (hroom : r.storage.lruList.length + (calls.filter Call.grows).length ≤ r.storage.size)
    (hid : reverted.revertId = segments.revertId) (hnext : next.requestType = .conversion) :
    ∃ r₁ r₂, r.finish pos innerSegmentBoundary clock request segments = some r₁ ∧
      (r₁.revert reverted).rewrite pos next = some r₂ ∧
      ((Erased committedValue next → ∀ feature, IsFeatureKey pos feature →
          timeOf r₂.storage (pos.fingerprint feature) =
            timeOf r.storage (pos.fingerprint feature)) ↔
        (Erased committedValue next → LeavesNoTrace pos r.storage (timedCalls clock calls)
          (pendingKeys next (r.pendingAfter segments.revertId calls committedValue)))) := by
  obtain ⟨r₁, hfinish, hlinked, htime, hrevert⟩ := @finish_revert_spec pos _ clock _ _ _ _ _ _ hr
    hcalls hroom hid
  obtain ⟨r₂, hrewrite, hdeleted⟩ := @rewrite_spec pos (r₁.revert reverted) _
    (by rw [hrevert]; exact hlinked) hnext
  refine ⟨r₁, r₂, hfinish, hrewrite, imp_congr_right fun _ => ?_⟩
  rw [hrevert] at hdeleted
  rw [← leavesNoTrace_iff]
  refine forall_congr' fun feature => imp_congr_right fun _ => ?_
  rw [timeOf, hdeleted.lookup, ← htime]
  split <;> rfl

/-! ## A feature from before -/

/-- A storage of four slots, with the fingerprint 7 inserted at time 1. -/
def storage7 : LruStorage :=
  (MozkeyLru.openSlots 4 4 0 (List.replicate 4 (MozkeyLru.zeroSlot 4))).grown ⟨7, 1, [0, 0, 0, 0]⟩

theorem linked_storage7 : Linked storage7 storage7.size := by
  have hf : MozkeyLru.Formatted 4 4 (List.replicate 4 (MozkeyLru.zeroSlot 4)) :=
    MozkeyLru.formatted_zero (by decide) (by decide) (by decide) (by decide) (by decide)
  have hcreate : MozkeyLru.Reachable MozkeyLru.SafeToClear 1 _ :=
    .create Nat.one_pos (show MozkeyLru.createStorageFile 4 4 0 = some _ from rfl)
      (MozkeyLru.openImage_encodeImage hf)
  have hinsert : MozkeyLru.Reachable MozkeyLru.SafeToClear 1 storage7 :=
    .op (.insert 7 (some (fun _ => 0))) hcreate rfl
  exact (hinsert.sound (by decide)).linked

theorem timeOf_storage7 {fp : UInt64} (h : fp ≠ 7) : timeOf storage7 fp = none := by
  have hlookup : storage7.lookup fp = some none := by
    obtain ⟨found, hfound⟩ := MozkeyLru.lookup_defined linked_storage7 fp
    cases found with
    | none => exact hfound
    | some slot =>
      obtain ⟨⟨n, hn, rfl⟩, hfp⟩ := (MozkeyLru.lookup_eq_some linked_storage7).mp hfound
      cases List.mem_singleton.mp hn
      exact absurd hfp.symm h
  rw [timeOf, hlookup]
  rfl

/-- A rewriter with the storage and nothing to revert. -/
def rewriter7 : Rewriter := ⟨storage7, .ofMax kRevertCacheSize, none⟩

theorem valid_rewriter7 : rewriter7.Valid :=
  ⟨linked_storage7, LruCache.sound_ofMax _, rfl⟩

/-- A conversion of a key. -/
def conversionOf (key : Bytes) : ConversionRequest where
  incognitoMode := false
  historyLearningLevel := .defaultHistory
  enableUserHistoryForConversion := true
  skipSlowRewriters := false
  mixedConversion := false
  disableLegacyRewriterMode := 0
  requestType := .conversion
  key := key
  precedingText := []
  useSymbolChoiceLearning := false
  usePunctuationChoiceLearning := false
  kanaModifierInsensitiveConversion := false

theorem erased_conversionOf (committedValue key : Bytes) :
    Erased committedValue (conversionOf key) :=
  fun _ hne _ hsuffix => hne (List.suffix_nil.mp hsuffix)

/-- The segment of the key a with the candidate A alone, committed with the id 1. -/
def committedA (candidate : Candidate) : Segments :=
  ⟨[⟨.fixedValue, ascii "a", [candidate], []⟩], false, 1⟩

/-- The key of the feature of the candidate B alone. -/
def currentB : Bytes := ascii "C\ta\tB"

/-- Fingerprints that tell the key of the segment and the features apart. -/
def apart : Pos where
  isNumber _ := false
  isKanjiNumber _ := false
  isJapanesePunctuations _ := false
  posGroup _ := 0
  fingerprint key :=
    if key = currentB then 7
    else if key = ascii "a" then 1
    else if key = ascii "S\ta\tA" then 2
    else 3

/-- The keys that are recorded by the commit of A. -/
def recordedA : List Bytes := [ascii "S\ta\tA", currentA]

/-- The calls of the commit of A, which is reranked where they force. -/
def callsA (force : Bool) : List Call :=
  (if force then [.insertTrigger (ascii "a") 1] else []) ++
    (List.replicate 7 [] ++ recordedA).map fun key => .insert key (ascii "A") 0 1 force

/-- A candidate that was reranked. -/
def rerankedA : Candidate := { candidateA with attributes := kReranked }

/-- A feature has a key that is not the one of the segment. -/
theorem ne_key_of_isFeatureKey {feature : Bytes} (h : IsFeatureKey apart feature) :
    feature ≠ ascii "a" := by
  rintro rfl
  obtain ⟨segments, index, key, value, hne, kind, hkind⟩ | ⟨style, hstyle⟩ := h
  · obtain ⟨rest, hrest⟩ := featureKey_tag hkind hne
    cases kind <;> simp [Feature.tag, ascii, chr] at hrest
  · rw [FeatureKey.number, strJoinWithTabs_cons _ (List.cons_ne_nil _ _)] at hstyle
    simp [ascii] at hstyle

/-- The fingerprint of a feature: that of B alone, or of one that the commit records. -/
theorem fingerprint_apart {feature : Bytes} (h : IsFeatureKey apart feature) :
    apart.fingerprint feature = 7 ∨
      apart.fingerprint feature ∈ recordedA.map apart.fingerprint := by
  have hkey := ne_key_of_isFeatureKey h
  by_cases hB : feature = currentB
  · exact .inl (if_pos hB)
  · refine .inr ?_
    by_cases hsingle : feature = ascii "S\ta\tA"
    · rw [hsingle]
      exact List.mem_cons_self
    · have hother : apart.fingerprint feature = 3 := by simp [apart, hB, hkey, hsingle]
      rw [hother]
      exact List.mem_cons_of_mem _ (List.mem_singleton.mpr rfl)

/-- What is learned of A and reverted leaves no trace beside what was learned of B. -/
theorem revertedCommit_apart :
    ∃ r₁ r₂, rewriter7.finish apart (fun _ => []) (fun _ => 2) (conversionOf (ascii "a"))
        (committedA rerankedA) = some r₁ ∧
      (r₁.revert (committedA rerankedA)).rewrite apart (conversionOf (ascii "b")) = some r₂ ∧
      ∀ feature, IsFeatureKey apart feature →
        timeOf r₂.storage (apart.fingerprint feature) =
          timeOf rewriter7.storage (apart.fingerprint feature) := by
  obtain ⟨r₁, r₂, hfinish, hrewrite, hiff⟩ := @revertedCommit_iff apart (fun _ => []) (fun _ => 2)
    rewriter7 (conversionOf (ascii "a")) (conversionOf (ascii "b")) (committedA rerankedA)
    (committedA rerankedA) (callsA true) (ascii "A") valid_rewriter7 rfl (by decide) rfl rfl
  refine ⟨r₁, r₂, hfinish, hrewrite, hiff.mpr (fun _ => ?_) (erased_conversionOf _ _)⟩
  refine ⟨fun feature _ hmem => ?_, fun feature hfeature hmem time _ touch htouch => ?_,
    fun feature hfeature hmem htime => ?_⟩
  · refine timeOf_storage7 fun h7 => ?_
    rw [h7] at hmem
    exact absurd hmem (by decide)
  · have huntouched : lastTouch apart 7 (timedCalls (fun _ => 2) (callsA true)) = none := rfl
    rw [(fingerprint_apart hfeature).resolve_right hmem, huntouched] at htouch
    cases htouch
  · rw [(fingerprint_apart hfeature).resolve_right hmem] at htime
    cases htime

/-- A feature that was stored before is only refreshed by the commit, and goes with its revert. -/
theorem revertedCommit_deletes :
    ¬ ∀ (pos : Pos) (innerSegmentBoundary : Candidate → List Nat) (clock : Nat → UInt32)
      (r : Rewriter) (request next : ConversionRequest) (segments reverted : Segments)
      (calls : List Call) (committedValue : Bytes), r.Valid →
      learningCalls innerSegmentBoundary pos request segments = some (calls, committedValue) →
      r.storage.lruList.length + (calls.filter Call.grows).length ≤ r.storage.size →
      reverted.revertId = segments.revertId → next.requestType = .conversion →
      ∃ r₁ r₂, r.finish pos innerSegmentBoundary clock request segments = some r₁ ∧
        (r₁.revert reverted).rewrite pos next = some r₂ ∧
        (Erased committedValue next → ∀ feature, IsFeatureKey pos feature →
          timeOf r₂.storage (pos.fingerprint feature) =
            timeOf r.storage (pos.fingerprint feature)) := by
  intro h
  obtain ⟨r₁, r₂, hfinish, hrewrite, hsame⟩ := h onlyCurrentA (fun _ => []) (fun _ => 2) rewriter7
    (conversionOf (ascii "a")) (conversionOf (ascii "b")) (committedA candidateA)
    (committedA candidateA) (callsA false) (ascii "A") valid_rewriter7 rfl (by decide) rfl rfl
  have hstored := hsame (erased_conversionOf _ _) currentA
    (.inl ⟨committedA candidateA, 0, ascii "a", ascii "A", by decide, .current, rfl⟩)
  have hgone : ((rewriter7.finish onlyCurrentA (fun _ => []) (fun _ => 2)
      (conversionOf (ascii "a")) (committedA candidateA)).bind fun left =>
        (left.revert (committedA candidateA)).rewrite onlyCurrentA (conversionOf (ascii "b"))).map
      (fun left => timeOf left.storage (onlyCurrentA.fingerprint currentA)) = some none := by rfl
  rw [hfinish, Option.bind_some, hrewrite, Option.map_some, hstored] at hgone
  cases hgone

end

end MozkeySegmentHistory
