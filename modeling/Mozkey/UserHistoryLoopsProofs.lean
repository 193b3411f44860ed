import Mozkey.UserHistoryTimesProofs

/-! # UserHistoryPredictor — loops of links

    A commit links the entry of each segment to the words of the next one, unless the list of
    words of either has been seen before.  The lists are compared as a whole, but a link goes to
    a single word; so a word that stands once alone and once as the content of a longer segment
    is linked to from both, and can come round. -/

namespace MozkeyHistory

open ByteString MozkeyUtil LruPointers

/-! ## The links of an entry -/

/-- `InsertNextEntry`, of the list of links. -/
def pushLink (fps : List UInt64) (fp : UInt64) : List UInt64 :=
  if fp = 0 then fps
  else
    let fps := fps.filter (· ≠ fp) ++ [fp]
    fps.drop (fps.length - kMaxNextEntriesSize)

@[simp] theorem nextEntryFps_insertNextEntry (fp : UInt64) (entry : Entry) :
    (insertNextEntry fp entry).nextEntryFps = pushLink entry.nextEntryFps fp := by
  rw [insertNextEntry, pushLink]
  split_ifs <;> rfl

theorem nextEntryFps_foldl (fps : List UInt64) (entry : Entry) :
    (fps.foldl (fun entry fp => insertNextEntry fp entry) entry).nextEntryFps =
      fps.foldl pushLink entry.nextEntryFps := by
  induction fps generalizing entry with
  | nil => rfl
  | cons fp rest ih => rw [List.foldl_cons, ih, nextEntryFps_insertNextEntry, List.foldl_cons]

@[simp] theorem nextEntryFps_write (new : NewEntry) (entry : Option Entry) :
    (new.write entry).nextEntryFps =
      new.nextFps.foldl pushLink ((entry.map Entry.nextEntryFps).getD []) := by
  rw [NewEntry.write, nextEntryFps_foldl]
  cases entry <;> rfl

/-! ## The links after a row of inserts -/

variable {m : Modules} {dic : Elements} {fp key x y : UInt64}

theorem mem_pushLink {fps : List UInt64} (h : y ∈ pushLink fps fp) :
    y ∈ fps ∨ y = fp ∧ fp ≠ 0 := by
  rw [pushLink] at h
  split_ifs at h with hzero
  · exact .inl h
  · rcases List.mem_append.mp (List.mem_of_mem_drop h) with hmem | hmem
    · exact .inl (List.mem_of_mem_filter hmem)
    · exact .inr ⟨List.mem_singleton.mp hmem, hzero⟩

theorem mem_foldl_pushLink {nexts : List UInt64} : ∀ {fps : List UInt64},
    y ∈ nexts.foldl pushLink fps → y ∈ fps ∨ y ∈ nexts ∧ y ≠ 0 := by
  induction nexts with
  | nil => exact fun h => .inl h
  | cons next nexts ih =>
    intro fps h
    rcases ih h with hmem | ⟨hmem, hne⟩
    · refine (mem_pushLink hmem).imp_right ?_
      rintro ⟨rfl, hne⟩
      exact ⟨List.mem_cons_self, hne⟩
    · exact .inr ⟨List.mem_cons_of_mem _ hmem, hne⟩

/-- No link is dropped of at most six. -/
theorem mem_foldl_of_le {nexts : List UInt64} (hy : y ≠ 0) : ∀ {fps : List UInt64},
    fps.length + nexts.length ≤ kMaxNextEntriesSize → y ∈ fps ∨ y ∈ nexts →
      y ∈ nexts.foldl pushLink fps := by
  induction nexts with
  | nil => exact fun _ h => h.resolve_right List.not_mem_nil
  | cons next nexts ih =>
    intro fps hle h
    rw [List.length_cons] at hle
    have hfilter := List.length_filter_le (fun n => decide (n ≠ next)) fps
    have hpush : pushLink fps next = if next = 0 then fps else fps.filter (· ≠ next) ++ [next] := by
      rw [pushLink]
      split_ifs with hzero
      · rfl
      · dsimp only
        rw [List.length_append, List.length_singleton,
          Nat.sub_eq_zero_of_le (by omega), List.drop_zero]
    rw [List.foldl_cons, hpush]
    split_ifs with hzero
    · refine ih (by omega) (h.imp_right fun hmem => ?_)
      exact (List.mem_cons.mp hmem).resolve_left fun hsame => hy (hsame.trans hzero)
    · refine ih (by rw [List.length_append, List.length_singleton]; omega) ?_
      by_cases hsame : y = next
      · exact .inl (by simp [hsame])
      · exact h.imp (fun hmem => by simp [hmem, hsame])
          fun hmem => (List.mem_cons.mp hmem).resolve_left hsame

theorem lookup_cons (e : LruElement UInt64 Entry) :
    lookup (e :: dic) fp = if e.key = fp then some e.value else lookup dic fp := by
  rw [lookup, Reference.find, List.find?_cons]
  by_cases h : e.key = fp
  · simp [h]
  · simp [h, lookup, Reference.find]

theorem lookup_remove (hne : key ≠ fp) : lookup (Reference.remove dic key) fp = lookup dic fp := by
  induction dic with
  | nil => rfl
  | cons e dic ih =>
    rw [Reference.remove, List.filter_cons]
    by_cases h : e.key = key
    · rw [if_neg (by simpa using h), lookup_cons, if_neg (h ▸ hne)]
      exact ih
    · rw [if_pos (by simpa using h), lookup_cons, lookup_cons]
      exact congrArg _ ih

/-- **A LINK** of an entry was given to an insert of it. -/
theorem exists_insert_of_link (news : List NewEntry) : ∀ {dic : Elements},
    (∀ x entry, lookup dic x = some entry → entry.nextEntryFps = []) →
    ∀ {x : UInt64} {entry : Entry}, lookup (news.foldl (insertEntry m) dic) x = some entry →
      y ∈ entry.nextEntryFps → y ≠ 0 ∧ ∃ new ∈ news, new.fp m = x ∧ y ∈ new.nextFps := by
  induction news using List.reverseRecOn with
  | nil =>
    intro dic hnone x entry hentry hy
    rw [hnone x entry hentry] at hy
    exact absurd hy List.not_mem_nil
  | append_singleton news new ih =>
    intro dic hnone x entry hentry hy
    have hbefore {entry : Entry} (h : lookup (news.foldl (insertEntry m) dic) x = some entry)
        (hy : y ∈ entry.nextEntryFps) :
        y ≠ 0 ∧ ∃ new' ∈ news ++ [new], new'.fp m = x ∧ y ∈ new'.nextFps := by
      obtain ⟨hne, new', hmem, hnew⟩ := ih hnone h hy
      exact ⟨hne, new', List.mem_append_left _ hmem, hnew⟩
    rw [List.foldl_append, List.foldl_cons, List.foldl_nil, insertEntry, lookup_cons] at hentry
    split_ifs at hentry with hfp
    · replace hfp : new.fp m = x := hfp
      rw [← Option.some.inj hentry, nextEntryFps_write, hfp] at hy
      rcases mem_foldl_pushLink hy with hmem | ⟨hmem, hne⟩
      · cases hlookup : lookup (news.foldl (insertEntry m) dic) x with
        | none =>
          rw [hlookup] at hmem
          exact absurd hmem List.not_mem_nil
        | some before => exact hbefore hlookup (by simpa [hlookup] using hmem)
      · exact ⟨hne, new, by simp, hfp, hmem⟩
    · obtain ⟨e, he, rfl⟩ := Option.map_eq_some_iff.mp hentry
      exact hbefore (Option.map_eq_some_iff.mpr ⟨e, find_kept (Ne.symm hfp) he, rfl⟩) hy

/-- The links of an entry after inserts that the storage has room for. -/
theorem links_inserts (news : List NewEntry) : ∀ {dic : Elements},
    dic.length + news.length ≤ kLruCacheSize →
    (lookup (news.foldl (insertEntry m) dic) fp).map Entry.nextEntryFps =
      (news.filter fun new => new.fp m = fp).foldl
        (fun links new => some (new.nextFps.foldl pushLink (links.getD [])))
        ((lookup dic fp).map Entry.nextEntryFps) := by
  induction news with
  | nil => exact fun _ => rfl
  | cons new news ih =>
    intro dic hle
    rw [List.length_cons] at hle
    have hkept : Reference.kept kLruCacheSize dic (new.fp m) =
        if (Reference.find dic (new.fp m)).isSome then Reference.remove dic (new.fp m)
        else dic := by
      rw [Reference.kept]
      split_ifs with hfound hfull
      · rfl
      · omega
      · rfl
    have hlength : (insertEntry m dic new).length ≤ dic.length + 1 := by
      rw [insertEntry, hkept, List.length_cons]
      split_ifs
      · exact Nat.succ_le_succ (List.length_filter_le _ _)
      · exact le_rfl
    rw [List.foldl_cons, ih (by omega), insertEntry, lookup_cons, hkept, List.filter_cons]
    by_cases hfp : new.fp m = fp
    · rw [if_pos hfp, if_pos (by simpa using hfp), List.foldl_cons, Option.map_some,
        nextEntryFps_write, hfp]
    · have hlookup : lookup (if (Reference.find dic (new.fp m)).isSome then
          Reference.remove dic (new.fp m) else dic) fp = lookup dic fp := by
        split_ifs
        · exact lookup_remove hfp
        · rfl
      rw [if_neg hfp, if_neg (show ¬decide (new.fp m = fp) = true by simpa using hfp), hlookup]

/-- Inserts of an entry leave it with all the links that they bring, if these are at most six. -/
theorem foldl_links (news : List NewEntry) : ∀ {fps : List UInt64},
    news.foldl (fun links new => some (new.nextFps.foldl pushLink (links.getD []))) (some fps) =
      some ((news.flatMap NewEntry.nextFps).foldl pushLink fps) := by
  induction news with
  | nil => exact rfl
  | cons new news ih =>
    intro fps
    rw [List.foldl_cons, List.flatMap_cons, List.foldl_append]
    exact ih

/-- **AN INSERT IS REMEMBERED** with its links, where the storage has room for all inserts and the
    entry for all links. -/
theorem linked_inserts {news : List NewEntry} {new : NewEntry} (hle : news.length ≤ kLruCacheSize)
    (hnew : new ∈ news)
    (hsix : ((news.filter fun n => n.fp m = new.fp m).flatMap NewEntry.nextFps).length
      ≤ kMaxNextEntriesSize) :
    ∃ entry, lookup (news.foldl (insertEntry m) []) (new.fp m) = some entry ∧
      ∀ y ∈ new.nextFps, y ≠ 0 → y ∈ entry.nextEntryFps := by
  have hlinks := @links_inserts m (new.fp m) news [] (by simpa using hle)
  have hmem : new ∈ news.filter fun n => n.fp m = new.fp m := by simpa using hnew
  generalize hfilter : (news.filter fun n => n.fp m = new.fp m) = own at hlinks hmem hsix
  cases own with
  | nil => exact absurd hmem List.not_mem_nil
  | cons first rest =>
    rw [List.foldl_cons, foldl_links] at hlinks
    obtain ⟨entry, hentry, hnexts⟩ := Option.map_eq_some_iff.mp hlinks
    refine ⟨entry, hentry, fun y hy hne => ?_⟩
    rw [hnexts]
    have hall := @mem_foldl_of_le y _ hne [] (by simpa using hsix)
      (.inr (List.mem_flatMap.mpr ⟨new, hmem, hy⟩))
    rwa [List.flatMap_cons, List.foldl_append] at hall

/-! ## What is inserted for the segments -/

/-- The list at an index stands there for the first time. -/
def FirstTime (lists : List (List UInt64)) (i : Nat) : Prop := ∀ j < i, lists[j]? ≠ lists[i]?

instance (lists : List (List UInt64)) (i : Nat) : Decidable (FirstTime lists i) :=
  inferInstanceAs (Decidable (∀ j < i, lists[j]? ≠ lists[i]?))

/-- The words that a segment is linked to: those of the next one, if neither list of words has
    stood there before. -/
def followersAt (lists : List (List UInt64)) (i : Nat) : List UInt64 :=
  if FirstTime lists i ∧ FirstTime lists (i + 1) then (lists[i + 1]?).getD [] else []

/-- The word of a segment, with its links. -/
def Segment.newEntry (segment : Segment) (nextFps : List UInt64) : NewEntry where
  key := segment.key
  value := segment.value
  description := segment.description
  nextFps := nextFps

/-- The word of a segment, with its links, and its content before it. -/
def segmentWords (segment : Segment) (followers : List UInt64) : List NewEntry :=
  (if segment.contentKey ≠ segment.key ∧ segment.contentValue ≠ segment.value then
    [{ key := segment.contentKey, value := segment.contentValue
       description := segment.description }]
  else []) ++
    [segment.newEntry followers]

/-- The words of segments from index `i` on. -/
def wordsFrom (lists : List (List UInt64)) : Nat → List Segment → List NewEntry
  | _, [] => []
  | i, segment :: rest => segmentWords segment (followersAt lists i) ++ wordsFrom lists (i + 1) rest

/-- The words of a commit, with their links. -/
def commitWords (m : Modules) (segments : Segments) : List NewEntry :=
  (if 1 < segments.conversionSegments.length then
    [{ key := segments.conversionSegmentsKey, value := segments.conversionSegmentsValue }]
  else []) ++
    wordsFrom (segments.conversionSegments.map (learningSegmentFingerprints m)) 0
      segments.conversionSegments

/-- An insert without what the links do not depend on. -/
def NewEntry.bare (new : NewEntry) : NewEntry where
  key := new.key
  value := new.value
  description := new.description
  nextFps := new.nextFps

theorem firstTime_iff {lists : List (List UInt64)} {i : Nat} {l : List UInt64}
    (h : lists[i]? = some l) : FirstTime lists i ↔ l ∉ lists.take i := by
  rw [FirstTime, h, List.mem_take_iff_getElem]
  obtain ⟨hi, -⟩ := List.getElem?_eq_some_iff.mp h
  constructor
  · rintro hfirst ⟨j, hj, rfl⟩
    exact hfirst j (by omega) (List.getElem?_eq_getElem _)
  · rintro hnone j hj hsome
    obtain ⟨hlt, hget⟩ := List.getElem?_eq_some_iff.mp hsome
    exact hnone ⟨j, by omega, hget⟩

theorem getElem?_of_drop {lists : List (List UInt64)} {i : Nat} {rest : List (List UInt64)}
    (h : lists.drop i = rest) (k : Nat) : lists[i + k]? = rest[k]? := by
  rw [← h, List.getElem?_drop]

/-- **THE LOOP** over the segments: `seen` holds the lists up to the present one, and that one is
    taken as seen if it has stood there before. -/
theorem bare_segmentInserts {allowPartialMatch : Bool} {lastAccessTime : Nat}
    {lists : List (List UInt64)} (rest : List Segment) :
    ∀ {i : Nat} {seen : List (List UInt64)} {thisWasSeen : Bool},
      lists.drop i = rest.map (learningSegmentFingerprints m) →
      (rest ≠ [] → ∀ l, l ∈ seen ↔ i ≠ 0 ∧ l ∈ lists.take (i + 1)) →
      (rest ≠ [] → (thisWasSeen = true ↔ ¬ FirstTime lists i)) →
      (segmentInserts m allowPartialMatch lastAccessTime i seen thisWasSeen rest).map
        NewEntry.bare = wordsFrom lists i rest := by
  induction rest with
  | nil => exact fun _ _ _ => rfl
  | cons segment rest ih =>
    intro i seen thisWasSeen hdrop hseen hthis
    specialize hseen (List.cons_ne_nil _ _)
    specialize hthis (List.cons_ne_nil _ _)
    have hget (k : Nat) : lists[i + k]? =
        ((segment :: rest)[k]?).map (learningSegmentFingerprints m) := by
      rw [getElem?_of_drop hdrop, List.getElem?_map]
    obtain ⟨seen', hseen'⟩ : ∃ seen', (if i = 0 then learningSegmentFingerprints m segment :: seen
        else seen) = seen' := ⟨_, rfl⟩
    obtain ⟨nextFps, hnext⟩ : ∃ nextFps,
        (rest.head?.map (learningSegmentFingerprints m)).getD [] = nextFps := ⟨_, rfl⟩
    have hhere : lists[i]? = some (learningSegmentFingerprints m segment) := hget 0
    have hnextGet : lists[i + 1]? = rest.head?.map (learningSegmentFingerprints m) := by
      rw [hget 1, List.getElem?_cons_succ, List.head?_eq_getElem?]
    have htake : lists.take (i + 1) = lists.take i ++ [learningSegmentFingerprints m segment] := by
      rw [List.take_add_one, hhere]
      rfl
    have hmem (l : List UInt64) : l ∈ seen' ↔ l ∈ lists.take (i + 1) := by
      rw [← hseen']
      split_ifs with hzero
      · subst hzero
        rw [htake, List.mem_cons, hseen l]
        simp
      · rw [hseen l, and_iff_right hzero]
    have hfollowers :
        (if thisWasSeen = true ∨ decide (nextFps ∈ seen') = true then [] else nextFps) =
          followersAt lists i := by
      rw [followersAt, hnextGet, hnext]
      cases hhead : rest.head? with
      | none =>
        rw [hhead] at hnext
        rw [← hnext]
        simp
      | some next =>
        rw [hhead] at hnextGet hnext
        have hfirst := firstTime_iff hnextGet
        have hnextFps : nextFps = learningSegmentFingerprints m next := hnext.symm
        have hcond : (thisWasSeen = true ∨ decide (nextFps ∈ seen') = true) ↔
            ¬ (FirstTime lists i ∧ FirstTime lists (i + 1)) := by
          rw [decide_eq_true_iff, hmem, hthis, hnextFps, not_and_or, hfirst, not_not]
        rw [if_congr hcond rfl rfl, ite_not]
    have hdropNext : lists.drop (i + 1) = rest.map (learningSegmentFingerprints m) := by
      rw [← List.drop_drop, hdrop]
      rfl
    have hrest := @ih (i + 1) (nextFps :: seen') (decide (nextFps ∈ seen')) hdropNext ?_ ?_
    · rw [segmentInserts, hnext, hseen', wordsFrom, segmentWords, ← hfollowers, ← hrest,
        List.map_append, List.map_cons]
      by_cases hcontent : segment.contentKey ≠ segment.key ∧ segment.contentValue ≠ segment.value
      · rw [if_pos hcontent, if_pos (decide_eq_true hcontent)]
        rfl
      · rw [if_neg hcontent, if_neg (by simpa using hcontent)]
        rfl
    · intro hne l
      obtain ⟨next, hhead⟩ := Option.isSome_iff_exists.mp (List.isSome_head?.mpr hne)
      rw [hhead] at hnextGet hnext
      have hnextFps : nextFps = learningSegmentFingerprints m next := hnext.symm
      rw [List.mem_cons, hmem, and_iff_right (Nat.succ_ne_zero i), List.take_add_one (i := i + 1),
        hnextGet, hnextFps]
      simp [or_comm]
    · intro hne
      obtain ⟨next, hhead⟩ := Option.isSome_iff_exists.mp (List.isSome_head?.mpr hne)
      rw [hhead] at hnextGet hnext
      have hnextFps : nextFps = learningSegmentFingerprints m next := hnext.symm
      rw [decide_eq_true_iff, hmem, firstTime_iff hnextGet, not_not, hnextFps]

theorem bare_conversionInserts (m : Modules) (lastAccessTime : Nat) (segments : Segments) :
    (conversionInserts m lastAccessTime segments).map NewEntry.bare = commitWords m segments := by
  rw [conversionInserts, commitWords, List.map_append]
  congr 1
  · split_ifs <;> rfl
  · refine bare_segmentInserts segments.conversionSegments rfl ?_ ?_
    · exact fun _ l => ⟨fun h => absurd h List.not_mem_nil, fun h => absurd rfl h.1⟩
    · have hfirst : FirstTime (segments.conversionSegments.map (learningSegmentFingerprints m)) 0 :=
        fun j hj => absurd hj (Nat.not_lt_zero j)
      exact fun _ => ⟨fun h => Bool.noConfusion h, fun h => absurd hfirst h⟩

theorem bare_acceptedInserts (news : List NewEntry) :
    acceptedInserts (news.map NewEntry.bare) = (acceptedInserts news).map NewEntry.bare := by
  rw [acceptedInserts, acceptedInserts, List.map_map, List.filter_map, List.filter_map,
    List.map_map]
  rfl

/-! ## What stands behind what -/

variable {segments : Segments}

/-- The word of a segment, as it is inserted. -/
def Segment.word (segment : Segment) : NewEntry := (segment.newEntry []).stripped

/-- A word of the segments is followed by another one: behind a segment of that word there is one
    with the other word or content, and none of the two stood there before. -/
def FollowedBy (m : Modules) (segments : List Segment) (x y : UInt64) : Prop :=
  ∃ i segment next, segments[i]? = some segment ∧ segments[i + 1]? = some next ∧
    segment.word.accepted = true ∧ segment.word.fp m = x ∧
    y ∈ learningSegmentFingerprints m next ∧ y ≠ 0 ∧
    FirstTime (segments.map (learningSegmentFingerprints m)) i ∧
    FirstTime (segments.map (learningSegmentFingerprints m)) (i + 1)

/-- An entry is linked to another one. -/
def Linked (dic : Elements) (x y : UInt64) : Prop :=
  ∃ entry, lookup dic x = some entry ∧ y ∈ entry.nextEntryFps ∧ (lookup dic y).isSome = true

/-- An entry is linked to itself, directly or through others. -/
def HasLoop (dic : Elements) : Prop := ∃ x, Relation.TransGen (Linked dic) x x

/-- The inserts of a commit, without what the links do not depend on. -/
theorem bare_accepted (m : Modules) (lastAccessTime : Nat) (segments : Segments) :
    (acceptedInserts (conversionInserts m lastAccessTime segments)).map NewEntry.bare =
      acceptedInserts (commitWords m segments) := by
  rw [← bare_acceptedInserts, bare_conversionInserts]

theorem mem_followersAt {lists : List (List UInt64)} {i : Nat} : y ∈ followersAt lists i ↔
    (∃ l, lists[i + 1]? = some l ∧ y ∈ l) ∧ FirstTime lists i ∧ FirstTime lists (i + 1) := by
  rw [followersAt]
  split_ifs with hfirst
  · rw [and_iff_left hfirst]
    cases lists[i + 1]? <;> simp
  · simp [hfirst]

/-- The word of a segment is inserted with its followers, and nothing else with any. -/
theorem mem_wordsFrom {lists : List (List UInt64)} {new : NewEntry} : ∀ {rest : List Segment}
    {i : Nat}, new ∈ wordsFrom lists i rest → new.nextFps = [] ∨ ∃ k segment,
      rest[k]? = some segment ∧ new = Segment.newEntry segment (followersAt lists (i + k))
  | segment :: rest, i, h => by
    rw [wordsFrom, List.mem_append, segmentWords, List.mem_append] at h
    rcases h with (h | h) | h
    · split_ifs at h
      · exact .inl (by rw [List.mem_singleton.mp h])
      · exact absurd h List.not_mem_nil
    · rw [List.mem_singleton.mp h]
      exact .inr ⟨0, segment, rfl, rfl⟩
    · refine (mem_wordsFrom h).imp_right ?_
      rintro ⟨k, segment', hget, hnew⟩
      exact ⟨k + 1, segment', hget, by rw [hnew, Nat.add_right_comm, ← Nat.add_assoc]⟩

theorem newEntry_mem_wordsFrom {lists : List (List UInt64)} {segment : Segment} :
    ∀ {rest : List Segment} {i k : Nat}, rest[k]? = some segment →
      segment.newEntry (followersAt lists (i + k)) ∈ wordsFrom lists i rest
  | first :: rest, i, 0, h => by
    obtain rfl := Option.some.inj h
    rw [wordsFrom, segmentWords]
    exact List.mem_append_left _ (List.mem_append_right _ (List.mem_singleton_self _))
  | first :: rest, i, k + 1, h => by
    rw [wordsFrom, ← Nat.add_assoc, Nat.add_right_comm]
    exact List.mem_append_right _ (newEntry_mem_wordsFrom h)

variable {lastAccessTime : Nat}

/-- **A LINK** joins words of adjacent segments. -/
theorem linked_followedBy (h : Linked (insertHistoryForConversionSegments m lastAccessTime segments
    []) x y) : FollowedBy m segments.conversionSegments x y := by
  obtain ⟨entry, hentry, hy, -⟩ := h
  obtain ⟨hne, new, hnew, hfp, hfollows⟩ :=
    exists_insert_of_link (acceptedInserts (conversionInserts m lastAccessTime segments))
      (fun _ _ h => by cases h) hentry hy
  have hbare : new.bare ∈ acceptedInserts (commitWords m segments) := by
    rw [← bare_accepted m lastAccessTime]
    exact List.mem_map_of_mem hnew
  obtain ⟨raw, hraw, hstripped⟩ := mem_acceptedInserts hbare
  have hnexts := congrArg NewEntry.nextFps hstripped
  change raw.nextFps = new.nextFps at hnexts
  rw [commitWords, List.mem_append] at hraw
  rcases hraw with hraw | hraw
  · split_ifs at hraw
    · rw [← hnexts, List.mem_singleton.mp hraw] at hfollows
      exact absurd hfollows List.not_mem_nil
    · exact absurd hraw List.not_mem_nil
  · rcases mem_wordsFrom hraw with hnil | ⟨i, segment, hget, rfl⟩
    · rw [← hnexts, hnil] at hfollows
      exact absurd hfollows List.not_mem_nil
    have haccepted : segment.word.accepted = true := by
      have h := List.of_mem_filter hbare
      rwa [← hstripped] at h
    rw [← hnexts, Segment.newEntry, Nat.zero_add, mem_followersAt] at hfollows
    obtain ⟨⟨l, hl, hyl⟩, hfirst⟩ := hfollows
    rw [List.getElem?_map, Option.map_eq_some_iff] at hl
    obtain ⟨next, hnext, rfl⟩ := hl
    refine ⟨i, segment, next, hget, hnext, haccepted, ?_, hyl, hne, hfirst⟩
    have hsame := congrArg (NewEntry.fp m) hstripped
    exact hsame.trans hfp

/-- Each segment has at most two words. -/
theorem length_wordsFrom (lists : List (List UInt64)) : ∀ (rest : List Segment) (i : Nat),
    (wordsFrom lists i rest).length ≤ 2 * rest.length
  | [], _ => le_rfl
  | segment :: rest, i => by
    have hrest := length_wordsFrom lists rest (i + 1)
    rw [wordsFrom, segmentWords]
    split_ifs
    all_goals
      simp only [List.length_append, List.length_cons, List.length_nil]
      omega

/-- The links that inserts bring to a fingerprint. -/
def linksTo (m : Modules) (fp : UInt64) (news : List NewEntry) : List UInt64 :=
  ((acceptedInserts news).filter fun n => n.fp m = fp).flatMap NewEntry.nextFps

theorem linksTo_append (a b : List NewEntry) :
    linksTo m fp (a ++ b) = linksTo m fp a ++ linksTo m fp b := by
  simp [linksTo, acceptedInserts]

theorem linksTo_eq_nil {news : List NewEntry} (h : ∀ new ∈ news, new.nextFps = []) :
    linksTo m fp news = [] := by
  rw [linksTo, List.flatMap_eq_nil_iff]
  intro new hnew
  obtain ⟨raw, hraw, rfl⟩ := mem_acceptedInserts (List.mem_of_mem_filter hnew)
  exact h raw hraw

theorem length_linksTo_newEntry {segment : Segment} {nextFps : List UInt64}
    (h : nextFps.length ≤ 2) :
    (linksTo m fp [segment.newEntry nextFps]).length ≤ if segment.word.fp m = fp then 2 else 0 := by
  have hword : (segment.newEntry nextFps).stripped.fp m = segment.word.fp m := rfl
  have hnexts : (segment.newEntry nextFps).stripped.nextFps = nextFps := rfl
  simp only [linksTo, acceptedInserts, List.map_singleton, List.filter_cons, List.filter_nil]
  split_ifs with haccepted hfp
  · simpa [List.filter_cons, hword, hfp, hnexts] using h
  · simp [hword, hfp]
  · exact Nat.zero_le _
  · exact le_rfl

/-- The links that the inserts of segments bring to a word are at most two for each segment of
    it. -/
theorem length_linksTo_wordsFrom (lists : List (List UInt64)) (hlists : ∀ l ∈ lists, l.length ≤ 2) :
    ∀ (rest : List Segment) (i : Nat), (linksTo m fp (wordsFrom lists i rest)).length
      ≤ 2 * (rest.map fun segment => segment.word.fp m).count fp
  | [], _ => le_rfl
  | segment :: rest, i => by
    have hrest := length_linksTo_wordsFrom lists hlists rest (i + 1)
    have hfollowers : (followersAt lists i).length ≤ 2 := by
      rw [followersAt]
      split_ifs
      · cases hget : lists[i + 1]? with
        | none => exact Nat.zero_le _
        | some l => exact hlists l (List.mem_of_getElem? hget)
      · exact Nat.zero_le _
    have hword := @length_linksTo_newEntry m fp segment _ hfollowers
    rw [wordsFrom, segmentWords, linksTo_append, linksTo_append, linksTo_eq_nil, List.nil_append,
      List.length_append, List.map_cons, List.count_cons]
    · simp only [beq_iff_eq]
      split_ifs at hword ⊢
      · omega
      · omega
    · intro new hnew
      split_ifs at hnew
      · rw [List.mem_singleton.mp hnew]
      · exact absurd hnew List.not_mem_nil

/-- **ADJACENT WORDS ARE LINKED**, if the storage has room for all words and the entry for all
    links. -/
theorem linked_of_followedBy (hfew : segments.conversionSegments.length < 5000)
    (hthree : (segments.conversionSegments.map fun s => s.word.fp m).count x ≤ 3)
    (h : FollowedBy m segments.conversionSegments x y) :
    ∃ entry, lookup (insertHistoryForConversionSegments m lastAccessTime segments []) x =
      some entry ∧ y ∈ entry.nextEntryFps := by
  obtain ⟨i, segment, next, hget, hnext, haccepted, rfl, hy, hne, hfirst⟩ := h
  generalize hlists : segments.conversionSegments.map (learningSegmentFingerprints m) = lists
    at hfirst
  obtain ⟨news, hnews⟩ : ∃ news, acceptedInserts (conversionInserts m lastAccessTime segments) =
    news := ⟨_, rfl⟩
  have hbare : news.map NewEntry.bare = acceptedInserts (commitWords m segments) :=
    hnews ▸ bare_accepted m lastAccessTime segments
  -- the word is among the inserts
  have hword : (segment.newEntry (followersAt lists (0 + i))).stripped ∈
      news.map NewEntry.bare := by
    rw [hbare, acceptedInserts, List.mem_filter, commitWords, hlists]
    exact ⟨List.mem_map_of_mem (List.mem_append_right _ (newEntry_mem_wordsFrom hget)), haccepted⟩
  obtain ⟨new, hnew, hnewWord⟩ := List.mem_map.mp hword
  have hfp := congrArg (NewEntry.fp m) hnewWord
  change new.fp m = segment.word.fp m at hfp
  have hnexts := congrArg NewEntry.nextFps hnewWord
  change new.nextFps = followersAt lists (0 + i) at hnexts
  -- there are at most two of them for each segment, and one more
  have hroom : news.length ≤ kLruCacheSize := by
    have hwords := length_wordsFrom lists segments.conversionSegments 0
    have haccept : (acceptedInserts (commitWords m segments)).length ≤
        (commitWords m segments).length := by
      exact (List.length_filter_le _ _).trans (List.length_map _).le
    rw [← hbare, List.length_map, commitWords, hlists, List.length_append] at haccept
    have hwhole : (if 1 < segments.conversionSegments.length then [({
        key := segments.conversionSegmentsKey
        value := segments.conversionSegmentsValue } : NewEntry)] else []).length ≤ 1 := by
      split_ifs <;> simp
    rw [kLruCacheSize]
    omega
  have hsix : ((news.filter fun n => n.fp m = new.fp m).flatMap NewEntry.nextFps).length ≤
      kMaxNextEntriesSize := by
    have hlinks : (news.filter fun n => n.fp m = new.fp m).flatMap NewEntry.nextFps =
        linksTo m (segment.word.fp m) (commitWords m segments) := by
      rw [linksTo, ← hbare, List.filter_map, List.flatMap_map, hfp]
      rfl
    have htwo : ∀ l ∈ lists, l.length ≤ 2 := by
      rw [← hlists, List.forall_mem_map]
      intro s _
      rw [learningSegmentFingerprints]
      split_ifs <;> simp
    have hcount := @length_linksTo_wordsFrom m (segment.word.fp m) lists htwo
      segments.conversionSegments 0
    rw [hlinks, commitWords, linksTo_append, linksTo_eq_nil, List.nil_append, hlists]
    · exact hcount.trans (by rw [kMaxNextEntriesSize]; omega)
    · intro n hn
      split_ifs at hn
      · rw [List.mem_singleton.mp hn]
      · exact absurd hn List.not_mem_nil
  obtain ⟨entry, hentry, hlinked⟩ := linked_inserts hroom hnew hsix
  refine ⟨entry, ?_, hlinked y ?_ hne⟩
  · rw [← hfp, ← hentry, ← hnews]
    rfl
  · rw [hnexts, Nat.zero_add, mem_followersAt]
    refine ⟨⟨_, ?_, hy⟩, hfirst⟩
    rw [← hlists, List.getElem?_map, hnext, Option.map_some]

/-- **NO LOOP IS LEARNED** where no word of the segments comes round.  Where one does, there is a
    loop unless the storage forgets: it has room for the words of less than 5000 segments, and an
    entry for the links of three of them. -/
theorem noLoop_of_followedBy (m : Modules) (lastAccessTime : Nat) (segments : Segments) :
    ((∀ x, ¬Relation.TransGen (FollowedBy m segments.conversionSegments) x x) →
      ¬HasLoop (insertHistoryForConversionSegments m lastAccessTime segments [])) ∧
    (segments.conversionSegments.length < 5000 →
      (∀ fp, (segments.conversionSegments.map fun s => s.word.fp m).count fp ≤ 3) →
      ¬HasLoop (insertHistoryForConversionSegments m lastAccessTime segments []) →
      ∀ x, ¬Relation.TransGen (FollowedBy m segments.conversionSegments) x x) := by
  constructor
  · rintro hnone ⟨x, hloop⟩
    exact hnone x (Relation.TransGen.mono (fun _ _ => linked_followedBy) x x hloop)
  · intro hfew hthree hnoLoop x hround
    refine hnoLoop ⟨x, ?_⟩
    have hentry {x y : UInt64} (h : FollowedBy m segments.conversionSegments x y) :=
      @linked_of_followedBy _ _ _ _ lastAccessTime hfew (hthree x) h
    -- the words of a round are all stored, since each is followed by another one
    have hlinks {a b : UInt64} (h : Relation.TransGen (FollowedBy m segments.conversionSegments)
        a b) (hb : ∃ c, FollowedBy m segments.conversionSegments b c) :
        Relation.TransGen (Linked (insertHistoryForConversionSegments m lastAccessTime segments
          [])) a b := by
      have hlinked {a c : UInt64} (h : FollowedBy m segments.conversionSegments a c)
          (hc : ∃ d, FollowedBy m segments.conversionSegments c d) :
          Linked (insertHistoryForConversionSegments m lastAccessTime segments []) a c := by
        obtain ⟨entry, hlookup, hmem⟩ := hentry h
        obtain ⟨d, hd⟩ := hc
        obtain ⟨entry', hlookup', -⟩ := hentry hd
        exact ⟨entry, hlookup, hmem, by rw [hlookup']; rfl⟩
      induction h using Relation.TransGen.head_induction_on with
      | single h => exact .single (hlinked h hb)
      | head h hrest ih =>
        obtain ⟨d, hd, -⟩ := Relation.TransGen.head'_iff.mp hrest
        exact .head (hlinked h ⟨d, hd⟩) ih
    obtain ⟨c, hc, -⟩ := Relation.TransGen.head'_iff.mp hround
    exact hlinks hround ⟨c, hc⟩

/-- a, and then an, which contains it. -/
def aAn : Segments where
  conversionSegmentsKey := ascii "aan"
  conversionSegmentsValue := ascii "AAn"
  innerSegmentBoundary := []
  historySegments := []
  conversionSegments :=
    [⟨0, 0, ascii "a", ascii "A", ascii "a", ascii "A", []⟩,
      ⟨1, 1, ascii "an", ascii "An", ascii "a", ascii "A", []⟩]
  hasSpacePrefix := false
  allowPartialMatch := false

/-- The entry of a is linked to itself. -/
theorem aAn_hasLoop :
    [plainModules.fingerprint (ascii "a") (ascii "A"),
      plainModules.fingerprint (ascii "an") (ascii "An"),
      plainModules.fingerprint (ascii "aan") (ascii "AAn")].Nodup ∧
    HasLoop (insertHistoryForConversionSegments plainModules 100 aAn []) := by
  refine ⟨by decide +kernel, plainModules.fingerprint (ascii "a") (ascii "A"), .single ?_⟩
  have hlinks : (lookup (insertHistoryForConversionSegments plainModules 100 aAn [])
      (plainModules.fingerprint (ascii "a") (ascii "A"))).map (fun entry =>
        decide (plainModules.fingerprint (ascii "a") (ascii "A") ∈ entry.nextEntryFps)) =
          some true := by decide +kernel
  obtain ⟨entry, hentry, hmem⟩ := Option.map_eq_some_iff.mp hlinks
  exact ⟨entry, hentry, of_decide_eq_true hmem, by rw [hentry]; rfl⟩

/-- a, and then b. -/
def aB : Segments :=
  { aAn with
    conversionSegmentsKey := ascii "ab"
    conversionSegmentsValue := ascii "AB"
    conversionSegments :=
      [⟨0, 0, ascii "a", ascii "A", ascii "a", ascii "A", []⟩,
        ⟨1, 1, ascii "b", ascii "B", ascii "b", ascii "B", []⟩] }

theorem noLoop_of_followedBy_aB :
    ¬HasLoop (insertHistoryForConversionSegments plainModules 100 aB []) := by
  refine (noLoop_of_followedBy plainModules 100 aB).1 fun x hround => ?_
  -- only a is followed by something, and only b follows
  have hpair {x y : UInt64} (h : FollowedBy plainModules aB.conversionSegments x y) :
      x = plainModules.fingerprint (ascii "a") (ascii "A") ∧
        y = plainModules.fingerprint (ascii "b") (ascii "B") := by
    obtain ⟨i, segment, next, hsegment, hnext, -, rfl, hy, -⟩ := h
    cases i with
    | zero =>
      cases hsegment
      cases hnext
      exact ⟨rfl, List.mem_singleton.mp hy⟩
    | succ i => cases i <;> cases hnext
  obtain ⟨c, hfirst, -⟩ := Relation.TransGen.head'_iff.mp hround
  obtain ⟨d, -, hlast⟩ := Relation.TransGen.tail'_iff.mp hround
  exact absurd ((hpair hfirst).1.symm.trans (hpair hlast).2) (by decide +kernel)

end MozkeyHistory
