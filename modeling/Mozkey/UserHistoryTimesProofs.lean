import Mozkey.LruExactProofs
import Mozkey.UserHistoryRevertProofs

/-! # UserHistoryPredictor — the time and the permission of what is learned

    An insert gives an entry the time of the commit, and lets it be matched partially if it is
    allowed to.  The word behind a space is inserted with the two arguments in each other's
    place.  The storage is its list from the latest entry on, and drops the last one when it is
    full. -/

namespace MozkeyHistory

open ByteString MozkeyUtil LruPointers

/-! ## The storage and its inserts -/

/-- `UserHistoryStorage`: its elements, the latest first. -/
abbrev Elements := List (LruElement UInt64 Entry)

/-- The entry of a fingerprint. -/
def lookup (dic : Elements) (fp : UInt64) : Option Entry :=
  (Reference.find dic fp).map LruElement.value

/-- The fingerprint of what is inserted. -/
def NewEntry.fp (m : Modules) (new : NewEntry) : UInt64 := m.fingerprint new.key new.value

/-- `Insert`, of what is accepted. -/
def insertEntry (m : Modules) (dic : Elements) (new : NewEntry) : Elements :=
  ⟨new.fp m, new.write (lookup dic (new.fp m))⟩ :: Reference.kept kLruCacheSize dic (new.fp m)

/-- Calls of `Insert`. -/
def insertEntries (m : Modules) (news : List NewEntry) (dic : Elements) : Elements :=
  (acceptedInserts news).foldl (insertEntry m) dic

/-- `InsertNextEntry`, of the element at a fingerprint. -/
def linkEntry (fp : UInt64) (dic : Elements) (next : UInt64) : Elements :=
  Reference.write dic fp (insertNextEntry next)

/-- `InsertHistoryForConversionSegments`. -/
def insertHistoryForConversionSegments (m : Modules) (lastAccessTime : Nat) (segments : Segments)
    (dic : Elements) : Elements :=
  insertEntries m (conversionInserts m lastAccessTime segments) dic

/-- The fingerprint that the element of the preceding word has after the word behind a space has
    been inserted: an element that was dropped for it is used again. -/
def historyElement (m : Modules) (spaced : List NewEntry) (fp : UInt64) (dic : Elements) : UInt64 :=
  if (lookup dic fp).isSome then fp
  else ((acceptedInserts spaced).head?.map (NewEntry.fp m)).getD fp

/-- `InsertHistoryForHistorySegments`. -/
def insertHistoryForHistorySegments (m : Modules) (lastAccessTime : Nat) (segments : Segments)
    (dic : Elements) : Elements :=
  match linkedSegments segments with
  | none => dic
  | some (history, conversion) =>
    let fp := learningSegmentFingerprint m history
    if (lookup dic fp).isNone then dic
    else
      let spaced := (spacedWord lastAccessTime segments conversion).toList
      let dic := insertEntries m spaced dic
      let dic := (linkTargets m lastAccessTime segments conversion).foldl
        (linkEntry (historyElement m spaced fp dic)) dic
      insertEntries m (contextInserts m lastAccessTime segments.historySegments conversion) dic

/-- `InsertHistory`. -/
def insertHistory (m : Modules) (lastAccessTime : Nat) (segments : Segments) (dic : Elements) :
    Elements :=
  insertHistoryForHistorySegments m lastAccessTime segments
    (insertHistoryForConversionSegments m lastAccessTime segments dic)

/-! ## Times and permissions -/

/-- The time of an entry, and its permission. -/
structure Stamp where
  lastAccessTime : Nat
  allowPartialMatch : Bool
  deriving DecidableEq

/-- What a commit sets of an entry. -/
def Entry.stamp (entry : Entry) : Stamp := ⟨entry.lastAccessTime, entry.allowPartialMatch⟩

/-- The stamp of the entry at a fingerprint. -/
def stampAt (dic : Elements) (fp : UInt64) : Option Stamp := (lookup dic fp).map Entry.stamp

@[simp] theorem lastAccessTime_write (new : NewEntry) (entry : Option Entry) :
    (new.write entry).lastAccessTime = new.lastAccessTime := by
  obtain ⟨nexts, h⟩ := exists_links new.nextFps _
  exact congrArg Entry.lastAccessTime h

@[simp] theorem allowPartialMatch_write (new : NewEntry) (entry : Option Entry) :
    (new.write entry).allowPartialMatch =
      ((entry.getD {}).allowPartialMatch || new.allowPartialMatch) := by
  obtain ⟨nexts, h⟩ := exists_links new.nextFps _
  exact congrArg Entry.allowPartialMatch h

@[simp] theorem stamp_insertNextEntry (next : UInt64) (entry : Entry) :
    (insertNextEntry next entry).stamp = entry.stamp := by
  rw [insertNextEntry]
  split_ifs <;> rfl

variable {m : Modules} {dic dic' : Elements} {fp : UInt64} {stamp : Stamp}

theorem find_kept {max : Nat} {key : UInt64} (hne : fp ≠ key) {e : LruElement UInt64 Entry}
    (h : Reference.find (Reference.kept max dic key) fp = some e) :
    Reference.find dic fp = some e := by
  rw [Reference.kept] at h
  split_ifs at h
  · rw [Reference.find, Reference.remove, List.find?_filter] at h
    rw [Reference.find, ← h]
    congr 1
    funext e
    by_cases he : e.key = fp
    · simp [he, hne]
    · simp [he]
  · rw [Reference.find] at h ⊢
    rcases List.eq_nil_or_concat dic with rfl | ⟨front, last, rfl⟩
    · simp at h
    · rw [List.concat_eq_append, List.dropLast_concat] at h
      rw [List.concat_eq_append, List.find?_append, h]
      rfl
  · exact h

/-- **AN INSERT** stamps its entry; another entry is as it was, or is dropped. -/
theorem stampAt_insertEntry (new : NewEntry) :
    stampAt (insertEntry m dic new) (new.fp m) = some ⟨new.lastAccessTime,
        (stampAt dic (new.fp m)).any Stamp.allowPartialMatch || new.allowPartialMatch⟩ ∧
      ∀ fp ≠ new.fp m, ∀ stamp, stampAt (insertEntry m dic new) fp = some stamp →
        stampAt dic fp = some stamp := by
  constructor
  · rw [stampAt, lookup, insertEntry, Reference.find, List.find?_cons_of_pos (by simp)]
    simp only [Option.map_some, Entry.stamp, lastAccessTime_write, allowPartialMatch_write]
    rw [stampAt]
    cases lookup dic (new.fp m) with
    | none => rfl
    | some entry => rfl
  · intro fp hne stamp h
    rw [stampAt, lookup, insertEntry, Reference.find,
      List.find?_cons_of_neg (by simpa using Ne.symm hne)] at h
    simp only [Option.map_map, Option.map_eq_some_iff] at h
    obtain ⟨e, he, rfl⟩ := h
    rw [stampAt, lookup, find_kept hne he]
    rfl

theorem stampAt_linkEntry (dic : Elements) (element next fp : UInt64) :
    stampAt (linkEntry element dic next) fp = stampAt dic fp := by
  have hfind : Reference.find (linkEntry element dic next) fp =
      (Reference.find dic fp).map fun e =>
        if e.key = element then { e with value := insertNextEntry next e.value } else e := by
    rw [Reference.find, Reference.find, linkEntry, Reference.write, List.find?_map]
    congr 2
    funext e
    show decide ((if e.key = element then _ else e).key = fp) = decide (e.key = fp)
    split_ifs <;> rfl
  rw [stampAt, stampAt, lookup, lookup, hfind]
  cases Reference.find dic fp with
  | none => rfl
  | some e =>
    simp only [Option.map_some, Option.some.injEq]
    split_ifs
    · exact stamp_insertNextEntry next e.value
    · rfl

theorem stampAt_linkEntries (targets : List UInt64) (element fp : UInt64) :
    ∀ dic : Elements, stampAt (targets.foldl (linkEntry element) dic) fp = stampAt dic fp := by
  induction targets with
  | nil => exact fun _ => rfl
  | cons next rest ih => exact fun dic => (ih _).trans (stampAt_linkEntry dic element next fp)

/-- **A ROW OF INSERTS**: an entry that is not inserted keeps its stamp, one that is has the time
    of its inserts, and it is permitted by one of them or was before. -/
theorem stampAt_inserts (news : List NewEntry) : ∀ {dic : Elements},
    stampAt (news.foldl (insertEntry m) dic) fp = some stamp →
      ((∀ new ∈ news, new.fp m ≠ fp) → stampAt dic fp = some stamp) ∧
      (∀ time, (∃ new ∈ news, new.fp m = fp) →
        (∀ new ∈ news, new.fp m = fp → new.lastAccessTime = time) →
          stamp.lastAccessTime = time) ∧
      (stamp.allowPartialMatch = true → (∃ new ∈ news, new.fp m = fp ∧ new.allowPartialMatch) ∨
        (stampAt dic fp).any Stamp.allowPartialMatch = true) := by
  induction news with
  | nil => exact fun h => ⟨fun _ => h, by simp, fun hallow => Or.inr (by
      rw [List.foldl_nil] at h; simpa [h] using hallow)⟩
  | cons new rest ih =>
    intro dic h
    obtain ⟨hkept, htime, hallow⟩ := ih h
    obtain ⟨hself, hother⟩ := @stampAt_insertEntry m dic new
    refine ⟨?_, ?_, ?_⟩
    · intro hnone
      rw [List.forall_mem_cons] at hnone
      exact hother fp (Ne.symm hnone.1) stamp (hkept hnone.2)
    · rintro time ⟨new', hmem, hnew'⟩ hall
      rw [List.forall_mem_cons] at hall
      by_cases hrest : ∃ new ∈ rest, new.fp m = fp
      · exact htime time hrest hall.2
      · have hnone : ∀ new ∈ rest, new.fp m ≠ fp := by simpa using hrest
        by_cases hfp : new.fp m = fp
        · have hstamp := hkept hnone
          rw [← hfp, hself, Option.some.injEq] at hstamp
          rw [← hstamp]
          exact hall.1 hfp
        · rcases List.mem_cons.mp hmem with rfl | hmem
          · exact absurd hnew' hfp
          · exact absurd ⟨new', hmem, hnew'⟩ hrest
    · intro hstamp
      rcases hallow hstamp with ⟨new', hmem, hnew', hallowed⟩ | hbefore
      · exact Or.inl ⟨new', List.mem_cons_of_mem _ hmem, hnew', hallowed⟩
      by_cases hfp : new.fp m = fp
      · rw [← hfp, hself, Option.any_some, Bool.or_eq_true] at hbefore
        rcases hbefore with hbefore | hbefore
        · exact Or.inr (hfp ▸ hbefore)
        · exact Or.inl ⟨new, List.mem_cons_self, hfp, hbefore⟩
      · right
        cases hafter : stampAt (insertEntry m dic new) fp with
        | none => simp [hafter] at hbefore
        | some before => rwa [hother fp (Ne.symm hfp) before hafter, ← hafter]

/-! ## What has been inserted lately -/

/-- An entry is not far from the head of the list. -/
def Recent (k : Nat) (dic : Elements) (fp : UInt64) (P : Entry → Prop) : Prop :=
  ∃ front e back, dic = front ++ e :: back ∧ (∀ x ∈ front, x.key ≠ fp) ∧ e.key = fp ∧
    front.length < k ∧ P e.value

variable {k : Nat} {P : Entry → Prop}

theorem Recent.lookup (h : Recent k dic fp P) : ∃ entry, lookup dic fp = some entry ∧ P entry := by
  obtain ⟨front, e, back, rfl, hfront, hkey, -, hP⟩ := h
  refine ⟨e.value, ?_, hP⟩
  rw [MozkeyHistory.lookup, Reference.find, List.find?_append, List.find?_cons_of_pos (by simpa),
    List.find?_eq_none.mpr (by simpa using hfront)]
  rfl

theorem recent_insertEntry (new : NewEntry)
    (h : P (new.write (MozkeyHistory.lookup dic (new.fp m)))) :
    Recent 1 (insertEntry m dic new) (new.fp m) P :=
  ⟨[], _, _, rfl, by simp, rfl, Nat.one_pos, h⟩

/-- **A RECENT ENTRY** is still there after another insert, one place further down at most. -/
theorem Recent.insertEntry (h : Recent k dic fp P) (hk : k < kLruCacheSize) (new : NewEntry)
    (hwrite : new.fp m = fp → ∀ entry, P entry → P (new.write (some entry))) :
    Recent (k + 1) (insertEntry m dic new) fp P := by
  by_cases hfp : new.fp m = fp
  · obtain ⟨entry, hlookup, hP⟩ := h.lookup
    obtain ⟨front, e, back, hsplit, hfront, hkey, hlength, hvalue⟩ :=
      @recent_insertEntry m dic P new
        (by rw [hfp, hlookup]; exact hwrite hfp entry hP)
    exact ⟨front, e, back, hsplit, hfp ▸ hfront, hkey.trans hfp, by omega, hvalue⟩
  · obtain ⟨front, e, back, rfl, hfront, hkey, hlength, hP⟩ := h
    have hle : (Reference.remove front (new.fp m)).length ≤ front.length :=
      List.length_filter_le _ _
    obtain ⟨x, hx⟩ : ∃ x : LruElement UInt64 Entry, ⟨new.fp m,
        new.write (MozkeyHistory.lookup (front ++ e :: back) (new.fp m))⟩ = x := ⟨_, rfl⟩
    have hkey' : x.key ≠ fp := hx ▸ hfp
    rw [MozkeyHistory.insertEntry, Reference.kept, hx]
    split_ifs with hfound hfull
    · refine ⟨x :: Reference.remove front (new.fp m), e, Reference.remove back (new.fp m), ?_, ?_,
        hkey, Nat.succ_lt_succ (hle.trans_lt hlength), hP⟩
      · simp [Reference.remove, hkey, Ne.symm hfp]
      · rw [List.forall_mem_cons]
        exact ⟨hkey', fun y hy => hfront y (List.mem_of_mem_filter hy)⟩
    · -- the list is full, so the entry is not the last one
      have hback : back ≠ [] := by
        rintro rfl
        rw [List.length_append, List.length_singleton] at hfull
        omega
      refine ⟨x :: front, e, back.dropLast, ?_, List.forall_mem_cons.mpr ⟨hkey', hfront⟩, hkey,
        Nat.succ_lt_succ hlength, hP⟩
      rw [List.dropLast_append_of_ne_nil (List.cons_ne_nil _ _),
        List.dropLast_cons_of_ne_nil hback]
      rfl
    · exact ⟨x :: front, e, back, rfl, List.forall_mem_cons.mpr ⟨hkey', hfront⟩, hkey,
        Nat.succ_lt_succ hlength, hP⟩

theorem Recent.insertEntries (news : List NewEntry) : ∀ {k : Nat} {dic : Elements},
    Recent k dic fp P → k + news.length ≤ kLruCacheSize →
      (∀ new ∈ news, new.fp m = fp → ∀ entry, P entry → P (new.write (some entry))) →
      Recent (k + news.length) (news.foldl (MozkeyHistory.insertEntry m) dic) fp P := by
  induction news with
  | nil => exact fun h _ _ => h
  | cons new rest ih =>
    intro k dic h hk hwrite
    rw [List.length_cons] at hk ⊢
    rw [List.forall_mem_cons] at hwrite
    have hstep := h.insertEntry (m := m) (by omega) new hwrite.1
    have hrest := ih hstep (by omega) hwrite.2
    rwa [show k + 1 + rest.length = k + (rest.length + 1) by omega] at hrest

theorem Recent.linkEntry (h : Recent k dic fp P) (element next : UInt64)
    (hlink : ∀ entry, P entry → P (insertNextEntry next entry)) :
    Recent k (linkEntry element dic next) fp P := by
  obtain ⟨front, e, back, rfl, hfront, hkey, hlength, hP⟩ := h
  have hsame (x : LruElement UInt64 Entry) : (if x.key = element then
      { x with value := insertNextEntry next x.value } else x).key = x.key := by
    split_ifs <;> rfl
  refine ⟨_, _, _, List.map_append.trans (congrArg _ (List.map_cons ..)), ?_, (hsame e).trans hkey,
    ?_, ?_⟩
  · rw [List.forall_mem_map]
    exact fun x hx => (hsame x).symm ▸ hfront x hx
  · rwa [List.length_map]
  · split_ifs
    · exact hlink _ hP
    · exact hP

theorem Recent.linkEntries (targets : List UInt64) (element : UInt64)
    (hlink : ∀ next entry, P entry → P (insertNextEntry next entry)) : ∀ {dic : Elements},
    Recent k dic fp P → Recent k (targets.foldl (MozkeyHistory.linkEntry element) dic) fp P := by
  induction targets with
  | nil => exact fun h => h
  | cons next rest ih => exact fun h => ih (h.linkEntry element next (hlink next))

/-! ## What a commit learns -/

section

variable (m : Modules) (lastAccessTime : Nat) (segments : Segments) (dic : Elements)

/-- The segment that is linked to the preceding word, if the word is found. -/
def linkedSegment : Option Segment :=
  (linkedSegments segments).bind fun linked =>
    if (lookup (insertHistoryForConversionSegments m lastAccessTime segments dic)
      (learningSegmentFingerprint m linked.1)).isNone then none
    else some linked.2

/-- The words of the conversion. -/
def conversionWords : List NewEntry := acceptedInserts (conversionInserts m lastAccessTime segments)

/-- The word behind a space. -/
def spacedWords : List NewEntry :=
  (linkedSegment m lastAccessTime segments dic).elim [] fun conversion =>
    acceptedInserts (spacedWord lastAccessTime segments conversion).toList

/-- The joined suffixes of the preceding words. -/
def contextWords : List NewEntry :=
  (linkedSegment m lastAccessTime segments dic).elim [] fun conversion =>
    acceptedInserts (contextInserts m lastAccessTime segments.historySegments conversion)

end

variable {lastAccessTime : Nat} {segments : Segments}

/-- **A COMMIT** as rows of inserts, and links between them. -/
theorem insertHistory_eq : ∃ (targets : List UInt64) (element : UInt64),
    insertHistory m lastAccessTime segments dic =
      (contextWords m lastAccessTime segments dic).foldl (insertEntry m)
        (targets.foldl (linkEntry element)
          ((spacedWords m lastAccessTime segments dic).foldl (insertEntry m)
            ((conversionWords m lastAccessTime segments).foldl (insertEntry m) dic))) := by
  rw [insertHistory, insertHistoryForHistorySegments, contextWords, spacedWords, linkedSegment]
  cases linkedSegments segments with
  | none => exact ⟨[], 0, rfl⟩
  | some linked =>
    dsimp only [Option.bind_some]
    split_ifs with hfound
    · exact ⟨[], 0, rfl⟩
    · exact ⟨_, _, rfl⟩

/-- The first word, or what it contains. -/
def IsFirst (m : Modules) (segments : Segments) (fp : UInt64) : Prop :=
  ∃ first ∈ segments.conversionSegments.head?,
    fp = m.fingerprint (stripTrailingAsciiWhitespace first.key)
      (stripTrailingAsciiWhitespace first.value) ∨
    fp = m.fingerprint (stripTrailingAsciiWhitespace first.contentKey)
      (stripTrailingAsciiWhitespace first.contentValue)

/-- **SEGMENTS** are inserted with the time, and only the first one with the permission. -/
theorem segmentInserts_stamp {allowPartialMatch : Bool} (rest : List Segment) :
    ∀ {i : Nat} {seen : List (List UInt64)} {thisWasSeen : Bool},
      ∀ new ∈ segmentInserts m allowPartialMatch lastAccessTime i seen thisWasSeen rest,
        new.lastAccessTime = lastAccessTime ∧ (new.allowPartialMatch = true →
          i = 0 ∧ allowPartialMatch = true ∧ ∃ first ∈ rest.head?,
            (new.key = first.key ∧ new.value = first.value) ∨
            (new.key = first.contentKey ∧ new.value = first.contentValue)) := by
  induction rest with
  | nil => simp [segmentInserts]
  | cons segment rest ih =>
    intro i seen thisWasSeen new hnew
    rw [segmentInserts, List.mem_append, List.mem_cons] at hnew
    rcases hnew with hcontent | rfl | hrest
    · split_ifs at hcontent
      · obtain rfl := List.mem_singleton.mp hcontent
        refine ⟨rfl, fun hallow => ?_⟩
        have hfirst := of_decide_eq_true hallow
        exact ⟨hfirst.1, hfirst.2, segment, rfl, Or.inr ⟨rfl, rfl⟩⟩
      · exact absurd hcontent List.not_mem_nil
    · refine ⟨rfl, fun hallow => ?_⟩
      have hfirst := of_decide_eq_true hallow
      exact ⟨hfirst.1, hfirst.2.1, segment, rfl, Or.inl ⟨rfl, rfl⟩⟩
    · obtain ⟨htime, hallow⟩ := ih new hrest
      exact ⟨htime, fun h => absurd (hallow h).1 (Nat.succ_ne_zero i)⟩

theorem mem_acceptedInserts {news : List NewEntry} {new : NewEntry}
    (h : new ∈ acceptedInserts news) : ∃ raw ∈ news, raw.stripped = new :=
  List.mem_map.mp (List.mem_of_mem_filter h)

/-- **THE CONVERSION**. -/
theorem conversionWords_stamp {new : NewEntry}
    (h : new ∈ conversionWords m lastAccessTime segments) :
    new.lastAccessTime = lastAccessTime ∧ (new.allowPartialMatch = true →
      segments.allowPartialMatch = true ∧ IsFirst m segments (new.fp m)) := by
  obtain ⟨raw, hraw, rfl⟩ := mem_acceptedInserts h
  rw [conversionInserts, List.mem_append] at hraw
  rcases hraw with hwhole | hsegment
  · split_ifs at hwhole
    · obtain rfl := List.mem_singleton.mp hwhole
      exact ⟨rfl, fun hallow => nomatch hallow⟩
    · exact absurd hwhole List.not_mem_nil
  · obtain ⟨htime, hallow⟩ := segmentInserts_stamp _ raw hsegment
    refine ⟨htime, fun h => ?_⟩
    obtain ⟨-, hallowed, first, hfirst, hword⟩ := hallow h
    refine ⟨hallowed, first, hfirst, hword.imp ?_ ?_⟩
    · rintro ⟨hkey, hvalue⟩
      rw [NewEntry.fp, NewEntry.stripped, hkey, hvalue]
    · rintro ⟨hkey, hvalue⟩
      rw [NewEntry.fp, NewEntry.stripped, hkey, hvalue]

/-- **THE WORD BEHIND A SPACE** has the flag as its time, and the time as its flag. -/
theorem spacedWords_stamp {new : NewEntry}
    (h : new ∈ spacedWords m lastAccessTime segments dic) :
    new.lastAccessTime = 0 ∧ (new.allowPartialMatch = true ↔ lastAccessTime ≠ 0) ∧
      spacedWords m lastAccessTime segments dic = [new] := by
  rw [spacedWords] at h ⊢
  cases hlinked : linkedSegment m lastAccessTime segments dic with
  | none => exact absurd (hlinked ▸ h) List.not_mem_nil
  | some conversion =>
    rw [hlinked, Option.elim_some, spacedWord] at h
    rw [Option.elim_some, spacedWord]
    split_ifs at h ⊢
    · obtain ⟨raw, hraw, rfl⟩ := mem_acceptedInserts h
      obtain rfl := List.mem_singleton.mp hraw
      refine ⟨rfl, decide_eq_true_iff, ?_⟩
      rw [acceptedInserts] at h ⊢
      simp only [Option.toList_some, List.map_cons, List.map_nil] at h ⊢
      exact List.filter_eq_self.mpr (List.forall_mem_singleton.mpr (List.of_mem_filter h))
    · exact absurd h List.not_mem_nil

/-- **THE CONTEXTS**: there are two at most. -/
theorem contextWords_stamp : (contextWords m lastAccessTime segments dic).length ≤ 2 ∧
    ∀ new ∈ contextWords m lastAccessTime segments dic,
      new.lastAccessTime = lastAccessTime ∧ new.allowPartialMatch = false := by
  rw [contextWords]
  cases linkedSegment m lastAccessTime segments dic with
  | none => exact ⟨Nat.zero_le 2, fun _ h => absurd h List.not_mem_nil⟩
  | some conversion =>
    rw [Option.elim_some]
    constructor
    · refine (List.length_filter_le _ _).trans ?_
      rw [List.length_map, contextInserts, List.length_map]
      exact List.length_filter_le _ _
    · intro new h
      obtain ⟨raw, hraw, rfl⟩ := mem_acceptedInserts h
      rw [contextInserts, List.mem_map] at hraw
      obtain ⟨size, -, rfl⟩ := hraw
      exact ⟨rfl, rfl⟩

/-- The words that a commit learns. -/
def learnedWords (m : Modules) (lastAccessTime : Nat) (segments : Segments) (dic : Elements) :
    List NewEntry :=
  conversionWords m lastAccessTime segments ++ (spacedWords m lastAccessTime segments dic ++
    contextWords m lastAccessTime segments dic)

/-- The length is subtracted from the time in `GetScore`, without a sign. -/
def Entry.scoreWraps (entry : Entry) : Prop := entry.lastAccessTime < charsLen entry.value

/-- Every entry that a commit inserts carries its time; one that it makes can be matched partially
    only if that is allowed, and it is of the first word; and `GetScore` does not wrap. -/
def LearnsStamps (m : Modules) (lastAccessTime : Nat) (segments : Segments) (dic : Elements) :
    Prop :=
  ∀ new ∈ learnedWords m lastAccessTime segments dic, ∀ entry,
    lookup (insertHistory m lastAccessTime segments dic) (new.fp m) = some entry →
      entry.lastAccessTime = lastAccessTime ∧
      (lookup dic (new.fp m) = none → entry.allowPartialMatch = true →
        segments.allowPartialMatch = true ∧ IsFirst m segments (new.fp m)) ∧
      (charsLen entry.value < lastAccessTime → ¬ entry.scoreWraps)

/-- A word that is inserted behind a space is hidden: its time is set again by a context with the
    same fingerprint, and its permission is not new, or is the one it should have. -/
def Hidden (m : Modules) (lastAccessTime : Nat) (segments : Segments) (dic : Elements)
    (new : NewEntry) : Prop :=
  (∃ context ∈ contextWords m lastAccessTime segments dic, context.fp m = new.fp m) ∧
    (lookup dic (new.fp m) = none →
      segments.allowPartialMatch = true ∧ IsFirst m segments (new.fp m))

/-- The time and the permission of what has been learned, if the word behind a space is hidden. -/
theorem stamp_of_hidden (hlate : lastAccessTime ≠ 0 →
      ∀ new ∈ spacedWords m lastAccessTime segments dic,
        Hidden m lastAccessTime segments dic new)
    {new : NewEntry} (hnew : new ∈ learnedWords m lastAccessTime segments dic)
    (hstamp : stampAt (insertHistory m lastAccessTime segments dic) (new.fp m) = some stamp) :
    stamp.lastAccessTime = lastAccessTime ∧
      (lookup dic (new.fp m) = none → stamp.allowPartialMatch = true →
        segments.allowPartialMatch = true ∧ IsFirst m segments (new.fp m)) := by
  obtain ⟨targets, element, heq⟩ := @insertHistory_eq m dic lastAccessTime segments
  rw [heq] at hstamp
  obtain ⟨hkept, htime, hallow⟩ := stampAt_inserts _ hstamp
  rw [stampAt_linkEntries] at hkept hallow
  obtain ⟨-, hcontexts⟩ := @contextWords_stamp m dic lastAccessTime segments
  constructor
  · by_cases hcontext : ∃ context ∈ contextWords m lastAccessTime segments dic,
        context.fp m = new.fp m
    · exact htime lastAccessTime hcontext fun context hmem _ => (hcontexts context hmem).1
    · have hnone : ∀ context ∈ contextWords m lastAccessTime segments dic,
          context.fp m ≠ new.fp m := by simpa using hcontext
      obtain ⟨hkept₂, htime₂, -⟩ := stampAt_inserts _ (hkept hnone)
      by_cases hspaced : ∃ word ∈ spacedWords m lastAccessTime segments dic,
          word.fp m = new.fp m
      · -- it is not hidden, so the time is 0
        obtain ⟨word, hword, hfp⟩ := hspaced
        have hzero : lastAccessTime = 0 := by
          by_contra hne
          obtain ⟨⟨context, hmem, hcontextFp⟩, -⟩ := hlate hne word hword
          exact hnone context hmem (hcontextFp.trans hfp)
        refine htime₂ lastAccessTime ⟨word, hword, hfp⟩ fun word' hword' _ => ?_
        exact (spacedWords_stamp hword').1.trans hzero.symm
      · have hnone₂ : ∀ word ∈ spacedWords m lastAccessTime segments dic,
            word.fp m ≠ new.fp m := by simpa using hspaced
        obtain ⟨-, htime₃, -⟩ := stampAt_inserts _ (hkept₂ hnone₂)
        have hconversion : new ∈ conversionWords m lastAccessTime segments := by
          rw [learnedWords, List.mem_append, List.mem_append] at hnew
          rcases hnew with h | h | h
          · exact h
          · exact absurd rfl (hnone₂ new h)
          · exact absurd rfl (hnone new h)
        exact htime₃ lastAccessTime ⟨new, hconversion, rfl⟩ fun word hword _ =>
          (conversionWords_stamp hword).1
  · intro hbefore hallowed
    rcases hallow hallowed with ⟨context, hmem, -, hcontext⟩ | hallow₂
    · rw [(hcontexts context hmem).2] at hcontext
      exact nomatch hcontext
    cases hstamp₂ : stampAt ((spacedWords m lastAccessTime segments dic).foldl (insertEntry m)
        ((conversionWords m lastAccessTime segments).foldl (insertEntry m) dic)) (new.fp m) with
    | none =>
      rw [hstamp₂] at hallow₂
      exact nomatch hallow₂
    | some stamp₂ =>
      rw [hstamp₂, Option.any_some] at hallow₂
      rcases (stampAt_inserts _ hstamp₂).2.2 hallow₂ with ⟨word, hword, hfp, hpermitted⟩ | hallow₃
      · have hidden := hlate ((spacedWords_stamp hword).2.1.mp hpermitted) word hword
        rw [← hfp] at hbefore ⊢
        exact hidden.2 hbefore
      cases hstamp₃ : stampAt ((conversionWords m lastAccessTime segments).foldl (insertEntry m)
          dic) (new.fp m) with
      | none =>
        rw [hstamp₃] at hallow₃
        exact nomatch hallow₃
      | some stamp₃ =>
        rw [hstamp₃, Option.any_some] at hallow₃
        rcases (stampAt_inserts _ hstamp₃).2.2 hallow₃ with ⟨word, hword, hfp, hpermitted⟩ | hfirst
        · rw [← hfp]
          exact (conversionWords_stamp hword).2 hpermitted
        · rw [stampAt, hbefore] at hfirst
          exact nomatch hfirst

/-- The word behind a space is still there in the end, with its flag, and with its time if no
    context sets it again. -/
theorem spacedWord_stays {new : NewEntry} (hnew : new ∈ spacedWords m lastAccessTime segments dic)
    (hlate : lastAccessTime ≠ 0) :
    ∃ entry, lookup (insertHistory m lastAccessTime segments dic) (new.fp m) = some entry ∧
      entry.allowPartialMatch = true ∧
      ((∀ context ∈ contextWords m lastAccessTime segments dic, context.fp m ≠ new.fp m) →
        entry.lastAccessTime = 0) := by
  obtain ⟨targets, element, heq⟩ := @insertHistory_eq m dic lastAccessTime segments
  obtain ⟨htime, hallow, hsingle⟩ := spacedWords_stamp hnew
  obtain ⟨hlength, -⟩ := @contextWords_stamp m dic lastAccessTime segments
  have hrecent : Recent 1 (insertEntry m ((conversionWords m lastAccessTime segments).foldl
      (insertEntry m) dic) new) (new.fp m) fun entry => entry.allowPartialMatch = true ∧
        ((∀ context ∈ contextWords m lastAccessTime segments dic, context.fp m ≠ new.fp m) →
          entry.lastAccessTime = 0) := by
    refine recent_insertEntry new ⟨?_, fun _ => ?_⟩
    · rw [allowPartialMatch_write, hallow.mpr hlate, Bool.or_true]
    · rw [lastAccessTime_write, htime]
  have hlinked := hrecent.linkEntries targets element fun next entry hentry => by
    have hstamp := stamp_insertNextEntry next entry
    rw [Entry.stamp, Entry.stamp, Stamp.mk.injEq] at hstamp
    rwa [hstamp.1, hstamp.2]
  have hstays := hlinked.insertEntries (m := m) (contextWords m lastAccessTime segments dic)
    (by rw [kLruCacheSize]; omega) fun context hcontext hfp entry hentry => by
      refine ⟨?_, fun hnone => absurd hfp (hnone context hcontext)⟩
      rw [allowPartialMatch_write, Option.getD_some, hentry.1, Bool.true_or]
  obtain ⟨entry, hlookup, hentry⟩ := hstays.lookup
  refine ⟨entry, ?_, hentry⟩
  rw [heq, hsingle]
  exact hlookup

/-- **WHAT IS LEARNED** carries the time and the permission of the commit if the word behind a
    space is hidden, or there is none, or the time is 0. -/
theorem learnsStamps_iff (m : Modules) (lastAccessTime : Nat) (segments : Segments)
    (dic : Elements) :
    LearnsStamps m lastAccessTime segments dic ↔
      lastAccessTime = 0 ∨ ∀ new ∈ spacedWords m lastAccessTime segments dic,
        Hidden m lastAccessTime segments dic new := by
  constructor
  · intro h
    by_cases hlate : lastAccessTime = 0
    · exact Or.inl hlate
    refine Or.inr fun new hnew => ?_
    obtain ⟨entry, hlookup, hallow, htime⟩ := spacedWord_stays hnew hlate
    obtain ⟨hright, hpermitted, -⟩ :=
      h new (List.mem_append_right _ (List.mem_append_left _ hnew)) entry hlookup
    refine ⟨?_, fun hbefore => hpermitted hbefore hallow⟩
    by_contra hnone
    exact hlate (hright.symm.trans (htime (by simpa using hnone)))
  · intro h new hnew entry hlookup
    have hstamp : stampAt (insertHistory m lastAccessTime segments dic) (new.fp m) =
        some entry.stamp := by rw [stampAt, hlookup]; rfl
    obtain ⟨htime, hallow⟩ := stamp_of_hidden (fun hlate => h.resolve_left hlate) hnew hstamp
    refine ⟨htime, hallow, fun hlt => ?_⟩
    have htime' : entry.lastAccessTime = lastAccessTime := htime
    rw [Entry.scoreWraps, htime']
    exact hlt.asymm

/-- A word that is in the storage. -/
def ramen : Entry where
  key := ascii "ramen"
  value := ascii "Ramen"
  suggestionFreq := 1
  lastAccessTime := 1

/-- Shibuya, behind a space, after Ramen. -/
def shibuya : Segments where
  conversionSegmentsKey := ascii "shibuya"
  conversionSegmentsValue := ascii "Shibuya"
  innerSegmentBoundary := []
  historySegments := [⟨0, 0, ascii "ramen", ascii "Ramen", ascii "ramen", ascii "Ramen", []⟩]
  conversionSegments :=
    [⟨0, 0, ascii "shibuya", ascii "Shibuya", ascii "shibuya", ascii "Shibuya", []⟩]
  hasSpacePrefix := true
  allowPartialMatch := false

/-- The word behind the space is learned at the time 0, with a permission. -/
theorem shibuya_stamp :
    ((spacedWords plainModules 100 shibuya [⟨plainModules.entryFingerprint ramen, ramen⟩]).map
      fun new => stampAt (insertHistory plainModules 100 shibuya
        [⟨plainModules.entryFingerprint ramen, ramen⟩]) (new.fp plainModules)) =
          [some ⟨0, true⟩] ∧
    ¬ LearnsStamps plainModules 100 shibuya [⟨plainModules.entryFingerprint ramen, ramen⟩] := by
  have hstamps : ((spacedWords plainModules 100 shibuya
      [⟨plainModules.entryFingerprint ramen, ramen⟩]).map fun new =>
        stampAt (insertHistory plainModules 100 shibuya
          [⟨plainModules.entryFingerprint ramen, ramen⟩]) (new.fp plainModules)) =
            [some ⟨0, true⟩] := by decide +kernel
  refine ⟨hstamps, fun h => ?_⟩
  obtain ⟨new, hnew⟩ : ∃ new, spacedWords plainModules 100 shibuya
      [⟨plainModules.entryFingerprint ramen, ramen⟩] = [new] := by
    rw [← List.length_eq_one_iff, ← List.length_map, hstamps]
    rfl
  rw [hnew, List.map_singleton, List.singleton_inj, stampAt, Option.map_eq_some_iff] at hstamps
  obtain ⟨entry, hlookup, hstamp⟩ := hstamps
  have htime := (h new (by rw [learnedWords, hnew]; simp) entry hlookup).1
  rw [Entry.stamp, Stamp.mk.injEq] at hstamp
  rw [hstamp.1] at htime
  exact absurd htime (by decide)

end MozkeyHistory
