import Mozkey.UserHistoryLearningProofs

/-! # UserHistoryPredictor — what a reverted commit leaves behind

    What a commit saves is an undo log.  It is written back in the order in which it was saved,
    so an entry that was saved twice gets what it was after the first change. -/

namespace MozkeyHistory

open ByteString UndoLog MozkeyInnerSegment

variable {m : Modules}

/-! ## The steps of a commit -/

theorem exists_links (fps : List UInt64) : ∀ entry : Entry, ∃ nexts,
    fps.foldl (fun entry fp => insertNextEntry fp entry) entry =
      { entry with nextEntryFps := nexts } := by
  induction fps with
  | nil => exact fun entry => ⟨entry.nextEntryFps, rfl⟩
  | cons fp rest ih =>
    intro entry
    obtain ⟨nexts, h⟩ := ih (insertNextEntry fp entry)
    refine ⟨nexts, h.trans ?_⟩
    rw [insertNextEntry]
    split_ifs <;> rfl

section

variable (new : NewEntry) (entry : Option Entry)

@[simp] theorem key_write : (new.write entry).key = new.key := by
  obtain ⟨nexts, h⟩ := exists_links new.nextFps _
  exact congrArg Entry.key h

@[simp] theorem value_write : (new.write entry).value = new.value := by
  obtain ⟨nexts, h⟩ := exists_links new.nextFps _
  exact congrArg Entry.value h

@[simp] theorem suggestionFreq_write :
    (new.write entry).suggestionFreq = (entry.getD {}).suggestionFreq + 1 := by
  obtain ⟨nexts, h⟩ := exists_links new.nextFps _
  exact congrArg Entry.suggestionFreq h

@[simp] theorem removed_write : (new.write entry).removed = false := by
  obtain ⟨nexts, h⟩ := exists_links new.nextFps _
  exact congrArg Entry.removed h

@[simp] theorem shownFreq_write :
    (new.write entry).shownFreq = (entry.getD {}).shownFreq := by
  obtain ⟨nexts, h⟩ := exists_links new.nextFps _
  exact (congrArg Entry.shownFreq h).trans rfl

end

/-- A step that leaves an entry its word, and there. -/
structure Proper (m : Modules) (step : HistoryStep) : Prop where
  keyed : step.Keyed m.entryFingerprint
  keeps : ∀ entry : Option Entry, entry.isSome = true → (step.update entry).isSome = true

theorem proper_insertStep (new : NewEntry) : Proper m (insertStep m new) where
  keyed :=
    { save := by
        intro entry saved hentry hsaved
        obtain rfl := Option.some.inj hsaved
        cases entry with
        | none => rfl
        | some old => exact hentry old rfl
      update := by
        intro entry written _ hwritten
        obtain rfl := Option.some.inj hwritten
        simp [Modules.entryFingerprint, insertStep] }
  keeps _ _ := rfl

theorem proper_linkStep (fp next : UInt64) : Proper m (linkStep fp next) where
  keyed :=
    { save := fun _ hsaved => nomatch hsaved
      update := by
        intro entry written hentry hwritten
        obtain ⟨old, hold, rfl⟩ := Option.map_eq_some_iff.mp hwritten
        obtain ⟨nexts, h⟩ := exists_links [next] old
        rw [List.foldl_cons, List.foldl_nil] at h
        rw [h]
        exact hentry old hold }
  keeps _ hentry := Option.isSome_map.trans hentry

theorem proper_showStep (result : Result) : Proper m (showStep m result) where
  keyed :=
    { save := fun hentry hsaved => hentry _ (Option.filter_eq_some_iff.mp hsaved).1
      update := by
        intro entry written hentry hwritten
        obtain ⟨old, hold, rfl⟩ := Option.map_eq_some_iff.mp hwritten
        split_ifs <;> exact hentry old hold }
  keeps _ hentry := Option.isSome_map.trans hentry

theorem proper_insertSteps (news : List NewEntry) : ∀ step ∈ insertSteps m news, Proper m step := by
  intro step hmem
  obtain ⟨new, -, rfl⟩ := List.mem_map.mp hmem
  exact proper_insertStep new

theorem proper_showSteps (results : List Result) : ∀ step ∈ showSteps m results, Proper m step := by
  intro step hmem
  obtain ⟨result, -, rfl⟩ := List.mem_map.mp hmem
  exact proper_showStep result

theorem proper_historySteps (lastAccessTime : Nat) (segments : Segments) (fp : UInt64)
    (conversion : Segment) :
    ∀ step ∈ historySteps m lastAccessTime segments fp conversion, Proper m step := by
  intro step hmem
  rcases List.mem_append.mp hmem with h | h
  · exact proper_insertSteps _ step h
  · rcases List.mem_append.mp h with h | h
    · obtain ⟨next, -, rfl⟩ := List.mem_map.mp h
      exact proper_linkStep fp next
    · exact proper_insertSteps _ step h

theorem proper_commitSteps (request : Request) (result : Result) (rest : List Result)
    (storage : Storage) : ∀ step ∈ commitSteps m request result rest storage, Proper m step := by
  intro step hmem
  rcases List.mem_append.mp hmem with h | h
  · rcases List.mem_append.mp h with h | h
    · exact proper_insertSteps _ step h
    · cases hlinked : linkedEntry m request result storage with
      | none => simp [hlinked] at h
      | some linked =>
        rw [hlinked] at h
        exact proper_historySteps _ _ _ _ step h
  · exact proper_showSteps _ step h

theorem isSome_cell {steps : List HistoryStep} (hsteps : ∀ step ∈ steps, Proper m step) :
    ∀ {entry : Option Entry}, entry.isSome = true → (cell steps entry).isSome = true := by
  induction steps with
  | nil => exact id
  | cons step rest ih =>
    rw [List.forall_mem_cons] at hsteps
    exact fun h => ih hsteps.2 (hsteps.1.keeps _ h)

theorem finish_eq {storage storage' : Storage} {request : Request} {result : Result}
    {rest : List Result} {reverts : RevertEntries}
    (hfinish : finish m request (result :: rest) storage = (storage', some reverts)) :
    storage' = run (commitSteps m request result rest storage) storage ∧
    reverts = ⟨result, (linkedEntry m request result storage).bind fun linked =>
      run (conversionSteps m request result) storage linked.1,
        log (commitSteps m request result rest storage) storage⟩ := by
  rw [finish] at hfinish
  have hlearns : learns request result = true := by
    by_contra hnot
    rw [if_pos hnot] at hfinish
    simp at hfinish
  rw [if_neg (not_not.mpr hlearns)] at hfinish
  obtain ⟨hstorage, hreverts⟩ := Prod.mk.inj hfinish
  split_ifs at hreverts
  exact ⟨hstorage.symm, (Option.some.inj hreverts).symm⟩

theorem revertEntries_eq (entries : List ((Nat × Nat) × Entry)) :
    ∀ r : Storage × List ((Nat × Nat) × Entry),
      (entries.foldl (revertEntry m) r).1 = restore m.entryFingerprint entries r.1 := by
  induction entries with
  | nil => exact fun _ => rfl
  | cons saved rest ih =>
    intro r
    rw [List.foldl_cons, ih]
    refine congrArg (restore m.entryFingerprint rest) ?_
    change (revertEntry m r saved).1 = writeBack m.entryFingerprint r.1 saved.2
    rw [revertEntry, writeBack]
    cases r.1 (m.entryFingerprint saved.2) <;> simp

/-- `Revert` writes back what was saved, and the entry before the commit last. -/
theorem revert_eq (reverts : RevertEntries) (storage : Storage) :
    (revert m reverts storage).1 =
      reverts.historyEntry.elim (restore m.entryFingerprint reverts.entries storage)
        (writeBack m.entryFingerprint (restore m.entryFingerprint reverts.entries storage)) := by
  rw [revert, ← revertEntries_eq reverts.entries (storage, [])]
  cases reverts.historyEntry with
  | none => rfl
  | some history =>
    rw [Option.elim_some, writeBack]
    cases hentry : (reverts.entries.foldl (revertEntry m) (storage, [])).1
      (m.entryFingerprint history) <;> simp [hentry]

/-! ## One entry -/

/-- What inserts make of an entry. -/
def inserted (news : List NewEntry) (entry : Option Entry) : Option Entry :=
  news.foldl (fun entry new => some (new.write entry)) entry

/-- The accepted inserts of the entry at a fingerprint. -/
def insertsAt (m : Modules) (fp : UInt64) (news : List NewEntry) : List NewEntry :=
  (acceptedInserts news).filter fun new => m.fingerprint new.key new.value = fp

theorem stepsAt_inserts (fp : UInt64) (news : List NewEntry) :
    stepsAt fp (insertSteps m news) = (insertsAt m fp news).map (insertStep m) :=
  List.filter_map ..

theorem cell_inserts (news : List NewEntry) : ∀ entry : Option Entry,
    cell (news.map (insertStep m)) entry = inserted news entry := by
  induction news with
  | nil => exact fun _ => rfl
  | cons new rest ih => exact fun entry => ih (some (new.write entry))

theorem inserted_some (news : List NewEntry) : ∀ entry : Entry,
    inserted news (some entry) =
      some (news.foldl (fun entry new => new.write (some entry)) entry) := by
  induction news with
  | nil => exact fun _ => rfl
  | cons new rest ih => exact fun entry => ih (new.write (some entry))

theorem inserted_concat (news : List NewEntry) (new : NewEntry) (entry : Option Entry) :
    inserted (news ++ [new]) entry = some (new.write (inserted news entry)) :=
  List.foldl_append

theorem isSome_inserted (news : List NewEntry) (entry : Option Entry) :
    (inserted news entry).isSome = true ↔ entry.isSome = true ∨ news ≠ [] := by
  rcases news.eq_nil_or_concat' with rfl | ⟨news, new, rfl⟩
  · simp [inserted]
  · simp [inserted_concat]

theorem suggestionFreq_inserted (news : List NewEntry) (entry : Option Entry) :
    ((inserted news entry).getD {}).suggestionFreq =
      (entry.getD {}).suggestionFreq + news.length := by
  induction news using List.reverseRecOn with
  | nil => rfl
  | append_singleton news new ih =>
    rw [inserted_concat, Option.getD_some, suggestionFreq_write, ih, List.length_append]
    rfl

theorem shownFreq_inserted (news : List NewEntry) (entry : Option Entry) :
    ((inserted news entry).getD {}).shownFreq = (entry.getD {}).shownFreq := by
  induction news using List.reverseRecOn with
  | nil => rfl
  | append_singleton news new ih => rw [inserted_concat, Option.getD_some, shownFreq_write, ih]

theorem cellLog_inserts_concat (news : List NewEntry) (new : NewEntry) (entry : Option Entry) :
    cellLog ((news ++ [new]).map (insertStep m)) entry =
      cellLog (news.map (insertStep m)) entry ++ [new.save (inserted news entry)] := by
  rw [List.map_append, cellLog_append, cell_inserts]
  rfl

/-! ## Which entries come back -/

/-- The content of an entry, apart from how often it was shown. -/
structure SameContent (entry entry' : Entry) : Prop where
  suggestionFreq : entry'.suggestionFreq = entry.suggestionFreq
  lastAccessTime : entry'.lastAccessTime = entry.lastAccessTime
  removed : entry'.removed = entry.removed
  nextEntryFps : entry'.nextEntryFps = entry.nextEntryFps
  description : entry'.description = entry.description
  innerSegmentBoundary : entry'.innerSegmentBoundary = entry.innerSegmentBoundary
  allowPartialMatch : entry'.allowPartialMatch = entry.allowPartialMatch

/-- A removed entry that nothing leads out of. -/
structure Forgotten (entry : Entry) : Prop where
  removed : entry.removed = true
  suggestionFreq : entry.suggestionFreq = 0
  shownFreq : entry.shownFreq = 0
  nextEntryFps : entry.nextEntryFps = []

/-- An entry has its content back; one that was not there is forgotten. -/
def ComesBack : Option Entry → Option Entry → Prop
  | some entry, after => ∃ entry', after = some entry' ∧ SameContent entry entry'
  | none, after => ∀ entry', after = some entry' → Forgotten entry'

/-- The history is as it was before the commit. -/
def Reverted (before after : Storage) : Prop := ∀ fp, ComesBack (before fp) (after fp)

theorem SameContent.refl (entry : Entry) : SameContent entry entry :=
  ⟨rfl, rfl, rfl, rfl, rfl, rfl, rfl⟩

theorem SameContent.trans {entry entry' entry'' : Entry} (h : SameContent entry entry')
    (h' : SameContent entry' entry'') : SameContent entry entry'' :=
  ⟨h'.suggestionFreq.trans h.suggestionFreq, h'.lastAccessTime.trans h.lastAccessTime,
    h'.removed.trans h.removed, h'.nextEntryFps.trans h.nextEntryFps,
    h'.description.trans h.description,
    h'.innerSegmentBoundary.trans h.innerSegmentBoundary,
    h'.allowPartialMatch.trans h.allowPartialMatch⟩

theorem SameContent.symm {entry entry' : Entry} (h : SameContent entry entry') :
    SameContent entry' entry :=
  ⟨h.suggestionFreq.symm, h.lastAccessTime.symm, h.removed.symm, h.nextEntryFps.symm,
    h.description.symm, h.innerSegmentBoundary.symm, h.allowPartialMatch.symm⟩

theorem comesBack_some {entry after : Entry} :
    ComesBack (some entry) (some after) ↔ SameContent entry after := by
  constructor
  · rintro ⟨entry', h, hsame⟩
    exact Option.some.inj h ▸ hsame
  · exact fun h => ⟨after, rfl, h⟩

theorem comesBack_none {after : Entry} : ComesBack none (some after) ↔ Forgotten after := by
  constructor
  · exact fun h => h after rfl
  · intro h entry' hentry
    exact Option.some.inj hentry ▸ h

theorem comesBack_inserts (news : List NewEntry) (entry : Option Entry) :
    ComesBack entry (inserted news entry) ↔ news = [] := by
  constructor
  · intro h
    by_contra hne
    obtain ⟨init, last, rfl⟩ := List.eq_nil_or_concat news |>.resolve_left hne
    rw [List.concat_eq_append, inserted_concat] at h
    cases entry with
    | none =>
      have hremoved := (comesBack_none.mp h).removed
      rw [removed_write] at hremoved
      exact Bool.false_ne_true hremoved
    | some entry =>
      have hfreq := (comesBack_some.mp h).suggestionFreq
      rw [suggestionFreq_write, suggestionFreq_inserted, Option.getD_some] at hfreq
      omega
  · rintro rfl
    cases entry with
    | none => exact fun entry' hentry => absurd hentry (by simp [inserted])
    | some entry => exact comesBack_some.mpr (SameContent.refl entry)

/-- What is saved before an insert comes back if it is the first one. -/
theorem comesBack_save (news : List NewEntry) (new : NewEntry) (entry : Option Entry) :
    ComesBack entry (some (new.save (inserted news entry))) ↔ news = [] := by
  cases hentry : inserted news entry with
  | some saved =>
    rw [← comesBack_inserts news entry, hentry]
    rfl
  | none =>
    have hsome := isSome_inserted news entry
    rw [hentry] at hsome
    obtain rfl : news = [] := by
      by_contra hne
      exact absurd (hsome.mpr (Or.inr hne)) (by simp)
    obtain rfl : entry = none := hentry
    exact iff_of_true (comesBack_none.mpr ⟨rfl, rfl, rfl, rfl⟩) rfl

/-- How often an entry is dropped while it is shown, by its frequencies. -/
def drops (m : Modules) (suggestionFreq shownFreq : Nat) : Nat → Nat
  | 0 => 0
  | times + 1 =>
    if m.belowMinSelectedRatio suggestionFreq (shownFreq + 1) then drops m 0 0 times + 1
    else drops m suggestionFreq (shownFreq + 1) times

/-- How often an entry is dropped, after so many inserts of it. -/
def dropsAfter (m : Modules) (inserts times : Nat) (entry : Option Entry) : Nat :=
  entry.elim 0 fun entry => drops m (entry.suggestionFreq + inserts) entry.shownFreq times

/-- An entry is saved once at most, or it is what inserts and drops make of it. -/
def SavedOnce (m : Modules) (news : List NewEntry) (times : Nat) (entry : Option Entry) : Prop :=
  news.length + dropsAfter m news.length times entry ≤ 1 ∨
    2 ≤ dropsAfter m news.length times entry ∧ ∃ old, entry = some old ∧
      SameContent old (dropped (news.foldl (fun entry new => new.write (some entry)) old))

/-- Steps that only show results. -/
def Shows (m : Modules) (steps : List HistoryStep) : Prop :=
  ∀ step ∈ steps, ∃ result, step = showStep m result

/-- What is saved while an entry is shown: the entry, and then what is left of it. -/
theorem cellLog_shows {steps : List HistoryStep} (hsteps : Shows m steps) : ∀ entry : Entry,
    (cellLog steps (some entry)).length =
      drops m entry.suggestionFreq entry.shownFreq steps.length ∧
    ((cellLog steps (some entry) = [] ∧
        ∃ entry', cell steps (some entry) = some entry' ∧ SameContent entry entry') ∨
      ∃ first others, cellLog steps (some entry) = first :: others ∧ SameContent entry first ∧
        ∀ other ∈ others, SameContent (dropped entry) other) := by
  induction steps with
  | nil => exact fun entry => ⟨rfl, Or.inl ⟨rfl, entry, rfl, SameContent.refl entry⟩⟩
  | cons step rest ih =>
    intro entry
    rw [Shows, List.forall_mem_cons] at hsteps
    obtain ⟨⟨result, rfl⟩, hrest⟩ := hsteps
    have hratio : unselected m entry =
        m.belowMinSelectedRatio entry.suggestionFreq (entry.shownFreq + 1) := rfl
    rw [cellLog, List.length_cons, drops, ← hratio, cell, List.foldl_cons, ← cell]
    cases hunselected : unselected m entry
    · have hshown := ih hrest (shown entry)
      have hsame : SameContent entry (shown entry) := ⟨rfl, rfl, rfl, rfl, rfl, rfl, rfl⟩
      simp only [showStep, Option.filter_some, Option.map_some, hunselected, Bool.false_eq_true,
        if_false, Option.toList_none, List.nil_append]
      refine ⟨hshown.1, ?_⟩
      rcases hshown.2 with ⟨hnil, entry', hcell, hentry'⟩ |
        ⟨first, others, hcons, hfirst, hothers⟩
      · exact Or.inl ⟨hnil, entry', hcell, hsame.trans hentry'⟩
      · exact Or.inr ⟨first, others, hcons, hsame.trans hfirst, hothers⟩
    · have hdropped := ih hrest (dropped (shown entry))
      simp only [showStep, Option.filter_some, Option.map_some, hunselected, if_true,
        Option.toList_some, List.singleton_append, List.length_cons]
      refine ⟨congrArg (· + 1) hdropped.1, Or.inr ⟨entry, _, rfl, SameContent.refl entry, ?_⟩⟩
      rcases hdropped.2 with ⟨hnil, _⟩ | ⟨first, others, hcons, hfirst, hothers⟩
      · simp [hnil]
      · rw [hcons, List.forall_mem_cons]
        exact ⟨hfirst, hothers⟩

section

variable {steps : List HistoryStep} (hsteps : Shows m steps)

include hsteps

theorem getLast_cellLog_shows (entry : Entry) {times : Nat}
    (htimes : drops m entry.suggestionFreq entry.shownFreq steps.length = times) :
    (times = 0 → cellLog steps (some entry) = [] ∧
      ∃ entry', cell steps (some entry) = some entry' ∧ SameContent entry entry') ∧
    (times = 1 → ∃ saved, (cellLog steps (some entry)).getLast? = some saved ∧
      SameContent entry saved) ∧
    (2 ≤ times → ∃ saved, (cellLog steps (some entry)).getLast? = some saved ∧
      SameContent (dropped entry) saved) := by
  obtain ⟨hlength, hlog⟩ := cellLog_shows hsteps entry
  rw [htimes] at hlength
  subst hlength
  rcases hlog with ⟨hnil, hcell⟩ | ⟨first, others, hcons, hfirst, hothers⟩
  · rw [hnil]
    exact ⟨fun _ => ⟨rfl, hcell⟩, fun h => absurd h (by simp), fun h => absurd h (by simp)⟩
  · rw [hcons]
    refine ⟨fun h => absurd h (by simp), fun h => ?_, fun h => ?_⟩
    · obtain rfl : others = [] := by simpa using h
      exact ⟨first, rfl, hfirst⟩
    · have hne : others ≠ [] := by
        rintro rfl
        simp at h
      refine ⟨others.getLast hne, ?_, hothers _ (List.getLast_mem hne)⟩
      rw [List.getLast?_eq_some_getLast (List.cons_ne_nil _ _), List.getLast_cons hne]

theorem shows_none : cellLog steps none = [] ∧ cell steps none = none := by
  induction steps with
  | nil => exact ⟨rfl, rfl⟩
  | cons step rest ih =>
    rw [Shows, List.forall_mem_cons] at hsteps
    obtain ⟨⟨result, rfl⟩, hrest⟩ := hsteps
    exact ih hrest

theorem comesBack_shown (entry : Option Entry) :
    ComesBack entry ((cellLog steps entry).getLast?.or (cell steps entry)) ↔
      SavedOnce m [] steps.length entry := by
  cases entry with
  | none =>
    obtain ⟨hlog, hcell⟩ := shows_none hsteps
    rw [hlog, hcell]
    exact iff_of_true (fun _ hentry => nomatch hentry) (Or.inl (Nat.zero_le 1))
  | some entry =>
    obtain ⟨hzero, hone, htwo⟩ := getLast_cellLog_shows hsteps entry rfl
    rw [SavedOnce]
    change _ ↔ 0 + drops m entry.suggestionFreq entry.shownFreq steps.length ≤ 1 ∨
      2 ≤ drops m entry.suggestionFreq entry.shownFreq steps.length ∧ _
    generalize drops m entry.suggestionFreq entry.shownFreq steps.length = times
      at hzero hone htwo
    rcases Nat.lt_or_ge 1 times with hlt | hle
    · obtain ⟨saved, hlast, hsaved⟩ := htwo hlt
      rw [hlast, Option.some_or, comesBack_some]
      constructor
      · exact fun h => Or.inr ⟨hlt, entry, rfl, h.trans hsaved.symm⟩
      · rintro (h | ⟨_, old, hold, h⟩)
        · omega
        · obtain rfl := Option.some.inj hold
          exact h.trans hsaved
    · refine iff_of_true ?_ (Or.inl (by omega))
      rcases Nat.le_one_iff_eq_zero_or_eq_one.mp hle with h | h
      · obtain ⟨hnil, entry', hcell, hsame⟩ := hzero h
        rw [hnil, hcell]
        exact comesBack_some.mpr hsame
      · obtain ⟨saved, hlast, hsaved⟩ := hone h
        rw [hlast, Option.some_or, comesBack_some]
        exact hsaved

theorem cellLog_eq_nil {news : List NewEntry} {entry : Option Entry}
    (h : cell (news.map (insertStep m) ++ steps) entry = none) :
    cellLog (news.map (insertStep m) ++ steps) entry = [] := by
  have hproper : ∀ step ∈ steps, Proper m step := by
    intro step hmem
    obtain ⟨result, rfl⟩ := hsteps step hmem
    exact proper_showStep result
  rw [cell_append, cell_inserts] at h
  have hnone : ¬ (inserted news entry).isSome = true := by
    intro hsome
    have hcell := isSome_cell hproper hsome
    rw [h] at hcell
    exact Bool.false_ne_true hcell
  rw [isSome_inserted, not_or, not_not] at hnone
  obtain ⟨hentry, rfl⟩ := hnone
  obtain rfl : entry = none := by simpa using hentry
  exact (shows_none hsteps).1

end

section

variable (hratio : ∀ suggestionFreq shownFreq, shownFreq ≤ 20 * suggestionFreq →
  m.belowMinSelectedRatio suggestionFreq shownFreq = false)

include hratio

theorem drops_eq_zero {suggestionFreq : Nat} :
    ∀ {times shownFreq : Nat}, shownFreq + times ≤ 20 * suggestionFreq →
      drops m suggestionFreq shownFreq times = 0 := by
  intro times
  induction times with
  | zero => exact fun _ => rfl
  | succ times ih =>
    intro shownFreq h
    rw [drops, hratio _ _ (by omega), if_neg Bool.false_ne_true]
    exact ih (by omega)

theorem comesBack_inserted {steps : List HistoryStep} (hsteps : Shows m steps)
    (hlength : steps.length ≤ kMaxHistorySize) (news : List NewEntry) (new : NewEntry)
    (entry : Option Entry) :
    ComesBack entry ((cellLog ((news ++ [new]).map (insertStep m) ++ steps) entry).getLast?.or
      (cell ((news ++ [new]).map (insertStep m) ++ steps) entry)) ↔
      SavedOnce m (news ++ [new]) steps.length entry := by
  have hlast : ∀ saved : List Entry, ((cellLog (news.map (insertStep m)) entry ++
      [new.save (inserted news entry)]) ++ saved).getLast? =
        saved.getLast?.or (some (new.save (inserted news entry))) := by
    intro saved
    rw [List.getLast?_append, List.getLast?_append]
    rfl
  have hpair : news.length + 1 ≤ 1 ↔ news = [] := by
    rw [← List.length_eq_zero_iff]
    omega
  have hshown := shownFreq_inserted (news ++ [new]) entry
  have hfreq := suggestionFreq_inserted (news ++ [new]) entry
  rw [cellLog_append, cell_inserts, cellLog_inserts_concat, hlast, SavedOnce]
  rw [inserted_concat, Option.getD_some] at hshown hfreq
  rw [inserted_concat]
  obtain ⟨hzero, hone, htwo⟩ :=
    getLast_cellLog_shows hsteps (new.write (inserted news entry)) rfl
  rw [hshown, hfreq] at hzero hone htwo
  rw [List.length_append, List.length_singleton] at hzero hone htwo hfreq ⊢
  cases entry with
  | none =>
    have hdrops : drops m (0 + (news.length + 1)) 0 steps.length = 0 :=
      drops_eq_zero hratio (by rw [kMaxHistorySize] at hlength; omega)
    rw [(hzero hdrops).1, List.getLast?_nil, Option.none_or, Option.some_or, comesBack_save]
    rw [dropsAfter, Option.elim_none, Nat.add_zero, hpair]
    constructor
    · exact Or.inl
    · rintro (h | ⟨h, _⟩)
      · exact h
      · omega
  | some entry =>
    rw [dropsAfter, Option.elim_some]
    rw [Option.getD_some] at hzero hone htwo hfreq
    generalize drops m (entry.suggestionFreq + (news.length + 1)) entry.shownFreq
      steps.length = times at hzero hone htwo
    rcases Nat.lt_or_ge 1 times with hlt | hle
    · obtain ⟨saved, hsaved, hsame⟩ := htwo hlt
      rw [hsaved, Option.some_or, Option.some_or, comesBack_some]
      have hwritten : (news ++ [new]).foldl (fun entry new => new.write (some entry)) entry =
          new.write (inserted news (some entry)) := by
        have h := inserted_concat news new (some entry)
        rw [inserted_some] at h
        exact Option.some.inj h
      constructor
      · exact fun h => Or.inr ⟨hlt, entry, rfl, hwritten ▸ h.trans hsame.symm⟩
      · rintro (h | ⟨_, old, hold, h⟩)
        · omega
        · obtain rfl := Option.some.inj hold
          exact (hwritten ▸ h).trans hsame
    · rcases Nat.le_one_iff_eq_zero_or_eq_one.mp hle with rfl | rfl
      · rw [(hzero rfl).1, List.getLast?_nil, Option.none_or, Option.some_or, comesBack_save,
          Nat.add_zero, hpair]
        constructor
        · exact Or.inl
        · rintro (h | ⟨h, _⟩)
          · exact h
          · omega
      · obtain ⟨saved, hsaved, hsame⟩ := hone rfl
        rw [hsaved, Option.some_or, Option.some_or, comesBack_some]
        refine iff_of_false (fun h => ?_) (fun h => ?_)
        · have hsaved := h.suggestionFreq.symm.trans (hsame.suggestionFreq.trans hfreq)
          omega
        · rcases h with h | ⟨h, _⟩ <;> omega

theorem comesBack_steps {steps : List HistoryStep} (hsteps : Shows m steps)
    (hlength : steps.length ≤ kMaxHistorySize) (news : List NewEntry) (entry : Option Entry) :
    ComesBack entry ((cellLog (news.map (insertStep m) ++ steps) entry).getLast?.or
      (cell (news.map (insertStep m) ++ steps) entry)) ↔
      SavedOnce m news steps.length entry := by
  rcases List.eq_nil_or_concat news with rfl | ⟨init, new, rfl⟩
  · exact comesBack_shown hsteps entry
  · rw [List.concat_eq_append]
    exact comesBack_inserted hratio hsteps hlength init new entry

end

/-! ## The commit as a whole -/

section

variable (m) (request : Request) (result : Result) (rest : List Result) (storage : Storage)
  (fp : UInt64)

/-- What the segments of a commit insert at a fingerprint. -/
def convertedAt : List NewEntry :=
  insertsAt m fp (conversionInserts m request.lastAccessTime (makeSegments request result))

/-- Everything that a commit inserts at a fingerprint. -/
def committedAt : List NewEntry :=
  convertedAt m request result fp ++
    (linkedEntry m request result storage).elim [] fun linked => insertsAt m fp
      (historyInserts m request.lastAccessTime (makeSegments request result) linked.2)

/-- How many of the results are shown at a fingerprint. -/
def showsAt : Nat :=
  ((result :: rest).take kMaxHistorySize).countP fun result =>
    m.fingerprint result.key result.value = fp

/-- A commit saves an entry but once: the linked entry is not among its segments, and no other
    entry is saved twice. -/
def SavesOnce : Prop :=
  ∀ fp, if (linkedEntry m request result storage).map Prod.fst = some fp then
      convertedAt m request result fp = []
    else SavedOnce m (committedAt m request result storage fp) (showsAt m result rest fp)
      (storage fp)

end

variable {request : Request} {result : Result} {rest : List Result} {storage : Storage}
  {fp : UInt64}

theorem run_conversionSteps : run (conversionSteps m request result) storage fp =
    inserted (convertedAt m request result fp) (storage fp) := by
  rw [run_apply, conversionSteps, stepsAt_inserts, cell_inserts]
  rfl

theorem stepsAt_commitSteps
    (h : (linkedEntry m request result storage).map Prod.fst ≠ some fp) :
    stepsAt fp (commitSteps m request result rest storage) =
      (committedAt m request result storage fp).map (insertStep m) ++
        stepsAt fp (showSteps m (result :: rest)) := by
  rw [commitSteps, stepsAt_append, stepsAt_append, conversionSteps, stepsAt_inserts, committedAt,
    List.map_append]
  refine congrArg (_ ++ · ++ _) ?_
  cases hlinked : linkedEntry m request result storage with
  | none => rfl
  | some linked =>
    have hne : linked.1 ≠ fp := by
      rintro rfl
      exact h (congrArg (Option.map Prod.fst) hlinked)
    have hlinks : ∀ targets : List UInt64, stepsAt fp (targets.map (linkStep linked.1)) = [] := by
      intro targets
      refine List.filter_eq_nil_iff.mpr fun step hmem => ?_
      obtain ⟨next, -, rfl⟩ := List.mem_map.mp hmem
      simp [linkStep, hne]
    rw [Option.elim_some, Option.elim_some, historySteps, historyInserts, stepsAt_append,
      stepsAt_append, hlinks, stepsAt_inserts, stepsAt_inserts, List.nil_append,
      ← List.map_append, insertsAt, insertsAt, ← List.filter_append, insertsAt, acceptedInserts,
      acceptedInserts, ← List.filter_append, ← List.map_append]
    rfl

/-- **AN UNLINKED ENTRY** is restored if it is saved once. -/
theorem comesBack_unlinked (hratio : ∀ suggestionFreq shownFreq,
      shownFreq ≤ 20 * suggestionFreq → m.belowMinSelectedRatio suggestionFreq shownFreq = false)
    (hstored : Stored m.entryFingerprint storage)
    (h : (linkedEntry m request result storage).map Prod.fst ≠ some fp) :
    ComesBack (storage fp) (restore m.entryFingerprint
        (log (commitSteps m request result rest storage) storage)
        (run (commitSteps m request result rest storage) storage) fp) ↔
      SavedOnce m (committedAt m request result storage fp) (showsAt m result rest fp)
        (storage fp) := by
  have hshows : Shows m (stepsAt fp (showSteps m (result :: rest))) := by
    intro step hmem
    obtain ⟨result, -, rfl⟩ := List.mem_map.mp (List.mem_of_mem_filter hmem)
    exact ⟨result, rfl⟩
  have hcount : (stepsAt fp (showSteps m (result :: rest))).length = showsAt m result rest fp := by
    rw [showsAt, List.countP_eq_length_filter, showSteps, stepsAt, List.filter_map, List.length_map]
    rfl
  have hlength : (stepsAt fp (showSteps m (result :: rest))).length ≤ kMaxHistorySize := by
    refine (List.length_filter_le _ _).trans ?_
    rw [showSteps, List.length_map]
    exact List.length_take_le _ _
  have hsteps : stepsAt fp (commitSteps m request result rest storage) = _ := stepsAt_commitSteps h
  rw [← hcount, ← comesBack_steps hratio hshows hlength, ← hsteps]
  generalize hcommit : commitSteps m request result rest storage = steps at hsteps
  have hproper : ∀ step ∈ steps, step.Keyed m.entryFingerprint := by
    rw [← hcommit]
    exact fun step hmem => (proper_commitSteps request result rest storage step hmem).keyed
  cases hrun : run steps storage fp with
  | some entry => rw [restore_run hproper hstored (by rw [hrun]; rfl)]
  | none =>
    -- it was not there, and nothing inserts it
    have hnone :
        restore m.entryFingerprint (log steps storage) (run steps storage) fp = none := by
      rw [← Option.isNone_iff_eq_none, ← Option.not_isSome, isSome_restore, hrun]
      rfl
    have hafter : cell (stepsAt fp steps) (storage fp) = none :=
      (run_apply fp steps storage).symm.trans hrun
    rw [hnone, hafter, hsteps, cellLog_eq_nil hshows (hsteps ▸ hafter)]
    rfl

/-- **THE LINKED ENTRY** is what it was after the inserts of the segments. -/
theorem writeBack_linked (rest : List Result) (hstored : Stored m.entryFingerprint storage)
    {linked : UInt64 × Segment}
    (hlinked : linkedEntry m request result storage = some linked) :
    ∃ history, run (conversionSteps m request result) storage linked.1 = some history ∧
      m.entryFingerprint history = linked.1 ∧
      writeBack m.entryFingerprint (restore m.entryFingerprint
        (log (commitSteps m request result rest storage) storage)
        (run (commitSteps m request result rest storage) storage)) history linked.1 =
          some history := by
  obtain ⟨history, hhistory⟩ :
      ∃ history, run (conversionSteps m request result) storage linked.1 = some history := by
    obtain ⟨segments, -, hsegments⟩ := Option.bind_eq_some_iff.mp hlinked
    obtain ⟨history, hhistory, rfl⟩ := Option.map_eq_some_iff.mp hsegments
    exact ⟨history, hhistory⟩
  have hproper := proper_commitSteps (m := m) request result rest storage
  have hfp : m.entryFingerprint history = linked.1 := by
    refine hstored.run (fun step hmem => (proper_insertSteps _ step hmem).keyed) _ _ hhistory
  refine ⟨history, hhistory, hfp, ?_⟩
  rw [← hfp]
  refine writeBack_of_eq ?_
  rw [run_apply] at hhistory
  rw [isSome_restore, run_apply, hfp, commitSteps, List.append_assoc, stepsAt_append, cell_append,
    hhistory]
  refine isSome_cell (fun step hmem => hproper step ?_) rfl
  rw [commitSteps, List.append_assoc]
  exact List.mem_append_right _ (List.mem_of_mem_filter hmem)

/-- **REVERTED IF SAVED ONCE**: after a commit and its revert the history is as it was if the
    linked entry is not among the segments of the commit and no other entry is saved twice, and
    not otherwise. -/
theorem reverted_iff (hratio : ∀ suggestionFreq shownFreq,
      shownFreq ≤ 20 * suggestionFreq → m.belowMinSelectedRatio suggestionFreq shownFreq = false)
    (hstored : Stored m.entryFingerprint storage) {storage' : Storage} {reverts : RevertEntries}
    (hfinish : finish m request (result :: rest) storage = (storage', some reverts)) :
    Reverted storage (revert m reverts storage').1 ↔
      SavesOnce m request result rest storage := by
  obtain ⟨rfl, rfl⟩ := finish_eq hfinish
  rw [Reverted, SavesOnce, revert_eq]
  refine forall_congr' fun fp => ?_
  cases hlinked : linkedEntry m request result storage with
  | none =>
    rw [Option.bind_none, Option.elim_none, Option.map_none, if_neg (by simp)]
    exact comesBack_unlinked hratio hstored (by rw [hlinked]; simp)
  | some linked =>
    obtain ⟨history, hhistory, hfp, hwritten⟩ := writeBack_linked rest hstored hlinked
    rw [Option.bind_some, hhistory, Option.elim_some, Option.map_some]
    by_cases hne : linked.1 = fp
    · subst hne
      rw [hwritten, if_pos rfl, ← comesBack_inserts, ← hhistory, run_conversionSteps]
    · rw [writeBack_of_ne (by rw [hfp]; exact hne), if_neg (by simpa using hne)]
      exact comesBack_unlinked hratio hstored (by rw [hlinked]; simpa using hne)

/-! ## A word committed once, and twice -/

/-- A polynomial hash, the ratio, and no alignment. -/
def plainModules : Modules where
  cityFingerprint bytes := bytes.foldl (fun h byte => h * 257 + byte.toUInt64) 1
  belowMinSelectedRatio suggestionFreq shownFreq := 20 * suggestionFreq < shownFreq
  getReadingAlignment value key := [(value, key)]

/-- また -/
def mata : Bytes := [0xE3, 0x81, 0xBE, 0xE3, 0x81, 0x9F]

/-- A commit. -/
def committedOnce : Result := { key := mata, value := mata }

/-- Two segments of the same word. -/
def committedTwice : Result where
  key := mata ++ mata
  value := mata ++ mata
  innerSegmentBoundary := buildBoundary [⟨6, 6, 6, 6⟩, ⟨6, 6, 6, 6⟩] (mata ++ mata) (mata ++ mata)

/-- A history without entries. -/
def emptyHistory : Storage := fun _ => none

theorem exists_finish {request : Request} {results : List Result} {storage : Storage}
    (h : (finish m request results storage).2.isSome = true) :
    ∃ reverts, finish m request results storage =
      ((finish m request results storage).1, some reverts) := by
  obtain ⟨reverts, hreverts⟩ := Option.isSome_iff_exists.mp h
  exact ⟨reverts, Prod.ext rfl hreverts⟩

/-- `reverted_iff`, of a word that is committed once. -/
theorem reverted_iff_committedOnce : ∃ storage' reverts,
    finish plainModules { lastAccessTime := 1 } [committedOnce] emptyHistory =
      (storage', some reverts) ∧
    Reverted emptyHistory (revert plainModules reverts storage').1 := by
  obtain ⟨reverts, hfinish⟩ := exists_finish (show (finish plainModules { lastAccessTime := 1 }
    [committedOnce] emptyHistory).2.isSome = true by decide +kernel)
  refine ⟨_, reverts, hfinish, (reverted_iff ?_ ?_ hfinish).mpr ?_⟩
  · intro suggestionFreq shownFreq h
    exact decide_eq_false (not_lt.mpr h)
  · exact fun fp entry hentry => absurd hentry (by simp [emptyHistory])
  · intro fp
    have hlinked : linkedEntry plainModules { lastAccessTime := 1 } committedOnce emptyHistory =
        none := by decide +kernel
    have hone : (acceptedInserts (conversionInserts plainModules 1
        (makeSegments { lastAccessTime := 1 } committedOnce))).length = 1 := by decide +kernel
    rw [hlinked, Option.map_none, if_neg (by simp), SavedOnce, committedAt, hlinked,
      Option.elim_none, List.append_nil]
    exact Or.inl ((List.length_filter_le _ _).trans_eq hone)

/-- A word that was committed twice at once is not forgotten. -/
theorem committedTwice_not_reverted : ∃ storage' reverts,
    finish plainModules { lastAccessTime := 1 } [committedTwice] emptyHistory =
      (storage', some reverts) ∧
    ¬ Reverted emptyHistory (revert plainModules reverts storage').1 := by
  obtain ⟨reverts, hfinish⟩ := exists_finish (show (finish plainModules { lastAccessTime := 1 }
    [committedTwice] emptyHistory).2.isSome = true by decide +kernel)
  refine ⟨_, reverts, hfinish, fun h => ?_⟩
  have hkept : (((finish plainModules { lastAccessTime := 1 } [committedTwice] emptyHistory).2.bind
      fun reverts => (revert plainModules reverts (finish plainModules { lastAccessTime := 1 }
        [committedTwice] emptyHistory).1).1 (plainModules.fingerprint mata mata)).map
          Entry.removed) = some false := by decide +kernel
  rw [hfinish, Option.bind_some] at hkept
  obtain ⟨entry, hentry, hremoved⟩ := Option.map_eq_some_iff.mp hkept
  have hforgotten := h (plainModules.fingerprint mata mata) entry hentry
  exact Bool.false_ne_true (hremoved.symm.trans hforgotten.removed)

end MozkeyHistory
