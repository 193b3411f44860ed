import Mozkey.ZenzRequestProofs

/-! # Session — answers of the Zenz model and the questions they answer

    The worker's slot is shared by suggestions and conversions, and what it has taken outlives
    a cancellation.  A stale answer is told from a current one by generation and key alone, so
    everything rests on what else of that generation and key is under way. -/

namespace MozkeyZenzRequest

open ByteString MozkeyAdoption

/-! ## What can still be taken -/

/-- The service still has a request, or its response. -/
def ZenzConversionService.Alive (service : ZenzConversionService) (job : Job) : Prop :=
  service.latestRequest = some job ∨ service.running = some job ∨
    ∃ response, service.latestResult = some (job, response)

namespace Session

/-- The session's service still has a request, or its response. -/
def Alive (s : Session) (job : Job) : Prop :=
  ∃ service, s.service = some service ∧ service.Alive job

/-- The response that can be taken next. -/
def Stored (s : Session) (job : Job) (response : ZenzConversionResponse) : Prop :=
  ∃ service, s.service = some service ∧ service.latestResult = some (job, response)

/-- The two questions that may be pending. -/
def entries (s : Session) : List PendingZenz := [s.pendingConversion, s.pendingSuggestion]

/-- The entries whose request has been sent. -/
def Waiting (s : Session) (entry : PendingZenz) : Prop :=
  entry ∈ s.entries ∧ entry.pending ∧ entry.submitted

end Session

/-- Two entries that a callback and a response cannot tell apart are about one question. -/
def PendingZenz.Agrees (entry other : PendingZenz) : Prop :=
  other.generation = entry.generation → other.key = entry.key → other.question = entry.question

/-- Two entries that differ in bookkeeping only. -/
def PendingZenz.SameRequest (entry other : PendingZenz) : Prop :=
  other.generation = entry.generation ∧ other.key = entry.key ∧ other.question = entry.question

/-- What a request carries of the entry it was made for. -/
structure Job.Faithful (job : Job) : Prop where
  generation : job.request.generation = job.entry.generation
  key : job.request.key = job.entry.key
  key_ne_nil : job.entry.key ≠ []

namespace Session

/-- Every request that an entry could take the response of is about the entry's question. -/
structure Invariant (s : Session) : Prop where
  agrees : ∀ entry, s.Waiting entry → ∀ job, s.Alive job → entry.Agrees job.entry
  faithful : ∀ job, s.Alive job → job.Faithful
  echoed : ∀ job response, s.Stored job response → ∃ answer, response = job.respond answer
  keyed : ∀ entry ∈ s.entries, entry.pending → entry.key ≠ []

/-- A change that sends nothing: fewer requests are alive, and fewer entries wait. -/
structure Below (s' s : Session) : Prop where
  waiting : ∀ entry, s'.Waiting entry → ∃ other, s.Waiting other ∧ entry.SameRequest other
  alive : ∀ job, s'.Alive job → s.Alive job
  stored : ∀ job response, s'.Stored job response →
    s.Stored job response ∨ ∃ answer, response = job.respond answer
  keyed : ∀ entry ∈ s'.entries, entry.pending → entry.key ≠ [] ∨
    ∃ other ∈ s.entries, other.pending ∧ other.key = entry.key

variable {s s' : Session}

theorem Below.invariant (h : Below s' s) (hs : s.Invariant) : s'.Invariant where
  agrees := by
    intro entry hentry job hjob hgeneration hkey
    obtain ⟨other, hother, hg, hk, hq⟩ := h.waiting entry hentry
    rw [← hq]
    exact hs.agrees other hother job (h.alive job hjob) (hgeneration.trans hg.symm)
      (hkey.trans hk.symm)
  faithful := fun job hjob => hs.faithful job (h.alive job hjob)
  echoed := by
    intro job response hstored
    rcases h.stored job response hstored with hold | hnew
    · exact hs.echoed job response hold
    · exact hnew
  keyed := by
    intro entry hentry hpending
    rcases h.keyed entry hentry hpending with hkey | ⟨other, hother, hp, hk⟩
    · exact hkey
    · exact hk ▸ hs.keyed other hother hp

theorem Below.refl (s : Session) : Below s s where
  waiting := fun entry hentry => ⟨entry, hentry, rfl, rfl, rfl⟩
  alive := fun _ hjob => hjob
  stored := fun _ _ hstored => Or.inl hstored
  keyed := fun entry hentry hpending => Or.inr ⟨entry, hentry, hpending, rfl⟩

theorem Below.trans {s'' : Session} (h : Below s'' s') (h' : Below s' s) : Below s'' s where
  waiting := by
    intro entry hentry
    obtain ⟨other, hother, hg, hk, hq⟩ := h.waiting entry hentry
    obtain ⟨first, hfirst, hg', hk', hq'⟩ := h'.waiting other hother
    exact ⟨first, hfirst, hg'.trans hg, hk'.trans hk, hq'.trans hq⟩
  alive := fun job hjob => h'.alive job (h.alive job hjob)
  stored := by
    intro job response hstored
    rcases h.stored job response hstored with hold | hnew
    · exact h'.stored job response hold
    · exact Or.inr hnew
  keyed := by
    intro entry hentry hpending
    rcases h.keyed entry hentry hpending with hkey | ⟨other, hother, hp, hk⟩
    · exact Or.inl hkey
    · rcases h'.keyed other hother hp with hkey | ⟨first, hfirst, hp', hk'⟩
      · exact Or.inl (hk ▸ hkey)
      · exact Or.inr ⟨first, hfirst, hp', hk'.trans hk⟩

theorem below_of
    (hentries : ∀ entry ∈ s'.entries, entry.pending → (entry.submitted = false ∧ entry.key ≠ []) ∨
      ∃ other ∈ s.entries, other.pending ∧ other.submitted = entry.submitted ∧
        entry.SameRequest other)
    (hservice : ∀ service, s'.service = some service → ∃ before, s.service = some before ∧
      (∀ job, service.Alive job → before.Alive job) ∧
      ∀ job response, service.latestResult = some (job, response) →
        before.latestResult = some (job, response) ∨ ∃ answer, response = job.respond answer) :
    Below s' s where
  waiting := by
    rintro entry ⟨hentry, hpending, hsubmitted⟩
    rcases hentries entry hentry hpending with ⟨hnot, -⟩ | ⟨other, hother, hp, hs, hsame⟩
    · rw [hnot] at hsubmitted
      cases hsubmitted
    · exact ⟨other, ⟨hother, hp, hs.trans hsubmitted⟩, hsame⟩
  alive := by
    rintro job ⟨service, hs', hjob⟩
    obtain ⟨before, hbefore, halive, -⟩ := hservice service hs'
    exact ⟨before, hbefore, halive job hjob⟩
  stored := by
    rintro job response ⟨service, hs', hresult⟩
    obtain ⟨before, hbefore, -, hstored⟩ := hservice service hs'
    rcases hstored job response hresult with hold | hnew
    · exact Or.inl ⟨before, hbefore, hold⟩
    · exact Or.inr hnew
  keyed := by
    intro entry hentry hpending
    rcases hentries entry hentry hpending with ⟨-, hkey⟩ | ⟨other, hother, hp, -, -, hk, -⟩
    · exact Or.inl hkey
    · exact Or.inr ⟨other, hother, hp, hk⟩

theorem below_of_entries (hservice : s'.service = s.service)
    (hentries : ∀ entry ∈ s'.entries, entry.pending → (entry.submitted = false ∧ entry.key ≠ []) ∨
      ∃ other ∈ s.entries, other.pending ∧ other.submitted = entry.submitted ∧
        entry.SameRequest other) : Below s' s := by
  refine below_of hentries ?_
  intro service h
  exact ⟨service, hservice ▸ h, fun _ hjob => hjob, fun _ _ hresult => Or.inl hresult⟩

theorem kept {entry : PendingZenz} (h : entry ∈ s.entries) (hpending : entry.pending) :
    ∃ other ∈ s.entries, other.pending ∧
      other.submitted = entry.submitted ∧ entry.SameRequest other :=
  ⟨entry, h, hpending, rfl, rfl, rfl, rfl⟩

end Session

/-! ## Events that send nothing -/

namespace ZenzConversionService

variable {service : ZenzConversionService} {job : Job} {response : ZenzConversionResponse}

theorem alive_of_cancelPending (h : service.cancelPending.Alive job) : service.Alive job := by
  rcases h with h | h | ⟨response, h⟩
  · cases h
  · exact Or.inr (Or.inl h)
  · cases h

theorem alive_submit {sent : Job} (h : (service.submit sent).Alive job) :
    job = sent ∨ service.running = some job := by
  rcases h with h | h | ⟨response, h⟩
  · exact Or.inl (Option.some.inj h).symm
  · exact Or.inr h
  · cases h

/-- What is taken was stored under the generation asked for, and is gone. -/
theorem takeResult_spec (service : ZenzConversionService) (generation : UInt32) :
    (∀ job response, (service.takeResult generation).1 = some (job, response) →
      service.latestResult = some (job, response) ∧ response.generation = generation) ∧
    (service.takeResult generation).2 = { service with latestResult := .none } := by
  cases hresult : service.latestResult with
  | none =>
    have hsame : ({ service with latestResult := .none } : ZenzConversionService) = service := by
      rw [← hresult]
    simp [takeResult, hresult, hsame]
  | some stored =>
    obtain ⟨storedJob, storedResponse⟩ := stored
    refine ⟨?_, by simp [takeResult, hresult]⟩
    intro job response h
    by_cases hgeneration : storedResponse.generation = generation
    · have hboth : storedJob = job ∧ storedResponse = response := by
        simpa [takeResult, hresult, hgeneration] using h
      obtain ⟨rfl, rfl⟩ := hboth
      exact ⟨rfl, hgeneration⟩
    · simp [takeResult, hresult, hgeneration] at h

theorem alive_of_workerTake (h : service.workerTake.Alive job) : service.Alive job := by
  cases hrunning : service.running with
  | some running =>
    simpa [workerTake, hrunning] using h
  | none =>
    cases hlatest : service.latestRequest with
    | none => simpa [workerTake, hrunning, hlatest] using h
    | some latest =>
      simp only [workerTake, hrunning, hlatest] at h
      rcases h with h | h | ⟨response, h⟩
      · cases h
      · exact Or.inl (hlatest.trans h)
      · exact Or.inr (Or.inr ⟨response, h⟩)

theorem latestResult_workerTake (service : ZenzConversionService) :
    service.workerTake.latestResult = service.latestResult := by
  unfold workerTake
  split <;> rfl

theorem alive_of_workerStore {answer : Answer} (h : (service.workerStore answer).Alive job) :
    service.Alive job := by
  cases hrunning : service.running with
  | none => simpa [workerStore, hrunning] using h
  | some running =>
    simp only [workerStore, hrunning] at h
    rcases h with h | h | ⟨response, h⟩
    · exact Or.inl h
    · cases h
    · obtain ⟨rfl, -⟩ : running = job ∧ running.respond answer = response := by simpa using h
      exact Or.inr (Or.inl hrunning)

theorem latestResult_workerStore {answer : Answer}
    (h : (service.workerStore answer).latestResult = some (job, response)) :
    service.latestResult = some (job, response) ∨ response = job.respond answer := by
  cases hrunning : service.running with
  | none => exact Or.inl (by simpa [workerStore, hrunning] using h)
  | some running =>
    obtain ⟨rfl, rfl⟩ : running = job ∧ running.respond answer = response := by
      simpa [workerStore, hrunning] using h
    exact Or.inr rfl

end ZenzConversionService

namespace Session

open ZenzConversionService

theorem mem_entries {s : Session} {entry : PendingZenz} :
    entry ∈ s.entries ↔ entry = s.pendingConversion ∨ entry = s.pendingSuggestion := by
  simp [entries]

theorem below_cancelPendingZenzConversion (s : Session) :
    Below s.cancelPendingZenzConversion s := by
  refine below_of ?_ ?_
  · intro entry hentry hpending
    rcases mem_entries.mp hentry with rfl | rfl
    · cases hpending
    · exact Or.inr (kept (mem_entries.mpr (Or.inr rfl)) hpending)
  · intro service hservice
    cases hbefore : s.service with
    | none => simp [cancelPendingZenzConversion, hbefore] at hservice
    | some before =>
      obtain rfl : before.cancelPending = service := by
        simpa [cancelPendingZenzConversion, hbefore] using hservice
      exact ⟨before, rfl, fun _ => alive_of_cancelPending, by rintro _ _ ⟨⟩⟩

theorem below_resetZenzSuggestion (s : Session) : Below s.resetZenzSuggestion s := by
  refine below_of_entries rfl ?_
  intro entry hentry hpending
  rcases mem_entries.mp hentry with rfl | rfl
  · exact Or.inr (kept (mem_entries.mpr (Or.inl rfl)) hpending)
  · cases hpending

theorem below_maybeScheduleZenzSuggestion (s : Session) (prepared : Option Prepared) (now : Nat) :
    Below (s.maybeScheduleZenzSuggestion prepared now) s := by
  cases prepared with
  | none => exact Below.refl s
  | some prepared =>
    by_cases hallowed : s.view.allowsRequest && s.view.suggesting
    · simp only [maybeScheduleZenzSuggestion, hallowed, if_true]
      refine below_of_entries rfl ?_
      intro entry hentry hpending
      rcases mem_entries.mp hentry with rfl | rfl
      · exact Or.inr (kept (mem_entries.mpr (Or.inl rfl)) hpending)
      · rw [Bool.and_eq_true] at hallowed
        exact Or.inl ⟨rfl, query_ne_nil hallowed.1⟩
    · simp only [maybeScheduleZenzSuggestion, hallowed]
      exact Below.refl s

theorem below_suggest (s : Session) (suggested : Bool) (prepared : Option Prepared) (now : Nat) :
    Below (s.suggest suggested prepared now) s := by
  cases suggested with
  | false => exact below_resetZenzSuggestion s
  | true =>
    exact (below_maybeScheduleZenzSuggestion _ prepared now).trans (below_resetZenzSuggestion s)

theorem below_applyZenzFeedbackConversion (s : Session) :
    Below s.applyZenzFeedbackConversion s := by
  refine below_of_entries rfl ?_
  intro entry hentry hpending
  rcases mem_entries.mp hentry with rfl | rfl
  · cases hpending
  · exact Or.inr (kept (mem_entries.mpr (Or.inr rfl)) hpending)

theorem below_output (s : Session) : Below s.output s := by
  unfold output
  split
  · split
    · exact Below.refl s
    · exact below_resetZenzSuggestion s
  · exact Below.refl s

theorem below_change (s : Session) (view : View) : Below { s with view } s :=
  below_of_entries rfl fun _ hentry hpending => Or.inr (kept hentry hpending)

theorem below_workerTake (s : Session) :
    Below { s with service := s.service.map .workerTake } s := by
  refine below_of (fun _ hentry hpending => Or.inr (kept hentry hpending)) ?_
  intro service hservice
  cases hbefore : s.service with
  | none => simp [hbefore] at hservice
  | some before =>
    obtain rfl : before.workerTake = service := by simpa [hbefore] using hservice
    refine ⟨before, rfl, fun _ => alive_of_workerTake, ?_⟩
    intro job response hresult
    exact Or.inl (latestResult_workerTake before ▸ hresult)

theorem below_workerStore (s : Session) (answer : Answer) :
    Below { s with service := s.service.map fun service => service.workerStore answer } s := by
  refine below_of (fun _ hentry hpending => Or.inr (kept hentry hpending)) ?_
  intro service hservice
  cases hbefore : s.service with
  | none => simp [hbefore] at hservice
  | some before =>
    obtain rfl : before.workerStore answer = service := by simpa [hbefore] using hservice
    refine ⟨before, rfl, fun _ => alive_of_workerStore, ?_⟩
    intro job response hresult
    rcases latestResult_workerStore hresult with hold | hnew
    · exact Or.inl hold
    · exact Or.inr ⟨answer, hnew⟩

theorem below_takeResult (s : Session) (generation : UInt32) :
    Below (s.takeResult generation).2 s := by
  cases hbefore : s.service with
  | none => simpa [takeResult, hbefore] using Below.refl s
  | some before =>
    simp only [takeResult, hbefore]
    refine below_of (fun _ hentry hpending => Or.inr (kept hentry hpending)) ?_
    rintro service ⟨⟩
    refine ⟨before, hbefore, ?_, ?_⟩
    · intro job hjob
      rw [(takeResult_spec before generation).2] at hjob
      rcases hjob with h | h | ⟨response, h⟩
      · exact Or.inl h
      · exact Or.inr (Or.inl h)
      · cases h
    · intro job response hresult
      rw [(takeResult_spec before generation).2] at hresult
      cases hresult

end Session

/-! ## Sending a request -/

namespace Session

/-- The request that is being computed. -/
def Running (s : Session) (job : Job) : Prop :=
  ∃ service, s.service = some service ∧ service.running = some job

/-- Nothing is under way that could be taken for an entry, or take its response. -/
def Free (s : Session) (entry : PendingZenz) : Prop :=
  (∀ job, s.Running job → entry.Agrees job.entry) ∧ ∀ other, s.Waiting other → other.Agrees entry

variable {s : Session} {entry : PendingZenz} {job : Job}

theorem alive_submit (h : (s.submit entry).Alive job) :
    job = { request := requestOf s.view entry, entry } ∨ s.Running job := by
  obtain ⟨service, hservice, hjob⟩ := h
  obtain rfl := Option.some.inj hservice
  rcases ZenzConversionService.alive_submit hjob with hnew | hrunning
  · exact Or.inl hnew
  · cases hbefore : s.service with
    | none => simp [hbefore, ZenzConversionService.new] at hrunning
    | some before => exact Or.inr ⟨before, hbefore, by simpa [hbefore] using hrunning⟩

theorem alive_of_running (h : s.Running job) : s.Alive job := by
  obtain ⟨service, hservice, hjob⟩ := h
  exact ⟨service, hservice, Or.inr (Or.inl hjob)⟩

/-- Sending the request of an entry that is new, or was not sent before, keeps the invariant
    where nothing under way can be mixed up with it. -/
theorem invariant_submit {s' : Session} (hs : s.Invariant) (hservice : s'.service = s.service)
    (hkey : entry.key ≠ []) (hentries : ∀ other ∈ s'.entries, other = entry ∨ other ∈ s.entries)
    (hfree : s.Free entry) : (s'.submit entry).Invariant := by
  have hrunning : ∀ job, s'.Running job → s.Running job := by
    rintro job ⟨service, h, hjob⟩
    exact ⟨service, hservice ▸ h, hjob⟩
  refine ⟨?_, ?_, ?_, ?_⟩
  · rintro other ⟨hother, hpending, hsubmitted⟩ job hjob
    rcases alive_submit hjob with rfl | hold
    · rcases hentries other hother with rfl | hother
      · intro _ _
        rfl
      · exact hfree.2 other ⟨hother, hpending, hsubmitted⟩
    · rcases hentries other hother with rfl | hother
      · exact hfree.1 job (hrunning job hold)
      · exact hs.agrees other ⟨hother, hpending, hsubmitted⟩ job
          (alive_of_running (hrunning job hold))
  · intro job hjob
    rcases alive_submit hjob with rfl | hjob
    · exact ⟨rfl, rfl, hkey⟩
    · exact hs.faithful job (alive_of_running (hrunning job hjob))
  · rintro job response ⟨service, h, hresult⟩
    obtain rfl := Option.some.inj h
    cases hresult
  · intro other hother hpending
    rcases hentries other hother with rfl | hold
    · exact hkey
    · exact hs.keyed other hold hpending

theorem free_of_sameRequest {other : PendingZenz} (h : entry.SameRequest other)
    (hfree : s.Free other) : s.Free entry := by
  obtain ⟨hg, hk, hq⟩ := h
  refine ⟨?_, ?_⟩
  · intro job hjob hgeneration hkey
    rw [← hq]
    exact hfree.1 job hjob (hgeneration.trans hg.symm) (hkey.trans hk.symm)
  · intro first hfirst hgeneration hkey
    rw [← hq]
    exact hfree.2 first hfirst (hg.trans hgeneration) (hk.trans hkey)

/-! ## Taking a response -/

/-- An adopted answer was computed for the question of the entry that adopts it. -/
def AnswersRight (effect : Effect) : Prop :=
  ∀ adoption, effect.adopted = some adoption →
    adoption.job.entry.question = adoption.entry.question

theorem answersRight_quiet : AnswersRight .quiet := by
  rintro adoption ⟨⟩

theorem stored_of_takeResult {generation : UInt32} {response : ZenzConversionResponse}
    (h : (s.takeResult generation).1 = some (job, response)) :
    s.Stored job response ∧ response.generation = generation := by
  cases hbefore : s.service with
  | none => simp [takeResult, hbefore] at h
  | some before =>
    simp only [takeResult, hbefore] at h
    obtain ⟨hresult, hgeneration⟩ :=
      (ZenzConversionService.takeResult_spec before generation).1 job response h
    exact ⟨⟨before, hbefore, hresult⟩, hgeneration⟩

/-- **THE RIGHT ANSWER**: a stored response that passes the check on generation and key was
    computed for the question of the entry. -/
theorem answersRight_adopt (hs : s.Invariant) (hentry : s.Waiting entry)
    {response : ZenzConversionResponse} (hstored : s.Stored job response)
    (finish : PendingZenz → ZenzConversionResponse → Option Bytes) :
    AnswersRight (adopt finish entry job response) := by
  intro adoption hadopted
  by_cases hfor : isResponseFor response entry
  · obtain ⟨value, -, rfl⟩ : ∃ value, finish entry response = some value ∧
        (⟨entry, job, value⟩ : Adoption) = adoption := by
      simpa [adopt, hfor] using hadopted
    obtain ⟨answer, rfl⟩ := hs.echoed job response hstored
    have hjob : s.Alive job := by
      obtain ⟨service, hservice, hresult⟩ := hstored
      exact ⟨service, hservice, Or.inr (Or.inr ⟨_, hresult⟩)⟩
    obtain ⟨hgeneration, hkey, hne⟩ := hs.faithful job hjob
    simp only [isResponseFor, Job.respond, Bool.and_eq_true, Bool.or_eq_true,
      decide_eq_true_eq, hgeneration, hkey] at hfor
    -- an empty key would be taken for any
    have hsame : job.entry.key = entry.key := hfor.2.resolve_left hne
    exact hs.agrees entry hentry job hjob hfor.1.2 hsame
  · simp [adopt, hfor, Effect.quiet] at hadopted

end Session

/-! ## One event -/

namespace Session

/-- What a step that keeps the invariant and adopts only right answers leads to. -/
def Sound (result : Session × Effect) : Prop := result.1.Invariant ∧ AnswersRight result.2

variable {s : Session}

theorem sound_of_below {s' : Session} (hs : s.Invariant) (h : Below s' s) : Sound (s', .quiet) :=
  ⟨h.invariant hs, answersRight_quiet⟩

/-- The entry for which an event sends a request, if it does. -/
def submission (s : Session) : Event → Option PendingZenz
  | .applyZenzSuggestion _ callback _ =>
    if s.isCurrentCallback s.pendingSuggestion callback && s.view.suggesting
        && !s.pendingSuggestion.submitted then some s.pendingSuggestion
    else .none
  | .applyZenzConversion _ callback _ =>
    if s.isCurrentCallback s.pendingConversion callback && s.view.state = .conversion
        && !s.pendingConversion.submitted then some s.pendingConversion
    else .none
  | .maybeScheduleZenzConversion (some prepared) now =>
    if s.view.allowsRequest && s.view.state = .conversion then
      some (newEntry s.view (s.conversionGeneration + 1) prepared now)
    else .none
  | _ => .none

/-- A request is only sent where it cannot be mixed up with another one. -/
def Clear (s : Session) (event : Event) : Prop :=
  ∀ entry, s.submission event = some entry → s.Free entry

theorem mem_entries_conversion (s : Session) : s.pendingConversion ∈ s.entries :=
  mem_entries.mpr (Or.inl rfl)

theorem mem_entries_suggestion (s : Session) : s.pendingSuggestion ∈ s.entries :=
  mem_entries.mpr (Or.inr rfl)

theorem below_pendingSuggestion {entry : PendingZenz}
    (h : entry.pending = false ∨ ∃ pollCount, entry = { s.pendingSuggestion with pollCount }) :
    Below { s with pendingSuggestion := entry } s := by
  refine below_of_entries rfl ?_
  intro other hother hpending
  rcases mem_entries.mp hother with rfl | rfl
  · exact Or.inr (kept (mem_entries_conversion s) hpending)
  · rcases h with hnot | ⟨pollCount, rfl⟩
    · exact absurd (hnot.symm.trans hpending) (by simp)
    · exact Or.inr ⟨_, mem_entries_suggestion s, hpending, rfl, rfl, rfl, rfl⟩

theorem below_pendingConversion {entry : PendingZenz}
    (h : entry.pending = false ∨ ∃ pollCount, entry = { s.pendingConversion with pollCount }) :
    Below { s with pendingConversion := entry } s := by
  refine below_of_entries rfl ?_
  intro other hother hpending
  rcases mem_entries.mp hother with rfl | rfl
  · rcases h with hnot | ⟨pollCount, rfl⟩
    · exact absurd (hnot.symm.trans hpending) (by simp)
    · exact Or.inr ⟨_, mem_entries_conversion s, hpending, rfl, rfl, rfl, rfl⟩
  · exact Or.inr (kept (mem_entries_suggestion s) hpending)

theorem sound_applyZenzSuggestion (hs : s.Invariant)
    (finish : PendingZenz → ZenzConversionResponse → Option Bytes) (callback : Callback) (now : Nat)
    (hclear : s.Clear (.applyZenzSuggestion finish callback now)) :
    Sound (s.applyZenzSuggestion finish callback now) := by
  unfold applyZenzSuggestion
  by_cases hcurrent : s.isCurrentCallback s.pendingSuggestion callback && s.view.suggesting
  · rw [if_pos hcurrent]
    rw [Bool.and_eq_true] at hcurrent
    have hmem := mem_entries_suggestion s
    have hpending := pending_of_current hcurrent.1
    by_cases hsubmitted : s.pendingSuggestion.submitted = false
    · -- the debounced callback sends the request
      rw [if_pos hsubmitted]
      have hfree : s.Free s.pendingSuggestion :=
        hclear _ (by simp [submission, hcurrent, hsubmitted])
      refine ⟨(below_output _).invariant ?_, by rintro adoption ⟨⟩⟩
      refine invariant_submit hs rfl (hs.keyed s.pendingSuggestion hmem hpending) ?_
        (free_of_sameRequest ⟨rfl, rfl, rfl⟩ hfree)
      intro other hother
      rcases mem_entries.mp hother with rfl | rfl
      · exact Or.inr (mem_entries_conversion s)
      · exact Or.inl rfl
    · rw [if_neg hsubmitted]
      have hwaiting : s.Waiting s.pendingSuggestion := ⟨hmem, hpending, by simpa using hsubmitted⟩
      have htake := below_takeResult s s.pendingSuggestion.generation
      cases htaken : (s.takeResult s.pendingSuggestion.generation).1 with
      | none =>
        simp only [htaken]
        split
        · refine sound_of_below hs ((below_output _).trans (Below.trans ?_ htake))
          exact below_pendingSuggestion (Or.inl rfl)
        · refine sound_of_below hs ((below_output _).trans (Below.trans ?_ htake))
          exact below_pendingSuggestion (Or.inr ⟨_, rfl⟩)
      | some taken =>
        obtain ⟨job, response⟩ := taken
        simp only [htaken, pendingSuggestion_takeResult]
        refine ⟨Below.invariant ?_ hs, ?_⟩
        · dsimp only
          refine (below_output _).trans (Below.trans ?_ htake)
          exact below_pendingSuggestion (Or.inl rfl)
        · exact answersRight_adopt hs hwaiting (stored_of_takeResult htaken).1 finish
  · rw [if_neg hcurrent]
    exact sound_of_below hs (Below.refl s)

theorem sound_advance_unsubmitted {s' : Session} (hs : s.Invariant)
    (hservice : s'.service = s.service) (hsuggestion : s'.pendingSuggestion = s.pendingSuggestion)
    (hsubmitted : s'.pendingConversion.submitted = false) (hkey : s'.pendingConversion.key ≠ [])
    (hfree : s.Free s'.pendingConversion)
    (finish : PendingZenz → ZenzConversionResponse → Option Bytes) (now : Nat) :
    Sound (s'.advancePendingZenzConversion finish now) := by
  unfold advancePendingZenzConversion
  rw [if_pos hsubmitted]
  refine ⟨?_, by rintro adoption ⟨⟩⟩
  refine invariant_submit hs hservice hkey ?_ (free_of_sameRequest ⟨rfl, rfl, rfl⟩ hfree)
  intro other hother
  rcases mem_entries.mp hother with rfl | rfl
  · exact Or.inl rfl
  · exact Or.inr (mem_entries.mpr (Or.inr hsuggestion))

theorem sound_advance_submitted (hs : s.Invariant) (hwaiting : s.Waiting s.pendingConversion)
    (finish : PendingZenz → ZenzConversionResponse → Option Bytes) (now : Nat) :
    Sound (s.advancePendingZenzConversion finish now) := by
  unfold advancePendingZenzConversion
  rw [if_neg (by simp [hwaiting.2.2])]
  split
  · exact sound_of_below hs (below_cancelPendingZenzConversion s)
  · have htake := below_takeResult s s.pendingConversion.generation
    cases htaken : (s.takeResult s.pendingConversion.generation).1 with
    | none =>
      simp only [htaken]
      split
      · exact sound_of_below hs ((below_cancelPendingZenzConversion _).trans htake)
      · exact sound_of_below hs ((below_pendingConversion (Or.inr ⟨_, rfl⟩)).trans htake)
    | some taken =>
      obtain ⟨job, response⟩ := taken
      simp only [htaken, pendingConversion_takeResult]
      refine ⟨?_, answersRight_adopt hs hwaiting (stored_of_takeResult htaken).1 finish⟩
      split
      · exact ((below_cancelPendingZenzConversion _).trans htake).invariant hs
      · exact ((below_pendingConversion (Or.inl rfl)).trans htake).invariant hs

theorem sound_applyZenzConversion (hs : s.Invariant)
    (finish : PendingZenz → ZenzConversionResponse → Option Bytes) (callback : Callback) (now : Nat)
    (hclear : s.Clear (.applyZenzConversion finish callback now)) :
    Sound (s.applyZenzConversion finish callback now) := by
  unfold applyZenzConversion
  by_cases hcurrent : s.isCurrentCallback s.pendingConversion callback
      && s.view.state = .conversion
  · rw [if_pos hcurrent]
    have hcurrent' := hcurrent
    rw [Bool.and_eq_true] at hcurrent
    have hpending := pending_of_current hcurrent.1
    cases hsubmitted : s.pendingConversion.submitted with
    | false =>
      have hfree : s.Free s.pendingConversion :=
        hclear _ (by rw [submission, hcurrent', hsubmitted]; rfl)
      exact sound_advance_unsubmitted hs rfl rfl hsubmitted
        (hs.keyed _ (mem_entries_conversion s) hpending) hfree finish now
    | true =>
      exact sound_advance_submitted hs ⟨mem_entries_conversion s, hpending, hsubmitted⟩ finish now
  · rw [if_neg hcurrent]
    exact sound_of_below hs (Below.refl s)

theorem sound_maybeScheduleZenzConversion (hs : s.Invariant) (prepared : Option Prepared)
    (now : Nat) (hclear : s.Clear (.maybeScheduleZenzConversion prepared now)) :
    Sound (s.maybeScheduleZenzConversion prepared now) := by
  cases prepared with
  | none => exact sound_of_below hs (Below.refl s)
  | some prepared =>
    unfold maybeScheduleZenzConversion
    by_cases hallowed : s.view.allowsRequest && s.view.state = .conversion
    · simp only [if_pos hallowed]
      have hfree := hclear _ (if_pos hallowed)
      rw [Bool.and_eq_true] at hallowed
      refine sound_advance_unsubmitted hs ?_ ?_ ?_ ?_ ?_ _ now
      · rfl
      · rfl
      · rfl
      · exact query_ne_nil hallowed.1
      · exact hfree
    · simp only [if_neg hallowed]
      exact sound_of_below hs (Below.refl s)

/-- **ONE EVENT** keeps the invariant and adopts only right answers. -/
theorem invariant_step (hs : s.Invariant) (event : Event) (hclear : s.Clear event) :
    Sound (s.step event) := by
  cases event with
  | change view => exact sound_of_below hs (below_change s view)
  | cancelPendingZenzConversion => exact sound_of_below hs (below_cancelPendingZenzConversion s)
  | clearZenzConversionState => exact sound_of_below hs (below_cancelPendingZenzConversion s)
  | resetZenzSuggestion => exact sound_of_below hs (below_resetZenzSuggestion s)
  | suggest suggested prepared now =>
    exact sound_of_below hs (below_suggest s suggested prepared now)
  | applyZenzFeedbackConversion => exact sound_of_below hs (below_applyZenzFeedbackConversion s)
  | output => exact sound_of_below hs (below_output s)
  | maybeScheduleZenzConversion prepared now =>
    exact sound_maybeScheduleZenzConversion hs prepared now hclear
  | applyZenzSuggestion finish callback now =>
    exact sound_applyZenzSuggestion hs finish callback now hclear
  | applyZenzConversion finish callback now =>
    exact sound_applyZenzConversion hs finish callback now hclear
  | workerTake => exact sound_of_below hs (below_workerTake s)
  | workerStore answer => exact sound_of_below hs (below_workerStore s answer)

end Session

/-! ## Whole runs -/

namespace Session

theorem invariant_initial (view : View) : (initial view).Invariant where
  agrees := by rintro entry - job ⟨service, h, -⟩; cases h
  faithful := by rintro job ⟨service, h, -⟩; cases h
  echoed := by rintro job response ⟨service, h, -⟩; cases h
  keyed := by
    intro entry hentry hpending
    rcases mem_entries.mp hentry with rfl | rfl <;> cases hpending

/-- Every adopted answer was computed for the question of the entry that adopts it. -/
def AdoptsRight (s : Session) (event : Event) : Prop :=
  ∀ adoption, (s.step event).2.adopted = some adoption →
    adoption.job.entry.question = adoption.entry.question

/-- **ANSWERS ARE USED FOR THEIR QUESTIONS** in every run in which no request is sent while one
    of the same generation and key, but of another question, is being computed or waited for. -/
theorem answers_faithful (view : View) (events : List Event)
    (hclear : Always Clear (initial view) events) : Always AdoptsRight (initial view) events :=
  always_of_step (I := Invariant) (C := Clear)
    (fun _ event hs hevent => invariant_step hs event hevent) events _
    (invariant_initial view) hclear

theorem free_initial (view : View) (entry : PendingZenz) : (initial view).Free entry := by
  refine ⟨?_, ?_⟩
  · rintro job ⟨service, h, -⟩
    cases h
  · rintro other ⟨hother, hpending, -⟩
    rcases mem_entries.mp hother with rfl | rfl <;> cases hpending

/-- A conversion is sent and computed. -/
def answered : List Event :=
  [.maybeScheduleZenzConversion (some sampleConversion) 0, .workerTake,
    .workerStore ⟨[0xE8, 0x97, 0x8D], true, false⟩]

/-- The callback that polls for it. -/
def poll : Event :=
  .applyZenzConversion (fun _ response => some response.answer.value) ⟨some 1, some sampleKey⟩ 24

/-- The answer is adopted, and is the right one. -/
theorem answers_faithful_conversion :
    Always AdoptsRight (initial (sampleView .conversion sampleKey)) (answered ++ [poll]) ∧
      (((initial (sampleView .conversion sampleKey)).run answered).step poll).2.adopted
        ≠ .none :=
  ⟨answers_faithful _ _ ⟨fun _ _ => free_initial _ _, (by rintro _ ⟨⟩), (by rintro _ ⟨⟩),
    (by rintro _ ⟨⟩), trivial⟩, by decide⟩

/-- `あ`, `い`, space, escape and a cursor key, and the callbacks of the suggestion, while the
    worker answers the conversion. -/
def mixedUp : List Event :=
  [
    -- `あ`
    .change (sampleView .precomposition [0xE3, 0x81, 0x82]), .clearZenzConversionState,
    .change (sampleView .composition [0xE3, 0x81, 0x82]), .suggest true (some sampleSuggestion) 0,
    .output, .clearZenzConversionState,
    -- `い`
    .change (sampleView .composition sampleKey), .suggest true (some sampleSuggestion) 100,
    .output, .clearZenzConversionState,
    -- the conversion is sent with generation five
    .cancelPendingZenzConversion, .resetZenzSuggestion, .change (sampleView .conversion sampleKey),
    .output, .maybeScheduleZenzConversion (some sampleConversion) 200, .workerTake,
    -- and cancelled, and the reading is suggested for
    .cancelPendingZenzConversion, .clearZenzConversionState,
    .change (sampleView .composition sampleKey), .suggest true (some sampleSuggestion) 300,
    .output, .clearZenzConversionState,
    -- the suggestion of the cursor key has generation five, too
    .suggest true (some sampleSuggestion) 400, .output, .clearZenzConversionState,
    .applyZenzSuggestion (fun _ response => some response.answer.value) sampleCallback 500,
    -- the worker answers the conversion
    .workerStore ⟨[0xE8, 0x97, 0x8D], true, false⟩]

/-- The suggestion adopts what was computed for the conversion. -/
theorem answers_mixed_up :
    ¬ Always AdoptsRight (initial (sampleView .precomposition []))
      (mixedUp ++ [.applyZenzSuggestion (fun _ response => some response.answer.value)
        sampleCallback 524]) := by
  intro h
  have hlast := Always.last mixedUp h
  obtain ⟨adoption, hadopted, hwrong⟩ : ∃ adoption, (((initial (sampleView .precomposition [])).run
      mixedUp).step (.applyZenzSuggestion (fun _ response => some response.answer.value)
        sampleCallback 524)).2.adopted = some adoption ∧
      adoption.job.entry.question ≠ adoption.entry.question := by
    exact ⟨_, rfl, by decide⟩
  exact hwrong (hlast adoption hadopted)

end Session

end MozkeyZenzRequest
