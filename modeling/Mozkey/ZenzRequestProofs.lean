import Mozkey.AdoptionPolicyProofs
import Mozkey.Utf8Proofs

/-! # Session — requests to the Zenz model and their answers

    A session has one worker for two kinds of questions: suggestions, which are sent by a
    callback some time after they were scheduled, and conversions, which are sent at once.
    Each kind counts its own generations.  The worker keeps the latest request and the latest
    answer; an answer is taken by its generation, and its key is compared.

    A command is a sequence of the events below; the worker's two steps may come between any
    two of them.  What a request was made for is carried along with it and read by nobody. -/

namespace MozkeyZenzRequest

open ByteString MozkeyAdoption

/-! ## What is sent and answered -/

/-- The states of a session. -/
inductive State where
  | none | direct | precomposition | composition | conversion
  deriving DecidableEq

/-- `Context::InputFieldType`. -/
inductive InputFieldType where
  | normal | password | tel | number
  deriving DecidableEq

/-- What the code below reads of the context and of the configuration. -/
structure View where
  useZenzConversion : Bool
  timeoutMsec : Nat
  state : State
  inputFieldType : InputFieldType
  /-- `GetQueryForConversion`. -/
  query : Bytes
  deriving DecidableEq

/-- What an answer is an answer to. -/
structure Question where
  prompt : Bytes
  mozcValue : Bytes
  protectedSpans : List ProtectedConversionSpan
  deriving DecidableEq

/-- What is read off the converter, the client's context and the prompt builder. -/
structure Prepared where
  question : Question
  leftContext : Bytes
  contextClass : Bytes
  deriving DecidableEq

/-- `PendingZenzConversion` and `PendingZenzSuggestion`. -/
structure PendingZenz where
  generation : UInt32
  key : Bytes
  question : Question
  leftContext : Bytes
  contextClass : Bytes
  issuedAt : Nat
  pending : Bool
  submitted : Bool
  pollCount : Nat
  deriving DecidableEq

/-- Nothing is pending. -/
def PendingZenz.empty : PendingZenz :=
  { generation := 0, key := [], question := ⟨[], [], []⟩, leftContext := [], contextClass := []
    issuedAt := 0, pending := false, submitted := false, pollCount := 0 }

/-- `ZenzConversionRequest`. -/
structure ZenzConversionRequest where
  generation : UInt32
  key : Bytes
  prompt : Bytes
  leftContext : Bytes
  mozcValue : Bytes
  timeoutMsec : Nat
  issuedAt : Nat
  deriving DecidableEq

/-- What the client answers besides echoing the generation and the key. -/
structure Answer where
  value : Bytes
  ok : Bool
  timeout : Bool
  deriving DecidableEq

/-- `ZenzConversionResponse`. -/
structure ZenzConversionResponse where
  generation : UInt32
  key : Bytes
  answer : Answer
  deriving DecidableEq

/-- A request together with the entry it was made for. -/
structure Job where
  request : ZenzConversionRequest
  entry : PendingZenz
  deriving DecidableEq

/-- The response of a client that echoes the generation and the key. -/
def Job.respond (job : Job) (answer : Answer) : ZenzConversionResponse :=
  { generation := job.request.generation, key := job.request.key, answer }

/-! ## The service -/

/-- `ZenzConversionService`; `running` is the request that `WorkerLoop` has moved out. -/
structure ZenzConversionService where
  latestRequest : Option Job
  latestResult : Option (Job × ZenzConversionResponse)
  running : Option Job
  deriving DecidableEq

namespace ZenzConversionService

/-- A service without work. -/
def new : ZenzConversionService := ⟨.none, .none, .none⟩

/-- A job waits for the worker, in the place of any other. -/
def submit (service : ZenzConversionService) (job : Job) : ZenzConversionService :=
  { service with latestRequest := some job, latestResult := .none }

/-- The job that waits is dropped. -/
def cancelPending (service : ZenzConversionService) : ZenzConversionService :=
  { service with latestRequest := .none, latestResult := .none }

/-- The result of a generation is taken, once. -/
def takeResult (service : ZenzConversionService) (generation : UInt32) :
    Option (Job × ZenzConversionResponse) × ZenzConversionService :=
  match service.latestResult with
  | .none => (.none, service)
  | some (job, response) =>
    (if response.generation ≠ generation then .none else some (job, response),
      { service with latestResult := .none })

/-- The worker takes the queued request. -/
def workerTake (service : ZenzConversionService) : ZenzConversionService :=
  match service.running, service.latestRequest with
  | .none, some job => { service with latestRequest := .none, running := some job }
  | _, _ => service

/-- The worker stores the response to the request it has taken. -/
def workerStore (service : ZenzConversionService) (answer : Answer) : ZenzConversionService :=
  match service.running with
  | .none => service
  | some job =>
    { service with latestResult := some (job, job.respond answer), running := .none }

end ZenzConversionService

/-! ## The session -/

/-- The part of `Session` that deals with requests. -/
structure Session where
  view : View
  conversionGeneration : UInt32
  pendingConversion : PendingZenz
  suggestionGeneration : UInt32
  pendingSuggestion : PendingZenz
  service : Option ZenzConversionService
  deriving DecidableEq

/-- A session before its first command. -/
def Session.initial (view : View) : Session :=
  { view, conversionGeneration := 0, pendingConversion := .empty, suggestionGeneration := 0
    pendingSuggestion := .empty, service := .none }

/-- An answer that is adopted for an entry. -/
structure Adoption where
  entry : PendingZenz
  job : Job
  value : Bytes
  deriving DecidableEq

/-- What a step does besides changing the session: the entry it submits a request for, and the
    answer it adopts. -/
structure Effect where
  submitted : Option PendingZenz
  adopted : Option Adoption
  deriving DecidableEq

/-- A step that neither submits nor adopts. -/
def Effect.quiet : Effect := ⟨.none, .none⟩

/-- The generation and the key that a callback carries, if it does. -/
structure Callback where
  generation : Option UInt32
  key : Option Bytes
  deriving DecidableEq

/-- The shortest key, and the times in milliseconds. -/
def kMinimumZenzConversionKeyLength : Nat := 2

/-- How often an answer is asked for. -/
def kDefaultZenzConversionPollMsec : Nat := 24

/-- How long an answer is waited for. -/
def kZenzConversionAsyncWaitMsec : Nat := 3000

/-- The states in which suggestions are shown. -/
def View.suggesting (view : View) : Bool :=
  view.state = .composition ∨ view.state = .precomposition

/-- The checks on the setting, the field and the key that both schedulers make. -/
def View.allowsRequest (view : View) : Bool :=
  view.useZenzConversion && view.inputFieldType ≠ .password && view.query ≠ []
    && kMinimumZenzConversionKeyLength ≤ MozkeyUtil.charsLen view.query

/-- The request for an entry. -/
def requestOf (view : View) (entry : PendingZenz) : ZenzConversionRequest :=
  { generation := entry.generation, key := entry.key, prompt := entry.question.prompt
    leftContext := entry.leftContext, mozcValue := entry.question.mozcValue
    timeoutMsec := view.timeoutMsec, issuedAt := entry.issuedAt }

/-- A new entry for the current key. -/
def newEntry (view : View) (generation : UInt32) (prepared : Prepared) (now : Nat) : PendingZenz :=
  { generation, key := view.query, question := prepared.question
    leftContext := prepared.leftContext, contextClass := prepared.contextClass, issuedAt := now
    pending := true, submitted := false, pollCount := 0 }

namespace Session

/-- `EnsureZenzConversionService()->Submit` of the request for an entry. -/
def submit (s : Session) (entry : PendingZenz) : Session :=
  let job : Job := { request := requestOf s.view entry, entry }
  { s with service := some ((s.service.getD .new).submit job) }

/-- `CancelPendingZenzConversion`. -/
def cancelPendingZenzConversion (s : Session) : Session :=
  { s with
    conversionGeneration := s.conversionGeneration + 1
    pendingConversion := .empty
    service := s.service.map .cancelPending }

/-- `ClearZenzConversionState`; the visible conversion is not part of this session. -/
def clearZenzConversionState (s : Session) : Session := s.cancelPendingZenzConversion

/-- The first lines of `Suggest`, `CommitZenzSuggestion` and `ConvertInternal`. -/
def resetZenzSuggestion (s : Session) : Session :=
  { s with suggestionGeneration := s.suggestionGeneration + 1, pendingSuggestion := .empty }

/-- `MaybeScheduleZenzSuggestion`; `prepared` is missing where there is no value or privacy
    forbids the request. -/
def maybeScheduleZenzSuggestion (s : Session) (prepared : Option Prepared) (now : Nat) : Session :=
  match prepared with
  | .none => s
  | some prepared =>
    if s.view.allowsRequest && s.view.suggesting then
      { s with pendingSuggestion := newEntry s.view s.suggestionGeneration prepared now }
    else s

/-- A suggestion is prepared, and Zenz is asked later. -/
def suggest (s : Session) (suggested : Bool) (prepared : Option Prepared) (now : Nat) : Session :=
  let s := s.resetZenzSuggestion
  if suggested then s.maybeScheduleZenzSuggestion prepared now else s

/-- `MaybeApplyZenzFeedbackConversion` where it shows a stored conversion. -/
def applyZenzFeedbackConversion (s : Session) : Session :=
  { s with conversionGeneration := s.conversionGeneration + 1, pendingConversion := .empty }

/-- `Output`: a pending suggestion stays while it is still the current one. -/
def output (s : Session) : Session :=
  if s.pendingSuggestion.pending then
    if s.view.useZenzConversion && s.view.suggesting
        && s.pendingSuggestion.key = s.view.query then s
    else s.resetZenzSuggestion
  else s

/-- The part of a callback's check that is common to both kinds. -/
def isCurrentCallback (s : Session) (entry : PendingZenz) (callback : Callback) : Bool :=
  entry.pending && s.view.query = entry.key && callback.generation = some entry.generation
    && callback.key = some entry.key

/-- The check on a response before it is used. -/
def isResponseFor (response : ZenzConversionResponse) (entry : PendingZenz) : Bool :=
  response.answer.ok && !response.answer.timeout && response.generation = entry.generation
    && (response.key = [] || response.key = entry.key)

/-- `TakeResult` of the session's service. -/
def takeResult (s : Session) (generation : UInt32) :
    Option (Job × ZenzConversionResponse) × Session :=
  match s.service with
  | .none => (.none, s)
  | some service =>
    ((service.takeResult generation).1,
      { s with service := some (service.takeResult generation).2 })

section

-- what restoring, validating and deciding make of a response; `none` where it is refused
variable (finish : PendingZenz → ZenzConversionResponse → Option Bytes)

/-- What becomes of a response that is taken for an entry. -/
def adopt (entry : PendingZenz) (job : Job) (response : ZenzConversionResponse) : Effect :=
  if isResponseFor response entry then
    { submitted := .none, adopted := (finish entry response).map fun value => ⟨entry, job, value⟩ }
  else .quiet

/-- The delay is over. -/
def applyZenzSuggestion (s : Session) (callback : Callback) (now : Nat) : Session × Effect :=
  if s.isCurrentCallback s.pendingSuggestion callback && s.view.suggesting then
    if s.pendingSuggestion.submitted = false then
      let entry := { s.pendingSuggestion with submitted := true, issuedAt := now }
      ((({ s with pendingSuggestion := entry } : Session).submit entry).output,
        { submitted := some entry, adopted := .none })
    else
      let (taken, s) := s.takeResult s.pendingSuggestion.generation
      match taken with
      | .none =>
        let pollCount := s.pendingSuggestion.pollCount + 1
        let maxPollCount := max 1 (s.view.timeoutMsec / kDefaultZenzConversionPollMsec + 2)
        if s.view.timeoutMsec ≤ now - s.pendingSuggestion.issuedAt ∨ maxPollCount ≤ pollCount then
          (({ s with pendingSuggestion := .empty } : Session).output, .quiet)
        else
          (({ s with pendingSuggestion := { s.pendingSuggestion with pollCount } } :
            Session).output, .quiet)
      | some (job, response) =>
        (({ s with pendingSuggestion := .empty } : Session).output,
          adopt finish s.pendingSuggestion job response)
  else (s, .quiet)

/-- The answer is looked for. -/
def advancePendingZenzConversion (s : Session) (now : Nat) : Session × Effect :=
  if s.pendingConversion.submitted = false then
    let entry := { s.pendingConversion with submitted := true, issuedAt := now, pollCount := 0 }
    (({ s with pendingConversion := entry } : Session).submit entry,
      { submitted := some entry, adopted := .none })
  else if s.service = .none then (s.cancelPendingZenzConversion, .quiet)
  else
    let (taken, s) := s.takeResult s.pendingConversion.generation
    match taken with
    | some (job, response) =>
      let effect := adopt finish s.pendingConversion job response
      let entry := { s.pendingConversion with pending := false }
      (if effect.adopted = .none then s.cancelPendingZenzConversion
        else { s with pendingConversion := entry }, effect)
    | .none =>
      let pollCount := s.pendingConversion.pollCount + 1
      let asyncWaitMsec := max s.view.timeoutMsec kZenzConversionAsyncWaitMsec
      let maxPollCount := max 1 (asyncWaitMsec / kDefaultZenzConversionPollMsec + 2)
      if asyncWaitMsec ≤ now - s.pendingConversion.issuedAt ∨ maxPollCount ≤ pollCount then
        (s.cancelPendingZenzConversion, .quiet)
      else
        ({ s with pendingConversion := { s.pendingConversion with pollCount } }, .quiet)

/-- `ApplyZenzConversion`. -/
def applyZenzConversion (s : Session) (callback : Callback) (now : Nat) : Session × Effect :=
  if s.isCurrentCallback s.pendingConversion callback && s.view.state = .conversion then
    s.advancePendingZenzConversion finish now
  else (s, .quiet)

end

/-- Zenz is asked for a conversion. -/
def maybeScheduleZenzConversion (s : Session) (prepared : Option Prepared) (now : Nat) :
    Session × Effect :=
  match prepared with
  | .none => (s, .quiet)
  | some prepared =>
    if s.view.allowsRequest && s.view.state = .conversion then
      let generation := s.conversionGeneration + 1
      ({ s with
          conversionGeneration := generation
          pendingConversion := newEntry s.view generation prepared now } :
        Session).advancePendingZenzConversion (fun _ _ => .none) now
    else (s, .quiet)

/-! ## Runs -/

/-- What can happen between two states: a command is a sequence of these. -/
inductive Event where
  | change (view : View)
  | cancelPendingZenzConversion
  | clearZenzConversionState
  | resetZenzSuggestion
  | suggest (suggested : Bool) (prepared : Option Prepared) (now : Nat)
  | applyZenzFeedbackConversion
  | output
  | maybeScheduleZenzConversion (prepared : Option Prepared) (now : Nat)
  | applyZenzSuggestion (finish : PendingZenz → ZenzConversionResponse → Option Bytes)
      (callback : Callback) (now : Nat)
  | applyZenzConversion (finish : PendingZenz → ZenzConversionResponse → Option Bytes)
      (callback : Callback) (now : Nat)
  | workerTake
  | workerStore (answer : Answer)

/-- One event. -/
def step (s : Session) : Event → Session × Effect
  | .change view => ({ s with view }, .quiet)
  | .cancelPendingZenzConversion => (s.cancelPendingZenzConversion, .quiet)
  | .clearZenzConversionState => (s.clearZenzConversionState, .quiet)
  | .resetZenzSuggestion => (s.resetZenzSuggestion, .quiet)
  | .suggest suggested prepared now => (s.suggest suggested prepared now, .quiet)
  | .applyZenzFeedbackConversion => (s.applyZenzFeedbackConversion, .quiet)
  | .output => (s.output, .quiet)
  | .maybeScheduleZenzConversion prepared now => s.maybeScheduleZenzConversion prepared now
  | .applyZenzSuggestion finish callback now => s.applyZenzSuggestion finish callback now
  | .applyZenzConversion finish callback now => s.applyZenzConversion finish callback now
  | .workerTake => ({ s with service := s.service.map .workerTake }, .quiet)
  | .workerStore answer =>
    ({ s with service := s.service.map fun service => service.workerStore answer }, .quiet)

/-- `P` holds of every event of a run and of the state before it. -/
def Always (P : Session → Event → Prop) : Session → List Event → Prop
  | _, [] => True
  | s, event :: events => P s event ∧ Always P (s.step event).1 events

/-- **RUN INDUCTION**: an invariant that every event keeps under a condition, and that makes
    every event good, makes a run good whose events all meet the condition. -/
theorem always_of_step {I : Session → Prop} {C G : Session → Event → Prop}
    (hstep : ∀ s event, I s → C s event → I (s.step event).1 ∧ G s event)
    (events : List Event) : ∀ s, I s → Always C s events → Always G s events := by
  induction events with
  | nil => intro _ _ _; trivial
  | cons event events ih =>
    rintro s hs ⟨hevent, hrest⟩
    obtain ⟨hnext, hgood⟩ := hstep s event hs hevent
    exact ⟨hgood, ih _ hnext hrest⟩

/-- The state after a run. -/
def run (s : Session) : List Event → Session
  | [] => s
  | event :: events => (s.step event).1.run events

theorem Always.last {P : Session → Event → Prop} {event : Event} :
    ∀ {s : Session} (events : List Event), Always P s (events ++ [event]) →
      P (s.run events) event
  | _, [], h => h.1
  | _, _ :: events, h => Always.last events h.2

@[simp] theorem pendingConversion_takeResult (s : Session) (generation : UInt32) :
    (s.takeResult generation).2.pendingConversion = s.pendingConversion := by
  unfold takeResult
  split <;> rfl

@[simp] theorem pendingSuggestion_takeResult (s : Session) (generation : UInt32) :
    (s.takeResult generation).2.pendingSuggestion = s.pendingSuggestion := by
  unfold takeResult
  split <;> rfl

@[simp] theorem view_takeResult (s : Session) (generation : UInt32) :
    (s.takeResult generation).2.view = s.view := by
  unfold takeResult
  split <;> rfl

theorem pending_of_current {s : Session} {entry : PendingZenz} {callback : Callback}
    (h : s.isCurrentCallback entry callback) : entry.pending = true := by
  simp only [isCurrentCallback, Bool.and_eq_true] at h
  exact h.1.1.1

theorem query_of_current {s : Session} {entry : PendingZenz} {callback : Callback}
    (h : s.isCurrentCallback entry callback) : s.view.query = entry.key := by
  simp only [isCurrentCallback, Bool.and_eq_true, decide_eq_true_eq] at h
  exact h.1.1.2

theorem query_ne_nil {view : View} (h : view.allowsRequest) : view.query ≠ [] := by
  simp only [View.allowsRequest, Bool.and_eq_true, decide_eq_true_eq] at h
  exact h.1.2

/-- `あい`. -/
def sampleKey : Bytes := [0xE3, 0x81, 0x82, 0xE3, 0x81, 0x84]

/-- What the composer holds after a part of the reading has been typed. -/
def sampleView (state : State) (query : Bytes) : View :=
  { useZenzConversion := true, timeoutMsec := 800, state, inputFieldType := .normal, query }

/-- The conversion of the reading, as Mozc has it. -/
def sampleConversion : Prepared := ⟨⟨sampleKey, [0xE6, 0x84, 0x9B], []⟩, [], []⟩

/-- The first suggestion for it. -/
def sampleSuggestion : Prepared :=
  ⟨⟨sampleKey, [0xE3, 0x81, 0x82, 0xE3, 0x81, 0x84, 0xE3, 0x81, 0xA0], []⟩, [], []⟩

/-- A callback of generation five for the reading. -/
def sampleCallback : Callback := ⟨some 5, some sampleKey⟩

end Session

/-! ## Where requests may be sent -/

/-- The setting is on, and the field is not one for passwords. -/
def View.Permits (view : View) : Prop :=
  view.useZenzConversion = true ∧ view.inputFieldType ≠ .password

instance (view : View) : Decidable view.Permits := inferInstanceAs (Decidable (_ ∧ _))

namespace Session

/-- A suggestion has been scheduled and its request has not been sent. -/
def Debouncing (s : Session) : Prop :=
  s.pendingSuggestion.pending = true ∧ s.pendingSuggestion.submitted = false

/-- A request is sent where it may be, and for the current key. -/
def SubmitsAllowed (s : Session) (event : Event) : Prop :=
  ∀ entry, (s.step event).2.submitted = some entry →
    s.view.Permits ∧ entry.key = s.view.query

/-- A change of the setting or of the field does not come between scheduling a suggestion and
    sending its request. -/
def ViewKept (s : Session) (event : Event) : Prop :=
  ∀ view, event = .change view → s.Debouncing → view.Permits

/-- Conversions have been sent, and suggestions may be. -/
structure Permitted (s : Session) : Prop where
  conversion : s.pendingConversion.pending = true → s.pendingConversion.submitted = true
  suggestion : s.Debouncing → s.view.Permits

theorem permits_of_allowsRequest {view : View} (h : view.allowsRequest) : view.Permits := by
  simp only [View.allowsRequest, Bool.and_eq_true, decide_eq_true_eq] at h
  exact h.1.1

variable {s : Session}

theorem permitted_resetZenzSuggestion (hs : s.Permitted) :
    s.resetZenzSuggestion.Permitted where
  conversion := hs.conversion
  suggestion := by rintro ⟨hpending, -⟩; cases hpending

theorem permitted_cancelPendingZenzConversion (hs : s.Permitted) :
    s.cancelPendingZenzConversion.Permitted where
  conversion := by rintro ⟨⟩
  suggestion := hs.suggestion

theorem permitted_output (hs : s.Permitted) : s.output.Permitted := by
  unfold output
  split
  · split
    · exact hs
    · exact permitted_resetZenzSuggestion hs
  · exact hs

theorem permitted_suggest (hs : s.Permitted) (suggested : Bool) (prepared : Option Prepared)
    (now : Nat) : (s.suggest suggested prepared now).Permitted := by
  have hreset := permitted_resetZenzSuggestion hs
  cases suggested with
  | false => exact hreset
  | true =>
    cases prepared with
    | none => exact hreset
    | some prepared =>
      by_cases hallowed : s.view.allowsRequest && s.view.suggesting
      · have hscheduled : s.suggest true (some prepared) now =
            { s.resetZenzSuggestion with
              pendingSuggestion :=
                newEntry s.view (s.suggestionGeneration + 1) prepared now } := if_pos hallowed
        rw [hscheduled]
        rw [Bool.and_eq_true] at hallowed
        exact ⟨hs.conversion, fun _ => permits_of_allowsRequest hallowed.1⟩
      · have hskipped : s.suggest true (some prepared) now = s.resetZenzSuggestion :=
          if_neg hallowed
        rw [hskipped]
        exact hreset

theorem permitted_pendingSuggestion {s' : Session} (hs : s.Permitted) {entry : PendingZenz}
    (hconversion : s'.pendingConversion = s.pendingConversion)
    (h : entry.pending = true → entry.submitted = true) :
    ({ s' with pendingSuggestion := entry } : Session).Permitted where
  conversion := by
    show s'.pendingConversion.pending = true → s'.pendingConversion.submitted = true
    rw [hconversion]
    exact hs.conversion
  suggestion := by
    rintro ⟨hpending, hsubmitted⟩
    exact absurd ((h hpending).symm.trans hsubmitted) (by simp)

/-- What a step that stays permitted and sends where it may leads to. -/
def Allowed (s : Session) (result : Session × Effect) : Prop :=
  result.1.Permitted ∧ ∀ entry, result.2.submitted = some entry →
    s.view.Permits ∧ entry.key = s.view.query

theorem allowed_quiet {s' : Session} (h : s'.Permitted) : s.Allowed (s', .quiet) :=
  ⟨h, by rintro entry ⟨⟩⟩

theorem submitted_adopt (finish : PendingZenz → ZenzConversionResponse → Option Bytes)
    (entry : PendingZenz) (job : Job) (response : ZenzConversionResponse) :
    (adopt finish entry job response).submitted = .none := by
  unfold adopt
  split <;> rfl

theorem allowed_applyZenzSuggestion (hs : s.Permitted)
    (finish : PendingZenz → ZenzConversionResponse → Option Bytes) (callback : Callback)
    (now : Nat) : s.Allowed (s.applyZenzSuggestion finish callback now) := by
  unfold applyZenzSuggestion
  by_cases hcurrent : s.isCurrentCallback s.pendingSuggestion callback && s.view.suggesting
  · rw [if_pos hcurrent]
    rw [Bool.and_eq_true] at hcurrent
    have hpending := pending_of_current hcurrent.1
    by_cases hsubmitted : s.pendingSuggestion.submitted = false
    · rw [if_pos hsubmitted]
      refine ⟨permitted_output ⟨hs.conversion, ?_⟩, ?_⟩
      · rintro ⟨-, hnot⟩
        cases hnot
      · rintro entry ⟨⟩
        exact ⟨hs.suggestion ⟨hpending, hsubmitted⟩, (query_of_current hcurrent.1).symm⟩
    · rw [if_neg hsubmitted]
      cases htaken : (s.takeResult s.pendingSuggestion.generation).1 with
      | none =>
        simp only [htaken]
        split
        · refine allowed_quiet (permitted_output ?_)
          exact permitted_pendingSuggestion hs (pendingConversion_takeResult s _) (by rintro ⟨⟩)
        · refine allowed_quiet (permitted_output ?_)
          refine permitted_pendingSuggestion hs (pendingConversion_takeResult s _) ?_
          intro _
          simpa using hsubmitted
      | some taken =>
        simp only [htaken]
        refine ⟨?_, ?_⟩
        · dsimp only
          refine permitted_output ?_
          exact permitted_pendingSuggestion hs (pendingConversion_takeResult s _) (by rintro ⟨⟩)
        · intro entry h
          rw [submitted_adopt] at h
          cases h
  · rw [if_neg hcurrent]
    exact allowed_quiet hs

theorem allowed_advance_submitted (hs : s.Permitted)
    (hsubmitted : s.pendingConversion.submitted = true)
    (finish : PendingZenz → ZenzConversionResponse → Option Bytes) (now : Nat) :
    s.Allowed (s.advancePendingZenzConversion finish now) := by
  have htake : ∀ generation, (s.takeResult generation).2.Permitted := by
    intro generation
    refine ⟨by simpa using hs.conversion, ?_⟩
    intro hdebouncing
    rw [view_takeResult]
    exact hs.suggestion (by simpa [Debouncing] using hdebouncing)
  unfold advancePendingZenzConversion
  rw [if_neg (by simp [hsubmitted])]
  split
  · exact allowed_quiet (permitted_cancelPendingZenzConversion hs)
  · cases htaken : (s.takeResult s.pendingConversion.generation).1 with
    | none =>
      simp only [htaken]
      split
      · exact allowed_quiet (permitted_cancelPendingZenzConversion (htake _))
      · exact allowed_quiet ⟨fun hpending => (htake _).conversion hpending, (htake _).suggestion⟩
    | some taken =>
      simp only [htaken]
      refine ⟨?_, ?_⟩
      · dsimp only
        split
        · exact permitted_cancelPendingZenzConversion (htake _)
        · exact ⟨by rintro ⟨⟩, (htake _).suggestion⟩
      · intro entry h
        rw [submitted_adopt] at h
        cases h

theorem allowed_maybeScheduleZenzConversion (hs : s.Permitted) (prepared : Option Prepared)
    (now : Nat) :
    s.Allowed (s.maybeScheduleZenzConversion prepared now) := by
  cases prepared with
  | none => exact allowed_quiet hs
  | some prepared =>
    unfold maybeScheduleZenzConversion
    by_cases hallowed : s.view.allowsRequest && s.view.state = .conversion
    · simp only [if_pos hallowed]
      rw [Bool.and_eq_true] at hallowed
      -- a new entry is sent at once
      refine ⟨⟨fun _ => rfl, hs.suggestion⟩, ?_⟩
      rintro entry ⟨⟩
      exact ⟨permits_of_allowsRequest hallowed.1, rfl⟩
    · simp only [if_neg hallowed]
      exact allowed_quiet hs

/-- **ONE EVENT** sends a request only where it may. -/
theorem allowed_step (hs : s.Permitted) (event : Event) (hkept : s.ViewKept event) :
    s.Allowed (s.step event) := by
  cases event with
  | change view => exact allowed_quiet ⟨hs.conversion, hkept view rfl⟩
  | cancelPendingZenzConversion => exact allowed_quiet (permitted_cancelPendingZenzConversion hs)
  | clearZenzConversionState => exact allowed_quiet (permitted_cancelPendingZenzConversion hs)
  | resetZenzSuggestion => exact allowed_quiet (permitted_resetZenzSuggestion hs)
  | suggest suggested prepared now =>
    exact allowed_quiet (permitted_suggest hs suggested prepared now)
  | applyZenzFeedbackConversion => exact allowed_quiet ⟨by rintro ⟨⟩, hs.suggestion⟩
  | output => exact allowed_quiet (permitted_output hs)
  | maybeScheduleZenzConversion prepared now =>
    exact allowed_maybeScheduleZenzConversion hs prepared now
  | applyZenzSuggestion finish callback now =>
    exact allowed_applyZenzSuggestion hs finish callback now
  | applyZenzConversion finish callback now =>
    show s.Allowed (s.applyZenzConversion finish callback now)
    unfold applyZenzConversion
    split
    next hcurrent =>
      rw [Bool.and_eq_true] at hcurrent
      have hpending := pending_of_current hcurrent.1
      exact allowed_advance_submitted hs (hs.conversion hpending) finish now
    next => exact allowed_quiet hs
  | workerTake => exact allowed_quiet ⟨hs.conversion, hs.suggestion⟩
  | workerStore answer => exact allowed_quiet ⟨hs.conversion, hs.suggestion⟩

/-- **REQUESTS ARE SENT WHERE THEY MAY BE** in every run in which neither the setting is turned
    off nor a password field entered while a suggestion waits to be sent. -/
theorem submits_allowed (view : View) (events : List Event)
    (hkept : Always ViewKept (initial view) events) :
    Always SubmitsAllowed (initial view) events :=
  always_of_step (I := Permitted) (C := ViewKept)
    (fun _ event hs hevent => allowed_step hs event hevent) events _
    ⟨by rintro ⟨⟩, by rintro ⟨⟨⟩, -⟩⟩ hkept

/-- A suggestion is scheduled. -/
def scheduled : List Event := [.suggest true (some sampleSuggestion) 0, .output]

/-- The callback that sends the request. -/
def debounced : Event :=
  .applyZenzSuggestion (fun _ response => some response.answer.value) ⟨some 1, some sampleKey⟩ 250

/-- The request of the suggestion is sent where it may be. -/
theorem submits_allowed_suggestion :
    Always SubmitsAllowed (initial (sampleView .composition sampleKey))
        (scheduled ++ [debounced]) ∧
      (((initial (sampleView .composition sampleKey)).run scheduled).step debounced).2.submitted
        ≠ .none :=
  ⟨submits_allowed _ _ ⟨(by rintro _ ⟨⟩), (by rintro _ ⟨⟩), (by rintro _ ⟨⟩), trivial⟩, by decide⟩

/-- The field becomes one for passwords before the callback comes. -/
def fieldSwitched : List Event :=
  scheduled ++ [.change { sampleView .composition sampleKey with inputFieldType := .password },
    .output, .clearZenzConversionState]

/-- The key is sent although the field is one for passwords. -/
theorem submits_password : ¬ Always SubmitsAllowed (initial (sampleView .composition sampleKey))
    (fieldSwitched ++ [debounced]) := by
  intro h
  have hlast := Always.last fieldSwitched h
  obtain ⟨entry, hsubmitted, hfield⟩ : ∃ entry, (((initial (sampleView .composition sampleKey)).run
      fieldSwitched).step debounced).2.submitted = some entry ∧
      ¬ ((initial (sampleView .composition sampleKey)).run fieldSwitched).view.Permits := by
    exact ⟨_, rfl, by decide⟩
  exact hfield (hlast entry hsubmitted).1

end Session

end MozkeyZenzRequest
