import Mozkey.SessionHandlerProofs

/-! # SessionHandler — what a session has seen

    The handler moves its sessions about in an LRU cache, drops the old ones, and writes over all
    of them when the configuration changes.  What a session holds depends on none of the others:
    it is what it was created with, after the commands that were sent to it and the updates that
    are sent to all. -/

namespace MozkeySession

open LruCache

variable {ρ : Type}

/-! ## What a session sees -/

/-- A command that was evaluated, and its output. -/
abbrev Event (ρ : Type) := Input ρ × Output

/-- What a command gives to all sessions. -/
def Input.update : Input ρ → Option (Session ρ → Session ρ)
  | .createSession _ _ _ update | .getConfig _ update | .reload _ update
  | .reloadAndWait _ update => some update
  | .sendKey _ _ config | .sendCommand _ _ config | .setConfig _ config
  | .setRequest _ config => config
  | _ => none

/-- What a command lets one session do. -/
def Input.run (id : SessionID) : Input ρ → Option (Session ρ → Session ρ)
  | .sendKey id' run _ | .testSendKey id' run | .sendCommand id' run _ =>
    if id' = id then some run else none
  | _ => none

/-- The session that a command creates. -/
def Input.new : Input ρ → Option (Session ρ)
  | .createSession _ _ new _ => some new
  | _ => none

/-- A session after an update, if there is one. -/
def Session.updated (update : Option (Session ρ → Session ρ)) (session : Session ρ) : Session ρ :=
  update.elim session fun update => update session

/-- A session after an event; one that is created is new, whatever had its id before. -/
def after (id : SessionID) (event : Event ρ) (session : Option (Session ρ)) :
    Option (Session ρ) :=
  if event.2.sessionFailure then session
  else
    (if event.2.id = id then event.1.new <|> session else session).map fun session =>
      (session.updated (event.1.run id)).updated event.1.update

/-- A session after the events of a run, the last event first. -/
def replay (id : SessionID) (past : List (Event ρ)) : Option (Session ρ) :=
  past.foldr (after id) none

/-- Does a session see an event? -/
def concerns (id : SessionID) (event : Event ρ) : Bool :=
  !event.2.sessionFailure && (event.1.update.isSome || (event.1.run id).isSome)

/-- The runs of a handler, with the commands that it evaluated while it was available. -/
inductive Runs (flags : Flags) : List (Event ρ) → SessionHandler ρ → Prop where
  | create (hasEngine : Bool) (now : Int) :
      Runs flags [] (SessionHandler.create flags hasEngine now)
  | startWatchDog {past : List (Event ρ)} {s : SessionHandler ρ} :
      Runs flags past s → Runs flags past s.startWatchDog
  | evalCommand {past : List (Event ρ)} {s s' : SessionHandler ρ} (input : Input ρ)
      {out : Output} : Runs flags past s → s.evalCommand input = some (out, s') →
      Runs flags (if s.isAvailable then (input, out) :: past else past) s'

theorem after_of_not_concerns {id : SessionID} {event : Event ρ}
    (h : concerns id event = false) (session : Option (Session ρ)) :
    after id event session = session := by
  rw [after]
  split
  · rfl
  · rename_i hok
    rw [concerns, Bool.and_eq_false_iff, Bool.or_eq_false_iff] at h
    obtain hfailure | ⟨hupdate, hrun⟩ := h
    · exact absurd (by simpa using hfailure) hok
    · have hnew : event.1.new = none := by
        cases hinput : event.1 <;> first | rfl | (rw [hinput] at hupdate; cases hupdate)
      rw [Option.isSome_eq_false_iff, Option.isNone_iff_eq_none] at hupdate hrun
      rw [hnew, hrun, hupdate]
      simp [Session.updated]

/-- The commands that a session does not see. -/
theorem replay_concerns (id : SessionID) (past : List (Event ρ)) :
    replay id (past.filter (concerns id)) = replay id past := by
  induction past with
  | nil => rfl
  | cons event past ih =>
    cases hconcerns : concerns id event with
    | true =>
      rw [List.filter_cons_of_pos hconcerns]
      exact congrArg (after id event) ih
    | false =>
      rw [List.filter_cons_of_neg (by rw [hconcerns]; exact Bool.false_ne_true), ih]
      exact (after_of_not_concerns hconcerns _).symm

/-! ## What the operations do to each session -/

/-- Each session holds what a function gives for its id. -/
def Holds (map : SessionMap ρ) (f : SessionID → Option (Session ρ)) : Prop :=
  ∀ e ∈ map.lru, e.value = f e.key

variable {s s' : SessionHandler ρ} {f : SessionID → Option (Session ρ)}

theorem Holds.updates (h : Holds s.sessionMap f) (update : Option (Session ρ → Session ρ)) :
    Holds (s.maybeUpdateConfig update).sessionMap fun id =>
      (f id).map (Session.updated update) := by
  cases update with
  | none =>
    intro e he
    rw [h e he]
    exact Option.map_id'.symm
  | some update =>
    intro e he
    obtain ⟨e', he', rfl⟩ := List.mem_map.mp he
    exact congrArg (Option.map update) (h e' he')

theorem Holds.runs (h : Holds s.sessionMap f) (hsound : s.sessionMap.Sound)
    (halive : Alive s.sessionMap) (id : SessionID) (run : Session ρ → Session ρ)
    (config : Option (Session ρ → Session ρ)) :
    if (s.runSession id run config).1 then
      Holds (s.runSession id run config).2.sessionMap fun id' => (f id').map fun session =>
        (session.updated (if id = id' then some run else none)).updated config
    else Holds (s.runSession id run config).2.sessionMap f := by
  rw [SessionHandler.runSession]
  cases hlookup : s.sessionMap.mutableLookup id with
  | none => exact h
  | some found =>
    obtain ⟨value, map⟩ := found
    obtain ⟨-, -, hmem, hlru⟩ := mutableLookup_spec hsound hlookup
    cases value with
    | none => exact absurd (halive _ hmem) Bool.false_ne_true
    | some session =>
      have hrun : Holds (map.modifyValue id (Option.map run)) fun id' =>
          (f id').map (Session.updated (if id = id' then some run else none)) := by
        intro e he
        obtain ⟨e', he', rfl⟩ := List.mem_map.mp he
        have hholds : e'.value = f e'.key := by
          rw [hlru] at he'
          rcases List.mem_cons.mp he' with rfl | he'
          · exact h _ hmem
          · exact h e' (List.eraseP_subset he')
        split
        · rename_i hkey
          dsimp only
          rw [if_pos hkey.symm, hholds]
          rfl
        · rename_i hkey
          dsimp only
          rw [if_neg (Ne.symm hkey), hholds]
          exact Option.map_id'.symm
      intro e he
      exact (hrun.updates (s := { s with sessionMap := _ }) config e he).trans (Option.map_map ..)

theorem Holds.creates (h : Holds s.sessionMap f) (hsound : s.sessionMap.Sound)
    (hmax : s.sessionMap.maxElements = s.maxSessionSize)
    (hrange : 0 < s.maxSessionSize ∧ s.maxSessionSize ≤ 128) {now : Int} {draws : List SessionID}
    {new : Session ρ} {update : Session ρ → Session ρ} {r : Option SessionID}
    (hcreate : s.createSession now draws new update = some (r, s')) :
    match r with
    | none => Holds s'.sessionMap f
    | some id => Holds s'.sessionMap fun id' =>
        ((if id = id' then some new else f id')).map update := by
  -- what is done to the map behind the check of its size
  have hinserted : ∀ (map₀ : SessionMap ρ), map₀.Sound → map₀.maxElements = s.maxSessionSize →
      Holds map₀ f → (do
        let id ← SessionHandler.createNewSessionID { s with
          sessionMap := map₀, lastCreateSessionTime := .at now } draws
        let map ← map₀.insert id (fun _ => some new)
        let s := SessionHandler.updateSessions { s with
          sessionMap := map, lastCreateSessionTime := .at now } update
        return (some id, { s with lastSessionEmptyTime := .infinitePast })) = some (r, s') →
      ∃ id, r = some id ∧ Holds s'.sessionMap fun id' =>
        ((if id = id' then some new else f id')).map update := by
    intro map₀ hsound₀ hmax₀ hholds hrun
    obtain ⟨id, hid, hrun⟩ := Option.bind_eq_some_iff.mp hrun
    obtain ⟨map, hinsert, hrun⟩ := Option.bind_eq_some_iff.mp hrun
    obtain ⟨rfl, rfl⟩ := Prod.mk.inj (Option.some.inj hrun)
    have hnew := List.find?_some hid
    rw [decide_eq_true_eq] at hnew
    have hfresh : map₀.hasKey id = false := hnew.2
    obtain ⟨map', old, hinsert', -, -, hlru, -⟩ :=
      insert_spec hsound₀ (by rw [hmax₀]; exact Blocks.fills_of_le hrange.2 hrange.1)
        (by rw [hmax₀]; exact hrange.1) id (fun _ => some new)
    obtain rfl := Option.some.inj (hinsert.symm.trans hinsert')
    refine ⟨id, rfl, fun e he => ?_⟩
    obtain ⟨e', he', rfl⟩ := List.mem_map.mp he
    refine congrArg (Option.map update) ?_
    change e' ∈ map.lru at he'
    rw [hlru] at he'
    rcases List.mem_cons.mp he' with rfl | he'
    · exact (if_pos rfl).symm
    · have hmem : e' ∈ map₀.lru := by
        rw [keptBy] at he'
        split at he'
        · exact List.eraseP_subset he'
        · exact List.dropLast_subset _ he'
      have hne : id ≠ e'.key := by
        rintro rfl
        have hkey : map₀.hasKey e'.key = true :=
          List.any_eq_true.mpr ⟨e', hmem, decide_eq_true rfl⟩
        rw [hfresh] at hkey
        cases hkey
      rw [if_neg hne]
      exact hholds e' hmem
  rw [SessionHandler.createSession] at hcreate
  dsimp only at hcreate
  split at hcreate
  · obtain ⟨rfl, rfl⟩ := Prod.mk.inj (Option.some.inj hcreate)
    exact h
  · split at hcreate
    · split at hcreate
      · obtain ⟨rfl, rfl⟩ := Prod.mk.inj (Option.some.inj hcreate)
        exact h
      · rename_i oldest holdest
        have hsound₁ := hsound.modifyValue oldest.key (fun _ => none)
        obtain ⟨hsound₂, hmax₂, hlru⟩ := erase_spec hsound₁ oldest.key
        rw [removeFromLru_modifyValue hsound] at hlru
        obtain ⟨id, rfl, hholds⟩ := hinserted _ hsound₂ (hmax₂.trans hmax)
          (fun e he => h e (List.eraseP_subset (hlru ▸ he))) hcreate
        exact hholds
    · obtain ⟨id, rfl, hholds⟩ := hinserted _ hsound hmax h hcreate
      exact hholds

/-! ## Runs -/

variable {input : Input ρ} {out : Output}

theorem Holds.finishes (hnew : input.new = none) {id : SessionID} {r : Bool × SessionHandler ρ}
    (h : if r.1 then Holds r.2.sessionMap fun id' => (f id').map fun session =>
        (session.updated (input.run id')).updated input.update
      else Holds r.2.sessionMap f)
    (hfinish : some (SessionHandler.finish id r) = some (out, s')) :
    Holds s'.sessionMap fun id' => after id' (input, out) (f id') := by
  obtain ⟨rfl, rfl⟩ := Prod.mk.inj (Option.some.inj hfinish)
  intro e he
  cases hok : r.1 with
  | true =>
    rw [hok] at h
    refine (h e he).trans ?_
    simp [after, hnew]
  | false =>
    rw [hok] at h
    refine (h e he).trans ?_
    simp [after]

theorem Holds.unseen (h : Holds s.sessionMap f) (hsub : s'.sessionMap.lru ⊆ s.sessionMap.lru)
    (hunseen : ∀ id, concerns id (input, out) = false) :
    Holds s'.sessionMap fun id => after id (input, out) (f id) := by
  intro e he
  exact (h e (hsub he)).trans (after_of_not_concerns (hunseen e.key) _).symm

/-- **ONE COMMAND**: each session that stays has seen it, and nothing else. -/
theorem holds_evalCommand {flags : Flags} {used : Past}
    (hinv : SessionHandler.Invariant flags used s) (hup : s.isAvailable = true)
    (heval : s.evalCommand input = some (out, s')) (h : Holds s.sessionMap f) :
    Holds s'.sessionMap fun id => after id (input, out) (f id) := by
  rw [SessionHandler.evalCommand.eq_def, if_neg (by simp [hup])] at heval
  cases input with
  | createSession now draws new update =>
    obtain ⟨⟨r, s₁⟩, hcreate, heq⟩ := Option.map_eq_some_iff.mp heval
    have hholds := h.creates hinv.sound hinv.max_eq hinv.range hcreate
    cases r with
    | none =>
      obtain ⟨rfl, rfl⟩ := Prod.mk.inj heq
      exact hholds
    | some id =>
      obtain ⟨rfl, rfl⟩ := Prod.mk.inj heq
      intro e he
      exact hholds e he
  | deleteSession id now =>
    obtain ⟨rfl, rfl⟩ := Prod.mk.inj (Option.some.inj heval)
    obtain ⟨map, -, -, hlru, hdelete⟩ :=
      SessionHandler.deleteSessionID_spec hinv.sound hinv.alive hinv.idle id now
    refine h.unseen (fun e he => ?_) fun _ => rfl
    change e ∈ (s.deleteSessionID id now).2.sessionMap.lru at he
    rw [hdelete] at he
    exact List.eraseP_subset (hlru ▸ he)
  | cleanup id now isApplicationAlive deletedAt =>
    obtain ⟨s₁, hclean, heq⟩ := Option.map_eq_some_iff.mp heval
    obtain ⟨rfl, rfl⟩ := Prod.mk.inj heq
    obtain ⟨map, -, -, hlru, last, -, hcleanup⟩ := SessionHandler.cleanup_spec hinv.sound
      hinv.alive hinv.idle now isApplicationAlive deletedAt
    obtain rfl := Option.some.inj (hclean.symm.trans hcleanup)
    exact h.unseen (fun e he => (List.mem_filter.mp (hlru ▸ he)).1) fun _ => rfl
  | sendKey id run config | sendCommand id run config =>
    exact Holds.finishes rfl (h.runs hinv.sound hinv.alive id run config) heval
  | testSendKey id run =>
    exact Holds.finishes rfl (h.runs hinv.sound hinv.alive id run none) heval
  | getConfig id update | reload id update | reloadAndWait id update =>
    exact Holds.finishes rfl (Eq.mpr (if_pos rfl) (h.updates (some update))) heval
  | setConfig id update | setRequest id update =>
    cases update with
    | none =>
      obtain ⟨rfl, rfl⟩ := Prod.mk.inj (Option.some.inj heval)
      exact h.unseen (List.Subset.refl _) fun _ => rfl
    | some update =>
      exact Holds.finishes rfl (Eq.mpr (if_pos rfl) (h.updates (some update))) heval
  | syncData | clearUserHistory | clearUserPrediction | clearUnusedUserPrediction | shutdown
  | noOperation | getServerVersion | other | importUserDictionary | addUserHistory
  | sendEngineReloadRequest | reloadSupplementalModel =>
    obtain ⟨rfl, rfl⟩ := Prod.mk.inj (Option.some.inj heval)
    exact h.unseen (List.Subset.refl _) fun _ => by simp [concerns, Input.update, Input.run]

theorem Runs.reachable {flags : Flags} {past : List (Event ρ)} (h : Runs flags past s) :
    ∃ used, SessionHandler.Reachable flags used s := by
  induction h with
  | create hasEngine now => exact ⟨_, .create hasEngine now⟩
  | startWatchDog _ ih =>
    obtain ⟨used, hreachable⟩ := ih
    exact ⟨used, hreachable.startWatchDog⟩
  | evalCommand input _ heval ih =>
    obtain ⟨used, hreachable⟩ := ih
    exact ⟨_, hreachable.evalCommand input heval⟩

theorem Runs.holds {flags : Flags} {past : List (Event ρ)} (h : Runs flags past s) :
    Holds s.sessionMap fun id => replay id past := by
  induction h with
  | create hasEngine now => exact fun e he => absurd he List.not_mem_nil
  | @startWatchDog past s _ ih =>
    rw [SessionHandler.startWatchDog]
    split <;> exact ih
  | @evalCommand past s s' input out hruns heval ih =>
    obtain ⟨used, hreachable⟩ := hruns.reachable
    cases hup : s.isAvailable with
    | true => exact holds_evalCommand hreachable.invariant hup heval ih
    | false =>
      rw [SessionHandler.evalCommand.eq_def, if_pos hup] at heval
      obtain ⟨rfl, rfl⟩ := Prod.mk.inj (Option.some.inj heval)
      exact ih

/-- **SESSIONS ARE ISOLATED**: along every run, a session holds what the commands that were sent
    to it and the updates of all sessions make of it, whatever was sent to the others, whichever
    of them went, and whichever had its id before. -/
theorem session_isolated (flags : Flags) (past : List (Event ρ)) (s : SessionHandler ρ)
    (h : Runs flags past s) :
    ∀ e ∈ s.sessionMap.lru, e.value = replay e.key (past.filter (concerns e.key)) := by
  intro e he
  rw [replay_concerns]
  exact h.holds e he

/-- A session that counts its keys. -/
private def counter (id : SessionID) : Input Nat :=
  .createSession 0 [id] { createSessionTime := .at 0, lastCommandTime := .infinitePast, rest := 0 }
    (fun session => session)

/-- Two sessions are live. -/
theorem session_isolated_two :
    ∃ (past : List (Event Nat)) (s : SessionHandler Nat), s.live = [2, 1] ∧
      ∀ e ∈ s.sessionMap.lru, e.value = replay e.key (past.filter (concerns e.key)) := by
  have hrun : (((SessionHandler.create {} true 0).evalCommand (counter 1)).any fun r =>
      (r.2.evalCommand (counter 2)).any fun r' =>
        (r'.2.evalCommand (.sendKey 2 (fun s => { s with rest := s.rest + 1 }) none)).any fun r'' =>
          r''.2.live = [2, 1]) = true := by
    decide +kernel
  obtain ⟨⟨_, s⟩, hs, hrun⟩ := (Option.any_eq_true _ _).mp hrun
  obtain ⟨⟨_, s'⟩, hs', hrun⟩ := (Option.any_eq_true _ _).mp hrun
  obtain ⟨⟨_, s''⟩, hs'', hlive⟩ := (Option.any_eq_true _ _).mp hrun
  have hruns := ((Runs.create true 0).evalCommand _ hs).evalCommand _ hs'
  exact ⟨_, s'', of_decide_eq_true hlive, session_isolated {} _ s'' (hruns.evalCommand _ hs'')⟩

end MozkeySession
