import Mozkey.LruCacheProofs

/-! # SessionHandler — which sessions the server keeps

    The handler keeps its sessions in an LRU cache, deletes those that were not used for
    long on `CLEANUP`, and shuts the server down when it was without sessions for long.
    The time at which the last session went is `InfinitePast` while there are sessions. -/

namespace MozkeySession

open LruCache

/-! ## Times -/

/-- `absl::Time`: a reading of the clock, or the sentinel. -/
inductive AbslTime where
  | infinitePast
  | at (ticks : Int)
  deriving DecidableEq

/-- `absl::Seconds`, in quarters of a nanosecond. -/
def seconds (n : Int) : Int := n * 4000000000

/-- `absl::Duration`, as far as a reading of the clock less a time gives one. -/
inductive AbslDuration where
  | finite (ticks : Int)
  | infinite

/-- A reading of the clock less a time. -/
def since (now : Int) : AbslTime → AbslDuration
  | .infinitePast => .infinite
  | .at ticks => .finite (now - ticks)

/-- `duration >= bound`. -/
def AbslDuration.atLeast (bound : Int) : AbslDuration → Bool
  | .finite ticks => bound ≤ ticks
  | .infinite => true

/-! ## The handler -/

/-- The flags of the server. -/
structure Flags where
  timeout : Int := -1
  maxSessionSize : Int := 64
  createSessionMinInterval : Int := 0
  watchDogInterval : Int := 180
  lastCommandTimeout : Int := 3600
  lastCreateSessionTimeout : Int := 300
  restricted : Bool := false

/-- The id of a session. -/
abbrev SessionID := UInt64

/-- `session::Session`, as far as the handler reads it; `rest` is all else that it holds. -/
structure Session (ρ : Type) where
  createSessionTime : AbslTime
  lastCommandTime : AbslTime
  rest : ρ

variable {ρ : Type}

/-- `SessionMap`; a `unique_ptr` may be null. -/
abbrev SessionMap (ρ : Type) := LruCache SessionID (Option (Session ρ))

/-- `SessionHandler`. -/
structure SessionHandler (ρ : Type) where
  flags : Flags
  isAvailable : Bool
  maxSessionSize : Nat
  sessionMap : SessionMap ρ
  -- the interval of the watch dog, where it was started
  sessionWatchDog : Option Int
  lastSessionEmptyTime : AbslTime
  lastCleanupTime : AbslTime
  lastCreateSessionTime : AbslTime

/-- The flags that the constructor sets in restricted mode. -/
def Flags.effective (flags : Flags) : Flags :=
  if flags.restricted then
    { flags with
      timeout := 60
      maxSessionSize := 8
      watchDogInterval := 15
      lastCreateSessionTimeout := 60
      lastCommandTimeout := 60 }
  else flags

/-- `SessionHandler(engine)`; there may be no engine. -/
def SessionHandler.create (flags : Flags) (hasEngine : Bool) (now : Int) : SessionHandler ρ :=
  let flags := flags.effective
  let maxSessionSize := (max 2 (min flags.maxSessionSize 128)).toNat
  { flags := flags
    isAvailable := hasEngine
    maxSessionSize := maxSessionSize
    sessionMap := LruCache.ofMax maxSessionSize
    sessionWatchDog := none
    lastSessionEmptyTime := .at now
    lastCleanupTime := .infinitePast
    lastCreateSessionTime := .infinitePast }

/-- What a command tells of itself in its output. -/
structure Output where
  id : SessionID := 0
  sessionFailure : Bool := false
  deriving DecidableEq

/-- `commands::Input`, with what the command finds outside the handler: the readings of the
    clock, the draws of the random generator, and what the sessions and the engine do. -/
inductive Input (ρ : Type) where
  | createSession (now : Int) (draws : List SessionID) (new : Session ρ)
      (update : Session ρ → Session ρ)
  | deleteSession (id : SessionID) (now : Int)
  | sendKey (id : SessionID) (run : Session ρ → Session ρ) (config : Option (Session ρ → Session ρ))
  | testSendKey (id : SessionID) (run : Session ρ → Session ρ)
  | sendCommand (id : SessionID) (run : Session ρ → Session ρ)
      (config : Option (Session ρ → Session ρ))
  | syncData (id : SessionID)
  | clearUserHistory (id : SessionID)
  | clearUserPrediction (id : SessionID)
  | clearUnusedUserPrediction (id : SessionID)
  | getConfig (id : SessionID) (update : Session ρ → Session ρ)
  | setConfig (id : SessionID) (config : Option (Session ρ → Session ρ))
  | setRequest (id : SessionID) (request : Option (Session ρ → Session ρ))
  | shutdown (id : SessionID)
  | reload (id : SessionID) (update : Session ρ → Session ρ)
  | reloadAndWait (id : SessionID) (update : Session ρ → Session ρ)
  | cleanup (id : SessionID) (now : Int) (isApplicationAlive : Session ρ → Bool)
      (deletedAt : Nat → Int)
  | importUserDictionary (id : SessionID) (ok : Bool)
  | addUserHistory (id : SessionID) (ok : Bool)
  | sendEngineReloadRequest (id : SessionID) (ok : Bool)
  | noOperation (id : SessionID)
  | reloadSupplementalModel (id : SessionID) (ok : Bool)
  | getServerVersion (id : SessionID)
  | other

namespace SessionHandler

/-- `UpdateSessions`: every session is given the config, the request and the tables. -/
def updateSessions (s : SessionHandler ρ) (update : Session ρ → Session ρ) : SessionHandler ρ :=
  { s with
    sessionMap := { s.sessionMap with
      lru := s.sessionMap.lru.map fun e => { e with value := e.value.map update } } }

/-- `MaybeUpdateConfig`. -/
def maybeUpdateConfig (s : SessionHandler ρ) :
    Option (Session ρ → Session ρ) → SessionHandler ρ
  | none => s
  | some update => updateSessions s update

/-- `StartWatchDog`; the interval is clamped by `SessionWatchDog`. -/
def startWatchDog (s : SessionHandler ρ) : SessionHandler ρ :=
  match s.sessionWatchDog with
  | some _ => s
  | none =>
    { s with
      sessionWatchDog :=
        some (max (seconds 1) (min (seconds s.flags.watchDogInterval) (seconds 600))) }

/-- `SendKey`, `TestSendKey` and `SendCommand`: the session runs the command. -/
def runSession (s : SessionHandler ρ) (id : SessionID) (run : Session ρ → Session ρ)
    (config : Option (Session ρ → Session ρ)) : Bool × SessionHandler ρ :=
  match s.sessionMap.mutableLookup id with
  | none => (false, s)
  | some (none, map) => (false, { s with sessionMap := map })
  | some (some _, map) =>
    (true, maybeUpdateConfig
      { s with sessionMap := map.modifyValue id (Option.map run) } config)

/-- `CreateNewSessionID`; `none` where no draw is free yet. -/
def createNewSessionID (s : SessionHandler ρ) (draws : List SessionID) : Option SessionID :=
  draws.find? fun id => 1 ≤ id ∧ s.sessionMap.hasKey id = false

/-- `CreateSession`; the id of the new session, or `none` where it fails. -/
def createSession (s : SessionHandler ρ) (now : Int) (draws : List SessionID)
    (new : Session ρ) (update : Session ρ → Session ρ) :
    Option (Option SessionID × SessionHandler ρ) :=
  let minimumInterval := max 0 (min (seconds s.flags.createSessionMinInterval) (seconds 10))
  let interval := since now s.lastCreateSessionTime
  if interval.atLeast 0 && !interval.atLeast minimumInterval then some (none, s)
  else
    let s := { s with lastCreateSessionTime := .at now }
    let create (s : SessionHandler ρ) : Option (Option SessionID × SessionHandler ρ) := do
      -- reloading the engine does not touch the sessions
      let id ← createNewSessionID s draws
      let map ← s.sessionMap.insert id (fun _ => some new)
      let s := updateSessions { s with sessionMap := map } update
      return (some id, { s with lastSessionEmptyTime := .infinitePast })
    if s.maxSessionSize ≤ s.sessionMap.size then
      match s.sessionMap.lru.getLast? with
      | none => some (none, s)
      | some oldest =>
        create
          { s with
            sessionMap := (s.sessionMap.modifyValue oldest.key (fun _ => none)).erase oldest.key }
    else create s

/-- `DeleteSessionID`. -/
def deleteSessionID (s : SessionHandler ρ) (id : SessionID) (now : Int) :
    Bool × SessionHandler ρ :=
  match s.sessionMap.mutableLookup id with
  | none => (false, s)
  | some (none, map) => (false, { s with sessionMap := map })
  | some (some _, map) =>
    let s := { s with sessionMap := (map.modifyValue id (fun _ => none)).erase id }
    (true,
      if s.lastSessionEmptyTime = .infinitePast ∧ s.sessionMap.size = 0 then
        { s with lastSessionEmptyTime := .at now }
      else s)

/-- `suspend_time` of `Cleanup`. -/
def suspendTime (s : SessionHandler ρ) (now : Int) : Int :=
  match s.lastCleanupTime, s.sessionWatchDog with
  | .at last, some interval => if 2 * interval < now - last then now - last - interval else 0
  | _, _ => 0

/-- `create_session_timeout` of `Cleanup`. -/
def createSessionTimeout (s : SessionHandler ρ) (now : Int) : Int :=
  s.suspendTime now
    + max (seconds 1) (min (seconds s.flags.lastCreateSessionTimeout) (seconds 600))

/-- `last_command_timeout` of `Cleanup`. -/
def lastCommandTimeout (s : SessionHandler ρ) (now : Int) : Int :=
  s.suspendTime now + max (seconds 10) (min (seconds s.flags.lastCommandTimeout) (seconds 7200))

/-- The condition under which `Cleanup` removes a session. -/
def expires (s : SessionHandler ρ) (now : Int) (isApplicationAlive : Session ρ → Bool)
    (session : Session ρ) : Bool :=
  if isApplicationAlive session = false then true
  else if session.lastCommandTime = .infinitePast then
    (since now session.createSessionTime).atLeast (s.createSessionTimeout now)
  else (since now session.lastCommandTime).atLeast (s.lastCommandTimeout now)

/-- `remove_ids` of `Cleanup`; a null session is dereferenced. -/
def removeIds (s : SessionHandler ρ) (now : Int) (isApplicationAlive : Session ρ → Bool) :
    Option (List SessionID) :=
  s.sessionMap.lru.foldlM (fun ids e => do
    let session ← e.value
    return if s.expires now isApplicationAlive session then ids ++ [e.key] else ids) []

/-- The loop of `Cleanup` over `remove_ids`. -/
def deleteAll (s : SessionHandler ρ) (ids : List SessionID) (deletedAt : Nat → Int) :
    SessionHandler ρ :=
  ids.zipIdx.foldl (fun s (id, i) => (s.deleteSessionID id (deletedAt i)).2) s

/-- `Shutdown`. -/
def shutdown (s : SessionHandler ρ) : SessionHandler ρ := { s with isAvailable := false }

/-- `Cleanup`. -/
def cleanup (s : SessionHandler ρ) (now : Int) (isApplicationAlive : Session ρ → Bool)
    (deletedAt : Nat → Int) : Option (SessionHandler ρ) := do
  let suspend := s.suspendTime now
  let ids ← s.removeIds now isApplicationAlive
  let s := s.deleteAll ids deletedAt
  let s :=
    if 0 < s.flags.timeout
        && (since now s.lastSessionEmptyTime).atLeast (suspend + seconds s.flags.timeout) then
      s.shutdown
    else s
  return { s with lastCleanupTime := .at now }

/-- The output of a command that has run. -/
def finish (id : SessionID) (r : Bool × SessionHandler ρ) : Output × SessionHandler ρ :=
  (if r.1 then { id := id } else { sessionFailure := true }, r.2)

/-- `EvalCommand`; `none` where a check fails.  The handler returns whether it is available. -/
def evalCommand (s : SessionHandler ρ) (input : Input ρ) : Option (Output × SessionHandler ρ) :=
  if s.isAvailable = false then some ({}, s)
  else
    match input with
    | .createSession now draws new update =>
      (s.createSession now draws new update).map fun (id, s) =>
        match id with
        | some id => ({ id := id }, s)
        | none => ({ sessionFailure := true }, s)
    | .deleteSession id now => some (finish id (true, (s.deleteSessionID id now).2))
    | .sendKey id run config => some (finish id (s.runSession id run config))
    | .testSendKey id run => some (finish id (s.runSession id run none))
    | .sendCommand id run config => some (finish id (s.runSession id run config))
    | .syncData id => some (finish id (true, s))
    | .clearUserHistory id => some (finish id (true, s))
    | .clearUserPrediction id => some (finish id (true, s))
    | .clearUnusedUserPrediction id => some (finish id (true, s))
    | .getConfig id update => some (finish id (true, s.updateSessions update))
    | .setConfig id config =>
      some (finish id (config.isSome, s.maybeUpdateConfig config))
    | .setRequest id request => some (finish id (request.isSome, s.maybeUpdateConfig request))
    | .shutdown id => some (finish id (true, s.shutdown))
    | .reload id update => some (finish id (true, s.updateSessions update))
    | .reloadAndWait id update => some (finish id (true, s.updateSessions update))
    | .cleanup id now isApplicationAlive deletedAt =>
      (s.cleanup now isApplicationAlive deletedAt).map fun s => finish id (true, s)
    | .importUserDictionary id ok => some (finish id (ok, s))
    | .addUserHistory id ok => some (finish id (ok, s))
    | .sendEngineReloadRequest id ok => some (finish id (ok, s))
    | .noOperation id => some (finish id (true, s))
    | .reloadSupplementalModel id ok => some (finish id (ok, s))
    | .getServerVersion id => some (finish id (true, s))
    | .other => some (finish 0 (false, s))

/-- The ids of the live sessions, the last used one first. -/
def live (s : SessionHandler ρ) : List SessionID := s.sessionMap.lru.map LruElement.key

end SessionHandler

/-! ## What the operations do to the sessions -/

/-- No pointer of the map is null. -/
def Alive (map : SessionMap ρ) : Prop := ∀ e ∈ map.lru, e.value.isSome = true

namespace SessionHandler

variable {map : SessionMap ρ}

theorem Alive.of_subset {map' : SessionMap ρ} (h : Alive map) (hsub : map'.lru ⊆ map.lru) :
    Alive map' := fun e he => h e (hsub he)

/-- The idle clock after deletions: it has their reading where the last session went. -/
def emptyTimeAfter (before after : SessionMap ρ) (last : AbslTime) (now : Int) : AbslTime :=
  if before.lru ≠ [] ∧ after.lru = [] then .at now else last

variable {before : SessionMap ρ}

theorem emptyTimeAfter_of_ne {after : SessionMap ρ} (h : after.lru ≠ []) (last : AbslTime)
    (now : Int) : emptyTimeAfter before after last now = last :=
  if_neg (fun hempty => h hempty.2)

theorem emptyTimeAfter_of_eq {after : SessionMap ρ} (h : after.lru = before.lru) (last : AbslTime)
    (now : Int) : emptyTimeAfter before after last now = last :=
  if_neg (fun hempty => hempty.1 (h ▸ hempty.2))

theorem emptyTimeAfter_congr {before' after after' : SessionMap ρ} (h : before.lru ≠ [])
    (h' : before'.lru ≠ []) (hafter : after'.lru = after.lru) (last : AbslTime) (now : Int) :
    emptyTimeAfter before after last now = emptyTimeAfter before' after' last now := by
  simp only [emptyTimeAfter, h, h', hafter, ne_eq, not_false_eq_true, true_and]

variable {s : SessionHandler ρ}

/-- **ONE DELETION**: exactly the session of the id is gone. -/
theorem deleteSessionID_spec (hsound : s.sessionMap.Sound) (halive : Alive s.sessionMap)
    (hidle : s.lastSessionEmptyTime = .infinitePast ↔ s.sessionMap.lru ≠ []) (id : SessionID)
    (now : Int) :
    ∃ map : SessionMap ρ, map.Sound ∧ map.maxElements = s.sessionMap.maxElements ∧
      map.lru = removeFromLru id s.sessionMap.lru ∧
      (s.deleteSessionID id now).2
        = { s with
            sessionMap := map
            lastSessionEmptyTime :=
              emptyTimeAfter s.sessionMap map s.lastSessionEmptyTime now } := by
  rw [deleteSessionID]
  cases hlookup : s.sessionMap.mutableLookup id with
  | none =>
    have hkey : id ∉ s.sessionMap.lru.map LruElement.key :=
      lookupInternal_eq_none.mp (Option.map_eq_none_iff.mp hlookup)
    refine ⟨s.sessionMap, hsound, rfl, (removeFromLru_of_notMem hkey).symm, ?_⟩
    rw [emptyTimeAfter_of_eq rfl]
  | some r =>
    obtain ⟨value, map⟩ := r
    obtain ⟨hsound₁, hmax₁, hmem, hlru₁⟩ := mutableLookup_spec hsound hlookup
    cases value with
    | none => exact absurd (halive _ hmem) Bool.false_ne_true
    | some session =>
      obtain ⟨hsound₂, hmax₂, hlru₂⟩ :=
        erase_spec (hsound₁.modifyValue id (fun _ => none)) id
      rw [removeFromLru_modifyValue hsound₁, hlru₁] at hlru₂
      have hlru : ((map.modifyValue id fun _ => none).erase id).lru
          = removeFromLru id s.sessionMap.lru := by
        rw [hlru₂, removeFromLru, List.eraseP_cons_of_pos (by simp)]
      refine ⟨_, hsound₂, hmax₂.trans hmax₁, hlru, ?_⟩
      have hne : s.sessionMap.lru ≠ [] := List.ne_nil_of_mem hmem
      rw [emptyTimeAfter]
      by_cases hempty : ((map.modifyValue id fun _ => none).erase id).lru = []
      · rw [if_pos ⟨hne, hempty⟩]
        dsimp only
        rw [if_pos ⟨hidle.mpr hne, by rw [LruCache.size, hempty]; rfl⟩]
      · rw [if_neg (fun h => hempty h.2)]
        dsimp only
        rw [if_neg (fun h => hempty (List.length_eq_zero_iff.mp h.2))]

theorem emptyTimeAfter_iff {now : Int}
    (hidle : s.lastSessionEmptyTime = .infinitePast ↔ s.sessionMap.lru ≠ [])
    (hsub : map.lru ⊆ s.sessionMap.lru) :
    emptyTimeAfter s.sessionMap map s.lastSessionEmptyTime now = .infinitePast
      ↔ map.lru ≠ [] := by
  rw [emptyTimeAfter]
  by_cases h : s.sessionMap.lru ≠ [] ∧ map.lru = []
  · rw [if_pos h]
    exact ⟨fun heq => (by cases heq), fun hne => absurd h.2 hne⟩
  · rw [if_neg h, hidle]
    constructor
    · intro hne hempty
      exact h ⟨hne, hempty⟩
    · intro hne hempty
      exact hne (List.subset_nil.mp (hempty ▸ hsub))

/-- **THE LOOP OF DELETIONS**: the sessions of the ids are gone; where none is left, the idle
    clock has the reading of the last deletion. -/
theorem deleteAll_spec (deletedAt : Nat → Int) : ∀ (ids : List SessionID) (n : Nat)
    {s : SessionHandler ρ}, s.sessionMap.Sound → Alive s.sessionMap →
    (s.lastSessionEmptyTime = .infinitePast ↔ s.sessionMap.lru ≠ []) →
    ids.Nodup → ids ⊆ s.live →
    ∃ map : SessionMap ρ, map.Sound ∧ map.maxElements = s.sessionMap.maxElements ∧
      map.lru = s.sessionMap.lru.filter (fun e => e.key ∉ ids) ∧
      (ids.zipIdx n).foldl (fun s (id, i) => (s.deleteSessionID id (deletedAt i)).2) s
        = { s with
            sessionMap := map
            lastSessionEmptyTime := emptyTimeAfter s.sessionMap map s.lastSessionEmptyTime
              (deletedAt (n + ids.length - 1)) } := by
  intro ids
  induction ids with
  | nil =>
    intro n s hsound _ _ _ _
    refine ⟨s.sessionMap, hsound, rfl, ?_, ?_⟩
    · exact (List.filter_eq_self.mpr (fun e _ => by simp)).symm
    · rw [emptyTimeAfter_of_eq rfl]
      rfl
  | cons id ids ih =>
    intro n s hsound halive hidle hnodup hsub
    rw [List.nodup_cons] at hnodup
    obtain ⟨map, hsound₁, hmax₁, hlru₁, heq⟩ :=
      deleteSessionID_spec hsound halive hidle id (deletedAt n)
    have hsub₁ : map.lru ⊆ s.sessionMap.lru := by
      rw [hlru₁]
      exact List.eraseP_subset
    have hkeys : map.lru.map LruElement.key = s.live.filter (· ≠ id) := by
      rw [hlru₁, map_key_removeFromLru hsound]
      rfl
    have hrest : ids ⊆ map.lru.map LruElement.key := by
      intro x hx
      rw [hkeys, List.mem_filter]
      refine ⟨hsub (List.mem_cons_of_mem _ hx), decide_eq_true ?_⟩
      rintro rfl
      exact hnodup.1 hx
    have hne : s.sessionMap.lru ≠ [] := by
      intro hnil
      have hmem := hsub (List.mem_cons_self ..)
      rw [live, hnil] at hmem
      cases hmem
    obtain ⟨map', hsound', hmax', hlru', heq'⟩ :=
      ih (n + 1) hsound₁ (Alive.of_subset halive hsub₁) (emptyTimeAfter_iff hidle hsub₁)
        hnodup.2 hrest (s := { s with
          sessionMap := map
          lastSessionEmptyTime :=
            emptyTimeAfter s.sessionMap map s.lastSessionEmptyTime (deletedAt n) })
    dsimp only at hmax' hlru' heq'
    refine ⟨map', hsound', hmax'.trans hmax₁, ?_, ?_⟩
    · rw [hlru', hlru₁, removeFromLru_eq_filter id hsound.nodup, List.filter_filter]
      refine List.filter_congr ?_
      intro e _
      rw [Bool.eq_iff_iff]
      simp only [Bool.and_eq_true, decide_eq_true_eq, List.mem_cons, not_or]
      exact and_comm
    · rw [List.zipIdx_cons, List.foldl_cons]
      show List.foldl _ (s.deleteSessionID id (deletedAt n)).2 _ = _
      rw [heq, heq']
      congr 1
      cases ids with
      | nil =>
        -- the last deletion: nothing is deleted behind it
        have hsame : map'.lru = map.lru := by
          rw [hlru']
          exact List.filter_eq_self.mpr (fun e _ => by simp)
        rw [emptyTimeAfter_of_eq hsame]
        exact emptyTimeAfter_congr hne hne hsame _ _
      | cons x rest =>
        have hmap : map.lru ≠ [] := by
          intro hnil
          have hmem := hrest (List.mem_cons_self ..)
          rw [hnil] at hmem
          cases hmem
        have hindex : n + 1 + (x :: rest).length - 1 = n + (id :: x :: rest).length - 1 := by
          simp only [List.length_cons]
          omega
        rw [emptyTimeAfter_of_ne hmap, hindex]
        exact emptyTimeAfter_congr hmap hne rfl _ _

theorem removeIds_spec (halive : Alive s.sessionMap) (now : Int)
    (isApplicationAlive : Session ρ → Bool) :
    s.removeIds now isApplicationAlive
      = some ((s.sessionMap.lru.filter fun e =>
          e.value.any (s.expires now isApplicationAlive)).map LruElement.key) := by
  -- the induction is on the elements that are still to be looked at
  have hloop : ∀ (lru : List (LruElement SessionID (Option (Session ρ)))) (ids : List SessionID),
      (∀ e ∈ lru, e.value.isSome = true) →
      lru.foldlM (fun (ids : List SessionID) e => do
          let session ← e.value
          return if s.expires now isApplicationAlive session then ids ++ [e.key] else ids) ids
        = some (ids ++ (lru.filter fun e =>
            e.value.any (s.expires now isApplicationAlive)).map LruElement.key) := by
    intro lru
    induction lru with
    | nil => intro ids _; rw [List.filter_nil, List.map_nil, List.append_nil]; rfl
    | cons e lru ih =>
      intro ids h
      obtain ⟨session, hsession⟩ := Option.isSome_iff_exists.mp (h e (List.mem_cons_self ..))
      rw [List.foldlM_cons, hsession]
      show List.foldlM _ (if _ then _ else _) lru = _
      rw [ih _ (fun e' he' => h e' (List.mem_cons_of_mem _ he'))]
      by_cases hexpires : s.expires now isApplicationAlive session = true
      · rw [if_pos hexpires, List.filter_cons_of_pos (by rw [hsession]; exact hexpires),
          List.map_cons, List.append_assoc]
        rfl
      · rw [if_neg hexpires, List.filter_cons_of_neg (by rw [hsession]; exact hexpires)]
  rw [removeIds, hloop _ _ halive, List.nil_append]

theorem suspendTime_nonneg (hwatch : ∀ interval, s.sessionWatchDog = some interval → 0 < interval)
    (now : Int) :
    0 ≤ s.suspendTime now := by
  rw [suspendTime]
  split
  · rename_i last interval hlast hinterval
    have := hwatch interval hinterval
    split <;> omega
  · exact Int.le_refl _

/-- A session stays exactly when it does not expire. -/
def Stays (s : SessionHandler ρ) (now : Int) (isApplicationAlive : Session ρ → Bool)
    (e : LruElement SessionID (Option (Session ρ))) : Bool :=
  !e.value.any (s.expires now isApplicationAlive)

/-- **CLEANUP**: the sessions that expire are gone, and the server shuts down when the time
    since the idle clock is at least the timeout. -/
theorem cleanup_spec (hsound : s.sessionMap.Sound) (halive : Alive s.sessionMap)
    (hidle : s.lastSessionEmptyTime = .infinitePast ↔ s.sessionMap.lru ≠ []) (now : Int)
    (isApplicationAlive : Session ρ → Bool) (deletedAt : Nat → Int) :
    ∃ map : SessionMap ρ, map.Sound ∧ map.maxElements = s.sessionMap.maxElements ∧
      map.lru = s.sessionMap.lru.filter (s.Stays now isApplicationAlive) ∧
      ∃ last, last = emptyTimeAfter s.sessionMap map s.lastSessionEmptyTime
            (deletedAt (s.live.length - 1)) ∧
        s.cleanup now isApplicationAlive deletedAt
          = some { s with
              sessionMap := map
              lastSessionEmptyTime := last
              lastCleanupTime := .at now
              isAvailable := s.isAvailable && !(0 < s.flags.timeout &&
                (since now last).atLeast (s.suspendTime now + seconds s.flags.timeout)) } := by
  have hnodup : ((s.sessionMap.lru.filter fun e =>
      e.value.any (s.expires now isApplicationAlive)).map LruElement.key).Nodup :=
    hsound.nodup.sublist (List.filter_sublist.map _)
  have hsub : (s.sessionMap.lru.filter fun e =>
      e.value.any (s.expires now isApplicationAlive)).map LruElement.key ⊆ s.live := by
    intro id hid
    obtain ⟨e, he, rfl⟩ := List.mem_map.mp hid
    exact List.mem_map.mpr ⟨e, (List.mem_filter.mp he).1, rfl⟩
  obtain ⟨map, hsound', hmax, hlru, hdelete⟩ :=
    deleteAll_spec deletedAt _ 0 hsound halive hidle hnodup hsub
  have hlru' : map.lru = s.sessionMap.lru.filter (s.Stays now isApplicationAlive) := by
    rw [hlru]
    refine List.filter_congr ?_
    intro e he
    rw [Bool.eq_iff_iff, decide_eq_true_eq, Stays, Bool.not_eq_true', ← Bool.not_eq_true,
      not_iff_not]
    constructor
    · intro hmem
      obtain ⟨e', he', hkey⟩ := List.mem_map.mp hmem
      obtain ⟨hmem', hexpires⟩ := List.mem_filter.mp he'
      rwa [← List.inj_on_of_nodup_map hsound.nodup hmem' he hkey]
    · intro hexpires
      exact List.mem_map.mpr ⟨e, List.mem_filter.mpr ⟨he, hexpires⟩, rfl⟩
  refine ⟨map, hsound', hmax, hlru', _, rfl, ?_⟩
  rw [cleanup, removeIds_spec halive]
  show some _ = some _
  congr 1
  have hlast : emptyTimeAfter s.sessionMap map s.lastSessionEmptyTime
        (deletedAt (0 + ((s.sessionMap.lru.filter fun e =>
          e.value.any (s.expires now isApplicationAlive)).map LruElement.key).length - 1))
      = emptyTimeAfter s.sessionMap map s.lastSessionEmptyTime
        (deletedAt (s.live.length - 1)) := by
    rw [emptyTimeAfter, emptyTimeAfter]
    by_cases hempty : map.lru = []
    · -- every session was removed
      have hall : (s.sessionMap.lru.filter fun e =>
          e.value.any (s.expires now isApplicationAlive)) = s.sessionMap.lru := by
        refine List.filter_eq_self.mpr ?_
        intro e he
        rw [hlru'] at hempty
        have := List.filter_eq_nil_iff.mp hempty e he
        rw [Stays] at this
        simpa using this
      rw [hall, Nat.zero_add]
      rfl
    · rw [if_neg (fun h => hempty h.2), if_neg (fun h => hempty h.2)]
  rw [deleteAll, hdelete, hlast]
  dsimp only
  split
  · rename_i hdown
    rw [hdown, Bool.not_true, Bool.and_false]
    rfl
  · rename_i hup
    rw [Bool.not_eq_true] at hup
    rw [hup, Bool.not_false, Bool.and_true]

theorem sound_mapValues (hsound : map.Sound)
    (f : LruElement SessionID (Option (Session ρ)) → LruElement SessionID (Option (Session ρ)))
    (hf : ∀ e, (f e).key = e.key) :
    Sound { map with lru := map.lru.map f } ∧
      (map.lru.map f).map LruElement.key = map.lru.map LruElement.key := by
  have hkeys : (map.lru.map f).map LruElement.key = map.lru.map LruElement.key := by
    rw [List.map_map]
    exact List.map_congr_left (fun e _ => hf e)
  refine ⟨⟨?_, ?_, hsound.grown⟩, hkeys⟩
  · show ((map.lru.map f).map LruElement.key).Nodup
    rw [hkeys]
    exact hsound.nodup
  · show (map.lru.map f).length + map.freeList.length = map.blocks.capacity
    rw [List.length_map]
    exact hsound.room

/-- **UPDATES** change no id and make no session null. -/
theorem updateSessions_spec (hsound : s.sessionMap.Sound) (halive : Alive s.sessionMap)
    (update : Session ρ → Session ρ) :
    ∃ map : SessionMap ρ, map.Sound ∧ map.maxElements = s.sessionMap.maxElements ∧ Alive map ∧
      map.lru.map LruElement.key = s.live ∧
      s.updateSessions update = { s with sessionMap := map } := by
  obtain ⟨hsound', hkeys⟩ := sound_mapValues hsound
    (fun e => { e with value := e.value.map update }) (fun _ => rfl)
  refine ⟨_, hsound', rfl, ?_, hkeys, rfl⟩
  intro e he
  obtain ⟨e', he', rfl⟩ := List.mem_map.mp he
  show (e'.value.map update).isSome = true
  rw [Option.isSome_map]
  exact halive e' he'

theorem maybeUpdateConfig_spec (hsound : s.sessionMap.Sound) (halive : Alive s.sessionMap)
    (config : Option (Session ρ → Session ρ)) :
    ∃ map : SessionMap ρ, map.Sound ∧ map.maxElements = s.sessionMap.maxElements ∧ Alive map ∧
      map.lru.map LruElement.key = s.live ∧
      s.maybeUpdateConfig config = { s with sessionMap := map } := by
  cases config with
  | none => exact ⟨s.sessionMap, hsound, rfl, halive, rfl, rfl⟩
  | some update => exact updateSessions_spec hsound halive update

/-- **A COMMAND TO A SESSION** puts it in front, and fails for an id that is not live. -/
theorem runSession_spec (hsound : s.sessionMap.Sound) (halive : Alive s.sessionMap) (id : SessionID)
    (run : Session ρ → Session ρ) (config : Option (Session ρ → Session ρ)) :
    ∃ map : SessionMap ρ, map.Sound ∧ map.maxElements = s.sessionMap.maxElements ∧
      Alive map ∧ (s.runSession id run config).2 = { s with sessionMap := map } ∧
      (((s.runSession id run config).1 = true ∧ id ∈ s.live ∧
          map.lru.map LruElement.key = id :: s.live.filter (· ≠ id)) ∨
        ((s.runSession id run config).1 = false ∧ map.lru.map LruElement.key = s.live)) := by
  rw [runSession]
  cases hlookup : s.sessionMap.mutableLookup id with
  | none => exact ⟨s.sessionMap, hsound, rfl, halive, rfl, Or.inr ⟨rfl, rfl⟩⟩
  | some r =>
    obtain ⟨value, map⟩ := r
    obtain ⟨hsound₁, hmax₁, hmem, hlru₁⟩ := mutableLookup_spec hsound hlookup
    cases value with
    | none => exact absurd (halive _ hmem) Bool.false_ne_true
    | some session =>
      have halive₁ : Alive map := by
        intro e he
        rw [hlru₁] at he
        rcases List.mem_cons.mp he with rfl | he
        · rfl
        · exact halive e (List.eraseP_subset he)
      have halive₂ : Alive (map.modifyValue id (Option.map run)) := by
        intro e he
        obtain ⟨e', he', rfl⟩ := List.mem_map.mp he
        split
        · show (e'.value.map run).isSome = true
          rw [Option.isSome_map]
          exact halive₁ e' he'
        · exact halive₁ e' he'
      obtain ⟨map', hsound', hmax', halive', hkeys', hconfig⟩ :=
        maybeUpdateConfig_spec
          (s := { s with sessionMap := map.modifyValue id (Option.map run) })
          (hsound₁.modifyValue id _) halive₂ config
      refine ⟨map', hsound', hmax'.trans hmax₁, halive', hconfig, Or.inl ⟨rfl, ?_, ?_⟩⟩
      · exact List.mem_map.mpr ⟨_, hmem, rfl⟩
      · have hkeys : (map.modifyValue id (Option.map run)).lru.map LruElement.key
            = map.lru.map LruElement.key :=
          (sound_mapValues hsound₁ _ (fun e => by split <;> rfl)).2
        rw [hkeys']
        show (map.modifyValue id (Option.map run)).lru.map LruElement.key = _
        rw [hkeys, hlru₁, List.map_cons, map_key_removeFromLru hsound]
        rfl

/-- What creating a session leaves: the new one in front, and where the map was full the last
    one gone. -/
structure Created (s : SessionHandler ρ) (id : SessionID) (map : SessionMap ρ) : Prop where
  sound : map.Sound
  max_eq : map.maxElements = s.sessionMap.maxElements
  alive : Alive map
  keys : map.lru.map LruElement.key
    = id :: if s.maxSessionSize ≤ s.live.length then s.live.dropLast else s.live

/-- **CREATE_SESSION** fails without a change to the sessions, or creates one. -/
theorem createSession_spec {s' : SessionHandler ρ} (hsound : s.sessionMap.Sound)
    (halive : Alive s.sessionMap) (hmax : s.sessionMap.maxElements = s.maxSessionSize)
    (hrange : 0 < s.maxSessionSize ∧ s.maxSessionSize ≤ 128) {now : Int} {draws : List SessionID}
    {new : Session ρ} {update : Session ρ → Session ρ} {r : Option SessionID}
    (h : s.createSession now draws new update = some (r, s')) :
    (r = none ∧ s' = s) ∨
      ∃ id map, r = some id ∧ Created s id map ∧
        s' = { s with
          sessionMap := map, lastSessionEmptyTime := .infinitePast
          lastCreateSessionTime := .at now } := by
  rw [createSession] at h
  dsimp only at h
  split at h
  · obtain ⟨rfl, rfl⟩ := Prod.mk.inj (Option.some.inj h)
    exact Or.inl ⟨rfl, rfl⟩
  · -- what is done to the map behind the check of its size
    have hcreate : ∀ (map₀ : SessionMap ρ), map₀.Sound → map₀.maxElements = s.maxSessionSize →
        Alive map₀ → map₀.lru.length < s.maxSessionSize →
        (do
          let id ← createNewSessionID { s with
            sessionMap := map₀, lastCreateSessionTime := .at now } draws
          let map ← map₀.insert id (fun _ => some new)
          let s := updateSessions { s with
            sessionMap := map, lastCreateSessionTime := .at now } update
          return (some id, { s with lastSessionEmptyTime := .infinitePast }))
          = some (r, s') →
        ∃ id map, r = some id ∧ map.Sound ∧ map.maxElements = s.maxSessionSize ∧ Alive map ∧
          map.lru.map LruElement.key = id :: map₀.lru.map LruElement.key ∧
          s' = { s with
            sessionMap := map, lastSessionEmptyTime := .infinitePast
            lastCreateSessionTime := .at now } := by
      intro map₀ hsound₀ hmax₀ halive₀ hroom hrun
      obtain ⟨id, hid, hrun⟩ := Option.bind_eq_some_iff.mp hrun
      obtain ⟨map, hinsert, hrun⟩ := Option.bind_eq_some_iff.mp hrun
      have hfresh : id ∉ map₀.lru.map LruElement.key := by
        have hnew := List.find?_some hid
        rw [decide_eq_true_eq] at hnew
        intro hmem
        obtain ⟨e, he, hkey⟩ := List.mem_map.mp hmem
        have : map₀.hasKey id = true :=
          List.any_eq_true.mpr ⟨e, he, decide_eq_true hkey⟩
        rw [this] at hnew
        cases hnew.2
      obtain ⟨map', old, hinsert', hsound', hmax', hlru', -⟩ :=
        insert_spec hsound₀
          (by rw [hmax₀]; exact Blocks.fills_of_le hrange.2 hrange.1)
          (by rw [hmax₀]; exact hrange.1) id (fun _ => some new)
      obtain rfl := Option.some.inj (hinsert.symm.trans hinsert')
      rw [keptBy, if_pos (Or.inr (by rw [hmax₀]; exact hroom)),
        removeFromLru_of_notMem hfresh] at hlru'
      have halive' : Alive map := by
        intro e he
        rw [hlru'] at he
        rcases List.mem_cons.mp he with rfl | he
        · rfl
        · exact halive₀ e he
      obtain ⟨map₂, hsound₂, hmax₂, halive₂, hkeys₂, hupdate⟩ :=
        updateSessions_spec (s := { s with sessionMap := map, lastCreateSessionTime := .at now })
          hsound' halive' update
      rw [hupdate] at hrun
      obtain ⟨rfl, rfl⟩ := Prod.mk.inj (Option.some.inj hrun)
      refine ⟨id, map₂, rfl, hsound₂, hmax₂.trans (hmax'.trans hmax₀), halive₂, ?_, rfl⟩
      rw [hkeys₂]
      show map.lru.map LruElement.key = _
      rw [hlru', List.map_cons]
    have hlen : s.live.length = s.sessionMap.lru.length := List.length_map _
    split at h
    · rename_i hfull
      replace hfull : s.maxSessionSize ≤ s.sessionMap.lru.length := hfull
      have hne : s.sessionMap.lru ≠ [] := by
        intro hnil
        rw [hnil] at hfull
        exact Nat.not_succ_le_zero _ (Nat.lt_of_lt_of_le hrange.1 hfull)
      split at h
      · rename_i hnone
        exact absurd (List.getLast?_eq_none_iff.mp hnone) hne
      · rename_i oldest holdest
        obtain ⟨hsound₁, hmax₁, hlru₁⟩ :=
          erase_spec (hsound.modifyValue oldest.key (fun _ => none)) oldest.key
        rw [removeFromLru_modifyValue hsound, removeFromLru_getLast hsound.nodup holdest] at hlru₁
        have halive₁ : Alive ((s.sessionMap.modifyValue oldest.key fun _ => none).erase
            oldest.key) := by
          intro e he
          rw [hlru₁] at he
          exact halive e (List.dropLast_subset _ he)
        have hroom : ((s.sessionMap.modifyValue oldest.key fun _ => none).erase
            oldest.key).lru.length < s.maxSessionSize := by
          have hle := hsound.length_le
          rw [hlru₁, List.length_dropLast]
          omega
        obtain ⟨id, map, hr, hsound', hmax', halive', hkeys, hs'⟩ :=
          hcreate _ hsound₁ (hmax₁.trans hmax) halive₁ hroom h
        refine Or.inr ⟨id, map, hr, ⟨hsound', hmax'.trans hmax.symm, halive', ?_⟩, hs'⟩
        rw [hkeys, hlru₁, if_pos (by rw [hlen]; exact hfull), List.map_dropLast]
        rfl
    · rename_i hfull
      replace hfull : ¬ s.maxSessionSize ≤ s.sessionMap.lru.length := hfull
      obtain ⟨id, map, hr, hsound', hmax', halive', hkeys, hs'⟩ :=
        hcreate s.sessionMap hsound hmax halive (Nat.lt_of_not_le hfull) h
      refine Or.inr ⟨id, map, hr, ⟨hsound', hmax'.trans hmax.symm, halive', ?_⟩, hs'⟩
      rw [hkeys, if_neg (by rw [hlen]; exact hfull)]
      rfl

end SessionHandler

/-! ## Runs -/

/-- What is remembered of a run: the ids of the sessions in the order of their use, the last
    one first, and the reading at which the last session went. -/
structure Past where
  used : List SessionID
  emptySince : Int

namespace SessionHandler

/-- The sessions that a command used. -/
def usedBy (s : SessionHandler ρ) (input : Input ρ) (out : Output) : List SessionID :=
  if s.isAvailable = false ∨ out.sessionFailure = true then []
  else
    match input with
    | .createSession _ _ _ _ => [out.id]
    | .sendKey id _ _ => [id]
    | .testSendKey id _ => [id]
    | .sendCommand id _ _ => [id]
    | _ => []

/-- The reading of the clock at the last deletion of a command. -/
def lastDeletion (s : SessionHandler ρ) : Input ρ → Int
  | .deleteSession _ now => now
  | .cleanup _ _ _ deletedAt => deletedAt (s.live.length - 1)
  | _ => 0

/-- The past after a command. -/
def Past.after (past : Past) (s : SessionHandler ρ) (input : Input ρ) (out : Output)
    (s' : SessionHandler ρ) : Past where
  used := s.usedBy input out ++ past.used
  emptySince := if s.live ≠ [] ∧ s'.live = [] then s.lastDeletion input else past.emptySince

/-- The handlers that a run can reach, with its past. -/
inductive Reachable (flags : Flags) : Past → SessionHandler ρ → Prop where
  | create (hasEngine : Bool) (now : Int) :
      Reachable flags { used := [], emptySince := now } (create flags hasEngine now)
  | startWatchDog {past : Past} {s : SessionHandler ρ} :
      Reachable flags past s → Reachable flags past s.startWatchDog
  | evalCommand {past : Past} {s s' : SessionHandler ρ} (input : Input ρ) {out : Output} :
      Reachable flags past s → s.evalCommand input = some (out, s') →
      Reachable flags (Past.after past s input out s') s'

/-! ## What a command keeps -/

/-- The ids are in the order of their last use. -/
def InOrderOfUse (used ids : List SessionID) : Prop :=
  ids ⊆ used ∧ ids.Pairwise (fun a b => used.idxOf a < used.idxOf b)

theorem InOrderOfUse.sublist {used ids ids' : List SessionID} (h : InOrderOfUse used ids)
    (hsub : ids'.Sublist ids) : InOrderOfUse used ids' :=
  ⟨fun _ hid => h.1 (hsub.subset hid), h.2.sublist hsub⟩

theorem InOrderOfUse.cons {used ids : List SessionID} (h : InOrderOfUse used ids)
    {id : SessionID} (hid : id ∉ ids) : InOrderOfUse (id :: used) (id :: ids) := by
  have hindex : ∀ x ∈ ids, (id :: used).idxOf x = used.idxOf x + 1 := by
    intro x hx
    exact List.idxOf_cons_ne _ (fun heq => hid (heq ▸ hx))
  refine ⟨?_, List.pairwise_cons.mpr ⟨?_, ?_⟩⟩
  · intro x hx
    rcases List.mem_cons.mp hx with rfl | hx
    · exact List.mem_cons_self ..
    · exact List.mem_cons_of_mem _ (h.1 hx)
  · intro x hx
    rw [List.idxOf_cons_self, hindex x hx]
    exact Nat.zero_lt_succ _
  · refine h.2.imp_of_mem ?_
    intro a b ha hb hab
    rw [hindex a ha, hindex b hb]
    exact Nat.succ_lt_succ hab

/-- What every run keeps. -/
structure Invariant (flags : Flags) (past : Past) (s : SessionHandler ρ) : Prop where
  sound : s.sessionMap.Sound
  max_eq : s.sessionMap.maxElements = s.maxSessionSize
  range : 0 < s.maxSessionSize ∧ s.maxSessionSize ≤ 128
  alive : Alive s.sessionMap
  idle : s.lastSessionEmptyTime = .infinitePast ↔ s.sessionMap.lru ≠ []
  empty : s.sessionMap.lru = [] → s.lastSessionEmptyTime = .at past.emptySince
  watch : ∀ interval, s.sessionWatchDog = some interval → 0 < interval
  order : InOrderOfUse past.used s.live
  flags_eq : s.flags = flags.effective

theorem invariant_create (flags : Flags) (hasEngine : Bool) (now : Int) :
    Invariant flags { used := [], emptySince := now }
      (create flags hasEngine now : SessionHandler ρ) where
  sound := sound_ofMax _
  max_eq := rfl
  range := by
    show 0 < (max 2 (min flags.effective.maxSessionSize 128)).toNat
      ∧ (max 2 (min flags.effective.maxSessionSize 128)).toNat ≤ 128
    omega
  alive := fun e he => absurd he List.not_mem_nil
  idle := ⟨fun h => (by cases h), fun h => absurd rfl h⟩
  empty := fun _ => rfl
  watch := fun interval h => by cases h
  order := ⟨List.nil_subset _, List.Pairwise.nil⟩
  flags_eq := rfl

variable {past : Past} {s : SessionHandler ρ}

theorem invariant_startWatchDog {flags : Flags} (h : Invariant flags past s) :
    Invariant flags past s.startWatchDog := by
  rw [startWatchDog]
  split
  · exact h
  · refine { h with watch := ?_ }
    intro interval hinterval
    obtain rfl := Option.some.inj hinterval
    exact lt_of_lt_of_le (by decide) (le_max_left _ _)

theorem live_eq_nil : s.live = [] ↔ s.sessionMap.lru = [] :=
  List.map_eq_nil_iff

/-- What a command can do. -/
inductive Effect (s : SessionHandler ρ) (input : Input ρ) (out : Output) :
    SessionHandler ρ → Prop where
  -- the sessions are rewritten in place, and one of them may come to the front
  | rewrites {map : SessionMap ρ} {available : Bool} :
      (s.isAvailable = true → ∀ id now isApplicationAlive deletedAt,
        input ≠ .cleanup id now isApplicationAlive deletedAt) →
      map.Sound → map.maxElements = s.sessionMap.maxElements → Alive map →
      (s.usedBy input out = [] ∧ map.lru.map LruElement.key = s.live) ∨
        (∃ id ∈ s.live, s.usedBy input out = [id] ∧
          map.lru.map LruElement.key = id :: s.live.filter (· ≠ id)) →
      Effect s input out { s with sessionMap := map, isAvailable := available }
  | creates {now : Int} {draws : List SessionID} {new : Session ρ}
      {update : Session ρ → Session ρ} {id : SessionID} {map : SessionMap ρ} :
      input = .createSession now draws new update → s.usedBy input out = [id] →
      Created s id map →
      Effect s input out
        { s with
          sessionMap := map, lastSessionEmptyTime := .infinitePast
          lastCreateSessionTime := .at now }
  | deletes {id : SessionID} {now : Int} :
      input = .deleteSession id now → s.usedBy input out = [] →
      Effect s input out (s.deleteSessionID id now).2
  | cleans {id : SessionID} {now : Int} {isApplicationAlive : Session ρ → Bool}
      {deletedAt : Nat → Int} {s' : SessionHandler ρ} :
      input = .cleanup id now isApplicationAlive deletedAt → s.usedBy input out = [] →
      s.isAvailable = true → s.cleanup now isApplicationAlive deletedAt = some s' →
      Effect s input out s'

variable {input : Input ρ} {out : Output}

theorem Effect.same {flags : Flags} (h : Invariant flags past s) (available : Bool)
    (hinput : s.isAvailable = true → ∀ id now isApplicationAlive deletedAt,
      input ≠ .cleanup id now isApplicationAlive deletedAt) (hused : s.usedBy input out = []) :
    Effect s input out { s with isAvailable := available } :=
  .rewrites hinput h.sound rfl h.alive (Or.inl ⟨hused, rfl⟩)

theorem Effect.runs {flags : Flags} (h : Invariant flags past s)
    (hinput : ∀ id now isApplicationAlive deletedAt,
      input ≠ .cleanup id now isApplicationAlive deletedAt) (id : SessionID)
    (run : Session ρ → Session ρ) (config : Option (Session ρ → Session ρ))
    (hused : ∀ out : Output, s.usedBy input out = if out.sessionFailure = true then [] else [id]) :
    Effect s input (finish id (s.runSession id run config)).1 (s.runSession id run config).2 := by
  obtain ⟨map, hsound, hmax, halive, hmap, hkeys⟩ := runSession_spec h.sound h.alive id run config
  rw [hmap]
  refine .rewrites (fun _ => hinput) hsound hmax halive ?_
  rcases hkeys with ⟨hok, hlive, hkeys⟩ | ⟨hfail, hkeys⟩
  · refine Or.inr ⟨id, hlive, ?_, hkeys⟩
    rw [hused, finish, hok]
    rfl
  · refine Or.inl ⟨?_, hkeys⟩
    rw [hused, finish, hfail]
    rfl

theorem Effect.updates {flags : Flags} (h : Invariant flags past s)
    (hinput : ∀ id now isApplicationAlive deletedAt,
      input ≠ .cleanup id now isApplicationAlive deletedAt) (hused : s.usedBy input out = [])
    (config : Option (Session ρ → Session ρ)) :
    Effect s input out (s.maybeUpdateConfig config) := by
  obtain ⟨map, hsound, hmax, halive, hkeys, hmap⟩ := maybeUpdateConfig_spec h.sound h.alive config
  rw [hmap]
  exact .rewrites (fun _ => hinput) hsound hmax halive
    (Or.inl ⟨hused, hkeys⟩)

variable {s' : SessionHandler ρ}

/-- **ONE COMMAND** does one of these. -/
theorem evalCommand_effect {flags : Flags} (h : Invariant flags past s)
    (heval : s.evalCommand input = some (out, s')) : Effect s input out s' := by
  rw [evalCommand.eq_def] at heval
  split at heval
  · rename_i hdown
    obtain ⟨rfl, rfl⟩ := Prod.mk.inj (Option.some.inj heval)
    refine .same h s.isAvailable (fun hup => ?_) (if_pos (Or.inl hdown))
    rw [hdown] at hup
    cases hup
  · rename_i hup
    have havailable : s.isAvailable = true := by simpa using hup
    have hused : ∀ out : Output, s.usedBy input out
        = if out.sessionFailure = true then [] else
          match input with
          | .createSession _ _ _ _ => [out.id]
          | .sendKey id _ _ => [id]
          | .testSendKey id _ => [id]
          | .sendCommand id _ _ => [id]
          | _ => [] := by
      intro out
      rw [usedBy.eq_def]
      simp only [havailable, Bool.true_eq_false, false_or]
    cases input with
    | createSession now draws new update =>
      obtain ⟨⟨r, s₁⟩, hcreate, heq⟩ := Option.map_eq_some_iff.mp heval
      rcases createSession_spec h.sound h.alive h.max_eq h.range hcreate with
        ⟨rfl, rfl⟩ | ⟨id, map, rfl, hcreated, rfl⟩
      · obtain ⟨rfl, rfl⟩ := Prod.mk.inj heq
        exact .same h _ (fun _ _ _ _ _ hinput => by cases hinput) (hused _)
      · obtain ⟨rfl, rfl⟩ := Prod.mk.inj heq
        exact .creates rfl (hused _) hcreated
    | deleteSession id now =>
      obtain ⟨rfl, rfl⟩ := Prod.mk.inj (Option.some.inj heval)
      exact .deletes rfl (hused _)
    | sendKey id run config =>
      obtain ⟨rfl, rfl⟩ := Prod.mk.inj (Option.some.inj heval)
      exact .runs h (fun _ _ _ _ hinput => by cases hinput) id run config hused
    | testSendKey id run =>
      obtain ⟨rfl, rfl⟩ := Prod.mk.inj (Option.some.inj heval)
      exact .runs h (fun _ _ _ _ hinput => by cases hinput) id run none hused
    | sendCommand id run config =>
      obtain ⟨rfl, rfl⟩ := Prod.mk.inj (Option.some.inj heval)
      exact .runs h (fun _ _ _ _ hinput => by cases hinput) id run config hused
    | getConfig id update =>
      obtain ⟨rfl, rfl⟩ := Prod.mk.inj (Option.some.inj heval)
      exact .updates h (fun _ _ _ _ hinput => by cases hinput) (hused _) (some update)
    | setConfig id config =>
      obtain ⟨rfl, rfl⟩ := Prod.mk.inj (Option.some.inj heval)
      exact .updates h (fun _ _ _ _ hinput => by cases hinput)
        (by rw [hused]; split <;> rfl) config
    | setRequest id request =>
      obtain ⟨rfl, rfl⟩ := Prod.mk.inj (Option.some.inj heval)
      exact .updates h (fun _ _ _ _ hinput => by cases hinput)
        (by rw [hused]; split <;> rfl) request
    | reload id update =>
      obtain ⟨rfl, rfl⟩ := Prod.mk.inj (Option.some.inj heval)
      exact .updates h (fun _ _ _ _ hinput => by cases hinput) (hused _) (some update)
    | reloadAndWait id update =>
      obtain ⟨rfl, rfl⟩ := Prod.mk.inj (Option.some.inj heval)
      exact .updates h (fun _ _ _ _ hinput => by cases hinput) (hused _) (some update)
    | shutdown id =>
      obtain ⟨rfl, rfl⟩ := Prod.mk.inj (Option.some.inj heval)
      exact .same h false (fun _ _ _ _ _ hinput => by cases hinput) (hused _)
    | cleanup id now isApplicationAlive deletedAt =>
      obtain ⟨s₁, hclean, heq⟩ := Option.map_eq_some_iff.mp heval
      obtain ⟨rfl, rfl⟩ := Prod.mk.inj heq
      exact .cleans rfl (hused _) havailable hclean
    | syncData id | clearUserHistory id | clearUserPrediction id | clearUnusedUserPrediction id
    | noOperation id | getServerVersion id | other =>
      obtain ⟨rfl, rfl⟩ := Prod.mk.inj (Option.some.inj heval)
      exact .same h s.isAvailable (fun _ _ _ _ _ hinput => by cases hinput) (hused _)
    | importUserDictionary id ok | addUserHistory id ok | sendEngineReloadRequest id ok
    | reloadSupplementalModel id ok =>
      obtain ⟨rfl, rfl⟩ := Prod.mk.inj (Option.some.inj heval)
      exact .same h s.isAvailable (fun _ _ _ _ _ hinput => by cases hinput)
        (by rw [hused]; split <;> rfl)

theorem Past.after_of_rewrites (h : s.live ≠ [] → s'.live ≠ []) :
    Past.after past s input out s' = { past with used := s.usedBy input out ++ past.used } := by
  rw [Past.after, if_neg (fun hempty => h hempty.1 hempty.2)]

variable {map : SessionMap ρ}

theorem Created.ne_nil {id : SessionID} (h : Created s id map) : map.lru ≠ [] := by
  intro hnil
  have hkeys := h.keys
  rw [hnil] at hkeys
  cases hkeys

theorem Invariant.rewrite {flags : Flags} (h : Invariant flags past s) (hsound : map.Sound)
    (hmax : map.maxElements = s.sessionMap.maxElements) (halive : Alive map)
    (hempty : map.lru = [] ↔ s.sessionMap.lru = []) {used : List SessionID}
    (horder : InOrderOfUse used (map.lru.map LruElement.key)) (available : Bool) :
    Invariant flags { past with used := used }
      { s with sessionMap := map, isAvailable := available } where
  sound := hsound
  max_eq := hmax.trans h.max_eq
  range := h.range
  alive := halive
  idle := by
    rw [ne_eq, hempty]
    exact h.idle
  empty := fun hnil => h.empty (hempty.mp hnil)
  watch := h.watch
  order := horder
  flags_eq := h.flags_eq

theorem Invariant.delete {flags : Flags} (h : Invariant flags past s) (hsound : map.Sound)
    (hmax : map.maxElements = s.sessionMap.maxElements) (hsub : map.lru.Sublist s.sessionMap.lru)
    (now : Int) (available : Bool) (cleaned : AbslTime) :
    Invariant flags
      { past with
        emptySince := if s.live ≠ [] ∧ map.lru = [] then now else past.emptySince }
      { s with
        sessionMap := map
        lastSessionEmptyTime := emptyTimeAfter s.sessionMap map s.lastSessionEmptyTime now
        lastCleanupTime := cleaned
        isAvailable := available } where
  sound := hsound
  max_eq := hmax.trans h.max_eq
  range := h.range
  alive := Alive.of_subset h.alive hsub.subset
  idle := emptyTimeAfter_iff h.idle hsub.subset
  empty := by
    intro hnil
    replace hnil : map.lru = [] := hnil
    show emptyTimeAfter s.sessionMap map s.lastSessionEmptyTime now = _
    rw [emptyTimeAfter]
    by_cases hlive : s.sessionMap.lru = []
    · rw [if_neg (fun hne => hne.1 hlive), if_neg (fun hne => hne.1 (live_eq_nil.mpr hlive))]
      exact h.empty hlive
    · rw [if_pos ⟨hlive, hnil⟩, if_pos ⟨fun hne => hlive (live_eq_nil.mp hne), hnil⟩]
  watch := h.watch
  order := h.order.sublist (hsub.map _)
  flags_eq := h.flags_eq

/-- **EVERY COMMAND** keeps the invariant. -/
theorem Effect.invariant {flags : Flags} (h : Invariant flags past s)
    (heffect : Effect s input out s') :
    Invariant flags (Past.after past s input out s') s' := by
  cases heffect with
  | @rewrites map available _ hsound hmax halive hkeys =>
    have hempty : map.lru = [] ↔ s.sessionMap.lru = [] := by
      rw [← List.map_eq_nil_iff (f := LruElement.key), ← live_eq_nil]
      rcases hkeys with ⟨-, hkeys⟩ | ⟨id, hid, -, hkeys⟩
      · rw [hkeys]
      · rw [hkeys]
        exact ⟨fun hnil => (by cases hnil), fun hnil => by rw [hnil] at hid; cases hid⟩
    have horder : InOrderOfUse (s.usedBy input out ++ past.used)
        (map.lru.map LruElement.key) := by
      rcases hkeys with ⟨hused, hkeys⟩ | ⟨id, hid, hused, hkeys⟩
      · rw [hused, hkeys]
        exact h.order
      · rw [hused, hkeys]
        exact (h.order.sublist List.filter_sublist).cons (by simp)
    rw [Past.after_of_rewrites (by
      intro hne hnil
      exact hne (live_eq_nil.mpr (hempty.mp (live_eq_nil.mp hnil))))]
    exact h.rewrite hsound hmax halive hempty horder available
  | @creates now draws new update id map hinput hused hcreated =>
    rw [Past.after_of_rewrites (fun _ hnil => hcreated.ne_nil (live_eq_nil.mp hnil))]
    have hnodup := hcreated.sound.nodup
    rw [hcreated.keys, List.nodup_cons] at hnodup
    exact
      { sound := hcreated.sound
        max_eq := hcreated.max_eq.trans h.max_eq
        range := h.range
        alive := hcreated.alive
        idle := ⟨fun _ => hcreated.ne_nil, fun _ => rfl⟩
        empty := fun hnil => absurd hnil hcreated.ne_nil
        watch := h.watch
        order := by
          show InOrderOfUse (s.usedBy input out ++ past.used) (map.lru.map LruElement.key)
          rw [hused, hcreated.keys]
          refine InOrderOfUse.cons (h.order.sublist ?_) hnodup.1
          split
          · exact List.dropLast_sublist _
          · exact List.Sublist.refl _
        flags_eq := h.flags_eq }
  | @deletes id now hinput hused =>
    obtain ⟨map, hsound, hmax, hlru, hdelete⟩ :=
      deleteSessionID_spec h.sound h.alive h.idle id now
    rw [hdelete]
    have hsub : map.lru.Sublist s.sessionMap.lru := by
      rw [hlru]
      exact List.eraseP_sublist
    have hpast : Past.after past s input out { s with
          sessionMap := map
          lastSessionEmptyTime := emptyTimeAfter s.sessionMap map s.lastSessionEmptyTime now }
        = { past with
            emptySince := if s.live ≠ [] ∧ map.lru = [] then now else past.emptySince } := by
      rw [Past.after, hused, hinput]
      simp only [live_eq_nil]
      rfl
    rw [hpast]
    exact h.delete hsound hmax hsub now s.isAvailable s.lastCleanupTime
  | @cleans id now isApplicationAlive deletedAt _ hinput hused _ hclean =>
    obtain ⟨map, hsound, hmax, hlru, last, rfl, hcleanup⟩ :=
      cleanup_spec h.sound h.alive h.idle now isApplicationAlive deletedAt
    rw [hcleanup] at hclean
    obtain rfl := Option.some.inj hclean
    have hsub : map.lru.Sublist s.sessionMap.lru := by
      rw [hlru]
      exact List.filter_sublist
    have hpast : ∀ s' : SessionHandler ρ, s'.sessionMap = map →
        Past.after past s input out s'
        = { past with
            emptySince := if s.live ≠ [] ∧ map.lru = [] then
              deletedAt (s.live.length - 1) else past.emptySince } := by
      rintro s' rfl
      rw [Past.after, hused, hinput]
      simp only [live_eq_nil]
      rfl
    rw [hpast _ rfl]
    exact h.delete hsound hmax hsub _ _ _

/-! ## Which sessions go -/

/-- Why a session may be gone after a command. -/
inductive Disappears (used : List SessionID) (s : SessionHandler ρ) :
    Input ρ → SessionID → Prop where
  | deleted (id : SessionID) (now : Int) : Disappears used s (.deleteSession id now) id
  | expired {id : SessionID} {now : Int} {isApplicationAlive : Session ρ → Bool}
      {deletedAt : Nat → Int} {e : LruElement SessionID (Option (Session ρ))}
      {session : Session ρ} :
      e ∈ s.sessionMap.lru → e.value = some session →
      s.expires now isApplicationAlive session = true →
      Disappears used s (.cleanup id now isApplicationAlive deletedAt) e.key
  | leastRecentlyUsed {now : Int} {draws : List SessionID} {new : Session ρ}
      {update : Session ρ → Session ρ} {id : SessionID} :
      s.live.length = s.maxSessionSize →
      (∀ other ∈ s.live, other ≠ id → used.idxOf other < used.idxOf id) →
      Disappears used s (.createSession now draws new update) id

/-- **A SESSION IS GONE** only for one of these reasons. -/
theorem Effect.disappears {flags : Flags} (h : Invariant flags past s)
    (heffect : Effect s input out s') {id : SessionID} (hid : id ∈ s.live) (hgone : id ∉ s'.live) :
    Disappears past.used s input id := by
  cases heffect with
  | @rewrites map available _ _ _ _ hkeys =>
    replace hgone : id ∉ map.lru.map LruElement.key := hgone
    rcases hkeys with ⟨-, hkeys⟩ | ⟨front, -, -, hkeys⟩
    · rw [hkeys] at hgone
      exact absurd hid hgone
    · rw [hkeys, List.mem_cons, List.mem_filter, not_or] at hgone
      exact absurd ⟨hid, decide_eq_true hgone.1⟩ hgone.2
  | @creates now draws new update new_id map hinput _ hcreated =>
    replace hgone : id ∉ map.lru.map LruElement.key := hgone
    rw [hcreated.keys, List.mem_cons, not_or] at hgone
    rw [hinput]
    split at hgone
    · rename_i hfull
      have hlen : s.live.length ≤ s.maxSessionSize := by
        have := h.sound.length_le
        rw [h.max_eq] at this
        exact (List.length_map _).trans_le this
      refine .leastRecentlyUsed (Nat.le_antisymm hlen hfull) ?_
      -- the id is not in front of the last one, so it is the last one
      have hne : s.live ≠ [] := List.ne_nil_of_mem hid
      have hsplit := List.dropLast_append_getLast hne
      have hlast : id = s.live.getLast hne := by
        rw [← hsplit, List.mem_append, List.mem_singleton] at hid
        exact hid.resolve_left hgone.2
      have horder := h.order.2
      rw [← hsplit, List.pairwise_append] at horder
      intro other hother hotherNe
      rw [← hsplit, List.mem_append, List.mem_singleton] at hother
      rcases hother with hother | hother
      · rw [hlast]
        exact horder.2.2 other hother _ (List.mem_singleton_self _)
      · exact absurd (hother.trans hlast.symm) hotherNe
    · exact absurd hid hgone.2
  | @deletes id' now hinput _ =>
    obtain ⟨map, -, -, hlru, hdelete⟩ := deleteSessionID_spec h.sound h.alive h.idle id' now
    rw [hdelete] at hgone
    replace hgone : id ∉ map.lru.map LruElement.key := hgone
    rw [hlru, map_key_removeFromLru h.sound, List.mem_filter, not_and, decide_eq_true_eq] at hgone
    have hsame : id = id' := by
      by_contra hne
      exact hgone hid hne
    rw [hinput, hsame]
    exact .deleted id' now
  | @cleans _ now isApplicationAlive deletedAt _ hinput _ _ hclean =>
    obtain ⟨map, -, -, hlru, last, -, hcleanup⟩ :=
      cleanup_spec h.sound h.alive h.idle now isApplicationAlive deletedAt
    rw [hcleanup] at hclean
    obtain rfl := Option.some.inj hclean
    obtain ⟨e, he, rfl⟩ := List.mem_map.mp hid
    replace hgone : e.key ∉ map.lru.map LruElement.key := hgone
    obtain ⟨session, hsession⟩ := Option.isSome_iff_exists.mp (h.alive e he)
    have hexpires : s.expires now isApplicationAlive session = true := by
      by_contra hstays
      refine hgone (List.mem_map.mpr ⟨e, ?_, rfl⟩)
      rw [hlru, List.mem_filter, Stays, hsession]
      exact ⟨he, by simpa using hstays⟩
    rw [hinput]
    exact .expired he hsession hexpires

/-! ## When the server shuts down -/

/-- A `CLEANUP` that shuts the server down finds no session left, and the server without
    sessions for the timeout. -/
def ShutsDownIdle (past : Past) (s : SessionHandler ρ) (input : Input ρ) (out : Output)
    (s' : SessionHandler ρ) : Prop :=
  ∀ id now isApplicationAlive deletedAt, input = .cleanup id now isApplicationAlive deletedAt →
    s.isAvailable = true → s'.isAvailable = false →
    s'.live = [] ∧
      seconds s.flags.timeout ≤ now - (Past.after past s input out s').emptySince

/-- At a `CLEANUP` every live session expires. -/
def EverySessionExpires (s : SessionHandler ρ) (input : Input ρ) : Prop :=
  ∀ id now isApplicationAlive deletedAt, input = .cleanup id now isApplicationAlive deletedAt →
    s.isAvailable = true →
    ∀ e ∈ s.sessionMap.lru, e.value.any (s.expires now isApplicationAlive) = true

/-- **THE SHUTDOWN** is right exactly where no session stays: with one that stays, the time
    since `InfinitePast` is longer than every timeout. -/
theorem Effect.shutdown_iff {flags : Flags} (h : Invariant flags past s)
    (htimeout : 0 < s.flags.timeout) (heffect : Effect s input out s') :
    ShutsDownIdle past s input out s' ↔ EverySessionExpires s input := by
  have hinvariant := Effect.invariant h heffect
  cases heffect with
  | rewrites hinput =>
    constructor
    · intro _ id now isApplicationAlive deletedAt hcleanup hup
      exact absurd hcleanup (hinput hup id now isApplicationAlive deletedAt)
    · intro _ id now isApplicationAlive deletedAt hcleanup hup
      exact absurd hcleanup (hinput hup id now isApplicationAlive deletedAt)
  | creates hinput =>
    constructor
    · intro _ _ _ _ _ hcleanup
      rw [hinput] at hcleanup
      cases hcleanup
    · intro _ _ _ _ _ hcleanup
      rw [hinput] at hcleanup
      cases hcleanup
  | deletes hinput =>
    constructor
    · intro _ _ _ _ _ hcleanup
      rw [hinput] at hcleanup
      cases hcleanup
    · intro _ _ _ _ _ hcleanup
      rw [hinput] at hcleanup
      cases hcleanup
  | @cleans _ now isApplicationAlive deletedAt _ hinput hused hup hclean =>
    obtain ⟨map, -, -, hlru, last, hlast, hcleanup⟩ :=
      cleanup_spec h.sound h.alive h.idle now isApplicationAlive deletedAt
    rw [hcleanup] at hclean
    obtain rfl := Option.some.inj hclean
    constructor
    · intro hidle id' now' isApplicationAlive' deletedAt' hinput' _ e he
      rw [hinput] at hinput'
      cases hinput'
      by_contra hstays
      -- a session that stays keeps the idle clock at the sentinel
      have hmem : e ∈ map.lru := by
        rw [hlru, List.mem_filter, Stays]
        exact ⟨he, by simpa using hstays⟩
      have hpast : last = .infinitePast := hinvariant.idle.mpr (List.ne_nil_of_mem hmem)
      have hdown : (s.isAvailable && !(decide (0 < s.flags.timeout) &&
          (since now last).atLeast (s.suspendTime now + seconds s.flags.timeout))) = false := by
        rw [hpast, decide_eq_true htimeout]
        show (s.isAvailable && !(true && true)) = false
        rw [Bool.and_self, Bool.not_true, Bool.and_false]
      have hempty := (hidle _ _ _ _ hinput hup hdown).1
      have hnil : map.lru = [] := live_eq_nil.mp hempty
      rw [hnil] at hmem
      cases hmem
    · intro hall id' now' isApplicationAlive' deletedAt' hinput' _ hdown
      rw [hinput] at hinput'
      cases hinput'
      have hnil : map.lru = [] := by
        rw [hlru, List.filter_eq_nil_iff]
        intro e he
        rw [Stays, hall _ _ _ _ hinput hup e he]
        exact Bool.false_ne_true
      refine ⟨live_eq_nil.mpr hnil, ?_⟩
      have hempty := hinvariant.empty hnil
      replace hdown : (s.isAvailable && !(decide (0 < s.flags.timeout) &&
          (since now last).atLeast (s.suspendTime now + seconds s.flags.timeout))) = false :=
        hdown
      replace hempty : last = _ := hempty
      rw [hup, Bool.true_and, Bool.not_eq_false', decide_eq_true htimeout, Bool.true_and,
        hempty, since] at hdown
      have hle := of_decide_eq_true hdown
      have hsuspend := suspendTime_nonneg h.watch now
      omega

theorem Reachable.invariant {flags : Flags} (h : Reachable flags past s) :
    Invariant flags past s := by
  induction h with
  | create hasEngine now => exact invariant_create flags hasEngine now
  | startWatchDog _ ih => exact invariant_startWatchDog ih
  | evalCommand input _ heval ih => exact Effect.invariant ih (evalCommand_effect ih heval)

/-- **WHICH SESSIONS THE SERVER KEEPS**: in every state of every run the idle clock is at the
    sentinel exactly while there are sessions, and there are at most `max_session_size` of
    them; a session is gone after a command only as `Disappears` says; and a `CLEANUP` shuts
    an idle server down, and no other, exactly when it leaves no session. -/
theorem keepsSessions (flags : Flags) (htimeout : 0 < flags.timeout) (past : Past)
    (s : SessionHandler ρ) (h : Reachable flags past s) :
    (s.lastSessionEmptyTime = .infinitePast ↔ s.live ≠ []) ∧
      s.live.length ≤ s.maxSessionSize ∧
      ∀ input out s', s.evalCommand input = some (out, s') →
        (∀ id ∈ s.live, id ∉ s'.live → Disappears past.used s input id) ∧
        (ShutsDownIdle past s input out s' ↔ EverySessionExpires s input) := by
  have hinvariant := h.invariant
  refine ⟨?_, ?_, ?_⟩
  · rw [ne_eq, live_eq_nil]
    exact hinvariant.idle
  · rw [live, List.length_map, ← hinvariant.max_eq]
    exact hinvariant.sound.length_le
  · intro input out s' heval
    have heffect := evalCommand_effect hinvariant heval
    have hpositive : 0 < s.flags.timeout := by
      rw [hinvariant.flags_eq, Flags.effective]
      split
      · show (0 : Int) < 60
        decide
      · exact htimeout
    exact ⟨fun id hid hgone => heffect.disappears hinvariant hid hgone,
      heffect.shutdown_iff hinvariant hpositive⟩

/-! ## A session and a cleanup -/

/-- A server with a timeout of a minute. -/
def minuteServer : SessionHandler Unit := create { timeout := 60 } true 0

/-- A session is created at 0. -/
def firstSession : Input Unit :=
  .createSession 0 [1] { createSessionTime := .at 0, lastCommandTime := .infinitePast, rest := () }
    (fun session => session)

/-- A cleanup after a second. -/
def cleanupAfterSecond : Input Unit := .cleanup 0 (seconds 1) (fun _ => true) (fun _ => seconds 1)

/-- The server with one session. -/
theorem keepsSessions_one :
    ∃ past, ∃ s : SessionHandler Unit, s.live = [1] ∧
      (s.lastSessionEmptyTime = .infinitePast ↔ s.live ≠ []) ∧
      s.live.length ≤ s.maxSessionSize ∧
      ∀ input out s', s.evalCommand input = some (out, s') →
        (∀ id ∈ s.live, id ∉ s'.live → Disappears past.used s input id) ∧
        (ShutsDownIdle past s input out s' ↔ EverySessionExpires s input) := by
  have hrun : (minuteServer.evalCommand firstSession).any (fun r => r.2.live = [1]) = true := by
    decide +kernel
  obtain ⟨⟨out, s⟩, hs, hlive⟩ := (Option.any_eq_true _ _).mp hrun
  exact ⟨_, s, of_decide_eq_true hlive, keepsSessions { timeout := 60 } (by decide) _ s
    (.evalCommand firstSession (.create true 0) hs)⟩

/-- **THE SERVER SHUTS DOWN WITH A LIVE SESSION**: one that was created a second ago. -/
theorem shutsDown_with_session :
    ¬ ∀ flags : Flags, 0 < flags.timeout → ∀ past, ∀ s : SessionHandler Unit,
      Reachable flags past s →
      (s.lastSessionEmptyTime = .infinitePast ↔ s.live ≠ []) ∧
      s.live.length ≤ s.maxSessionSize ∧
      ∀ input out s', s.evalCommand input = some (out, s') →
        (∀ id ∈ s.live, id ∉ s'.live → Disappears past.used s input id) ∧
        ShutsDownIdle past s input out s' := by
  intro hall
  have hrun : ((minuteServer.evalCommand firstSession).any fun r =>
      (r.2.evalCommand cleanupAfterSecond).any fun r' =>
        r.2.isAvailable = true ∧ r'.2.isAvailable = false ∧ r'.2.live = [1]) = true := by
    decide +kernel
  obtain ⟨⟨out, s⟩, hs, hrun⟩ := (Option.any_eq_true _ _).mp hrun
  obtain ⟨⟨out', s'⟩, hs', hend⟩ := (Option.any_eq_true _ _).mp hrun
  obtain ⟨hup, hdown, hlive⟩ := of_decide_eq_true hend
  have hidle := ((hall { timeout := 60 } (by decide) _ s
    (.evalCommand firstSession (.create true 0) hs)).2.2 cleanupAfterSecond out' s' hs').2
  have hempty := (hidle _ _ _ _ rfl hup hdown).1
  replace hlive : s'.live = [1] := hlive
  rw [hlive] at hempty
  cases hempty

end SessionHandler

end MozkeySession
