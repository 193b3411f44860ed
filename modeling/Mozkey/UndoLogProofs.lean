import Mathlib.Data.List.Induction
import Mathlib.Logic.Function.Basic

/-! # An undo log over a map

    A step updates the value of one key, and saves a value of that key, or none.  What was saved
    is written back in the order in which it was saved, where it belongs and something is there. -/

namespace UndoLog

variable {K T V : Type} [DecidableEq K] {keyOf : V → K}

/-- A step at a key, with a note of what it saves. -/
structure Step (K T V : Type) where
  key : K
  note : T
  save : Option V → Option V
  update : Option V → Option V

/-- A step changes its key only. -/
def Step.run (step : Step K T V) (map : K → Option V) : K → Option V :=
  Function.update map step.key (step.update (map step.key))

/-- The map after a run. -/
def run (steps : List (Step K T V)) (map : K → Option V) : K → Option V :=
  steps.foldl (fun map step => step.run map) map

/-- What the steps save. -/
def log : List (Step K T V) → (K → Option V) → List (T × V)
  | [], _ => []
  | step :: rest, map =>
    (step.save (map step.key)).toList.map (Prod.mk step.note) ++ log rest (step.run map)

/-- A value is written back to its key, if something is there. -/
def writeBack (keyOf : V → K) (map : K → Option V) (value : V) : K → Option V :=
  if (map (keyOf value)).isSome then Function.update map (keyOf value) (some value) else map

/-- What was saved is written back. -/
def restore (keyOf : V → K) (saved : List (T × V)) (map : K → Option V) : K → Option V :=
  saved.foldl (fun map entry => writeBack keyOf map entry.2) map

/-! ## One key -/

/-- The steps at a key. -/
def stepsAt (key : K) (steps : List (Step K T V)) : List (Step K T V) :=
  steps.filter fun step => step.key = key

/-- The value of a key after the steps at it. -/
def cell (steps : List (Step K T V)) (value : Option V) : Option V :=
  steps.foldl (fun value step => step.update value) value

/-- What the steps at a key save. -/
def cellLog : List (Step K T V) → Option V → List V
  | [], _ => []
  | step :: rest, value => (step.save value).toList ++ cellLog rest (step.update value)

/-- What was saved for a key. -/
def valuesAt (keyOf : V → K) (key : K) (saved : List (T × V)) : List V :=
  (saved.map Prod.snd).filter fun value => keyOf value = key

/-- Every value is stored at its key. -/
def Stored (keyOf : V → K) (map : K → Option V) : Prop :=
  ∀ key value, map key = some value → keyOf value = key

/-- What a step saves and makes of a value of its key belongs to the key too. -/
structure Step.Keyed (keyOf : V → K) (step : Step K T V) : Prop where
  save : ∀ {value saved}, (∀ old, value = some old → keyOf old = step.key) →
    step.save value = some saved → keyOf saved = step.key
  update : ∀ {value new}, (∀ old, value = some old → keyOf old = step.key) →
    step.update value = some new → keyOf new = step.key

omit [DecidableEq K] in

/-- What a key sees of two runs. -/
theorem cell_append (steps rest : List (Step K T V)) (value : Option V) :
    cell (steps ++ rest) value = cell rest (cell steps value) :=
  List.foldl_append

omit [DecidableEq K] in

/-- What is saved of a key in two runs. -/
theorem cellLog_append (steps rest : List (Step K T V)) : ∀ value : Option V,
    cellLog (steps ++ rest) value = cellLog steps value ++ cellLog rest (cell steps value) := by
  induction steps with
  | nil => exact fun _ => rfl
  | cons step steps ih =>
    intro value
    rw [List.cons_append, cellLog, cellLog, ih, List.append_assoc]
    rfl

theorem stepsAt_append (key : K) (steps rest : List (Step K T V)) :
    stepsAt key (steps ++ rest) = stepsAt key steps ++ stepsAt key rest :=
  List.filter_append ..

variable {key : K}

theorem stepsAt_cons_of_eq {step : Step K T V} (h : step.key = key) (rest : List (Step K T V)) :
    stepsAt key (step :: rest) = step :: stepsAt key rest :=
  List.filter_cons_of_pos (decide_eq_true h)

theorem stepsAt_cons_of_ne {step : Step K T V} (h : step.key ≠ key) (rest : List (Step K T V)) :
    stepsAt key (step :: rest) = stepsAt key rest :=
  List.filter_cons_of_neg (by simpa using h)

/-- **A KEY** sees the steps at it. -/
theorem run_apply (key : K) (steps : List (Step K T V)) : ∀ map : K → Option V,
    run steps map key = cell (stepsAt key steps) (map key) := by
  induction steps with
  | nil => exact fun _ => rfl
  | cons step rest ih =>
    intro map
    refine (ih (step.run map)).trans ?_
    rw [Step.run]
    by_cases h : step.key = key
    · rw [stepsAt_cons_of_eq h, h, Function.update_self]
      rfl
    · rw [stepsAt_cons_of_ne h, Function.update_of_ne (Ne.symm h)]

variable {map : K → Option V}

theorem Stored.step (h : Stored keyOf map) {step : Step K T V} (hstep : step.Keyed keyOf) :
    Stored keyOf (step.run map) := by
  intro key value hvalue
  rw [Step.run] at hvalue
  by_cases hkey : key = step.key
  · rw [hkey, Function.update_self] at hvalue
    exact hkey ▸ hstep.update (h step.key) hvalue
  · rw [Function.update_of_ne hkey] at hvalue
    exact h key value hvalue

variable {steps : List (Step K T V)}

/-- Values stay under their keys along a run. -/
theorem Stored.run (hsteps : ∀ step ∈ steps, step.Keyed keyOf) :
    ∀ {map : K → Option V}, Stored keyOf map → Stored keyOf (run steps map) := by
  induction steps with
  | nil => exact id
  | cons step rest ih =>
    rw [List.forall_mem_cons] at hsteps
    exact fun h => ih hsteps.2 (h.step hsteps.1)

/-- A key sees the steps at it, and no others. -/
theorem valuesAt_log (key : K) (hsteps : ∀ step ∈ steps, step.Keyed keyOf) :
    ∀ {map : K → Option V}, Stored keyOf map →
      valuesAt keyOf key (log steps map) = cellLog (stepsAt key steps) (map key) := by
  induction steps with
  | nil => exact fun _ => rfl
  | cons step rest ih =>
    intro map h
    rw [List.forall_mem_cons] at hsteps
    have hrest := ih hsteps.2 (h.step hsteps.1)
    rw [Step.run, valuesAt] at hrest
    have hsave : ∀ value, step.save (map step.key) = some value → keyOf value = step.key :=
      fun _ => hsteps.1.save (h step.key)
    rw [log, valuesAt, List.map_append, List.filter_append, Step.run, hrest]
    by_cases hkey : step.key = key
    · rw [stepsAt_cons_of_eq hkey, cellLog, ← hkey, Function.update_self]
      cases hvalue : step.save (map step.key) with
      | none => rfl
      | some value => simp [hsave value hvalue]
    · rw [stepsAt_cons_of_ne hkey, Function.update_of_ne (Ne.symm hkey)]
      cases hvalue : step.save (map step.key) with
      | none => rfl
      | some value => simp [hsave value hvalue, hkey]

theorem writeBack_of_ne {value : V} (h : keyOf value ≠ key) (map : K → Option V) :
    writeBack keyOf map value key = map key := by
  rw [writeBack]
  split_ifs
  · exact Function.update_of_ne (Ne.symm h) _ _
  · rfl

theorem writeBack_of_eq {value : V} (hsome : (map (keyOf value)).isSome = true) :
    writeBack keyOf map value (keyOf value) = some value := by
  rw [writeBack, if_pos hsome, Function.update_self]

theorem isSome_writeBack (key : K) (map : K → Option V) (value : V) :
    (writeBack keyOf map value key).isSome = (map key).isSome := by
  by_cases hkey : keyOf value = key
  · subst hkey
    cases hsome : (map (keyOf value)).isSome
    · rw [writeBack, hsome, if_neg Bool.false_ne_true, hsome]
    · rw [writeBack_of_eq hsome]
      rfl
  · rw [writeBack_of_ne hkey]

/-- Restoring adds no key. -/
theorem isSome_restore (key : K) (saved : List (T × V)) : ∀ map : K → Option V,
    (restore keyOf saved map key).isSome = (map key).isSome := by
  induction saved with
  | nil => exact fun _ => rfl
  | cons entry rest ih => exact fun map => (ih _).trans (isSome_writeBack key map entry.2)

/-- The last saved value of a key comes back. -/
theorem restore_apply (saved : List (T × V)) (hsome : (map key).isSome = true) :
    restore keyOf saved map key = (valuesAt keyOf key saved).getLast?.or (map key) := by
  induction saved using List.reverseRecOn with
  | nil => rfl
  | append_singleton saved entry ih =>
    rw [restore, List.foldl_append, ← restore, valuesAt, List.map_append, List.filter_append,
      ← valuesAt]
    by_cases hkey : keyOf entry.2 = key
    · subst hkey
      refine (writeBack_of_eq ((isSome_restore _ saved map).trans hsome)).trans ?_
      simp
    · refine (writeBack_of_ne hkey _).trans (ih.trans ?_)
      simp [hkey]

/-- **AFTER A RUN** is undone, a key has what was saved last for it. -/
theorem restore_run (hsteps : ∀ step ∈ steps, step.Keyed keyOf) (h : Stored keyOf map)
    (hsome : (run steps map key).isSome = true) :
    restore keyOf (log steps map) (run steps map) key =
      (cellLog (stepsAt key steps) (map key)).getLast?.or (cell (stepsAt key steps) (map key)) := by
  rw [restore_apply _ hsome, valuesAt_log key hsteps h, run_apply]

end UndoLog
