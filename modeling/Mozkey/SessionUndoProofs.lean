import Mathlib.Data.List.Basic
import Mathlib.Tactic.NormNum

/-! # Session — undo

    Every commit saves the context on a stack; undo takes it back from there, has the client
    delete the committed text, and has the converter forget what it learned from the commit. -/

namespace MozkeyUndo

/-! ## The session -/

/-- `ImeContext::State`. -/
inductive State where
  | none
  | direct
  | precomposition
  | composition
  | conversion
  deriving DecidableEq

/-- `commands::Result`, with the cursor counted from the end of the value. -/
structure Result where
  value : List Char
  cursorOffset : Int := 0
  deriving DecidableEq

/-- `commands::DeletionRange`, relative to the cursor. -/
structure DeletionRange where
  offset : Int
  length : Nat
  deriving DecidableEq

/-- `commands::Output`; `shown` is what the converter shows. -/
structure Output (δ : Type) where
  consumed : Bool := false
  result : Option Result := .none
  deletionRange : Option DeletionRange := .none
  shown : Option δ := .none

/-- `EngineConverter`; of its segments only the id of the last commit, and `rest` is all else. -/
structure EngineConverter (γ : Type) where
  revertId : Nat
  active : Bool
  result : Option Result
  rest : γ

/-- `ImeContext`; the composer is of any type. -/
structure ImeContext (κ γ δ : Type) where
  state : State
  composer : κ
  converter : EngineConverter γ
  zeroQuerySuggestion : Bool
  /-- `DELETE_PRECEDING_TEXT` of the client's capability. -/
  deletePrecedingText : Bool
  /-- What was put out by the last commit. -/
  output : Output δ

/-- `UndoEntry`. -/
structure UndoEntry (κ γ δ : Type) where
  context : ImeContext κ γ δ
  revertConverterOnUndo : Bool := true

/-- `Session`, as far as undo goes; the newest entry of the stack is the last one. -/
structure Session (κ γ δ : Type) where
  context : ImeContext κ γ δ
  undoContexts : List (UndoEntry κ γ δ) := []
  pendingDirectCommitLearning : Bool := false
  pendingZenzFeedback : Bool := false
  pendingRerankedPreeditCommit : Bool := false
  zenzConversionVisible : Bool := false
  /-- The commits that the rewriter and the predictor were asked to revert. -/
  reverted : List Nat := []

/-- What undo uses of the converter. -/
structure Toolbox (κ γ δ : Type) where
  /-- `FillOutput`, less the result. -/
  fillOutput : ImeContext κ γ δ → δ
  /-- `Reset`, as far as it goes beyond the segments and the result. -/
  resetRest : γ → γ

variable {κ γ δ : Type} (t : Toolbox κ γ δ)

/-- How many commits can be undone. -/
def kMultipleUndoMaxSize : Nat := 10

/-! ## The functions -/

/-- `PopOutput`, as to the context. -/
def popOutput (context : ImeContext κ γ δ) : ImeContext κ γ δ :=
  { context with converter := { context.converter with result := .none } }

/-- `Output`: the converter's result is put out, and is gone from it. -/
def output (out : Output δ) (s : Session κ γ δ) : Output δ × Session κ γ δ :=
  ({ out with
      result := s.context.converter.result.or out.result
      shown := some (t.fillOutput s.context) },
    { s with context := popOutput s.context })

/-- `EngineConverter::Reset`. -/
def resetConverter (s : Session κ γ δ) : Session κ γ δ :=
  { s with
    context := { s.context with
      converter :=
        { revertId := 0, active := false, result := .none
          rest := t.resetRest s.context.converter.rest } } }

/-- The quick hack of `DoNothing`. -/
def closeZeroQuerySuggestion (out : Output δ) (s : Session κ γ δ) : Output δ × Session κ γ δ :=
  if s.context.zeroQuerySuggestion ∧ s.context.converter.active ∧
      s.context.state = .precomposition then
    output t out (resetConverter t s)
  else (out, s)

/-- `DoNothing`. -/
def doNothing (out : Output δ) (s : Session κ γ δ) : Output δ × Session κ γ δ :=
  let closed := closeZeroQuerySuggestion t { out with consumed := true } s
  if closed.2.context.state = .composition ∨ closed.2.context.state = .conversion then
    output t closed.1 closed.2
  else closed

/-- `PushUndoContext`; the oldest entries go. -/
def pushUndoContext (s : Session κ γ δ) : Session κ γ δ :=
  let pushed := s.undoContexts ++ [{ context := s.context }]
  { s with undoContexts := pushed.drop (pushed.length - kMultipleUndoMaxSize) }

/-- `PushDirectCommitUndoContext`. -/
def pushDirectCommitUndoContext (s : Session κ γ δ) : Session κ γ δ :=
  let pushed := (pushUndoContext s).undoContexts
  { s with
    undoContexts := pushed.dropLast ++
      pushed.getLast?.toList.map fun entry => { entry with revertConverterOnUndo := false } }

/-- `ClearUndoContext`. -/
def clearUndoContext (s : Session κ γ δ) : Session κ γ δ := { s with undoContexts := [] }

/-- `HasUndoContext`. -/
def hasUndoContext (s : Session κ γ δ) : Bool := !s.undoContexts.isEmpty

/-- `ShouldRevertConverterOnUndo`. -/
def shouldRevertConverterOnUndo (s : Session κ γ δ) : Bool :=
  s.undoContexts.getLast?.any fun entry => entry.revertConverterOnUndo

/-- `PopUndoContext`. -/
def popUndoContext (s : Session κ γ δ) : Session κ γ δ :=
  match s.undoContexts.getLast? with
  | .none => s
  | some entry =>
    { s with
      context := entry.context
      undoContexts := s.undoContexts.dropLast
      zenzConversionVisible := false }

/-- `EngineConverter::Revert`, which is `RevertConversion`. -/
def revert (s : Session κ γ δ) : Session κ γ δ :=
  if s.context.converter.revertId = 0 then s
  else
    { s with
      reverted := s.reverted ++ [s.context.converter.revertId]
      context := { s.context with converter := { s.context.converter with revertId := 0 } } }

/-- What is pending of an earlier commit is given up. -/
def discardPending (s : Session κ γ δ) : Session κ γ δ :=
  { s with
    pendingDirectCommitLearning := false
    pendingZenzFeedback := false
    pendingRerankedPreeditCommit := false }

/-- `context_->state()` is one of those that allow undo. -/
def allowsUndo (state : State) : Bool :=
  state = .precomposition ∨ state = .conversion ∨ state = .composition

/-- The range that covers a result before the cursor. -/
def deletionRange (result : Result) : Option DeletionRange :=
  if 0 < result.value.length then
    some
      { offset := -((result.value.length : Int) + result.cursorOffset)
        length := result.value.length }
  else .none

/-- Learning is rolled back for the commits that used the converter. -/
def rollBack (s : Session κ γ δ) : Session κ γ δ :=
  if shouldRevertConverterOnUndo s then revert s else s

/-- `Undo` from the check of the client's capability on. -/
def undoRolledBack (out : Output δ) (s : Session κ γ δ) : Output δ × Session κ γ δ :=
  match s.context.output.result with
  | some result =>
    if ¬ s.context.deletePrecedingText then doNothing t out s
    else output t { out with deletionRange := deletionRange result } (popUndoContext s)
  | .none => output t out (popUndoContext s)

/-- `Undo`. -/
def undo (s : Session κ γ δ) : Output δ × Session κ γ δ :=
  let s := discardPending s
  if ¬ allowsUndo s.context.state then doNothing t {} s
  else
    let out : Output δ := { consumed := true }
    if ¬ hasUndoContext s then doNothing t out s
    -- learning is rolled back before the capability is checked
    else undoRolledBack t out (rollBack s)

/-! ## All or nothing -/

/-- The client deletes a range from a text with the given position of the cursor. -/
def DeletionRange.apply (range : DeletionRange) (text : List Char) (cursor : Int) : List Char :=
  let start := (cursor + range.offset).toNat
  text.take start ++ text.drop (start + range.length)

/-- The range takes exactly the committed result out of the text, wherever it was committed. -/
def DeletesExactly (range : DeletionRange) (result : Result) : Prop :=
  ∀ before after : List Char,
    range.apply (before ++ result.value ++ after)
      (before.length + result.value.length + result.cursorOffset) = before ++ after

/-- The newest saved context is back, and the recorded text of its commit is to be deleted. -/
structure Restores (s : Session κ γ δ) (out : Output δ) (s' : Session κ γ δ) : Prop where
  context : ∃ entry, s.undoContexts = s'.undoContexts ++ [entry] ∧
    s'.context = popOutput entry.context
  deletes : ∀ result, s.context.output.result = some result → result.value ≠ [] →
    ∃ range, out.deletionRange = some range ∧ DeletesExactly range result

/-- The stack, the composition and what was learned are as they were. -/
structure Unchanged (s s' : Session κ γ δ) : Prop where
  undoContexts : s'.undoContexts = s.undoContexts
  state : s'.context.state = s.context.state
  composer : s'.context.composer = s.context.composer
  reverted : s'.reverted = s.reverted

/-- Undo at this state is all or nothing. -/
def AllOrNothing (s : Session κ γ δ) : Prop :=
  Restores s (undo t s).1 (undo t s).2 ∨ Unchanged s (undo t s).2

/-- The client cannot delete the text of the last commit, from which the converter has learned. -/
structure Stranded (s : Session κ γ δ) : Prop where
  allows : allowsUndo s.context.state = true
  reverts : shouldRevertConverterOnUndo s = true
  learned : s.context.converter.revertId ≠ 0
  result : s.context.output.result.isSome = true
  noCapability : s.context.deletePrecedingText = false

theorem deletesExactly_deletionRange {result : Result} (hne : result.value ≠ []) :
    ∃ range, deletionRange result = some range ∧ DeletesExactly range result := by
  refine ⟨_, if_pos (List.length_pos_iff.mpr hne), fun before after => ?_⟩
  have hstart : ((before.length : Int) + result.value.length + result.cursorOffset +
      -((result.value.length : Int) + result.cursorOffset)).toNat = before.length := by
    omega
  rw [DeletionRange.apply]
  dsimp only
  rw [hstart, List.append_assoc, List.take_left, ← List.append_assoc, ← List.length_append,
    List.drop_left]

variable {t}

@[simp] theorem output_snd (out : Output δ) (s : Session κ γ δ) :
    (output t out s).2 = { s with context := popOutput s.context } := rfl

@[simp] theorem output_deletionRange (out : Output δ) (s : Session κ γ δ) :
    (output t out s).1.deletionRange = out.deletionRange := rfl

variable {s s' : Session κ γ δ}

theorem Unchanged.output (h : Unchanged s s') (out : Output δ) :
    Unchanged s (output t out s').2 :=
  ⟨h.undoContexts, h.state, h.composer, h.reverted⟩

theorem unchanged_closeZeroQuerySuggestion (h : Unchanged s s') (out : Output δ) :
    Unchanged s (closeZeroQuerySuggestion t out s').2 := by
  rw [closeZeroQuerySuggestion]
  split_ifs
  · have hreset : Unchanged s (resetConverter t s') :=
      ⟨h.undoContexts, h.state, h.composer, h.reverted⟩
    exact hreset.output out
  · exact h

/-- **NOTHING** is done by `doNothing`. -/
theorem unchanged_doNothing (h : Unchanged s s') (out : Output δ) :
    Unchanged s (doNothing t out s').2 := by
  have hclosed := unchanged_closeZeroQuerySuggestion (t := t) h { out with consumed := true }
  rw [doNothing]
  split_ifs
  · exact hclosed.output _
  · exact hclosed

theorem undoContexts_rollBack (s : Session κ γ δ) :
    (rollBack s).undoContexts = s.undoContexts := by
  rw [rollBack, revert]
  split_ifs <;> rfl

theorem output_rollBack (s : Session κ γ δ) : (rollBack s).context.output = s.context.output := by
  rw [rollBack, revert]
  split_ifs <;> rfl

theorem deletePrecedingText_rollBack (s : Session κ γ δ) :
    (rollBack s).context.deletePrecedingText = s.context.deletePrecedingText := by
  rw [rollBack, revert]
  split_ifs <;> rfl

theorem rollBack_eq_self
    (h : ¬ (shouldRevertConverterOnUndo s = true ∧ s.context.converter.revertId ≠ 0)) :
    rollBack s = s := by
  rw [rollBack, revert]
  split_ifs with hshould hid
  · rfl
  · exact absurd ⟨hshould, hid⟩ h
  · rfl

theorem reverted_rollBack (hshould : shouldRevertConverterOnUndo s = true)
    (hid : s.context.converter.revertId ≠ 0) :
    (rollBack s).reverted = s.reverted ++ [s.context.converter.revertId] := by
  rw [rollBack, if_pos hshould, revert, if_neg hid]

theorem undoRolledBack_eq (out : Output δ) (s : Session κ γ δ) :
    undoRolledBack t out s =
      if s.context.output.result.isSome = true ∧ s.context.deletePrecedingText = false then
        doNothing t out s
      else
        output t
          { out with
            deletionRange := (s.context.output.result.map deletionRange).getD out.deletionRange }
          (popUndoContext s) := by
  rw [undoRolledBack]
  cases s.context.output.result with
  | none => rfl
  | some result => cases s.context.deletePrecedingText <;> rfl

/-- **EVERYTHING** is done where the client can delete what was put out. -/
theorem restores_pop (hhas : hasUndoContext s = true) {out : Output δ}
    (hrange : ∀ result, s.context.output.result = some result →
      out.deletionRange = deletionRange result) :
    Restores s (output t out (popUndoContext s)).1 (output t out (popUndoContext s)).2 := by
  have hne : s.undoContexts ≠ [] := by simpa [hasUndoContext] using hhas
  have hlast : s.undoContexts.getLast? = some (s.undoContexts.getLast hne) :=
    List.getLast?_eq_getLast_of_ne_nil hne
  constructor
  · refine ⟨s.undoContexts.getLast hne, ?_, ?_⟩
    · simp [popUndoContext, hlast, List.dropLast_append_getLast]
    · simp [popUndoContext, hlast]
  · intro result hresult hvalue
    obtain ⟨range, hdeletion, hexact⟩ := deletesExactly_deletionRange hvalue
    refine ⟨range, ?_, hexact⟩
    rw [output_deletionRange, hrange result hresult]
    exact hdeletion

theorem undo_eq_doNothing (h : ¬ (allowsUndo s.context.state = true ∧ hasUndoContext s = true)) :
    ∃ out, undo t s = doNothing t out (discardPending s) := by
  rw [undo]
  dsimp only
  by_cases hallows : allowsUndo s.context.state = true
  · have hhas : ¬ hasUndoContext s = true := fun hhas => h ⟨hallows, hhas⟩
    exact ⟨_, (if_neg (not_not.mpr hallows)).trans (if_pos hhas)⟩
  · exact ⟨_, if_pos hallows⟩

theorem undo_eq (hallows : allowsUndo s.context.state = true) (hhas : hasUndoContext s = true) :
    undo t s = undoRolledBack t { consumed := true } (rollBack (discardPending s)) :=
  (if_neg (not_not.mpr hallows)).trans (if_neg (not_not.mpr hhas))

theorem unchanged_discardPending (s : Session κ γ δ) : Unchanged s (discardPending s) :=
  ⟨rfl, rfl, rfl, rfl⟩

theorem Stranded.hasUndoContext (h : Stranded s) :
    hasUndoContext s = true := by
  have hreverts := h.reverts
  rw [shouldRevertConverterOnUndo] at hreverts
  rw [MozkeyUndo.hasUndoContext]
  cases hstack : s.undoContexts with
  | nil => simp [hstack] at hreverts
  | cons entry rest => rfl

/-- A context that cannot be deleted stays on the stack, and what was learned from it is gone. -/
theorem Stranded.not_allOrNothing (h : Stranded s) : ¬ AllOrNothing t s := by
  have hundo : undo t s = doNothing t { consumed := true } (rollBack (discardPending s)) := by
    rw [undo_eq h.allows h.hasUndoContext, undoRolledBack_eq, output_rollBack,
      deletePrecedingText_rollBack]
    exact if_pos ⟨h.result, h.noCapability⟩
  have hnothing : Unchanged (rollBack (discardPending s)) (undo t s).2 :=
    hundo ▸ unchanged_doNothing ⟨rfl, rfl, rfl, rfl⟩ _
  rintro (hrestores | hunchanged)
  · obtain ⟨entry, hstack, -⟩ := hrestores.context
    rw [hnothing.undoContexts, undoContexts_rollBack] at hstack
    exact absurd (congrArg List.length hstack) (by simp [discardPending])
  · have hreverted := hnothing.reverted
    rw [hunchanged.reverted, reverted_rollBack (s := discardPending s) h.reverts h.learned]
      at hreverted
    exact absurd (congrArg List.length hreverted) (by simp [discardPending])

theorem allOrNothing_of_not_stranded (h : ¬ Stranded s) :
    AllOrNothing t s := by
  by_cases hundoable : allowsUndo s.context.state = true ∧ hasUndoContext s = true
  · obtain ⟨hallows, hhas⟩ := hundoable
    rw [AllOrNothing, undo_eq hallows hhas, undoRolledBack_eq, output_rollBack,
      deletePrecedingText_rollBack]
    split_ifs with hclient
    · -- the client cannot delete; then nothing was rolled back
      have hlearned : ¬ (shouldRevertConverterOnUndo (discardPending s) = true ∧
          (discardPending s).context.converter.revertId ≠ 0) := fun hlearned =>
        h ⟨hallows, hlearned.1, hlearned.2, hclient.1, hclient.2⟩
      rw [rollBack_eq_self hlearned]
      exact Or.inr (unchanged_doNothing (unchanged_discardPending s) _)
    · have hstack : (rollBack (discardPending s)).undoContexts = s.undoContexts :=
        undoContexts_rollBack _
      have houtput : (rollBack (discardPending s)).context.output = s.context.output :=
        output_rollBack _
      have hhas' : hasUndoContext (rollBack (discardPending s)) = true := by
        rw [MozkeyUndo.hasUndoContext, hstack]
        exact hhas
      have hrange : ∀ result,
          (rollBack (discardPending s)).context.output.result = some result →
            ({ consumed := true, deletionRange :=
              (s.context.output.result.map deletionRange).getD .none } : Output δ).deletionRange =
              deletionRange result := by
        intro result hresult
        rw [houtput] at hresult
        simp [hresult]
      have hrestores := restores_pop (t := t) hhas' hrange
      refine Or.inl ⟨?_, ?_⟩
      · rw [← hstack]
        exact hrestores.context
      · rw [← houtput]
        exact hrestores.deletes
  · obtain ⟨out, hout⟩ := undo_eq_doNothing (t := t) hundoable
    rw [AllOrNothing, hout]
    exact Or.inr (unchanged_doNothing (unchanged_discardPending s) _)

/-! ## Runs -/

/-- A command, as far as undo goes. -/
inductive Action (κ γ δ : Type) where
  /-- A commit; `next` is the context that it leaves. -/
  | commit (direct : Bool) (next : ImeContext κ γ δ)
  /-- Any other command; it may clear the stack. -/
  | other (clear : Bool) (next : ImeContext κ γ δ)
  | undo

variable (t)

/-- The session after a command. -/
def step (s : Session κ γ δ) : Action κ γ δ → Session κ γ δ
  | .commit direct next =>
    { (if direct then pushDirectCommitUndoContext s else pushUndoContext s) with context := next }
  | .other clear next => { (if clear then clearUndoContext s else s) with context := next }
  | .undo => (undo t s).2

/-- The session after a run. -/
def run (s : Session κ γ δ) (actions : List (Action κ γ δ)) : Session κ γ δ :=
  actions.foldl (step t) s

/-- The property holds at every undo of a run. -/
def EveryUndo (p : Session κ γ δ → Prop) : Session κ γ δ → List (Action κ γ δ) → Prop
  | _, [] => True
  | s, .undo :: rest => p s ∧ EveryUndo p (step t s .undo) rest
  | s, action :: rest => EveryUndo p (step t s action) rest

variable {t}

theorem EveryUndo.mono {p q : Session κ γ δ → Prop} (h : ∀ s, p s → q s)
    (actions : List (Action κ γ δ)) :
    ∀ {s : Session κ γ δ}, EveryUndo t p s actions → EveryUndo t q s actions := by
  induction actions with
  | nil => exact fun _ => trivial
  | cons action rest ih =>
    intro s hevery
    cases action with
    | commit direct next => exact ih hevery
    | other clear next => exact ih hevery
    | undo => exact ⟨h s hevery.1, ih hevery.2⟩

variable (t)

/-- **UNDO** is all or nothing exactly at the states that are not stranded; so it is at every undo
    of a run that does not meet such a state. -/
theorem undo_allOrNothing_iff :
    (∀ s : Session κ γ δ, AllOrNothing t s ↔ ¬ Stranded s) ∧
    ∀ (s : Session κ γ δ) (actions : List (Action κ γ δ)), s.undoContexts = [] →
      EveryUndo t (fun s => ¬ Stranded s) s actions → EveryUndo t (AllOrNothing t) s actions :=
  ⟨fun _ => ⟨fun hall hstranded => hstranded.not_allOrNothing hall, allOrNothing_of_not_stranded⟩,
    fun _ actions _ => EveryUndo.mono (fun _ => allOrNothing_of_not_stranded) actions⟩

/-- Nothing is shown, and nothing more is reset. -/
def plainToolbox : Toolbox Unit Unit Unit := { fillOutput := fun _ => (), resetRest := fun _ => () }

/-- A context of a client that cannot delete. -/
def plainContext (state : State) (revertId : Nat) (result : Option Result) :
    ImeContext Unit Unit Unit where
  state := state
  composer := ()
  converter := { revertId := revertId, active := state = .conversion, result := .none, rest := () }
  zeroQuerySuggestion := false
  deletePrecedingText := false
  output := { result := result }

/-- A conversion that has been committed. -/
def committedSession : Session Unit Unit Unit :=
  run plainToolbox { context := plainContext .precomposition 0 .none }
    [.other true (plainContext .composition 0 .none),
      .other false (plainContext .conversion 0 .none),
      .commit false (plainContext .precomposition 7 (some { value := ['x'] }))]

/-- **WITHOUT THE CAPABILITY** the commit is forgotten, but neither taken back nor deleted. -/
theorem committedSession_stranded :
    (undo plainToolbox committedSession).2.reverted = [7] ∧
      (undo plainToolbox committedSession).2.undoContexts.length = 1 ∧
      (undo plainToolbox committedSession).1.deletionRange = .none ∧
      ¬ AllOrNothing plainToolbox committedSession :=
  ⟨by decide, by decide, by decide,
    Stranded.not_allOrNothing ⟨by decide, by decide, by decide, by decide, by decide⟩⟩

end MozkeyUndo
