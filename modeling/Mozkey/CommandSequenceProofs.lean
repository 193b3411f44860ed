import Mathlib.Data.List.Induction
import Mathlib.Logic.Basic

/-! # Session — command sequences

    A key can be bound to several commands.  They run one after the other, each with an output of
    its own, and the outputs are put together: the results are appended, the flags that tell
    whether the key was consumed are joined, and everything else is that of the last command. -/

namespace MozkeyCommandSequence

/-! ## Outputs -/

/-- `commands::Result`; what is not merged is taken from the first result. -/
structure Result (ρ : Type) where
  key : Option String := none
  value : Option String := none
  rest : ρ

/-- `DeletionRange`. -/
structure DeletionRange where
  offset : Int
  length : Nat
  deriving DecidableEq

/-- `commands::Output::ToolMode`, less `NO_TOOL`. -/
inductive ToolMode where
  | configDialog
  | dictionaryTool
  | wordRegisterDialog
  deriving DecidableEq

/-- `commands::Output`, over the types of its callbacks, of the configuration, of what else a
    result has and of what else is shown. -/
structure Output (β κ ρ δ : Type) where
  consumed : Bool := false
  result : Option (Result ρ) := none
  callback : Option β := none
  deletionRange : Option DeletionRange := none
  launchToolMode : Option ToolMode := none
  config : Option κ := none
  shown : Option δ := none

/-- What an output asks of the client. -/
inductive Request (β κ : Type) where
  | callback (callback : β)
  | deletionRange (range : DeletionRange)
  | launchTool (mode : ToolMode)
  | config (config : κ)
  deriving DecidableEq

variable {β κ ρ δ σ ι : Type}

/-- The requests of an output. -/
def Output.requests (output : Output β κ ρ δ) : List (Request β κ) :=
  output.callback.toList.map .callback ++ output.deletionRange.toList.map .deletionRange ++
    output.launchToolMode.toList.map .launchTool ++ output.config.toList.map .config

/-- `MergeCommandResult`. -/
def mergeCommandResult (stepResult accumulatedResult : Result ρ) : Result ρ :=
  if accumulatedResult.key.isNone ∧ accumulatedResult.value.isNone then stepResult
  else
    { accumulatedResult with
      key :=
        match stepResult.key with
        | some key => some (accumulatedResult.key.getD "" ++ key)
        | none => accumulatedResult.key
      value :=
        match stepResult.value with
        | some value => some (accumulatedResult.value.getD "" ++ value)
        | none => accumulatedResult.value }

/-- What is accumulated; a result is there once one was put out. -/
structure Accumulated (β κ ρ δ : Type) where
  executed : Bool := false
  consumed : Bool := false
  result : Option (Result ρ) := none
  finalOutput : Output β κ ρ δ := {}

/-- `AccumulateCommandOutput`. -/
def accumulateCommandOutput (acc : Accumulated β κ ρ δ) (stepOutput : Output β κ ρ δ) :
    Accumulated β κ ρ δ :=
  let consumed := acc.consumed || stepOutput.consumed
  let result :=
    match stepOutput.result with
    | none => acc.result
    | some stepResult =>
      match acc.result with
      | none => some stepResult
      | some accumulatedResult => some (mergeCommandResult stepResult accumulatedResult)
  { executed := true
    consumed := consumed
    result := result
    finalOutput := { stepOutput with consumed := consumed, result := result.or stepOutput.result } }

/-- The output with which a sequence ends. -/
def Accumulated.finish (acc : Accumulated β κ ρ δ) : Output β κ ρ δ :=
  { acc.finalOutput with
    consumed := acc.consumed
    result := acc.result.or acc.finalOutput.result }

/-! ## The loop -/

/-- `ImeContext::State`. -/
inductive State where
  | none
  | direct
  | precomposition
  | composition
  | conversion
  deriving DecidableEq

/-- The session, as far as a sequence goes: the state, the commands that a name stands for there,
    what each of them does, and `DoNothing`. -/
structure Handlers (σ ι β κ ρ δ : Type) where
  state : σ → State
  /-- `ResolveDirectCommandName` and its like. -/
  resolveCommandName : State → String → Option ι
  /-- `ExecuteDirectInputCommand` and its like. -/
  executeCommand : ι → Output β κ ρ δ → σ → Bool × Output β κ ρ δ × σ
  doNothing : Output β κ ρ δ → σ → Output β κ ρ δ × σ

variable (h : Handlers σ ι β κ ρ δ)

/-- `ExecuteCommandName`: the handler of the state. -/
def executeCommandName (name : String) (output : Output β κ ρ δ) (s : σ) :
    Bool × Output β κ ρ δ × σ :=
  match h.state s with
  | .none => (false, output, s)
  | state =>
    match h.resolveCommandName state name with
    | none => (false, output, s)
    | some command => h.executeCommand command output s

/-- The loop of `ExecuteCommandSequenceWithInitialOutput` and what comes after it. -/
def executeLoop : List String → Accumulated β κ ρ δ → Output β κ ρ δ → σ → Output β κ ρ δ × σ
  | [], acc, output, s => if acc.executed then (acc.finish, s) else h.doNothing output s
  | name :: rest, acc, output, s =>
    if name.isEmpty then executeLoop rest acc output s
    else
      let step := executeCommandName h name {} s
      if step.1 then executeLoop rest (accumulateCommandOutput acc step.2.1) step.2.1 step.2.2
      else if acc.executed then (acc.finish, step.2.2)
      else h.doNothing step.2.1 step.2.2

/-- `ExecuteCommandSequenceWithInitialOutput`; `output` is what the command holds so far. -/
def executeCommandSequenceWithInitialOutput (commandSequence : List String)
    (initialOutput : Option (Output β κ ρ δ)) (output : Output β κ ρ δ) (s : σ) :
    Output β κ ρ δ × σ :=
  match initialOutput with
  | none => executeLoop h commandSequence {} output s
  | some initialOutput =>
    executeLoop h commandSequence (accumulateCommandOutput {} initialOutput) output s

/-! ## The steps that ran -/

/-- The outputs of the commands that run. -/
def stepOutputs : List String → σ → List (Output β κ ρ δ)
  | [], _ => []
  | name :: rest, s =>
    if name.isEmpty then stepOutputs rest s
    else
      let step := executeCommandName h name {} s
      if step.1 then step.2.1 :: stepOutputs rest step.2.2 else []

/-- What a sequence does in the end, if none of its commands runs. -/
def idleOutput : List String → Output β κ ρ δ → σ → Output β κ ρ δ
  | [], output, s => (h.doNothing output s).1
  | name :: rest, output, s =>
    if name.isEmpty then idleOutput rest output s
    else
      let step := executeCommandName h name {} s
      (h.doNothing step.2.1 step.2.2).1

/-- The outputs that a sequence produces: the initial one and those of the commands that run, or
    that of `DoNothing` where there are none. -/
def producedOutputs (commandSequence : List String) (initialOutput : Option (Output β κ ρ δ))
    (output : Output β κ ρ δ) (s : σ) : List (Output β κ ρ δ) :=
  if initialOutput.isNone ∧ stepOutputs h commandSequence s = [] then
    [idleOutput h commandSequence output s]
  else initialOutput.toList ++ stepOutputs h commandSequence s

/-- What the outputs of the steps add up to. -/
def merged (outputs : List (Output β κ ρ δ)) : Accumulated β κ ρ δ :=
  outputs.foldl accumulateCommandOutput {}

theorem merged_concat (outputs : List (Output β κ ρ δ)) (output : Output β κ ρ δ) :
    merged (outputs ++ [output]) = accumulateCommandOutput (merged outputs) output :=
  List.foldl_append

theorem executed_merged (outputs : List (Output β κ ρ δ)) :
    (merged outputs).executed = !outputs.isEmpty := by
  rcases List.eq_nil_or_concat outputs with rfl | ⟨rest, output, rfl⟩
  · rfl
  · rw [List.concat_eq_append, merged_concat]
    simp [accumulateCommandOutput]

/-- **THE LOOP** puts together what has run and what still runs. -/
theorem executeLoop_eq (names : List String) : ∀ (outputs : List (Output β κ ρ δ))
    (output : Output β κ ρ δ) (s : σ),
    (executeLoop h names (merged outputs) output s).1 =
      if outputs ++ stepOutputs h names s = [] then idleOutput h names output s
      else (merged (outputs ++ stepOutputs h names s)).finish := by
  induction names with
  | nil =>
    intro outputs output s
    rw [executeLoop, executed_merged, stepOutputs, List.append_nil, idleOutput]
    cases outputs <;> rfl
  | cons name rest ih =>
    intro outputs output s
    rw [executeLoop, stepOutputs, idleOutput]
    dsimp only
    by_cases hempty : name.isEmpty
    · rw [if_pos hempty, if_pos hempty, if_pos hempty, ih outputs output s]
    · rw [if_neg hempty, if_neg hempty, if_neg hempty, executed_merged]
      by_cases hstep : (executeCommandName h name {} s).1
      · rw [if_pos hstep, if_pos hstep, ← merged_concat, ih, List.append_assoc]
        rw [if_neg (by simp), if_neg (by simp)]
        rfl
      · rw [if_neg hstep, if_neg hstep, List.append_nil]
        cases outputs <;> rfl

/-! ## What is kept -/

/-- The keys of the results, one after the other. -/
def joinedKey (outputs : List (Output β κ ρ δ)) : String :=
  String.join (outputs.filterMap fun output => output.result.bind Result.key)

/-- The values of the results, one after the other. -/
def joinedValue (outputs : List (Output β κ ρ δ)) : String :=
  String.join (outputs.filterMap fun output => output.result.bind Result.value)

theorem join_concat (texts : List String) (text : String) :
    String.join (texts ++ [text]) = String.join texts ++ text := by
  simp [String.join, List.foldl_append]

theorem join_filterMap_concat {α : Type} (f : α → Option String) (l : List α) (a : α) :
    String.join ((l ++ [a]).filterMap f) = String.join (l.filterMap f) ++ (f a).getD "" := by
  rw [List.filterMap_append]
  cases hf : f a with
  | none => simp [hf]
  | some text => rw [List.filterMap_cons_some hf, List.filterMap_nil, join_concat, Option.getD_some]

theorem getD_key_mergeCommandResult (stepResult accumulatedResult : Result ρ) :
    (mergeCommandResult stepResult accumulatedResult).key.getD "" =
      accumulatedResult.key.getD "" ++ stepResult.key.getD "" := by
  rw [mergeCommandResult]
  split_ifs with hnew
  · rw [Option.isNone_iff_eq_none.mp hnew.1]
    simp
  · cases stepResult.key <;> simp

theorem getD_value_mergeCommandResult (stepResult accumulatedResult : Result ρ) :
    (mergeCommandResult stepResult accumulatedResult).value.getD "" =
      accumulatedResult.value.getD "" ++ stepResult.value.getD "" := by
  rw [mergeCommandResult]
  split_ifs with hnew
  · rw [Option.isNone_iff_eq_none.mp hnew.2]
    simp
  · cases stepResult.value <;> simp

/-- What the outputs put together keep of each of them. -/
structure KeepsResults (outputs : List (Output β κ ρ δ)) (consumed : Bool)
    (result : Option (Result ρ)) : Prop where
  consumed_eq : consumed = outputs.any Output.consumed
  isSome_eq : result.isSome = outputs.any fun output => output.result.isSome
  key_eq : (result.bind Result.key).getD "" = joinedKey outputs
  value_eq : (result.bind Result.value).getD "" = joinedValue outputs

theorem keepsResults_merged (outputs : List (Output β κ ρ δ)) :
    KeepsResults outputs (merged outputs).consumed (merged outputs).result := by
  induction outputs using List.reverseRecOn with
  | nil => exact ⟨rfl, rfl, rfl, rfl⟩
  | append_singleton outputs output ih =>
    rw [merged_concat, accumulateCommandOutput]
    refine ⟨?_, ?_, ?_, ?_⟩
    · simp [ih.consumed_eq]
    · have hsome := ih.isSome_eq
      cases hresult : output.result <;> cases hmerged : (merged outputs).result <;>
        simp_all
    · rw [joinedKey, join_filterMap_concat, ← joinedKey, ← ih.key_eq]
      cases output.result <;> cases (merged outputs).result <;>
        simp [getD_key_mergeCommandResult]
    · rw [joinedValue, join_filterMap_concat, ← joinedValue, ← ih.value_eq]
      cases output.result <;> cases (merged outputs).result <;>
        simp [getD_value_mergeCommandResult]

/-! ## What is lost -/

/-- Every request of some output is one of the final output. -/
def KeepsRequests (outputs : List (Output β κ ρ δ)) (final : Output β κ ρ δ) : Prop :=
  ∀ output ∈ outputs, ∀ request ∈ output.requests, request ∈ final.requests

/-- Nothing of the outputs is lost. -/
def LosesNothing (outputs : List (Output β κ ρ δ)) (final : Output β κ ρ δ) : Prop :=
  KeepsResults outputs final.consumed final.result ∧ KeepsRequests outputs final

/-- The last command makes every request of the commands before it. -/
def LastRepeatsRequests (outputs : List (Output β κ ρ δ)) : Prop :=
  ∀ last ∈ outputs.getLast?, ∀ output ∈ outputs, ∀ request ∈ output.requests,
    request ∈ last.requests

theorem requests_finish_merged (outputs : List (Output β κ ρ δ)) (last : Output β κ ρ δ) :
    (merged (outputs ++ [last])).finish.requests = last.requests := by
  rw [merged_concat]
  rfl

theorem result_finish_merged (outputs : List (Output β κ ρ δ)) :
    (merged outputs).finish.result = (merged outputs).result := by
  rcases List.eq_nil_or_concat outputs with rfl | ⟨rest, output, rfl⟩
  · rfl
  · rw [List.concat_eq_append, merged_concat]
    simp only [Accumulated.finish, accumulateCommandOutput]
    cases output.result <;> cases (merged rest).result <;> rfl

theorem keepsResults_finish_merged (outputs : List (Output β κ ρ δ)) :
    KeepsResults outputs (merged outputs).finish.consumed (merged outputs).finish.result := by
  rw [result_finish_merged]
  exact keepsResults_merged outputs

theorem losesNothing_finish_merged {outputs : List (Output β κ ρ δ)} (hne : outputs ≠ []) :
    LosesNothing outputs (merged outputs).finish ↔ LastRepeatsRequests outputs := by
  obtain ⟨rest, last, rfl⟩ := (List.eq_nil_or_concat outputs).resolve_left hne
  rw [List.concat_eq_append] at hne ⊢
  rw [LosesNothing, and_iff_right (keepsResults_finish_merged _), KeepsRequests,
    requests_finish_merged, LastRepeatsRequests]
  simp

theorem losesNothing_singleton (output : Output β κ ρ δ) : LosesNothing [output] output := by
  refine ⟨⟨?_, ?_, ?_, ?_⟩, ?_⟩
  · simp
  · simp
  · cases hkey : output.result.bind Result.key <;> simp [joinedKey, String.join, hkey]
  · cases hvalue : output.result.bind Result.value <;> simp [joinedValue, String.join, hvalue]
  · intro output' houtput request hrequest
    obtain rfl := List.mem_singleton.mp houtput
    exact hrequest

/-- **COMMAND SEQUENCES** lose nothing exactly where the last command repeats the requests of those
    before it. -/
theorem losesNothing_iff (commandSequence : List String)
    (initialOutput : Option (Output β κ ρ δ)) (output : Output β κ ρ δ) (s : σ) :
    LosesNothing (producedOutputs h commandSequence initialOutput output s)
        (executeCommandSequenceWithInitialOutput h commandSequence initialOutput output s).1 ↔
      LastRepeatsRequests (producedOutputs h commandSequence initialOutput output s) := by
  have hmerged :
      (executeCommandSequenceWithInitialOutput h commandSequence initialOutput output s).1 =
        (executeLoop h commandSequence (merged initialOutput.toList) output s).1 := by
    cases initialOutput <;> rfl
  rw [hmerged, executeLoop_eq, producedOutputs]
  by_cases hidle : initialOutput.isNone ∧ stepOutputs h commandSequence s = []
  · have hnil : initialOutput.toList ++ stepOutputs h commandSequence s = [] := by
      rw [Option.isNone_iff_eq_none.mp hidle.1, hidle.2]
      rfl
    rw [if_pos hidle, if_pos hnil]
    refine iff_of_true (losesNothing_singleton _) ?_
    intro last hlast output' houtput request hrequest
    obtain rfl := List.mem_singleton.mp houtput
    obtain rfl := Option.some.inj hlast
    exact hrequest
  · have hne : initialOutput.toList ++ stepOutputs h commandSequence s ≠ [] := by
      intro hnil
      obtain ⟨hinitial, hsteps⟩ := List.append_eq_nil_iff.mp hnil
      exact hidle ⟨by simpa using hinitial, hsteps⟩
    rw [if_neg hidle, if_neg hne]
    exact losesNothing_finish_merged hne

/-! ## A launched tool -/

/-- Two commands of `PRECOMPOSITION`. -/
inductive PrecompositionCommand where
  | launchConfigDialog
  | imeOn

/-- A session in which the converter has nothing to put out. -/
def idleHandlers : Handlers State PrecompositionCommand Unit Unit Unit Unit where
  state := id
  resolveCommandName state name :=
    if state = .precomposition ∧ name = "LaunchConfigDialog" then some .launchConfigDialog
    else if state = .precomposition ∧ name = "IMEOn" then some .imeOn
    else none
  executeCommand command output s :=
    match command with
    | .launchConfigDialog =>
      (true, { output with launchToolMode := some .configDialog, consumed := true }, s)
    | .imeOn => (true, { output with consumed := true }, s)
  doNothing output s := ({ output with consumed := true }, s)

/-- **A TOOL** that the first command launches is not launched when another command follows. -/
theorem launchConfigDialog_lost :
    ¬ LosesNothing
        (producedOutputs idleHandlers ["LaunchConfigDialog", "IMEOn"] none {} .precomposition)
        (executeCommandSequenceWithInitialOutput idleHandlers ["LaunchConfigDialog", "IMEOn"]
          none {} .precomposition).1 := by
  have hproduced :
      producedOutputs idleHandlers ["LaunchConfigDialog", "IMEOn"] none {} .precomposition =
        [{ consumed := true, launchToolMode := some .configDialog }, { consumed := true }] := rfl
  have hrequests : (executeCommandSequenceWithInitialOutput idleHandlers
      ["LaunchConfigDialog", "IMEOn"] none {} .precomposition).1.requests = [] := rfl
  rw [hproduced]
  rintro ⟨-, hkeeps⟩
  have hlost := hkeeps { consumed := true, launchToolMode := some .configDialog }
    List.mem_cons_self (.launchTool .configDialog) (by decide)
  rw [hrequests] at hlost
  exact absurd hlost List.not_mem_nil

end MozkeyCommandSequence
