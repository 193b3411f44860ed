import Mozkey.ByteStringProofs

/-! # Segments — the parts of a conversion

    A conversion works on a list of segments; the keys of the segments, one after the other,
    are the text that is converted.

    * `segmentOf_unique` — a position is in one segment. -/

namespace MozkeyConverter

open ByteString

/-- `Segment::SegmentType`. -/
inductive SegmentType
  | free
  | fixedBoundary
  | fixedValue
  | submitted
  | history
  deriving DecidableEq

/-- `Segment`, with its type and key. -/
structure Segment where
  segmentType : SegmentType := .free
  key : Bytes := []
  deriving DecidableEq

/-- The keys of segments, one after the other. -/
def joinedKey (segments : List Segment) : Bytes := segments.flatMap Segment.key

@[simp] theorem joinedKey_nil : joinedKey [] = [] := rfl

@[simp] theorem joinedKey_cons (segment : Segment) (segments : List Segment) :
    joinedKey (segment :: segments) = segment.key ++ joinedKey segments := rfl

@[simp] theorem joinedKey_append (segments segments' : List Segment) :
    joinedKey (segments ++ segments') = joinedKey segments ++ joinedKey segments' :=
  List.flatMap_append

/-- The segment that a position is in, with what is before it. -/
structure SegmentAt (segments : List Segment) (pos : Nat) (before : List Segment)
    (segment : Segment) : Prop where
  split : ∃ after, segments = before ++ segment :: after
  le : (joinedKey before).length ≤ pos
  lt : pos < (joinedKey before).length + segment.key.length

theorem segmentOf_unique {segments : List Segment} : ∀ (pos : Nat)
    {before before' : List Segment} {segment segment' : Segment},
      SegmentAt segments pos before segment → SegmentAt segments pos before' segment' →
      before = before' ∧ segment = segment' := by
  induction segments with
  | nil =>
    intro pos before before' segment segment' h
    obtain ⟨after, hsplit⟩ := h.split
    simp at hsplit
  | cons first rest ih =>
    intro pos before before' segment segment' h h'
    obtain ⟨after, hsplit⟩ := h.split
    obtain ⟨after', hsplit'⟩ := h'.split
    have hle := h.le
    have hlt := h.lt
    have hle' := h'.le
    have hlt' := h'.lt
    cases before with
    | nil =>
      obtain ⟨rfl, rfl⟩ := List.cons_eq_cons.mp hsplit
      cases before' with
      | nil =>
        obtain ⟨rfl, -⟩ := List.cons_eq_cons.mp hsplit'
        exact ⟨rfl, rfl⟩
      | cons b before' =>
        obtain ⟨rfl, -⟩ := List.cons_eq_cons.mp hsplit'
        simp at hlt hle'
        omega
    | cons b before =>
      obtain ⟨rfl, rfl⟩ := List.cons_eq_cons.mp hsplit
      cases before' with
      | nil =>
        obtain ⟨rfl, -⟩ := List.cons_eq_cons.mp hsplit'
        simp at hlt' hle
        omega
      | cons b' before' =>
        obtain ⟨rfl, hrest⟩ := List.cons_eq_cons.mp hsplit'
        simp only [joinedKey_cons, List.length_append] at hle hlt hle' hlt'
        obtain ⟨rfl, rfl⟩ := ih (pos - first.key.length)
          ⟨⟨after, rfl⟩, by omega, by omega⟩ ⟨⟨after', hrest⟩, by omega, by omega⟩
        exact ⟨rfl, rfl⟩

end MozkeyConverter
