import Mozkey.ByteStringProofs

/-! # CandidateList — the candidates of a segment and the focus among them

    A list holds the ids of a segment's candidates in the order in which they are shown, and a
    focus that the keys move.  A candidate can stand for a list of its own; the focus then
    moves through that list before it leaves it.

    Lists of any depth share the operations: they are written once, over what a list needs of
    the lists inside it. -/

namespace MozkeyEngine

open ByteString

/-- `Attributes`, a set of bits. -/
abbrev Attributes := Nat

/-- `Candidate`. -/
structure CandidateOf (Sub : Type) where
  id : Int := 0
  attributes : Attributes := 0
  subcandidateList : Option Sub := none
  deriving DecidableEq

/-- Are all of the attributes set? -/
def CandidateOf.hasAttributes {Sub : Type} (candidate : CandidateOf Sub)
    (attributes : Attributes) : Bool :=
  candidate.attributes &&& attributes = attributes

/-- `CandidateList`; its name is only shown. -/
structure CandidateListOf (Sub : Type) where
  pageSize : Nat := 9
  focusedIndex : Nat := 0
  candidates : List (CandidateOf Sub) := []
  /-- Fingerprints of the values that have been added, with their ids. -/
  addedCandidates : List (UInt64 × Int) := []
  alternativeIds : List (Int × Int) := []
  nextAvailableId : Int := 0
  rotate : Bool := false
  focused : Bool := false
  deriving DecidableEq

/-- What a list needs of the lists inside it. -/
class Sublist (Sub : Type) where
  ids : Sub → List Int
  focusedId : Sub → Int
  focusedIndex : Sub → Nat
  nextAvailableId : Sub → Int
  deepestAttributes : Sub → Attributes
  moveFirst : Sub → Sub
  moveLast : Sub → Sub
  moveNext : Sub → Bool × Sub
  movePrev : Sub → Bool × Sub
  moveNextPage : Sub → Bool × Sub
  movePrevPage : Sub → Bool × Sub
  moveToAttributes : Attributes → Sub → Bool × Sub
  moveToId : Int → Sub → Bool × Sub

/-- Candidates of the innermost lists have no lists inside them. -/
instance : Sublist Empty where
  ids := Empty.elim
  focusedId := Empty.elim
  focusedIndex := Empty.elim
  nextAvailableId := Empty.elim
  deepestAttributes := Empty.elim
  moveFirst := id
  moveLast := id
  moveNext := Empty.elim
  movePrev := Empty.elim
  moveNextPage := Empty.elim
  movePrevPage := Empty.elim
  moveToAttributes := fun _ => Empty.elim
  moveToId := fun _ => Empty.elim

/-- The last entry that was written for a key. -/
def findEntry {α β : Type} [DecidableEq α] (entries : List (α × β)) (key : α) : Option β :=
  (entries.find? fun entry => entry.1 = key).map Prod.snd

namespace CandidateListOf

section

variable {Sub : Type}

/-- `CandidateList::Clear`. -/
def clear (list : CandidateListOf Sub) : CandidateListOf Sub :=
  { list with
    candidates := [], focusedIndex := 0, focused := false, nextAvailableId := 0
    addedCandidates := [], alternativeIds := [] }

/-- `CandidateList::size`. -/
def size (list : CandidateListOf Sub) : Nat := list.candidates.length

/-- The index of the last candidate, if there is any. -/
def lastIndex (list : CandidateListOf Sub) : Nat := list.size - 1

/-- `CandidateList::focused_candidate`. -/
def focusedCandidate (list : CandidateListOf Sub) : CandidateOf Sub :=
  list.candidates.getD list.focusedIndex {}

/-- The first and the last index of the page of an index. -/
def getPageRange (list : CandidateListOf Sub) (index : Nat) : Nat × Nat :=
  let begin := index - index % list.pageSize
  (begin, min list.size (begin + list.pageSize))

/-- `AddCandidateWithAttributes`, for a value with the given fingerprint. -/
def addCandidateWithAttributes (list : CandidateListOf Sub) (id : Int) (fingerprint : UInt64)
    (attributes : Attributes) : CandidateListOf Sub :=
  let nextAvailableId := if 0 ≤ id then id + 1 else list.nextAvailableId
  match findEntry list.addedCandidates fingerprint with
  | some altId =>
    { list with
      nextAvailableId
      alternativeIds := (id, altId) :: list.alternativeIds
      candidates := list.candidates.map fun candidate =>
        if candidate.id = altId then
          { candidate with attributes := candidate.attributes ||| attributes }
        else candidate }
  | none =>
    { list with
      nextAvailableId
      addedCandidates := (fingerprint, id) :: list.addedCandidates
      candidates := list.candidates ++ [{ id, attributes }] }

/-- `AddSubCandidateList`, with what the list is filled with. -/
def addSubCandidateList (list : CandidateListOf Sub) (sub : Sub) : CandidateListOf Sub :=
  { list with candidates := list.candidates ++ [{ subcandidateList := some sub }] }

/-- A change of the list inside a candidate. -/
def setSub (list : CandidateListOf Sub) (index : Nat) (sub : Sub) : CandidateListOf Sub :=
  { list with
    candidates := list.candidates.modify index fun candidate =>
      { candidate with subcandidateList := some sub } }

/-- `CandidateList::MoveFirst`. -/
def moveFirst (list : CandidateListOf Sub) : CandidateListOf Sub := { list with focusedIndex := 0 }

/-- `CandidateList::MoveLast`. -/
def moveLast (list : CandidateListOf Sub) : CandidateListOf Sub :=
  { list with focusedIndex := list.lastIndex }

/-- The list inside the focused candidate, if any, is moved as well. -/
def moveFocusedSub (list : CandidateListOf Sub) (move : Sub → Sub) : CandidateListOf Sub :=
  match list.focusedCandidate.subcandidateList with
  | some sub => list.setSub list.focusedIndex (move sub)
  | none => list

/-- The list inside the focused candidate is moved first; only where it cannot be, the rest
    is done. -/
def withFocusedSub (list : CandidateListOf Sub) (move : Sub → Bool × Sub)
    (otherwise : CandidateListOf Sub → Bool × CandidateListOf Sub) :
    Bool × CandidateListOf Sub :=
  match list.focusedCandidate.subcandidateList with
  | some sub =>
    let list := list.setSub list.focusedIndex (move sub).2
    if (move sub).1 then (true, list) else otherwise list
  | none => otherwise list

end

section

variable {Sub : Type} [Sublist Sub]

/-- The ids of a candidate: its own, and those of its list. -/
def candidateIds (candidate : CandidateOf Sub) : List Int :=
  candidate.id :: (candidate.subcandidateList.map Sublist.ids).getD []

/-- The ids of a list. -/
def ids (list : CandidateListOf Sub) : List Int := list.candidates.flatMap candidateIds

/-- The id of the focused candidate, in the list or in its sublist. -/
def focusedId (list : CandidateListOf Sub) : Int :=
  if list.size = 0 then 0
  else
    match list.focusedCandidate.subcandidateList with
    | some sub => Sublist.focusedId sub
    | none => list.focusedCandidate.id

/-- `next_available_id`. -/
def availableId (list : CandidateListOf Sub) : Int :=
  list.candidates.foldl (fun result candidate =>
    match candidate.subcandidateList with
    | some sub => max result (Sublist.nextAvailableId sub)
    | none => result) list.nextAvailableId

/-- The attributes of `GetDeepestFocusedCandidate`. -/
def deepestAttributes (list : CandidateListOf Sub) : Attributes :=
  match list.focusedCandidate.subcandidateList with
  | some sub => Sublist.deepestAttributes sub
  | none => list.focusedCandidate.attributes

/-- The next candidate, round the end where the list rotates. -/
def moveNext (list : CandidateListOf Sub) : Bool × CandidateListOf Sub :=
  list.withFocusedSub Sublist.moveNext fun list =>
    if list.focusedIndex + 1 = list.size then
      if list.rotate then (true, list.moveFirst.moveFocusedSub Sublist.moveFirst)
      else (false, list.moveFirst)
    else
      let list := { list with focusedIndex := list.focusedIndex + 1 }
      (true, list.moveFocusedSub Sublist.moveFirst)

/-- The previous candidate, round the start where the list rotates. -/
def movePrev (list : CandidateListOf Sub) : Bool × CandidateListOf Sub :=
  list.withFocusedSub Sublist.movePrev fun list =>
    if list.focusedIndex = 0 then
      if list.rotate then (true, list.moveLast.moveFocusedSub Sublist.moveLast)
      else (false, list.moveLast)
    else
      let list := { list with focusedIndex := list.focusedIndex - 1 }
      (true, list.moveFocusedSub Sublist.moveLast)

/-- The focus moves to the beginning of its page. -/
def toPageStart (list : CandidateListOf Sub) : Bool × CandidateListOf Sub :=
  let list := { list with focusedIndex := list.focusedIndex - list.focusedIndex % list.pageSize }
  (true, list.moveFocusedSub Sublist.moveFirst)

/-- The first candidate of the next page. -/
def moveNextPage (list : CandidateListOf Sub) : Bool × CandidateListOf Sub :=
  list.withFocusedSub Sublist.moveNextPage fun list =>
    if (list.getPageRange list.focusedIndex).2 = list.size then
      if list.rotate then list.moveFirst.toPageStart else (false, list)
    else { list with focusedIndex := list.focusedIndex + list.pageSize }.toPageStart

/-- The first candidate of the previous page. -/
def movePrevPage (list : CandidateListOf Sub) : Bool × CandidateListOf Sub :=
  list.withFocusedSub Sublist.movePrevPage fun list =>
    if list.focusedIndex < list.pageSize then
      if list.rotate then list.moveLast.toPageStart else (false, list)
    else { list with focusedIndex := list.focusedIndex - list.pageSize }.toPageStart

/-- The loop of `MoveToAttributes` and `MoveToId`: the first of the given candidates whose own
    list can be moved, or that is what is looked for, gets the focus. -/
def moveToFirst (move : Sub → Bool × Sub) (found : CandidateOf Sub → Bool) :
    List Nat → CandidateListOf Sub → Bool × CandidateListOf Sub
  | [], list => (false, list)
  | index :: indices, list =>
    let candidate := list.candidates.getD index {}
    match candidate.subcandidateList with
    | some sub =>
      let list := list.setSub index (move sub).2
      if (move sub).1 || found candidate then (true, { list with focusedIndex := index })
      else moveToFirst move found indices list
    | none =>
      if found candidate then (true, { list with focusedIndex := index })
      else moveToFirst move found indices list

/-- The first candidate with the attributes. -/
def moveToAttributes (attributes : Attributes) (list : CandidateListOf Sub) :
    Bool × CandidateListOf Sub :=
  moveToFirst (Sublist.moveToAttributes attributes)
    (fun candidate => candidate.hasAttributes attributes)
    ((List.range list.size).map fun i => (list.focusedIndex + i) % list.size) list

/-- The next candidate with the attributes. -/
def moveNextAttributes (attributes : Attributes) (list : CandidateListOf Sub) :
    Bool × CandidateListOf Sub :=
  list.moveNext.2.moveToAttributes attributes

/-- The candidate of an id. -/
def moveToId (baseId : Int) (list : CandidateListOf Sub) : Bool × CandidateListOf Sub :=
  let id := (findEntry list.alternativeIds baseId).getD baseId
  moveToFirst (Sublist.moveToId id) (fun candidate => candidate.id = id)
    (List.range list.size) list

/-- The candidate at a place of the page. -/
def moveToPageIndex (pageIndex : Nat) (list : CandidateListOf Sub) : Bool × CandidateListOf Sub :=
  let (begin, last) := list.getPageRange list.focusedIndex
  if last ≤ begin + pageIndex then (false, list)
  else
    let list := { list with focusedIndex := begin + pageIndex }
    (true, list.moveFocusedSub Sublist.moveFirst)

/-- Lists inside lists. -/
instance : Sublist (CandidateListOf Sub) where
  ids := ids
  focusedId := focusedId
  focusedIndex := focusedIndex
  nextAvailableId := availableId
  deepestAttributes := deepestAttributes
  moveFirst := moveFirst
  moveLast := moveLast
  moveNext := moveNext
  movePrev := movePrev
  moveNextPage := moveNextPage
  movePrevPage := movePrevPage
  moveToAttributes := moveToAttributes
  moveToId := moveToId

end

end CandidateListOf

/-- The list of transliterations in a cascading window. -/
abbrev SubCandidateList := CandidateListOf Empty

/-- A list that may hold lists of candidates. -/
abbrev CandidateList := CandidateListOf SubCandidateList

/-! ## Moving the focus changes no id -/

/-- Lists whose moves keep the ids, and whose focused id is one of them. -/
class LawfulSublist (Sub : Type) [Sublist Sub] : Prop where
  ids_moveFirst : ∀ sub : Sub, Sublist.ids (Sublist.moveFirst sub) = Sublist.ids sub
  ids_moveLast : ∀ sub : Sub, Sublist.ids (Sublist.moveLast sub) = Sublist.ids sub
  ids_moveNext : ∀ sub : Sub, Sublist.ids (Sublist.moveNext sub).2 = Sublist.ids sub
  ids_movePrev : ∀ sub : Sub, Sublist.ids (Sublist.movePrev sub).2 = Sublist.ids sub
  ids_moveNextPage : ∀ sub : Sub, Sublist.ids (Sublist.moveNextPage sub).2 = Sublist.ids sub
  ids_movePrevPage : ∀ sub : Sub, Sublist.ids (Sublist.movePrevPage sub).2 = Sublist.ids sub
  ids_moveToAttributes : ∀ (attributes : Attributes) (sub : Sub),
    Sublist.ids (Sublist.moveToAttributes attributes sub).2 = Sublist.ids sub
  ids_moveToId : ∀ (id : Int) (sub : Sub),
    Sublist.ids (Sublist.moveToId id sub).2 = Sublist.ids sub
  focusedId_mem : ∀ sub : Sub, Sublist.focusedId sub ∈ Sublist.ids sub ∨ Sublist.focusedId sub = 0

instance : LawfulSublist Empty where
  ids_moveFirst := Empty.rec
  ids_moveLast := Empty.rec
  ids_moveNext := Empty.rec
  ids_movePrev := Empty.rec
  ids_moveNextPage := Empty.rec
  ids_movePrevPage := Empty.rec
  ids_moveToAttributes := fun _ => Empty.rec
  ids_moveToId := fun _ => Empty.rec
  focusedId_mem := Empty.rec

namespace CandidateListOf

variable {Sub : Type} [Sublist Sub]

variable {list : CandidateListOf Sub}

/-- A list inside a candidate may be replaced by one with the same ids. -/
theorem ids_setSub {index : Nat} {sub sub' : Sub}
    (hsub : (list.candidates.getD index {}).subcandidateList = some sub)
    (hids : Sublist.ids sub' = Sublist.ids sub) : (list.setSub index sub').ids = list.ids := by
  unfold ids setSub
  dsimp only
  generalize list.candidates = candidates at hsub
  induction candidates generalizing index with
  | nil => simp at hsub
  | cons candidate candidates ih =>
    cases index with
    | zero =>
      have hsame : candidateIds { candidate with subcandidateList := some sub' }
          = candidateIds candidate := by
        have : candidate.subcandidateList = some sub := hsub
        simp [candidateIds, this, hids]
      simp [hsame]
    | succ index =>
      simpa using ih (by simpa using hsub)

theorem ids_moveFocusedSub {move : Sub → Sub} (h : ∀ sub, Sublist.ids (move sub) = Sublist.ids sub)
    :
    (list.moveFocusedSub move).ids = list.ids := by
  unfold moveFocusedSub
  split
  next sub hsub => exact ids_setSub hsub (h sub)
  next => rfl

theorem ids_withFocusedSub {move : Sub → Bool × Sub}
    {otherwise : CandidateListOf Sub → Bool × CandidateListOf Sub}
    (h : ∀ sub, Sublist.ids (move sub).2 = Sublist.ids sub)
    (hrest : ∀ list, (otherwise list).2.ids = list.ids) :
    (list.withFocusedSub move otherwise).2.ids = list.ids := by
  unfold withFocusedSub
  split
  next sub hsub =>
    have hset := ids_setSub hsub (h sub)
    dsimp only
    split
    · exact hset
    · exact (hrest _).trans hset
  next => exact hrest list

theorem ids_moveToFirst {move : Sub → Bool × Sub} {found : CandidateOf Sub → Bool}
    (h : ∀ sub, Sublist.ids (move sub).2 = Sublist.ids sub) (indices : List Nat) :
    ∀ list : CandidateListOf Sub, (moveToFirst move found indices list).2.ids = list.ids := by
  induction indices with
  | nil => intro list; rfl
  | cons index indices ih =>
    intro list
    unfold moveToFirst
    dsimp only
    split
    next sub hsub =>
      have hset := ids_setSub hsub (h sub)
      split
      · exact hset
      · exact (ih _).trans hset
    next =>
      split
      · rfl
      · exact ih list

variable [LawfulSublist Sub]

open LawfulSublist

theorem ids_toPageStart (list : CandidateListOf Sub) : list.toPageStart.2.ids = list.ids :=
  ids_moveFocusedSub ids_moveFirst

/-- Moving the focus changes no id. -/
theorem ids_moveNext (list : CandidateListOf Sub) : list.moveNext.2.ids = list.ids := by
  refine ids_withFocusedSub LawfulSublist.ids_moveNext ?_
  intro list
  split
  · split
    · exact ids_moveFocusedSub ids_moveFirst
    · rfl
  · exact ids_moveFocusedSub ids_moveFirst

theorem ids_movePrev (list : CandidateListOf Sub) : list.movePrev.2.ids = list.ids := by
  refine ids_withFocusedSub LawfulSublist.ids_movePrev ?_
  intro list
  split
  · split
    · exact ids_moveFocusedSub ids_moveLast
    · rfl
  · exact ids_moveFocusedSub ids_moveLast

theorem ids_moveNextPage (list : CandidateListOf Sub) : list.moveNextPage.2.ids = list.ids := by
  refine ids_withFocusedSub LawfulSublist.ids_moveNextPage ?_
  intro list
  split
  · split
    · exact ids_toPageStart _
    · rfl
  · exact ids_toPageStart _

theorem ids_movePrevPage (list : CandidateListOf Sub) : list.movePrevPage.2.ids = list.ids := by
  refine ids_withFocusedSub LawfulSublist.ids_movePrevPage ?_
  intro list
  split
  · split
    · exact ids_toPageStart _
    · rfl
  · exact ids_toPageStart _

theorem ids_moveToAttributes (attributes : Attributes) (list : CandidateListOf Sub) :
    (list.moveToAttributes attributes).2.ids = list.ids :=
  ids_moveToFirst (LawfulSublist.ids_moveToAttributes attributes) _ list

theorem ids_moveNextAttributes (attributes : Attributes) (list : CandidateListOf Sub) :
    (list.moveNextAttributes attributes).2.ids = list.ids :=
  (ids_moveToAttributes attributes _).trans (ids_moveNext list)

theorem ids_moveToId (id : Int) (list : CandidateListOf Sub) :
    (list.moveToId id).2.ids = list.ids :=
  ids_moveToFirst (LawfulSublist.ids_moveToId _) _ list

theorem ids_moveToPageIndex (pageIndex : Nat) (list : CandidateListOf Sub) :
    (list.moveToPageIndex pageIndex).2.ids = list.ids := by
  unfold moveToPageIndex
  dsimp only
  split
  · rfl
  · exact ids_moveFocusedSub ids_moveFirst

/-- The focused id is the id of a candidate, or zero where there is none. -/
theorem focusedId_mem (list : CandidateListOf Sub) :
    list.focusedId ∈ list.ids ∨ list.focusedId = 0 := by
  unfold focusedId
  split
  · exact Or.inr rfl
  · cases hcandidate : list.candidates[list.focusedIndex]? with
    | none =>
      have hfocused : list.focusedCandidate = {} := by
        simp [focusedCandidate, hcandidate]
      simp [hfocused]
    | some candidate =>
      have hfocused : list.focusedCandidate = candidate := by
        simp [focusedCandidate, hcandidate]
      have hmem : candidate ∈ list.candidates := List.mem_of_getElem? hcandidate
      rw [hfocused]
      cases hsub : candidate.subcandidateList with
      | none =>
        left
        exact List.mem_flatMap.mpr ⟨candidate, hmem, by simp [candidateIds]⟩
      | some sub =>
        rcases LawfulSublist.focusedId_mem sub with h | h
        · left
          exact List.mem_flatMap.mpr ⟨candidate, hmem, by simp [candidateIds, hsub, h]⟩
        · exact Or.inr h

instance : LawfulSublist (CandidateListOf Sub) where
  ids_moveFirst := fun _ => rfl
  ids_moveLast := fun _ => rfl
  ids_moveNext := ids_moveNext
  ids_movePrev := ids_movePrev
  ids_moveNextPage := ids_moveNextPage
  ids_movePrevPage := ids_movePrevPage
  ids_moveToAttributes := ids_moveToAttributes
  ids_moveToId := ids_moveToId
  focusedId_mem := focusedId_mem

/-! ## Adding candidates -/

omit [LawfulSublist Sub] in
theorem mem_ids_addCandidateWithAttributes {id id' : Int} {fingerprint : UInt64}
    {attributes : Attributes}
    (h : id' ∈ (list.addCandidateWithAttributes id fingerprint attributes).ids) :
    id' ∈ list.ids ∨ id' = id := by
  unfold addCandidateWithAttributes at h
  dsimp only at h
  split at h
  next altId _ =>
    left
    obtain ⟨candidate, hcandidate, hid⟩ := List.mem_flatMap.mp h
    obtain ⟨before, hbefore, rfl⟩ := List.mem_map.mp hcandidate
    refine List.mem_flatMap.mpr ⟨before, hbefore, ?_⟩
    split at hid
    · exact hid
    · exact hid
  next =>
    simp only [ids, List.flatMap_append, List.mem_append] at h
    rcases h with h | h
    · exact Or.inl h
    · right
      simpa [candidateIds] using h

end CandidateListOf

end MozkeyEngine
