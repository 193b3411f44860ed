import Mozkey.LatticeProofs
import Mozkey.SegmentHistoryProofs

/-! # Functional reachability — which parts of a key are kana functional words

    A table says for every two positions whether kana functional nodes lead from the one to the
    other.  It is filled in place, for all starts, in the order of the positions; a node that
    leads back would come too late. -/

namespace MozkeyReachability

open ByteString MozkeyConverter

/-! ## The table -/

variable (isFunctional : Nat → Bool)

/-- `IsKanaFunctionalNode`; `isFunctional` is what `PosMatcher` says of an id. -/
def isKanaFunctionalNode (node : Node) : Bool :=
  if node.nodeType ≠ .norNode then false
  else if node.key = [] then false
  else if node.key ≠ node.value then false
  else if MozkeySegmentHistory.getScriptType node.key ≠ .hiragana then false
  else isFunctional node.lid || isFunctional node.rid

/-- `FunctionalReachability`: a row for every start. -/
abbrev FunctionalReachability := List (List Bool)

/-- `reachable[start][pos]`. -/
def FunctionalReachability.at (reachable : FunctionalReachability) (start pos : Nat) : Bool :=
  (reachable.getD start []).getD pos false

/-- `reachable[start][pos] = true`. -/
def FunctionalReachability.mark (reachable : FunctionalReachability) (start pos : Nat) :
    FunctionalReachability :=
  reachable.modify start (·.set pos true)

variable (lattice : Lattice)

/-- The body of the innermost loop, for one node that begins at a position. -/
def visitNode (start pos : Nat) (reachable : FunctionalReachability) (id : Nat) :
    FunctionalReachability :=
  if (lattice.node id).endPos > lattice.key.length then reachable
  else if (lattice.node id).endPos = pos then reachable
  else if !isKanaFunctionalNode isFunctional (lattice.node id) then reachable
  else reachable.mark start (lattice.node id).endPos

/-- The body of the middle loop. -/
def visitPos (start : Nat) (reachable : FunctionalReachability) (pos : Nat) :
    FunctionalReachability :=
  if !reachable.at start pos then reachable
  else (lattice.beginNodesAt pos).foldl (visitNode isFunctional lattice start pos) reachable

/-- The body of the outer loop. -/
def visitStart (reachable : FunctionalReachability) (start : Nat) : FunctionalReachability :=
  (List.range' start (lattice.key.length - start)).foldl
    (visitPos isFunctional lattice start) reachable

/-- The table before the outer loop: a position is reached from itself. -/
def diagonal (keySize beginPos : Nat) : FunctionalReachability :=
  (List.range' beginPos (keySize + 1 - beginPos)).foldl (fun reachable i => reachable.mark i i)
    (List.replicate (keySize + 1) (List.replicate (keySize + 1) false))

/-- `BuildFunctionalReachability`. -/
def buildFunctionalReachability (beginPos : Nat) : FunctionalReachability :=
  (List.range' beginPos (lattice.key.length - beginPos)).foldl
    (visitStart isFunctional lattice) (diagonal lattice.key.length beginPos)

/-- `HasFunctionalPathInRange`. -/
def hasFunctionalPathInRange (reachable : FunctionalReachability) (beginPos endPos : Nat) : Bool :=
  if beginPos ≥ reachable.length then false
  else if endPos ≥ (reachable.getD beginPos []).length then false
  else reachable.at beginPos endPos

/-! ## Ways -/

/-- A contiguous sequence of kana functional nodes from a position to another. -/
def IsFunctionalPath : Nat → List Nat → Nat → Prop
  | s, [], e => s = e
  | s, id :: path, e =>
    id ∈ lattice.beginNodesAt s ∧ isKanaFunctionalNode isFunctional (lattice.node id) = true ∧
      IsFunctionalPath (lattice.node id).endPos path e

/-- One kana functional node leads from a position to another. -/
def Leads (s e : Nat) : Prop :=
  ∃ id ∈ lattice.beginNodesAt s,
    isKanaFunctionalNode isFunctional (lattice.node id) = true ∧ (lattice.node id).endPos = e

/-- Kana functional nodes connect two positions. -/
def Connected : Nat → Nat → Prop := Relation.ReflTransGen (Leads isFunctional lattice)

/-- Nodes do not end before they begin. -/
def Forward : Prop :=
  ∀ pos, ∀ id ∈ lattice.beginNodesAt pos, pos ≤ (lattice.node id).endPos

variable {isFunctional lattice} {reachable : FunctionalReachability} {start pos s e n : Nat}

theorem exists_path_iff :
    (∃ path, IsFunctionalPath isFunctional lattice s path e) ↔
      Connected isFunctional lattice s e := by
  constructor
  · rintro ⟨path, h⟩
    induction path generalizing s with
    | nil =>
      obtain rfl : s = e := h
      exact Relation.ReflTransGen.refl
    | cons id path ih =>
      obtain ⟨hmem, hkana, hrest⟩ := h
      exact Relation.ReflTransGen.head ⟨id, hmem, hkana, rfl⟩ (ih hrest)
  · intro h
    induction h using Relation.ReflTransGen.head_induction_on with
    | refl => exact ⟨[], rfl⟩
    | head hlead _ ih =>
      obtain ⟨id, hmem, hkana, rfl⟩ := hlead
      obtain ⟨path, hpath⟩ := ih
      exact ⟨id :: path, hmem, hkana, hpath⟩

theorem Leads.le (hforward : Forward lattice) (h : Leads isFunctional lattice s e) : s ≤ e := by
  obtain ⟨id, hmem, -, rfl⟩ := h
  exact hforward s id hmem

theorem Connected.le (hforward : Forward lattice) (h : Connected isFunctional lattice s e) :
    s ≤ e := by
  induction h with
  | refl => exact le_rfl
  | tail _ hlead ih => exact ih.trans (hlead.le hforward)

/-- A position is reached by a node that begins at a position before `p`, from `s`. -/
def ConnectedBefore (isFunctional : Nat → Bool) (lattice : Lattice) (p s e : Nat) : Prop :=
  e = s ∨ ∃ q, q < p ∧ Connected isFunctional lattice s q ∧ Leads isFunctional lattice q e

/-- A way to a position ends with a node that begins before it, or is empty. -/
theorem connected_iff_before (hforward : Forward lattice) {p : Nat} (hp : e ≤ p) :
    Connected isFunctional lattice s e ↔ ConnectedBefore isFunctional lattice p s e := by
  constructor
  · intro h
    induction h with
    | refl => exact Or.inl rfl
    | @tail q e hway hlead ih =>
      rcases (hlead.le hforward).lt_or_eq with hlt | rfl
      · exact Or.inr ⟨q, by omega, hway, hlead⟩
      · exact ih hp
  · rintro (rfl | ⟨q, -, hway, hlead⟩)
    · exact Relation.ReflTransGen.refl
    · exact hway.tail hlead

/-! ## One visit -/

/-- A table with a row of the size of the key for every position. -/
structure Square (n : Nat) (reachable : FunctionalReachability) : Prop where
  length : reachable.length = n + 1
  row : ∀ s, s ≤ n → (reachable.getD s []).length = n + 1

theorem Square.mark (h : Square n reachable) (start pos : Nat) :
    Square n (reachable.mark start pos) := by
  constructor
  · rw [FunctionalReachability.mark, List.length_modify, h.length]
  · intro s hs
    have hrow := h.row s hs
    rw [List.getD_eq_getElem?_getD] at hrow ⊢
    rw [FunctionalReachability.mark, List.getElem?_modify]
    cases hget : reachable[s]? with
    | none => simp [hget] at hrow
    | some row =>
      rw [hget, Option.getD_some] at hrow
      by_cases hstart : start = s <;> simp [hstart, hrow]

theorem Square.at_mark (h : Square n reachable) (hstart : start ≤ n) (hpos : pos ≤ n) :
    (reachable.mark start pos).at s e = true ↔
      (s = start ∧ e = pos) ∨ reachable.at s e = true := by
  have hlength := h.length
  have hrow := h.row start hstart
  have hget := List.getElem?_eq_getElem (show start < reachable.length by omega)
  rw [List.getD_eq_getElem?_getD, hget, Option.getD_some] at hrow
  simp only [FunctionalReachability.at, FunctionalReachability.mark, List.getD_eq_getElem?_getD,
    List.getElem?_modify]
  by_cases hs : start = s
  · subst hs
    rw [hget]
    by_cases he : pos = e
    · subst he
      simp [hrow, Nat.lt_succ_of_le hpos]
    · simp [he, Ne.symm he]
  · simp [hs, Ne.symm hs]

theorem visitNodes_spec (ids : List Nat) (h : Square lattice.key.length reachable)
    (hstart : start ≤ lattice.key.length) (hpos : reachable.at start pos = true) :
    Square lattice.key.length (ids.foldl (visitNode isFunctional lattice start pos) reachable) ∧
      ∀ s e, (ids.foldl (visitNode isFunctional lattice start pos) reachable).at s e = true ↔
        reachable.at s e = true ∨ (s = start ∧ e ≤ lattice.key.length ∧ ∃ id ∈ ids,
          isKanaFunctionalNode isFunctional (lattice.node id) = true ∧
            (lattice.node id).endPos = e) := by
  induction ids generalizing reachable with
  | nil => exact ⟨h, by simp⟩
  | cons id ids ih =>
    -- a node that ends where it begins marks what is marked already
    have hvisit :
        Square lattice.key.length (visitNode isFunctional lattice start pos reachable id) ∧
        ∀ s e, (visitNode isFunctional lattice start pos reachable id).at s e = true ↔
          reachable.at s e = true ∨ (s = start ∧ e ≤ lattice.key.length ∧
            isKanaFunctionalNode isFunctional (lattice.node id) = true ∧
              (lattice.node id).endPos = e) := by
      rw [visitNode]
      split_ifs with hpast hempty hkana
      · refine ⟨h, fun s e => ⟨Or.inl, ?_⟩⟩
        rintro (hat | ⟨-, hle, -, rfl⟩)
        · exact hat
        · omega
      · refine ⟨h, fun s e => ⟨Or.inl, ?_⟩⟩
        rintro (hat | ⟨rfl, -, -, rfl⟩)
        · exact hat
        · rwa [hempty]
      · refine ⟨h, fun s e => ⟨Or.inl, ?_⟩⟩
        rintro (hat | ⟨-, -, htrue, -⟩)
        · exact hat
        · simp [htrue] at hkana
      · refine ⟨h.mark _ _, fun s e => ?_⟩
        rw [h.at_mark hstart (by omega)]
        constructor
        · rintro (⟨rfl, rfl⟩ | hat)
          · exact Or.inr ⟨rfl, by omega, by simpa using hkana, rfl⟩
          · exact Or.inl hat
        · rintro (hat | ⟨rfl, -, -, rfl⟩)
          · exact Or.inr hat
          · exact Or.inl ⟨rfl, rfl⟩
    obtain ⟨hsquare, hat⟩ := hvisit
    obtain ⟨hsquare', hat'⟩ := ih hsquare ((hat _ _).mpr (Or.inl hpos))
    refine ⟨hsquare', fun s e => ?_⟩
    rw [List.foldl_cons, hat', hat]
    constructor
    · rintro ((hold | ⟨hs, he, hnode⟩) | ⟨hs, he, id', hmem, hnode⟩)
      · exact Or.inl hold
      · exact Or.inr ⟨hs, he, id, List.mem_cons_self, hnode⟩
      · exact Or.inr ⟨hs, he, id', List.mem_cons_of_mem _ hmem, hnode⟩
    · rintro (hold | ⟨hs, he, id', hmem, hnode⟩)
      · exact Or.inl (Or.inl hold)
      · rcases List.mem_cons.mp hmem with rfl | hmem
        · exact Or.inl (Or.inr ⟨hs, he, hnode⟩)
        · exact Or.inr ⟨hs, he, id', hmem, hnode⟩

/-- **ONE VISIT** of a position that is reached adds what its nodes lead to; any other visit adds
    nothing. -/
theorem visitPos_spec (h : Square lattice.key.length reachable)
    (hstart : start ≤ lattice.key.length) (pos : Nat) :
    Square lattice.key.length (visitPos isFunctional lattice start reachable pos) ∧
      ∀ s e, (visitPos isFunctional lattice start reachable pos).at s e = true ↔
        reachable.at s e = true ∨ (s = start ∧ e ≤ lattice.key.length ∧
          reachable.at start pos = true ∧ Leads isFunctional lattice pos e) := by
  rw [visitPos]
  split_ifs with hreached
  · refine ⟨h, fun s e => ⟨Or.inl, ?_⟩⟩
    rintro (hat | ⟨-, -, htrue, -⟩)
    · exact hat
    · simp [htrue] at hreached
  · have htrue : reachable.at start pos = true := by simpa using hreached
    obtain ⟨hsquare, hat⟩ := visitNodes_spec (lattice.beginNodesAt pos) h hstart htrue
    refine ⟨hsquare, fun s e => ?_⟩
    rw [hat, and_iff_right htrue]
    rfl

/-! ## All visits -/

/-- The row of a start after its visits up to a position: what is reached by nodes before it. -/
theorem visitPositions_spec (hforward : Forward lattice)
    (hstart : start ≤ lattice.key.length) (h : Square lattice.key.length reachable)
    (hrow : ∀ e, e ≤ lattice.key.length → (reachable.at start e = true ↔ e = start)) (k : Nat)
    (hk : start + k ≤ lattice.key.length) :
    let reachable' := (List.range' start k).foldl (visitPos isFunctional lattice start) reachable
    Square lattice.key.length reachable' ∧
      (∀ s, s ≠ start → ∀ e, reachable'.at s e = reachable.at s e) ∧
      ∀ e, e ≤ lattice.key.length → (reachable'.at start e = true ↔
        ConnectedBefore isFunctional lattice (start + k) start e) := by
  induction k with
  | zero =>
    refine ⟨h, fun _ _ _ => rfl, fun e he => (hrow e he).trans ⟨Or.inl, ?_⟩⟩
    rintro (rfl | ⟨q, hq, hway, -⟩)
    · rfl
    · have := Connected.le hforward hway
      omega
  | succ k ih =>
    obtain ⟨hsquare, hother, hself⟩ := ih (by omega)
    rw [List.range'_1_concat, List.foldl_append, List.foldl_cons, List.foldl_nil]
    obtain ⟨hsquare', hat⟩ := visitPos_spec hsquare hstart (start + k)
    refine ⟨hsquare', fun s hs e => ?_, fun e he => ?_⟩
    · rw [← hother s hs, Bool.eq_iff_iff, hat]
      simp [hs]
    · have hpos : _ ↔ Connected isFunctional lattice start (start + k) :=
        (hself (start + k) (by omega)).trans (connected_iff_before hforward le_rfl).symm
      rw [hat, hself e he, hpos]
      constructor
      · rintro ((rfl | ⟨q, hq, hway⟩) | ⟨-, -, hway⟩)
        · exact Or.inl rfl
        · exact Or.inr ⟨q, by omega, hway⟩
        · exact Or.inr ⟨start + k, by omega, hway⟩
      · rintro (rfl | ⟨q, hq, hway⟩)
        · exact Or.inl (Or.inl rfl)
        · rcases Nat.lt_or_ge q (start + k) with hlt | hge
          · exact Or.inl (Or.inr ⟨q, hlt, hway⟩)
          · obtain rfl : q = start + k := by omega
            exact Or.inr ⟨rfl, he, hway⟩

theorem marked_spec (n beginPos k : Nat) (hk : k ≤ n + 1 - beginPos) :
    let reachable := (List.range' beginPos k).foldl
      (fun (reachable : FunctionalReachability) i => reachable.mark i i)
      (List.replicate (n + 1) (List.replicate (n + 1) false))
    Square n reachable ∧ ∀ s e, s ≤ n →
      (reachable.at s e = true ↔ (beginPos ≤ s ∧ s < beginPos + k) ∧ e = s) := by
  induction k with
  | zero =>
    refine ⟨⟨List.length_replicate, fun s hs => ?_⟩, fun s e hs => ⟨fun h => ?_, fun h => by omega⟩⟩
    · rw [List.range'_zero, List.foldl_nil, List.getD_eq_getElem?_getD,
        List.getElem?_replicate_of_lt (by omega)]
      exact List.length_replicate
    · rw [List.range'_zero, List.foldl_nil, FunctionalReachability.at,
        List.getD_eq_getElem?_getD, List.getD_eq_getElem?_getD,
        List.getElem?_replicate_of_lt (by omega), Option.getD_some, List.getElem?_replicate] at h
      split_ifs at h <;> cases h
  | succ k ih =>
    obtain ⟨hsquare, hat⟩ := ih (by omega)
    rw [List.range'_1_concat, List.foldl_append, List.foldl_cons, List.foldl_nil]
    refine ⟨hsquare.mark _ _, fun s e hs => ?_⟩
    rw [hsquare.at_mark (by omega) (by omega), hat s e hs]
    omega

theorem diagonal_spec (n beginPos : Nat) :
    Square n (diagonal n beginPos) ∧ ∀ s e, s ≤ n →
      ((diagonal n beginPos).at s e = true ↔ beginPos ≤ s ∧ e = s) := by
  obtain ⟨hsquare, hat⟩ := marked_spec n beginPos _ le_rfl
  refine ⟨hsquare, fun s e hs => (hat s e hs).trans ?_⟩
  omega

/-- **ALL VISITS**: the rows of the starts that have been visited are complete, the others are as
    they were. -/
theorem visitStarts_spec (hforward : Forward lattice) (beginPos k : Nat)
    (hk : k ≤ lattice.key.length - beginPos) :
    let reachable := (List.range' beginPos k).foldl (visitStart isFunctional lattice)
      (diagonal lattice.key.length beginPos)
    Square lattice.key.length reachable ∧ ∀ s e, beginPos ≤ s → s ≤ lattice.key.length →
      e ≤ lattice.key.length → (reachable.at s e = true ↔
        if s < beginPos + k then Connected isFunctional lattice s e else e = s) := by
  induction k with
  | zero =>
    obtain ⟨hsquare, hat⟩ := diagonal_spec lattice.key.length beginPos
    refine ⟨hsquare, fun s e hbegin hs _ => ?_⟩
    rw [if_neg (by omega)]
    exact (hat s e hs).trans (and_iff_right hbegin)
  | succ k ih =>
    obtain ⟨hsquare, hat⟩ := ih (by omega)
    rw [List.range'_1_concat, List.foldl_append, List.foldl_cons, List.foldl_nil]
    have hrow (e : Nat) (he : e ≤ lattice.key.length) :=
      hat (beginPos + k) e (by omega) (by omega) he
    simp only [lt_irrefl, if_false] at hrow
    obtain ⟨hsquare', hother, hself⟩ := visitPositions_spec hforward
      (by omega) hsquare hrow (lattice.key.length - (beginPos + k)) (by omega)
    refine ⟨hsquare', fun s e hbegin hs he => ?_⟩
    by_cases hsk : s = beginPos + k
    · subst hsk
      rw [if_pos (by omega)]
      exact (hself e he).trans (connected_iff_before hforward (by omega)).symm
    · have hsame : s < beginPos + (k + 1) ↔ s < beginPos + k := by omega
      rw [if_congr hsame rfl rfl, ← hat s e hbegin hs he]
      exact Bool.eq_iff_iff.mp (hother s hsk e)

/-! ## The nodes of a lattice -/

/-- **INSERTED NODES LEAD FORWARD**: a node begins where it is listed and ends there or later. -/
theorem forward_latticeOf {key : Bytes} {bosId : Nat} {inserts : List (Nat × Node)}
    (hkey : key.length < 2 ^ 16) (hinserts : ∀ e ∈ inserts, e.1 ≤ key.length) :
    Forward (latticeOf key bosId inserts) := by
  intro pos id hmem
  obtain ⟨-, -, -, -, hbegin, -⟩ := nodesAt_latticeOf key bosId inserts hinserts
  rcases (hbegin pos id).mp hmem with ⟨rfl, rfl⟩ | ⟨i, e, hget, rfl, rfl⟩
  · have heos : (latticeOf key bosId inserts).node 1 = initEOSNode key.length := by
      simp [Lattice.node, (nodes_latticeOf key bosId inserts).2]
    rw [heos]
    exact (uint16_of_lt hkey).ge
  · have hle := hinserts e (List.mem_of_getElem? hget)
    rw [node_latticeOf hget]
    show e.1 ≤ uint16 _
    rw [uint16_of_lt (by omega)]
    omega

/-- **THE TABLE IS THE REACHABILITY** of positions over kana functional nodes. -/
theorem hasFunctionalPathInRange_iff (isFunctional : Nat → Bool) (lattice : Lattice)
    (hforward : Forward lattice) (beginPos s e : Nat) (hs : beginPos ≤ s)
    (he : e ≤ lattice.key.length) :
    hasFunctionalPathInRange (buildFunctionalReachability isFunctional lattice beginPos) s e
        = true ↔
      e = s ∨ ∃ path, path ≠ [] ∧ IsFunctionalPath isFunctional lattice s path e := by
  have hpaths : (e = s ∨ ∃ path, path ≠ [] ∧ IsFunctionalPath isFunctional lattice s path e) ↔
      Connected isFunctional lattice s e := by
    rw [← exists_path_iff]
    constructor
    · rintro (rfl | ⟨path, -, hpath⟩)
      · exact ⟨[], rfl⟩
      · exact ⟨path, hpath⟩
    · rintro ⟨path, hpath⟩
      cases path with
      | nil => exact Or.inl (Eq.symm hpath)
      | cons id path => exact Or.inr ⟨id :: path, List.cons_ne_nil _ _, hpath⟩
  obtain ⟨hsquare, hat⟩ := visitStarts_spec hforward beginPos _ le_rfl
  rw [hpaths, hasFunctionalPathInRange, buildFunctionalReachability, hsquare.length]
  by_cases hpast : s ≤ lattice.key.length
  · rw [if_neg (by omega), hsquare.row s hpast, if_neg (by omega), hat s e hs hpast he]
    split_ifs with hvisited
    · rfl
    · -- the last position is a start that is not visited
      constructor
      · rintro rfl
        exact Relation.ReflTransGen.refl
      · intro hway
        have := Connected.le hforward hway
        omega
  · rw [if_pos (by omega)]
    constructor
    · intro h
      cases h
    · intro hway
      have := Connected.le hforward hway
      omega

/-- The key of the example below, あい. -/
private def reachabilityKey : Bytes := [0xE3, 0x81, 0x82, 0xE3, 0x81, 0x84]

/-- Two particles cover the key. -/
private def reachabilityLattice : Lattice :=
  latticeOf reachabilityKey 0
    [(0, { lid := 1, key := reachabilityKey.take 3, value := reachabilityKey.take 3 }),
      (3, { lid := 1, key := reachabilityKey.drop 3, value := reachabilityKey.drop 3 })]

/-- Two particles fill the range. -/
theorem hasFunctionalPathInRange_particles :
    hasFunctionalPathInRange (buildFunctionalReachability (· == 1) reachabilityLattice 0) 0 6 =
      true :=
  (hasFunctionalPathInRange_iff (· == 1) reachabilityLattice
    (forward_latticeOf (by decide) (by decide)) 0 0 6 (by decide) (by decide)).mpr
    (Or.inr ⟨[2, 3], by decide, by decide, by decide, by decide, by decide, rfl⟩)

end MozkeyReachability
