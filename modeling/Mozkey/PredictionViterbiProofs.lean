import Mozkey.SortedMapProofs
import Mozkey.ViterbiPathProofs

/-! # Prediction Viterbi — the faster search of predictions

    `PredictionViterbi` keeps, at a position, the cheapest of the nodes that end there for each
    right id, and finds with them the cheapest way on for each left id.  It does not ask whether
    anything leads to a node; in the lattices of predictions something leads to every node. -/

namespace MozkeyConverter

open ByteString ShortestPath OrderedMap

/-! ## The search -/

/-- `INT_MAX`. -/
def intMax : Int := 2 ^ 31 - 1

/-- The least cost so far, and its node. -/
abbrev CostAndNode := Int × Option Nat

/-- `BestMap`: a vector sorted by ids. -/
abbrev BestMap := List (Nat × CostAndNode)

/-- The loop body for a node that ends at the position. -/
def updateLeft (lattice : Lattice) (lbest : BestMap) (lnode : Nat) : BestMap :=
  let rid := (lattice.node lnode).rid
  let cost := (lattice.node lnode).cost
  let iter := lowerBound rid lbest
  match lbest[iter]? with
  | none => lbest.insertIdx iter (rid, (cost, some lnode))
  | some e =>
    if e.1 ≠ rid then lbest.insertIdx iter (rid, (cost, some lnode))
    else lbest.set iter (e.1, if cost < e.2.1 then (cost, some lnode) else e.2)

/-- The loop body for a node that begins at the position: an invalid value for its id. -/
def reserveRight (calcEndPos : Nat) (lattice : Lattice) (rbest : BestMap) (rnode : Nat) :
    BestMap :=
  if (lattice.node rnode).endPos > calcEndPos then rbest
  else
    let lid := (lattice.node rnode).lid
    let iter := lowerBound lid rbest
    match rbest[iter]? with
    | none => rbest.insertIdx iter (lid, (intMax, none))
    | some e => if e.1 ≠ lid then rbest.insertIdx iter (lid, (intMax, none)) else rbest

/-- The loop body for a pair of ids. -/
def updateRight (connector : Connector) (liter riter : Nat × CostAndNode) : Nat × CostAndNode :=
  let cost := liter.2.1 + connector.getTransitionCost liter.1 riter.1
  (riter.1, if cost < riter.2.1 then (cost, liter.2.2) else riter.2)

/-- The loop body that assigns the value of its id to a node that begins at the position. -/
def assignRight (calcEndPos : Nat) (rbest : BestMap) (lattice : Lattice) (rnode : Nat) :
    Lattice :=
  if (lattice.node rnode).endPos > calcEndPos then lattice
  else
    let lid := (lattice.node rnode).lid
    match rbest[lowerBound lid rbest]? with
    | none => lattice
    | some e =>
      if e.1 ≠ lid ∨ e.2.2 = none then lattice
      else lattice.modify rnode fun n => { n with cost := e.2.1 + n.wcost, prev := e.2.2 }

/-- The body of the loop of `PredictionViterbiInternal` over positions. -/
def predictionPosition (connector : Connector) (calcEndPos : Nat) (lattice : Lattice)
    (pos : Nat) : Lattice :=
  let lbest := (lattice.endNodesAt pos).foldl (updateLeft lattice) []
  if lbest = [] then lattice
  else
    let rbest := (lattice.beginNodesAt pos).foldl (reserveRight calcEndPos lattice) []
    if rbest = [] then lattice
    else
      let rbest := lbest.foldl (fun rbest liter => rbest.map (updateRight connector liter)) rbest
      (lattice.beginNodesAt pos).foldl (assignRight calcEndPos rbest) lattice

/-- `PredictionViterbiInternal`; both ends are processed. -/
def predictionViterbiInternal (connector : Connector) (calcBeginPos calcEndPos : Nat)
    (lattice : Lattice) : Lattice :=
  (List.range' calcBeginPos (calcEndPos + 1 - calcBeginPos)).foldl
    (predictionPosition connector calcEndPos) lattice

/-- The segments that are fixed. -/
def historySegments (segments : List Segment) : List Segment :=
  segments.takeWhile fun s => decide (s.segmentType = .history ∨ s.segmentType = .submitted)

/-- `PredictionViterbi`. -/
def predictionViterbi (connector : Connector) (segments : List Segment) (lattice : Lattice) :
    Option (Bool × Lattice) :=
  let keyLength := lattice.key.length
  let historyLength := ((historySegments segments).map fun s => s.key.length).sum
  let lattice := predictionViterbiInternal connector 0 historyLength lattice
  let lattice := predictionViterbiInternal connector historyLength keyLength lattice
  (traverse (lattice.key.length + 3) lattice.eosNode none lattice).map fun (prev, lattice) =>
    (decide (prev = some lattice.bosNode), lattice)

/-! ## The two maps -/

/-- The nodes that end at the position, by their ids. -/
structure LeftBest (lattice : Lattice) (lnodes : List Nat) (lbest : BestMap) : Prop where
  sorted : lbest.Pairwise (fun a b => a.1 < b.1)
  get : ∀ rid v, getList rid lbest = some v →
    ∃ l ∈ lnodes, (lattice.node l).rid = rid ∧ v = ((lattice.node l).cost, some l)
  le : ∀ l ∈ lnodes, ∃ v, getList (lattice.node l).rid lbest = some v ∧
    v.1 ≤ (lattice.node l).cost

/-- The cheaper of a node and what is kept for its id. -/
def cheaper (n : CostAndNode) (v : CostAndNode) : CostAndNode := if n.1 < v.1 then n else v

theorem updateLeft_eq (lattice : Lattice) (lbest : BestMap) (lnode : Nat) :
    updateLeft lattice lbest lnode
      = modifyList (lattice.node lnode).rid ((lattice.node lnode).cost, some lnode)
          (cheaper ((lattice.node lnode).cost, some lnode)) lbest := by
  rw [← insertIdx_lowerBound]
  unfold updateLeft cheaper
  cases hget : lbest[lowerBound (lattice.node lnode).rid lbest]? with
  | none => simp [hget]
  | some e => simp [hget]

theorem leftBest_foldl (lattice : Lattice) (lnodes : List Nat) :
    LeftBest lattice lnodes (lnodes.foldl (updateLeft lattice) []) := by
  induction lnodes using List.reverseRecOn with
  | nil =>
    refine ⟨List.Pairwise.nil, ?_, ?_⟩
    · intro rid v hv
      cases hv
    · intro l hl
      cases hl
  | append_singleton lnodes l ih =>
    rw [List.foldl_append, List.foldl_cons, List.foldl_nil, updateLeft_eq]
    obtain ⟨hsorted, hget, hle⟩ := ih
    refine ⟨modifyList_sorted _ hsorted, ?_, ?_⟩
    · intro rid v hv
      rw [getList_modifyList _ _ hsorted] at hv
      have hself : l ∈ lnodes ++ [l] := by simp
      by_cases hrid : rid = (lattice.node l).rid
      · rw [if_pos hrid, Option.some.injEq] at hv
        cases hold : getList (lattice.node l).rid (lnodes.foldl (updateLeft lattice) []) with
        | none =>
          rw [hold] at hv
          refine ⟨l, hself, hrid.symm, ?_⟩
          rw [← hv]
          simp [cheaper]
        | some w =>
          rw [hold] at hv
          unfold cheaper at hv
          by_cases hlt : (lattice.node l).cost < w.1
          · rw [Option.getD_some, if_pos hlt] at hv
            exact ⟨l, hself, hrid.symm, hv.symm⟩
          · rw [Option.getD_some, if_neg hlt] at hv
            obtain ⟨l', hl', hrid', hw⟩ := hget _ _ hold
            exact ⟨l', List.mem_append_left _ hl', hrid'.trans hrid.symm, hv ▸ hw⟩
      · rw [if_neg hrid] at hv
        obtain ⟨l', hl', h⟩ := hget rid v hv
        exact ⟨l', List.mem_append_left _ hl', h⟩
    · intro l' hl'
      rw [getList_modifyList _ _ hsorted]
      by_cases hrid : (lattice.node l').rid = (lattice.node l).rid
      · rw [if_pos hrid]
        refine ⟨_, rfl, ?_⟩
        rcases List.mem_append.mp hl' with hold | hnew
        · obtain ⟨v, hv, hvle⟩ := hle l' hold
          rw [hrid] at hv
          rw [hv, Option.getD_some]
          unfold cheaper
          split
          · rename_i hlt
            simp only at hlt ⊢
            omega
          · exact hvle
        · rw [List.mem_singleton.mp hnew]
          unfold cheaper
          split
          · exact le_refl _
          · rename_i hlt
            exact not_lt.mp hlt
      · rw [if_neg hrid]
        refine hle l' ((List.mem_append.mp hl').resolve_right ?_)
        intro hnew
        rw [List.mem_singleton.mp hnew] at hrid
        exact hrid rfl

theorem reserveRight_eq (calcEndPos : Nat) (lattice : Lattice) (rbest : BestMap) (rnode : Nat) :
    reserveRight calcEndPos lattice rbest rnode
      = if (lattice.node rnode).endPos > calcEndPos then rbest
        else modifyList (lattice.node rnode).lid (intMax, none) id rbest := by
  rw [← insertIdx_lowerBound]
  unfold reserveRight
  split
  · rfl
  · cases hget : rbest[lowerBound (lattice.node rnode).lid rbest]? with
    | none => simp [hget]
    | some e =>
      by_cases hne : e.1 ≠ (lattice.node rnode).lid
      · simp [hget, hne]
      · obtain ⟨hlt, heq⟩ := List.getElem?_eq_some_iff.mp hget
        simp only [hget, if_neg hne, id]
        rw [← heq]
        exact (List.set_getElem_self hlt).symm

/-- The left ids of the nodes that are processed, each with an invalid value. -/
structure Reserved (calcEndPos : Nat) (lattice : Lattice) (rnodes : List Nat) (rbest : BestMap) :
    Prop where
  sorted : rbest.Pairwise (fun a b => a.1 < b.1)
  get : ∀ lid, getList lid rbest = if ∃ r ∈ rnodes, (lattice.node r).endPos ≤ calcEndPos ∧
    (lattice.node r).lid = lid then some (intMax, none) else none

theorem reserved_foldl (calcEndPos : Nat) (lattice : Lattice) (rnodes : List Nat) :
    Reserved calcEndPos lattice rnodes
      (rnodes.foldl (reserveRight calcEndPos lattice) []) := by
  induction rnodes using List.reverseRecOn with
  | nil =>
    refine ⟨List.Pairwise.nil, ?_⟩
    intro lid
    simp [getList]
  | append_singleton rnodes r ih =>
    obtain ⟨hsorted, hget⟩ := ih
    rw [List.foldl_append, List.foldl_cons, List.foldl_nil, reserveRight_eq]
    by_cases hend : (lattice.node r).endPos > calcEndPos
    · rw [if_pos hend]
      refine ⟨hsorted, ?_⟩
      intro lid
      rw [hget]
      refine if_congr ?_ rfl rfl
      constructor
      · rintro ⟨r', hr', h⟩
        exact ⟨r', List.mem_append_left _ hr', h⟩
      · rintro ⟨r', hr', hle, h⟩
        refine ⟨r', (List.mem_append.mp hr').resolve_right ?_, hle, h⟩
        intro hnew
        rw [List.mem_singleton.mp hnew] at hle
        omega
    · rw [if_neg hend]
      refine ⟨modifyList_sorted _ hsorted, ?_⟩
      intro lid
      rw [getList_modifyList _ _ hsorted, hget, hget]
      by_cases hlid : lid = (lattice.node r).lid
      · have hnew : ∃ r' ∈ rnodes ++ [r], (lattice.node r').endPos ≤ calcEndPos ∧
            (lattice.node r').lid = lid :=
          ⟨r, List.mem_append_right _ (List.mem_singleton.mpr rfl), not_lt.mp hend, hlid.symm⟩
        rw [if_pos hlid, if_pos hnew]
        split <;> rfl
      · rw [if_neg hlid]
        refine if_congr ?_ rfl rfl
        constructor
        · rintro ⟨r', hr', h⟩
          exact ⟨r', List.mem_append_left _ hr', h⟩
        · rintro ⟨r', hr', hle, h⟩
          refine ⟨r', (List.mem_append.mp hr').resolve_right ?_, hle, h⟩
          intro hnew
          rw [List.mem_singleton.mp hnew] at h
          exact hlid h.symm

/-- The value that the loop over the right ids finds for a left id. -/
def rightValue (connector : Connector) (lbest : BestMap) (lid : Nat) : CostAndNode :=
  lbest.foldl (fun v liter => (updateRight connector liter (lid, v)).2) (intMax, none)

theorem getList_foldl_updateRight (connector : Connector) (lid : Nat) (lbest : BestMap) :
    ∀ rbest : BestMap,
      getList lid (lbest.foldl (fun rbest liter => rbest.map (updateRight connector liter)) rbest)
        = (getList lid rbest).map fun v =>
            lbest.foldl (fun v liter => (updateRight connector liter (lid, v)).2) v := by
  induction lbest with
  | nil =>
    intro rbest
    simp
  | cons liter lbest ih =>
    intro rbest
    rw [List.foldl_cons, ih, getList_map (by intro e; rfl), Option.map_map]
    rfl

theorem sorted_foldl_updateRight (connector : Connector) (lbest : BestMap) :
    ∀ rbest : BestMap, rbest.Pairwise (fun a b => a.1 < b.1) →
      (lbest.foldl (fun rbest liter => rbest.map (updateRight connector liter)) rbest).Pairwise
        (fun a b => a.1 < b.1) := by
  induction lbest with
  | nil => exact fun _ h => h
  | cons liter lbest ih =>
    intro rbest h
    exact ih _ (List.pairwise_map.mpr h)

theorem rightValue_eq (connector : Connector) (lbest : BestMap) (lid : Nat) :
    rightValue connector lbest lid
      = ((best intMax (lbest.map fun e =>
            (e.2.2, e.2.1 + connector.getTransitionCost e.1 lid))).1,
          (best intMax (lbest.map fun e =>
            (e.2.2, e.2.1 + connector.getTransitionCost e.1 lid))).2.join) := by
  unfold rightValue
  induction lbest using List.reverseRecOn with
  | nil => rfl
  | append_singleton lbest e ih =>
    rw [List.foldl_append, ih, List.map_append, List.map_singleton, best_concat,
      List.foldl_cons, List.foldl_nil, updateRight]
    split <;> rfl

/-- **WHAT IS FOUND FOR A LEFT ID** is the cheapest of all nodes that end at the position. -/
theorem rightValue_spec (connector : Connector) {lattice : Lattice} {lnodes : List Nat}
    {lbest : BestMap} (h : LeftBest lattice lnodes lbest) (lid : Nat) :
    (∀ l, (rightValue connector lbest lid).2 = some l → l ∈ lnodes ∧
      (rightValue connector lbest lid).1 = (lattice.node l).cost
        + connector.getTransitionCost (lattice.node l).rid lid) ∧
    (∀ l ∈ lnodes, (rightValue connector lbest lid).1 ≤ (lattice.node l).cost
      + connector.getTransitionCost (lattice.node l).rid lid) ∧
    ((rightValue connector lbest lid).2 = none →
      (rightValue connector lbest lid).1 = intMax) := by
  rw [rightValue_eq]
  have hfound := found_best intMax (lbest.map fun e =>
    (e.2.2, e.2.1 + connector.getTransitionCost e.1 lid))
  obtain ⟨b, hb⟩ : ∃ b, best intMax (lbest.map fun e =>
    (e.2.2, e.2.1 + connector.getTransitionCost e.1 lid)) = b := ⟨_, rfl⟩
  rw [hb] at hfound ⊢
  -- every kept entry is a node of the list
  have hentry : ∀ e ∈ lbest, ∃ l ∈ lnodes, (lattice.node l).rid = e.1 ∧
      e.2 = ((lattice.node l).cost, some l) := by
    intro e he
    exact h.get e.1 e.2 ((getList_eq_some_iff _ h.sorted).mpr he)
  have hsome : ∀ o, b.2 = some o → ∃ l ∈ lnodes, o = some l ∧ b.1 = (lattice.node l).cost
      + connector.getTransitionCost (lattice.node l).rid lid := by
    intro o ho
    obtain ⟨e, he, heq⟩ := List.mem_map.mp (hfound.some o ho).1
    obtain ⟨l, hl, hrid, hval⟩ := hentry e he
    rw [hval, Prod.mk.injEq] at heq
    exact ⟨l, hl, heq.1.symm, by rw [← heq.2, hrid]⟩
  refine ⟨?_, ?_, ?_⟩
  · intro l hl
    cases hb2 : b.2 with
    | none =>
      rw [hb2] at hl
      cases hl
    | some o =>
      obtain ⟨l', hl', rfl, hcost⟩ := hsome o hb2
      rw [hb2] at hl
      cases hl
      exact ⟨hl', hcost⟩
  · intro l hl
    obtain ⟨v, hv, hle⟩ := h.le l hl
    have hmem := (getList_eq_some_iff _ h.sorted).mp hv
    have hfoundLe := hfound.le _ (List.mem_map.mpr ⟨_, hmem, rfl⟩)
    simp only at hfoundLe ⊢
    omega
  · intro hnone
    cases hb2 : b.2 with
    | none => exact hfound.none hb2
    | some o =>
      obtain ⟨l, -, rfl, -⟩ := hsome o hb2
      rw [hb2] at hnone
      cases hnone

theorem assignRight_eq {calcEndPos : Nat} {rbest : BestMap} {lattice : Lattice} {rnode : Nat}
    (hsorted : rbest.Pairwise (fun a b => a.1 < b.1))
    (hend : (lattice.node rnode).endPos ≤ calcEndPos) {v : CostAndNode}
    (hv : getList (lattice.node rnode).lid rbest = some v) (hne : v.2 ≠ none) :
    assignRight calcEndPos rbest lattice rnode
      = lattice.setLabel rnode (v.2, v.1 + (lattice.node rnode).wcost) := by
  unfold assignRight
  rw [if_neg (not_lt.mpr hend)]
  rw [← getElem?_lowerBound _ hsorted] at hv
  obtain ⟨e, he, heq⟩ := Option.map_eq_some_iff.mp hv
  obtain ⟨hget, hid⟩ := Option.filter_eq_some_iff.mp he
  subst heq
  simp only [hget]
  rw [if_neg]
  · exact Lattice.modify_congr rfl
  · rintro (h | h)
    · exact h (of_decide_eq_true hid)
    · exact hne h

/-! ## Lattices of predictions -/

/-- The shape of the lattice of a prediction: a node of the history spans exactly a segment, the
    other nodes are in the one segment that is converted, no node is constrained, and a node
    begins only where another ends. -/
structure PredictionShape (history : List Segment) (lattice : Lattice) : Prop where
  history : ∀ r, lattice.Inserted r →
    (lattice.node r).beginPos < (joinedKey history).length →
    ∃ before segment, (∃ after, history = before ++ segment :: after) ∧
      (lattice.node r).beginPos = (joinedKey before).length ∧
      (lattice.node r).endPos = (joinedKey before).length + segment.key.length
  beginPos_lt : ∀ r, lattice.Inserted r → (lattice.node r).beginPos < lattice.key.length
  unconstrained : ∀ r, lattice.Inserted r → (lattice.node r).constrainedPrev = none
  reached : ∀ r, lattice.Inserted r → ∃ l, (l = lattice.bosNode ∨ lattice.Inserted l) ∧
    (lattice.node l).endPos = (lattice.node r).beginPos

section

variable {connector : Connector} {history : List Segment} {conversion : Segment}
  {lattice : Lattice}

variable {r : Nat}

theorem within_of_shape (hs : Segmented (history ++ [conversion]) lattice)
    (hshape : PredictionShape history lattice) (hins : lattice.Inserted r) :
    Within (history ++ [conversion]) (lattice.node r) := by
  have hkey : lattice.key.length
      = (joinedKey history).length + conversion.key.length := by
    rw [← hs.key, joinedKey_append, joinedKey_cons, joinedKey_nil, List.append_nil,
      List.length_append]
  have hlt := hshape.beginPos_lt r hins
  have hpositions := hs.formed.positions r hins
  rcases lt_or_ge (lattice.node r).beginPos (joinedKey history).length with hbefore | hafter
  · obtain ⟨before, segment, ⟨after, rfl⟩, hbegin, hend⟩ := hshape.history r hins hbefore
    exact ⟨before, segment, ⟨⟨after ++ [conversion], by simp⟩, by omega, by omega⟩, by omega⟩
  · exact ⟨history, conversion, ⟨⟨[], rfl⟩, hafter, by omega⟩, by omega⟩

variable {pos : Nat}

theorem step_of_shape (hs : Segmented (history ++ [conversion]) lattice)
    (hshape : PredictionShape history lattice) {l : Nat} (hr : r ∈ lattice.beginNodesAt pos) :
    (wordGraph connector (history ++ [conversion]) lattice).Step l r ↔
      l ∈ lattice.endNodesAt pos := by
  have hposition : ∀ pos', r ∈ lattice.beginNodesAt pos' → pos' = pos := by
    intro pos' hr'
    rcases (hs.formed.mem_beginNodesAt pos' r).mp hr' with ⟨rfl, rfl⟩ | ⟨hins, rfl⟩
    · rcases (hs.formed.mem_beginNodesAt pos 1).mp hr with ⟨-, rfl⟩ | ⟨hins, -⟩
      · rfl
      · exact absurd hins.1 (by omega)
    · rcases (hs.formed.mem_beginNodesAt pos r).mp hr with ⟨rfl, -⟩ | ⟨-, hbegin⟩
      · exact absurd hins.1 (by omega)
      · exact hbegin
  constructor
  · rintro ⟨pos', hl, hr', -⟩
    rw [← hposition pos' hr']
    exact hl
  · intro hl
    refine ⟨pos, hl, hr, ?_, ?_⟩
    · rcases (hs.formed.mem_beginNodesAt pos r).mp hr with ⟨h1, -⟩ | ⟨hins, -⟩
      · exact Or.inl h1
      · exact Or.inr (within_of_shape hs hshape hins)
    · intro c hc
      rcases (hs.formed.mem_beginNodesAt pos r).mp hr with ⟨rfl, -⟩ | ⟨hins, -⟩
      · rw [hs.formed.eos_constrainedPrev] at hc
        cases hc
      · rw [hshape.unconstrained r hins] at hc
        cases hc

variable {bound : Nat} {lattice' : Lattice}

/-- **SOMETHING LEADS TO EVERY NODE** that has been visited. -/
theorem alive_of_shape (hs : Segmented (history ++ [conversion]) lattice)
    (hshape : PredictionShape history lattice) {done : List Nat}
    (h : Visiting (wordGraph connector (history ++ [conversion]) lattice) lattice bound done
      lattice') : ∀ r, rank lattice r < bound → r = 0 ∨ lattice.Inserted r →
      lattice'.labels.Alive (wordGraph connector (history ++ [conversion]) lattice) r := by
  intro r
  induction hn : rank lattice r using Nat.strong_induction_on generalizing r with
  | _ n ih =>
    subst hn
    intro hlt hr
    rcases hr with rfl | hins
    · exact Or.inl rfl
    · have hne : r ≠ 0 := by
        have := hins.1
        omega
      obtain ⟨l, hl, hend⟩ := hshape.reached r hins
      rw [hs.formed.bosNode] at hl
      have hr : r ∈ lattice.beginNodesAt (lattice.node r).beginPos :=
        (hs.formed.mem_beginNodesAt _ r).mpr (Or.inr ⟨hins, rfl⟩)
      have hstep : (wordGraph connector (history ++ [conversion]) lattice).Step l r := by
        refine (step_of_shape hs hshape hr).mpr ((hs.formed.mem_endNodesAt _ l).mpr ?_)
        rcases hl with rfl | hins'
        · exact Or.inl ⟨rfl, hend.symm.trans hs.formed.bos_endPos⟩
        · exact Or.inr ⟨hins', hend⟩
      have hlt' := rank_lt_of_step hs l r hstep
      have halive := ih (rank lattice l) hlt' l rfl (by omega) hl
      exact Or.inr fun hnone => (h.settled r hne (Or.inl hlt)).dead hnone l hstep halive

/-- The value of its id is the best label of a node that begins at the position. -/
theorem settled_rightValue (hs : Searchable connector (history ++ [conversion]) lattice)
    (hshape : PredictionShape history lattice) (hbound : 0 < bound) {lattice'' : Lattice}
    {done : List Nat} {lbest : BestMap} (hleft : LeftBest lattice' (lattice.endNodesAt pos) lbest)
    (hsome : ∃ l, l ∈ lattice.endNodesAt pos)
    (h : Visiting (wordGraph connector (history ++ [conversion]) lattice) lattice bound done
      lattice'') (hstart : ∀ n, rank lattice n ≠ bound → lattice''.node n = lattice'.node n)
    (hr : r ∈ lattice.beginNodesAt pos) (hrank : rank lattice r = bound) :
    (rightValue connector lbest (lattice.node r).lid).2 ≠ none ∧
      Settled (wordGraph connector (history ++ [conversion]) lattice)
        (lattice''.setLabel r ((rightValue connector lbest (lattice.node r).lid).2,
          (rightValue connector lbest (lattice.node r).lid).1
            + (lattice''.node r).wcost)).labels r := by
  obtain ⟨hattained, hle, hinvalid⟩ :=
    rightValue_spec connector hleft (lattice.node r).lid
  obtain ⟨v, hv⟩ : ∃ v, rightValue connector lbest (lattice.node r).lid = v := ⟨_, rfl⟩
  rw [hv] at hattained hle hinvalid ⊢
  have hstep : ∀ l, (wordGraph connector (history ++ [conversion]) lattice).Step l r ↔
      l ∈ lattice.endNodesAt pos := fun l => step_of_shape hs.toSegmented hshape hr
  have hlt : ∀ l ∈ lattice.endNodesAt pos, rank lattice l < bound := by
    intro l hl
    rw [← hrank]
    exact rank_lt_of_step hs.toSegmented l r ((hstep l).mpr hl)
  have halive : ∀ l ∈ lattice.endNodesAt pos,
      lattice''.labels.Alive (wordGraph connector (history ++ [conversion]) lattice) l := by
    intro l hl
    refine alive_of_shape hs.toSegmented hshape h l (hlt l hl) ?_
    exact ((hs.formed.mem_endNodesAt pos l).mp hl).imp And.left And.left
  -- the labels of the nodes before are the ones that were read
  have hread : ∀ l ∈ lattice.endNodesAt pos,
      (lattice''.node l).cost + stepCost connector lattice l r
      = (lattice'.node l).cost
        + connector.getTransitionCost (lattice'.node l).rid (lattice.node r).lid
        + (lattice''.node r).wcost := by
    intro l hl
    have hlr := hlt l hl
    rw [← hstart l (by omega), h.same.rid, h.same.wcost]
    exact (add_assoc _ _ _).symm
  have hne : v.2 ≠ none := by
    intro hnone
    obtain ⟨l, hl⟩ := hsome
    have hcost := cost_lt_of_visiting hs h hbound ((hstep l).mpr hl) hrank (halive l hl)
    have hvle := hle l hl
    have hlr := hlt l hl
    rw [h.same.lid, hstart l (by omega)] at hcost
    rw [hinvalid hnone] at hvle
    unfold intMax at hvle
    unfold kVeryBigCost at hcost
    omega
  refine ⟨hne, settled_setLabel ?_ ?_ ?_ ?_ ?_⟩
  · rw [h.same.length_nodes]
    rcases (hs.formed.mem_beginNodesAt pos r).mp hr with ⟨rfl, -⟩ | ⟨hins, -⟩
    · exact hs.formed.length_nodes
    · exact hins.2
  · rintro l hl rfl
    exact absurd (rank_lt_of_step hs.toSegmented _ _ hl) (Nat.lt_irrefl _)
  · exact fun hnone => absurd hnone hne
  · intro l hl
    obtain ⟨hmem, hcost⟩ := hattained l hl
    refine ⟨(hstep l).mpr hmem, halive l hmem, ?_⟩
    rw [show (wordGraph connector (history ++ [conversion]) lattice).cost l r
      = stepCost connector lattice l r from rfl, hread l hmem, hcost]
  · intro _ l hl _
    have hmem := (hstep l).mp hl
    have hvle := hle l hmem
    rw [show (wordGraph connector (history ++ [conversion]) lattice).cost l r
      = stepCost connector lattice l r from rfl, hread l hmem]
    exact Int.add_le_add_right hvle _

theorem visiting_position (hs : Searchable connector (history ++ [conversion]) lattice)
    (hshape : PredictionShape history lattice) (pos calcEndPos : Nat) (hbound : 0 < bound)
    (hrs : ∀ r ∈ lattice.beginNodesAt pos, r ≠ 0 ∧ rank lattice r = bound ∧
      (lattice.node r).endPos ≤ calcEndPos)
    (hdone : ∀ l r, (wordGraph connector (history ++ [conversion]) lattice).Step l r →
      rank lattice r = bound → r ∈ lattice.beginNodesAt pos)
    (h : Visiting (wordGraph connector (history ++ [conversion]) lattice) lattice bound []
      lattice') :
    Visiting (wordGraph connector (history ++ [conversion]) lattice) lattice (bound + 1) []
      (predictionPosition connector calcEndPos lattice' pos) := by
  have hleft := leftBest_foldl lattice' (lattice.endNodesAt pos)
  have hright := reserved_foldl calcEndPos lattice' (lattice.beginNodesAt pos)
  unfold predictionPosition
  rw [h.same.endNodesAt, h.same.beginNodesAt]
  obtain ⟨lbest, hlbest⟩ : ∃ lbest,
    (lattice.endNodesAt pos).foldl (updateLeft lattice') [] = lbest := ⟨_, rfl⟩
  obtain ⟨rbest, hrbest⟩ : ∃ rbest,
    (lattice.beginNodesAt pos).foldl (reserveRight calcEndPos lattice') [] = rbest := ⟨_, rfl⟩
  rw [hlbest] at hleft
  rw [hrbest] at hright
  simp only [hlbest, hrbest]
  -- the value of the id of a node that begins at the position is reserved
  have hreserved : ∀ r ∈ lattice.beginNodesAt pos,
      getList (lattice.node r).lid rbest = some (intMax, none) := by
    intro r hr
    rw [hright.get, if_pos]
    refine ⟨r, hr, ?_, h.same.lid r⟩
    rw [h.same.endPos]
    exact (hrs r hr).2.2
  by_cases hnil : lbest = []
  · -- nothing ends here, so that nothing leads to a node that begins here
    rw [if_pos hnil]
    refine h.finish hbound ?_
    intro l r hstep hrank
    have hl := (step_of_shape hs.toSegmented hshape (hdone l r hstep hrank)).mp hstep
    obtain ⟨v, hv, -⟩ := hleft.le l hl
    rw [hnil] at hv
    cases hv
  · rw [if_neg hnil]
    by_cases hnil' : rbest = []
    · rw [if_pos hnil']
      refine h.finish hbound ?_
      intro l r hstep hrank
      have hget := hreserved r (hdone l r hstep hrank)
      rw [hnil'] at hget
      cases hget
    · rw [if_neg hnil']
      have hsome : ∃ l, l ∈ lattice.endNodesAt pos := by
        obtain ⟨e, rest, he⟩ := List.exists_cons_of_ne_nil hnil
        obtain ⟨l, hl, -⟩ := hleft.get e.1 e.2
          ((getList_eq_some_iff _ hleft.sorted).mpr (by rw [he]; exact List.mem_cons_self))
        exact ⟨l, hl⟩
      refine (Visiting.foldl (rank_lt_of_step hs.toSegmented) _
        (fun r hr => ⟨(hrs r hr).1, (hrs r hr).2.1⟩) ?_ h fun _ _ => rfl).finish hbound ?_
      · intro lattice'' done h' hstart r hr
        obtain ⟨hne, hsettled⟩ := settled_rightValue hs hshape hbound hleft hsome h' hstart hr
          (hrs r hr).2.1
        have hvalue : getList (lattice''.node r).lid
            (lbest.foldl (fun rbest liter => rbest.map (updateRight connector liter)) rbest)
              = some (rightValue connector lbest (lattice.node r).lid) := by
          rw [h'.same.lid, getList_foldl_updateRight, hreserved r hr]
          rfl
        have hend : (lattice''.node r).endPos ≤ calcEndPos := by
          rw [h'.same.endPos]
          exact (hrs r hr).2.2
        rw [assignRight_eq (sorted_foldl_updateRight connector lbest _ hright.sorted) hend hvalue
          hne]
        exact ⟨_, rfl, hsettled⟩
      · intro l r hstep' hrank'
        rw [List.append_nil, List.mem_reverse]
        exact hdone l r hstep' hrank'

theorem predictionPosition_of_beyond {calcEndPos : Nat}
    (h : ∀ r ∈ lattice'.beginNodesAt pos, calcEndPos < (lattice'.node r).endPos) :
    predictionPosition connector calcEndPos lattice' pos = lattice' := by
  have hnil : ∀ rs : List Nat, (∀ r ∈ rs, calcEndPos < (lattice'.node r).endPos) →
      rs.foldl (reserveRight calcEndPos lattice') [] = [] := by
    intro rs
    induction rs with
    | nil => exact fun _ => rfl
    | cons r rs ih =>
      intro hrs
      rw [List.foldl_cons, reserveRight, if_pos (hrs r List.mem_cons_self)]
      exact ih fun r' hr' => hrs r' (List.mem_cons_of_mem _ hr')
  unfold predictionPosition
  simp only [hnil _ h, if_true]
  split <;> rfl

/-- The positions before one within the key are visited, when what begins there ends within
    what is processed. -/
theorem visiting_positions (hs : Searchable connector (history ++ [conversion]) lattice)
    (hshape : PredictionShape history lattice) (calcEndPos n : Nat) :
    ∀ (pos : Nat) {lattice' : Lattice}, pos + n ≤ lattice.key.length →
      (∀ r, lattice.Inserted r → (lattice.node r).beginPos < pos + n →
        (lattice.node r).endPos ≤ calcEndPos) →
      Visiting (wordGraph connector (history ++ [conversion]) lattice) lattice (pos + 1) []
        lattice' →
      Visiting (wordGraph connector (history ++ [conversion]) lattice) lattice (pos + n + 1) []
        ((List.range' pos n).foldl (predictionPosition connector calcEndPos) lattice') := by
  induction n with
  | zero =>
    intro pos lattice' _ _ h
    exact h
  | succ n ih =>
    intro pos lattice' hle hend h
    have hlt : pos < lattice.key.length := by omega
    rw [List.range'_succ, List.foldl_cons]
    have hnext := visiting_position hs hshape pos calcEndPos
      (Nat.succ_pos pos) (by
        intro r hr
        obtain ⟨hins, hbegin, hne, -, hrank, -⟩ := beginNodesAt_spec hs hlt hr
        exact ⟨hne, hrank, hend r hins (by omega)⟩) (by
        intro l r hstep hrank
        rw [hs.formed.mem_beginNodesAt]
        rcases step_right hs.toSegmented hstep with ⟨rfl, -⟩ | ⟨hins, -, -⟩
        · rw [rank_one] at hrank
          omega
        · rw [rank_inserted hins] at hrank
          exact Or.inr ⟨hins, by omega⟩) h
    have hall := ih (pos + 1) (by omega) (by
      intro r hins hbefore
      exact hend r hins (by omega)) hnext
    rw [show pos + (n + 1) + 1 = pos + 1 + n + 1 by omega]
    exact hall

/-- **EVERY NODE GETS ITS BEST LABEL**: the history first, then the segment that is
    converted; where they meet the first time nothing is done. -/
theorem visiting_predictionLoops (hs : Searchable connector (history ++ [conversion]) lattice)
    (hshape : PredictionShape history lattice) (hne : conversion.key ≠ []) :
    Visiting (wordGraph connector (history ++ [conversion]) lattice) lattice
      (lattice.key.length + 3) []
      (predictionViterbiInternal connector (joinedKey history).length lattice.key.length
        (predictionViterbiInternal connector 0 (joinedKey history).length lattice)) := by
  have hkey : lattice.key.length = (joinedKey history).length + conversion.key.length := by
    rw [← hs.key, joinedKey_append, joinedKey_cons, joinedKey_nil, List.append_nil,
      List.length_append]
  have hpos := List.length_pos_iff.mpr hne
  -- the history
  have hhistory := visiting_positions hs hshape (joinedKey history).length
    (joinedKey history).length 0 (by omega) (by
      intro r hins hlt
      obtain ⟨before, segment, ⟨after, rfl⟩, -, hend⟩ := hshape.history r hins (by omega)
      rw [hend, joinedKey_append, joinedKey_cons, List.length_append, List.length_append]
      omega) (visiting_initial hs)
  rw [Nat.zero_add] at hhistory
  have hfirst : predictionViterbiInternal connector 0 (joinedKey history).length lattice
      = (List.range' 0 (joinedKey history).length).foldl
          (predictionPosition connector (joinedKey history).length) lattice := by
    unfold predictionViterbiInternal
    rw [Nat.sub_zero, List.range'_concat, List.foldl_append, List.foldl_cons, List.foldl_nil]
    refine predictionPosition_of_beyond ?_
    intro r hr
    rw [hhistory.same.beginNodesAt] at hr
    obtain ⟨hins, hbegin, -⟩ := beginNodesAt_spec hs (by omega) hr
    have hpositions := hs.formed.positions r hins
    rw [hhistory.same.endPos]
    omega
  rw [hfirst]
  -- the segment that is converted
  have hconversion := visiting_positions hs hshape lattice.key.length
    conversion.key.length (joinedKey history).length (by omega) (by
      intro r hins _
      have hpositions := hs.formed.positions r hins
      omega) hhistory
  unfold predictionViterbiInternal
  rw [show lattice.key.length + 1 - (joinedKey history).length = conversion.key.length + 1 by
      omega, List.range'_concat, List.foldl_append, List.foldl_cons, List.foldl_nil, Nat.one_mul,
    ← hkey]
  rw [← hkey] at hconversion
  -- the end of the sentence
  refine visiting_position hs hshape _ _ (Nat.succ_pos _) ?_ ?_
    (hconversion.finish (Nat.succ_pos _) ?_)
  · intro r hr
    rcases (hs.formed.mem_beginNodesAt _ r).mp hr with ⟨rfl, -⟩ | ⟨hins, hbegin⟩
    · exact ⟨by omega, rank_one lattice, le_of_eq hs.formed.eos_endPos⟩
    · have := hshape.beginPos_lt r hins
      omega
  · intro l r hstep hrank
    rw [hs.formed.mem_beginNodesAt]
    rcases step_right hs.toSegmented hstep with ⟨rfl, -⟩ | ⟨hins, hlt, -⟩
    · exact Or.inl ⟨rfl, rfl⟩
    · rw [rank_inserted hins] at hrank
      omega
  · intro l r hstep hrank
    rcases step_right hs.toSegmented hstep with ⟨rfl, -⟩ | ⟨hins, hlt, -⟩
    · rw [rank_one] at hrank
      omega
    · rw [rank_inserted hins] at hrank
      omega

end

/-! ## Both searches -/

theorem historySegments_eq {history : List Segment} {conversion : Segment}
    (hhistory : ∀ s ∈ history, s.segmentType = .history ∨ s.segmentType = .submitted)
    (hconversion : ¬(conversion.segmentType = .history ∨ conversion.segmentType = .submitted)) :
    historySegments (history ++ [conversion]) = history := by
  unfold historySegments
  rw [List.takeWhile_append_of_pos (fun s hs => decide_eq_true (hhistory s hs)),
    List.takeWhile_cons_of_neg, List.append_nil]
  rw [decide_eq_true_eq]
  exact hconversion

theorem sum_lengths (segments : List Segment) :
    (segments.map fun s => s.key.length).sum = (joinedKey segments).length := by
  induction segments with
  | nil => rfl
  | cons s segments ih =>
    rw [List.map_cons, List.sum_cons, ih, joinedKey_cons, List.length_append]

/-- **BOTH SEARCHES AGREE** on the lattice of a prediction: either none finds a path, or both
    find a cheapest one. -/
theorem predictionViterbi_agrees (connector : Connector) (memory : Nat → Nat → Int)
    {history : List Segment} {conversion : Segment} {key : Bytes} (bosId : Nat)
    {inserts : List (Nat × Node)} (hlength : key.length < 2 ^ 16)
    (hsegments : joinedKey (history ++ [conversion]) = key)
    (hne : ∀ segment ∈ history ++ [conversion], segment.key ≠ [])
    (hhistory : ∀ s ∈ history, s.segmentType = .history ∨ s.segmentType = .submitted)
    (hconversion : ¬(conversion.segmentType = .history ∨ conversion.segmentType = .submitted))
    (hinserts : ∀ e ∈ inserts, e.1 ≤ key.length ∧ e.2.key ≠ [] ∧ e.2.lid < connector.size)
    (hshape : PredictionShape history (latticeOf key bosId inserts))
    (hcosts : CostsBelow connector (history ++ [conversion]) (latticeOf key bosId inserts)
      kVeryBigCost) :
    ∃ found lattice' lattice'',
      predictionViterbi connector (history ++ [conversion]) (latticeOf key bosId inserts)
        = some (found, lattice') ∧
      viterbi connector memory (history ++ [conversion]) (latticeOf key bosId inserts)
        = some (found, lattice'') ∧
      (found = true → ∃ path path',
        CheapestPath connector (history ++ [conversion]) (latticeOf key bosId inserts)
          lattice' path ∧
        CheapestPath connector (history ++ [conversion]) (latticeOf key bosId inserts)
          lattice'' path' ∧
        (lattice'.node (latticeOf key bosId inserts).eosNode).cost
          = (lattice''.node (latticeOf key bosId inserts).eosNode).cost) := by
  have hmem : conversion ∈ history ++ [conversion] :=
    List.mem_append_right _ (List.mem_singleton.mpr rfl)
  have hkey : key ≠ [] := by
    rw [← hsegments, joinedKey_append, joinedKey_cons, joinedKey_nil, List.append_nil]
    exact List.append_ne_nil_of_right_ne_nil _ (hne conversion hmem)
  have hs := searchable_latticeOf hkey hlength hsegments hinserts (by
    intro r c hins hc
    rw [hshape.unconstrained r hins] at hc
    cases hc) hcosts
  obtain ⟨found, lattice', hrun, hfound, hpath⟩ :=
    traverse_labelled hs (visiting_predictionLoops hs hshape (hne conversion hmem))
  obtain ⟨found', lattice'', hrun', hfound', hpath'⟩ :=
    traverse_labelled hs (visiting_loops hs hne memory)
  have heq : found' = found := by
    rw [Bool.eq_iff_iff, hfound', hfound]
  subst heq
  refine ⟨found', lattice', lattice'', ?_, hrun', ?_⟩
  · unfold predictionViterbi
    rw [historySegments_eq hhistory hconversion, sum_lengths]
    exact hrun
  · intro htrue
    obtain ⟨path, hbest⟩ := hpath htrue
    obtain ⟨path', hbest'⟩ := hpath' htrue
    refine ⟨path, path', hbest, hbest', le_antisymm ?_ ?_⟩
    · rw [hbest'.cost_eq]
      exact hbest.cost_le path' hbest'.valid
    · rw [hbest.cost_eq]
      exact hbest'.cost_le path hbest.valid

/-- One segment of history and one that is converted. -/
theorem predictionViterbi_agrees_two_segments :
    let connector : Connector := ⟨2, by decide, fun rid lid => -(rid + lid)⟩
    let segments : List Segment :=
      [{ segmentType := .history, key := ascii "a" }] ++ [{ key := ascii "b" }]
    let lattice := latticeOf (ascii "ab") 0
      [(0, { key := ascii "a", nodeType := .hisNode }), (1, { key := ascii "b", lid := 1 })]
    ∃ found lattice' lattice'',
      predictionViterbi connector segments lattice = some (found, lattice') ∧
      viterbi connector (fun _ _ => 5) segments lattice = some (found, lattice'') ∧
      (found = true → ∃ path path',
        CheapestPath connector segments lattice lattice' path ∧
        CheapestPath connector segments lattice lattice'' path' ∧
        (lattice'.node lattice.eosNode).cost = (lattice''.node lattice.eosNode).cost) := by
  have hinserted : ∀ r, (latticeOf (ascii "ab") 0
      [(0, { key := ascii "a", nodeType := .hisNode }),
        (1, { key := ascii "b", lid := 1 })]).Inserted r → r = 2 ∨ r = 3 := by
    rintro r ⟨hge, hlt⟩
    rw [length_nodes_latticeOf] at hlt
    simp only [List.length_cons, List.length_nil] at hlt
    omega
  refine predictionViterbi_agrees _ _ 0 (by decide) (by decide) (by decide) (by decide)
    (by decide) (by decide) ⟨?_, ?_, ?_, ?_⟩ (costsBelow_of_nonpos ?_ ?_)
  · intro r hins hlt
    rcases hinserted r hins with rfl | rfl
    · exact ⟨[], { segmentType := .history, key := ascii "a" }, ⟨[], rfl⟩, by decide, by decide⟩
    · exact absurd hlt (by decide)
  · intro r hins
    rcases hinserted r hins with rfl | rfl <;> decide
  · intro r hins
    rcases hinserted r hins with rfl | rfl <;> rfl
  · intro r hins
    rcases hinserted r hins with rfl | rfl
    · exact ⟨0, Or.inl rfl, by decide⟩
    · exact ⟨2, Or.inr ⟨by decide, by decide⟩, by decide⟩
  · intro rid lid
    show -((rid : Int) + lid) ≤ 0
    omega
  · exact forall_node_latticeOf (fun n => n.wcost ≤ 0) (by decide) (by decide) (by decide)
      (by decide)

end MozkeyConverter
