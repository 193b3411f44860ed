import Mozkey.LatticeProofs
import Mozkey.SegmentsProofs
import Mozkey.ShortestPathProofs

/-! # Viterbi — the cheapest path through a lattice

    `Viterbi` goes through the positions of the key from left to right.  At each it gives the
    nodes that begin there the cheapest of the nodes that end there, and a node that extends
    beyond its segment, or that nothing leads to, has no previous node. -/

namespace MozkeyConverter

open ByteString ShortestPath

/-! ## The connector and its cache -/

/-- `Connector`: the costs of transitions from a right id to a left id.  Its size is a 16-bit
    number, and ids are below it. -/
structure Connector where
  size : Nat
  size_lt : size < 2 ^ 16
  getTransitionCost : Nat → Nat → Int

/-- How many costs are cached. -/
def kCacheSize : Nat := 2048

/-- `CachingConnector`; the array is by index. -/
structure CachingConnector where
  connector : Connector
  cache : Nat → Int
  cacheLid : Nat

namespace CachingConnector

/-- The constructor, which leaves in the array what is in memory. -/
def new (connector : Connector) (memory : Nat → Int) : CachingConnector where
  connector := connector
  cache := memory
  cacheLid := 2 ^ 16 - 1

/-- `ResetCacheIfNecessary`. -/
def resetCacheIfNecessary (conn : CachingConnector) (rnodeLid : Nat) : CachingConnector :=
  if conn.cacheLid ≠ rnodeLid then { conn with cache := fun _ => -1, cacheLid := rnodeLid }
  else conn

/-- `GetTransitionCost`, through the cache. -/
def getTransitionCost (conn : CachingConnector) (lnodeRid rnodeLid : Nat) :
    Int × CachingConnector :=
  if lnodeRid ≥ kCacheSize then
    (conn.connector.getTransitionCost lnodeRid rnodeLid, conn)
  else if conn.cache lnodeRid ≠ -1 then
    (conn.cache lnodeRid, conn)
  else
    let cost := conn.connector.getTransitionCost lnodeRid rnodeLid
    (cost, { conn with cache := Function.update conn.cache lnodeRid cost })

end CachingConnector

/-! ## The search -/

/-- More than any path may cost. -/
def kVeryBigCost : Int := 2 ^ 29 - 1

/-- The body of the loop over the nodes that end at a position. -/
def compareNode (lattice : Lattice) (rnode : Nat) (s : (Int × Option Nat) × CachingConnector)
    (lnode : Nat) : (Int × Option Nat) × CachingConnector :=
  if (lattice.node lnode).prev = none then s
  else
    let t := s.2.getTransitionCost (lattice.node lnode).rid (lattice.node rnode).lid
    let cost := (lattice.node lnode).cost + t.1
    (if cost < s.1.1 then (cost, some lnode) else s.1, t.2)

/-- The cheapest of the nodes that end at a position. -/
def findBestNode (lattice : Lattice) (rnode : Nat) (conn : CachingConnector) (lnodes : List Nat) :
    (Int × Option Nat) × CachingConnector :=
  lnodes.foldl (compareNode lattice rnode) ((kVeryBigCost, none), conn)

/-- The body of the loop of `ViterbiInternal` over the nodes that begin at a position. -/
def visitNode (pos rightBoundary : Nat) (s : CachingConnector × Lattice) (rnode : Nat) :
    CachingConnector × Lattice :=
  let (conn, lattice) := s
  if (lattice.node rnode).endPos > rightBoundary then
    (conn, lattice.modify rnode fun n => { n with prev := none })
  else
    let conn := conn.resetCacheIfNecessary (lattice.node rnode).lid
    match (lattice.node rnode).constrainedPrev with
    | some constrained =>
      if (lattice.node constrained).prev = none then
        (conn, lattice.modify rnode fun n => { n with prev := none })
      else
        let (transition, conn) :=
          conn.getTransitionCost (lattice.node constrained).rid (lattice.node rnode).lid
        (conn, lattice.modify rnode fun n => { n with
          prev := some constrained
          cost := (lattice.node constrained).cost + n.wcost + transition })
    | none =>
      let (best, conn) := findBestNode lattice rnode conn (lattice.endNodesAt pos)
      (conn, lattice.modify rnode fun n => { n with prev := best.2, cost := best.1 + n.wcost })

/-- `ViterbiInternal`, at one position. -/
def viterbiInternal (connector : Connector) (memory : Nat → Int) (pos rightBoundary : Nat)
    (lattice : Lattice) : Lattice :=
  ((lattice.beginNodesAt pos).foldl (visitNode pos rightBoundary)
    (CachingConnector.new connector memory, lattice)).2

/-- The block of `Viterbi` for the beginning of the sentence. -/
def processBos (connector : Connector) (rightBoundary : Nat) (lattice : Lattice) : Lattice :=
  let bosNode := lattice.bosNode
  (lattice.beginNodesAt 0).foldl (fun lattice rnode =>
    if (lattice.node rnode).endPos > rightBoundary then lattice
    else
      lattice.modify rnode fun n => { n with
        prev := some bosNode
        cost := (lattice.node bosNode).cost
          + connector.getTransitionCost (lattice.node bosNode).rid n.lid + n.wcost }) lattice

/-- The positions from the left boundary to the right one. -/
def processPositions (connector : Connector) (memory : Nat → Nat → Int) (left right : Nat)
    (lattice : Lattice) : Lattice :=
  (List.range' left (right - left)).foldl
    (fun lattice pos => viterbiInternal connector (memory pos) pos right lattice) lattice

/-- The loop of `Viterbi` over the segments after the first. -/
def processSegments (connector : Connector) (memory : Nat → Nat → Int) :
    Nat → List Segment → Lattice → Lattice
  | _, [], lattice => lattice
  | left, segment :: segments, lattice =>
    processSegments connector memory (left + segment.key.length) segments
      (processPositions connector memory left (left + segment.key.length) lattice)

/-- The block of `Viterbi` for the end of the sentence. -/
def processEos (connector : Connector) (lattice : Lattice) : Lattice :=
  let eosNode := lattice.eosNode
  let best := (lattice.endNodesAt lattice.key.length).foldl (fun best lnode =>
    if (lattice.node lnode).prev = none then best
    else
      let cost := (lattice.node lnode).cost
        + connector.getTransitionCost (lattice.node lnode).rid (lattice.node eosNode).lid
      if cost < best.1 then (cost, some lnode) else best) (kVeryBigCost, none)
  lattice.modify eosNode fun n => { n with prev := best.2, cost := best.1 + n.wcost }

/-- The way back along the previous nodes, which sets the next ones; the last previous node
    and the lattice, or nothing if the way does not end within so many steps. -/
def traverse : Nat → Nat → Option Nat → Lattice → Option (Option Nat × Lattice)
  | 0, _, _, _ => none
  | fuel + 1, node, prev, lattice =>
    match (lattice.node node).prev with
    | none => some (prev, lattice)
    | some before =>
      traverse fuel before (some before)
        (lattice.modify before fun n => { n with next := some node })

/-- `Viterbi`.  What is in memory before the cache of a position is filled is a parameter; no
    way back has more nodes than the key has positions and the sentence has ends. -/
def viterbi (connector : Connector) (memory : Nat → Nat → Int) (segments : List Segment)
    (lattice : Lattice) : Option (Bool × Lattice) :=
  let first := (segments.headD {}).key.length
  let lattice := processBos connector first lattice
  let lattice := processPositions connector memory 1 first lattice
  let lattice := processSegments connector memory first segments.tail lattice
  let lattice := processEos connector lattice
  (traverse (lattice.key.length + 3) lattice.eosNode none lattice).map fun (prev, lattice) =>
    (decide (prev = some lattice.bosNode), lattice)

/-! ## The cache changes nothing -/

/-- The cached costs are those of the connector. -/
structure CachingConnector.Holds (conn : CachingConnector) (connector : Connector) (lid : Nat) :
    Prop where
  connector_eq : conn.connector = connector
  cacheLid_eq : conn.cacheLid = lid
  cache : ∀ rid, conn.cache rid = -1 ∨ conn.cache rid = connector.getTransitionCost rid lid

/-- Either nothing has been cached yet, under an id that no node has, or the cached costs are
    those of the connector. -/
def CachingConnector.Sound (conn : CachingConnector) (connector : Connector) : Prop :=
  conn.connector = connector ∧
    (conn.cacheLid = 2 ^ 16 - 1 ∨ conn.Holds connector conn.cacheLid)

namespace CachingConnector

variable {conn : CachingConnector} {connector : Connector} {lid : Nat}

theorem sound_new (memory : Nat → Int) : (new connector memory).Sound connector :=
  ⟨rfl, Or.inl rfl⟩

theorem Holds.sound (h : conn.Holds connector lid) : conn.Sound connector := by
  refine ⟨h.connector_eq, Or.inr ?_⟩
  rw [h.cacheLid_eq]
  exact h

theorem holds_resetCacheIfNecessary (h : conn.Sound connector) (hlid : lid < 2 ^ 16 - 1) :
    (conn.resetCacheIfNecessary lid).Holds connector lid := by
  unfold resetCacheIfNecessary
  by_cases hne : conn.cacheLid ≠ lid
  · rw [if_pos hne]
    exact ⟨h.1, rfl, fun _ => Or.inl rfl⟩
  · rw [if_neg hne]
    have heq := not_not.mp hne
    rw [← heq]
    refine h.2.resolve_left ?_
    omega

theorem holds_getTransitionCost (h : conn.Holds connector lid) (rid : Nat) :
    (conn.getTransitionCost rid lid).1 = connector.getTransitionCost rid lid ∧
      (conn.getTransitionCost rid lid).2.Holds connector lid := by
  unfold getTransitionCost
  split
  · exact ⟨by rw [h.connector_eq], h⟩
  · split
    · rename_i hcached
      exact ⟨(h.cache rid).resolve_left hcached, h⟩
    · refine ⟨by rw [h.connector_eq], h.connector_eq, h.cacheLid_eq, ?_⟩
      intro rid'
      by_cases heq : rid' = rid
      · rw [heq, h.connector_eq]
        exact Or.inr (Function.update_self _ _ _)
      · show Function.update _ _ _ rid' = -1 ∨ Function.update _ _ _ rid' = _
        rw [Function.update_of_ne heq]
        exact h.cache rid'

end CachingConnector

/-- The nodes to come from, with what they cost. -/
def candidates (connector : Connector) (lattice : Lattice) (lid : Nat) (lnodes : List Nat) :
    List (Nat × Int) :=
  (lnodes.filter fun l => decide ((lattice.node l).prev ≠ none)).map fun l =>
    (l, (lattice.node l).cost + connector.getTransitionCost (lattice.node l).rid lid)

theorem mem_candidates {connector : Connector} {lattice : Lattice} {lid : Nat}
    {lnodes : List Nat} {c : Nat × Int} :
    c ∈ candidates connector lattice lid lnodes ↔
      c.1 ∈ lnodes ∧ (lattice.node c.1).prev ≠ none ∧
        c.2 = (lattice.node c.1).cost
          + connector.getTransitionCost (lattice.node c.1).rid lid := by
  unfold candidates
  rw [List.mem_map]
  constructor
  · rintro ⟨l, hl, rfl⟩
    rw [List.mem_filter, decide_eq_true_eq] at hl
    exact ⟨hl.1, hl.2, rfl⟩
  · rintro ⟨hmem, halive, hcost⟩
    refine ⟨c.1, List.mem_filter.mpr ⟨hmem, decide_eq_true halive⟩, ?_⟩
    rw [← hcost]

theorem candidates_concat (connector : Connector) (lattice : Lattice) (lid : Nat)
    (lnodes : List Nat) (l : Nat) :
    candidates connector lattice lid (lnodes ++ [l])
      = if (lattice.node l).prev = none then candidates connector lattice lid lnodes
        else candidates connector lattice lid lnodes
          ++ [(l, (lattice.node l).cost
            + connector.getTransitionCost (lattice.node l).rid lid)] := by
  by_cases h : (lattice.node l).prev = none <;> simp [candidates, h]

/-- The loop over the nodes to come from is the scan for the cheapest of them. -/
theorem findBestNode_eq {connector : Connector} {lattice : Lattice} {rnode : Nat}
    (lnodes : List Nat) {conn : CachingConnector}
    (h : conn.Holds connector (lattice.node rnode).lid) :
    (findBestNode lattice rnode conn lnodes).1
        = best kVeryBigCost (candidates connector lattice (lattice.node rnode).lid lnodes) ∧
      (findBestNode lattice rnode conn lnodes).2.Holds connector (lattice.node rnode).lid := by
  induction lnodes using List.reverseRecOn with
  | nil => exact ⟨rfl, h⟩
  | append_singleton lnodes l ih =>
    obtain ⟨hbest, hconn⟩ := ih
    unfold findBestNode at hbest hconn ⊢
    rw [List.foldl_append, List.foldl_cons, List.foldl_nil, compareNode, candidates_concat]
    by_cases hdead : (lattice.node l).prev = none
    · rw [if_pos hdead, if_pos hdead]
      exact ⟨hbest, hconn⟩
    · obtain ⟨hcost, hconn'⟩ := CachingConnector.holds_getTransitionCost hconn
        (lattice.node l).rid
      rw [if_neg hdead, if_neg hdead, best_concat, ← hbest]
      simp only [hcost]
      exact ⟨trivial, hconn'⟩

/-! ## What a visit leaves -/

/-- The label that a visit gives to a node. -/
def visited (connector : Connector) (pos rightBoundary : Nat) (lattice : Lattice) (rnode : Nat) :
    Option Nat × Int :=
  let n := lattice.node rnode
  if n.endPos > rightBoundary then (none, n.cost)
  else
    match n.constrainedPrev with
    | some c =>
      if (lattice.node c).prev = none then (none, n.cost)
      else
        (some c, (lattice.node c).cost + n.wcost
          + connector.getTransitionCost (lattice.node c).rid n.lid)
    | none =>
      let b := best kVeryBigCost (candidates connector lattice n.lid (lattice.endNodesAt pos))
      (b.2, b.1 + n.wcost)

/-- The assignment of a label. -/
def Lattice.setLabel (lattice : Lattice) (id : Nat) (label : Option Nat × Int) : Lattice :=
  lattice.modify id fun n => { n with prev := label.1, cost := label.2 }

/-- A visit, without the cache. -/
def relax (connector : Connector) (pos rightBoundary : Nat) (lattice : Lattice) (rnode : Nat) :
    Lattice :=
  lattice.setLabel rnode (visited connector pos rightBoundary lattice rnode)

variable {f : Node → Node}

theorem Lattice.modify_congr {lattice : Lattice} {id : Nat} {g : Node → Node}
    (h : f (lattice.node id) = g (lattice.node id)) :
    lattice.modify id f = lattice.modify id g := by
  have hnodes : lattice.nodes.modify id f = lattice.nodes.modify id g := by
    refine List.ext_getElem? ?_
    intro i
    rw [List.getElem?_modify, List.getElem?_modify]
    by_cases hi : id = i
    · subst hi
      rcases lt_or_ge id lattice.nodes.length with hlt | hge
      · simp only [Lattice.node, List.getD_eq_getElem _ _ hlt] at h
        simp [List.getElem?_eq_getElem hlt, h]
      · rw [List.getElem?_eq_none hge]
        rfl
    · simp [hi]
  unfold Lattice.modify
  rw [hnodes]

variable {pos rightBoundary : Nat}

/-- **THE CACHE CHANGES NOTHING**: what a visit does is to assign a label. -/
theorem visitNode_eq {connector : Connector} {conn : CachingConnector} {lattice : Lattice}
    {rnode : Nat} (h : conn.Sound connector) (hlid : (lattice.node rnode).lid < 2 ^ 16 - 1) :
    (visitNode pos rightBoundary (conn, lattice) rnode).2
        = relax connector pos rightBoundary lattice rnode ∧
      (visitNode pos rightBoundary (conn, lattice) rnode).1.Sound connector := by
  have hholds := CachingConnector.holds_resetCacheIfNecessary h hlid
  unfold visitNode relax visited Lattice.setLabel
  by_cases hend : (lattice.node rnode).endPos > rightBoundary
  · simp only [if_pos hend]
    exact ⟨Lattice.modify_congr rfl, h⟩
  · simp only [if_neg hend]
    cases hconstrained : (lattice.node rnode).constrainedPrev with
    | some c =>
      by_cases hdead : (lattice.node c).prev = none
      · simp only [if_pos hdead]
        exact ⟨Lattice.modify_congr rfl, hholds.sound⟩
      · obtain ⟨hcost, hholds'⟩ := CachingConnector.holds_getTransitionCost hholds
          (lattice.node c).rid
        simp only [if_neg hdead, hcost]
        exact ⟨Lattice.modify_congr rfl, hholds'.sound⟩
    | none =>
      obtain ⟨hbest, hholds'⟩ := findBestNode_eq (lattice.endNodesAt pos) hholds
      simp only [hbest]
      exact ⟨Lattice.modify_congr rfl, hholds'.sound⟩

/-! ## What assignments of labels keep -/

/-- A node without what the search assigns. -/
def Node.word (n : Node) : Node := { n with prev := none, next := none, cost := 0 }

/-- Two lattices with the same words at the same places. -/
structure SameWords (lattice lattice' : Lattice) : Prop where
  key : lattice'.key = lattice.key
  beginNodes : lattice'.beginNodes = lattice.beginNodes
  endNodes : lattice'.endNodes = lattice.endNodes
  length_nodes : lattice'.nodes.length = lattice.nodes.length
  word : ∀ id, (lattice'.node id).word = (lattice.node id).word

namespace SameWords

variable {lattice lattice' lattice'' : Lattice}

theorem refl (lattice : Lattice) : SameWords lattice lattice := ⟨rfl, rfl, rfl, rfl, fun _ => rfl⟩

theorem trans (h : SameWords lattice lattice') (h' : SameWords lattice' lattice'') :
    SameWords lattice lattice'' where
  key := h'.key.trans h.key
  beginNodes := h'.beginNodes.trans h.beginNodes
  endNodes := h'.endNodes.trans h.endNodes
  length_nodes := h'.length_nodes.trans h.length_nodes
  word := fun id => (h'.word id).trans (h.word id)

theorem beginNodesAt (h : SameWords lattice lattice') (pos : Nat) :
    lattice'.beginNodesAt pos = lattice.beginNodesAt pos := by
  unfold Lattice.beginNodesAt
  rw [h.beginNodes]

theorem endNodesAt (h : SameWords lattice lattice') (pos : Nat) :
    lattice'.endNodesAt pos = lattice.endNodesAt pos := by
  unfold Lattice.endNodesAt
  rw [h.endNodes]

theorem bosNode (h : SameWords lattice lattice') : lattice'.bosNode = lattice.bosNode := by
  unfold Lattice.bosNode
  rw [h.endNodesAt]

theorem eosNode (h : SameWords lattice lattice') : lattice'.eosNode = lattice.eosNode := by
  unfold Lattice.eosNode
  rw [h.beginNodesAt, h.key]

theorem lid (h : SameWords lattice lattice') (id : Nat) :
    (lattice'.node id).lid = (lattice.node id).lid :=
  show (lattice'.node id).word.lid = (lattice.node id).word.lid by rw [h.word]

theorem rid (h : SameWords lattice lattice') (id : Nat) :
    (lattice'.node id).rid = (lattice.node id).rid :=
  show (lattice'.node id).word.rid = (lattice.node id).word.rid by rw [h.word]

theorem wcost (h : SameWords lattice lattice') (id : Nat) :
    (lattice'.node id).wcost = (lattice.node id).wcost :=
  show (lattice'.node id).word.wcost = (lattice.node id).word.wcost by rw [h.word]

theorem endPos (h : SameWords lattice lattice') (id : Nat) :
    (lattice'.node id).endPos = (lattice.node id).endPos :=
  show (lattice'.node id).word.endPos = (lattice.node id).word.endPos by rw [h.word]

theorem constrainedPrev (h : SameWords lattice lattice') (id : Nat) :
    (lattice'.node id).constrainedPrev = (lattice.node id).constrainedPrev :=
  show (lattice'.node id).word.constrainedPrev = (lattice.node id).word.constrainedPrev by
    rw [h.word]

end SameWords

theorem Lattice.node_modify_of_keeps {β : Type} (keeps : Node → β) (h : ∀ n, keeps (f n) = keeps n)
    (lattice : Lattice) (id id' : Nat) :
    keeps ((lattice.modify id f).node id') = keeps (lattice.node id') := by
  by_cases hid : id' = id
  · subst hid
    rcases lt_or_ge id' lattice.nodes.length with hlt | hge
    · rw [Lattice.node_modify_self f hlt, h]
    · rw [Lattice.node, Lattice.node, List.getD_eq_default _ _ hge, List.getD_eq_default]
      rwa [Lattice.length_nodes_modify]
  · rw [Lattice.node_modify_ne f hid]

theorem sameWords_modify {lattice : Lattice} {id : Nat} (h : ∀ n, (f n).word = n.word) :
    SameWords lattice (lattice.modify id f) :=
  ⟨rfl, rfl, rfl, List.length_modify _ _ _, Lattice.node_modify_of_keeps Node.word h lattice id⟩

/-! ## The graph of a lattice -/

/-- A node that does not extend beyond the end of the segment that it begins in. -/
def Within (segments : List Segment) (n : Node) : Prop :=
  ∃ before segment, SegmentAt segments n.beginPos before segment ∧
    n.endPos ≤ (joinedKey before).length + segment.key.length

/-- What it costs to go on to a node: the transition and the word. -/
def stepCost (connector : Connector) (lattice : Lattice) (l r : Nat) : Int :=
  connector.getTransitionCost (lattice.node l).rid (lattice.node r).lid + (lattice.node r).wcost

/-- The steps from a node that ends where another begins, from the beginning of the
    sentence on. -/
def wordGraph (connector : Connector) (segments : List Segment) (lattice : Lattice) :
    Graph Nat where
  source := 0
  start := 0
  Step l r := ∃ pos, l ∈ lattice.endNodesAt pos ∧ r ∈ lattice.beginNodesAt pos ∧
    (r = 1 ∨ Within segments (lattice.node r)) ∧
    ∀ c, (lattice.node r).constrainedPrev = some c → l = c
  cost := stepCost connector lattice

/-- The labels that are in a lattice. -/
def Lattice.labels (lattice : Lattice) : Labels Nat where
  prev id := (lattice.node id).prev
  cost id := (lattice.node id).cost

/-- The order in which nodes get their labels. -/
def rank (lattice : Lattice) (r : Nat) : Nat :=
  if r = 0 then 0
  else if r = 1 then lattice.key.length + 2
  else (lattice.node r).beginPos + 1

@[simp] theorem rank_zero (lattice : Lattice) : rank lattice 0 = 0 := rfl

@[simp] theorem rank_one (lattice : Lattice) : rank lattice 1 = lattice.key.length + 2 := rfl

variable {r : Nat}

theorem rank_inserted {lattice : Lattice} (h : lattice.Inserted r) :
    rank lattice r = (lattice.node r).beginPos + 1 := by
  have hge := h.1
  unfold rank
  rw [if_neg (by omega), if_neg (by omega)]

/-- A node that ends at the position and that the node which is visited may follow. -/
structure Precedes (lattice : Lattice) (pos rightBoundary r l : Nat) : Prop where
  mem : l ∈ lattice.endNodesAt pos
  endPos_le : (lattice.node r).endPos ≤ rightBoundary
  constrained : ∀ c, (lattice.node r).constrainedPrev = some c → l = c

/-- The label of a visit is the best that the nodes before give. -/
theorem visited_spec {connector : Connector} {lattice : Lattice}
    (hconstrained : ∀ c, (lattice.node r).constrainedPrev = some c →
      c ∈ lattice.endNodesAt pos)
    (hbound : ∀ l, Precedes lattice pos rightBoundary r l → (lattice.node l).prev ≠ none →
      (lattice.node l).cost
        + connector.getTransitionCost (lattice.node l).rid (lattice.node r).lid < kVeryBigCost) :
    let label := visited connector pos rightBoundary lattice r
    (label.1 = none → ∀ l, Precedes lattice pos rightBoundary r l →
      (lattice.node l).prev = none) ∧
    (∀ l, label.1 = some l → Precedes lattice pos rightBoundary r l ∧
      (lattice.node l).prev ≠ none ∧
      label.2 = (lattice.node l).cost + stepCost connector lattice l r) ∧
    (label.1 ≠ none → ∀ l, Precedes lattice pos rightBoundary r l →
      (lattice.node l).prev ≠ none →
      label.2 ≤ (lattice.node l).cost + stepCost connector lattice l r) := by
  unfold visited stepCost
  by_cases hend : (lattice.node r).endPos > rightBoundary
  · -- no node precedes one that extends beyond the segment
    simp only [if_pos hend]
    refine ⟨?_, ?_, ?_⟩
    · intro _ l hl
      exact absurd hl.endPos_le (by omega)
    · intro l hl
      cases hl
    · intro hne
      exact absurd rfl hne
  · simp only [if_neg hend]
    cases hcp : (lattice.node r).constrainedPrev with
    | some c =>
      have honly : ∀ l, Precedes lattice pos rightBoundary r l → l = c :=
        fun l hl => hl.constrained c hcp
      have hc : Precedes lattice pos rightBoundary r c := by
        refine ⟨hconstrained c hcp, not_lt.mp hend, ?_⟩
        intro c' hc'
        rw [hcp] at hc'
        exact Option.some.inj hc'
      by_cases hdead : (lattice.node c).prev = none
      · simp only [if_pos hdead]
        refine ⟨?_, ?_, ?_⟩
        · intro _ l hl
          rw [honly l hl]
          exact hdead
        · intro l hl
          cases hl
        · intro hne
          exact absurd rfl hne
      · simp only [if_neg hdead]
        refine ⟨?_, ?_, ?_⟩
        · intro hnone
          cases hnone
        · intro l hl
          cases hl
          exact ⟨hc, hdead, by omega⟩
        · intro _ l hl _
          rw [honly l hl]
          omega
    | none =>
      obtain ⟨b, hb⟩ : ∃ b, best kVeryBigCost (candidates connector lattice
          (lattice.node r).lid (lattice.endNodesAt pos)) = b := ⟨_, rfl⟩
      have hfound := found_best kVeryBigCost (candidates connector lattice
        (lattice.node r).lid (lattice.endNodesAt pos))
      rw [hb] at hfound
      simp only [hb]
      have hle : ∀ l, Precedes lattice pos rightBoundary r l → (lattice.node l).prev ≠ none →
          b.1 ≤ (lattice.node l).cost
            + connector.getTransitionCost (lattice.node l).rid (lattice.node r).lid :=
        fun l hl halive => hfound.le (l, _) (mem_candidates.mpr ⟨hl.mem, halive, rfl⟩)
      refine ⟨?_, ?_, ?_⟩
      · intro hnone l hl
        by_contra halive
        have h1 := hle l hl halive
        have h2 := hbound l hl halive
        rw [hfound.none hnone] at h1
        omega
      · intro l hl
        obtain ⟨hmem, halive, hcost⟩ := mem_candidates.mp (hfound.some l hl).1
        refine ⟨⟨hmem, not_lt.mp hend, ?_⟩, halive, ?_⟩
        · intro c hc
          rw [hcp] at hc
          cases hc
        · simp only at hcost
          rw [hcost]
          omega
      · intro _ l hl halive
        have h1 := hle l hl halive
        omega

variable {g : Graph Nat}

/-- A node is settled by the assignment of the best label that the nodes before give. -/
theorem settled_setLabel {lattice : Lattice} {label : Option Nat × Int}
    (hlt : r < lattice.nodes.length) (hbefore : ∀ l, g.Step l r → l ≠ r)
    (hdead : label.1 = none → ∀ l, g.Step l r → ¬ lattice.labels.Alive g l)
    (hsome : ∀ l, label.1 = some l → g.Step l r ∧ lattice.labels.Alive g l ∧
      label.2 = (lattice.node l).cost + g.cost l r)
    (hle : label.1 ≠ none → ∀ l, g.Step l r → lattice.labels.Alive g l →
      label.2 ≤ (lattice.node l).cost + g.cost l r) :
    Settled g (lattice.setLabel r label).labels r := by
  -- the labels of the nodes before are what they were
  have hother : ∀ l, g.Step l r → (lattice.setLabel r label).node l = lattice.node l :=
    fun l hl => Lattice.node_modify_ne _ (hbefore l hl)
  have halive : ∀ l, g.Step l r →
      ((lattice.setLabel r label).labels.Alive g l ↔ lattice.labels.Alive g l) := by
    intro l hl
    unfold Labels.Alive Lattice.labels
    simp only [hother l hl]
  have hnode := Lattice.node_modify_self
    (fun n => { n with prev := label.1, cost := label.2 }) hlt
  have hprev : (lattice.setLabel r label).labels.prev r = label.1 := congrArg Node.prev hnode
  have hcost : (lattice.setLabel r label).labels.cost r = label.2 := congrArg Node.cost hnode
  have hcostBefore : ∀ l, g.Step l r →
      (lattice.setLabel r label).labels.cost l = (lattice.node l).cost :=
    fun l hl => congrArg Node.cost (hother l hl)
  constructor
  · intro hnone l hl hne
    rw [hprev] at hnone
    exact hdead hnone l hl ((halive l hl).mp hne)
  · intro l hl
    rw [hprev] at hl
    exact (hsome l hl).1
  · intro l hl
    rw [hprev] at hl
    exact (halive l (hsome l hl).1).mpr (hsome l hl).2.1
  · intro l hl
    rw [hprev] at hl
    rw [hcost, hcostBefore l (hsome l hl).1]
    exact (hsome l hl).2.2
  · intro hne l hl hl'
    rw [hprev] at hne
    rw [hcost, hcostBefore l hl]
    exact hle hne l hl ((halive l hl).mp hl')

/-- **A VISIT LEAVES THE BEST LABEL**, if what comes before costs less than the bound. -/
theorem settled_relax {connector : Connector} {lattice : Lattice} (hlt : r < lattice.nodes.length)
    (hstep : ∀ l, g.Step l r ↔ Precedes lattice pos rightBoundary r l)
    (hcost : ∀ l, g.cost l r = stepCost connector lattice l r) (hself : r ∉ lattice.endNodesAt pos)
    (hsource : g.source ∉ lattice.endNodesAt pos)
    (hconstrained : ∀ c, (lattice.node r).constrainedPrev = some c →
      c ∈ lattice.endNodesAt pos)
    (hbound : ∀ l, g.Step l r → lattice.labels.Alive g l → (lattice.node l).cost
      + connector.getTransitionCost (lattice.node l).rid (lattice.node r).lid < kVeryBigCost) :
    Settled g (relax connector pos rightBoundary lattice r).labels r := by
  have halive : ∀ l, g.Step l r → (lattice.labels.Alive g l ↔ (lattice.node l).prev ≠ none) := by
    intro l hl
    refine or_iff_right ?_
    rintro rfl
    exact hsource ((hstep _).mp hl).mem
  obtain ⟨hdead, hsome, hle⟩ := visited_spec hconstrained
    (fun l hl hne => hbound l ((hstep l).mpr hl) ((halive l ((hstep l).mpr hl)).mpr hne))
  refine settled_setLabel hlt ?_ ?_ ?_ ?_
  · rintro l hl rfl
    exact hself ((hstep _).mp hl).mem
  · intro hnone l hl hne
    exact (halive l hl).mp hne (hdead hnone l ((hstep l).mp hl))
  · intro l hl
    obtain ⟨hprecedes, hne, heq⟩ := hsome l hl
    have hl' := (hstep l).mpr hprecedes
    rw [hcost]
    exact ⟨hl', (halive l hl').mpr hne, heq⟩
  · intro hne l hl hl'
    rw [hcost]
    exact hle hne l ((hstep l).mp hl) ((halive l hl).mp hl')

/-! ## Visiting the nodes rank by rank -/

/-- The nodes below a rank and those that have been visited at this rank have their best
    labels, and the others have none. -/
structure Visiting (g : Graph Nat) (lattice : Lattice) (bound : Nat) (done : List Nat)
    (lattice' : Lattice) : Prop where
  same : SameWords lattice lattice'
  next : ∀ r, (lattice'.node r).next = (lattice.node r).next
  rank_done : ∀ r ∈ done, rank lattice r = bound
  settled : ∀ r, r ≠ 0 → rank lattice r < bound ∨ r ∈ done → Settled g lattice'.labels r
  untouched : ∀ r, r = 0 ∨ bound ≤ rank lattice r → r ∉ done →
    (lattice'.node r).prev = none ∧ (lattice'.node r).cost = 0

theorem sameWords_setLabel (lattice : Lattice) (id : Nat) (label : Option Nat × Int) :
    SameWords lattice (lattice.setLabel id label) := sameWords_modify fun _ => rfl

variable {bound : Nat}

theorem Visiting.setLabel {lattice lattice' : Lattice} {done : List Nat}
    (h : Visiting g lattice bound done lattice')
    (hrank : ∀ l r, g.Step l r → rank lattice l < rank lattice r) (hne : r ≠ 0)
    (hr : rank lattice r = bound) {label : Option Nat × Int}
    (hs : Settled g (lattice'.setLabel r label).labels r) :
    Visiting g lattice bound (r :: done) (lattice'.setLabel r label) := by
  have hother : ∀ r', r' ≠ r → (lattice'.setLabel r label).node r' = lattice'.node r' :=
    fun r' hr' => Lattice.node_modify_ne _ hr'
  constructor
  · exact h.same.trans (sameWords_setLabel _ _ _)
  · intro r'
    rw [← h.next r']
    exact Lattice.node_modify_of_keeps Node.next (by intro n; rfl) _ _ r'
  · intro r' hmem
    rcases List.mem_cons.mp hmem with rfl | hmem
    · exact hr
    · exact h.rank_done r' hmem
  · intro r' hne' hr'
    by_cases heq : r' = r
    · rw [heq]
      exact hs
    · have hbefore : rank lattice r' < bound ∨ r' ∈ done :=
        hr'.imp_right fun hmem => (List.mem_cons.mp hmem).resolve_left heq
      have hle : rank lattice r' ≤ bound := by
        rcases hbefore with hlt | hmem
        · omega
        · exact le_of_eq (h.rank_done r' hmem)
      refine (h.settled r' hne' hbefore).congr ?_ ?_ ?_
      · exact congrArg Node.prev (hother r' heq)
      · exact congrArg Node.cost (hother r' heq)
      · intro l hl
        have hlt := hrank l r' hl
        have hlr : l ≠ r := by
          rintro rfl
          omega
        exact ⟨congrArg Node.prev (hother l hlr), congrArg Node.cost (hother l hlr)⟩
  · intro r' hr' hmem
    rw [List.mem_cons, not_or] at hmem
    rw [hother r' hmem.1]
    exact h.untouched r' hr' hmem.2

/-- The nodes of a list are visited one after the other; the nodes of other ranks are what
    they were at the start. -/
theorem Visiting.foldl {lattice start : Lattice}
    (hrank : ∀ l r, g.Step l r → rank lattice l < rank lattice r) {visit : Lattice → Nat → Lattice}
    (rs : List Nat) (hrs : ∀ r ∈ rs, r ≠ 0 ∧
      rank lattice r = bound) (hvisit : ∀ lattice' done, Visiting g lattice bound done lattice' →
      (∀ n, rank lattice n ≠ bound → lattice'.node n = start.node n) → ∀ r ∈ rs,
      ∃ label, visit lattice' r = lattice'.setLabel r label ∧
        Settled g (visit lattice' r).labels r) :
    ∀ {done : List Nat} {lattice' : Lattice}, Visiting g lattice bound done lattice' →
      (∀ n, rank lattice n ≠ bound → lattice'.node n = start.node n) →
      Visiting g lattice bound (rs.reverse ++ done) (rs.foldl visit lattice') := by
  induction rs with
  | nil =>
    intro done lattice' h _
    exact h
  | cons r rs ih =>
    intro done lattice' h hstart
    obtain ⟨label, hlabel, hs⟩ := hvisit lattice' done h hstart r List.mem_cons_self
    obtain ⟨hne, hr⟩ := hrs r List.mem_cons_self
    rw [hlabel] at hs
    have hnext := h.setLabel hrank hne hr hs
    rw [← hlabel] at hnext
    have hstart' : ∀ n, rank lattice n ≠ bound → (visit lattice' r).node n = start.node n := by
      intro n hn
      rw [hlabel, ← hstart n hn]
      refine Lattice.node_modify_ne _ ?_
      rintro rfl
      exact hn hr
    have hall := ih (fun r' hr' => hrs r' (List.mem_cons_of_mem _ hr'))
      (fun l' d hl' hst r' hr' => hvisit l' d hl' hst r' (List.mem_cons_of_mem _ hr')) hnext
      hstart'
    simpa using hall

/-- A rank is done when all nodes that something leads to have been visited. -/
theorem Visiting.finish {lattice lattice' : Lattice} {done : List Nat}
    (h : Visiting g lattice bound done lattice') (hpos : 0 < bound)
    (hdone : ∀ l r, g.Step l r → rank lattice r = bound → r ∈ done) :
    Visiting g lattice (bound + 1) [] lattice' := by
  constructor
  · exact h.same
  · exact h.next
  · intro r hr
    cases hr
  · intro r hne hr
    have hle : rank lattice r < bound + 1 := hr.resolve_right List.not_mem_nil
    by_cases hbefore : rank lattice r < bound ∨ r ∈ done
    · exact h.settled r hne hbefore
    · rw [not_or] at hbefore
      -- nothing leads to the node, so that it has no label
      exact settled_of_not_step (h.untouched r (Or.inr (by omega)) hbefore.2).1
        fun l hl => hbefore.2 (hdone l r hl (by omega))
  · intro r hr _
    refine h.untouched r (hr.imp_right (by omega)) ?_
    intro hmem
    have heq := h.rank_done r hmem
    rcases hr with rfl | hlt
    · rw [rank_zero] at heq
      omega
    · omega

end MozkeyConverter
