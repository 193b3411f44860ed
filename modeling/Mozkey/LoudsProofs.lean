import Mozkey.ChunkIndexProofs
import Mozkey.UnaryTreeProofs

/-! # Louds — moving over a tree in its unary degree sequence

    The bits of the image are the sequence of a tree, followed by padding.  A node of the
    traversal is a pair of the position of its 1-bit and its number, and `AtNode` says
    which node of the tree it stands on. -/

namespace MozkeyLouds

open ByteString OptionList RankSelect UnaryTree MozkeySuccinct

/-- `Louds::Node`; the default is the root. -/
structure Node where
  edgeIndex : Nat := 0
  nodeId : Nat := 1
deriving DecidableEq, Repr

/-- `Louds`; `select_cache_` is kept as its two halves, whose lengths are the sizes. -/
structure Louds where
  index : SimpleSuccinctBitVectorIndex
  select0Cache : List Nat
  select1Cache : List Nat

namespace Louds

/-- The answers that are computed ahead, with a 0 in front of them. -/
def initSelectCache (select : Nat → Option Nat) (size : Nat) : Option (List Nat) :=
  (List.range size).mapM (fun i => if i = 0 then some 0 else select i)

/-- `Init`; `none` where the index has no answer. -/
def init (image : Bytes) (bitvecLb0CacheSize bitvecLb1CacheSize select0CacheSize
    select1CacheSize : Nat) : Option Louds :=
  (MozkeySuccinct.init kChunkSize image bitvecLb0CacheSize bitvecLb1CacheSize).bind (fun index =>
    (getNum0Bits image.length index.index).bind (fun num0Bits =>
      -- the cache sizes are capped
      let size0 := if select0CacheSize > num0Bits then num0Bits else select0CacheSize
      let size1 := if select1CacheSize > getNum1Bits index.index then getNum1Bits index.index
        else select1CacheSize
      (initSelectCache (fun i => (index.select0 i).map (· + 1)) size0).bind (fun select0Cache =>
        (initSelectCache index.select1 size1).map (fun select1Cache =>
          { index := index
            select0Cache := select0Cache
            select1Cache := select1Cache }))))

/-- `Select1`, from the cache where it is there.  The moves run on nodes, for which the index
    has an answer (`Ready`); without one, this is 0. -/
def select1 (l : Louds) (n : Nat) : Nat :=
  ((if n < l.select1Cache.length then l.select1Cache[n]? else l.index.select1 n)).getD 0

/-- `Select0` and one more, from the cache where it is there. -/
def select0 (l : Louds) (n : Nat) : Nat :=
  ((if n < l.select0Cache.length then l.select0Cache[n]?
    else (l.index.select0 n).map (· + 1))).getD 0

/-- `InitNodeFromNodeId`. -/
def initNodeFromNodeId (l : Louds) (nodeId : Nat) : Node :=
  { nodeId := nodeId, edgeIndex := l.select1 nodeId }

/-- `IsRoot`. -/
def isRoot (node : Node) : Bool := node.nodeId == 1

/-- `MoveToFirstChild`. -/
def moveToFirstChild (l : Louds) (node : Node) : Node :=
  let edgeIndex := l.select0 node.nodeId
  { edgeIndex := edgeIndex, nodeId := edgeIndex - node.nodeId + 1 }

/-- `MoveToNextSibling`. -/
def moveToNextSibling (node : Node) : Node :=
  { edgeIndex := node.edgeIndex + 1, nodeId := node.nodeId + 1 }

/-- `MoveToParent`. -/
def moveToParent (l : Louds) (node : Node) : Node :=
  let nodeId := node.edgeIndex - node.nodeId + 1
  { nodeId := nodeId, edgeIndex := l.select1 nodeId }

/-- `IsValidNode`: the bit at the edge is set. -/
def isValidNode (l : Louds) (node : Node) : Bool := (l.index.get node.edgeIndex).getD false

end Louds

/-! ## What `Init` leaves -/

/-- An index that answers, and caches of its answers. -/
structure Ready (image : Bytes) (l : Louds) : Prop where
  data : l.index.data = image
  answers : Answers image l.index
  select0Cache : ∀ i, 0 < i → i < l.select0Cache.length →
    l.select0Cache[i]? = (l.index.select0 i).map (· + 1)
  select1Cache : ∀ i, 0 < i → i < l.select1Cache.length →
    l.select1Cache[i]? = l.index.select1 i

/-- **THE CACHES** hold the answers, whatever their sizes are. -/
theorem exists_initSelectCache {select : Nat → Option Nat} {size : Nat}
    (h : ∀ i, 0 < i → i < size → (select i).isSome = true) :
    ∃ cache, Louds.initSelectCache select size = some cache ∧
      ∀ i, 0 < i → i < cache.length → cache[i]? = select i := by
  have hsome : ∀ i ∈ List.range size,
      (if i = 0 then some 0 else select i).isSome = true := by
    intro i hi
    split_ifs with hzero
    · rfl
    · exact h i (Nat.pos_of_ne_zero hzero) (List.mem_range.mp hi)
  obtain ⟨cache, hcache⟩ := exists_mapM hsome
  have hlength := length_mapM hcache
  rw [List.length_range] at hlength
  refine ⟨cache, hcache, ?_⟩
  intro i hpos hi
  obtain ⟨value, hvalue, hget⟩ := getElem?_mapM hcache (List.getElem?_range (hlength ▸ hi))
  rw [if_neg (Nat.ne_of_gt hpos)] at hvalue
  rw [hget, hvalue]

/-- **`Init`** of an image of whole words, as long as the numbers fit. -/
theorem exists_init {image : Bytes} (haligned : image.length % 4 = 0) {lb0 lb1 : Nat}
    (hfits : Fits image kChunkSize lb0 lb1) (s0 s1 : Nat) :
    ∃ l, Louds.init image lb0 lb1 s0 s1 = some l ∧ Ready image l := by
  obtain ⟨index, hinit, hdata, hanswers⟩ :=
    exists_answers (show 4 ∣ kChunkSize by decide) (show 0 < kChunkSize by decide) haligned hfits
  have hones := hanswers.num1Bits
  rw [Louds.init, hinit, Option.bind_some, hanswers.num0Bits, Option.bind_some, hones]
  dsimp only
  generalize hsize0 : (if s0 > (bitsOf image).count false then (bitsOf image).count false
    else s0) = size0
  generalize hsize1 : (if s1 > (bitsOf image).count true then (bitsOf image).count true
    else s1) = size1
  have hle0 : size0 ≤ (bitsOf image).count false := by split_ifs at hsize0 <;> omega
  have hle1 : size1 ≤ (bitsOf image).count true := by split_ifs at hsize1 <;> omega
  have hsome0 : ∀ i, 0 < i → i < size0 →
      ((index.select0 i).map (· + 1)).isSome = true := by
    intro i hpos hi
    obtain ⟨p, hp, -⟩ := hanswers.select0 i hpos (by omega)
    rw [hp]
    rfl
  have hsome1 : ∀ i, 0 < i → i < size1 → (index.select1 i).isSome = true := by
    intro i hpos hi
    obtain ⟨p, hp, -⟩ := hanswers.select1 i hpos (by omega)
    rw [hp]
    rfl
  obtain ⟨cache0, hcache0, hget0⟩ := exists_initSelectCache hsome0
  obtain ⟨cache1, hcache1, hget1⟩ := exists_initSelectCache hsome1
  rw [hcache0, Option.bind_some, hcache1, Option.map_some]
  exact ⟨_, rfl, hdata, hanswers, hget0, hget1⟩

namespace Ready

variable {image : Bytes} {l : Louds} (h : Ready image l)
include h

theorem select1_eq {n q : Nat} (hq : IsSelect true (bitsOf image) n q) : l.select1 n = q := by
  obtain ⟨p, hp, hselect⟩ := h.answers.select1 n hq.pos hq.le_count
  have hcache := h.select1Cache n hq.pos
  rw [Louds.select1]
  split_ifs with hlt
  · rw [hcache hlt, hp, Option.getD_some, hselect.unique hq]
  · rw [hp, Option.getD_some, hselect.unique hq]

theorem select0_eq {n q : Nat} (hq : IsSelect false (bitsOf image) n q) :
    l.select0 n = q + 1 := by
  obtain ⟨p, hp, hselect⟩ := h.answers.select0 n hq.pos hq.le_count
  have hcache := h.select0Cache n hq.pos
  rw [Louds.select0]
  split_ifs with hlt
  · rw [hcache hlt, hp, Option.map_some, Option.getD_some, hselect.unique hq]
  · rw [hp, Option.map_some, Option.getD_some, hselect.unique hq]

end Ready

/-! ## Standing on a node -/

variable {ν : Type}

/-- The traversal stands on the node `p` of the tree. -/
structure AtNode (t : Table ν) (node : Node) (p : ν) : Prop where
  path : t.nodes[node.nodeId - 1]? = some p
  edge : IsSelect true t.bits node.nodeId node.edgeIndex

section Tree

variable {t : Table ν}

theorem atNode_root : AtNode t {} t.root :=
  ⟨t.getElem?_nodes_zero,
    isSelect_true_child (i := 0) (d := 1) (j := 0) rfl Nat.one_pos⟩

variable {node : Node} {p : ν}

theorem AtNode.pos (h : AtNode t node p) : 0 < node.nodeId := h.edge.pos

variable {k : Nat} {row : ν × List ν}

theorem atNode_child {j : Nat} {c : ν} (hrow : t.rows[k]? = some row) (hj : row.2[j]? = some c) :
    AtNode t
      { edgeIndex := blockStart t.degrees (k + 1) + j
        nodeId := (t.degrees.take (k + 1)).sum + j + 1 } c :=
  ⟨t.child hrow hj,
    isSelect_true_child (t.getElem?_degrees hrow) (List.getElem?_eq_some_iff.mp hj).1⟩

theorem exists_isSelect_node {n : Nat} (h : t.nodes[n]? = some p) :
    ∃ q, IsSelect true t.bits (n + 1) q := by
  cases n with
  | zero => exact ⟨_, (atNode_root (t := t)).edge⟩
  | succ n =>
    obtain ⟨k, row, j, hrow, hj, hn⟩ := t.parent h
    rw [hn]
    exact ⟨_, (atNode_child hrow hj).edge⟩

/-- LOUDS over an image that holds the sequence of the tree, padded. -/
structure Encodes (l : Louds) (t : Table ν) : Prop where
  image : ∃ image pad, bitsOf image = t.bits ++ pad ∧ Ready image l

variable {l : Louds} (hl : Encodes l t)
include hl

theorem atNode_initNodeFromNodeId {n : Nat} (h : t.nodes[n]? = some p) :
    AtNode t (l.initNodeFromNodeId (n + 1)) p := by
  obtain ⟨image, pad, hbits, hready⟩ := hl.image
  obtain ⟨q, hq⟩ := exists_isSelect_node h
  have hq' : IsSelect true (bitsOf image) (n + 1) q := by rw [hbits]; exact hq.append pad
  refine ⟨h, ?_⟩
  rw [Louds.initNodeFromNodeId, hready.select1_eq hq']
  exact hq

/-- **THE FIRST CHILD** is where the block of the node starts. -/
theorem moveToFirstChild_eq (h : AtNode t node p) :
    l.moveToFirstChild node
      = { edgeIndex := blockStart t.degrees node.nodeId
          nodeId := (t.degrees.take node.nodeId).sum + 1 } := by
  obtain ⟨image, pad, hbits, hready⟩ := hl.image
  obtain ⟨cs, hrow⟩ := t.exists_row h.path
  have hpos := h.pos
  have hlt : node.nodeId - 1 < t.degrees.length := by
    have := (List.getElem?_eq_some_iff.mp (t.getElem?_degrees hrow)).1
    omega
  have hsel := (isSelect_false_blockStart hlt).append pad
  rw [Nat.sub_add_cancel hpos] at hsel
  change IsSelect false (t.bits ++ pad) _ _ at hsel
  rw [← hbits] at hsel
  have hstart : 0 < blockStart t.degrees node.nodeId := by rw [blockStart]; omega
  rw [Louds.moveToFirstChild, hready.select0_eq hsel, Nat.sub_add_cancel hstart,
    blockStart, Nat.add_sub_cancel]

/-- **THE BLOCK OF A NODE** is valid as long as there are children. -/
theorem isValidNode_child {j : Nat} (hrow : t.rows[k]? = some row) (hj : j ≤ row.2.length)
    (nodeId : Nat) :
    l.isValidNode { edgeIndex := blockStart t.degrees (k + 1) + j, nodeId := nodeId }
      = decide (j < row.2.length) := by
  obtain ⟨image, pad, hbits, hready⟩ := hl.image
  have hbit : t.bits[blockStart t.degrees (k + 1) + j]? = some (decide (j < row.2.length)) := by
    by_cases hlt : j < row.2.length
    · rw [decide_eq_true hlt]
      exact (atNode_child hrow (List.getElem?_eq_getElem hlt)).edge.1
    · rw [decide_eq_false hlt, show j = row.2.length from by omega]
      exact getElem?_blockEnd (t.getElem?_degrees hrow)
  have hbit' : (bitsOf image)[blockStart t.degrees (k + 1) + j]?
      = some (decide (j < row.2.length)) := by
    rw [hbits, List.getElem?_append_left (List.getElem?_eq_some_iff.mp hbit).1]
    exact hbit
  rw [Louds.isValidNode, get_eq, hready.data, hbit', Option.getD_some]

theorem degree_lt (hrow : t.rows[k]? = some row) :
    row.2.length < 8 * l.index.data.length := by
  obtain ⟨image, pad, hbits, hready⟩ := hl.image
  have hend := (List.getElem?_eq_some_iff.mp (getElem?_blockEnd (t.getElem?_degrees hrow))).1
  have hlen := congrArg List.length hbits
  rw [length_bitsOf, List.length_append] at hlen
  change _ < t.bits.length at hend
  rw [hready.data]
  omega

/-- **THE PARENT** of a node that is not the root is the node of its row. -/
theorem atNode_moveToParent {c : ν} (h : AtNode t node c) (hroot : node.nodeId ≠ 1) :
    ∃ row ∈ t.rows, c ∈ row.2 ∧ AtNode t (l.moveToParent node) row.1 := by
  have hpos := h.pos
  obtain ⟨n, hn⟩ : ∃ n, node.nodeId = n + 1 + 1 := ⟨node.nodeId - 2, by omega⟩
  have hpath := h.path
  rw [hn, Nat.add_sub_cancel] at hpath
  obtain ⟨k, row, j, hrow, hj, hnum⟩ := t.parent hpath
  have hedge : node.edgeIndex = blockStart t.degrees (k + 1) + j := by
    have h1 := h.edge
    rw [hn, hnum] at h1
    exact h1.unique (atNode_child hrow hj).edge
  have hparent : node.edgeIndex - node.nodeId + 1 = k + 1 := by
    rw [hedge, hn, hnum, blockStart]
    omega
  refine ⟨row, List.mem_of_getElem? hrow, List.mem_of_getElem? hj, ?_⟩
  have hnode := atNode_initNodeFromNodeId hl (t.getElem?_nodes hrow)
  rw [Louds.initNodeFromNodeId] at hnode
  rw [Louds.moveToParent, hparent]
  exact hnode

end Tree

end MozkeyLouds
