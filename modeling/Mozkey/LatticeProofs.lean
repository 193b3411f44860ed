import Mozkey.ByteStringProofs

/-! # Lattice — the words that cover a key

    A lattice has the words of a key by the positions where they begin and where they end.
    Nodes live in an arena and point to each other; a pointer is an index into the arena, and
    the nodes of the beginning and of the end of the sentence come first.  Positions are
    16-bit numbers. -/

namespace MozkeyConverter

open ByteString

/-! ## Nodes and lattices -/

/-- `Node::NodeType`. -/
inductive NodeType
  | norNode
  | bosNode
  | eosNode
  | conNode
  | hisNode
  deriving DecidableEq

/-- `Node`; a pointer to a node is its index in the arena. -/
structure Node where
  prev : Option Nat := none
  next : Option Nat := none
  constrainedPrev : Option Nat := none
  rid : Nat := 0
  lid : Nat := 0
  beginPos : Nat := 0
  endPos : Nat := 0
  wcost : Int := 0
  cost : Int := 0
  nodeType : NodeType := .norNode
  attributes : Nat := 0
  key : Bytes := []
  value : Bytes := []
  deriving DecidableEq

/-- A `Lattice` with its arena. -/
structure Lattice where
  key : Bytes := []
  nodes : List Node := []
  beginNodes : List (List Nat) := []
  endNodes : List (List Nat) := []

namespace Lattice

variable (lattice : Lattice)

/-- The node that a pointer points to. -/
def node (id : Nat) : Node := lattice.nodes.getD id {}

/-- The assignment to fields of a node. -/
def modify (id : Nat) (f : Node → Node) : Lattice :=
  { lattice with nodes := lattice.nodes.modify id f }

/-- `begin_nodes`. -/
def beginNodesAt (pos : Nat) : List Nat := lattice.beginNodes.getD pos []

/-- `end_nodes`. -/
def endNodesAt (pos : Nat) : List Nat := lattice.endNodes.getD pos []

/-- `bos_node`: the first node that ends at 0. -/
def bosNode : Nat := (lattice.endNodesAt 0).headD 0

/-- `eos_node`: the first node that begins at the end. -/
def eosNode : Nat := (lattice.beginNodesAt lattice.key.length).headD 0

end Lattice

/-- The conversion to `uint16_t`. -/
def uint16 (n : Nat) : Nat := n % 2 ^ 16

/-- `InitBOSNode`. -/
def initBOSNode (position bosId : Nat) : Node :=
  { rid := bosId, lid := 0, key := [], value := ascii "BOS", nodeType := .bosNode
    wcost := 0, cost := 0, beginPos := uint16 position, endPos := uint16 position }

/-- `InitEOSNode`. -/
def initEOSNode (position : Nat) : Node :=
  { rid := 0, lid := 0, key := [], value := ascii "EOS", nodeType := .eosNode
    wcost := 0, cost := 0, beginPos := uint16 position, endPos := uint16 position }

/-- `SetKey`; the nodes of the beginning and the end are the first of the arena. -/
def setKey (key : Bytes) (bosId : Nat) : Lattice where
  key := key
  nodes := [initBOSNode 0 bosId, initEOSNode key.length]
  beginNodes := (List.replicate (key.length + 1) []).modify key.length (· ++ [1])
  endNodes := (List.replicate (key.length + 1) []).modify 0 (· ++ [0])

/-- The fields that `Insert` sets. -/
def insertedNode (key : Bytes) (pos : Nat) (node : Node) : Node :=
  { node with
    beginPos := uint16 pos
    endPos := uint16 (min (node.key.length + pos) key.length)
    prev := none
    next := none
    cost := 0 }

/-- `Insert` of a node that `NewNode` has just put into the arena. -/
def Lattice.insert (lattice : Lattice) (pos : Nat) (node : Node) : Lattice where
  key := lattice.key
  nodes := lattice.nodes ++ [insertedNode lattice.key pos node]
  beginNodes := lattice.beginNodes.modify pos (· ++ [lattice.nodes.length])
  endNodes := lattice.endNodes.modify (min (node.key.length + pos) lattice.key.length)
    (· ++ [lattice.nodes.length])

/-- The lattice of a key with nodes inserted at positions.  The nodes are numbered from 2 on,
    which is how `constrainedPrev` names them. -/
def latticeOf (key : Bytes) (bosId : Nat) (inserts : List (Nat × Node)) : Lattice :=
  inserts.foldl (fun lattice e => lattice.insert e.1 e.2) (setKey key bosId)

/-! ## Assignments -/

namespace Lattice

variable {lattice : Lattice}

@[simp] theorem length_nodes_modify (id : Nat) (f : Node → Node) :
    (lattice.modify id f).nodes.length = lattice.nodes.length :=
  List.length_modify _ _ _

theorem node_modify_self {id : Nat} (f : Node → Node) (h : id < lattice.nodes.length) :
    (lattice.modify id f).node id = f (lattice.node id) := by
  simp [modify, node, List.getD_eq_getElem?_getD, h]

theorem node_modify_ne {id id' : Nat} (f : Node → Node) (h : id' ≠ id) :
    (lattice.modify id f).node id' = lattice.node id' := by
  simp [modify, node, List.getD_eq_getElem?_getD, Ne.symm h]

end Lattice

/-! ## What `SetKey` and `Insert` leave -/

theorem latticeOf_concat (key : Bytes) (bosId : Nat) (inserts : List (Nat × Node))
    (e : Nat × Node) :
    latticeOf key bosId (inserts ++ [e]) = (latticeOf key bosId inserts).insert e.1 e.2 := by
  rw [latticeOf, List.foldl_append]
  rfl

/-- The arena: the two ends of the sentence, and the inserted nodes in their order. -/
theorem nodes_latticeOf (key : Bytes) (bosId : Nat) (inserts : List (Nat × Node)) :
    (latticeOf key bosId inserts).key = key ∧
      (latticeOf key bosId inserts).nodes
        = [initBOSNode 0 bosId, initEOSNode key.length]
          ++ inserts.map (fun e => insertedNode key e.1 e.2) := by
  induction inserts using List.reverseRecOn with
  | nil => exact ⟨rfl, rfl⟩
  | append_singleton inserts e ih =>
    obtain ⟨hkey, hnodes⟩ := ih
    rw [latticeOf_concat]
    refine ⟨hkey, ?_⟩
    show (latticeOf key bosId inserts).nodes ++ [insertedNode _ e.1 e.2] = _
    rw [hnodes, hkey]
    simp

theorem length_nodes_latticeOf (key : Bytes) (bosId : Nat) (inserts : List (Nat × Node)) :
    (latticeOf key bosId inserts).nodes.length = inserts.length + 2 := by
  rw [(nodes_latticeOf key bosId inserts).2]
  simp

variable {bosId : Nat} {inserts : List (Nat × Node)} {e : Nat × Node}

theorem node_latticeOf {key : Bytes} {i : Nat} (h : inserts[i]? = some e) :
    (latticeOf key bosId inserts).node (i + 2) = insertedNode key e.1 e.2 := by
  rw [Lattice.node, (nodes_latticeOf key bosId inserts).2]
  simp [List.getD_eq_getElem?_getD, h]

theorem getD_modify_append {lists : List (List Nat)} {at' : Nat} (h : at' < lists.length)
    (id : Nat) (pos : Nat) :
    (lists.modify at' (· ++ [id])).getD pos []
      = if pos = at' then lists.getD pos [] ++ [id] else lists.getD pos [] := by
  by_cases hpos : pos = at'
  · subst hpos
    simp [List.getD_eq_getElem?_getD, h]
  · simp [List.getD_eq_getElem?_getD, Ne.symm hpos, hpos]

theorem exists_getElem?_concat {P : Nat × Node → Prop} {r : Nat} :
    (∃ i e', (inserts ++ [e])[i]? = some e' ∧ r = i + 2 ∧ P e') ↔
      (∃ i e', inserts[i]? = some e' ∧ r = i + 2 ∧ P e') ∨ (r = inserts.length + 2 ∧ P e) := by
  constructor
  · rintro ⟨i, e', hget, hr, hp⟩
    rcases lt_or_ge i inserts.length with hlt | hge
    · rw [List.getElem?_append_left hlt] at hget
      exact Or.inl ⟨i, e', hget, hr, hp⟩
    · rw [List.getElem?_append_right hge] at hget
      rw [List.getElem?_singleton] at hget
      by_cases hi : i - inserts.length = 0
      · rw [if_pos hi] at hget
        cases hget
        exact Or.inr ⟨by omega, hp⟩
      · rw [if_neg hi] at hget
        cases hget
  · rintro (⟨i, e', hget, hr, hp⟩ | ⟨hr, hp⟩)
    · refine ⟨i, e', ?_, hr, hp⟩
      rw [List.getElem?_append_left (List.getElem?_eq_some_iff.mp hget).1]
      exact hget
    · exact ⟨inserts.length, e, by simp, hr, hp⟩

/-- **WHICH NODES BEGIN AND END AT A POSITION**; the ends of the sentence come first. -/
theorem nodesAt_latticeOf (key : Bytes) (bosId : Nat) (inserts : List (Nat × Node))
    (hpos : ∀ e ∈ inserts, e.1 ≤ key.length) :
    let lattice := latticeOf key bosId inserts
    lattice.beginNodes.length = key.length + 1 ∧ lattice.endNodes.length = key.length + 1 ∧
      (lattice.beginNodesAt key.length).head? = some 1 ∧
      (lattice.endNodesAt 0).head? = some 0 ∧
      (∀ pos r, r ∈ lattice.beginNodesAt pos ↔ (r = 1 ∧ pos = key.length) ∨
        ∃ i e, inserts[i]? = some e ∧ r = i + 2 ∧ e.1 = pos) ∧
      ∀ pos l, l ∈ lattice.endNodesAt pos ↔ (l = 0 ∧ pos = 0) ∨
        ∃ i e, inserts[i]? = some e ∧ l = i + 2 ∧ min (e.2.key.length + e.1) key.length = pos := by
  induction inserts using List.reverseRecOn with
  | nil =>
    have hempty : ∀ pos : Nat, (List.replicate (key.length + 1) ([] : List Nat)).getD pos []
        = [] := by
      intro pos
      rw [List.getD_eq_getElem?_getD, List.getElem?_replicate]
      split <;> rfl
    have hbegin : ∀ pos, (latticeOf key bosId []).beginNodesAt pos
        = if pos = key.length then [1] else [] := by
      intro pos
      show (setKey key bosId).beginNodes.getD pos [] = _
      rw [setKey, getD_modify_append (by simp), hempty, List.nil_append]
    have hend : ∀ pos, (latticeOf key bosId []).endNodesAt pos
        = if pos = 0 then [0] else [] := by
      intro pos
      show (setKey key bosId).endNodes.getD pos [] = _
      rw [setKey, getD_modify_append (by simp), hempty, List.nil_append]
    refine ⟨by simp [latticeOf, setKey], by simp [latticeOf, setKey], ?_, ?_, ?_, ?_⟩
    · rw [hbegin, if_pos rfl]
      rfl
    · rw [hend, if_pos rfl]
      rfl
    · intro pos r
      rw [hbegin]
      by_cases h : pos = key.length <;> simp [h]
    · intro pos l
      rw [hend]
      by_cases h : pos = 0 <;> simp [h]
  | append_singleton inserts e ih =>
    obtain ⟨hlenBegin, hlenEnd, hheadBegin, hheadEnd, hbegin, hend⟩ :=
      ih (fun e' hmem => hpos e' (List.mem_append_left _ hmem))
    have he := hpos e (List.mem_append_right _ (List.mem_singleton.mpr rfl))
    have hlen := length_nodes_latticeOf key bosId inserts
    have hkey := (nodes_latticeOf key bosId inserts).1
    have hbegin' : ∀ pos, (latticeOf key bosId (inserts ++ [e])).beginNodesAt pos
        = if pos = e.1 then (latticeOf key bosId inserts).beginNodesAt pos
            ++ [inserts.length + 2]
          else (latticeOf key bosId inserts).beginNodesAt pos := by
      intro pos
      rw [latticeOf_concat, ← hlen]
      exact getD_modify_append (by omega) _ pos
    have hend' : ∀ pos, (latticeOf key bosId (inserts ++ [e])).endNodesAt pos
        = if pos = min (e.2.key.length + e.1) key.length then
            (latticeOf key bosId inserts).endNodesAt pos ++ [inserts.length + 2]
          else (latticeOf key bosId inserts).endNodesAt pos := by
      intro pos
      rw [latticeOf_concat, ← hlen]
      show ((latticeOf key bosId inserts).endNodes.modify
        (min (e.2.key.length + e.1) (latticeOf key bosId inserts).key.length) _).getD pos [] = _
      rw [hkey]
      exact getD_modify_append (by omega) _ pos
    refine ⟨?_, ?_, ?_, ?_, ?_, ?_⟩
    · rw [latticeOf_concat]
      exact (List.length_modify _ _ _).trans hlenBegin
    · rw [latticeOf_concat]
      exact (List.length_modify _ _ _).trans hlenEnd
    · rw [hbegin']
      split
      · rw [List.head?_append, hheadBegin]
        rfl
      · exact hheadBegin
    · rw [hend']
      split
      · rw [List.head?_append, hheadEnd]
        rfl
      · exact hheadEnd
    · intro pos r
      rw [hbegin', exists_getElem?_concat, ← or_assoc, ← hbegin]
      by_cases h : pos = e.1
      · rw [if_pos h, List.mem_append, List.mem_singleton]
        simp [h]
      · rw [if_neg h]
        simp [Ne.symm h]
    · intro pos l
      rw [hend', exists_getElem?_concat, ← or_assoc, ← hend]
      by_cases h : pos = min (e.2.key.length + e.1) key.length
      · rw [if_pos h, List.mem_append, List.mem_singleton]
        simp [h]
      · rw [if_neg h]
        simp [Ne.symm h]

/-! ## Formed lattices -/

/-- A node that is not an end of the sentence. -/
def Lattice.Inserted (lattice : Lattice) (r : Nat) : Prop := 2 ≤ r ∧ r < lattice.nodes.length

/-- A lattice whose lists say where its nodes begin and end, before any path is searched. -/
structure Lattice.Formed (lattice : Lattice) : Prop where
  bosNode : lattice.bosNode = 0
  eosNode : lattice.eosNode = 1
  mem_beginNodesAt : ∀ pos r, r ∈ lattice.beginNodesAt pos ↔
    (r = 1 ∧ pos = lattice.key.length) ∨ (lattice.Inserted r ∧ (lattice.node r).beginPos = pos)
  mem_endNodesAt : ∀ pos l, l ∈ lattice.endNodesAt pos ↔
    (l = 0 ∧ pos = 0) ∨ (lattice.Inserted l ∧ (lattice.node l).endPos = pos)
  length_nodes : 2 ≤ lattice.nodes.length
  bos_endPos : (lattice.node 0).endPos = 0
  eos_beginPos : (lattice.node 1).beginPos = lattice.key.length
  eos_endPos : (lattice.node 1).endPos = lattice.key.length
  eos_constrainedPrev : (lattice.node 1).constrainedPrev = none
  positions : ∀ r, lattice.Inserted r →
    ((lattice.node r).beginPos < (lattice.node r).endPos ∧
      (lattice.node r).endPos ≤ lattice.key.length) ∨
    ((lattice.node r).beginPos = lattice.key.length ∧
      (lattice.node r).endPos = lattice.key.length)
  unlinked : ∀ r, (lattice.node r).prev = none ∧ (lattice.node r).next = none ∧
    (lattice.node r).cost = 0

theorem uint16_of_lt {n : Nat} (h : n < 2 ^ 16) : uint16 n = n := Nat.mod_eq_of_lt h

theorem exists_insert {key : Bytes} {r : Nat} (h : (latticeOf key bosId inserts).Inserted r) :
    ∃ i e, inserts[i]? = some e ∧ r = i + 2 ∧
      (latticeOf key bosId inserts).node r = insertedNode key e.1 e.2 := by
  obtain ⟨hge, hlt⟩ := h
  rw [length_nodes_latticeOf] at hlt
  have hi : r - 2 < inserts.length := by omega
  have hget := List.getElem?_eq_getElem hi
  refine ⟨r - 2, inserts[r - 2], hget, by omega, ?_⟩
  rw [← node_latticeOf hget]
  congr 1
  omega

theorem inserted_of_getElem? {key : Bytes} {i : Nat} (h : inserts[i]? = some e) :
    (latticeOf key bosId inserts).Inserted (i + 2) := by
  refine ⟨by omega, ?_⟩
  rw [length_nodes_latticeOf]
  have := (List.getElem?_eq_some_iff.mp h).1
  omega

/-- What holds of the ends of the sentence, of inserted nodes and of no node holds of whatever a
    pointer points to. -/
theorem forall_node_latticeOf {key : Bytes} (P : Node → Prop) (hnone : P {})
    (hbos : P (initBOSNode 0 bosId)) (heos : P (initEOSNode key.length))
    (hins : ∀ e ∈ inserts, P (insertedNode key e.1 e.2)) (id : Nat) :
    P ((latticeOf key bosId inserts).node id) := by
  rw [Lattice.node, (nodes_latticeOf key bosId inserts).2, List.getD_eq_getElem?_getD]
  cases hget : ([initBOSNode 0 bosId, initEOSNode key.length]
      ++ inserts.map fun e => insertedNode key e.1 e.2)[id]? with
  | none => exact hnone
  | some n =>
    have hmem := List.mem_of_getElem? hget
    simp only [List.cons_append, List.nil_append, List.mem_cons, List.mem_map] at hmem
    rcases hmem with rfl | rfl | ⟨e, he, rfl⟩
    · exact hbos
    · exact heos
    · exact hins e he

/-- **WHAT `SetKey` AND `Insert` LEAVE** when the positions are within the key and fit into
    16 bits. -/
theorem formed_latticeOf {key : Bytes} (hkey : key.length < 2 ^ 16)
    (hinserts : ∀ e ∈ inserts, e.1 ≤ key.length ∧ e.2.key ≠ []) :
    (latticeOf key bosId inserts).Formed := by
  obtain ⟨-, -, hheadBegin, hheadEnd, hbegin, hend⟩ :=
    nodesAt_latticeOf key bosId inserts (fun e he => (hinserts e he).1)
  obtain ⟨hlatticeKey, hnodes⟩ := nodes_latticeOf key bosId inserts
  have hbos : (latticeOf key bosId inserts).node 0 = initBOSNode 0 bosId := by
    simp [Lattice.node, hnodes]
  have heos : (latticeOf key bosId inserts).node 1 = initEOSNode key.length := by
    simp [Lattice.node, hnodes]
  have hpositions : ∀ (i : Nat) (e : Nat × Node), inserts[i]? = some e →
      (insertedNode key e.1 e.2).beginPos = e.1 ∧
        (insertedNode key e.1 e.2).endPos = min (e.2.key.length + e.1) key.length ∧
        e.1 ≤ key.length ∧ 0 < e.2.key.length := by
    intro i e hget
    obtain ⟨hle, hne⟩ := hinserts e (List.mem_of_getElem? hget)
    exact ⟨uint16_of_lt (by omega), uint16_of_lt (by omega), hle, List.length_pos_iff.mpr hne⟩
  constructor
  · rw [Lattice.bosNode, List.headD_eq_head?_getD, hheadEnd]
    rfl
  · rw [Lattice.eosNode, hlatticeKey, List.headD_eq_head?_getD, hheadBegin]
    rfl
  · intro pos r
    rw [hbegin, hlatticeKey]
    refine or_congr Iff.rfl ⟨?_, ?_⟩
    · rintro ⟨i, e, hget, rfl, rfl⟩
      rw [node_latticeOf hget]
      exact ⟨inserted_of_getElem? hget, (hpositions i e hget).1⟩
    · rintro ⟨hins, rfl⟩
      obtain ⟨i, e, hget, hr, hnode⟩ := exists_insert hins
      rw [hnode]
      exact ⟨i, e, hget, hr, (hpositions i e hget).1.symm⟩
  · intro pos l
    rw [hend]
    refine or_congr Iff.rfl ⟨?_, ?_⟩
    · rintro ⟨i, e, hget, rfl, rfl⟩
      rw [node_latticeOf hget]
      exact ⟨inserted_of_getElem? hget, (hpositions i e hget).2.1⟩
    · rintro ⟨hins, rfl⟩
      obtain ⟨i, e, hget, hl, hnode⟩ := exists_insert hins
      rw [hnode]
      exact ⟨i, e, hget, hl, (hpositions i e hget).2.1.symm⟩
  · rw [length_nodes_latticeOf]
    omega
  · rw [hbos]
    rfl
  · rw [heos, hlatticeKey]
    exact uint16_of_lt hkey
  · rw [heos, hlatticeKey]
    exact uint16_of_lt hkey
  · rw [heos]
    rfl
  · intro r hins
    obtain ⟨i, e, hget, -, hnode⟩ := exists_insert hins
    obtain ⟨hb, he, hle, hpos⟩ := hpositions i e hget
    rw [hnode, hb, he, hlatticeKey]
    omega
  · intro r
    by_cases hins : (latticeOf key bosId inserts).Inserted r
    · obtain ⟨i, e, -, -, hnode⟩ := exists_insert hins
      rw [hnode]
      exact ⟨rfl, rfl, rfl⟩
    · rcases (by unfold Lattice.Inserted at hins; omega :
        r = 0 ∨ r = 1 ∨ (latticeOf key bosId inserts).nodes.length ≤ r) with rfl | rfl | hge
      · rw [hbos]
        exact ⟨rfl, rfl, rfl⟩
      · rw [heos]
        exact ⟨rfl, rfl, rfl⟩
      · rw [Lattice.node, List.getD_eq_default _ _ hge]
        exact ⟨rfl, rfl, rfl⟩

end MozkeyConverter
