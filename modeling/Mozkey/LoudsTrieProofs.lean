import Mozkey.LoudsProofs
import Mozkey.BitStreamProofs

/-! # LoudsTrie — searching a trie in LOUDS

    The trie is a tree of byte strings: the children of a string extend it by one byte.
    The terminal bits and the edge characters are indexed by the numbers of the nodes. -/

namespace MozkeyLouds

open ByteString RankSelect UnaryTree MozkeySuccinct

/-! ## The trie of the source -/

/-- The longest key. -/
def kMaxDepth : Nat := 256

/-- `LoudsTrie`. -/
structure LoudsTrie where
  louds : Louds
  terminalBitVector : SimpleSuccinctBitVectorIndex
  edgeCharacter : Bytes

namespace LoudsTrie

/-- `Open`; `none` where a `CHECK` fails, a part is negative as an `int` or not in the
    image, or an index is not built. -/
def openTrie (image : Bytes) (loudsLb0CacheSize loudsLb1CacheSize loudsSelect0CacheSize
    loudsSelect1CacheSize termvecLb1CacheSize : Nat) : Option LoudsTrie :=
  let loudsSize := headerField image 0
  let terminalSize := headerField image 1
  let numCharacterBits := headerField image 2
  let edgeCharacterSize := headerField image 3
  if numCharacterBits ≠ 8 then none
  else if ¬ toInt edgeCharacterSize > 0 then none
  else if intLimit ≤ loudsSize ∨ intLimit ≤ terminalSize
      ∨ image.length < 16 + loudsSize + terminalSize then none
  else
    let loudsImage := image.drop 16
    let terminalImage := loudsImage.drop loudsSize
    let edgeCharacter := terminalImage.drop terminalSize
    (Louds.init (loudsImage.take loudsSize) loudsLb0CacheSize loudsLb1CacheSize
        loudsSelect0CacheSize loudsSelect1CacheSize).bind (fun louds =>
      -- `Select0` is not carried out on the terminal bits
      (MozkeySuccinct.init kChunkSize (terminalImage.take terminalSize) 0
          termvecLb1CacheSize).map (fun terminalBitVector =>
        { louds := louds
          terminalBitVector := terminalBitVector
          edgeCharacter := edgeCharacter }))

variable (trie : LoudsTrie)

/-- `IsTerminalNode`. -/
def isTerminalNode (node : Node) : Bool :=
  (trie.terminalBitVector.get (node.nodeId - 1)).getD false

/-- `GetEdgeLabelToParentNode`. -/
def getEdgeLabelToParentNode (node : Node) : UInt8 := trie.edgeCharacter.getD (node.nodeId - 1) 0

/-- `GetKeyIdOfTerminalNode`. -/
def getKeyIdOfTerminalNode (node : Node) : Nat :=
  (trie.terminalBitVector.rank1 (node.nodeId - 1)).getD 0

/-- `GetTerminalNodeFromKeyId`. -/
def getTerminalNodeFromKeyId (keyId : Nat) : Node :=
  trie.louds.initNodeFromNodeId ((trie.terminalBitVector.select1 (keyId + 1)).getD 0 + 1)

/-- The loop of `MoveToChildByLabel`; `none` where it returns `false` and leaves the node
    invalid.  Every round looks at another bit of the image, so their number is fuel
    enough. -/
def moveToChildByLabelLoop (label : UInt8) : Nat → Node → Option Node
  | 0, _ => none
  | fuel + 1, node =>
    if trie.louds.isValidNode node then
      if trie.getEdgeLabelToParentNode node = label then some node
      else moveToChildByLabelLoop label fuel (Louds.moveToNextSibling node)
    else none

/-- `MoveToChildByLabel`. -/
def moveToChildByLabel (label : UInt8) (node : Node) : Option Node :=
  trie.moveToChildByLabelLoop label (8 * trie.louds.index.data.length)
    (trie.louds.moveToFirstChild node)

/-- `Traverse`. -/
def traverse : Bytes → Node → Option Node
  | [], node => some node
  | label :: key, node =>
    match trie.moveToChildByLabel label node with
    | none => none
    | some child => traverse key child

/-- `ExactSearch`; -1 where the key is missing. -/
def exactSearch (key : Bytes) : Int :=
  match trie.traverse key {} with
  | none => -1
  | some node => if trie.isTerminalNode node then trie.getKeyIdOfTerminalNode node else -1

/-- The loop of `RestoreKeyString(Node, char *)`; the buffer has room for as many bytes as
    the first argument says, and `none` is a write before its start. -/
def restoreKeyStringLoop : Nat → Node → Bytes → Option Bytes
  | room, node, filled =>
    if Louds.isRoot node then some filled
    else
      match room with
      | 0 => none
      | room + 1 => restoreKeyStringLoop room (trie.louds.moveToParent node)
          (trie.getEdgeLabelToParentNode node :: filled)

/-- `RestoreKeyString(int key_id, char *)`. -/
def restoreKeyString (keyId : Int) : Option Bytes :=
  if keyId < 0 then some []
  else trie.restoreKeyStringLoop kMaxDepth (trie.getTerminalNodeFromKeyId keyId.toNat) []

/-- The loop of `PrefixSearch` behind a prefix of length `i`: the lengths and nodes of the
    calls of the callback, in order. -/
def prefixSearchLoop : Bytes → Nat → Node → List (Nat × Node)
  | [], _, _ => []
  | label :: key, i, node =>
    match trie.moveToChildByLabel label node with
    | none => []
    | some child =>
      (if trie.isTerminalNode child then [(i + 1, child)] else [])
        ++ prefixSearchLoop key (i + 1) child

/-- `PrefixSearch`: the prefixes that are keys. -/
def prefixSearch (key : Bytes) : List (Nat × Node) := trie.prefixSearchLoop key 0 {}

end LoudsTrie

/-! ## Tables of strings -/

/-- A tree of byte strings: children extend their parent by a byte, and no string occurs
    twice. -/
structure TrieTable extends Table Bytes where
  root_eq : root = []
  child_eq : ∀ row ∈ rows, ∀ c ∈ row.2, ∃ label, c = row.1 ++ [label]
  nodup : (rows.map Prod.fst).Nodup

namespace TrieTable

variable (tt : TrieTable)

variable {p : Bytes}

theorem mem_nodes : p ∈ tt.nodes ↔ p = [] ∨ ∃ row ∈ tt.rows, p ∈ row.2 := by
  rw [Table.nodes, tt.nodes_eq, tt.root_eq, List.mem_cons, List.mem_flatMap]

theorem exists_row_append {label : UInt8} (h : p ++ [label] ∈ tt.nodes) :
    ∃ row ∈ tt.rows, row.1 = p ∧ p ++ [label] ∈ row.2 := by
  rcases tt.mem_nodes.mp h with hnil | ⟨row, hrow, hmem⟩
  · exact absurd hnil (by simp)
  · obtain ⟨label', heq⟩ := tt.child_eq row hrow _ hmem
    exact ⟨row, hrow, (List.append_inj' heq rfl).1.symm, hmem⟩

theorem mem_children {row : Bytes × List Bytes} (hrow : row ∈ tt.rows) (label : UInt8) :
    row.1 ++ [label] ∈ row.2 ↔ row.1 ++ [label] ∈ tt.nodes := by
  refine ⟨fun h => tt.mem_nodes.mpr (Or.inr ⟨row, hrow, h⟩), ?_⟩
  intro h
  obtain ⟨row', hrow', heq, hmem⟩ := tt.exists_row_append h
  rw [List.inj_on_of_nodup_map tt.nodup hrow' hrow heq] at hmem
  exact hmem

theorem mem_nodes_of_append : ∀ {rest p : Bytes}, p ++ rest ∈ tt.nodes → p ∈ tt.nodes := by
  intro rest
  induction rest with
  | nil => intro p h; rwa [List.append_nil] at h
  | cons label rest ih =>
    intro p h
    rw [List.append_cons] at h
    obtain ⟨row, hrow, rfl, -⟩ := tt.exists_row_append (ih h)
    exact List.mem_map_of_mem hrow

theorem idxOf_eq {k : Nat} (h : tt.nodes[k]? = some p) : tt.nodes.idxOf p = k := by
  obtain ⟨hlt, rfl⟩ := List.getElem?_eq_some_iff.mp h
  exact tt.nodup.idxOf_getElem k hlt

theorem getElem?_idxOf (h : p ∈ tt.nodes) :
    tt.nodes[tt.nodes.idxOf p]? = some p := by
  rw [List.getElem?_eq_getElem (List.idxOf_lt_length_of_mem h), List.getElem_idxOf]

/-- The terminal bits of a collection of words. -/
def terminalBits (words : List Bytes) : List Bool := tt.nodes.map (fun p => decide (p ∈ words))

/-- The id of a word: the number of words before it in breadth-first order. -/
def keyId (words : List Bytes) (p : Bytes) : Nat :=
  rank true (tt.terminalBits words) (tt.nodes.idxOf p)

theorem getElem?_terminalBits (words : List Bytes) {k : Nat} (h : tt.nodes[k]? = some p) :
    (tt.terminalBits words)[k]? = some (decide (p ∈ words)) := by
  rw [terminalBits, List.getElem?_map, h]
  rfl

theorem isSelect_keyId {words : List Bytes} (hnode : p ∈ tt.nodes) (hword : p ∈ words) :
    IsSelect true (tt.terminalBits words) (tt.keyId words p + 1) (tt.nodes.idxOf p) := by
  refine ⟨?_, rfl⟩
  rw [tt.getElem?_terminalBits words (tt.getElem?_idxOf hnode), decide_eq_true hword]

end TrieTable

/-! ## Representation -/

/-- The trie represents the table and its words. -/
structure Represents (trie : LoudsTrie) (tt : TrieTable) (words : List Bytes) : Prop where
  louds : Encodes trie.louds tt.toTable
  terminal : ∃ pad, bitsOf trie.terminalBitVector.data = tt.terminalBits words ++ pad
  answers : Answers trie.terminalBitVector.data trie.terminalBitVector
  label : ∀ k p, tt.nodes[k]? = some p → trie.edgeCharacter.getD k 0 = p.getLastD 0
  word_mem : ∀ w ∈ words, w ∈ tt.nodes

section Search

variable {trie : LoudsTrie} {tt : TrieTable} {words : List Bytes} (hr : Represents trie tt words)
include hr

variable {node : Node} {p : Bytes}

theorem Represents.answers_louds : Answers trie.louds.index.data trie.louds.index := by
  obtain ⟨image, _, -, hready⟩ := hr.louds.image
  rw [hready.data]
  exact hready.answers

theorem isTerminalNode_eq (h : AtNode tt.toTable node p) :
    trie.isTerminalNode node = decide (p ∈ words) := by
  obtain ⟨pad, hbits⟩ := hr.terminal
  have hbit := tt.getElem?_terminalBits words h.path
  have hlt := (List.getElem?_eq_some_iff.mp hbit).1
  rw [LoudsTrie.isTerminalNode, get_eq, hbits, List.getElem?_append_left hlt, hbit,
    Option.getD_some]

theorem getKeyIdOfTerminalNode_eq (h : AtNode tt.toTable node p) :
    trie.getKeyIdOfTerminalNode node = tt.keyId words p := by
  obtain ⟨pad, hbits⟩ := hr.terminal
  have hlt := (List.getElem?_eq_some_iff.mp (tt.getElem?_terminalBits words h.path)).1
  have hlen := congrArg List.length hbits
  rw [length_bitsOf, List.length_append] at hlen
  rw [LoudsTrie.getKeyIdOfTerminalNode, hr.answers.rank1 _ (by omega), Option.getD_some, hbits,
    rank_append_left (Nat.le_of_lt hlt), TrieTable.keyId, tt.idxOf_eq h.path]

theorem atNode_getTerminalNodeFromKeyId (h : p ∈ words) :
    AtNode tt.toTable (trie.getTerminalNodeFromKeyId (tt.keyId words p)) p := by
  obtain ⟨pad, hbits⟩ := hr.terminal
  have hsel := (tt.isSelect_keyId (hr.word_mem p h) h).append pad
  rw [← hbits] at hsel
  obtain ⟨q, hq, hselect⟩ := hr.answers.select1 _ hsel.pos hsel.le_count
  rw [LoudsTrie.getTerminalNodeFromKeyId, hq, Option.getD_some, hselect.unique hsel]
  exact atNode_initNodeFromNodeId hr.louds (tt.getElem?_idxOf (hr.word_mem p h))

theorem getEdgeLabelToParentNode_eq {label : UInt8} (h : AtNode tt.toTable node (p ++ [label])) :
    trie.getEdgeLabelToParentNode node = label := by
  rw [LoudsTrie.getEdgeLabelToParentNode, hr.label _ _ h.path, List.getLastD_eq_getLast?,
    List.getLast?_concat]
  rfl

/-! ## Moving by labels -/

omit hr in
/-- A search leads to a path: it stands on it, or there is no such node. -/
def Leads (tt : TrieTable) (p : Bytes) : Option Node → Prop
  | some node => AtNode tt.toTable node p
  | none => p ∉ tt.nodes

/-- **THE SCAN OF THE SIBLINGS** from the child `j` on finds the child with the label. -/
theorem moveToChildByLabelLoop_spec {k : Nat} {cs : List Bytes} (label : UInt8)
    (hrow : tt.rows[k]? = some (p, cs)) : ∀ (fuel j : Nat), j ≤ cs.length → cs.length < fuel + j →
    (∀ node, trie.moveToChildByLabelLoop label fuel
        { edgeIndex := blockStart tt.degrees (k + 1) + j
          nodeId := (tt.degrees.take (k + 1)).sum + j + 1 } = some node →
      AtNode tt.toTable node (p ++ [label])) ∧
    (trie.moveToChildByLabelLoop label fuel
        { edgeIndex := blockStart tt.degrees (k + 1) + j
          nodeId := (tt.degrees.take (k + 1)).sum + j + 1 } = none →
      p ++ [label] ∉ cs.drop j) := by
  intro fuel
  induction fuel with
  | zero => intro j hle hlt; omega
  | succ fuel ih =>
    intro j hle hlt
    rw [LoudsTrie.moveToChildByLabelLoop, isValidNode_child hr.louds hrow hle]
    by_cases hj : j < cs.length
    · rw [decide_eq_true hj, if_pos rfl]
      have hchild := atNode_child hrow (List.getElem?_eq_getElem hj)
      obtain ⟨label', hlabel⟩ := tt.child_eq _ (List.mem_of_getElem? hrow) _
        (List.getElem_mem hj)
      dsimp only at hchild hlabel
      rw [hlabel] at hchild
      rw [getEdgeLabelToParentNode_eq hr hchild]
      by_cases heq : label' = label
      · rw [if_pos heq]
        rw [heq] at hchild
        exact ⟨fun node h => Option.some.inj h ▸ hchild, fun h => (nomatch h)⟩
      · rw [if_neg heq]
        obtain ⟨hsome, hnone⟩ := ih (j + 1) hj (by omega)
        refine ⟨hsome, ?_⟩
        intro h
        rw [List.drop_eq_getElem_cons hj, List.mem_cons, hlabel]
        rintro (hhead | htail)
        · exact heq (List.singleton_injective (List.append_cancel_left hhead)).symm
        · exact hnone h htail
    · rw [decide_eq_false hj, if_neg Bool.false_ne_true]
      refine ⟨fun node h => (nomatch h), fun _ => ?_⟩
      rw [List.drop_of_length_le (Nat.le_of_not_lt hj)]
      exact List.not_mem_nil

/-- **MOVING BY A LABEL** leads to the string extended by it. -/
theorem moveToChildByLabel_leads (label : UInt8) (h : AtNode tt.toTable node p) :
    Leads tt (p ++ [label]) (trie.moveToChildByLabel label node) := by
  obtain ⟨cs, hrow⟩ := tt.exists_row h.path
  have hpos := h.pos
  have hfuel := degree_lt hr.louds hrow
  obtain ⟨hsome, hnone⟩ := moveToChildByLabelLoop_spec hr label hrow
    (8 * trie.louds.index.data.length) 0 (Nat.zero_le _) hfuel
  rw [LoudsTrie.moveToChildByLabel, moveToFirstChild_eq hr.louds h]
  rw [Nat.sub_add_cancel hpos] at hsome hnone
  cases hmove : trie.moveToChildByLabelLoop label (8 * trie.louds.index.data.length)
      { edgeIndex := blockStart tt.degrees node.nodeId
        nodeId := (tt.degrees.take node.nodeId).sum + 1 } with
  | some child => exact hsome child hmove
  | none =>
    have := hnone hmove
    rw [List.drop_zero] at this
    exact fun hmem => this ((tt.mem_children (List.mem_of_getElem? hrow) label).mpr hmem)

/-- **TRAVERSING A KEY** leads to the string extended by it. -/
theorem traverse_leads : ∀ (key : Bytes) {node : Node} {p : Bytes}, AtNode tt.toTable node p →
    Leads tt (p ++ key) (trie.traverse key node) := by
  intro key
  induction key with
  | nil =>
    intro node p h
    rw [List.append_nil]
    exact h
  | cons label key ih =>
    intro node p h
    have hmove := moveToChildByLabel_leads hr label h
    rw [LoudsTrie.traverse, List.append_cons]
    cases hchild : trie.moveToChildByLabel label node with
    | none =>
      rw [hchild] at hmove
      exact fun hmem => hmove (tt.mem_nodes_of_append hmem)
    | some child =>
      rw [hchild] at hmove
      exact ih hmove

omit hr in
theorem atNode_trieRoot : AtNode tt.toTable {} [] := by
  have h := atNode_root (t := tt.toTable)
  rw [tt.root_eq] at h
  exact h

/-- **`ExactSearch`** returns the id of a word, and -1 for any other string. -/
theorem exactSearch_eq (key : Bytes) :
    trie.exactSearch key = if key ∈ words then (tt.keyId words key : Int) else -1 := by
  have hlead := traverse_leads hr key atNode_trieRoot
  rw [List.nil_append] at hlead
  rw [LoudsTrie.exactSearch]
  cases hnode : trie.traverse key {} with
  | none =>
    rw [hnode] at hlead
    rw [if_neg (fun h => hlead (hr.word_mem key h))]
  | some node =>
    rw [hnode] at hlead
    dsimp only
    rw [isTerminalNode_eq hr hlead]
    by_cases hword : key ∈ words
    · rw [if_pos (decide_eq_true hword), if_pos hword, getKeyIdOfTerminalNode_eq hr hlead]
    · rw [if_neg (by rw [decide_eq_false hword]; exact Bool.false_ne_true), if_neg hword]

/-! ## Climbing -/

/-- **CLIMBING SPELLS THE PATH** as long as it fits the buffer. -/
theorem restoreKeyStringLoop_eq : ∀ (room : Nat) {node : Node} {p : Bytes} (filled : Bytes),
    AtNode tt.toTable node p → p.length ≤ room →
    trie.restoreKeyStringLoop room node filled = some (p ++ filled) := by
  intro room
  induction room with
  | zero =>
    intro node p filled h hle
    have hp : p = [] := List.eq_nil_of_length_eq_zero (Nat.le_zero.mp hle)
    have hid : node.nodeId = 1 := by
      have h1 := tt.idxOf_eq h.path
      have h2 := tt.idxOf_eq (atNode_trieRoot).path
      rw [hp, h2] at h1
      have := h.pos
      change 1 - 1 = _ at h1
      omega
    rw [LoudsTrie.restoreKeyStringLoop, if_pos (by rw [Louds.isRoot, hid]; rfl), hp]
    rfl
  | succ room ih =>
    intro node p filled h hle
    rw [LoudsTrie.restoreKeyStringLoop]
    by_cases hid : node.nodeId = 1
    · have hp : p = [] := by
        have h1 := h.path
        rw [hid] at h1
        exact Option.some.inj (h1.symm.trans (atNode_trieRoot).path)
      rw [if_pos (by rw [Louds.isRoot, hid]; rfl), hp]
      rfl
    · rw [if_neg (by rw [Louds.isRoot]; exact fun h => hid (beq_iff_eq.mp h))]
      obtain ⟨row, hrow, hmem, hparent⟩ := atNode_moveToParent hr.louds h hid
      obtain ⟨label, rfl⟩ := tt.child_eq row hrow p hmem
      rw [getEdgeLabelToParentNode_eq hr h]
      rw [List.length_append, List.length_singleton] at hle
      rw [ih _ hparent (by omega), List.append_assoc]
      rfl

/-- **`RestoreKeyString` INVERTS THE IDS.** -/
theorem restoreKeyString_eq {w : Bytes} (hword : w ∈ words) (hdepth : w.length ≤ kMaxDepth) :
    trie.restoreKeyString (tt.keyId words w) = some w := by
  rw [LoudsTrie.restoreKeyString, if_neg (by omega), Int.toNat_natCast,
    restoreKeyStringLoop_eq hr kMaxDepth [] (atNode_getTerminalNodeFromKeyId hr hword) hdepth,
    List.append_nil]

/-! ## Prefixes -/

/-- The words among the prefixes of a key behind a given prefix, by length. -/
theorem prefixSearchLoop_eq : ∀ (key : Bytes) {p : Bytes} {node : Node},
    AtNode tt.toTable node p →
    (trie.prefixSearchLoop key p.length node).map
        (fun call => (call.1, trie.getKeyIdOfTerminalNode call.2))
      = ((List.range key.length).filter (fun n => p ++ key.take (n + 1) ∈ words)).map
          (fun n => (p.length + n + 1, tt.keyId words (p ++ key.take (n + 1)))) := by
  intro key
  induction key with
  | nil => intro p node _; rfl
  | cons label key ih =>
    intro p node h
    have hmove := moveToChildByLabel_leads hr label h
    -- the prefixes behind the first byte
    have htake : ∀ n, p ++ (label :: key).take (n + 1 + 1)
        = (p ++ [label]) ++ key.take (n + 1) := by
      intro n
      rw [List.take_succ_cons, List.append_cons]
    have hone : p ++ (label :: key).take (0 + 1) = p ++ [label] := by
      rw [List.take_succ_cons, List.take_zero]
    have hrange : (List.range (label :: key).length)
        = 0 :: (List.range key.length).map (· + 1) := List.range_succ_eq_map
    rw [LoudsTrie.prefixSearchLoop, hrange]
    cases hchild : trie.moveToChildByLabel label node with
    | none =>
      rw [hchild] at hmove
      have hnone : (0 :: (List.range key.length).map (· + 1)).filter
          (fun n => p ++ (label :: key).take (n + 1) ∈ words) = [] := by
        refine List.filter_eq_nil_iff.mpr ?_
        intro n _ hword
        have hmem := hr.word_mem _ (of_decide_eq_true hword)
        rw [List.take_succ_cons, List.append_cons] at hmem
        exact hmove (tt.mem_nodes_of_append hmem)
      rw [hnone]
      rfl
    | some child =>
      rw [hchild] at hmove
      have hih := ih hmove
      rw [List.length_append, List.length_singleton] at hih
      dsimp only
      rw [List.map_append, hih, List.filter_cons, hone, isTerminalNode_eq hr hmove,
        List.filter_map, Function.comp_def]
      simp only [htake]
      by_cases hword : p ++ [label] ∈ words
      · rw [if_pos (decide_eq_true hword), if_pos (decide_eq_true hword)]
        conv_rhs => rw [List.map_cons, List.map_map, hone]
        show (p.length + 1, _) :: _ = _
        rw [getKeyIdOfTerminalNode_eq hr hmove]
        refine congrArg _ (List.map_congr_left ?_)
        intro n _
        show _ = (p.length + (n + 1) + 1, _)
        rw [htake, Nat.add_right_comm p.length 1 n]
        rfl
      · have hfalse : ¬ decide (p ++ [label] ∈ words) = true := by
          rw [decide_eq_false hword]
          exact Bool.false_ne_true
        rw [if_neg hfalse, if_neg hfalse, List.map_map]
        refine List.map_congr_left ?_
        intro n _
        show _ = (p.length + (n + 1) + 1, _)
        rw [htake, Nat.add_right_comm p.length 1 n]
        rfl

/-- **`PrefixSearch`** reports the words among the non-empty prefixes of the key, in
    increasing length, each with its id. -/
theorem prefixSearch_eq (key : Bytes) :
    (trie.prefixSearch key).map (fun call => (call.1, trie.getKeyIdOfTerminalNode call.2))
      = ((List.range key.length).filter (fun n => key.take (n + 1) ∈ words)).map
          (fun n => (n + 1, tt.keyId words (key.take (n + 1)))) := by
  have h := prefixSearchLoop_eq hr key atNode_trieRoot
  simp only [List.length_nil, Nat.zero_add, List.nil_append] at h
  exact h

end Search

end MozkeyLouds
