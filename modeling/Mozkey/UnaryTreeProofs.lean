import Mozkey.RankSelectProofs

/-! # Trees as unary degree sequences

    A tree is a table of its nodes in breadth-first order, each with the list of its
    children: the nodes are the root followed by all children.  Its degree sequence,
    with a super-root of degree one in front, is written in unary: a node with `d`
    children is `1^d 0`.

    * `Table.child` and `Table.parent` — children and parents in the table by number. -/

namespace UnaryTree

open RankSelect

/-- A degree sequence in unary. -/
def unary (degrees : List Nat) : List Bool :=
  degrees.flatMap (fun d => List.replicate d true ++ [false])

/-- Where the block of the entry `i` starts. -/
def blockStart (degrees : List Nat) (i : Nat) : Nat := (degrees.take i).sum + i

theorem unary_append (a b : List Nat) : unary (a ++ b) = unary a ++ unary b :=
  List.flatMap_append

theorem length_unary (degrees : List Nat) :
    (unary degrees).length = degrees.sum + degrees.length := by
  induction degrees with
  | nil => rfl
  | cons d rest ih =>
    rw [unary, List.flatMap_cons, List.length_append, List.length_append,
      List.length_replicate, List.length_singleton, List.sum_cons, List.length_cons]
    rw [unary] at ih
    rw [ih]
    omega

theorem count_true_unary (degrees : List Nat) : (unary degrees).count true = degrees.sum := by
  induction degrees with
  | nil => rfl
  | cons d rest ih =>
    rw [unary, List.flatMap_cons, List.count_append, List.count_append, List.count_replicate_self,
      List.sum_cons]
    rw [unary] at ih
    rw [ih]
    rfl

theorem count_false_unary (degrees : List Nat) :
    (unary degrees).count false = degrees.length := by
  induction degrees with
  | nil => rfl
  | cons d rest ih =>
    have hzero : (List.replicate d true).count false = 0 :=
      List.count_eq_zero.mpr (fun h => nomatch List.eq_of_mem_replicate h)
    rw [unary, List.flatMap_cons, List.count_append, List.count_append, hzero, List.length_cons]
    rw [unary] at ih
    rw [ih, Nat.add_comm]
    rfl

theorem isSelect_append_cons (b : Bool) (front rest : List Bool) :
    IsSelect b (front ++ b :: rest) (front.count b + 1) front.length := by
  refine ⟨?_, ?_⟩
  · rw [List.getElem?_append_right (Nat.le_refl _), Nat.sub_self]
    rfl
  · rw [rank_append_left (Nat.le_refl _), rank_of_length_le (Nat.le_refl _)]

variable {i d : Nat}

theorem unary_split {degrees : List Nat} (h : degrees[i]? = some d) :
    unary degrees = unary (degrees.take i) ++ (List.replicate d true ++ [false])
      ++ unary (degrees.drop (i + 1)) := by
  obtain ⟨hlt, rfl⟩ := List.getElem?_eq_some_iff.mp h
  conv_lhs => rw [← List.take_append_drop i degrees, List.drop_eq_getElem_cons hlt]
  rw [unary_append, List.append_assoc]
  rfl

theorem length_unary_take {degrees : List Nat} (h : i ≤ degrees.length) :
    (unary (degrees.take i)).length = blockStart degrees i := by
  rw [length_unary, List.length_take, Nat.min_eq_left h, blockStart]

theorem blockStart_succ {degrees : List Nat} (h : degrees[i]? = some d) :
    blockStart degrees (i + 1) = blockStart degrees i + d + 1 := by
  obtain ⟨hlt, rfl⟩ := List.getElem?_eq_some_iff.mp h
  rw [blockStart, blockStart, List.sum_take_succ _ _ hlt]
  omega

/-- **THE 0-BIT BEFORE A BLOCK.**  The `i`-th 0-bit ends the block before that of the
    entry `i`. -/
theorem isSelect_false_blockStart {degrees : List Nat} (h : i < degrees.length) :
    IsSelect false (unary degrees) (i + 1) (blockStart degrees (i + 1) - 1) := by
  have hget : degrees[i]? = some degrees[i] := List.getElem?_eq_getElem h
  have hzero : (List.replicate degrees[i] true).count false = 0 :=
    List.count_eq_zero.mpr (fun h => nomatch List.eq_of_mem_replicate h)
  have hcount : (unary (degrees.take i) ++ List.replicate degrees[i] true).count false = i := by
    rw [List.count_append, count_false_unary, hzero, List.length_take]
    omega
  have hlen : (unary (degrees.take i) ++ List.replicate degrees[i] true).length
      = blockStart degrees (i + 1) - 1 := by
    rw [List.length_append, length_unary_take (Nat.le_of_lt h), List.length_replicate,
      blockStart_succ hget, Nat.add_sub_cancel]
  have hsel := isSelect_append_cons false
    (unary (degrees.take i) ++ List.replicate degrees[i] true)
    (unary (degrees.drop (i + 1)))
  rw [hcount, hlen] at hsel
  rw [unary_split hget]
  simpa only [List.append_assoc, List.cons_append, List.nil_append] using hsel

variable {j : Nat}

/-- **THE 1-BITS OF A BLOCK** have consecutive numbers. -/
theorem isSelect_true_child {degrees : List Nat} (h : degrees[i]? = some d) (hj : j < d) :
    IsSelect true (unary degrees) ((degrees.take i).sum + j + 1) (blockStart degrees i + j) := by
  have hi : i ≤ degrees.length := Nat.le_of_lt (List.getElem?_eq_some_iff.mp h).1
  obtain ⟨k, hk⟩ : ∃ k, d = j + (k + 1) := ⟨d - j - 1, by omega⟩
  have hcount : (unary (degrees.take i) ++ List.replicate j true).count true
      = (degrees.take i).sum + j := by
    rw [List.count_append, count_true_unary, List.count_replicate_self]
  have hlen : (unary (degrees.take i) ++ List.replicate j true).length
      = blockStart degrees i + j := by
    rw [List.length_append, length_unary_take hi, List.length_replicate]
  have hsel := isSelect_append_cons true
    (unary (degrees.take i) ++ List.replicate j true)
    (List.replicate k true ++ [false] ++ unary (degrees.drop (i + 1)))
  rw [hcount, hlen] at hsel
  rw [unary_split h, hk, ← List.replicate_append_replicate, List.replicate_succ]
  simpa only [List.append_assoc, List.cons_append] using hsel

theorem getElem?_blockEnd {degrees : List Nat} (h : degrees[i]? = some d) :
    (unary degrees)[blockStart degrees i + d]? = some false := by
  have hlt := (List.getElem?_eq_some_iff.mp h).1
  have hsel := (isSelect_false_blockStart hlt).1
  rw [blockStart_succ h, Nat.add_sub_cancel] at hsel
  exact hsel

/-! ## Tables -/

/-- The nodes of a tree in breadth-first order, with their children. -/
structure Table (ν : Type) where
  root : ν
  rows : List (ν × List ν)
  nodes_eq : rows.map Prod.fst = root :: rows.flatMap Prod.snd

variable {ν : Type}

variable {k : Nat} {row : ν × List ν}

theorem flatMap_split {rows : List (ν × List ν)} (h : rows[k]? = some row) :
    rows.flatMap Prod.snd
      = (rows.take k).flatMap Prod.snd ++ (row.2 ++ (rows.drop (k + 1)).flatMap Prod.snd) := by
  obtain ⟨hlt, rfl⟩ := List.getElem?_eq_some_iff.mp h
  conv_lhs => rw [← List.take_append_drop k rows, List.drop_eq_getElem_cons hlt]
  rw [List.flatMap_append, List.flatMap_cons]

theorem getElem?_flatMap {rows : List (ν × List ν)} (h : rows[k]? = some row)
    (hj : j < row.2.length) :
    (rows.flatMap Prod.snd)[((rows.map (fun r => r.2.length)).take k).sum + j]? = row.2[j]? := by
  have hlen : ((rows.take k).flatMap Prod.snd).length
      = ((rows.map (fun r => r.2.length)).take k).sum := by
    rw [List.length_flatMap, List.map_take]
  rw [flatMap_split h, ← hlen, List.getElem?_append_right (Nat.le_add_right _ _),
    Nat.add_sub_cancel_left, List.getElem?_append_left hj]

theorem exists_row_of_getElem? : ∀ {rows : List (ν × List ν)} {n : Nat} {c : ν},
    (rows.flatMap Prod.snd)[n]? = some c →
    ∃ k row j, rows[k]? = some row ∧ row.2[j]? = some c ∧
      n = ((rows.map (fun r => r.2.length)).take k).sum + j := by
  intro rows
  induction rows with
  | nil => intro n c h; exact nomatch h
  | cons row rows ih =>
    intro n c h
    rw [List.flatMap_cons] at h
    by_cases hn : n < row.2.length
    · rw [List.getElem?_append_left hn] at h
      exact ⟨0, row, n, rfl, h, (Nat.zero_add n).symm⟩
    · rw [List.getElem?_append_right (Nat.le_of_not_lt hn)] at h
      obtain ⟨k, row', j, hk, hj, heq⟩ := ih h
      refine ⟨k + 1, row', j, hk, hj, ?_⟩
      rw [List.map_cons, List.take_succ_cons, List.sum_cons]
      omega

namespace Table

/-- The nodes in breadth-first order. -/
def nodes (t : Table ν) : List ν := t.rows.map Prod.fst

/-- The degrees in breadth-first order, behind the super-root. -/
def degrees (t : Table ν) : List Nat := 1 :: t.rows.map (fun r => r.2.length)

/-- The sequence of the tree. -/
def bits (t : Table ν) : List Bool := unary t.degrees

variable (t : Table ν)

theorem getElem?_nodes (h : t.rows[k]? = some row) :
    t.nodes[k]? = some row.1 := by
  rw [nodes, List.getElem?_map, h]
  rfl

theorem getElem?_degrees (h : t.rows[k]? = some row) :
    t.degrees[k + 1]? = some row.2.length := by
  rw [degrees, List.getElem?_cons_succ, List.getElem?_map, h]
  rfl

theorem sum_take_degrees (k : Nat) :
    (t.degrees.take (k + 1)).sum = ((t.rows.map (fun r => r.2.length)).take k).sum + 1 := by
  rw [degrees, List.take_succ_cons, List.sum_cons, Nat.add_comm]

/-- **CHILDREN BY NUMBER.**  The child `j` of the node `k` has the number of its 1-bit. -/
theorem child {c : ν} (h : t.rows[k]? = some row) (hj : row.2[j]? = some c) :
    t.nodes[(t.degrees.take (k + 1)).sum + j]? = some c := by
  rw [sum_take_degrees, nodes, t.nodes_eq, Nat.add_right_comm, List.getElem?_cons_succ,
    getElem?_flatMap h (List.getElem?_eq_some_iff.mp hj).1, hj]

/-- **PARENTS BY NUMBER.**  Every node but the root is a child of some row. -/
theorem parent {n : Nat} {c : ν} (h : t.nodes[n + 1]? = some c) :
    ∃ k row j, t.rows[k]? = some row ∧ row.2[j]? = some c ∧
      n + 1 = (t.degrees.take (k + 1)).sum + j := by
  rw [nodes, t.nodes_eq, List.getElem?_cons_succ] at h
  obtain ⟨k, row, j, hk, hj, hn⟩ := exists_row_of_getElem? h
  refine ⟨k, row, j, hk, hj, ?_⟩
  rw [sum_take_degrees]
  omega

theorem getElem?_nodes_zero : t.nodes[0]? = some t.root := by
  rw [nodes, t.nodes_eq]
  rfl

theorem exists_row {p : ν} (h : t.nodes[k]? = some p) :
    ∃ cs, t.rows[k]? = some (p, cs) := by
  rw [nodes, List.getElem?_map] at h
  obtain ⟨⟨q, cs⟩, hrow, rfl⟩ := Option.map_eq_some_iff.mp h
  exact ⟨cs, hrow⟩

end Table

end UnaryTree
