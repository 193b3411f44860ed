import Mozkey.BreadthFirstProofs
import Mozkey.KeyExpansionProofs

/-! # SystemDictionary — the nodes of a predictive lookup

    `CollectPredictiveNodesInBfsOrder` goes through the key trie with a queue: along the
    encoded key with every label that the expansion table allows, and then through everything
    below.  It stops at the length at which it has more terminal nodes than the limit. -/

namespace MozkeyDictionary

open ByteString OrderedMap MozkeyUtil MozkeyLouds UnaryTree

/-! ## The search of the source -/

/-- `PredictiveLookupSearchState`. -/
structure PredictiveLookupSearchState where
  node : Node := {}
  keyPos : Nat := 0
  numExpanded : Nat := 0

section

variable (trie : LoudsTrie) (encodedKey : Bytes) (table : KeyExpansionTable)

/-- The loop of `CollectPredictiveNodesInBfsOrder` that empties the queue. -/
def drainQueue (maxKeyLen : Nat) :
    List PredictiveLookupSearchState → List PredictiveLookupSearchState
  | [] => []
  | state :: queue =>
    if state.keyPos > maxKeyLen then []
    else
      (if trie.isTerminalNode state.node then [state] else []) ++ drainQueue maxKeyLen queue

/-- The states that follow one along the encoded key. -/
def expandedStates (targetChar : UInt8) (state : PredictiveLookupSearchState) :
    List PredictiveLookupSearchState :=
  (children trie state.node).filterMap (fun node =>
    let c := trie.getEdgeLabelToParentNode node
    if table.isHit targetChar c = false then none
    else
      some
        { node := node
          keyPos := state.keyPos + 1
          numExpanded := state.numExpanded + (if c ≠ targetChar then 1 else 0) })

/-- The states that follow one behind the encoded key. -/
def childStates (state : PredictiveLookupSearchState) : List PredictiveLookupSearchState :=
  (children trie state.node).map (fun node =>
    { node := node, keyPos := state.keyPos + 1, numExpanded := state.numExpanded })

/-- The loop of `CollectPredictiveNodesInBfsOrder`; `none` where the fuel does not do. -/
def bfsLoop (limit : Nat) : Nat → List PredictiveLookupSearchState →
    List PredictiveLookupSearchState → Option (List PredictiveLookupSearchState)
  | 0, _, _ => none
  | _ + 1, [], result => some result
  | fuel + 1, state :: queue, result =>
    match encodedKey[state.keyPos]? with
    | some targetChar =>
      bfsLoop limit fuel (queue ++ expandedStates trie table targetChar state) result
    | none =>
      let result := if trie.isTerminalNode state.node then result ++ [state] else result
      if result.length > limit then some (result ++ drainQueue trie state.keyPos queue)
      else bfsLoop limit fuel (queue ++ childStates trie state) result

/-- `CollectPredictiveNodesInBfsOrder`. -/
def collectPredictiveNodesInBfsOrder (limit fuel : Nat) :
    Option (List PredictiveLookupSearchState) :=
  bfsLoop trie encodedKey table limit fuel [{}] []

end

/-! ## The search of the paths -/

/-- The number of bytes in which a path differs from the key that it is matched with. -/
def differing (key path : Bytes) : Nat := (key.zip path).countP (fun x => decide (x.1 ≠ x.2))

theorem differing_concat (c : UInt8) : ∀ (path key : Bytes),
    differing key (path ++ [c]) = differing key path +
      match key[path.length]? with
      | some k => if c ≠ k then 1 else 0
      | none => 0 := by
  intro path
  induction path with
  | nil =>
    intro key
    cases key with
    | nil => rfl
    | cons k key =>
      have hiff : decide (k ≠ c) = true ↔ c ≠ k := by rw [decide_eq_true_iff, ne_comm]
      rw [List.nil_append, differing, differing, List.zip_cons_cons, List.zip_nil_right,
        List.countP_cons, List.countP_nil, List.zip_nil_right, List.countP_nil]
      exact congrArg (0 + ·) (if_congr hiff rfl rfl)
  | cons x path ih =>
    intro key
    cases key with
    | nil => rfl
    | cons k key =>
      have hih := ih key
      rw [differing, differing] at hih ⊢
      rw [List.cons_append, List.zip_cons_cons, List.zip_cons_cons, List.countP_cons,
        List.countP_cons, hih, List.length_cons, List.getElem?_cons_succ]
      omega

/-- The children of a path in the trie. -/
def rowOf (tt : TrieTable) (path : Bytes) : List Bytes :=
  ((tt.rows.find? (fun row => decide (row.1 = path))).map Prod.snd).getD []

/-- The paths that the search goes on to. -/
def nextPaths (tt : TrieTable) (encodedKey : Bytes) (table : KeyExpansionTable) (path : Bytes) :
    List Bytes :=
  match encodedKey[path.length]? with
  | some targetChar =>
    (rowOf tt path).filter (fun child => table.isHit targetChar (child.getLastD 0))
  | none => rowOf tt path

/-- The paths that the search collects. -/
def isCollected (words : List Bytes) (encodedKey path : Bytes) : Bool :=
  decide (encodedKey.length ≤ path.length ∧ path ∈ words)

section

variable {tt : TrieTable}

theorem rowOf_eq {k : Nat} {path : Bytes} {cs : List Bytes}
    (hrow : tt.rows[k]? = some (path, cs)) : rowOf tt path = cs := by
  have hmem := List.mem_of_getElem? hrow
  have hfind : ∃ row, tt.rows.find? (fun row => decide (row.1 = path)) = some row :=
    Option.isSome_iff_exists.mp (List.find?_isSome.mpr ⟨_, hmem, by simp⟩)
  obtain ⟨row, hfind⟩ := hfind
  have hpath : row.1 = path := by simpa using List.find?_some hfind
  have hsame : row = (path, cs) :=
    List.inj_on_of_nodup_map tt.nodup (List.mem_of_find?_eq_some hfind) hmem hpath
  rw [rowOf, hfind, hsame]
  rfl

/-- A child of a path is one byte longer, and there is a row for it. -/
theorem mem_rowOf {path child : Bytes} (h : child ∈ rowOf tt path) :
    (∃ label, child = path ++ [label]) ∧ child ∈ tt.nodes := by
  rw [rowOf] at h
  cases hfind : tt.rows.find? (fun row => decide (row.1 = path)) with
  | none => rw [hfind] at h; exact absurd h List.not_mem_nil
  | some row =>
    have hpath : row.1 = path := by simpa using List.find?_some hfind
    have hmem := List.mem_of_find?_eq_some hfind
    rw [hfind] at h
    obtain ⟨label, hlabel⟩ := tt.child_eq row hmem child h
    exact ⟨⟨label, hpath ▸ hlabel⟩, tt.mem_nodes.mpr (Or.inr ⟨row, hmem, h⟩)⟩

theorem append_mem_rowOf {path : Bytes} {label : UInt8} (h : path ++ [label] ∈ tt.nodes) :
    path ++ [label] ∈ rowOf tt path := by
  obtain ⟨row, hrow, rfl, hmem⟩ := tt.exists_row_append h
  obtain ⟨k, hk⟩ := List.getElem?_of_mem hrow
  rw [rowOf_eq hk]
  exact hmem

theorem nodup_rowOf (path : Bytes) : (rowOf tt path).Nodup := by
  have hnodes := tt.nodup
  rw [tt.nodes_eq, List.nodup_cons, List.nodup_flatMap] at hnodes
  rw [rowOf]
  cases hfind : tt.rows.find? (fun row => decide (row.1 = path)) with
  | none => exact List.nodup_nil
  | some row => exact hnodes.2.1 row (List.mem_of_find?_eq_some hfind)

variable (encodedKey : Bytes) (table : KeyExpansionTable)

theorem mem_nextPaths {path child : Bytes} :
    child ∈ nextPaths tt encodedKey table path ↔ child ∈ rowOf tt path ∧
      ∀ targetChar, encodedKey[path.length]? = some targetChar →
        table.isHit targetChar (child.getLastD 0) = true := by
  rw [nextPaths]
  cases encodedKey[path.length]? with
  | none => simp
  | some targetChar => simp

/-- **THE PATHS** are a tree by their lengths. -/
theorem isTree_nextPaths : BreadthFirst.IsTree (nextPaths tt encodedKey table) List.length where
  depth_expand := by
    intro path child h
    obtain ⟨⟨label, rfl⟩, -⟩ := mem_rowOf ((mem_nextPaths encodedKey table).mp h).1
    rw [List.length_append, List.length_singleton]
  parent_unique := by
    intro path path' child h h'
    obtain ⟨⟨label, rfl⟩, -⟩ := mem_rowOf ((mem_nextPaths encodedKey table).mp h).1
    obtain ⟨⟨label', heq⟩, -⟩ := mem_rowOf ((mem_nextPaths encodedKey table).mp h').1
    exact (List.append_inj' heq rfl).1
  nodup_expand := by
    intro path
    rw [nextPaths]
    split
    · exact (nodup_rowOf path).filter _
    · exact nodup_rowOf path

end

/-- A path that follows the key by the table, as far as both go. -/
def FollowsKey (table : KeyExpansionTable) (key path : Bytes) : Prop :=
  ∀ (i : Nat) (k c : UInt8), key[i]? = some k → path[i]? = some c → table.isHit k c = true

/-- A path that starts with an expansion of the key. -/
def Expands (table : KeyExpansionTable) (key path : Bytes) : Prop :=
  ∃ expanded, expanded <+: path ∧
    List.Forall₂ (fun k c => table.isHit k c = true) key expanded

theorem expands_iff {table : KeyExpansionTable} {key path : Bytes} :
    Expands table key path ↔ key.length ≤ path.length ∧ FollowsKey table key path := by
  constructor
  · rintro ⟨expanded, ⟨rest, rfl⟩, hhits⟩
    refine ⟨?_, ?_⟩
    · rw [hhits.length_eq, List.length_append]
      exact Nat.le_add_right _ _
    · intro i k c hk hc
      obtain ⟨hi, rfl⟩ := List.getElem?_eq_some_iff.mp hk
      have hi' : i < expanded.length := hhits.length_eq ▸ hi
      rw [List.getElem?_append_left hi', List.getElem?_eq_getElem hi'] at hc
      rw [← Option.some.inj hc]
      exact List.Forall₂.get hhits hi hi'
  · rintro ⟨hlen, hfollows⟩
    refine ⟨path.take key.length, List.take_prefix _ _, ?_⟩
    refine List.forall₂_iff_get.mpr ⟨by rw [List.length_take]; omega, ?_⟩
    intro i hi hi'
    refine hfollows i _ _ (List.getElem?_eq_getElem hi) ?_
    rw [List.length_take] at hi'
    rw [List.get_eq_getElem, List.getElem_take, List.getElem?_eq_getElem]

theorem follows_concat {table : KeyExpansionTable} {key path : Bytes} {label : UInt8} :
    FollowsKey table key (path ++ [label]) ↔ FollowsKey table key path ∧
      ∀ k, key[path.length]? = some k → table.isHit k label = true := by
  constructor
  · intro h
    refine ⟨?_, ?_⟩
    · intro i k c hk hc
      refine h i k c hk ?_
      rw [List.getElem?_append_left (List.getElem?_eq_some_iff.mp hc).1]
      exact hc
    · intro k hk
      exact h path.length k label hk List.getElem?_concat_length
  · rintro ⟨hfollows, hlabel⟩ i k c hk hc
    by_cases hi : i < path.length
    · rw [List.getElem?_append_left hi] at hc
      exact hfollows i k c hk hc
    · have hlt := (List.getElem?_eq_some_iff.mp hc).1
      rw [List.length_append, List.length_singleton] at hlt
      obtain rfl : i = path.length := by omega
      rw [List.getElem?_concat_length] at hc
      rw [← Option.some.inj hc]
      exact hlabel k hk

/-- **THE SEARCH COMES** to the paths of the trie that follow the key. -/
theorem mem_reach {tt : TrieTable} {encodedKey : Bytes} {table : KeyExpansionTable} {path : Bytes} :
    Relation.ReflTransGen (fun a b => b ∈ nextPaths tt encodedKey table a) [] path ↔
      path ∈ tt.nodes ∧ FollowsKey table encodedKey path := by
  constructor
  · intro h
    induction h with
    | refl =>
      refine ⟨tt.mem_nodes.mpr (Or.inl rfl), ?_⟩
      intro i k c _ hc
      rw [List.getElem?_nil] at hc
      cases hc
    | tail _ hstep ih =>
      obtain ⟨hrow, hhit⟩ := (mem_nextPaths encodedKey table).mp hstep
      obtain ⟨⟨label, rfl⟩, hnode⟩ := mem_rowOf hrow
      refine ⟨hnode, follows_concat.mpr ⟨ih.2, ?_⟩⟩
      intro k hk
      have := hhit k hk
      rw [List.getLastD_concat] at this
      exact this
  · rintro ⟨hnode, hfollows⟩
    induction path using List.reverseRecOn with
    | nil => exact .refl
    | append_singleton path label ih =>
      obtain ⟨hfollows, hlabel⟩ := follows_concat.mp hfollows
      refine .tail (ih (tt.mem_nodes_of_append hnode) hfollows) ?_
      refine (mem_nextPaths encodedKey table).mpr ⟨append_mem_rowOf hnode, ?_⟩
      intro k hk
      rw [List.getLastD_concat]
      exact hlabel k hk

/-! ## The loop and the search -/

/-- A state stands on a path, with its length and the bytes that were expanded. -/
structure OnPath (tt : TrieTable) (encodedKey : Bytes) (state : PredictiveLookupSearchState)
    (path : Bytes) : Prop where
  node : AtNode tt.toTable state.node path
  keyPos : state.keyPos = path.length
  numExpanded : state.numExpanded = differing encodedKey path

section

variable {trie : LoudsTrie} {tt : TrieTable} {words : List Bytes} (hr : Represents trie tt words)
  {encodedKey : Bytes} {table : KeyExpansionTable}
include hr

theorem drainQueue_forall₂ {maxKeyLen : Nat} : ∀ {queue : List PredictiveLookupSearchState}
    {paths : List Bytes}, List.Forall₂ (OnPath tt encodedKey) queue paths →
      (∀ path ∈ paths, encodedKey.length ≤ path.length) →
      List.Forall₂ (OnPath tt encodedKey) (drainQueue trie maxKeyLen queue)
        (BreadthFirst.drain (isCollected words encodedKey) List.length maxKeyLen paths) := by
  intro queue paths h
  induction h with
  | nil => intro _; exact .nil
  | @cons state path queue paths hstate _ ih =>
    intro hlen
    obtain ⟨hpath, hpaths⟩ := List.forall_mem_cons.mp hlen
    have hcollected : isCollected words encodedKey path = trie.isTerminalNode state.node := by
      rw [isTerminalNode_eq hr hstate.node, isCollected]
      exact decide_eq_decide.mpr (and_iff_right hpath)
    rw [drainQueue, BreadthFirst.drain, hstate.keyPos, hcollected]
    split_ifs
    · exact .nil
    · exact .cons hstate (ih hpaths)
    · exact ih hpaths

/-- The states that are appended stand on the paths that the search goes on to. -/
theorem states_forall₂ {state : PredictiveLookupSearchState} {path : Bytes}
    (hstate : OnPath tt encodedKey state path) :
    List.Forall₂ (OnPath tt encodedKey)
      (match encodedKey[state.keyPos]? with
        | some targetChar => expandedStates trie table targetChar state
        | none => childStates trie state)
      (nextPaths tt encodedKey table path) := by
  obtain ⟨cs, hrow⟩ := tt.exists_row hstate.node.path
  obtain ⟨hstrings, hnodes⟩ := children_strings hr hstate.node hrow
  rw [nextPaths, rowOf_eq hrow, ← hstrings, hstate.keyPos]
  have hlength : ∀ label : UInt8, (path ++ [label]).length = path.length + 1 := fun _ => by
    rw [List.length_append, List.length_singleton]
  cases hchar : encodedKey[path.length]? with
  | none =>
    dsimp only
    rw [childStates, List.forall₂_map_left_iff, List.forall₂_map_right_iff]
    refine List.forall₂_same.mpr ?_
    intro child hchild
    refine ⟨hnodes child hchild, ?_, ?_⟩
    · rw [hlength, hstate.keyPos]
    · rw [differing_concat, hchar, hstate.numExpanded]
      rfl
  | some targetChar =>
    dsimp only
    rw [expandedStates]
    generalize children trie state.node = nodes at hnodes
    induction nodes with
    | nil => exact .nil
    | cons child nodes ih =>
      have hrest := ih (fun child hchild => hnodes child (List.mem_cons_of_mem _ hchild))
      rw [List.map_cons, List.filter_cons, List.getLastD_concat, List.filterMap_cons]
      dsimp only
      by_cases hhit : table.isHit targetChar (trie.getEdgeLabelToParentNode child) = false
      · rw [if_pos hhit, if_neg (by rw [hhit]; decide)]
        exact hrest
      · rw [if_neg hhit, if_pos (Bool.of_not_eq_false hhit)]
        refine .cons ⟨hnodes child List.mem_cons_self, ?_, ?_⟩ hrest
        · rw [hlength, hstate.keyPos]
        · rw [differing_concat, hchar, hstate.numExpanded]

/-- **THE LOOP IS A SEARCH** of the paths, as long as no more are collected than the limit. -/
theorem bfsLoop_forall₂ {limit : Nat} : ∀ {fuel : Nat}
    {queue result : List PredictiveLookupSearchState} {paths collected found : List Bytes},
    List.Forall₂ (OnPath tt encodedKey) queue paths →
    List.Forall₂ (OnPath tt encodedKey) result collected →
    BreadthFirst.Front (nextPaths tt encodedKey table) List.length paths →
    collected.length ≤ limit →
    BreadthFirst.search (nextPaths tt encodedKey table) (isCollected words encodedKey) List.length
      limit fuel paths collected = some found →
    ∃ states, bfsLoop trie encodedKey table limit fuel queue result = some states ∧
      List.Forall₂ (OnPath tt encodedKey) states found := by
  intro fuel
  induction fuel with
  | zero => intro _ _ _ _ _ _ _ _ _ h; cases h
  | succ fuel ih =>
    intro queue result paths collected found hqueue hresult hfront hlimit h
    cases hqueue with
    | nil =>
      rw [← Option.some.inj h]
      exact ⟨result, rfl, hresult⟩
    | @cons state path queue paths hstate hqueue =>
      have hstates := @states_forall₂ _ _ _ hr encodedKey table _ _ hstate
      have hnext := hfront.next (isTree_nextPaths encodedKey table)
      rw [BreadthFirst.search] at h
      rw [bfsLoop]
      cases hchar : encodedKey[state.keyPos]? with
      | some targetChar =>
        -- along the key nothing is collected
        have hshort : ¬ (encodedKey.length ≤ path.length ∧ path ∈ words) := by
          have := (List.getElem?_eq_some_iff.mp hchar).1
          rw [hstate.keyPos] at this
          omega
        rw [isCollected, decide_eq_false hshort, if_neg Bool.false_ne_true,
          if_neg (Nat.not_lt_of_le hlimit)] at h
        rw [hchar] at hstates
        exact ih (List.rel_append hqueue hstates) hresult hnext hlimit h
      | none =>
        rw [hchar] at hstates
        have hlen : encodedKey.length ≤ path.length := by
          rw [← hstate.keyPos]
          exact List.getElem?_eq_none_iff.mp hchar
        have hcollected : isCollected words encodedKey path
            = trie.isTerminalNode state.node := by
          rw [isTerminalNode_eq hr hstate.node, isCollected]
          exact decide_eq_decide.mpr (and_iff_right hlen)
        rw [hcollected] at h
        have hpush : List.Forall₂ (OnPath tt encodedKey)
            (if trie.isTerminalNode state.node then result ++ [state] else result)
            (if trie.isTerminalNode state.node then collected ++ [path] else collected) := by
          split_ifs
          · exact List.rel_append hresult (.cons hstate .nil)
          · exact hresult
        dsimp only at h ⊢
        generalize (if trie.isTerminalNode state.node then result ++ [state] else result)
          = result' at hpush ⊢
        generalize (if trie.isTerminalNode state.node then collected ++ [path] else collected)
          = collected' at hpush h
        rw [hpush.length_eq]
        by_cases hfull : limit < collected'.length
        · rw [if_pos hfull] at h ⊢
          rw [← Option.some.inj h, hstate.keyPos]
          refine ⟨_, rfl, List.rel_append hpush (drainQueue_forall₂ hr hqueue ?_)⟩
          exact fun path' hpath' => Nat.le_trans hlen (hfront.head_le path' hpath').1
        · rw [if_neg hfull] at h ⊢
          exact ih (List.rel_append hqueue hstates) hpush hnext (Nat.le_of_not_lt hfull) h

theorem length_nodes_lt : tt.nodes.length < 8 * trie.louds.index.data.length := by
  obtain ⟨image, pad, hbits, hready⟩ := hr.louds.image
  have hlen := congrArg List.length hbits
  rw [length_bitsOf, List.length_append, Table.bits, length_unary, Table.degrees, List.length_cons,
    List.length_map, List.sum_cons] at hlen
  rw [hready.data, Table.nodes, List.length_map]
  omega

end

theorem eq_traverse {trie : LoudsTrie} {tt : TrieTable} {words : List Bytes}
    (hr : Represents trie tt words) {node : Node} {path : Bytes}
    (h : AtNode tt.toTable node path) : trie.traverse path {} = some node := by
  have hleads := traverse_leads hr path atNode_trieRoot
  rw [List.nil_append] at hleads
  cases htraverse : trie.traverse path {} with
  | none =>
    rw [htraverse] at hleads
    exact absurd (List.mem_of_getElem? h.path) hleads
  | some node' =>
    rw [htraverse] at hleads
    have hid : node'.nodeId = node.nodeId := by
      have hidx := tt.idxOf_eq h.path
      rw [tt.idxOf_eq hleads.path] at hidx
      have hpos := h.pos
      have hpos' := hleads.pos
      omega
    have hedge := hleads.edge
    rw [hid] at hedge
    obtain ⟨edgeIndex, nodeId⟩ := node
    obtain ⟨edgeIndex', nodeId'⟩ := node'
    obtain rfl : nodeId' = nodeId := hid
    have hsame : edgeIndex' = edgeIndex := hedge.unique h.edge
    rw [hsame]

theorem nodup_nodes {tt : TrieTable} {encodedKey : Bytes}
    {states : List PredictiveLookupSearchState} {paths : List Bytes}
    (h : List.Forall₂ (OnPath tt encodedKey) states paths) (hnodup : paths.Nodup) :
    (states.map PredictiveLookupSearchState.node).Nodup := by
  induction h with
  | nil => exact .nil
  | @cons state path states paths hstate hrest ih =>
    obtain ⟨hnew, hnodup⟩ := List.nodup_cons.mp hnodup
    refine List.nodup_cons.mpr ⟨?_, ih hnodup⟩
    intro hmem
    obtain ⟨state', hstate', hnode⟩ := List.mem_map.mp hmem
    obtain ⟨path', hpath', hon⟩ := (exists_of_forall₂ hrest).1 state' hstate'
    have hsame := hon.node.path
    rw [hnode, hstate.node.path] at hsame
    exact hnew (Option.some.inj hsame ▸ hpath')

/-! ## The collected nodes -/

/-- What a collected state tells about the word of its node. -/
structure Collects (trie : LoudsTrie) (encodedKey : Bytes) (state : PredictiveLookupSearchState)
    (word : Bytes) : Prop where
  node : trie.traverse word {} = some state.node
  terminal : trie.isTerminalNode state.node = true
  keyPos : state.keyPos = word.length
  numExpanded : state.numExpanded = differing encodedKey word

/-- **WHICH NODES ARE COLLECTED.**  In a trie that was built and opened the search ends, and
    collects the nodes of the words that start with an expansion of the key, each once and by
    their lengths: all of them up to the limit, or else those that are no longer than the one
    behind the first `limit`.  Each comes with the number of bytes that were expanded. -/
theorem collect_predictive_nodes (added : List Bytes) (built : LoudsTrieBuilder)
    (hbuild : buildAll added = some built) (lb0 lb1 s0 s1 tlb1 : Nat) (trie : LoudsTrie)
    (hopen : LoudsTrie.openTrie built.image lb0 lb1 s0 s1 tlb1 = some trie) (encodedKey : Bytes)
    (table : KeyExpansionTable) (limit fuel : Nat)
    (hfuel : 8 * trie.louds.index.data.length ≤ fuel) :
    ∃ (hits : List Bytes) (states : List PredictiveLookupSearchState),
      hits.Nodup ∧ hits.Pairwise (fun p q => p.length ≤ q.length) ∧
      (∀ p, p ∈ hits ↔ p ∈ added ∧ Expands table encodedKey p) ∧
      collectPredictiveNodesInBfsOrder trie encodedKey table limit fuel = some states ∧
      (states.map PredictiveLookupSearchState.node).Nodup ∧
      List.Forall₂ (Collects trie encodedKey) states
        (BreadthFirst.cut List.length limit hits) := by
  obtain ⟨words, tt, -, hmem, -, -, hopens⟩ :=
    represents_of_build (ne_nil_of_buildAll hbuild) hbuild
  have hr := (hopens lb0 lb1 s0 s1 tlb1).2 trie hopen
  have htree := @isTree_nextPaths tt encodedKey table
  have hroot : ([] : Bytes) ∈ tt.nodes := tt.mem_nodes.mpr (Or.inl rfl)
  have hnodes := length_nodes_lt hr
  obtain ⟨l, hnodup, hsorted, hreach, hsearch⟩ := BreadthFirst.exists_search htree
    (fun path _ child hchild => (mem_rowOf ((mem_nextPaths encodedKey table).mp hchild).1).2) hroot
    (show tt.nodes.length < fuel by omega)
  have hstart : OnPath tt encodedKey {} [] :=
    ⟨atNode_trieRoot, rfl, by rw [differing, List.zip_nil_right]; rfl⟩
  obtain ⟨states, hstates, hpaths⟩ := bfsLoop_forall₂ hr (.cons hstart .nil) .nil
    (BreadthFirst.Front.singleton htree []) (Nat.zero_le limit)
    (hsearch (isCollected words encodedKey) limit)
  have hhits : ∀ p, p ∈ l.filter (isCollected words encodedKey) ↔
      p ∈ added ∧ Expands table encodedKey p := by
    intro p
    rw [List.mem_filter, hreach, mem_reach, expands_iff, isCollected, decide_eq_true_iff, ← hmem]
    constructor
    · rintro ⟨⟨-, hfollows⟩, hlen, hword⟩
      exact ⟨hword, hlen, hfollows⟩
    · rintro ⟨hword, hlen, hfollows⟩
      exact ⟨⟨hr.word_mem p hword, hfollows⟩, hlen, hword⟩
  have hcut := BreadthFirst.cut_sublist List.length limit
    (l.filter (isCollected words encodedKey))
  refine ⟨l.filter (isCollected words encodedKey), states, hnodup.filter _,
    hsorted.filter _, hhits, hstates, nodup_nodes hpaths (hcut.nodup (hnodup.filter _)), ?_⟩
  have hwords : ∀ p ∈ BreadthFirst.cut List.length limit
      (l.filter (isCollected words encodedKey)), p ∈ words :=
    fun p hp => (hmem p).mpr ((hhits p).mp (hcut.subset hp)).1
  have hcollects : ∀ path state, path ∈ words ∧ OnPath tt encodedKey state path →
      Collects trie encodedKey state path := by
    rintro path state ⟨hword, hon⟩
    refine ⟨eq_traverse hr hon.node, ?_, hon.keyPos, hon.numExpanded⟩
    rw [isTerminalNode_eq hr hon.node]
    exact decide_eq_true hword
  exact (((List.forall₂_and_left _ _).mpr ⟨hwords, hpaths.flip⟩).imp hcollects).flip

/-- Of three words that start with "a", a limit of one leaves those of the length of the
    second one. -/
theorem collect_predictive_nodes_three : ∃ built trie hits states,
    buildAll [ascii "ab", ascii "abc", ascii "ac"] = some built ∧
    LoudsTrie.openTrie built.image 1 1 1 1 1 = some trie ∧
    (∀ p, p ∈ hits ↔ p ∈ [ascii "ab", ascii "abc", ascii "ac"] ∧
      Expands KeyExpansionTable.getDefaultInstance (ascii "a") p) ∧
    collectPredictiveNodesInBfsOrder trie (ascii "a") KeyExpansionTable.getDefaultInstance 1
      (8 * trie.louds.index.data.length) = some states ∧
    List.Forall₂ (Collects trie (ascii "a")) states (BreadthFirst.cut List.length 1 hits) := by
  obtain ⟨built, hbuild⟩ := Option.isSome_iff_exists.mp
    (show (buildAll [ascii "ab", ascii "abc", ascii "ac"]).isSome = true by decide +kernel)
  obtain ⟨trie, hopen⟩ := exists_openTrie (ne_nil_of_buildAll hbuild) hbuild
    (⟨by decide, by decide, by decide, by decide⟩ : FitsTrie _ 1 1 1) 1 1
  obtain ⟨hits, states, -, -, hhits, hcollect, -, hstates⟩ := collect_predictive_nodes
    [ascii "ab", ascii "abc", ascii "ac"] built hbuild 1 1 1 1 1 trie hopen (ascii "a")
    KeyExpansionTable.getDefaultInstance 1 _ (Nat.le_refl _)
  exact ⟨built, trie, hits, states, hbuild, hopen, hhits, hcollect, hstates⟩

end MozkeyDictionary
