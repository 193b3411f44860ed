import Mozkey.ReverseLookupPathsProofs
import Mozkey.Utf8ExtendedProofs

/-! # SystemDictionary — prefix lookups with key expansion

    A lookup of the prefixes of a key walks the key trie along the encoded key.  With key
    expansion it is a search in depth that takes every child whose label an expansion table
    allows for the byte of the key; the default table allows the byte itself. -/

namespace MozkeyDictionary

open ByteString OrderedMap MozkeyUtil MozkeyLouds UnaryTree

/-! ## The children of a node -/

/-- The nodes of a loop over siblings: `MoveToNextSibling` as long as `IsValidNode`.  Every
    round looks at another bit of the image, so their number is fuel enough. -/
def siblings (trie : LoudsTrie) : Nat → Node → List Node
  | 0, _ => []
  | fuel + 1, node =>
    if trie.louds.isValidNode node then
      node :: siblings trie fuel (Louds.moveToNextSibling node)
    else []

/-- The nodes of a loop over the children, from `MoveToFirstChild` on. -/
def children (trie : LoudsTrie) (node : Node) : List Node :=
  siblings trie (8 * trie.louds.index.data.length) (trie.louds.moveToFirstChild node)

theorem moveToChildByLabel_eq_find (trie : LoudsTrie) (label : UInt8) (node : Node) :
    trie.moveToChildByLabel label node
      = (children trie node).find? (fun child =>
          decide (trie.getEdgeLabelToParentNode child = label)) := by
  have hloop : ∀ (fuel : Nat) (node : Node), trie.moveToChildByLabelLoop label fuel node
      = (siblings trie fuel node).find? (fun child =>
          decide (trie.getEdgeLabelToParentNode child = label)) := by
    intro fuel
    induction fuel with
    | zero => intro node; rfl
    | succ fuel ih =>
      intro node
      rw [LoudsTrie.moveToChildByLabelLoop, siblings]
      by_cases hvalid : trie.louds.isValidNode node = true
      · rw [if_pos hvalid, if_pos hvalid, List.find?_cons]
        by_cases hlabel : trie.getEdgeLabelToParentNode node = label
        · rw [if_pos hlabel, decide_eq_true hlabel]
        · rw [if_neg hlabel, decide_eq_false hlabel]
          exact ih _
      · rw [if_neg hvalid, if_neg hvalid]
        rfl
  exact hloop _ _

section

variable {trie : LoudsTrie} {tt : TrieTable} {words : List Bytes} (hr : Represents trie tt words)
include hr

theorem siblings_leads {k : Nat} {p : Bytes} {cs : List Bytes} (hrow : tt.rows[k]? = some (p, cs)) :
    ∀ (fuel j : Nat), j ≤ cs.length → cs.length < fuel + j →
      List.Forall₂ (AtNode tt.toTable) (siblings trie fuel
        { edgeIndex := blockStart tt.degrees (k + 1) + j
          nodeId := (tt.degrees.take (k + 1)).sum + j + 1 }) (cs.drop j) := by
  intro fuel
  induction fuel with
  | zero => intro j hle hlt; omega
  | succ fuel ih =>
    intro j hle hlt
    rw [siblings, isValidNode_child hr.louds hrow hle]
    by_cases hj : j < cs.length
    · rw [decide_eq_true hj, if_pos rfl, List.drop_eq_getElem_cons hj]
      exact .cons (atNode_child hrow (List.getElem?_eq_getElem hj)) (ih (j + 1) hj (by omega))
    · rw [decide_eq_false hj, if_neg Bool.false_ne_true,
        List.drop_of_length_le (Nat.le_of_not_lt hj)]
      exact .nil

/-- **THE LOOP OVER THE CHILDREN** goes through the row of the node. -/
theorem children_leads {node : Node} {p : Bytes} {cs : List Bytes} (h : AtNode tt.toTable node p)
    (hrow : tt.rows[node.nodeId - 1]? = some (p, cs)) :
    List.Forall₂ (AtNode tt.toTable) (children trie node) cs := by
  have hleads := siblings_leads hr hrow (8 * trie.louds.index.data.length) 0 (Nat.zero_le _)
    (degree_lt hr.louds hrow)
  rw [Nat.sub_add_cancel h.pos, List.drop_zero] at hleads
  rw [children, moveToFirstChild_eq hr.louds h]
  exact hleads

end

/-! ## The expansion table -/

/-- `KeyExpansionTable`: a map of 256 times 256 bits. -/
structure KeyExpansionTable where
  table : UInt8 → UInt8 → Bool

namespace KeyExpansionTable

/-- `set`: a bit of the table. -/
def setBit (t : KeyExpansionTable) (key value : UInt8) : KeyExpansionTable :=
  { table := fun k v => t.table k v || (k == key && v == value) }

/-- The constructor: each byte is its own expansion. -/
def new : KeyExpansionTable :=
  (List.range 256).foldl (fun t i => t.setBit (UInt8.ofNat i) (UInt8.ofNat i))
    { table := fun _ _ => false }

/-- `GetDefaultInstance`. -/
def getDefaultInstance : KeyExpansionTable := new

/-- `ExpandKey(key).IsHit(value)`. -/
def isHit (t : KeyExpansionTable) (key value : UInt8) : Bool := t.table key value

end KeyExpansionTable

/-- **THE DEFAULT TABLE** allows every byte for itself only. -/
theorem isHit_getDefaultInstance (key value : UInt8) :
    KeyExpansionTable.getDefaultInstance.isHit key value = decide (value = key) := by
  have hloop : ∀ n ≤ 256, ((List.range n).foldl
      (fun (t : KeyExpansionTable) i => t.setBit (UInt8.ofNat i) (UInt8.ofNat i))
      { table := fun _ _ => false }).table key value = decide (value = key ∧ key.toNat < n) := by
    intro n
    induction n with
    | zero => intro _; simp
    | succ n ih =>
      intro hn
      rw [List.range_succ, List.foldl_append, List.foldl_cons, List.foldl_nil,
        KeyExpansionTable.setBit]
      dsimp only
      rw [ih (by omega)]
      have hkey : key = UInt8.ofNat n ↔ key.toNat = n := by
        rw [← UInt8.toNat_inj, UInt8.toNat_ofNat', Nat.mod_eq_of_lt (by omega)]
      have hvalue : value = UInt8.ofNat n ↔ value.toNat = n := by
        rw [← UInt8.toNat_inj, UInt8.toNat_ofNat', Nat.mod_eq_of_lt (by omega)]
      rw [Bool.eq_iff_iff]
      simp only [Bool.or_eq_true, Bool.and_eq_true, beq_iff_eq, decide_eq_true_eq, hkey, hvalue,
        ← UInt8.toNat_inj]
      omega
  rw [KeyExpansionTable.isHit, KeyExpansionTable.getDefaultInstance, KeyExpansionTable.new,
    hloop 256 (Nat.le_refl _)]
  exact decide_eq_decide.mpr (and_iff_left key.toNat_lt)

/-! ## The search in depth -/

theorem take_drop_succ {s rest : Bytes} {label : UInt8} {i : Nat} (h : s.drop i = label :: rest) :
    s.take (i + 1) = s.take i ++ [label] ∧ s.drop (i + 1) = rest := by
  refine ⟨?_, ?_⟩
  · rw [List.take_add_one, ← List.head?_drop, h]
    rfl
  · rw [← List.tail_drop, h]
    rfl

section

variable {σ : Type} (hiraganaToKatakana : Bytes → Bytes) (dict : SystemDictionary)
  (callback : Callback σ)

/-- The loop of `LookupPrefixWithKeyExpansionImpl` over the tokens of a key, with the last
    answer; `none` where the loop does not end. -/
def lookupTokens (pre actualPrefix : Bytes) :
    Nat → TokenDecodeIterator → σ → Option (ResultType × σ)
  | 0, _, _ => none
  | fuel + 1, it, s =>
    if it.state = .done then some (.traverseContinue, s)
    else
      let (result, s) := callback.onToken pre actualPrefix it.tokenInfo.token s
      if result = .traverseDone ∨ result = .traverseCull then some (result, s)
      else if result = .traverseNextKey then some (result, s)
      else
        (it.next hiraganaToKatakana dict).bind
          (fun it => lookupTokens pre actualPrefix fuel it s)

/-- The `do` block of `LookupPrefixWithKeyExpansionImpl`: with `TRAVERSE_DONE` and
    `TRAVERSE_CULL` the function returns, with the others it goes on to the children. -/
def lookupTerminalNode (fuel : Nat) (key encodedPrefix actual : Bytes) (node : Node)
    (numExpanded : Nat) (s : σ) : Option (ResultType × σ) :=
  if dict.keyTrie.isTerminalNode node = false then some (.traverseContinue, s)
  else
    let pre := key.take (getDecodedKeyLength encodedPrefix)
    let (result, s) := callback.onKey pre s
    if result = .traverseDone ∨ result = .traverseCull then some (result, s)
    else if result = .traverseNextKey then some (result, s)
    else
      let actualPrefix := decodeKey actual
      let (result, s) := callback.onActualKey pre actualPrefix numExpanded s
      if result = .traverseDone ∨ result = .traverseCull then some (result, s)
      else if result = .traverseNextKey then some (result, s)
      else
        let keyId := dict.keyTrie.getKeyIdOfTerminalNode node
        ((TokenDecodeIterator.init actualPrefix (dict.tokenArray.bytesFrom keyId)).nextInternal
          hiraganaToKatakana dict).bind
            (fun it => lookupTokens hiraganaToKatakana dict callback pre actualPrefix fuel it s)

/-- A loop over nodes that `TRAVERSE_DONE` ends. -/
def untilDone (visit : Node → σ → Option (ResultType × σ)) :
    List Node → σ → Option (ResultType × σ)
  | [], s => some (.traverseContinue, s)
  | node :: nodes, s =>
    (visit node s).bind (fun (result, s) =>
      if result = .traverseDone then some (.traverseDone, s) else untilDone visit nodes s)

/-- `LookupPrefixWithKeyExpansionImpl`; `actual` is what `actual_key_buffer` holds, and the
    first bytes are those of the encoded key from `key_pos` on. -/
def lookupPrefixWithKeyExpansionImpl (fuel : Nat) (key encodedKey : Bytes)
    (table : KeyExpansionTable) (rest : Bytes) (node : Node) (keyPos numExpanded : Nat)
    (actual : Bytes) (s : σ) : Option (ResultType × σ) :=
  (lookupTerminalNode hiraganaToKatakana dict callback fuel key (encodedKey.take keyPos) actual
    node numExpanded s).bind (fun (result, s) =>
      if result = .traverseDone ∨ result = .traverseCull then some (result, s)
      else
        match rest with
        | [] => some (.traverseContinue, s)
        | currentChar :: rest =>
          untilDone (fun child s =>
            let c := dict.keyTrie.getEdgeLabelToParentNode child
            if table.isHit currentChar c = false then some (.traverseContinue, s)
            else
              lookupPrefixWithKeyExpansionImpl fuel key encodedKey table rest child (keyPos + 1)
                (if c ≠ currentChar then numExpanded + 1 else numExpanded) (actual ++ [c]) s)
            (children dict.keyTrie node) s)

end

/-! ## The walks side by side -/

section

variable {trie : LoudsTrie} {tt : TrieTable} {words : List Bytes} (hr : Represents trie tt words)
include hr

/-- **THE STRINGS OF THE CHILDREN** extend that of the node by their labels. -/
theorem children_strings {node : Node} {p : Bytes} {cs : List Bytes} (h : AtNode tt.toTable node p)
    (hrow : tt.rows[node.nodeId - 1]? = some (p, cs)) :
    (children trie node).map (fun child => p ++ [trie.getEdgeLabelToParentNode child]) = cs ∧
      ∀ child ∈ children trie node,
        AtNode tt.toTable child (p ++ [trie.getEdgeLabelToParentNode child]) := by
  have hleads := children_leads hr h hrow
  have hlabels := tt.child_eq _ (List.mem_of_getElem? hrow)
  dsimp only at hlabels
  generalize children trie node = nodes at hleads
  clear hrow
  induction hleads with
  | nil => exact ⟨rfl, fun child hchild => absurd hchild List.not_mem_nil⟩
  | @cons child c nodes cs hhead _ ih =>
    obtain ⟨label, rfl⟩ := hlabels c List.mem_cons_self
    obtain ⟨heq, hat⟩ := ih (fun c hc => hlabels c (List.mem_cons_of_mem _ hc))
    have hlabel := getEdgeLabelToParentNode_eq hr hhead
    rw [List.map_cons, heq, hlabel]
    refine ⟨rfl, List.forall_mem_cons.mpr ⟨?_, hat⟩⟩
    rw [hlabel]
    exact hhead

theorem nodup_labels {node : Node} {p : Bytes} (h : AtNode tt.toTable node p) :
    ((children trie node).map trie.getEdgeLabelToParentNode).Nodup := by
  obtain ⟨cs, hrow⟩ := tt.exists_row h.path
  have hnodes := tt.nodup
  rw [tt.nodes_eq, List.nodup_cons, List.nodup_flatMap] at hnodes
  have hnodup : cs.Nodup := hnodes.2.1 _ (List.mem_of_getElem? hrow)
  rw [← (children_strings hr h hrow).1] at hnodup
  refine List.Nodup.of_map (fun label => p ++ [label]) ?_
  rw [List.map_map]
  exact hnodup

end

section

variable {σ : Type}

/-- **THE LOOP OVER THE CHILDREN**, where one of them at most is visited. -/
theorem untilDone_eq {trie : LoudsTrie} {label : UInt8}
    (visit : Node → σ → Option (ResultType × σ)) :
    ∀ {nodes : List Node} (s : σ), (nodes.map trie.getEdgeLabelToParentNode).Nodup →
      (untilDone (fun child s =>
          if decide (trie.getEdgeLabelToParentNode child = label) = false then
            some (.traverseContinue, s)
          else visit child s) nodes s).map Prod.snd
        = match nodes.find? (fun child => decide (trie.getEdgeLabelToParentNode child = label)) with
          | none => some s
          | some child => (visit child s).map Prod.snd := by
  intro nodes
  induction nodes with
  | nil => intro s _; rfl
  | cons node nodes ih =>
    intro s hnodup
    rw [List.map_cons, List.nodup_cons] at hnodup
    rw [untilDone, List.find?_cons]
    by_cases hlabel : trie.getEdgeLabelToParentNode node = label
    · rw [decide_eq_true hlabel, if_neg (by decide)]
      dsimp only
      -- no sibling has the label again
      have hnone : nodes.find? (fun child => decide (trie.getEdgeLabelToParentNode child = label))
          = none := by
        refine List.find?_eq_none.mpr ?_
        intro child hchild heq
        refine hnodup.1 (List.mem_map.mpr ⟨child, hchild, ?_⟩)
        rw [of_decide_eq_true heq, hlabel]
      cases hvisit : visit node s with
      | none => rfl
      | some answer =>
        obtain ⟨result, s'⟩ := answer
        rw [Option.bind_some]
        dsimp only
        split_ifs
        · rfl
        · rw [ih s' hnodup.2, hnone]
          rfl
    · rw [decide_eq_false hlabel, if_pos rfl, Option.bind_some]
      dsimp only
      rw [if_neg (by decide)]
      exact ih s hnodup.2

variable {hiraganaToKatakana : Bytes → Bytes} {dict : SystemDictionary} {callback : Callback σ}

/-- **THE LOOP OVER THE TOKENS**, where the key that is looked up is the one that is found. -/
theorem runTokens_eq_lookupTokens (pre : Bytes) :
    ∀ (fuel : Nat) (it : TokenDecodeIterator) (s : σ),
      runTokens hiraganaToKatakana dict callback (fun _ => true) pre fuel it s
        = (lookupTokens hiraganaToKatakana dict callback pre pre fuel it s).map
          (fun (result, s) => (s, !decide (result = .traverseDone ∨ result = .traverseCull))) := by
  intro fuel
  induction fuel with
  | zero => intro it s; rfl
  | succ fuel ih =>
    intro it s
    rw [runTokens, lookupTokens]
    by_cases hdone : it.state = .done
    · rw [if_pos hdone, if_pos hdone]
      rfl
    · rw [if_neg hdone, if_neg hdone, if_neg (by decide)]
      dsimp only
      split_ifs with hreturn hkey
      · rw [Option.map_some]
        dsimp only
        rw [decide_eq_true hreturn]
        rfl
      · rw [Option.map_some]
        dsimp only
        rw [decide_eq_false hreturn]
        rfl
      · cases it.next hiraganaToKatakana dict with
        | none => rfl
        | some it => exact ih it _

end

section

variable {σ : Type} {hiraganaToKatakana : Bytes → Bytes} {dict : SystemDictionary}
  {callback : Callback σ}

/-- What the iterative walk does at a terminal node, before it goes on with `go`. -/
theorem lookupTerminalNode_bind {fuel : Nat} {key encodedPrefix actual pre : Bytes} {node : Node}
    (hterminal : dict.keyTrie.isTerminalNode node = true)
    (hpre : key.take (getDecodedKeyLength encodedPrefix) = pre) (hactual : decodeKey actual = pre)
    (go : σ → Option σ) (s : σ) :
    (lookupTerminalNode hiraganaToKatakana dict callback fuel key encodedPrefix actual node
        0 s).bind (fun (result, s) =>
          if result = .traverseDone ∨ result = .traverseCull then some s else go s)
      = let (result, s) := callback.onKey pre s
        if result = .traverseDone ∨ result = .traverseCull then some s
        else if result = .traverseNextKey then go s
        else
          let (result, s) := callback.onActualKey pre pre 0 s
          if result = .traverseDone ∨ result = .traverseCull then some s
          else if result = .traverseNextKey then go s
          else
            ((TokenDecodeIterator.init pre
                (dict.tokenArray.bytesFrom (dict.keyTrie.getKeyIdOfTerminalNode node))).nextInternal
              hiraganaToKatakana dict).bind (fun it =>
                (runTokens hiraganaToKatakana dict callback (fun _ => true) pre fuel it s).bind
                  (fun (s, goesOn) => if goesOn then go s else some s)) := by
  rw [lookupTerminalNode, if_neg (by rw [hterminal]; decide), hpre, hactual]
  dsimp only
  by_cases hreturn : (callback.onKey pre s).1 = .traverseDone ∨
      (callback.onKey pre s).1 = .traverseCull
  · rw [if_pos hreturn, if_pos hreturn, Option.bind_some]
    dsimp only
    rw [if_pos hreturn]
  rw [if_neg hreturn, if_neg hreturn]
  by_cases hnext : (callback.onKey pre s).1 = .traverseNextKey
  · rw [if_pos hnext, if_pos hnext, Option.bind_some]
    dsimp only
    rw [if_neg hreturn]
  rw [if_neg hnext, if_neg hnext]
  generalize (callback.onKey pre s).2 = s
  by_cases hreturn' : (callback.onActualKey pre pre 0 s).1 = .traverseDone ∨
      (callback.onActualKey pre pre 0 s).1 = .traverseCull
  · rw [if_pos hreturn', if_pos hreturn', Option.bind_some]
    dsimp only
    rw [if_pos hreturn']
  rw [if_neg hreturn', if_neg hreturn']
  by_cases hnext' : (callback.onActualKey pre pre 0 s).1 = .traverseNextKey
  · rw [if_pos hnext', if_pos hnext', Option.bind_some]
    dsimp only
    rw [if_neg hreturn']
  rw [if_neg hnext', if_neg hnext']
  generalize (callback.onActualKey pre pre 0 s).2 = s
  cases (TokenDecodeIterator.init pre (dict.tokenArray.bytesFrom
      (dict.keyTrie.getKeyIdOfTerminalNode node))).nextInternal hiraganaToKatakana dict with
  | none => rfl
  | some it =>
    rw [Option.bind_some, Option.bind_some, runTokens_eq_lookupTokens]
    cases lookupTokens hiraganaToKatakana dict callback pre pre fuel it s with
    | none => rfl
    | some answer =>
      rw [Option.bind_some, Option.map_some, Option.bind_some]
      dsimp only
      by_cases hlast : answer.1 = .traverseDone ∨ answer.1 = .traverseCull
      · rw [if_pos hlast, if_neg (by rw [decide_eq_true hlast]; decide)]
      · rw [if_neg hlast, if_pos (by rw [decide_eq_false hlast]; rfl)]

variable {tt : TrieTable} {words : List Bytes} (hr : Represents dict.keyTrie tt words)
include hr

/-- **THE TWO WALKS FROM A NODE ON**: the search in depth looks at the node first.  The
    induction is on what is left of the encoded key; the node stands on what is behind. -/
theorem lookupPrefixWithKeyExpansionImpl_eq (fuel : Nat) {key encodedKey : Bytes}
    (hcodes : ∀ i, encodedKey.take i ∈ words →
      key.take (getDecodedKeyLength (encodedKey.take i)) = decodeKey (encodedKey.take i)) :
    ∀ (rest : Bytes) (node : Node) (keyPos : Nat) (s : σ),
      AtNode tt.toTable node (encodedKey.take keyPos) → encodedKey.drop keyPos = rest →
      (lookupPrefixWithKeyExpansionImpl hiraganaToKatakana dict callback fuel key encodedKey
          KeyExpansionTable.getDefaultInstance rest node keyPos 0 (encodedKey.take keyPos) s).map
            Prod.snd
        = (lookupTerminalNode hiraganaToKatakana dict callback fuel key (encodedKey.take keyPos)
            (encodedKey.take keyPos) node 0 s).bind (fun (result, s) =>
              if result = .traverseDone ∨ result = .traverseCull then some s
              else runCallbackOnEachPrefix hiraganaToKatakana dict callback fuel key encodedKey
                (fun _ => true) rest keyPos node s) := by
  intro rest
  induction rest with
  | nil =>
    intro node keyPos s _ _
    rw [lookupPrefixWithKeyExpansionImpl, Option.map_bind]
    refine Option.bind_congr ?_
    intro answer _
    dsimp only [Function.comp_apply]
    split_ifs
    · rfl
    · rfl
  | cons currentChar rest ih =>
    intro node keyPos s hat hrest
    obtain ⟨htake, hdrop⟩ := take_drop_succ hrest
    rw [lookupPrefixWithKeyExpansionImpl, Option.map_bind]
    refine Option.bind_congr ?_
    intro answer _
    dsimp only [Function.comp_apply]
    split_ifs with hreturn
    · rfl
    generalize answer.2 = s
    simp only [isHit_getDefaultInstance]
    rw [runCallbackOnEachPrefix, moveToChildByLabel_eq_find]
    refine (untilDone_eq _ s (nodup_labels hr hat)).trans ?_
    cases hfind : (children dict.keyTrie node).find? (fun child =>
        decide (dict.keyTrie.getEdgeLabelToParentNode child = currentChar)) with
    | none => rfl
    | some child =>
      dsimp only
      have hlabel : dict.keyTrie.getEdgeLabelToParentNode child = currentChar := by
        simpa using List.find?_some hfind
      have hchild : AtNode tt.toTable child (encodedKey.take (keyPos + 1)) := by
        obtain ⟨cs, hrow⟩ := tt.exists_row hat.path
        have := (children_strings hr hat hrow).2 child (List.mem_of_find?_eq_some hfind)
        rw [hlabel, ← htake] at this
        exact this
      rw [hlabel, if_neg (fun hne => hne rfl), ← htake, ih child (keyPos + 1) s hchild hdrop]
      by_cases hterminal : dict.keyTrie.isTerminalNode child = false
      · rw [if_pos hterminal, lookupTerminalNode, if_pos hterminal, Option.bind_some]
        exact if_neg (by decide)
      · rw [if_neg hterminal]
        rw [Bool.not_eq_false] at hterminal
        have hword : encodedKey.take (keyPos + 1) ∈ words := by
          rw [isTerminalNode_eq hr hchild] at hterminal
          exact of_decide_eq_true hterminal
        exact lookupTerminalNode_bind hterminal rfl (hcodes (keyPos + 1) hword).symm _ s

end

/-! ## The keys of the trie -/

theorem ne_nil_of_buildAll {added : List Bytes} {built : LoudsTrieBuilder}
    (h : buildAll added = some built) : ∀ w ∈ added, w ≠ [] := by
  have hrun : ∀ {added : List Bytes} {b b' : LoudsTrieBuilder},
      added.foldlM LoudsTrieBuilder.add b = some b' → ∀ w ∈ added, w ≠ [] := by
    intro added
    induction added with
    | nil => intro b b' _ w hw; exact absurd hw List.not_mem_nil
    | cons word added ih =>
      intro b b' hrun
      rw [List.foldlM_cons, Option.bind_eq_bind, Option.bind_eq_some_iff] at hrun
      obtain ⟨b₁, hadd, hrest⟩ := hrun
      refine List.forall_mem_cons.mpr ⟨?_, ih hrest⟩
      rintro rfl
      rw [LoudsTrieBuilder.add] at hadd
      simp at hadd
  rw [buildAll, Option.bind_eq_some_iff] at h
  obtain ⟨b, hb, -⟩ := h
  exact hrun hb

/-- Tokens that are read have keys and values, and come into the list. -/
theorem readFrom_of_readTokens {hiraganaToKatakana : Bytes → Bytes} {tokens : List Token}
    {keyInfoList : List KeyInfo} (h : readTokens hiraganaToKatakana tokens = some keyInfoList) :
    ReadFrom hiraganaToKatakana tokens keyInfoList := by
  have hne : ∀ token ∈ tokens, token.key ≠ [] ∧ token.value ≠ [] := by
    intro token hmem
    refine Decidable.byContradiction fun hempty => ?_
    have hany : tokens.any (fun token => token.key.isEmpty || token.value.isEmpty) = true := by
      refine List.any_eq_true.mpr ⟨token, hmem, ?_⟩
      rw [Bool.or_eq_true, List.isEmpty_iff, List.isEmpty_iff]
      exact Decidable.or_iff_not_not_and_not.mpr hempty
    rw [readTokens, if_pos hany] at h
    cases h
  obtain ⟨keyInfoList', hlist, hread⟩ := @readFrom_readTokens hiraganaToKatakana tokens hne
  rw [← Option.some.inj (hlist.symm.trans h)]
  exact hread

/-- **THE KEY TRIE** of a dictionary that was built and opened: its words are the codes of the
    keys of tokens. -/
theorem represents_keyTrie {hiraganaToKatakana : Bytes → Bytes} {minKeyLen : Nat}
    {tokens : List Token} {built : List KeyInfo × SystemDictionaryBuilder}
    (hbuild : buildFromTokens hiraganaToKatakana minKeyLen tokens = some built)
    {dict : SystemDictionary} (hopen : openDictionaryFile built.2 = some dict) :
    ∃ tt words, Represents dict.keyTrie tt words ∧
      (∀ w ∈ words, w ≠ [] ∧ ∃ token ∈ tokens, w = encodeKey token.key) ∧
      ∀ token ∈ tokens, encodeKey token.key ∈ words := by
  have hkey : ∃ keyInfoList, readTokens hiraganaToKatakana tokens = some keyInfoList ∧
      buildKeyTrie keyInfoList = some built.2.keyTrieBuilder := by
    simp only [buildFromTokens, Option.bind_eq_bind, Option.bind_eq_some_iff] at hbuild
    obtain ⟨keyInfoList, hlist, _, -, _, -, keyTrieBuilder, hkey, _, -, _, -, _, -, heq⟩ := hbuild
    rw [← Option.some.inj heq]
    exact ⟨keyInfoList, hlist, hkey⟩
  obtain ⟨keyInfoList, hlist, hkey⟩ := hkey
  have hread := readFrom_of_readTokens hlist
  have hne := ne_nil_of_buildAll hkey
  obtain ⟨words, tt, -, hmem, -, -, hopens⟩ := represents_of_build hne hkey
  have hr := (hopens kKeyTrieLb0CacheSize kKeyTrieLb1CacheSize kKeyTrieSelect0CacheSize
    kKeyTrieSelect1CacheSize kKeyTrieTermvecCacheSize).2 dict.keyTrie
      (parts_of_openDictionaryFile hopen).1
  refine ⟨tt, words, hr, ?_, ?_⟩
  · intro w hw
    have hadded := (hmem w).mp hw
    obtain ⟨keyInfo, hkeyInfo, rfl⟩ := List.mem_map.mp hadded
    obtain ⟨info, hinfo⟩ := List.exists_mem_of_ne_nil _ (hread.ne_nil keyInfo hkeyInfo)
    refine ⟨hne _ hadded, info.token, (hread.of_mem hkeyInfo hinfo).1, ?_⟩
    rw [hread.key_eq keyInfo hkeyInfo info hinfo]
  · intro token htoken
    obtain ⟨keyInfo, hkeyInfo, hinfo⟩ := List.mem_flatMap.mp
      (hread.infos.mem_iff.mpr (List.mem_map_of_mem htoken))
    have hkeyEq : token.key = keyInfo.key := hread.key_eq keyInfo hkeyInfo _ hinfo
    rw [hmem, hkeyEq]
    exact List.mem_map_of_mem hkeyInfo

/-! ## The codes of a key's first characters -/

theorem swapKeyCode_pos {code : Nat} (h : 0 < code) : 0 < swapKeyCode code := by
  refine Nat.pos_of_ne_zero ?_
  intro hzero
  have := swapKeyCode_swapKeyCode code
  rw [hzero] at this
  exact absurd (this.symm.trans (by decide : swapKeyCode 0 = 0)) (Nat.ne_of_gt h)

/-- The code of a character of a key. -/
def keyCode (c : Nat) : Bytes := codepointToUtf8 (swapKeyCode c)

theorem swapKeyCode_of_large {c : Nat} (h : 0x10000 ≤ c) : swapKeyCode c = c := by
  unfold swapKeyCode
  dsimp only
  split_ifs <;> omega

theorem isSpelt_swapKeyCode {c : Nat} (h : IsSpelt c) : IsSpelt (swapKeyCode c) := by
  obtain ⟨hpos, hle, hbits⟩ := h
  unfold NeedsSixBytes at hbits
  refine ⟨?_, ?_, ?_⟩ <;> unfold swapKeyCode
  · dsimp only
    split_ifs <;> omega
  · dsimp only
    split_ifs <;> omega
  · unfold NeedsSixBytes
    dsimp only
    split_ifs <;> omega

/-- The code points of a string without U+0000 that are not spelled with too few bytes. -/
theorem isSpelt_of_mem {key : Bytes} (hnul : (0 : UInt8) ∉ key) {cs : List Nat}
    (hcs : ∀ c ∈ cs, c ∈ chars32 key ∧ ¬ NeedsSixBytes c) : ∀ c ∈ cs, IsSpelt c := by
  intro c hc
  obtain ⟨hmem, hbits⟩ := hcs c hc
  refine ⟨Nat.pos_of_ne_zero ?_, le_of_mem_chars32 hmem, hbits⟩
  rintro rfl
  exact zero_notMem_chars32 hnul hmem

/-- **A CODE THAT STARTS THAT OF A KEY** is the code of first characters of the key. -/
theorem exists_take_of_prefix {k key : Bytes} (hnul : (0 : UInt8) ∉ key)
    (hstarts : encodeKey k <+: encodeKey key) :
    ∃ n, encodeKey k = ((chars32 key).take n).flatMap keyCode := by
  have hcodes : encodeKey k
      = (((chars32 k).filter (fun c => decide (0 < c))).map keyCode).flatten := by
    rw [encodeKey, encodeDecodeKeyImpl]
    induction chars32 k with
    | nil => rfl
    | cons c cs ih =>
      rw [List.flatMap_cons, ih, List.filter_cons]
      split_ifs with hpos
      · rfl
      · rw [show c = 0 by simpa using hpos]
        rfl
  have hpos : ∀ c ∈ chars32 key, 0 < c :=
    fun c hc => Nat.pos_of_ne_zero (fun hzero => zero_notMem_chars32 hnul (hzero ▸ hc))
  have hmap : ((chars32 k).filter (fun c => decide (0 < c))).map keyCode
      <+: (chars32 key).map keyCode := by
    refine @isPrefix_of_flatMap _ (fun w => ∃ c, 0 < c ∧ w = codepointToUtf8 c) id
      ?_ ?_ _ _ ?_ ?_ ?_
    · rintro w ⟨c, hc, rfl⟩
      exact codepointToUtf8_ne_nil hc
    · rintro w w' rest rest' ⟨c, hc, rfl⟩ ⟨c', hc', rfl⟩ heq
      exact codepointToUtf8_eq_of_append hc hc' heq
    · intro w hw
      obtain ⟨c, hc, rfl⟩ := List.mem_map.mp hw
      exact ⟨_, swapKeyCode_pos (of_decide_eq_true (List.mem_filter.mp hc).2), rfl⟩
    · intro w hw
      obtain ⟨c, hc, rfl⟩ := List.mem_map.mp hw
      exact ⟨_, swapKeyCode_pos (hpos c hc), rfl⟩
    · rw [List.flatMap_id, List.flatMap_id, ← hcodes]
      exact hstarts
  refine ⟨((chars32 k).filter (fun c => decide (0 < c))).length, ?_⟩
  rw [hcodes, List.prefix_iff_eq_take.mp hmap, List.length_map, ← List.map_take, List.flatMap_def]

theorem decodedLength_append {pre : List Nat} (hpre : ∀ c ∈ pre, IsSpelt c) (t : Bytes) :
    decodeKey (pre.flatMap keyCode ++ t) = pre.flatMap codepointToUtf8 ++ decodeKey t ∧
      (chars32 t = [] → getDecodedKeyLength (pre.flatMap keyCode ++ t)
        = (pre.flatMap codepointToUtf8).length + t.length) := by
  have hcode : pre.flatMap keyCode = (pre.map swapKeyCode).flatMap codepointToUtf8 := by
    rw [List.flatMap_map]
    rfl
  have hchars : chars32 (pre.flatMap keyCode ++ t) = pre.map swapKeyCode ++ chars32 t := by
    rw [hcode]
    refine chars32_append (fun c hc => read_of_spelled ?_) t
    obtain ⟨d, hd, rfl⟩ := List.mem_map.mp hc
    exact isSpelt_swapKeyCode (hpre d hd)
  constructor
  · rw [decodeKey, encodeDecodeKeyImpl, hchars, List.flatMap_append, List.flatMap_map]
    simp only [swapKeyCode_swapKeyCode]
    rfl
  · intro hnone
    rw [getDecodedKeyLength, getEncodedDecodedKeyLengthImpl, hchars, hnone, List.append_nil,
      List.length_append, Nat.add_comm _ t.length, Nat.add_comm _ t.length]
    exact foldl_decodedLength pre t.length (fun c hc => (hpre c hc).pos)

/-- **WHAT THE LENGTH OF A CODE CUTS OUT** of a key is the decoded code, exactly where no
    character of it is spelled with too few bytes. -/
theorem take_getDecodedKeyLength_iff {key : Bytes} (hnul : (0 : UInt8) ∉ key) (n : Nat) :
    key.take (getDecodedKeyLength (((chars32 key).take n).flatMap keyCode))
        = decodeKey (((chars32 key).take n).flatMap keyCode)
      ↔ ∀ c ∈ (chars32 key).take n, ¬ NeedsSixBytes c := by
  constructor
  · intro heq
    by_contra hbits
    -- the first such character
    obtain ⟨c, hfind⟩ : ∃ c, ((chars32 key).take n).find? (fun c => decide (NeedsSixBytes c))
        = some c := by
      rw [← Option.isSome_iff_exists, List.find?_isSome]
      simpa using hbits
    obtain ⟨hc, pre, post, htake, hpre⟩ := List.find?_eq_some_iff_append.mp hfind
    rw [decide_eq_true_eq] at hc
    have hspelt : ∀ d ∈ pre, IsSpelt d := isSpelt_of_mem hnul fun d hd =>
      ⟨List.mem_of_mem_take (htake ▸ List.mem_append_left _ hd), by simpa using hpre d hd⟩
    have hchars : chars32 key = pre ++ (c :: post ++ (chars32 key).drop n) := by
      rw [← List.append_assoc, ← htake, List.take_append_drop]
    obtain ⟨rest, hkey, hrest⟩ := exists_append_of_chars32 hspelt hchars
    obtain ⟨y, tail, hy, rfl⟩ : ∃ y tail, y < 2 ∧ rest = UInt8.ofNat (0xFC + y) :: tail := by
      cases hread : splitFirstChar32 rest with
      | none =>
        rw [chars32_of_none hread] at hrest
        cases hrest
      | some read =>
        obtain ⟨d, tail⟩ := read
        rw [chars32_of_some hread] at hrest
        obtain rfl := (List.cons.inj hrest).1
        exact head_of_needsSixBytes hread hc
    obtain ⟨hmin, hmax⟩ := hc
    have hcode : ((chars32 key).take n).flatMap keyCode
        = pre.flatMap keyCode ++ (codepointToUtf8 c ++ post.flatMap keyCode) := by
      rw [htake, List.flatMap_append, List.flatMap_cons, keyCode, swapKeyCode_of_large (by omega)]
    rw [hcode] at heq
    obtain ⟨hdecode, hlength⟩ := decodedLength_append hspelt
      (codepointToUtf8 c ++ post.flatMap keyCode)
    rw [hdecode] at heq
    have hread := splitFirstChar32_five (by omega) hmax (post.flatMap keyCode)
    by_cases hlow : c % 0x4000000 < 0x200000
    · -- the bytes that are not read are counted, but not decoded
      rw [if_pos hlow] at hread
      have hnone := chars32_of_none hread
      rw [hlength hnone, hkey, List.take_length_add_append, decodeKey, encodeDecodeKeyImpl, hnone,
        List.append_right_inj, codepointToUtf8_five (by omega) hmax] at heq
      cases heq
    · rw [if_neg hlow] at hread
      have hstarts : decodeKey (codepointToUtf8 c ++ post.flatMap keyCode)
          <+: UInt8.ofNat (0xFC + y) :: tail := by
        rw [← List.prefix_append_right_inj (pre.flatMap codepointToUtf8), ← heq, ← hkey]
        exact List.take_prefix _ _
      rw [decodeKey, encodeDecodeKeyImpl, chars32_of_some hread, List.flatMap_cons,
        swapKeyCode_of_large (by omega), codepointToUtf8_five (by omega) (by omega),
        Utf8Form.spell, List.cons_append] at hstarts
      have hheads : ∀ x < 4, ∀ y < 2, UInt8.ofNat (0xF8 + x) ≠ UInt8.ofNat (0xFC + y) := by decide
      exact hheads _ (Nat.mod_lt _ (by decide)) y hy (List.cons_prefix_cons.mp hstarts).1
  · intro hbits
    have hspelt : ∀ c ∈ (chars32 key).take n, IsSpelt c :=
      isSpelt_of_mem hnul fun c hc => ⟨List.mem_of_mem_take hc, hbits c hc⟩
    obtain ⟨rest, hkey, -⟩ := exists_append_of_chars32 hspelt
      (List.take_append_drop n (chars32 key)).symm
    obtain ⟨hdecode, hlength⟩ := decodedLength_append hspelt []
    rw [List.append_nil] at hdecode hlength
    rw [hdecode, hlength rfl]
    generalize (chars32 key).take n = cs at hkey
    rw [hkey, List.length_nil, Nat.add_zero, List.take_left]
    exact (List.append_nil _).symm

/-! ## The calls of a callback -/

/-- A call of a callback. -/
inductive Call where
  | onKey (key : Bytes)
  | onActualKey (key actualKey : Bytes) (numExpanded : Nat)
  | onToken (key actualKey : Bytes) (token : Token)
deriving DecidableEq

/-- A callback that keeps its calls, the first call first, and answers by them. -/
def answering (answer : List Call → ResultType) : Callback (List Call) where
  onKey key calls := (answer (calls ++ [.onKey key]), calls ++ [.onKey key])
  onActualKey key actualKey numExpanded calls :=
    (answer (calls ++ [.onActualKey key actualKey numExpanded]),
      calls ++ [.onActualKey key actualKey numExpanded])
  onToken key actualKey token calls :=
    (answer (calls ++ [.onToken key actualKey token]), calls ++ [.onToken key actualKey token])

/-- The answers that skip the tokens of every key. -/
def skipTokens (calls : List Call) : ResultType :=
  match calls.getLast? with
  | some (.onActualKey _ _ _) => .traverseNextKey
  | _ => .traverseContinue

theorem onKey_skipTokens (key : Bytes) (calls : List Call) :
    (answering skipTokens).onKey key calls = (.traverseContinue, calls ++ [.onKey key]) := by
  simp [answering, skipTokens]

theorem onActualKey_skipTokens (key actualKey : Bytes) (n : Nat) (calls : List Call) :
    (answering skipTokens).onActualKey key actualKey n calls
      = (.traverseNextKey, calls ++ [.onActualKey key actualKey n]) := by
  simp [answering, skipTokens]

section

variable {hiraganaToKatakana : Bytes → Bytes} {dict : SystemDictionary} {fuel : Nat}
  {key encodedKey : Bytes}

/-- **THE WALK CALLS EVERY KEY BY ITSELF.** -/
theorem runCallbackOnEachPrefix_skipTokens : ∀ (rest : Bytes) (i : Nat) (node : Node)
    (calls : List Call), (∀ p a n, .onActualKey p a n ∈ calls → p = a) →
    ∃ calls', runCallbackOnEachPrefix hiraganaToKatakana dict (answering skipTokens) fuel key
        encodedKey (fun _ => true) rest i node calls = some calls' ∧
      ∀ p a n, .onActualKey p a n ∈ calls' → p = a := by
  intro rest
  induction rest with
  | nil => exact fun i node calls hcalls => ⟨calls, rfl, hcalls⟩
  | cons label rest ih =>
    intro i node calls hcalls
    rw [runCallbackOnEachPrefix]
    cases dict.keyTrie.moveToChildByLabel label node with
    | none => exact ⟨calls, rfl, hcalls⟩
    | some node =>
      simp only [onKey_skipTokens, onActualKey_skipTokens, reduceCtorEq, or_self, if_false, if_true]
      split_ifs
      · exact ih (i + 1) node calls hcalls
      · refine ih (i + 1) node _ ?_
        intro p a n hmem
        rcases List.mem_append.mp hmem with hmem | hmem
        · rcases List.mem_append.mp hmem with hmem | hmem
          · exact hcalls p a n hmem
          · cases List.mem_singleton.mp hmem
        · cases List.mem_singleton.mp hmem
          rfl

theorem lookupTerminalNode_skipTokens (encodedPrefix actual : Bytes) (node : Node) (n : Nat)
    (calls : List Call) :
    lookupTerminalNode hiraganaToKatakana dict (answering skipTokens) fuel key encodedPrefix actual
        node n calls
      = if dict.keyTrie.isTerminalNode node = true then
          some (.traverseNextKey, calls ++ [.onKey (key.take (getDecodedKeyLength encodedPrefix))]
            ++ [.onActualKey (key.take (getDecodedKeyLength encodedPrefix)) (decodeKey actual) n])
        else some (.traverseContinue, calls) := by
  rw [lookupTerminalNode]
  cases dict.keyTrie.isTerminalNode node with
  | false => rfl
  | true =>
    simp only [onKey_skipTokens, onActualKey_skipTokens, reduceCtorEq, or_self, if_false, if_true]

variable {tt : TrieTable} {words : List Bytes} (hr : Represents dict.keyTrie tt words)
include hr

/-- **THE SEARCH IN DEPTH CALLS EVERY KEY** by what is cut out of the one that is looked up, with
    the key that is decoded.  The induction is on what is left of the encoded key. -/
theorem lookupPrefixWithKeyExpansionImpl_skipTokens {i : Nat} (hword : encodedKey.take i ∈ words)
    (hlen : i ≤ encodedKey.length) {calls' : List Call} {call : Call}
    (hcall : call = .onActualKey (key.take (getDecodedKeyLength (encodedKey.take i)))
      (decodeKey (encodedKey.take i)) 0) :
    ∀ (rest : Bytes) (node : Node) (keyPos : Nat) (calls : List Call),
      AtNode tt.toTable node (encodedKey.take keyPos) → encodedKey.drop keyPos = rest →
      call ∈ calls ∨ keyPos ≤ i →
      (lookupPrefixWithKeyExpansionImpl hiraganaToKatakana dict (answering skipTokens) fuel key
        encodedKey KeyExpansionTable.getDefaultInstance rest node keyPos 0
        (encodedKey.take keyPos) calls).map Prod.snd = some calls' → call ∈ calls' := by
  -- what the visit of a node leaves behind
  have hvisit : ∀ (node : Node) (keyPos : Nat) (calls : List Call),
      AtNode tt.toTable node (encodedKey.take keyPos) → call ∈ calls ∨ keyPos ≤ i →
      ∃ result calls₁, lookupTerminalNode hiraganaToKatakana dict (answering skipTokens) fuel key
          (encodedKey.take keyPos) (encodedKey.take keyPos) node 0 calls = some (result, calls₁) ∧
        ¬ (result = .traverseDone ∨ result = .traverseCull) ∧
        (call ∈ calls₁ ∨ keyPos < i) := by
    intro node keyPos calls hat hpos
    rw [lookupTerminalNode_skipTokens, isTerminalNode_eq hr hat]
    by_cases hterminal : encodedKey.take keyPos ∈ words
    · rw [decide_eq_true hterminal, if_pos rfl]
      refine ⟨_, _, rfl, by decide, ?_⟩
      rcases hpos with hmem | hle
      · exact Or.inl (List.mem_append_left _ (List.mem_append_left _ hmem))
      · rcases Nat.eq_or_lt_of_le hle with rfl | hlt
        · exact Or.inl (hcall ▸ List.mem_append_right _ (List.mem_singleton.mpr rfl))
        · exact Or.inr hlt
    · rw [decide_eq_false hterminal, if_neg Bool.false_ne_true]
      refine ⟨_, _, rfl, by decide, hpos.imp_right fun hle => Nat.lt_of_le_of_ne hle ?_⟩
      rintro rfl
      exact hterminal hword
  intro rest
  induction rest with
  | nil =>
    intro node keyPos calls hat hrest hpos hrun
    obtain ⟨result, calls₁, hnode, hgoes, hmem⟩ := hvisit node keyPos calls hat hpos
    rw [lookupPrefixWithKeyExpansionImpl, hnode, Option.bind_some] at hrun
    dsimp only at hrun
    rw [if_neg hgoes] at hrun
    obtain rfl := Option.some.inj hrun
    have hend := List.drop_eq_nil_iff.mp hrest
    exact hmem.resolve_right (by omega)
  | cons currentChar rest ih =>
    intro node keyPos calls hat hrest hpos hrun
    obtain ⟨result, calls₁, hnode, hgoes, hmem⟩ := hvisit node keyPos calls hat hpos
    obtain ⟨htake, hdrop⟩ := take_drop_succ hrest
    rw [lookupPrefixWithKeyExpansionImpl, hnode, Option.bind_some] at hrun
    dsimp only at hrun
    rw [if_neg hgoes] at hrun
    simp only [isHit_getDefaultInstance] at hrun
    rw [untilDone_eq _ calls₁ (nodup_labels hr hat)] at hrun
    have hleads := moveToChildByLabel_leads hr currentChar hat
    rw [moveToChildByLabel_eq_find, ← htake] at hleads
    cases hfind : (children dict.keyTrie node).find? (fun child =>
        decide (dict.keyTrie.getEdgeLabelToParentNode child = currentChar)) with
    | none =>
      rw [hfind] at hrun hleads
      obtain rfl := Option.some.inj hrun
      -- a longer word would have a child
      refine hmem.resolve_right fun hlt => hleads ?_
      have hsplit := List.take_append_drop (keyPos + 1) (encodedKey.take i)
      rw [List.take_take, Nat.min_eq_left (Nat.succ_le_of_lt hlt)] at hsplit
      exact tt.mem_nodes_of_append (hsplit.symm ▸ hr.word_mem _ hword)
    | some child =>
      rw [hfind] at hrun hleads
      dsimp only at hrun
      have hlabel : dict.keyTrie.getEdgeLabelToParentNode child = currentChar := by
        simpa using List.find?_some hfind
      rw [hlabel, if_neg (fun hne => hne rfl), ← htake] at hrun
      exact ih child (keyPos + 1) calls₁ hleads hdrop (hmem.imp_right Nat.succ_le_of_lt) hrun

end

section

variable {σ : Type} (hiraganaToKatakana : Bytes → Bytes) (dict : SystemDictionary)
  (callback : Callback σ) (fuel : Nat) (key : Bytes) (s : σ)

/-- `LookupPrefixWithKeyExpansionImpl` from the root on with the default table. -/
def searchInDepth : Option σ :=
  (lookupPrefixWithKeyExpansionImpl hiraganaToKatakana dict callback fuel key (encodeKey key)
    KeyExpansionTable.getDefaultInstance (encodeKey key) {} 0 0 [] s).map Prod.snd

/-- `RunCallbackOnEachPrefix` with the filter of `LookupPrefix`. -/
def walkAlong : Option σ :=
  runCallbackOnEachPrefix hiraganaToKatakana dict callback fuel key (encodeKey key) (fun _ => true)
    (encodeKey key) 0 {} s

end

/-- The code of a key is that of the first characters of a key that is looked up, and one of
    these is spelled with five bytes, but needs a bit more. -/
def LosesBit (key k : Bytes) : Prop :=
  ∃ n, encodeKey k = ((chars32 key).take n).flatMap keyCode ∧
    ∃ c ∈ (chars32 key).take n, NeedsSixBytes c

section

variable {hiraganaToKatakana : Bytes → Bytes} {minKeyLen : Nat} {tokens : List Token}
  {built : List KeyInfo × SystemDictionaryBuilder}
  (hbuild : buildFromTokens hiraganaToKatakana minKeyLen tokens = some built)
  {dict : SystemDictionary} (hopen : openDictionaryFile built.2 = some dict)
  {key : Bytes} (hnul : (0 : UInt8) ∉ key)
include hbuild hopen hnul

/-- **THE TWO WALKS FROM THE ROOT**, for any callback and its state. -/
theorem searchInDepth_eq (hbits : ∀ token ∈ tokens, ¬ LosesBit key token.key) {σ : Type}
    (callback : Callback σ) (fuel : Nat) (s : σ) :
    searchInDepth hiraganaToKatakana dict callback fuel key s
      = walkAlong hiraganaToKatakana dict callback fuel key s := by
  obtain ⟨tt, words, hr, hwords, -⟩ := represents_keyTrie hbuild hopen
  have hcodes : ∀ i, (encodeKey key).take i ∈ words →
      key.take (getDecodedKeyLength ((encodeKey key).take i))
        = decodeKey ((encodeKey key).take i) := by
    intro i hword
    obtain ⟨-, token, htoken, heq⟩ := hwords _ hword
    obtain ⟨n, hn⟩ := exists_take_of_prefix hnul (heq ▸ List.take_prefix i _)
    rw [heq, hn, take_getDecodedKeyLength_iff hnul]
    exact fun c hc hsix => hbits token htoken ⟨n, hn, c, hc, hsix⟩
  -- the root is not terminal
  have hroot : dict.keyTrie.isTerminalNode {} = false := by
    rw [isTerminalNode_eq hr atNode_trieRoot]
    exact decide_eq_false (fun hword => (hwords [] hword).1 rfl)
  have hwalks := @lookupPrefixWithKeyExpansionImpl_eq σ hiraganaToKatakana dict callback tt words
    hr fuel key (encodeKey key) hcodes (encodeKey key) {} 0 s atNode_trieRoot rfl
  rw [lookupTerminalNode, if_pos hroot, Option.bind_some] at hwalks
  exact hwalks

/-- **WALKS THAT AGREE** decode what they cut out. -/
theorem not_losesBit_of_eq
    (heq : searchInDepth hiraganaToKatakana dict (answering skipTokens) 0 key []
      = walkAlong hiraganaToKatakana dict (answering skipTokens) 0 key []) :
    ∀ token ∈ tokens, ¬ LosesBit key token.key := by
  rintro token htoken ⟨n, hn, c, hc, hsix⟩
  obtain ⟨tt, words, hr, -, hmem⟩ := represents_keyTrie hbuild hopen
  obtain ⟨calls, hwalk, hself⟩ := @runCallbackOnEachPrefix_skipTokens hiraganaToKatakana dict 0
    key (encodeKey key) (encodeKey key) 0 {} [] (fun p a n h => absurd h List.not_mem_nil)
  have hcode : encodeKey token.key = (encodeKey key).take (encodeKey token.key).length := by
    refine List.prefix_iff_eq_take.mp ?_
    rw [hn]
    conv_rhs => rw [encodeKey, encodeDecodeKeyImpl, ← List.take_append_drop n (chars32 key),
      List.flatMap_append]
    exact List.prefix_append _ _
  have hlen : (encodeKey token.key).length ≤ (encodeKey key).length := by
    rw [hcode]
    exact List.length_take_le' _ _
  have hword := hmem token htoken
  have hcall := lookupPrefixWithKeyExpansionImpl_skipTokens hr (hcode ▸ hword) hlen rfl
    (encodeKey key) {} 0 [] atNode_trieRoot rfl (Or.inr (Nat.zero_le _)) (heq.trans hwalk)
  have hcut := hself _ _ _ hcall
  rw [← hcode, hn, take_getDecodedKeyLength_iff hnul] at hcut
  exact hcut c hc hsix

end

/-- **THE WALK ALONG A KEY ENDS** in a dictionary of tokens that it can hold. -/
theorem exists_walkAlong {hiraganaToKatakana : Bytes → Bytes} {tokens : List Token}
    {l : List KeyInfo} {dict : SystemDictionary} {idOfValue : Bytes → Int} {byId : List KeyInfo}
    (h : Scanned hiraganaToKatakana tokens l dict idOfValue byId) {fuel : Nat}
    (hfuel : tokens.length < fuel) {σ : Type} (callback : Callback σ) (key : Bytes) (s : σ) :
    ∃ s', walkAlong hiraganaToKatakana dict callback fuel key s = some s' := by
  obtain ⟨block, -, hyields⟩ := exists_blocks h hfuel key (encodeKey key)
  obtain ⟨s', hrun, -⟩ := runCallbackOnEachPrefix_eq callback (fun _ => true) block
    (encodeKey key) 0 {} s hyields
  exact ⟨s', hrun⟩

/-- **THE WALKS MAKE THE SAME CALLS** for a key without U+0000 and any answers, exactly unless the
    code of a key of the dictionary has lost a bit of a character of the key; they end if the
    dictionary can hold its tokens. -/
theorem prefix_walks_agree_iff (hiraganaToKatakana : Bytes → Bytes) (minKeyLen : Nat)
    (tokens : List Token) (built : List KeyInfo × SystemDictionaryBuilder)
    (hbuild : buildFromTokens hiraganaToKatakana minKeyLen tokens = some built)
    (dict : SystemDictionary) (hopen : openDictionaryFile built.2 = some dict)
    (key : Bytes) (hnul : (0 : UInt8) ∉ key) :
    ((∀ answer fuel, searchInDepth hiraganaToKatakana dict (answering answer) fuel key []
        = walkAlong hiraganaToKatakana dict (answering answer) fuel key [])
      ↔ ∀ token ∈ tokens, ¬ LosesBit key token.key) ∧
    ((∀ token ∈ tokens, Acceptable token) →
      (storedValuesOf hiraganaToKatakana tokens).dedup.length ≤ 2 ^ 22 →
      ∀ answer fuel, tokens.length < fuel → ∃ calls,
        walkAlong hiraganaToKatakana dict (answering answer) fuel key [] = some calls) := by
  refine ⟨⟨?_, ?_⟩, ?_⟩
  · intro h
    exact not_losesBit_of_eq hbuild hopen hnul (h skipTokens 0)
  · intro hbits answer fuel
    exact searchInDepth_eq hbuild hopen hnul hbits _ fuel []
  · intro hacceptable hfew answer fuel hfuel
    obtain ⟨_, _, hscanned⟩ := scanned_of_build hacceptable hfew hbuild hopen
    exact exists_walkAlong hscanned hfuel _ key []

/-- A callback that goes on gets the same calls of both walks. -/
theorem prefix_walks_agree_stored : ∃ built dict calls,
    buildFromTokens id 0 storedTokens = some built ∧ openDictionaryFile built.2 = some dict ∧
      walkAlong id dict (answering (fun _ => .traverseContinue)) 4 (ascii "ab") [] = some calls ∧
      searchInDepth id dict (answering (fun _ => .traverseContinue)) 4 (ascii "ab") []
        = some calls := by
  obtain ⟨built, b, dict, hbuild, hopen⟩ :=
    exists_opened_of_few id acceptable_storedTokens (by decide) (by decide)
  obtain ⟨hagree, hends⟩ := prefix_walks_agree_iff id 0 storedTokens (built, b) hbuild dict hopen
    (ascii "ab") (by decide)
  have hchars : chars32 (ascii "ab") = [0x61, 0x62] := by decide
  have hbits : ∀ token ∈ storedTokens, ¬ LosesBit (ascii "ab") token.key := by
    rintro token - ⟨n, -, c, hc, hsix⟩
    rw [hchars] at hc
    have hnone : ∀ c ∈ [0x61, 0x62], ¬ NeedsSixBytes c := by decide
    exact hnone c (List.mem_of_mem_take hc) hsix
  obtain ⟨calls, hcalls⟩ :=
    hends acceptable_storedTokens (by decide) (fun _ => .traverseContinue) 4 (by decide)
  exact ⟨(built, b), dict, calls, hbuild, hopen, hcalls, (hagree.mpr hbits _ 4).trans hcalls⟩

/-- A token whose key is a sequence of six bytes, for the code point 0x4200000. -/
def sixBytesToken : Token := { storedToken with key := [0xFC, 0x84, 0x88, 0x80, 0x80, 0x80] }

example : chars32 sixBytesToken.key = [0x4200000] := by decide +kernel

/-- **A KEY OUTSIDE OF UNICODE** can lose a bit of its code point in its code: the walks
    report other actual keys. -/
theorem prefix_walks_differ : ¬ ∀ (tokens : List Token)
    (built : List KeyInfo × SystemDictionaryBuilder) (dict : SystemDictionary) (key : Bytes)
    (answer : List Call → ResultType) (fuel : Nat), buildFromTokens id 0 tokens = some built →
      openDictionaryFile built.2 = some dict → (0 : UInt8) ∉ key →
        searchInDepth id dict (answering answer) fuel key []
          = walkAlong id dict (answering answer) fuel key [] := by
  intro h
  have hbuild : (buildFromTokens id 0 [sixBytesToken]).isSome = true := by decide +kernel
  obtain ⟨built, hbuilt⟩ := Option.isSome_iff_exists.mp hbuild
  have hopens : ∃ dict, openDictionaryFile built.2 = some dict ∧
      searchInDepth id dict (answering (fun _ => .traverseContinue)) 2 sixBytesToken.key []
        ≠ walkAlong id dict (answering (fun _ => .traverseContinue)) 2 sixBytesToken.key [] := by
    have hrun : ((buildFromTokens id 0 [sixBytesToken]).bind (fun built =>
        (openDictionaryFile built.2).map (fun dict => decide
          (searchInDepth id dict (answering (fun _ => .traverseContinue)) 2 sixBytesToken.key []
            = walkAlong id dict (answering (fun _ => .traverseContinue)) 2
              sixBytesToken.key [])))) = some false := by decide +kernel
    rw [hbuilt, Option.bind_some, Option.map_eq_some_iff] at hrun
    obtain ⟨dict, hopen, hne⟩ := hrun
    exact ⟨dict, hopen, of_decide_eq_false hne⟩
  obtain ⟨dict, hopen, hne⟩ := hopens
  exact hne (h [sixBytesToken] built dict sixBytesToken.key _ 2 hbuilt hopen (by decide))

end MozkeyDictionary
