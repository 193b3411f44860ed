import Mozkey.LoudsTrieProofs
import Mozkey.LoudsTrieBuilderProofs

/-! # LoudsTrie — agreement of the builder and the trie

    The rows that the builder writes are the table of a trie, and the image that it pads
    and concatenates is read back as a representation of the table.  With that, the ids of
    the builder are the ids of the searches. -/

namespace MozkeyLouds

open ByteString LittleEndian PrefixLevels RankSelect UnaryTree MozkeySuccinct

/-! ## The table of a sorted list -/

/-- The rounds that `Build` needs at most. -/
def levelFuel (words : List Bytes) : Nat := words.flatten.length + 1

theorem levelFuel_bound (words : List Bytes) :
    ∀ w ∈ words, 0 ≤ w.length ∧ w.length < 0 + levelFuel words := by
  intro w hw
  have := (List.sublist_flatten_of_mem hw).length_le
  rw [levelFuel]
  omega

theorem groups_zero {words : List Bytes} (hsorted : words.Pairwise (· < ·)) (hne : words ≠ []) :
    groups 0 words = [[]] := by
  refine List.Pairwise.eq_of_mem_iff (pairwise_groups 0 hsorted) (List.pairwise_singleton _ _) ?_
  intro p
  rw [mem_groups, List.mem_singleton]
  constructor
  · rintro ⟨w, -, rfl⟩
    rfl
  · rintro rfl
    obtain ⟨w, hw⟩ := List.exists_mem_of_ne_nil words hne
    exact ⟨w, hw, rfl⟩

/-- The rows of the trie of a sorted list; without words the root is alone. -/
def trieRows (words : List Bytes) : List (Bytes × List Bytes) :=
  if words.isEmpty then [([], [])] else levels (levelFuel words) 0 words

/-- The table of the trie of a sorted list. -/
def trieTable (words : List Bytes) (hsorted : words.Pairwise (· < ·)) : TrieTable where
  root := []
  rows := trieRows words
  nodes_eq := by
    rw [trieRows]
    by_cases hempty : words.isEmpty = true
    · rw [if_pos hempty]
      rfl
    · rw [if_neg hempty, map_fst_levels _ 0 hsorted (levelFuel_bound words),
        groups_zero hsorted (fun h => hempty (List.isEmpty_iff.mpr h))]
      rfl
  root_eq := rfl
  child_eq := by
    rw [trieRows]
    by_cases hempty : words.isEmpty = true
    · rw [if_pos hempty]
      intro row hrow c hc
      rw [List.mem_singleton.mp hrow] at hc
      exact nomatch hc
    · rw [if_neg hempty]
      exact levels_children _ 0
  nodup := by
    rw [trieRows]
    by_cases hempty : words.isEmpty = true
    · rw [if_pos hempty]
      exact List.nodup_singleton _
    · rw [if_neg hempty]
      exact nodup_levels _ 0 hsorted (levelFuel_bound words)

theorem mem_nodes_trieTable {words : List Bytes} (hsorted : words.Pairwise (· < ·)) :
    ∀ w ∈ words, w ∈ (trieTable words hsorted).nodes := by
  intro w hw
  show w ∈ (trieRows words).map Prod.fst
  rw [trieRows, if_neg (by rw [List.isEmpty_iff]; exact List.ne_nil_of_mem hw)]
  exact mem_levels _ 0 (levelFuel_bound words) w hw

theorem exists_take_of_mem_nodes {words : List Bytes} (hsorted : words.Pairwise (· < ·))
    {p : Bytes} (hp : p ∈ (trieTable words hsorted).nodes) (hne : p ≠ []) :
    ∃ w ∈ words, ∃ n, w.take n = p := by
  change p ∈ (trieRows words).map Prod.fst at hp
  rw [trieRows] at hp
  by_cases hempty : words.isEmpty = true
  · rw [if_pos hempty] at hp
    exact absurd (List.mem_singleton.mp hp) hne
  · rw [if_neg hempty] at hp
    exact exists_take_of_mem_levels _ 0 p hp

/-! ## The ids -/

section Ids

variable {tt : TrieTable} {words : List Bytes}

theorem count_terminalBits (hnodup : words.Nodup) (hmem : ∀ w ∈ words, w ∈ tt.nodes) :
    (tt.terminalBits words).count true = words.length := by
  have hperm : (tt.nodes.filter (fun p => decide (p ∈ words))).Perm words := by
    refine (List.perm_ext_iff_of_nodup (tt.nodup.filter _) hnodup).mpr ?_
    intro p
    rw [List.mem_filter, decide_eq_true_iff]
    exact ⟨And.right, fun h => ⟨hmem p h, h⟩⟩
  rw [TrieTable.terminalBits, List.count, List.countP_map, ← hperm.length_eq,
    ← List.countP_eq_length_filter]
  refine List.countP_congr ?_
  intro p _
  exact beq_iff_eq

/-- **THE IDS NUMBER THE WORDS** from zero. -/
theorem bijOn_keyId (hnodup : words.Nodup) (hmem : ∀ w ∈ words, w ∈ tt.nodes) :
    Set.BijOn (tt.keyId words) {w | w ∈ words} (Set.Iio words.length) := by
  have hcount := count_terminalBits hnodup hmem
  refine ⟨?_, ?_, ?_⟩
  · intro w hw
    have := (tt.isSelect_keyId (hmem w hw) hw).le_count
    rw [hcount] at this
    exact this
  · intro w hw v hv heq
    have h1 := tt.isSelect_keyId (hmem w hw) hw
    have h2 := tt.isSelect_keyId (hmem v hv) hv
    rw [heq] at h1
    exact (List.idxOf_inj (hmem w hw)).mp (h1.unique h2)
  · intro n hn
    have hn' : n < words.length := hn
    obtain ⟨q, hq⟩ := exists_isSelect (b := true) (n := n + 1)
      (Nat.succ_pos n) (by rw [hcount]; exact hn')
    have hbit := hq.1
    rw [TrieTable.terminalBits, List.getElem?_map] at hbit
    obtain ⟨p, hp, hword⟩ := Option.map_eq_some_iff.mp hbit
    refine ⟨p, of_decide_eq_true hword, ?_⟩
    rw [TrieTable.keyId, tt.idxOf_eq hp, hq.rank_eq]
    rfl

/-- The id of a word counts the words before it, without the root. -/
theorem keyId_eq_countP {paths : List Bytes} (hnodes : tt.nodes = [] :: paths)
    (hne : ∀ w ∈ words, w ≠ []) {w : Bytes} (hw : w ∈ words) :
    tt.keyId words w = (paths.take (paths.idxOf w)).countP (isWord words) := by
  have hroot : decide (([] : Bytes) ∈ words) = false :=
    decide_eq_false (fun h => hne [] h rfl)
  rw [TrieTable.keyId, rank, TrieTable.terminalBits, ← List.map_take, hnodes,
    List.idxOf_cons_ne _ (fun h => hne w hw h.symm), List.take_succ_cons, List.map_cons, hroot,
    List.count_cons_of_ne (by decide), List.count, List.countP_map]
  refine List.countP_congr ?_
  intro p _
  exact beq_iff_eq

end Ids

/-! ## The output of the builder -/

theorem map_word_zipIdx (words : List Bytes) :
    (words.zipIdx.map (fun w => ({ word := w.1, originalIndex := w.2 } : Entry))).map Entry.word
      = words := by
  rw [List.map_map]
  exact List.zipIdx_map_fst 0 words

theorem isEntry_zipIdx {words : List Bytes} (hnodup : words.Nodup) :
    ∀ e ∈ words.zipIdx.map (fun w => ({ word := w.1, originalIndex := w.2 } : Entry)),
      IsEntry words e := by
  intro e he
  obtain ⟨⟨w, i⟩, hw, rfl⟩ := List.mem_map.mp he
  have hget : words[i]? = some w := List.mem_zipIdx_iff_getElem?.mp hw
  refine ⟨List.mem_of_getElem? hget, ?_⟩
  obtain ⟨hlt, rfl⟩ := List.getElem?_eq_some_iff.mp hget
  exact hnodup.idxOf_getElem i hlt

/-- **THE OUTPUT OF `Build`**, before the padding. -/
theorem written_outputWords {words : List Bytes} (hsorted : words.Pairwise (· < ·)) :
    Written words ([true, false] ++ unary ((levels (levelFuel words) 0 words).map
        (fun r => r.2.length)))
      ((levels (levelFuel words) 0 words).flatMap Prod.snd)
      (LoudsTrieBuilder.outputWords words []) := by
  have hroot : Written words [true, false] []
      (LoudsTrieBuilder.rootOutput (resize [] words.length (-1))) :=
    { trie := holds_pushBit (holds_pushBit holds_empty true) false
      terminal := holds_pushBit holds_empty false
      edge := rfl
      id := rfl
      length := by
        show (resize [] words.length (-1)).length = _
        rw [resize, List.take_nil, List.nil_append, List.length_replicate]
        rfl
      idList := fun w _ h => nomatch h }
  have hnodup : ([] ++ (levels (levelFuel words) 0 words).flatMap Prod.snd).Nodup := by
    have h := nodup_levels _ 0 hsorted (levelFuel_bound words)
    rw [map_fst_levels _ 0 hsorted (levelFuel_bound words)] at h
    exact (List.nodup_append.mp h).2.1
  have h := written_rows hroot hnodup
  rw [List.nil_append] at h
  have hlevels := outputLevels_eq (levelFuel words) 0
    (LoudsTrieBuilder.rootOutput (resize [] words.length (-1)))
    
    (by rw [map_word_zipIdx]; exact hsorted)
    (fun p hp _ => by rw [map_word_zipIdx]; exact hp)
    (isEntry_zipIdx (hsorted.imp ne_of_lt))
  rw [map_word_zipIdx] at hlevels
  rw [LoudsTrieBuilder.outputWords]
  change Written _ _ _ (outputLevels (levelFuel words) 0 _ _)
  rw [hlevels]
  exact h

theorem nodes_trieTable {words : List Bytes} (hsorted : words.Pairwise (· < ·)) :
    (trieTable words hsorted).nodes
      = [] :: (levels (levelFuel words) 0 words).flatMap Prod.snd := by
  rw [Table.nodes, (trieTable words hsorted).nodes_eq]
  show [] :: (trieRows words).flatMap Prod.snd = _
  rw [trieRows]
  cases words <;> rfl

theorem exists_pad_trieTable {words : List Bytes} (hsorted : words.Pairwise (· < ·)) (k : Nat)
    (hk : (2 + k) % 8 = 0 ∨ words ≠ []) :
    ∃ pad, [true, false] ++ unary ((levels (levelFuel words) 0 words).map (fun r => r.2.length))
        ++ List.replicate k false = (trieTable words hsorted).bits ++ pad := by
  cases words with
  | nil =>
    obtain ⟨n, rfl⟩ : ∃ n, k = n + 1 := ⟨k - 1, by
      have := hk.resolve_right (fun h => h rfl)
      omega⟩
    exact ⟨List.replicate n false, rfl⟩
  | cons w rest => exact ⟨List.replicate k false, rfl⟩

/-! ## The image -/

/-- The image of a header and three parts. -/
def imageOf (trieImage terminalImage edgeCharacter : Bytes) : Bytes :=
  withHeader trieImage.length terminalImage.length 8 edgeCharacter.length
    (trieImage ++ (terminalImage ++ edgeCharacter))

/-- **`Open` READS THE PARTS BACK.** -/
theorem openTrie_imageOf {trieImage terminalImage edgeCharacter : Bytes}
    (htrie : trieImage.length ≤ 0xFFFFFFFF) (hterminal : terminalImage.length ≤ 0xFFFFFFFF)
    (hedge : edgeCharacter.length ≤ 0xFFFFFFFF) (lb0 lb1 s0 s1 tlb1 : Nat) :
    LoudsTrie.openTrie (imageOf trieImage terminalImage edgeCharacter) lb0 lb1 s0 s1 tlb1
      = if ¬ toInt edgeCharacter.length > 0 then none
        else if intLimit ≤ trieImage.length ∨ intLimit ≤ terminalImage.length then none
        else (Louds.init trieImage lb0 lb1 s0 s1).bind (fun louds =>
          (MozkeySuccinct.init kChunkSize terminalImage 0 tlb1).map (fun terminalBitVector =>
            { louds := louds
              terminalBitVector := terminalBitVector
              edgeCharacter := edgeCharacter })) := by
  obtain ⟨hzero, hone, htwo, hthree, hparts⟩ := headerField_withHeader htrie hterminal
    (show 8 ≤ 0xFFFFFFFF by decide) hedge (trieImage ++ (terminalImage ++ edgeCharacter))
  have hinside : ¬ (imageOf trieImage terminalImage edgeCharacter).length
      < 16 + trieImage.length + terminalImage.length := by
    rw [imageOf, length_withHeader, List.length_append, List.length_append]
    omega
  rw [LoudsTrie.openTrie]
  dsimp only
  rw [imageOf] at hinside ⊢
  rw [hzero, hone, htwo, hthree, hparts, if_neg (fun h => h rfl)]
  simp only [hinside, or_false, List.take_left, List.drop_left]

variable {built : LoudsTrieBuilder}

theorem build_eq_some {b : LoudsTrieBuilder} {words : List Bytes}
    (hwords : unique (b.wordList.insertionSort (· ≤ ·)) = words) (hids : b.idList = [])
    (himage : b.image = []) (h : b.build = some built) :
    built.built = true ∧ built.wordList = words ∧
      built.idList = (LoudsTrieBuilder.outputWords words []).idList ∧
      ∃ trieImage terminalImage edgeCharacter,
        trieImage = (LoudsTrieBuilder.outputWords words []).trieStream.fillPadding32.image ∧
        terminalImage
          = (LoudsTrieBuilder.outputWords words []).terminalStream.fillPadding32.image ∧
        edgeCharacter = (LoudsTrieBuilder.outputWords words []).edgeCharacter ∧
        trieImage.length ≤ 0xFFFFFFFF ∧ terminalImage.length ≤ 0xFFFFFFFF ∧
        edgeCharacter.length ≤ 0xFFFFFFFF ∧
        built.image = imageOf trieImage terminalImage edgeCharacter := by
  rw [LoudsTrieBuilder.build] at h
  by_cases hb : b.built = true
  · rw [if_pos hb] at h
    exact nomatch h
  · rw [if_neg hb, hwords, hids, himage] at h
    obtain ⟨image0, h0, h⟩ := Option.bind_eq_some_iff.mp h
    obtain ⟨image1, h1, h⟩ := Option.bind_eq_some_iff.mp h
    obtain ⟨image2, h2, h⟩ := Option.bind_eq_some_iff.mp h
    obtain ⟨image3, h3, h⟩ := Option.bind_eq_some_iff.mp h
    obtain ⟨hle0, rfl⟩ := pushInt32_eq_some.mp h0
    obtain ⟨hle1, rfl⟩ := pushInt32_eq_some.mp h1
    obtain ⟨-, rfl⟩ := pushInt32_eq_some.mp h2
    obtain ⟨hle3, rfl⟩ := pushInt32_eq_some.mp h3
    rw [← Option.some.inj h]
    refine ⟨rfl, rfl, rfl, _, _, _, rfl, rfl, rfl, hle0, hle1, hle3, ?_⟩
    simp only [imageOf, withHeader, BitStream.byteSize, List.nil_append, List.append_assoc]

/-! ## Sizes -/

variable {added : List Bytes}

/-- The nodes of the trie of a collection: the prefixes of its words, and the root. -/
def prefixesOf (added : List Bytes) : List Bytes := ([] :: added.flatMap List.inits).dedup

theorem mem_prefixesOf {p : Bytes} :
    p ∈ prefixesOf added ↔ p = [] ∨ ∃ w ∈ added, p <+: w := by
  rw [prefixesOf, List.mem_dedup, List.mem_cons, List.mem_flatMap]
  simp only [List.mem_inits]

theorem perm_nodes_trieTable {words : List Bytes} (hsorted : words.Pairwise (· < ·))
    (hmem : ∀ w, w ∈ words ↔ w ∈ added) :
    (trieTable words hsorted).nodes.Perm (prefixesOf added) := by
  refine (List.perm_ext_iff_of_nodup (trieTable words hsorted).nodup
    (List.nodup_dedup _)).mpr ?_
  intro p
  change p ∈ (trieTable words hsorted).nodes ↔ p ∈ prefixesOf added
  rw [mem_prefixesOf]
  constructor
  · intro hp
    by_cases hne : p = []
    · exact Or.inl hne
    · obtain ⟨w, hw, n, rfl⟩ := exists_take_of_mem_nodes hsorted hp hne
      exact Or.inr ⟨w, (hmem w).mp hw, List.take_prefix n w⟩
  · rintro (rfl | ⟨w, hw, rest, rfl⟩)
    · rw [nodes_trieTable hsorted]
      exact List.mem_cons_self
    · exact (trieTable words hsorted).mem_nodes_of_append
        (mem_nodes_trieTable hsorted _ ((hmem _).mpr hw))

/-- There are at most as many nodes behind the root as bytes in the words. -/
theorem length_prefixesOf_le (added : List Bytes) :
    (prefixesOf added).length ≤ added.flatten.length + 1 := by
  have hsubset : prefixesOf added
      ⊆ [] :: added.flatMap (fun w => (List.range w.length).map (fun i => w.take (i + 1))) := by
    intro p hp
    by_cases hne : p = []
    · rw [hne]
      exact List.mem_cons_self
    · obtain ⟨w, hw, hprefix⟩ := (mem_prefixesOf.mp hp).resolve_left hne
      have hpos := List.length_pos_iff.mpr hne
      have hle := hprefix.length_le
      refine List.mem_cons_of_mem _ (List.mem_flatMap.mpr ⟨w, hw, List.mem_map.mpr
        ⟨p.length - 1, List.mem_range.mpr (by omega), ?_⟩⟩)
      rw [Nat.sub_add_cancel hpos]
      exact (List.prefix_iff_eq_take.mp hprefix).symm
  refine ((List.subperm_of_subset (List.nodup_dedup _) hsubset).length_le).trans ?_
  rw [List.length_cons, List.length_flatMap, List.length_flatten]
  simp only [List.length_map, List.length_range]
  exact Nat.le_refl _

section Written

variable {words : List Bytes} (hsorted : words.Pairwise (· < ·))
include hsorted

theorem length_levels : (levels (levelFuel words) 0 words).length
    = if words = [] then 0 else (trieTable words hsorted).nodes.length := by
  rw [nodes_trieTable hsorted]
  have h := congrArg List.length (map_fst_levels _ 0 hsorted (levelFuel_bound words))
  rw [List.length_map, List.length_append] at h
  rw [h, List.length_cons]
  split_ifs with hnil
  · rw [hnil]
    rfl
  · rw [groups_zero hsorted hnil, List.length_singleton, Nat.add_comm]

/-- **THE BITS OF THE TREE** are two for each node and one more, rounded up to words. -/
theorem trieImage_spec :
    (LoudsTrieBuilder.outputWords words []).trieStream.fillPadding32.image.length
        = 4 * ((2 * (trieTable words hsorted).nodes.length + 32) / 32) ∧
      (bitsOf (LoudsTrieBuilder.outputWords words []).trieStream.fillPadding32.image).count true
        = (trieTable words hsorted).nodes.length := by
  have hw := written_outputWords hsorted
  obtain ⟨-, k, hbits⟩ := fillPadding32_spec hw.trie
  have hrows := length_levels hsorted
  have hnodes := congrArg List.length (nodes_trieTable hsorted)
  rw [List.length_cons, List.length_flatMap] at hnodes
  have hpad : (List.replicate k false).count true = 0 := List.count_eq_zero.mpr
    (fun hmem => nomatch List.eq_of_mem_replicate hmem)
  have htwo : [true, false].length = 2 := rfl
  have hone : [true, false].count true = 1 := rfl
  rw [length_fillPadding32 hw.trie, hbits, List.length_append, length_unary, List.length_map,
    hrows, List.count_append, List.count_append, count_true_unary, hpad, htwo, hone]
  refine ⟨?_, by omega⟩
  split_ifs with hnil
  · -- without words there is only the root
    rw [if_pos hnil] at hrows
    have hnone := List.eq_nil_of_length_eq_zero hrows
    rw [hnone] at hnodes ⊢
    rw [hnodes]
    rfl
  · omega

/-- The terminal bits are one for each node. -/
theorem length_terminalImage :
    (LoudsTrieBuilder.outputWords words []).terminalStream.fillPadding32.image.length
      = 4 * (((trieTable words hsorted).nodes.length + 31) / 32) := by
  rw [length_fillPadding32 (written_outputWords hsorted).terminal, List.length_cons,
    List.length_map, nodes_trieTable hsorted, List.length_cons]

theorem length_edgeCharacter : (LoudsTrieBuilder.outputWords words []).edgeCharacter.length
    = (trieTable words hsorted).nodes.length := by
  rw [(written_outputWords hsorted).edge, List.length_cons, List.length_map,
    nodes_trieTable hsorted, List.length_cons]

/-! ## What is opened -/

theorem represents_of_written (hne : ∀ w ∈ words, w ≠ []) {louds : Louds}
    {terminalBitVector : SimpleSuccinctBitVectorIndex}
    (hlouds : Ready (LoudsTrieBuilder.outputWords words []).trieStream.fillPadding32.image louds)
    (hdata : terminalBitVector.data
      = (LoudsTrieBuilder.outputWords words []).terminalStream.fillPadding32.image)
    (hanswers : Answers terminalBitVector.data terminalBitVector) :
    Represents
      { louds := louds
        terminalBitVector := terminalBitVector
        edgeCharacter := (LoudsTrieBuilder.outputWords words []).edgeCharacter }
      (trieTable words hsorted) words := by
  have hw := written_outputWords hsorted
  obtain ⟨-, k, hbits⟩ := fillPadding32_spec hw.trie
  obtain ⟨-, k', hbits'⟩ := fillPadding32_spec hw.terminal
  have hroot : isWord words [] = false := decide_eq_false (fun h => hne [] h rfl)
  have hnodes := nodes_trieTable hsorted
  refine
    { louds := ⟨?_⟩
      terminal := ⟨List.replicate k' false, ?_⟩
      answers := hanswers
      label := ?_
      word_mem := mem_nodes_trieTable hsorted }
  · have hk : (2 + k) % 8 = 0 ∨ words ≠ [] := by
      by_cases hnil : words = []
      · refine Or.inl ?_
        have hlen := congrArg List.length hbits
        rw [length_bitsOf, List.length_append, List.length_replicate, hnil] at hlen
        change _ = 2 + k at hlen
        omega
      · exact Or.inr hnil
    obtain ⟨pad, hpad⟩ := exists_pad_trieTable hsorted k hk
    exact ⟨_, pad, hbits.trans hpad, hlouds⟩
  · rw [hdata, hbits', TrieTable.terminalBits, hnodes, List.map_cons]
    change _ = isWord words [] :: _ ++ _
    rw [hroot]
    rfl
  · intro i p hp
    rw [hnodes] at hp
    show (LoudsTrieBuilder.outputWords words []).edgeCharacter.getD i 0 = _
    rw [hw.edge, List.getD_eq_getElem?_getD]
    cases i with
    | zero => rw [← Option.some.inj hp]; rfl
    | succ i =>
      rw [List.getElem?_cons_succ] at hp
      rw [List.getElem?_cons_succ, List.getElem?_map, hp]
      rfl

end Written

/-- The limits of a trie: an `int` counts the bits of its nodes, and the caches fit into
    their vectors. -/
structure FitsTrie (added : List Bytes) (lb0 lb1 tlb1 : Nat) : Prop where
  nodes : (prefixesOf added).length + 16 < 2 ^ 30
  lb0Cache : lb0 + 2 < 2 ^ 60
  lb1Cache : lb1 + 2 < 2 ^ 60
  termvecCache : tlb1 + 2 < 2 ^ 60

/-- **THE OPENED IMAGE** represents the table and the words, within the limits and only
    there. -/
theorem open_written {words : List Bytes} (hsorted : words.Pairwise (· < ·))
    (hne : ∀ w ∈ words, w ≠ []) (hmem : ∀ w, w ∈ words ↔ w ∈ added)
    (lb0 lb1 s0 s1 tlb1 : Nat) {trieImage terminalImage edgeCharacter : Bytes}
    (htrie : trieImage = (LoudsTrieBuilder.outputWords words []).trieStream.fillPadding32.image)
    (hterminal : terminalImage
      = (LoudsTrieBuilder.outputWords words []).terminalStream.fillPadding32.image)
    (hedge : edgeCharacter = (LoudsTrieBuilder.outputWords words []).edgeCharacter)
    (hle0 : trieImage.length ≤ 0xFFFFFFFF) (hle1 : terminalImage.length ≤ 0xFFFFFFFF)
    (hle2 : edgeCharacter.length ≤ 0xFFFFFFFF) :
    ((LoudsTrie.openTrie (imageOf trieImage terminalImage edgeCharacter) lb0 lb1 s0 s1
      tlb1).isSome = true ↔ FitsTrie added lb0 lb1 tlb1) ∧
      ∀ trie, LoudsTrie.openTrie (imageOf trieImage terminalImage edgeCharacter) lb0 lb1 s0 s1
        tlb1 = some trie → Represents trie (trieTable words hsorted) words := by
  have hnodes := (perm_nodes_trieTable hsorted hmem).length_eq
  obtain ⟨hlength, hcount⟩ := trieImage_spec hsorted
  have hlength1 := length_terminalImage hsorted
  have hlength2 := length_edgeCharacter hsorted
  have haligned := (fillPadding32_spec (written_outputWords hsorted).trie).1
  have haligned1 := (fillPadding32_spec (written_outputWords hsorted).terminal).1
  rw [← htrie, hnodes] at hlength hcount
  rw [← hterminal, hnodes] at hlength1
  rw [← hedge, hnodes] at hlength2
  rw [← htrie] at haligned
  rw [← hterminal] at haligned1
  have hlimit : intLimit = 2147483648 := rfl
  rw [openTrie_imageOf hle0 hle1 hle2]
  have hfits : FitsTrie added lb0 lb1 tlb1 →
      ∃ trie, (if ¬ toInt edgeCharacter.length > 0 then none
        else if intLimit ≤ trieImage.length ∨ intLimit ≤ terminalImage.length then none
        else (Louds.init trieImage lb0 lb1 s0 s1).bind (fun louds =>
          (MozkeySuccinct.init kChunkSize terminalImage 0 tlb1).map (fun terminalBitVector =>
            ({ louds := louds
               terminalBitVector := terminalBitVector
               edgeCharacter := edgeCharacter } : LoudsTrie)))) = some trie ∧
        Represents trie (trieTable words hsorted) words := by
    rintro ⟨hnum, hlb0, hlb1, htlb1⟩
    have hpos : 0 < edgeCharacter.length := by
      rw [hedge, (written_outputWords hsorted).edge]
      exact Nat.succ_pos _
    obtain ⟨louds, hlouds, hready⟩ := exists_init haligned
      (fits_of_count (by omega) (by omega) hlb0 hlb1) s0 s1
    obtain ⟨terminalBitVector, hinit, hdata, hanswers⟩ := exists_answers
      (show 4 ∣ kChunkSize by decide) (show 0 < kChunkSize by decide) haligned1
      (@fits_of_count terminalImage 0 tlb1 (by omega) (by omega) (by decide) htlb1)
    rw [if_neg (by rw [toInt_of_lt (by omega)]; omega), if_neg (by omega), hlouds,
      Option.bind_some, hinit, Option.map_some]
    refine ⟨_, rfl, ?_⟩
    rw [hedge]
    exact represents_of_written hsorted hne (htrie ▸ hready) (hdata.trans hterminal)
      (hdata ▸ hanswers)
  have hopened : ∀ trie, (if ¬ toInt edgeCharacter.length > 0 then none
      else if intLimit ≤ trieImage.length ∨ intLimit ≤ terminalImage.length then none
      else (Louds.init trieImage lb0 lb1 s0 s1).bind (fun louds =>
        (MozkeySuccinct.init kChunkSize terminalImage 0 tlb1).map (fun terminalBitVector =>
          ({ louds := louds
             terminalBitVector := terminalBitVector
             edgeCharacter := edgeCharacter } : LoudsTrie)))) = some trie →
      FitsTrie added lb0 lb1 tlb1 := by
    intro trie h
    split_ifs at h
    obtain ⟨louds, hlouds, h⟩ := Option.bind_eq_some_iff.mp h
    obtain ⟨terminalBitVector, hinit, -⟩ := Option.map_eq_some_iff.mp h
    obtain ⟨index, hindex, -⟩ := Option.bind_eq_some_iff.mp hlouds
    obtain ⟨hbits, hlb0, hlb1⟩ := sizes_of_init hindex
    exact ⟨by omega, hlb0, hlb1, (sizes_of_init hinit).2.2⟩
  refine ⟨⟨?_, ?_⟩, ?_⟩
  · intro h
    obtain ⟨trie, htrie'⟩ := Option.isSome_iff_exists.mp h
    exact hopened trie htrie'
  · intro h
    obtain ⟨trie, htrie', -⟩ := hfits h
    rw [htrie']
    rfl
  · intro trie h
    obtain ⟨trie', htrie', hrepresents⟩ := hfits (hopened trie h)
    rw [htrie'] at h
    exact Option.some.inj h ▸ hrepresents

/-! ## Building a collection -/

/-- `Add` for every word, then `Build`. -/
def buildAll (added : List Bytes) : Option LoudsTrieBuilder :=
  (added.foldlM LoudsTrieBuilder.add LoudsTrieBuilder.new).bind LoudsTrieBuilder.build

theorem foldlM_add : ∀ {added : List Bytes} {b : LoudsTrieBuilder}, b.built = false →
    (∀ w ∈ added, w ≠ []) →
    added.foldlM LoudsTrieBuilder.add b = some { b with wordList := b.wordList ++ added } := by
  intro added
  induction added with
  | nil =>
    intro b _ _
    rw [List.append_nil]
    rfl
  | cons w rest ih =>
    intro b hb hne
    have hw : ¬ w.isEmpty = true := by
      rw [List.isEmpty_iff]
      exact hne w List.mem_cons_self
    have hih := ih (b := { b with wordList := b.wordList ++ [w] }) hb
      (fun v hv => hne v (List.mem_cons_of_mem w hv))
    rw [List.append_assoc] at hih
    rw [List.foldlM_cons, LoudsTrieBuilder.add, if_neg (by rw [hb]; exact Bool.false_ne_true),
      if_neg hw]
    exact hih

theorem buildAll_eq (hne : ∀ w ∈ added, w ≠ []) :
    buildAll added
      = LoudsTrieBuilder.build
          { built := false, wordList := added, idList := [], image := [] } := by
  rw [buildAll, foldlM_add (b := LoudsTrieBuilder.new) rfl hne]
  rfl

/-- **BUILDING SUCCEEDS** as long as the sizes fit the header. -/
theorem buildAll_isSome (hne : ∀ w ∈ added, w ≠ [])
    (hsize : (prefixesOf added).length ≤ 2 ^ 31) : (buildAll added).isSome = true := by
  have hsorted := pairwise_sortedWords added
  have hmem : ∀ w, w ∈ unique (added.insertionSort (· ≤ ·)) ↔ w ∈ added :=
    fun w => mem_sortedWords
  generalize hwords : unique (added.insertionSort (· ≤ ·)) = words at hsorted hmem
  have hnodes := (perm_nodes_trieTable hsorted hmem).length_eq
  have htrie := (trieImage_spec hsorted).1
  have hterminal := length_terminalImage hsorted
  have hedge := length_edgeCharacter hsorted
  rw [hnodes] at htrie hterminal hedge
  have hsome : ∀ value image, value ≤ 0xFFFFFFFF →
      pushInt32 value image = some (image ++ storeLE 4 value) :=
    fun value image h => pushInt32_eq_some.mpr ⟨h, rfl⟩
  rw [buildAll_eq hne, LoudsTrieBuilder.build, if_neg Bool.false_ne_true]
  dsimp only
  rw [hwords]
  simp only [Option.bind_eq_bind, Option.bind_some, Option.isSome_some, BitStream.byteSize, htrie,
    hterminal, hedge, hsome _ _ (show 4 * ((2 * (prefixesOf added).length + 32) / 32)
      ≤ 0xFFFFFFFF by omega),
    hsome _ _ (show 4 * (((prefixesOf added).length + 31) / 32) ≤ 0xFFFFFFFF by omega),
    hsome _ _ (show 8 ≤ 0xFFFFFFFF by decide),
    hsome _ _ (show (prefixesOf added).length ≤ 0xFFFFFFFF by omega)]

/-! ## Agreement -/

/-- The ids of the builder number the added words; `id` is what `GetId` answers. -/
structure Numbers (added : List Bytes) (built : LoudsTrieBuilder) (id : Bytes → Int) : Prop where
  getId_eq : ∀ w, built.getId w = some (id w)
  bijOn : Set.BijOn id {w | w ∈ added} (Set.Ico 0 (added.dedup.length : Int))
  not_added : ∀ w, w ∉ added → id w = -1

/-- The searches of the trie and the ids of the builder agree on the added words. -/
structure Agreement (added : List Bytes) (built : LoudsTrieBuilder) (trie : LoudsTrie)
    (id : Bytes → Int) : Prop extends Numbers added built id where
  answers : Answers trie.louds.index.data trie.louds.index ∧
    Answers trie.terminalBitVector.data trie.terminalBitVector
  exactSearch_eq : ∀ w, trie.exactSearch w = id w
  restore : ∀ w ∈ added, trie.restoreKeyString (id w) = some w
  prefixSearch_eq : ∀ key,
    (trie.prefixSearch key).map (fun call => (call.1, (trie.getKeyIdOfTerminalNode call.2 : Int)))
      = ((List.range (key.length + 1)).filter (fun n => key.take n ∈ added)).map
          (fun n => (n, id (key.take n)))

/-- **WHAT A BUILT TRIE IS**: the opened image represents a table, and the ids are those of
    the table. -/
theorem represents_of_build (hne : ∀ w ∈ added, w ≠ []) (h : buildAll added = some built) :
    ∃ (words : List Bytes) (tt : TrieTable), words.Nodup ∧ (∀ w, w ∈ words ↔ w ∈ added) ∧
      (∀ w, built.getId w = some (if w ∈ words then (tt.keyId words w : Int) else -1)) ∧
      (∀ w ∈ words, w ∈ tt.nodes) ∧
      ∀ lb0 lb1 s0 s1 tlb1,
        ((LoudsTrie.openTrie built.image lb0 lb1 s0 s1 tlb1).isSome = true
          ↔ FitsTrie added lb0 lb1 tlb1) ∧
        ∀ trie, LoudsTrie.openTrie built.image lb0 lb1 s0 s1 tlb1 = some trie →
          Represents trie tt words := by
  have hsorted := pairwise_sortedWords added
  have hmem : ∀ w, w ∈ unique (added.insertionSort (· ≤ ·)) ↔ w ∈ added :=
    fun w => mem_sortedWords
  rw [buildAll_eq hne] at h
  generalize hwords : unique (added.insertionSort (· ≤ ·)) = words at hsorted hmem
  obtain ⟨hbuilt, hlist, hids, trieImage, terminalImage, edgeCharacter, rfl, rfl, hedge, hle0,
    hle1, hle2, himage⟩ := build_eq_some hwords rfl rfl h
  have hw := written_outputWords hsorted
  have hne' : ∀ w ∈ words, w ≠ [] := fun w hw => hne w ((hmem w).mp hw)
  have hnodes := nodes_trieTable hsorted
  refine ⟨words, trieTable words hsorted, hsorted.imp ne_of_lt, hmem, ?_,
    mem_nodes_trieTable hsorted, ?_⟩
  · intro w
    rw [getId_eq hbuilt (by rw [hlist]; exact hsorted), hlist, hids]
    by_cases hword : w ∈ words
    · have hpath : w ∈ (levels (levelFuel words) 0 words).flatMap Prod.snd := by
        have := mem_nodes_trieTable hsorted w hword
        rw [hnodes] at this
        exact (List.mem_cons.mp this).resolve_left (hne' w hword)
      rw [if_pos hword, if_pos hword, List.getD_eq_getElem?_getD, hw.idList w hword hpath,
        keyId_eq_countP hnodes hne' hword]
      rfl
    · rw [if_neg hword, if_neg hword]
  · intro lb0 lb1 s0 s1 tlb1
    rw [himage]
    exact open_written hsorted hne' hmem lb0 lb1 s0 s1 tlb1 rfl rfl hedge hle0 hle1 hle2

theorem prefixes_eq {words : List Bytes} (hne : ∀ w ∈ words, w ≠ []) (key : Bytes)
    (f : Nat → Int) :
    ((List.range key.length).filter (fun n => key.take (n + 1) ∈ words)).map
        (fun n => (n + 1, f (n + 1)))
      = ((List.range (key.length + 1)).filter (fun n => key.take n ∈ words)).map
          (fun n => (n, f n)) := by
  have hzero : ¬ decide (key.take 0 ∈ words) = true :=
    fun h => hne _ (of_decide_eq_true h) List.take_zero
  rw [List.range_succ_eq_map, List.filter_cons, if_neg hzero, List.filter_map, List.map_map]
  rfl

/-- **THE IDS OF A BUILDER** are those of a table of a trie that can be opened. -/
theorem numbers_of_build (hne : ∀ w ∈ added, w ≠ []) (h : buildAll added = some built) :
    ∃ id, Numbers added built id := by
  obtain ⟨words, tt, hnodup, hmem, hid, hword, -⟩ := represents_of_build hne h
  have hlength : added.dedup.length = words.length := by
    refine ((List.perm_ext_iff_of_nodup (List.nodup_dedup added) hnodup).mpr ?_).length_eq
    intro w
    rw [List.mem_dedup, hmem]
  have hbij := bijOn_keyId hnodup hword
  refine ⟨fun w => if w ∈ words then (tt.keyId words w : Int) else -1,
    { getId_eq := hid
      bijOn := ⟨?_, ?_, ?_⟩
      not_added := fun w hw => if_neg (fun h => hw ((hmem w).mp h)) }⟩
  · intro w hw
    have hw' : w ∈ words := (hmem w).mpr hw
    have hlt := hbij.mapsTo hw'
    dsimp only
    rw [if_pos hw', hlength]
    exact ⟨Int.natCast_nonneg _, Int.ofNat_lt.mpr hlt⟩
  · intro w hw v hv heq
    have hw' : w ∈ words := (hmem w).mpr hw
    have hv' : v ∈ words := (hmem v).mpr hv
    dsimp only at heq
    rw [if_pos hw', if_pos hv'] at heq
    exact hbij.injOn hw' hv' (Int.ofNat.inj heq)
  · intro n hn
    obtain ⟨hzero, hlt⟩ := hn
    rw [hlength] at hlt
    obtain ⟨w, hw, heq⟩ := hbij.surjOn (show n.toNat ∈ Set.Iio words.length from by
      rw [Set.mem_Iio]
      omega)
    have hw' : w ∈ words := hw
    refine ⟨w, (hmem w).mp hw', ?_⟩
    dsimp only
    rw [if_pos hw', heq]
    omega

/-- **AGREEMENT** of a built trie with its builder. -/
theorem agreement_of_build (hne : ∀ w ∈ added, w ≠ []) (hdepth : ∀ w ∈ added, w.length ≤ kMaxDepth)
    (h : buildAll added = some built) {id : Bytes → Int} (hnumbers : Numbers added built id)
    {lb0 lb1 s0 s1 tlb1 : Nat} {trie : LoudsTrie}
    (htrie : LoudsTrie.openTrie built.image lb0 lb1 s0 s1 tlb1 = some trie) :
    Agreement added built trie id := by
  obtain ⟨words, tt, hnodup, hmem, hid, -, hopen⟩ := represents_of_build hne h
  have hr := (hopen lb0 lb1 s0 s1 tlb1).2 trie htrie
  have hne' : ∀ w ∈ words, w ≠ [] := fun w hw => hne w ((hmem w).mp hw)
  obtain rfl : id = fun w => if w ∈ words then (tt.keyId words w : Int) else -1 :=
    funext fun w => Option.some.inj ((hnumbers.getId_eq w).symm.trans (hid w))
  refine
    { toNumbers := hnumbers
      answers := ⟨hr.answers_louds, hr.answers⟩
      exactSearch_eq := exactSearch_eq hr
      restore := ?_
      prefixSearch_eq := ?_ }
  · intro w hw
    rw [if_pos ((hmem w).mpr hw)]
    exact restoreKeyString_eq hr ((hmem w).mpr hw) (hdepth w hw)
  · intro key
    have h := congrArg (List.map (fun call : Nat × Nat => (call.1, (call.2 : Int))))
      (prefixSearch_eq hr key)
    rw [List.map_map, List.map_map] at h
    have hfilter : (List.range (key.length + 1)).filter (fun n => key.take n ∈ added)
        = (List.range (key.length + 1)).filter (fun n => key.take n ∈ words) :=
      List.filter_congr fun n _ => decide_eq_decide.mpr (hmem _).symm
    have hvalue : ((List.range (key.length + 1)).filter (fun n => key.take n ∈ words)).map
          (fun n => (n, if key.take n ∈ words then (tt.keyId words (key.take n) : Int) else -1))
        = ((List.range (key.length + 1)).filter (fun n => key.take n ∈ words)).map
          (fun n => (n, (tt.keyId words (key.take n) : Int))) := by
      refine List.map_congr_left ?_
      intro n hn
      rw [if_pos (of_decide_eq_true (List.mem_filter.mp hn).2)]
    rw [hfilter, hvalue, ← prefixes_eq hne' key (fun n => (tt.keyId words (key.take n) : Int))]
    exact h

/-- **A BUILT TRIE OPENS** within its limits. -/
theorem exists_openTrie (hne : ∀ w ∈ added, w ≠ []) (h : buildAll added = some built)
    {lb0 lb1 tlb1 : Nat} (hfits : FitsTrie added lb0 lb1 tlb1) (s0 s1 : Nat) :
    ∃ trie, LoudsTrie.openTrie built.image lb0 lb1 s0 s1 tlb1 = some trie := by
  obtain ⟨_, _, -, -, -, -, hopen⟩ := represents_of_build hne h
  exact Option.isSome_iff_exists.mp ((hopen lb0 lb1 s0 s1 tlb1).1.mpr hfits)

/-- **BUILDING AND SEARCHING AGREE.**  A collection of words that fit the buffer builds
    unless its sizes do not fit the header; the built image opens within the limits of its
    nodes and caches and only there, and the searches of the trie agree with the ids of the
    builder. -/
theorem build_search_agreement (added : List Bytes)
    (hwords : ∀ w ∈ added, w ≠ [] ∧ w.length ≤ kMaxDepth) :
    ((prefixesOf added).length ≤ 2 ^ 31 → (buildAll added).isSome = true) ∧
      ∀ built, buildAll added = some built → ∀ lb0 lb1 s0 s1 tlb1,
        ((LoudsTrie.openTrie built.image lb0 lb1 s0 s1 tlb1).isSome = true
          ↔ FitsTrie added lb0 lb1 tlb1) ∧
        ∀ trie, LoudsTrie.openTrie built.image lb0 lb1 s0 s1 tlb1 = some trie →
          ∃ id, Agreement added built trie id := by
  have hne : ∀ w ∈ added, w ≠ [] := fun w hw => (hwords w hw).1
  refine ⟨buildAll_isSome hne, ?_⟩
  intro built h lb0 lb1 s0 s1 tlb1
  obtain ⟨_, _, -, -, -, -, hopen⟩ := represents_of_build hne h
  obtain ⟨id, hnumbers⟩ := numbers_of_build hne h
  exact ⟨(hopen lb0 lb1 s0 s1 tlb1).1, fun trie htrie =>
    ⟨id, agreement_of_build hne (fun w hw => (hwords w hw).2) h hnumbers htrie⟩⟩

/-- A collection with a duplicate, a prefix and a word out of order. -/
theorem build_search_agreement_duplicate : ∃ built trie id,
    buildAll [ascii "b", ascii "ab", ascii "a", ascii "b"] = some built ∧
      LoudsTrie.openTrie built.image 1 2 3 4 5 = some trie ∧
        Agreement [ascii "b", ascii "ab", ascii "a", ascii "b"] built trie id := by
  obtain ⟨hsome, hagree⟩ := build_search_agreement
    [ascii "b", ascii "ab", ascii "a", ascii "b"] (by decide)
  obtain ⟨built, hbuilt⟩ := Option.isSome_iff_exists.mp (hsome (by decide))
  obtain ⟨hopens, htries⟩ := hagree built hbuilt 1 2 3 4 5
  obtain ⟨trie, htrie⟩ := Option.isSome_iff_exists.mp
    (hopens.mpr ⟨by decide, by decide, by decide, by decide⟩)
  obtain ⟨id, hid⟩ := htries trie htrie
  exact ⟨built, trie, id, hbuilt, htrie, hid⟩

/-- **A CACHE THAT NO VECTOR HOLDS**: the built image of one word does not open. -/
theorem openTrie_large_cache : ¬ ∀ (added : List Bytes),
    (∀ w ∈ added, w ≠ [] ∧ w.length ≤ kMaxDepth) → ∀ lb0 lb1 s0 s1 tlb1 : Nat,
      ∃ built trie, buildAll added = some built ∧
        LoudsTrie.openTrie built.image lb0 lb1 s0 s1 tlb1 = some trie := by
  intro h
  obtain ⟨built, trie, hbuilt, htrie⟩ := h [ascii "a"] (by decide) (2 ^ 60) 0 0 0 0
  obtain ⟨_, _, -, -, -, -, hopen⟩ := represents_of_build (by decide) hbuilt
  have hfits := (hopen (2 ^ 60) 0 0 0 0).1.mp (by rw [htrie]; rfl)
  exact absurd hfits.lb0Cache (by decide)

end MozkeyLouds
