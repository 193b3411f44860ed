import Mozkey.ViterbiProofs

/-! # Viterbi paths — what the search finds

    The loops of `Viterbi` visit the nodes in the order of their ranks, so that every node
    gets its best label; the way back from the end of the sentence is then a cheapest path. -/

namespace MozkeyConverter

open ByteString ShortestPath

/-! ## Lattices that can be searched -/

/-- A lattice over the keys of segments. -/
structure Segmented (segments : List Segment) (lattice : Lattice) : Prop where
  formed : lattice.Formed
  key : joinedKey segments = lattice.key

/-- A lattice whose ids are ids of the connector, whose constrained nodes follow a node that
    ends where they begin, and whose paths cost less than the bound. -/
structure Searchable (connector : Connector) (segments : List Segment) (lattice : Lattice) :
    Prop extends Segmented segments lattice where
  key_ne : lattice.key ≠ []
  lid : ∀ id, (lattice.node id).lid < 2 ^ 16 - 1
  constrained : ∀ r c, lattice.Inserted r → (lattice.node r).constrainedPrev = some c →
    0 < (lattice.node r).beginPos ∧ lattice.Inserted c ∧
      (lattice.node c).endPos = (lattice.node r).beginPos
  costs : ∀ l path c, Walk (wordGraph connector segments lattice) l path c →
    ∀ r, (wordGraph connector segments lattice).Step l r →
      c + connector.getTransitionCost (lattice.node l).rid (lattice.node r).lid < kVeryBigCost

section

variable {connector : Connector} {segments : List Segment} {lattice : Lattice}

theorem beginPos_lt_of_within {n : Node} (hkey : joinedKey segments = lattice.key)
    (h : Within segments n) : n.beginPos < lattice.key.length := by
  obtain ⟨before, segment, hat, -⟩ := h
  obtain ⟨after, rfl⟩ := hat.split
  have hlt := hat.lt
  rw [← hkey, joinedKey_append, joinedKey_cons, List.length_append, List.length_append]
  omega

variable {before : List Segment} {segment : Segment}

theorem within_iff {n : Node} (h : SegmentAt segments n.beginPos before segment) :
    Within segments n ↔ n.endPos ≤ (joinedKey before).length + segment.key.length := by
  constructor
  · rintro ⟨before', segment', hat, hle⟩
    obtain ⟨rfl, rfl⟩ := segmentOf_unique _ h hat
    exact hle
  · exact fun hle => ⟨before, segment, h, hle⟩

variable {r : Nat}

/-- A node that a step leads to is inserted, or it is the end of the sentence. -/
theorem step_right (hs : Segmented segments lattice) {l : Nat}
    (h : (wordGraph connector segments lattice).Step l r) :
    (r = 1 ∧ l ∈ lattice.endNodesAt lattice.key.length) ∨
      (lattice.Inserted r ∧ (lattice.node r).beginPos < lattice.key.length ∧
        l ∈ lattice.endNodesAt (lattice.node r).beginPos) := by
  obtain ⟨pos, hl, hr, hwithin, -⟩ := h
  rcases (hs.formed.mem_beginNodesAt pos r).mp hr with ⟨rfl, rfl⟩ | ⟨hins, rfl⟩
  · exact Or.inl ⟨rfl, hl⟩
  · refine Or.inr ⟨hins, ?_, hl⟩
    refine beginPos_lt_of_within hs.key (hwithin.resolve_left ?_)
    rintro rfl
    exact absurd hins.1 (by omega)

theorem rank_lt_of_step (hs : Segmented segments lattice) (l r : Nat)
    (h : (wordGraph connector segments lattice).Step l r) : rank lattice l < rank lattice r := by
  have hl : ∀ pos, l ∈ lattice.endNodesAt pos →
      l = 0 ∨ (rank lattice l ≤ lattice.key.length + 1 ∧
        (pos < lattice.key.length → rank lattice l ≤ pos)) := by
    intro pos hmem
    rcases (hs.formed.mem_endNodesAt pos l).mp hmem with ⟨rfl, -⟩ | ⟨hins, rfl⟩
    · exact Or.inl rfl
    · rw [rank_inserted hins]
      have hpositions := hs.formed.positions l hins
      exact Or.inr ⟨by omega, by omega⟩
  rcases step_right hs h with ⟨rfl, hmem⟩ | ⟨hins, hlt, hmem⟩
  · rw [rank_one]
    rcases hl _ hmem with rfl | ⟨hle, -⟩
    · rw [rank_zero]
      omega
    · omega
  · rw [rank_inserted hins]
    rcases hl _ hmem with rfl | ⟨-, hle⟩
    · rw [rank_zero]
      omega
    · have := hle hlt
      omega

theorem visiting_initial (hs : Searchable connector segments lattice) :
    Visiting (wordGraph connector segments lattice) lattice 1 [] lattice := by
  constructor
  · exact SameWords.refl lattice
  · exact fun _ => rfl
  · intro r hr
    cases hr
  · intro r hne hr
    have hlt := hr.resolve_right List.not_mem_nil
    unfold rank at hlt
    rw [if_neg hne] at hlt
    split at hlt <;> omega
  · intro r _ _
    exact ⟨(hs.formed.unlinked r).1, (hs.formed.unlinked r).2.2⟩

variable {lattice' : Lattice}

/-- What a labelled node costs is what a path to it costs, so that it is below the bound. -/
theorem cost_lt_of_visiting (hs : Searchable connector segments lattice) {bound : Nat}
    {done : List Nat}
    (h : Visiting (wordGraph connector segments lattice) lattice bound done lattice')
    (hbound : 0 < bound) {l : Nat} (hstep : (wordGraph connector segments lattice).Step l r)
    (hr : rank lattice r = bound)
    (halive : lattice'.labels.Alive (wordGraph connector segments lattice) l) :
    (lattice'.node l).cost
      + connector.getTransitionCost (lattice'.node l).rid (lattice'.node r).lid
        < kVeryBigCost := by
  have hzero : (0 : Nat) ∉ done := by
    intro hmem
    have heq := h.rank_done 0 hmem
    rw [rank_zero] at heq
    omega
  have hstart : lattice'.labels.cost (wordGraph connector segments lattice).source
      = (wordGraph connector segments lattice).start := (h.untouched 0 (Or.inl rfl) hzero).2
  have hlt : rank lattice l < bound := by
    rw [← hr]
    exact rank_lt_of_step hs.toSegmented l r hstep
  obtain ⟨path, -, hwalk⟩ := exists_chain (rank_lt_of_step hs.toSegmented) hstart
    (fun r hlt hne => h.settled r hne (Or.inl hlt)) l hlt halive
  rw [h.same.rid, h.same.lid]
  exact hs.costs l path _ hwalk r hstep

/-! ## The loops -/

variable {pos : Nat}

/-- A visit with the best label of its node, as the lattice was before the search. -/
theorem settled_visit (hs : Searchable connector segments lattice) {bound : Nat} {done : List Nat}
    (h : Visiting (wordGraph connector segments lattice) lattice bound done lattice')
    (hbound : 0 < bound) {rightBoundary : Nat} (hpos : 0 < pos)
    (hmem : r ∈ lattice.beginNodesAt pos) (hr : rank lattice r = bound)
    (hself : r ∉ lattice.endNodesAt pos)
    (hstep : ∀ l, (wordGraph connector segments lattice).Step l r ↔
      Precedes lattice pos rightBoundary r l) :
    Settled (wordGraph connector segments lattice)
      (relax connector pos rightBoundary lattice' r).labels r := by
  have hmem' := (hs.formed.mem_beginNodesAt pos r).mp hmem
  refine settled_relax ?_ ?_ ?_ ?_ ?_ ?_ ?_
  · rw [h.same.length_nodes]
    rcases hmem' with ⟨rfl, -⟩ | ⟨hins, -⟩
    · exact hs.formed.length_nodes
    · exact hins.2
  · intro l
    rw [hstep]
    constructor
    · rintro ⟨h1, h2, h3⟩
      refine ⟨?_, ?_, ?_⟩
      · rwa [h.same.endNodesAt]
      · rwa [h.same.endPos]
      · rwa [h.same.constrainedPrev]
    · rintro ⟨h1, h2, h3⟩
      rw [h.same.endNodesAt] at h1
      rw [h.same.endPos] at h2
      rw [h.same.constrainedPrev] at h3
      exact ⟨h1, h2, h3⟩
  · intro l
    show stepCost connector lattice l r = _
    unfold stepCost
    rw [h.same.rid, h.same.lid, h.same.wcost]
  · rwa [h.same.endNodesAt]
  · rw [h.same.endNodesAt, hs.formed.mem_endNodesAt]
    rintro (⟨-, rfl⟩ | ⟨hins, -⟩)
    · exact Nat.lt_irrefl 0 hpos
    · exact absurd hins.1 (by show ¬ 2 ≤ 0; omega)
  · intro c hc
    rw [h.same.constrainedPrev] at hc
    rw [h.same.endNodesAt, hs.formed.mem_endNodesAt]
    rcases hmem' with ⟨rfl, -⟩ | ⟨hins, hbegin⟩
    · rw [hs.formed.eos_constrainedPrev] at hc
      cases hc
    · obtain ⟨-, hins', hend⟩ := hs.constrained r c hins hc
      exact Or.inr ⟨hins', hend.trans hbegin⟩
  · intro l hl halive
    exact cost_lt_of_visiting hs h hbound hl hr halive

theorem foldl_visitNode (pos rightBoundary : Nat) (rs : List Nat) :
    ∀ {conn : CachingConnector} {lattice' : Lattice}, conn.Sound connector →
      (∀ id, (lattice'.node id).lid < 2 ^ 16 - 1) →
      (rs.foldl (visitNode pos rightBoundary) (conn, lattice')).2
        = rs.foldl (relax connector pos rightBoundary) lattice' := by
  induction rs with
  | nil =>
    intro conn lattice' _ _
    rfl
  | cons r rs ih =>
    intro conn lattice' hconn hlid
    obtain ⟨s, hs⟩ : ∃ s, visitNode pos rightBoundary (conn, lattice') r = s := ⟨_, rfl⟩
    obtain ⟨hvisit, hconn'⟩ := visitNode_eq hconn (hlid r)
    rw [hs] at hvisit hconn'
    rw [List.foldl_cons, List.foldl_cons, hs, ← hvisit]
    refine ih hconn' ?_
    intro id
    rw [hvisit, relax, (sameWords_setLabel _ _ _).lid]
    exact hlid id

/-- The nodes that begin at a position that is not the last one. -/
theorem beginNodesAt_spec (hs : Searchable connector segments lattice)
    (hlt : pos < lattice.key.length) (hmem : r ∈ lattice.beginNodesAt pos) :
    lattice.Inserted r ∧ (lattice.node r).beginPos = pos ∧ r ≠ 0 ∧ r ≠ 1 ∧
      rank lattice r = pos + 1 ∧ r ∉ lattice.endNodesAt pos := by
  rcases (hs.formed.mem_beginNodesAt pos r).mp hmem with ⟨-, heq⟩ | ⟨hins, hbegin⟩
  · omega
  · have hge := hins.1
    refine ⟨hins, hbegin, by omega, by omega, ?_, ?_⟩
    · rw [rank_inserted hins, hbegin]
    · rw [hs.formed.mem_endNodesAt]
      rintro (⟨rfl, -⟩ | ⟨-, hend⟩)
      · omega
      · have hpositions := hs.formed.positions r hins
        omega

theorem step_iff_precedes (hs : Searchable connector segments lattice)
    (hat : SegmentAt segments pos before segment) (hlt : pos < lattice.key.length)
    (hmem : r ∈ lattice.beginNodesAt pos) (l : Nat) :
    (wordGraph connector segments lattice).Step l r ↔
      Precedes lattice pos ((joinedKey before).length + segment.key.length) r l := by
  obtain ⟨hins, hbegin, -, hne, -, -⟩ := beginNodesAt_spec hs hlt hmem
  rw [← hbegin] at hat
  constructor
  · rintro ⟨pos', hl, hr, hwithin, hc⟩
    have hpos : pos' = pos := by
      rcases (hs.formed.mem_beginNodesAt pos' r).mp hr with ⟨h1, -⟩ | ⟨-, hbegin'⟩
      · exact absurd h1 hne
      · exact hbegin'.symm.trans hbegin
    subst hpos
    exact ⟨hl, (within_iff hat).mp (hwithin.resolve_left hne), hc⟩
  · rintro ⟨hl, hle, hc⟩
    exact ⟨pos, hl, hmem, Or.inr ((within_iff hat).mpr hle), hc⟩

theorem finish_position (hs : Searchable connector segments lattice)
    (hlt : pos < lattice.key.length)
    (h : Visiting (wordGraph connector segments lattice) lattice (pos + 1)
      ((lattice.beginNodesAt pos).reverse ++ []) lattice') :
    Visiting (wordGraph connector segments lattice) lattice (pos + 2) [] lattice' := by
  refine h.finish (Nat.succ_pos pos) ?_
  intro l r hstep hrank
  rw [List.append_nil, List.mem_reverse, hs.formed.mem_beginNodesAt]
  rcases step_right hs.toSegmented hstep with ⟨rfl, -⟩ | ⟨hins, -, -⟩
  · rw [rank_one] at hrank
    omega
  · rw [rank_inserted hins] at hrank
    exact Or.inr ⟨hins, by omega⟩

theorem visiting_viterbiInternal (hs : Searchable connector segments lattice)
    (hat : SegmentAt segments pos before segment) (hpos : 0 < pos) (hlt : pos < lattice.key.length)
    (memory : Nat → Int)
    (h : Visiting (wordGraph connector segments lattice) lattice (pos + 1) [] lattice') :
    Visiting (wordGraph connector segments lattice) lattice (pos + 2) []
      (viterbiInternal connector memory pos
        ((joinedKey before).length + segment.key.length) lattice') := by
  have hlid : ∀ id, (lattice'.node id).lid < 2 ^ 16 - 1 := by
    intro id
    rw [h.same.lid]
    exact hs.lid id
  unfold viterbiInternal
  rw [foldl_visitNode _ _ _ (CachingConnector.sound_new memory) hlid, h.same.beginNodesAt]
  refine finish_position hs hlt (Visiting.foldl (rank_lt_of_step hs.toSegmented) _ ?_ ?_ h
    fun _ _ => rfl)
  · intro r hmem
    obtain ⟨-, -, hne, -, hrank, -⟩ := beginNodesAt_spec hs hlt hmem
    exact ⟨hne, hrank⟩
  · intro lattice'' done h' _ r hmem
    obtain ⟨-, -, -, -, hrank, hself⟩ := beginNodesAt_spec hs hlt hmem
    exact ⟨_, rfl, settled_visit hs h' (Nat.succ_pos pos) hpos hmem hrank hself
      (step_iff_precedes hs hat hlt hmem)⟩

/-- The loop over the positions. -/
theorem visiting_processPositions (hs : Searchable connector segments lattice)
    {after : List Segment} (hsplit : segments = before ++ segment :: after)
    (memory : Nat → Nat → Int) {left : Nat} (hpos : 0 < left)
    (hleft : (joinedKey before).length ≤ left)
    (hright : left ≤ (joinedKey before).length + segment.key.length)
    (h : Visiting (wordGraph connector segments lattice) lattice (left + 1) [] lattice') :
    Visiting (wordGraph connector segments lattice) lattice
      ((joinedKey before).length + segment.key.length + 1) []
      (processPositions connector memory left
        ((joinedKey before).length + segment.key.length) lattice') := by
  have hkey : (joinedKey before).length + segment.key.length ≤ lattice.key.length := by
    rw [← hs.key, hsplit, joinedKey_append, joinedKey_cons, List.length_append,
      List.length_append]
    omega
  unfold processPositions
  obtain ⟨n, hn⟩ : ∃ n, (joinedKey before).length + segment.key.length - left = n := ⟨_, rfl⟩
  rw [hn]
  induction n generalizing left lattice' with
  | zero =>
    have heq : left = (joinedKey before).length + segment.key.length := by omega
    rw [← heq]
    exact h
  | succ n ih =>
    rw [List.range'_succ, List.foldl_cons]
    have hat : SegmentAt segments left before segment :=
      ⟨⟨after, hsplit⟩, hleft, by omega⟩
    exact ih (by omega) (by omega) (by omega)
      (visiting_viterbiInternal hs hat hpos (by omega) _ h) (by omega)

theorem visiting_processSegments (hs : Searchable connector segments lattice)
    (memory : Nat → Nat → Int) (rest : List Segment) :
    ∀ {before : List Segment} {lattice' : Lattice}, segments = before ++ rest →
      0 < (joinedKey before).length →
      Visiting (wordGraph connector segments lattice) lattice
        ((joinedKey before).length + 1) [] lattice' →
      Visiting (wordGraph connector segments lattice) lattice (lattice.key.length + 1) []
        (processSegments connector memory (joinedKey before).length rest lattice') := by
  induction rest with
  | nil =>
    intro before lattice' hsplit _ h
    have hlength : lattice.key.length = (joinedKey before).length := by
      rw [← hs.key, hsplit, List.append_nil]
    rw [hlength]
    exact h
  | cons segment rest ih =>
    intro before lattice' hsplit hpos h
    have hlength : (joinedKey (before ++ [segment])).length
        = (joinedKey before).length + segment.key.length := by simp
    have hnext := visiting_processPositions hs hsplit memory hpos le_rfl
      (Nat.le_add_right _ _) h
    rw [← hlength] at hnext
    have hsplit' : segments = (before ++ [segment]) ++ rest := by simp [hsplit]
    have hall := ih hsplit' (by omega) hnext
    rw [hlength] at hall
    exact hall

/-! ## The ends of the sentence -/

theorem modify_eq_setLabel {f : Node → Node}
    (h : ∀ n, f n = { n with prev := (f n).prev, cost := (f n).cost }) :
    lattice'.modify r f
      = lattice'.setLabel r ((f (lattice'.node r)).prev, (f (lattice'.node r)).cost) :=
  Lattice.modify_congr (h _)

theorem setLabel_self (lattice' : Lattice) (r : Nat) :
    lattice'.setLabel r ((lattice'.node r).prev, (lattice'.node r).cost) = lattice' := by
  have heq : lattice'.setLabel r ((lattice'.node r).prev, (lattice'.node r).cost)
      = lattice'.modify r id := Lattice.modify_congr rfl
  rw [heq, Lattice.modify, List.modify_id]

theorem visiting_processBos (hs : Searchable connector segments lattice) {first : Segment}
    {rest : List Segment} (hsplit : segments = first :: rest) (hfirst : first.key ≠ []) :
    Visiting (wordGraph connector segments lattice) lattice 2 []
      (processBos connector first.key.length lattice) := by
  have hlt : 0 < lattice.key.length := List.length_pos_iff.mpr hs.key_ne
  have hat : SegmentAt segments 0 [] first :=
    ⟨⟨rest, hsplit⟩, le_rfl, by simpa using List.length_pos_iff.mpr hfirst⟩
  -- only the beginning of the sentence ends at the beginning of the key
  have hend : ∀ l, l ∈ lattice.endNodesAt 0 ↔ l = 0 := by
    intro l
    rw [hs.formed.mem_endNodesAt]
    constructor
    · rintro (⟨rfl, -⟩ | ⟨hins, hend⟩)
      · rfl
      · have hpositions := hs.formed.positions l hins
        omega
    · rintro rfl
      exact Or.inl ⟨rfl, rfl⟩
  unfold processBos
  refine finish_position hs hlt
    (Visiting.foldl (rank_lt_of_step hs.toSegmented) _ ?_ ?_ (visiting_initial hs)
      fun _ _ => rfl)
  · intro r hmem
    obtain ⟨-, -, hne, -, hrank, -⟩ := beginNodesAt_spec hs hlt hmem
    exact ⟨hne, hrank⟩
  · intro lattice' done h _ r hmem
    obtain ⟨hins, hbegin, hne, -, hrank, -⟩ := beginNodesAt_spec hs hlt hmem
    have hstep := step_iff_precedes hs hat hlt hmem
    simp only [joinedKey_nil, List.length_nil, Nat.zero_add] at hstep
    rw [h.same.endPos, hs.formed.bosNode]
    by_cases hbeyond : (lattice.node r).endPos > first.key.length
    · rw [if_pos hbeyond]
      refine ⟨_, (setLabel_self lattice' r).symm, ?_⟩
      have hnostep : ∀ l, ¬ (wordGraph connector segments lattice).Step l r := by
        intro l hl
        have := ((hstep l).mp hl).endPos_le
        omega
      by_cases hdone : r ∈ done
      · exact h.settled r hne (Or.inr hdone)
      · exact settled_of_not_step (h.untouched r (Or.inr (le_of_eq hrank.symm)) hdone).1 hnostep
    · rw [if_neg hbeyond, modify_eq_setLabel (fun _ => rfl)]
      refine ⟨_, rfl, ?_⟩
      have hlength : r < lattice'.nodes.length := by
        rw [h.same.length_nodes]
        exact hins.2
      have honly : ∀ l, (wordGraph connector segments lattice).Step l r → l = 0 :=
        fun l hl => (hend l).mp ((hstep l).mp hl).mem
      have hfrom : (wordGraph connector segments lattice).Step 0 r := by
        refine (hstep 0).mpr ⟨(hend 0).mpr rfl, not_lt.mp hbeyond, ?_⟩
        intro c hc
        have := (hs.constrained r c hins hc).1
        omega
      have hcost : (wordGraph connector segments lattice).cost 0 r
          = stepCost connector lattice' 0 r := by
        show stepCost connector lattice 0 r = _
        unfold stepCost
        rw [h.same.rid, h.same.lid, h.same.wcost]
      refine settled_setLabel hlength ?_ ?_ ?_ ?_
      · intro l hl
        rw [honly l hl]
        exact hne.symm
      · intro hnone
        cases hnone
      · intro l hl
        cases hl
        refine ⟨hfrom, Or.inl rfl, ?_⟩
        rw [hcost]
        exact add_assoc _ _ _
      · intro _ l hl _
        rw [honly l hl, hcost]
        exact le_of_eq (add_assoc _ _ _)

/-- The loop of the end of the sentence is the scan for the cheapest of the nodes to come
    from. -/
theorem foldl_eos_eq (lattice' : Lattice) (eosNode : Nat) (lnodes : List Nat) :
    lnodes.foldl (fun best lnode =>
      if (lattice'.node lnode).prev = none then best
      else
        let cost := (lattice'.node lnode).cost
          + connector.getTransitionCost (lattice'.node lnode).rid (lattice'.node eosNode).lid
        if cost < best.1 then (cost, some lnode) else best) (kVeryBigCost, none)
      = best kVeryBigCost (candidates connector lattice' (lattice'.node eosNode).lid lnodes) := by
  induction lnodes using List.reverseRecOn with
  | nil => rfl
  | append_singleton lnodes l ih =>
    rw [List.foldl_append, ih, List.foldl_cons, List.foldl_nil, candidates_concat]
    by_cases hdead : (lattice'.node l).prev = none
    · rw [if_pos hdead, if_pos hdead]
    · rw [if_neg hdead, if_neg hdead, best_concat]

theorem processEos_eq (hs : Searchable connector segments lattice)
    (hsame : SameWords lattice lattice') :
    processEos connector lattice'
      = relax connector lattice.key.length lattice.key.length lattice' 1 := by
  have hend : ¬ (lattice'.node 1).endPos > lattice.key.length := by
    rw [hsame.endPos, hs.formed.eos_endPos]
    exact Nat.lt_irrefl _
  have hconstrained : (lattice'.node 1).constrainedPrev = none := by
    rw [hsame.constrainedPrev, hs.formed.eos_constrainedPrev]
  unfold processEos relax visited
  simp only [foldl_eos_eq, hsame.eosNode, hs.formed.eosNode, hsame.key, if_neg hend,
    hconstrained]
  exact Lattice.modify_congr rfl

theorem step_eos_iff (hs : Searchable connector segments lattice) (l : Nat) :
    (wordGraph connector segments lattice).Step l 1 ↔
      Precedes lattice lattice.key.length lattice.key.length 1 l := by
  have hconstrained : ∀ c, (lattice.node 1).constrainedPrev = some c → l = c := by
    intro c hc
    rw [hs.formed.eos_constrainedPrev] at hc
    cases hc
  constructor
  · intro h
    rcases step_right hs.toSegmented h with ⟨-, hmem⟩ | ⟨hins, -⟩
    · exact ⟨hmem, le_of_eq hs.formed.eos_endPos, hconstrained⟩
    · exact absurd hins.1 (by omega)
  · intro h
    exact ⟨_, h.mem, (hs.formed.mem_beginNodesAt _ _).mpr (Or.inl ⟨rfl, rfl⟩), Or.inl rfl,
      hconstrained⟩

theorem visiting_processEos (hs : Searchable connector segments lattice)
    (h : Visiting (wordGraph connector segments lattice) lattice (lattice.key.length + 1) []
      lattice') :
    Visiting (wordGraph connector segments lattice) lattice (lattice.key.length + 3) []
      (processEos connector lattice') := by
  have hpos : 0 < lattice.key.length := List.length_pos_iff.mpr hs.key_ne
  -- nothing leads to a node that begins at the end of the key
  have hbefore := h.finish (Nat.succ_pos _) (by
    intro l r hstep hrank
    rcases step_right hs.toSegmented hstep with ⟨rfl, -⟩ | ⟨hins, hlt, -⟩
    · rw [rank_one] at hrank
      omega
    · rw [rank_inserted hins] at hrank
      omega)
  have hself : (1 : Nat) ∉ lattice.endNodesAt lattice.key.length := by
    rw [hs.formed.mem_endNodesAt]
    rintro (⟨h1, -⟩ | ⟨hins, -⟩)
    · omega
    · exact absurd hins.1 (by omega)
  have hsettled := settled_visit hs hbefore (Nat.succ_pos _) hpos
    ((hs.formed.mem_beginNodesAt _ _).mpr (Or.inl ⟨rfl, rfl⟩)) (rank_one lattice) hself
    (step_eos_iff hs)
  rw [processEos_eq hs h.same]
  refine (hbefore.setLabel (rank_lt_of_step hs.toSegmented) (by omega) (rank_one lattice)
    hsettled).finish (Nat.succ_pos _) ?_
  intro l r hstep hrank
  rcases step_right hs.toSegmented hstep with ⟨rfl, -⟩ | ⟨hins, hlt, -⟩
  · exact List.mem_singleton.mpr rfl
  · rw [rank_inserted hins] at hrank
    omega

/-! ## The way back -/

/-- **THE WAY BACK** goes along the chain that a label comes from, and sets its next nodes; it
    ends at the beginning of the sentence. -/
theorem traverse_eq {g : Graph Nat} {order : Nat → Nat} {path : List Nat} {labels : Labels Nat}
    (h : PrevChain g labels r path) (hnone : labels.prev g.source = none)
    (hbefore : ∀ r l, labels.prev r = some l → order l < order r) :
    ∀ (fuel : Nat) (prev : Option Nat) (lattice' : Lattice),
      lattice'.labels = labels → (∀ r l, labels.prev r = some l → l < lattice'.nodes.length) →
      order r < fuel →
      ∃ lattice'', traverse fuel r prev lattice'
          = some (if path = [] then prev else some g.source, lattice'') ∧
        SameWords lattice' lattice'' ∧ lattice''.labels = labels ∧
        (g.source :: path).IsChain (fun a b => (lattice''.node a).next = some b) ∧
        ∀ n, order r ≤ order n → (lattice''.node n).next = (lattice'.node n).next := by
  induction h with
  | nil =>
    intro fuel prev lattice' hlabels _ hfuel
    obtain ⟨fuel, rfl⟩ := Nat.exists_eq_succ_of_ne_zero (by omega : fuel ≠ 0)
    have hsource : (lattice'.node g.source).prev = none := by
      rw [← hlabels] at hnone
      exact hnone
    refine ⟨lattice', ?_, SameWords.refl _, hlabels, List.isChain_singleton _, fun _ _ => rfl⟩
    simp [traverse, hsource]
  | @snoc l r path chain hne hprev ih =>
    intro fuel prev lattice' hlabels hlength hfuel
    obtain ⟨fuel, rfl⟩ := Nat.exists_eq_succ_of_ne_zero (by omega : fuel ≠ 0)
    have hlt := hbefore r l hprev
    have hprev' : (lattice'.node r).prev = some l := by
      rw [← hlabels] at hprev
      exact hprev
    have hlabels' : (lattice'.modify l fun n => { n with next := some r }).labels = labels := by
      rw [← hlabels]
      unfold Lattice.labels
      congr 1
      · exact funext (Lattice.node_modify_of_keeps Node.prev (by intro n; rfl) _ _)
      · exact funext (Lattice.node_modify_of_keeps Node.cost (by intro n; rfl) _ _)
    obtain ⟨lattice'', htraverse, hsame, hlabels'', hchain, hnext⟩ :=
      ih fuel (some l) _ hlabels' (by simpa using hlength) (by omega)
    refine ⟨lattice'', ?_, ?_, hlabels'', ?_, ?_⟩
    · rw [traverse, hprev']
      simp only [htraverse]
      cases path with
      | nil =>
        have hlast := chain.getLast
        simp at hlast
        simp [hlast]
      | cons n path => simp
    · exact (sameWords_modify (by intro n; rfl)).trans hsame
    · rw [← List.cons_append, List.isChain_append]
      refine ⟨hchain, List.isChain_singleton _, ?_⟩
      intro a ha b hb
      rw [List.getLast?_eq_some_getLast (List.cons_ne_nil _ _), chain.getLast] at ha
      cases ha
      cases hb
      rw [hnext l le_rfl, Lattice.node_modify_self _ (hlength r l hprev)]
    · intro n hn
      rw [hnext n (by omega), Lattice.node_modify_ne]
      rintro rfl
      omega

theorem visiting_loops (hs : Searchable connector segments lattice)
    (hne : ∀ segment ∈ segments, segment.key ≠ []) (memory : Nat → Nat → Int) :
    Visiting (wordGraph connector segments lattice) lattice (lattice.key.length + 3) []
      (processEos connector (processSegments connector memory (segments.headD {}).key.length
        segments.tail (processPositions connector memory 1 (segments.headD {}).key.length
          (processBos connector (segments.headD {}).key.length lattice)))) := by
  obtain ⟨first, rest, hsplit⟩ : ∃ first rest, segments = first :: rest := by
    cases segments with
    | nil => exact absurd hs.key.symm hs.key_ne
    | cons first rest => exact ⟨first, rest, rfl⟩
  have hfirst : first.key ≠ [] := hne first (by rw [hsplit]; exact List.mem_cons_self)
  have hpos := List.length_pos_iff.mpr hfirst
  have hhead : segments.headD {} = first := by rw [hsplit]; rfl
  have htail : segments.tail = rest := by rw [hsplit]; rfl
  have hfront : segments = [] ++ first :: rest := hsplit
  have hrest : segments = [first] ++ rest := hsplit
  have hpositions := visiting_processPositions hs hfront memory Nat.one_pos
    (Nat.zero_le 1) (by simp; omega) (visiting_processBos hs hsplit hfirst)
  have hlength : (joinedKey ([] : List Segment)).length + first.key.length
      = (joinedKey [first]).length := by simp
  rw [hlength] at hpositions
  have hsegments := visiting_processSegments hs memory rest hrest (by simpa using hpos)
    hpositions
  have hkey : (joinedKey [first]).length = first.key.length := by simp
  rw [hkey] at hsegments
  rw [hhead, htail]
  exact visiting_processEos hs hsegments

end

/-! ## Paths -/

/-- A node directly follows another on a path: it begins where the other ends, does not extend
    beyond the end of the segment it begins in, and is not constrained to another node. -/
structure Joins (segments : List Segment) (lattice : Lattice) (l r : Nat) : Prop where
  contiguous : (lattice.node l).endPos = (lattice.node r).beginPos
  within : r = lattice.eosNode ∨ Within segments (lattice.node r)
  constrained : ∀ c, (lattice.node r).constrainedPrev = some c → l = c

/-- The inserted nodes of a path from the beginning to the end of the sentence. -/
structure ValidPath (segments : List Segment) (lattice : Lattice) (path : List Nat) : Prop where
  inserted : ∀ r ∈ path, lattice.Inserted r
  chain : (lattice.bosNode :: (path ++ [lattice.eosNode])).IsChain (Joins segments lattice)

/-- The next nodes from the beginning of the sentence on are a valid path, which costs what the
    end of the sentence says, and no valid path is cheaper. -/
structure CheapestPath (connector : Connector) (segments : List Segment)
    (lattice lattice' : Lattice) (path : List Nat) : Prop where
  valid : ValidPath segments lattice path
  next : (lattice.bosNode :: (path ++ [lattice.eosNode])).IsChain
    (fun l r => (lattice'.node l).next = some r)
  last : (lattice'.node lattice.eosNode).next = none
  cost_eq : (lattice'.node lattice.eosNode).cost
    = pathCost (stepCost connector lattice) lattice.bosNode (path ++ [lattice.eosNode])
  cost_le : ∀ path', ValidPath segments lattice path' →
    (lattice'.node lattice.eosNode).cost
      ≤ pathCost (stepCost connector lattice) lattice.bosNode (path' ++ [lattice.eosNode])

/-- Every beginning of a path costs less than the bound, also when the last word is still to be
    paid.  Costs are integers, so that no lower bound is needed to keep them in an `int`. -/
def CostsBelow (connector : Connector) (segments : List Segment) (lattice : Lattice)
    (bound : Int) : Prop :=
  ∀ path r, (∀ n ∈ path, lattice.Inserted n) → (r = lattice.eosNode ∨ lattice.Inserted r) →
    (lattice.bosNode :: (path ++ [r])).IsChain (Joins segments lattice) →
    pathCost (stepCost connector lattice) lattice.bosNode path
      + connector.getTransitionCost
          (lattice.node ((lattice.bosNode :: path).getLast (List.cons_ne_nil _ _))).rid
          (lattice.node r).lid
      < bound

section

variable {connector : Connector} {segments : List Segment} {lattice : Lattice}

variable {r : Nat}

theorem step_iff_joins (hf : lattice.Formed) {l : Nat} (hl : l = 0 ∨ lattice.Inserted l)
    (hr : r = 1 ∨ lattice.Inserted r) :
    (wordGraph connector segments lattice).Step l r ↔ Joins segments lattice l r := by
  have hend : ∀ pos, l ∈ lattice.endNodesAt pos ↔ (lattice.node l).endPos = pos := by
    intro pos
    rw [hf.mem_endNodesAt]
    rcases hl with rfl | hins
    · rw [hf.bos_endPos]
      constructor
      · rintro (⟨-, rfl⟩ | ⟨h, -⟩)
        · rfl
        · exact absurd h.1 (by omega)
      · rintro rfl
        exact Or.inl ⟨rfl, rfl⟩
    · have hne : l ≠ 0 := by
        have := hins.1
        omega
      simp [hne, hins]
  have hbegin : ∀ pos, r ∈ lattice.beginNodesAt pos ↔ (lattice.node r).beginPos = pos := by
    intro pos
    rw [hf.mem_beginNodesAt]
    rcases hr with rfl | hins
    · rw [hf.eos_beginPos]
      constructor
      · rintro (⟨-, rfl⟩ | ⟨h, -⟩)
        · rfl
        · exact absurd h.1 (by omega)
      · rintro rfl
        exact Or.inl ⟨rfl, rfl⟩
    · have hne : r ≠ 1 := by
        have := hins.1
        omega
      simp [hne, hins]
  constructor
  · rintro ⟨pos, hl', hr', hwithin, hc⟩
    rw [hend] at hl'
    rw [hbegin] at hr'
    refine ⟨hl'.trans hr'.symm, ?_, hc⟩
    rw [hf.eosNode]
    exact hwithin
  · rintro ⟨hcontiguous, hwithin, hc⟩
    rw [hf.eosNode] at hwithin
    exact ⟨_, (hend _).mpr rfl, (hbegin _).mpr hcontiguous.symm, hwithin, hc⟩

/-- A chain of inserted nodes is one of steps iff each directly follows the one before. -/
theorem isChain_step_iff (hf : lattice.Formed) (hr : r = 1 ∨ lattice.Inserted r) (path : List Nat) :
    ∀ {l : Nat}, (l = 0 ∨ lattice.Inserted l) →
      (∀ n ∈ path, lattice.Inserted n) →
      ((l :: (path ++ [r])).IsChain (wordGraph connector segments lattice).Step ↔
        (l :: (path ++ [r])).IsChain (Joins segments lattice)) := by
  induction path with
  | nil =>
    intro l hl _
    rw [List.nil_append, List.isChain_pair, List.isChain_pair, step_iff_joins hf hl hr]
  | cons n path ih =>
    intro l hl hpath
    have hn := hpath n List.mem_cons_self
    rw [List.cons_append, List.isChain_cons_cons, List.isChain_cons_cons,
      step_iff_joins hf hl (Or.inr hn),
      ih (Or.inr hn) fun m hm => hpath m (List.mem_cons_of_mem _ hm)]

theorem inserted_of_isChain (hs : Segmented segments lattice) (path : List Nat) : ∀ {l : Nat},
      (l :: (path ++ [r])).IsChain (wordGraph connector segments lattice).Step →
      ∀ n ∈ path, lattice.Inserted n := by
  induction path with
  | nil =>
    intro l _ n hn
    cases hn
  | cons m path ih =>
    intro l h n hn
    rw [List.cons_append, List.isChain_cons_cons] at h
    rcases List.mem_cons.mp hn with rfl | hn
    · -- the node is not the end of the sentence, since a step goes on from it
      rcases step_right hs h.1 with ⟨rfl, -⟩ | ⟨hins, -⟩
      · have hnext : ∃ r', (wordGraph connector segments lattice).Step 1 r' := by
          cases path with
          | nil => exact ⟨r, (List.isChain_cons_cons.mp h.2).1⟩
          | cons m path => exact ⟨m, (List.isChain_cons_cons.mp h.2).1⟩
        obtain ⟨r', pos, hmem, -⟩ := hnext
        rcases (hs.formed.mem_endNodesAt pos 1).mp hmem with ⟨h1, -⟩ | ⟨hins, -⟩
        · omega
        · exact hins
      · exact hins
    · exact ih h.2 n hn

theorem walk_of_validPath (hf : lattice.Formed) {path : List Nat}
    (h : ValidPath segments lattice path) :
    Walk (wordGraph connector segments lattice) 1 (path ++ [1])
      (pathCost (stepCost connector lattice) lattice.bosNode (path ++ [lattice.eosNode])) := by
  have hchain := h.chain
  rw [hf.bosNode, hf.eosNode] at hchain
  have hsteps : (0 :: (path ++ [1])).IsChain (wordGraph connector segments lattice).Step :=
    (isChain_step_iff hf (Or.inl rfl) path (Or.inl rfl) h.inserted).mpr hchain
  have hwalk := walk_of_isChain (path ++ [1]) hsteps
  rw [hf.bosNode, hf.eosNode]
  simpa [wordGraph] using hwalk

theorem validPath_of_walk (hs : Segmented segments lattice) {full : List Nat}
    {c : Int} (h : Walk (wordGraph connector segments lattice) 1 full c) :
    ∃ path, full = path ++ [1] ∧ ValidPath segments lattice path ∧
      c = pathCost (stepCost connector lattice) lattice.bosNode (path ++ [lattice.eosNode]) := by
  obtain ⟨hchain, hlast, hcost⟩ := h.isChain
  rcases List.eq_nil_or_concat full with rfl | ⟨path, r, rfl⟩
  · exact absurd hlast (by show (0 : Nat) ≠ 1; omega)
  · rw [List.concat_eq_append] at hchain hlast hcost ⊢
    have hr : r = 1 := by simpa using hlast
    subst hr
    have hins := inserted_of_isChain hs path hchain
    refine ⟨path, rfl, ⟨hins, ?_⟩, ?_⟩
    · rw [hs.formed.bosNode, hs.formed.eosNode]
      exact (isChain_step_iff hs.formed (Or.inl rfl) path (Or.inl rfl) hins).mp hchain
    · rw [hs.formed.bosNode, hs.formed.eosNode, hcost]
      exact Int.zero_add _

theorem costs_of_costsBelow (hs : Segmented segments lattice)
    (h : CostsBelow connector segments lattice kVeryBigCost) {l : Nat} {path : List Nat} {c : Int}
    (hwalk : Walk (wordGraph connector segments lattice) l path c)
    (hstep : (wordGraph connector segments lattice).Step l r) :
    c + connector.getTransitionCost (lattice.node l).rid (lattice.node r).lid < kVeryBigCost := by
  obtain ⟨-, hlast, hcost⟩ := hwalk.isChain
  have hchain := (hwalk.snoc hstep).isChain.1
  have hr : r = 1 ∨ lattice.Inserted r := (step_right hs hstep).imp And.left And.left
  have hins := inserted_of_isChain hs path hchain
  have hbelow := h path r hins (by rwa [hs.formed.eosNode]) (by
    rw [hs.formed.bosNode]
    exact (isChain_step_iff hs.formed hr path (Or.inl rfl) hins).mp hchain)
  simp only [hs.formed.bosNode] at hbelow
  rw [hcost, show (wordGraph connector segments lattice).start = 0 from rfl, Int.zero_add,
    ← hlast]
  exact hbelow

end

theorem searchable_latticeOf {connector : Connector} {segments : List Segment} {key : Bytes}
    {bosId : Nat} {inserts : List (Nat × Node)} (hkey : key ≠ []) (hlength : key.length < 2 ^ 16)
    (hsegments : joinedKey segments = key)
    (hinserts : ∀ e ∈ inserts, e.1 ≤ key.length ∧ e.2.key ≠ [] ∧ e.2.lid < connector.size)
    (hconstrained : ∀ r c, (latticeOf key bosId inserts).Inserted r →
      ((latticeOf key bosId inserts).node r).constrainedPrev = some c →
      0 < ((latticeOf key bosId inserts).node r).beginPos ∧
        (latticeOf key bosId inserts).Inserted c ∧
        ((latticeOf key bosId inserts).node c).endPos
          = ((latticeOf key bosId inserts).node r).beginPos)
    (hcosts : CostsBelow connector segments (latticeOf key bosId inserts) kVeryBigCost) :
    Searchable connector segments (latticeOf key bosId inserts) := by
  have hlatticeKey := (nodes_latticeOf key bosId inserts).1
  have hsegmented : Segmented segments (latticeOf key bosId inserts) :=
    { formed := formed_latticeOf hlength fun e he => ⟨(hinserts e he).1, (hinserts e he).2.1⟩
      key := hsegments.trans hlatticeKey.symm }
  have hzero : 0 < 2 ^ 16 - 1 := by decide
  have hlid : ∀ id, ((latticeOf key bosId inserts).node id).lid < 2 ^ 16 - 1 := by
    refine forall_node_latticeOf (fun n => n.lid < 2 ^ 16 - 1) hzero hzero hzero ?_
    intro e he
    have hsize := connector.size_lt
    have hlt := (hinserts e he).2.2
    show e.2.lid < 2 ^ 16 - 1
    omega
  exact
    { toSegmented := hsegmented
      key_ne := by rwa [hlatticeKey]
      lid := hlid
      constrained := hconstrained
      costs := fun l path c hwalk r hstep => costs_of_costsBelow hsegmented hcosts hwalk hstep }

theorem costsBelow_of_nonpos {connector : Connector} {segments : List Segment}
    {lattice : Lattice} (htransition : ∀ rid lid, connector.getTransitionCost rid lid ≤ 0)
    (hwcost : ∀ r, (lattice.node r).wcost ≤ 0) :
    CostsBelow connector segments lattice kVeryBigCost := by
  have hpath : ∀ (path : List Nat) (l : Nat), pathCost (stepCost connector lattice) l path ≤ 0 := by
    intro path
    induction path with
    | nil => exact fun l => le_refl 0
    | cons r path ih =>
      intro l
      have h1 := htransition (lattice.node l).rid (lattice.node r).lid
      have h2 := hwcost r
      have h3 := ih r
      rw [pathCost_cons, stepCost]
      omega
  intro path r _ _ _
  have h1 := hpath path lattice.bosNode
  have h2 := htransition
    (lattice.node ((lattice.bosNode :: path).getLast (List.cons_ne_nil _ _))).rid
    (lattice.node r).lid
  unfold kVeryBigCost
  omega

/-! ## What is found -/

section

variable {connector : Connector} {segments : List Segment} {lattice : Lattice}

/-- The way back, and what it sets, when every node has its best label. -/
theorem traverse_labelled (hs : Searchable connector segments lattice) {lattice' : Lattice}
    (h : Visiting (wordGraph connector segments lattice) lattice (lattice.key.length + 3) []
      lattice') :
    ∃ found lattice'',
      (traverse (lattice'.key.length + 3) lattice'.eosNode none lattice').map
          (fun (prev, lattice'') => (decide (prev = some lattice''.bosNode), lattice''))
        = some (found, lattice'') ∧
      (found = true ↔ ∃ path, ValidPath segments lattice path) ∧
      (found = true → ∃ path, CheapestPath connector segments lattice lattice'' path) := by
  have heos : rank lattice 1 < lattice.key.length + 3 := by
    rw [rank_one]
    omega
  have hzero : rank lattice (wordGraph connector segments lattice).source = 0 := rfl
  have hrank : ∀ l r, (wordGraph connector segments lattice).Step l r →
      rank lattice l < rank lattice r := rank_lt_of_step hs.toSegmented
  have hstart : lattice'.labels.cost (wordGraph connector segments lattice).source
      = (wordGraph connector segments lattice).start :=
    (h.untouched 0 (Or.inl rfl) List.not_mem_nil).2
  have hsettled : ∀ r, rank lattice r < lattice.key.length + 3 →
      r ≠ (wordGraph connector segments lattice).source →
      Settled (wordGraph connector segments lattice) lattice'.labels r :=
    fun r hlt hne => h.settled r hne (Or.inl hlt)
  -- no valid path is cheaper than the label of the end of the sentence
  have hle : ∀ path, ValidPath segments lattice path →
      lattice'.labels.Alive (wordGraph connector segments lattice) 1 ∧
        lattice'.labels.cost 1
          ≤ pathCost (stepCost connector lattice) lattice.bosNode (path ++ [lattice.eosNode]) :=
    fun path hpath => cost_le_walk hzero hrank hstart hsettled
      (walk_of_validPath hs.formed hpath) heos
  rw [h.same.key, h.same.eosNode, hs.formed.eosNode]
  cases hdead : (lattice'.node 1).prev with
  | none =>
    refine ⟨false, lattice', ?_, ?_, ?_⟩
    · simp [traverse, hdead]
    · refine iff_of_false Bool.false_ne_true ?_
      rintro ⟨path, hpath⟩
      rcases (hle path hpath).1 with h1 | hne
      · exact absurd h1 (by show (1 : Nat) ≠ 0; omega)
      · exact hne hdead
    · intro hfound
      cases hfound
  | some l =>
    have halive : lattice'.labels.Alive (wordGraph connector segments lattice) 1 := by
      refine Or.inr ?_
      show (lattice'.node 1).prev ≠ none
      rw [hdead]
      exact Option.some_ne_none l
    obtain ⟨full, hchain, hwalk⟩ := exists_chain hrank hstart hsettled 1 heos halive
    obtain ⟨path, rfl, hpath, hcost⟩ := validPath_of_walk hs.toSegmented hwalk
    have hstep : ∀ r l, lattice'.labels.prev r = some l →
        (wordGraph connector segments lattice).Step l r := by
      intro r l hl
      by_cases huntouched : r = 0 ∨ lattice.key.length + 3 ≤ rank lattice r
      · have hnone := (h.untouched r huntouched List.not_mem_nil).1
        rw [show (lattice'.node r).prev = some l from hl] at hnone
        cases hnone
      · rw [not_or, not_le] at huntouched
        exact (h.settled r huntouched.1 (Or.inl huntouched.2)).step l hl
    have hlength : ∀ r l, lattice'.labels.prev r = some l → l < lattice'.nodes.length := by
      intro r l hl
      obtain ⟨pos, hmem, -⟩ := hstep r l hl
      rw [h.same.length_nodes]
      rcases (hs.formed.mem_endNodesAt pos l).mp hmem with ⟨rfl, -⟩ | ⟨hins, -⟩
      · have := hs.formed.length_nodes
        omega
      · exact hins.2
    obtain ⟨lattice'', htraverse, hsame, hlabels, hnexts, hnext⟩ :=
      traverse_eq hchain (h.untouched 0 (Or.inl rfl) List.not_mem_nil).1
        (fun r l hl => hrank l r (hstep r l hl)) (lattice.key.length + 3) none lattice' rfl
        hlength heos
    have hcost' : (lattice''.node 1).cost = lattice'.labels.cost 1 := by
      rw [← hlabels]
      rfl
    have hbos : lattice''.bosNode = 0 := by
      rw [hsame.bosNode, h.same.bosNode, hs.formed.bosNode]
    refine ⟨true, lattice'', ?_, ?_, ?_⟩
    · rw [htraverse]
      simp [hbos, wordGraph]
    · exact iff_of_true rfl ⟨path, hpath⟩
    · intro _
      refine ⟨path, hpath, ?_, ?_, ?_, ?_⟩
      · rw [hs.formed.bosNode, hs.formed.eosNode]
        exact hnexts
      · rw [hs.formed.eosNode, hnext 1 le_rfl, h.next]
        exact (hs.formed.unlinked 1).2.1
      · rw [hs.formed.eosNode, hcost', hcost, hs.formed.eosNode]
      · intro path' hpath'
        have hcostLe := (hle path' hpath').2
        rw [hs.formed.eosNode] at hcostLe
        rw [hs.formed.eosNode, hcost']
        exact hcostLe

end

/-- **A PATH IS FOUND IFF THERE IS ONE, AND IT IS A CHEAPEST ONE.** -/
theorem viterbi_iff (connector : Connector) (memory : Nat → Nat → Int)
    {segments : List Segment} {key : Bytes} (bosId : Nat) {inserts : List (Nat × Node)}
    (hkey : key ≠ []) (hlength : key.length < 2 ^ 16) (hsegments : joinedKey segments = key)
    (hne : ∀ segment ∈ segments, segment.key ≠ [])
    (hinserts : ∀ e ∈ inserts, e.1 ≤ key.length ∧ e.2.key ≠ [] ∧ e.2.lid < connector.size)
    (hconstrained : ∀ r c, (latticeOf key bosId inserts).Inserted r →
      ((latticeOf key bosId inserts).node r).constrainedPrev = some c →
      0 < ((latticeOf key bosId inserts).node r).beginPos ∧
        (latticeOf key bosId inserts).Inserted c ∧
        ((latticeOf key bosId inserts).node c).endPos
          = ((latticeOf key bosId inserts).node r).beginPos)
    (hcosts : CostsBelow connector segments (latticeOf key bosId inserts) kVeryBigCost) :
    ∃ found lattice',
      viterbi connector memory segments (latticeOf key bosId inserts) = some (found, lattice') ∧
      (found = true ↔ ∃ path, ValidPath segments (latticeOf key bosId inserts) path) ∧
      (found = true → ∃ path,
        CheapestPath connector segments (latticeOf key bosId inserts) lattice' path) := by
  have hs := searchable_latticeOf hkey hlength hsegments hinserts hconstrained hcosts
  exact traverse_labelled hs (visiting_loops hs hne memory)

/-- Two words, the second constrained to the first. -/
theorem viterbi_iff_two_words :
    let connector : Connector := ⟨2, by decide, fun rid lid => -(rid + lid)⟩
    let segments : List Segment := [{ key := ascii "ab" }]
    let lattice := latticeOf (ascii "ab") 0
      [(0, { key := ascii "a", rid := 1 }),
        (1, { key := ascii "b", lid := 1, constrainedPrev := some 2 })]
    ∃ found lattice', viterbi connector (fun _ _ => 5) segments lattice = some (found, lattice') ∧
      (found = true ↔ ∃ path, ValidPath segments lattice path) ∧
      (found = true → ∃ path, CheapestPath connector segments lattice lattice' path) := by
  refine viterbi_iff _ _ 0 (by decide) (by decide) (by decide) (by decide) (by decide) ?_
    (costsBelow_of_nonpos ?_ ?_)
  · rintro r c ⟨hge, hlt⟩ hc
    rw [length_nodes_latticeOf] at hlt
    have hr : r = 2 ∨ r = 3 := by
      simp only [List.length_cons, List.length_nil] at hlt
      omega
    rcases hr with rfl | rfl
    · cases hc
    · cases hc
      exact ⟨by decide, ⟨by decide, by decide⟩, by decide⟩
  · intro rid lid
    show -((rid : Int) + lid) ≤ 0
    omega
  · exact forall_node_latticeOf (fun n => n.wcost ≤ 0) (by decide) (by decide) (by decide)
      (by decide)

end MozkeyConverter
