import Mathlib

/-! # Prefix levels — the trie of a sorted list, level by level

    A level of depth `d` is read off the sorted words of length at least `d`.  Neighbours
    with the same first `d` letters belong to one node; a word starts a child where its
    first `d + 1` letters are not those of the word before it. -/

namespace PrefixLevels

variable {α : Type} [LinearOrder α]

/-! ## Prefixes in the lexicographic order -/

theorem nil_le (l : List α) : [] ≤ l := not_lt.mp (List.not_lt_nil l)

variable {a b : List α}

theorem take_le_take_of_lt (h : List.Lex (· < ·) a b) :
    ∀ n, a.take n ≤ b.take n := by
  induction h with
  | nil => intro n; rw [List.take_nil]; exact nil_le _
  | cons _ ih =>
    intro n
    cases n with
    | zero => exact le_refl _
    | succ n => exact List.cons_le_cons _ (ih n)
  | rel h =>
    intro n
    cases n with
    | zero => exact le_refl _
    | succ n => exact le_of_lt (List.Lex.rel h)

theorem take_le_take (h : a ≤ b) (n : Nat) : a.take n ≤ b.take n := by
  rcases eq_or_lt_of_le h with heq | hlt
  · rw [heq]
  · exact take_le_take_of_lt hlt n

theorem take_le (n : Nat) (l : List α) : l.take n ≤ l := by
  induction l generalizing n with
  | nil => rw [List.take_nil]
  | cons x l ih =>
    cases n with
    | zero => exact nil_le _
    | succ n => exact List.cons_le_cons _ (ih n)

theorem take_eq_of_between {c : List α} {n : Nat} (hab : a ≤ b) (hbc : b ≤ c)
    (h : a.take n = c.take n) : b.take n = c.take n :=
  le_antisymm (take_le_take hbc n) (h ▸ take_le_take hab n)

/-! ## One level -/

/-- The word starts a child behind the previous one. -/
def startsNode (depth : Nat) (prev : Option (List α)) (w : List α) : Bool :=
  decide (depth < w.length) && prev.all (fun v => w.take (depth + 1) != v.take (depth + 1))

/-- The word is the last one of its node. -/
def endsNode (depth : Nat) (w : List α) (rest : List (List α)) : Bool :=
  rest.head?.all (fun v => w.take depth != v.take depth)

/-- The nodes of a level with their children; `children` are those of the current node so
    far. -/
def levelRows (depth : Nat) : Option (List α) → List (List α) → List (List α) →
    List (List α × List (List α))
  | _, _, [] => []
  | prev, children, w :: rest =>
    let children' := if startsNode depth prev w then children ++ [w.take (depth + 1)]
      else children
    if endsNode depth w rest then
      (w.take depth, children') :: levelRows depth (some w) [] rest
    else levelRows depth (some w) children' rest

/-- The nodes of a level: the prefixes of the words that end a node. -/
def groups (depth : Nat) : List (List α) → List (List α)
  | [] => []
  | w :: rest =>
    if endsNode depth w rest then w.take depth :: groups depth rest else groups depth rest

/-- The children of a level: the prefixes of the words that start one. -/
def newPrefixes (depth : Nat) : Option (List α) → List (List α) → List (List α)
  | _, [] => []
  | prev, w :: rest =>
    if startsNode depth prev w then w.take (depth + 1) :: newPrefixes depth (some w) rest
    else newPrefixes depth (some w) rest

variable {depth : Nat} {w : List α} {rest : List (List α)}

theorem ne_nil_of_not_endsNode (h : ¬ endsNode depth w rest = true) :
    ∃ v rest', rest = v :: rest' ∧ w.take depth = v.take depth := by
  cases rest with
  | nil => exact absurd rfl h
  | cons v rest' =>
    refine ⟨v, rest', rfl, ?_⟩
    by_contra hne
    exact h (bne_iff_ne.mpr hne)

theorem take_ne_of_endsNode {v : List α} (h : endsNode depth w (v :: rest) = true) :
    w.take depth ≠ v.take depth :=
  bne_iff_ne.mp h

theorem startsNode_some {v : List α} :
    startsNode depth (some v) w = true
      ↔ depth < w.length ∧ w.take (depth + 1) ≠ v.take (depth + 1) := by
  rw [startsNode, Bool.and_eq_true, decide_eq_true_iff]
  exact and_congr_right fun _ => bne_iff_ne

theorem lt_length_of_startsNode {prev : Option (List α)} (h : startsNode depth prev w = true) :
    depth < w.length := by
  rw [startsNode, Bool.and_eq_true, decide_eq_true_iff] at h
  exact h.1

theorem map_fst_levelRows (depth : Nat) : ∀ (words : List (List α)) (prev : Option (List α))
    (children : List (List α)),
    (levelRows depth prev children words).map Prod.fst = groups depth words := by
  intro words
  induction words with
  | nil => intro prev children; rfl
  | cons w rest ih =>
    intro prev children
    rw [levelRows, groups]
    by_cases hends : endsNode depth w rest = true
    · rw [if_pos hends, if_pos hends, List.map_cons, ih]
    · rw [if_neg hends, if_neg hends, ih]

theorem flatMap_snd_levelRows (depth : Nat) : ∀ (words : List (List α)) (prev : Option (List α))
    (children : List (List α)), words ≠ [] ∨ children = [] →
    (levelRows depth prev children words).flatMap Prod.snd
      = children ++ newPrefixes depth prev words := by
  intro words
  induction words with
  | nil =>
    intro prev children h
    rw [h.resolve_left (fun hne => hne rfl)]
    rfl
  | cons w rest ih =>
    intro prev children _
    have hchildren : (if startsNode depth prev w then children ++ [w.take (depth + 1)]
          else children) ++ newPrefixes depth (some w) rest
        = children ++ newPrefixes depth prev (w :: rest) := by
      rw [newPrefixes]
      by_cases hstarts : startsNode depth prev w = true
      · rw [if_pos hstarts, if_pos hstarts, List.append_assoc]
        rfl
      · rw [if_neg hstarts, if_neg hstarts]
    rw [levelRows]
    by_cases hends : endsNode depth w rest = true
    · rw [if_pos hends, List.flatMap_cons, ih _ _ (Or.inr rfl), List.nil_append]
      exact hchildren
    · obtain ⟨v, rest', hrest, -⟩ := ne_nil_of_not_endsNode hends
      rw [if_neg hends, ih _ _ (Or.inl (by rw [hrest]; exact List.cons_ne_nil _ _))]
      exact hchildren

theorem levelRows_children (depth : Nat) : ∀ (words : List (List α)) (prev : Option (List α))
    (children : List (List α)),
    (∀ c ∈ children, c.length = depth + 1 ∧
      ∀ w, words.head? = some w → c.take depth = w.take depth) →
    ∀ row ∈ levelRows depth prev children words, ∀ c ∈ row.2,
      c.length = depth + 1 ∧ c.take depth = row.1 := by
  intro words
  induction words with
  | nil => intro prev children _ row hrow; exact absurd hrow List.not_mem_nil
  | cons w rest ih =>
    intro prev children hinv
    have hinv' : ∀ c ∈ (if startsNode depth prev w then children ++ [w.take (depth + 1)]
        else children), c.length = depth + 1 ∧ c.take depth = w.take depth := by
      intro c hc
      by_cases hstarts : startsNode depth prev w = true
      · rw [if_pos hstarts, List.mem_append, List.mem_singleton] at hc
        rcases hc with hc | rfl
        · exact ⟨(hinv c hc).1, (hinv c hc).2 w rfl⟩
        · have hlt := lt_length_of_startsNode hstarts
          refine ⟨by rw [List.length_take]; omega, ?_⟩
          rw [List.take_take, Nat.min_eq_left (Nat.le_succ depth)]
      · rw [if_neg hstarts] at hc
        exact ⟨(hinv c hc).1, (hinv c hc).2 w rfl⟩
    rw [levelRows]
    by_cases hends : endsNode depth w rest = true
    · rw [if_pos hends]
      intro row hrow
      rcases List.mem_cons.mp hrow with rfl | hrow
      · exact hinv'
      · exact ih (some w) [] (fun c hc => nomatch hc) row hrow
    · rw [if_neg hends]
      obtain ⟨v, rest', rfl, heq⟩ := ne_nil_of_not_endsNode hends
      refine ih _ _ ?_
      intro c hc
      obtain ⟨hlen, htake⟩ := hinv' c hc
      refine ⟨hlen, ?_⟩
      intro u hu
      rw [← Option.some.inj hu, htake, heq]

/-! ## The order of a level -/

variable {p : List α}

theorem mem_groups : ∀ {words : List (List α)},
    p ∈ groups depth words ↔ ∃ w ∈ words, w.take depth = p := by
  intro words
  induction words with
  | nil =>
    refine ⟨fun h => absurd h List.not_mem_nil, ?_⟩
    rintro ⟨w, hw, -⟩
    exact nomatch hw
  | cons w rest ih =>
    rw [groups, List.exists_mem_cons_iff, ← ih]
    by_cases hends : endsNode depth w rest = true
    · rw [if_pos hends, List.mem_cons, eq_comm]
    · rw [if_neg hends]
      refine ⟨Or.inr, ?_⟩
      rintro (rfl | h)
      · obtain ⟨v, rest', rfl, heq⟩ := ne_nil_of_not_endsNode hends
        exact ih.mpr ⟨v, List.mem_cons_self, heq.symm⟩
      · exact h

theorem pairwise_groups (depth : Nat) : ∀ {words : List (List α)}, words.Pairwise (· < ·) →
    (groups depth words).Pairwise (· < ·) := by
  intro words
  induction words with
  | nil => intro _; exact List.Pairwise.nil
  | cons w rest ih =>
    intro h
    obtain ⟨hw, hrest⟩ := List.pairwise_cons.mp h
    rw [groups]
    by_cases hends : endsNode depth w rest = true
    · rw [if_pos hends]
      refine List.pairwise_cons.mpr ⟨?_, ih hrest⟩
      intro p hp
      obtain ⟨x, hx, rfl⟩ := mem_groups.mp hp
      cases rest with
      | nil => exact nomatch hx
      | cons v rest' =>
        have hwv := take_le_take (le_of_lt (hw v List.mem_cons_self)) depth
        have hvx : v.take depth ≤ x.take depth := by
          rcases List.mem_cons.mp hx with rfl | hx'
          · exact le_refl _
          · exact take_le_take (le_of_lt ((List.pairwise_cons.mp hrest).1 x hx')) depth
        exact lt_of_lt_of_le (lt_of_le_of_ne hwv (take_ne_of_endsNode hends)) hvx
    · rw [if_neg hends]
      exact ih hrest

theorem exists_of_mem_newPrefixes : ∀ {words : List (List α)}
    {prev : Option (List α)}, p ∈ newPrefixes depth prev words →
    ∃ w ∈ words, depth < w.length ∧ w.take (depth + 1) = p := by
  intro words
  induction words with
  | nil => intro prev h; exact nomatch h
  | cons w rest ih =>
    intro prev h
    rw [newPrefixes] at h
    by_cases hstarts : startsNode depth prev w = true
    · rw [if_pos hstarts, List.mem_cons] at h
      rcases h with rfl | h
      · exact ⟨w, List.mem_cons_self, lt_length_of_startsNode hstarts, rfl⟩
      · obtain ⟨x, hx, hlen⟩ := ih h
        exact ⟨x, List.mem_cons_of_mem w hx, hlen⟩
    · rw [if_neg hstarts] at h
      obtain ⟨x, hx, hlen⟩ := ih h
      exact ⟨x, List.mem_cons_of_mem w hx, hlen⟩

/-- A prefix that the word before does not have is among the children. -/
theorem mem_newPrefixes {x : List α} (hlen : depth < x.length) :
    ∀ {words : List (List α)} {prev : Option (List α)}, x ∈ words →
    (∀ v, prev = some v → v.take (depth + 1) ≠ x.take (depth + 1)) →
    x.take (depth + 1) ∈ newPrefixes depth prev words := by
  intro words
  induction words with
  | nil => intro prev h; exact nomatch h
  | cons w rest ih =>
    intro prev hx hprev
    rw [newPrefixes]
    by_cases heq : w.take (depth + 1) = x.take (depth + 1)
    · have hstarts : startsNode depth prev w = true := by
        have hw : depth < w.length := by
          have := congrArg List.length heq
          rw [List.length_take, List.length_take] at this
          omega
        cases prev with
        | none => exact Bool.and_eq_true_iff.mpr ⟨decide_eq_true hw, rfl⟩
        | some v => exact startsNode_some.mpr ⟨hw, fun h => hprev v rfl (h.symm.trans heq)⟩
      rw [if_pos hstarts, heq]
      exact List.mem_cons_self
    · have hmem := ih
        ((List.mem_cons.mp hx).resolve_left (fun h => heq (by rw [h])))
        (fun v hv => Option.some.inj hv ▸ heq)
      by_cases hstarts : startsNode depth prev w = true
      · rw [if_pos hstarts]
        exact List.mem_cons_of_mem _ hmem
      · rw [if_neg hstarts]
        exact hmem

theorem lt_of_mem_newPrefixes : ∀ {words : List (List α)}
    {v : List α}, (v :: words).Pairwise (· < ·) → p ∈ newPrefixes depth (some v) words →
    v.take (depth + 1) < p := by
  intro words
  induction words with
  | nil => intro v _ h; exact nomatch h
  | cons w rest ih =>
    intro v hsorted h
    obtain ⟨hv, hrest⟩ := List.pairwise_cons.mp hsorted
    have hvw := take_le_take (le_of_lt (hv w List.mem_cons_self)) (depth + 1)
    rw [newPrefixes] at h
    by_cases hstarts : startsNode depth (some v) w = true
    · rw [if_pos hstarts, List.mem_cons] at h
      have hlt := lt_of_le_of_ne hvw (startsNode_some.mp hstarts).2.symm
      rcases h with rfl | h
      · exact hlt
      · exact lt_trans hlt (ih hrest h)
    · rw [if_neg hstarts] at h
      exact lt_of_le_of_lt hvw (ih hrest h)

theorem pairwise_newPrefixes (depth : Nat) : ∀ {words : List (List α)} (prev : Option (List α)),
    words.Pairwise (· < ·) → (newPrefixes depth prev words).Pairwise (· < ·) := by
  intro words
  induction words with
  | nil => intro prev _; exact List.Pairwise.nil
  | cons w rest ih =>
    intro prev h
    have htail := ih (some w) (List.pairwise_cons.mp h).2
    rw [newPrefixes]
    by_cases hstarts : startsNode depth prev w = true
    · rw [if_pos hstarts]
      exact List.pairwise_cons.mpr ⟨fun p hp => lt_of_mem_newPrefixes h hp, htail⟩
    · rw [if_neg hstarts]
      exact htail

/-- **THE CHILDREN OF A LEVEL ARE THE NODES OF THE NEXT ONE**, in the same order. -/
theorem newPrefixes_eq_groups (depth : Nat) {words : List (List α)}
    (h : words.Pairwise (· < ·)) :
    newPrefixes depth none words
      = groups (depth + 1) (words.filter (fun w => ¬ w.length < depth + 1)) := by
  refine List.Pairwise.eq_of_mem_iff (pairwise_newPrefixes depth none h)
    (pairwise_groups _ (h.filter _)) ?_
  intro p
  rw [mem_groups]
  constructor
  · intro hp
    obtain ⟨w, hw, hlen, htake⟩ := exists_of_mem_newPrefixes hp
    exact ⟨w, List.mem_filter.mpr ⟨hw, decide_eq_true (by omega)⟩, htake⟩
  · rintro ⟨w, hw, rfl⟩
    obtain ⟨hmem, hlen⟩ := List.mem_filter.mp hw
    have hlen' := of_decide_eq_true hlen
    exact mem_newPrefixes (by omega) hmem (fun v hv => nomatch hv)

/-- **A WORD THAT IS A CHILD STARTS IT**: the first word of a child is the child itself
    where that is a word. -/
theorem eq_of_startsNode {front : List (List α)} (hsorted : (front ++ w :: rest).Pairwise (· < ·))
    (hstarts : startsNode depth front.getLast? w = true)
    (hmem : w.take (depth + 1) ∈ front ++ w :: rest) : w.take (depth + 1) = w := by
  by_contra hne
  have hlt := lt_of_le_of_ne (take_le (depth + 1) w) hne
  obtain ⟨hfront, htail, hcross⟩ := List.pairwise_append.mp hsorted
  have hin : w.take (depth + 1) ∈ front := by
    rcases List.mem_append.mp hmem with h | h
    · exact h
    · rcases List.mem_cons.mp h with h | h
      · exact absurd h hne
      · exact absurd ((List.pairwise_cons.mp htail).1 _ h) (not_lt_of_gt hlt)
  -- the last word before `w` is between the child and `w`
  have hnil : front ≠ [] := List.ne_nil_of_mem hin
  have hle : w.take (depth + 1) ≤ front.getLast hnil := by
    rw [← List.dropLast_append_getLast hnil] at hin hfront
    rcases List.mem_append.mp hin with h | h
    · exact le_of_lt ((List.pairwise_append.mp hfront).2.2 _ h _ List.mem_cons_self)
    · exact le_of_eq (List.mem_singleton.mp h)
  have hlast := hcross _ (List.getLast_mem hnil) w List.mem_cons_self
  rw [List.getLast?_eq_some_getLast hnil] at hstarts
  refine (startsNode_some.mp hstarts).2
    (take_eq_of_between hle (le_of_lt hlast) ?_).symm
  rw [List.take_take, Nat.min_self]

/-! ## All levels -/

/-- The rows of all levels from `depth` on. -/
def levels : Nat → Nat → List (List α) → List (List α × List (List α))
  | 0, _, _ => []
  | fuel + 1, depth, words =>
    if words.isEmpty then []
    else levelRows depth none [] words
      ++ levels fuel (depth + 1) (words.filter (fun w => ¬ w.length < depth + 1))

omit [LinearOrder α] in
theorem filter_bounds {fuel : Nat} {words : List (List α)}
    (h : ∀ w ∈ words, depth ≤ w.length ∧ w.length < depth + (fuel + 1)) :
    ∀ w ∈ words.filter (fun w => ¬ w.length < depth + 1),
      depth + 1 ≤ w.length ∧ w.length < depth + 1 + fuel := by
  intro w hw
  obtain ⟨hmem, hlen⟩ := List.mem_filter.mp hw
  have := of_decide_eq_true hlen
  have := h w hmem
  omega

/-- **BREADTH-FIRST ORDER**: the nodes of the levels are those of the first one, followed
    by all children. -/
theorem map_fst_levels : ∀ (fuel depth : Nat) {words : List (List α)},
    words.Pairwise (· < ·) → (∀ w ∈ words, depth ≤ w.length ∧ w.length < depth + fuel) →
    (levels fuel depth words).map Prod.fst
      = groups depth words ++ (levels fuel depth words).flatMap Prod.snd := by
  intro fuel
  induction fuel with
  | zero =>
    intro depth words _ hbound
    cases words with
    | nil => rfl
    | cons w rest =>
      have := hbound w List.mem_cons_self
      omega
  | succ fuel ih =>
    intro depth words hsorted hbound
    rw [levels]
    cases words with
    | nil => rfl
    | cons w rest =>
      rw [if_neg (by exact Bool.false_ne_true), List.map_append, List.flatMap_append,
        map_fst_levelRows, flatMap_snd_levelRows _ _ _ _ (Or.inr rfl), List.nil_append,
        newPrefixes_eq_groups depth hsorted,
        ih _ (hsorted.filter _) (filter_bounds hbound)]

theorem of_mem_levels {fuel depth : Nat} {words : List (List α)} {p : List α}
    (h : p ∈ (levels (fuel + 1) depth words).map Prod.fst) :
    (∃ w ∈ words, w.take depth = p) ∨
      p ∈ (levels fuel (depth + 1) (words.filter (fun w => ¬ w.length < depth + 1))).map
        Prod.fst := by
  rw [levels] at h
  by_cases hempty : words.isEmpty = true
  · rw [if_pos hempty] at h
    exact nomatch h
  · rwa [if_neg hempty, List.map_append, map_fst_levelRows, List.mem_append, mem_groups] at h

/-- The nodes of the levels have at least the depth of the first one. -/
theorem le_length_of_mem_levels : ∀ (fuel depth : Nat) {words : List (List α)},
    (∀ w ∈ words, depth ≤ w.length ∧ w.length < depth + fuel) →
    ∀ p ∈ (levels fuel depth words).map Prod.fst, depth ≤ p.length := by
  intro fuel
  induction fuel with
  | zero => intro depth words _ p hp; exact nomatch hp
  | succ fuel ih =>
    intro depth words hbound p hp
    rcases of_mem_levels hp with ⟨w, hw, rfl⟩ | hp
    · rw [List.length_take, Nat.min_eq_left (hbound w hw).1]
    · exact Nat.le_of_succ_le (ih _ (filter_bounds hbound) p hp)

theorem nodup_levels : ∀ (fuel depth : Nat) {words : List (List α)},
    words.Pairwise (· < ·) → (∀ w ∈ words, depth ≤ w.length ∧ w.length < depth + fuel) →
    ((levels fuel depth words).map Prod.fst).Nodup := by
  intro fuel
  induction fuel with
  | zero => intro depth words _ _; exact List.nodup_nil
  | succ fuel ih =>
    intro depth words hsorted hbound
    rw [levels]
    by_cases hempty : words.isEmpty = true
    · rw [if_pos hempty]
      exact List.nodup_nil
    · rw [if_neg hempty, List.map_append, map_fst_levelRows]
      refine List.nodup_append.mpr ⟨(pairwise_groups depth hsorted).imp ne_of_lt,
        ih _ (hsorted.filter _) (filter_bounds hbound), ?_⟩
      rintro p hp q hq rfl
      obtain ⟨w, -, rfl⟩ := mem_groups.mp hp
      have := le_length_of_mem_levels fuel (depth + 1) (filter_bounds hbound) _ hq
      rw [List.length_take] at this
      omega

theorem levels_children : ∀ (fuel depth : Nat) {words : List (List α)},
    ∀ row ∈ levels fuel depth words, ∀ c ∈ row.2, ∃ a, c = row.1 ++ [a] := by
  intro fuel
  induction fuel with
  | zero => intro depth words row hrow; exact nomatch hrow
  | succ fuel ih =>
    intro depth words row hrow c hc
    rw [levels] at hrow
    by_cases hempty : words.isEmpty = true
    · rw [if_pos hempty] at hrow
      exact nomatch hrow
    · rw [if_neg hempty, List.mem_append] at hrow
      rcases hrow with hrow | hrow
      · obtain ⟨hlen, htake⟩ := levelRows_children depth words none []
          (fun c hc => nomatch hc) row hrow c hc
        refine ⟨(c)[depth], ?_⟩
        rw [← htake, ← List.take_succ_eq_append_getElem, ← hlen, List.take_length]
      · exact ih _ row hrow c hc

theorem mem_levels : ∀ (fuel depth : Nat) {words : List (List α)},
    (∀ w ∈ words, depth ≤ w.length ∧ w.length < depth + fuel) →
    ∀ w ∈ words, w ∈ (levels fuel depth words).map Prod.fst := by
  intro fuel
  induction fuel with
  | zero =>
    intro depth words hbound w hw
    have := hbound w hw
    omega
  | succ fuel ih =>
    intro depth words hbound w hw
    have hempty : ¬ words.isEmpty = true := by
      rw [List.isEmpty_iff]
      exact List.ne_nil_of_mem hw
    rw [levels, if_neg hempty, List.map_append, map_fst_levelRows, List.mem_append]
    by_cases hlen : w.length = depth
    · exact Or.inl (mem_groups.mpr ⟨w, hw, by rw [← hlen, List.take_length]⟩)
    · have := (hbound w hw).1
      exact Or.inr (ih _ (filter_bounds hbound) w
        (List.mem_filter.mpr ⟨hw, decide_eq_true (by omega)⟩))

theorem exists_take_of_mem_levels : ∀ (fuel depth : Nat) {words : List (List α)},
    ∀ p ∈ (levels fuel depth words).map Prod.fst, ∃ w ∈ words, ∃ n, w.take n = p := by
  intro fuel
  induction fuel with
  | zero => intro depth words p hp; exact nomatch hp
  | succ fuel ih =>
    intro depth words p hp
    rcases of_mem_levels hp with ⟨w, hw, rfl⟩ | hp
    · exact ⟨w, hw, depth, rfl⟩
    · obtain ⟨w, hw, n, hn⟩ := ih _ p hp
      exact ⟨w, List.mem_of_mem_filter hw, n, hn⟩

end PrefixLevels
