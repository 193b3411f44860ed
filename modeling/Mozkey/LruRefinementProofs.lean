import Mozkey.LruPointerProofs

/-! # LruCache — the cache does what a cache of lists does

    The elements of a cache stand for the two lists of a cache of lists, the values included,
    and the table maps the keys of the one list to its elements.  Every operation keeps this. -/

namespace LruPointers

open LinkedList LruCache

variable {K V : Type}

/-! ## The counters -/

/-- The counters, as numbers. -/
def Counters.toBlocks (b : Counters) : Blocks where
  count := b.count.toNat
  capacity := b.capacity.toNat
  next := b.next.toNat

/-- **THE COUNTERS DO NOT WRAP AROUND.** -/
theorem grow_toNat {max : UInt64} {b : Counters} (hcount : b.count < 10)
    (hlt : b.capacity < max) (hle : b.capacity.toNat + b.next.toNat ≤ max.toNat)
    (hnext : b.next.toNat < 2 ^ 63) :
    (b.grow max).toBlocks = Blocks.grow max.toNat b.toBlocks := by
  have hmax := max.toNat_lt
  have hcountNat : b.count.toNat < 10 := hcount
  have hcap : (b.capacity + b.next).toNat = b.capacity.toNat + b.next.toNat := by
    rw [UInt64.toNat_add, Nat.mod_eq_of_lt (by omega)]
  have hcnt : (b.count + 1).toNat = b.count.toNat + 1 := by
    rw [UInt64.toNat_add, Nat.mod_eq_of_lt (by
      show b.count.toNat + 1 < 2 ^ 64
      omega)]
    rfl
  have hrem : (10 - (b.count + 1)).toNat = 10 - (b.count.toNat + 1) := by
    rw [UInt64.toNat_sub_of_le _ _ (by rw [UInt64.le_iff_toNat_le, hcnt]; exact hcountNat), hcnt]
    rfl
  have hdouble : (b.next <<< 1).toNat = b.next.toNat <<< 1 := by
    rw [UInt64.toNat_shiftLeft, Nat.mod_eq_of_lt (by
      rw [Nat.shiftLeft_eq]
      show b.next.toNat * 2 ^ 1 < 2 ^ 64
      omega)]
    rfl
  have hleft : (max - (b.capacity + b.next)).toNat
      = max.toNat - (b.capacity.toNat + b.next.toNat) := by
    rw [UInt64.toNat_sub_of_le _ _ (by rw [UInt64.le_iff_toNat_le, hcap]; exact hle), hcap]
  rw [Blocks.grow, if_pos ⟨hcountNat, hlt⟩, Counters.grow]
  dsimp only [Counters.toBlocks]
  by_cases hlast : b.count.toNat + 1 < maxBlocks
  · have hpos : 0 < 10 - (b.count + 1) := by
      rw [UInt64.lt_iff_toNat_lt, hrem]
      show 0 < 10 - (b.count.toNat + 1)
      rw [maxBlocks] at hlast
      omega
    rw [if_pos hpos, if_pos hlast]
    have hquot : ((max - (b.capacity + b.next)) / (10 - (b.count + 1))).toNat
        = (max.toNat - (b.capacity.toNat + b.next.toNat)) / (maxBlocks - (b.count.toNat + 1)) := by
      rw [UInt64.toNat_div, hleft, hrem, maxBlocks]
    -- a share of what is left is not more than what is left
    have hshare := Nat.div_le_self (max.toNat - (b.capacity.toNat + b.next.toNat))
      (maxBlocks - (b.count.toNat + 1))
    rw [← hquot] at hshare ⊢
    rw [← hdouble]
    generalize (max - (b.capacity + b.next)) / (10 - (b.count + 1)) = share at hshare ⊢
    generalize b.next <<< 1 = double
    have hmin : (if share < double then share else double).toNat
        = min double.toNat share.toNat := by
      split_ifs with hcmp
      · exact (Nat.min_eq_right (UInt64.lt_iff_toNat_lt.mp hcmp).le).symm
      · exact (Nat.min_eq_left (Nat.le_of_not_lt fun h => hcmp (UInt64.lt_iff_toNat_lt.mpr h))).symm
    generalize (if share < double then share else double) = next at hmin ⊢
    have hsum : (b.capacity + b.next + next).toNat
        = b.capacity.toNat + b.next.toNat + next.toNat := by
      rw [UInt64.toNat_add, hcap, Nat.mod_eq_of_lt (by omega)]
    rw [if_neg (by rw [UInt64.lt_iff_toNat_lt, hsum]; omega), if_neg (by rw [← hmin]; omega),
      hcnt, hcap, hmin]
  · have hpos : ¬ 0 < 10 - (b.count + 1) := by
      rw [UInt64.lt_iff_toNat_lt, hrem]
      show ¬ 0 < 10 - (b.count.toNat + 1)
      rw [maxBlocks] at hlast
      omega
    rw [if_neg hpos, if_neg hlast, hcnt, hcap]

/-! ## The cache of lists -/

/-- The elements of a cache are those of a cache of lists. -/
structure Rep (c : Cache K V) (m : LruCache K V) (ps qs : List Nat) : Prop where
  shape : Shape c ps qs
  lt : ∀ a ∈ ps ++ qs, a < c.blocks.capacity.toNat
  lru_eq : m.lru = ps.map c.entry
  free_eq : m.freeList = qs.map fun a => (c.entry a).value
  table : ∀ key a, c.table key = some a ↔ a ∈ ps ∧ (c.entry a).key = key
  blocks_eq : m.blocks = c.blocks.toBlocks
  max_eq : m.maxElements = c.maxElements.toNat

/-- The cache that a cache of lists stands for, with its invariant. -/
def Represents (c : Cache K V) (m : LruCache K V) : Prop := Sound m ∧ ∃ ps qs, Rep c m ps qs

variable {c : Cache K V} {m : LruCache K V} {ps qs l₁ l₂ : List Nat} {e : Nat}

theorem Rep.keys_nodup (h : Rep c m ps qs) (hs : Sound m) :
    (ps.map fun a => (c.entry a).key).Nodup := by
  have := hs.nodup
  rw [h.lru_eq, List.map_map] at this
  exact this

section

variable [DecidableEq K]

/-- An element that the table gives, and one that is found by its key. -/
theorem Rep.lookupInternal (h : Rep c m ps qs) (key : K) :
    LruCache.lookupInternal m key = (c.lookupInternal key).map c.entry := by
  rw [Cache.lookupInternal]
  cases ha : c.table key with
  | none =>
    rw [Option.map_none, lookupInternal_eq_none, h.lru_eq, List.map_map]
    intro hmem
    obtain ⟨a, ha', hkey⟩ := List.mem_map.mp hmem
    rw [(h.table key a).mpr ⟨ha', hkey⟩] at ha
    cases ha
  | some a =>
    obtain ⟨ha', hkey⟩ := (h.table key a).mp ha
    rw [Option.map_some]
    cases hlookup : LruCache.lookupInternal m key with
    | none =>
      rw [lookupInternal_eq_none, h.lru_eq, List.map_map] at hlookup
      exact absurd (List.mem_map.mpr ⟨a, ha', hkey⟩) hlookup
    | some e =>
      obtain ⟨he, hkey'⟩ := lookupInternal_eq_some hlookup
      rw [h.lru_eq] at he
      obtain ⟨b, hb, rfl⟩ := List.mem_map.mp he
      have hab : c.table key = some b := (h.table key b).mpr ⟨hb, hkey'⟩
      rw [ha] at hab
      rw [Option.some.inj hab]

theorem removeFromLru_middle {l₁ l₂ : List (LruElement K V)} {e : LruElement K V}
    (h : ((l₁ ++ e :: l₂).map LruElement.key).Nodup) :
    LruCache.removeFromLru e.key (l₁ ++ e :: l₂) = l₁ ++ l₂ := by
  have hnotMem : ∀ x ∈ l₁, ¬ (decide (x.key = e.key) = true) := by
    intro x hx hkey
    rw [List.map_append, List.nodup_append] at h
    exact h.2.2 x.key (List.mem_map_of_mem hx) e.key
      (List.mem_map_of_mem List.mem_cons_self) (of_decide_eq_true hkey)
  rw [LruCache.removeFromLru, List.eraseP_append_right _ hnotMem,
    List.eraseP_cons_of_pos (by simp)]

theorem table_erase (h : Rep c m (l₁ ++ e :: l₂) qs) (hs : Sound m) (key : K) (a : Nat) :
    Function.update c.table (c.entry e).key none key = some a ↔
      a ∈ l₁ ++ l₂ ∧ (c.entry a).key = key := by
  have hkeys := h.keys_nodup hs
  rw [List.map_append, List.map_cons, List.nodup_middle, List.nodup_cons,
    ← List.map_append] at hkeys
  rcases eq_or_ne key (c.entry e).key with rfl | hne
  · rw [Function.update_self]
    constructor
    · intro hnone
      cases hnone
    · rintro ⟨ha, hkey⟩
      exact absurd (List.mem_map.mpr ⟨a, ha, hkey⟩) hkeys.1
  · rw [Function.update_of_ne hne, h.table]
    constructor
    · rintro ⟨ha, hkey⟩
      refine ⟨?_, hkey⟩
      rcases List.mem_append.mp ha with ha | ha
      · exact List.mem_append_left _ ha
      · rcases List.mem_cons.mp ha with rfl | ha
        · exact absurd hkey.symm hne
        · exact List.mem_append_right _ ha
    · rintro ⟨ha, hkey⟩
      refine ⟨?_, hkey⟩
      rcases List.mem_append.mp ha with ha | ha
      · exact List.mem_append_left _ ha
      · exact List.mem_append_right _ (List.mem_cons_of_mem _ ha)

/-- **`Evict`** of an element of the list. -/
theorem exists_evict (h : Rep c m (l₁ ++ e :: l₂) qs) (hs : Sound m) :
    ∃ c', c.evict e = some c' ∧ Rep c' (LruCache.evict m (c.entry e)) (l₁ ++ l₂) (e :: qs) := by
  have hmem : e ∈ l₁ ++ e :: l₂ := List.mem_append_right _ List.mem_cons_self
  have htable : c.table (c.heap e).key = some e := (h.table _ e).mpr ⟨hmem, rfl⟩
  -- the table does not change the lists
  have hshape : Shape { c with table := Function.update c.table (c.heap e).key none }
      (l₁ ++ e :: l₂) qs :=
    ⟨h.shape.nodup, h.shape.linked, h.shape.head_eq, h.shape.tail_eq, h.shape.chained,
      h.shape.prev_free⟩
  obtain ⟨hshape', hrelinked, hloose⟩ := shape_removeFromLru hshape
  have hpushed := shape_pushFreeList hshape' hloose.notMem
  have hrelinked' := hrelinked.trans (relinked_pushFreeList _ e)
  have hentry : ∀ a, Cache.entry _ a = c.entry a := congrFun hrelinked'.entry_eq
  refine ⟨_, by rw [Cache.evict]; exact if_pos (by rw [htable]; rfl), hpushed, ?_, ?_, ?_, ?_,
    ?_, ?_⟩
  · intro a ha
    rw [hrelinked'.blocks_eq]
    refine h.lt a ?_
    rcases List.mem_append.mp ha with ha | ha
    · refine List.mem_append_left _ ?_
      rcases List.mem_append.mp ha with ha | ha
      · exact List.mem_append_left _ ha
      · exact List.mem_append_right _ (List.mem_cons_of_mem _ ha)
    · rcases List.mem_cons.mp ha with rfl | ha
      · exact List.mem_append_left _ hmem
      · exact List.mem_append_right _ ha
  · have hnodup := hs.nodup
    rw [h.lru_eq, List.map_append, List.map_cons] at hnodup
    show LruCache.removeFromLru (c.entry e).key m.lru = _
    rw [h.lru_eq, List.map_append, List.map_cons, removeFromLru_middle hnodup,
      hrelinked'.entry_eq, ← List.map_append]
    rfl
  · show (c.entry e).value :: m.freeList = _
    rw [h.free_eq, hrelinked'.entry_eq]
    rfl
  · intro key a
    rw [hrelinked'.table_eq, hrelinked'.entry_eq]
    exact table_erase h hs key a
  · rw [hrelinked'.blocks_eq]
    exact h.blocks_eq
  · rw [hrelinked'.max_eq]
    exact h.max_eq

end

/-- **`PopFreeList`** where an element is free. -/
theorem exists_pop (h : Rep c m ps (e :: qs)) :
    ∃ c' m', c.popFreeList = some (some e, c') ∧
      LruCache.popFreeList m = some ((c'.entry e).value, m') ∧ Rep c' m' ps qs ∧
      Loose c' ps qs e ∧ e < c'.blocks.capacity.toNat := by
  obtain ⟨c', hpop, hshape, hrelinked, hloose⟩ := shape_popFreeList h.shape
  have hlt : ∀ a ∈ ps ++ e :: qs, a < c'.blocks.capacity.toNat := by
    rw [hrelinked.blocks_eq]
    exact h.lt
  refine ⟨c', { m with freeList := qs.map fun a => (c'.entry a).value }, hpop, ?_,
    ⟨hshape, ?_, ?_, rfl, ?_, ?_, ?_⟩, hloose, ?_⟩
  · rw [LruCache.popFreeList, h.free_eq, hrelinked.entry_eq]
    rfl
  · intro a ha
    refine hlt a ?_
    rcases List.mem_append.mp ha with ha | ha
    · exact List.mem_append_left _ ha
    · exact List.mem_append_right _ (List.mem_cons_of_mem _ ha)
  · rw [hrelinked.entry_eq]
    exact h.lru_eq
  · rw [hrelinked.table_eq, hrelinked.entry_eq]
    exact h.table
  · rw [hrelinked.blocks_eq]
    exact h.blocks_eq
  · rw [hrelinked.max_eq]
    exact h.max_eq
  · exact hlt e (List.mem_append_right _ List.mem_cons_self)

/-- **`AddBlock`** where a block may be added: there are free elements behind it. -/
theorem exists_addBlock [Inhabited K] [Inhabited V] (h : Rep c m ps []) (hs : Sound m)
    (hmax : m.maxElements ≤ 2 ^ 63)
    (hgrow : c.blocks.count < 10 ∧ c.blocks.capacity < c.maxElements) :
    ∃ e qs, Rep c.addBlock (LruCache.addBlock m) ps (e :: qs) := by
  obtain ⟨n, hn⟩ := hs.grown
  have hcount : (Blocks.after m.maxElements n).count < maxBlocks := by
    rw [← hn, h.blocks_eq]
    exact hgrow.1
  have hlt : (Blocks.after m.maxElements n).capacity < m.maxElements := by
    rw [← hn, h.blocks_eq, h.max_eq]
    exact hgrow.2
  have hpos := Blocks.next_pos hlt hcount
  have hle := (Blocks.capacity_le_of_after m.maxElements n).2 hcount
  have hnext := Blocks.next_lt hmax hcount
  rw [← hn, h.blocks_eq] at hpos hle hnext
  rw [h.max_eq] at hle
  have hblocks : (c.blocks.grow c.maxElements).toBlocks
      = Blocks.grow m.maxElements m.blocks := by
    rw [h.max_eq, h.blocks_eq]
    exact grow_toNat hgrow.1 hgrow.2 hle hnext
  have hcapacity : (c.blocks.grow c.maxElements).capacity.toNat
      = c.blocks.capacity.toNat + c.blocks.next.toNat := by
    have hgrown : (Blocks.grow m.maxElements m.blocks).capacity
        = m.blocks.capacity + m.blocks.next := by
      rw [Blocks.grow, if_pos ⟨by rw [h.blocks_eq]; exact hgrow.1,
        by rw [h.blocks_eq, h.max_eq]; exact hgrow.2⟩]
      dsimp only
      split_ifs <;> rfl
    rw [← hblocks, h.blocks_eq] at hgrown
    exact hgrown
  obtain ⟨qs', hadded⟩ := exists_added h.shape h.lt c.blocks.next.toNat
  have hadd : c.addBlock = { Cache.addElements c.blocks.capacity.toNat c.blocks.next.toNat c with
      blocks := c.blocks.grow c.maxElements } := by
    rw [Cache.addBlock, if_pos hgrow]
  have hrep : Rep c.addBlock (LruCache.addBlock m) ps qs' := by
    rw [hadd]
    refine ⟨⟨hadded.shape.nodup, hadded.shape.linked, hadded.shape.head_eq,
      hadded.shape.tail_eq, hadded.shape.chained, hadded.shape.prev_free⟩, ?_, ?_, ?_, ?_,
      hblocks.symm, ?_⟩
    · intro a ha
      show a < (c.blocks.grow c.maxElements).capacity.toNat
      rw [hcapacity]
      exact hadded.lt a ha
    · show m.lru = _
      rw [h.lru_eq]
      exact List.map_congr_left fun a ha => (hadded.entry_eq a ha).symm
    · show List.replicate ((Blocks.grow m.maxElements m.blocks).capacity - m.blocks.capacity)
        default ++ m.freeList = qs'.map fun a => (Cache.entry _ a).value
      rw [← hblocks, h.blocks_eq, h.free_eq]
      show List.replicate ((c.blocks.grow c.maxElements).capacity.toNat
        - c.blocks.capacity.toNat) default ++ _ = _
      rw [hcapacity, Nat.add_sub_cancel_left]
      exact hadded.values_eq.symm
    · intro key a
      show (Cache.addElements _ _ c).table key = some a ↔ _
      rw [hadded.table_eq, h.table]
      constructor
      · rintro ⟨ha, hkey⟩
        exact ⟨ha, (congrArg LruElement.key (hadded.entry_eq a ha)).trans hkey⟩
      · rintro ⟨ha, hkey⟩
        exact ⟨ha, (congrArg LruElement.key (hadded.entry_eq a ha)).symm.trans hkey⟩
    · show m.maxElements = (Cache.addElements _ _ c).maxElements.toNat
      rw [hadded.max_eq]
      exact h.max_eq
  cases qs' with
  | nil =>
    have hvalues := congrArg List.length hadded.values_eq
    rw [List.map_nil, List.length_append, List.length_replicate] at hvalues
    have hpos : 0 < c.blocks.next.toNat := hpos
    rw [List.length_nil] at hvalues
    omega
  | cons e qs => exact ⟨e, qs, hrep⟩

/-- **`NextFreeElement`**: both caches find an element, or none. -/
theorem nextFreeElement_cases [Inhabited K] [Inhabited V] (h : Rep c m ps qs) (hs : Sound m)
    (hmax : m.maxElements ≤ 2 ^ 63) :
    (∃ m' e c' qs', LruCache.nextFreeElement m = some ((c'.entry e).value, m') ∧
      c.nextFreeElement = some (some e, c') ∧ Rep c' m' ps qs' ∧ Loose c' ps qs' e ∧
      e < c'.blocks.capacity.toNat) ∨
    qs = [] ∧ LruCache.nextFreeElement m = none ∧ c.nextFreeElement = some (none, c) ∧
      ¬ (c.blocks.count < 10 ∧ c.blocks.capacity < c.maxElements) := by
  cases qs with
  | cons e qs =>
    obtain ⟨c', m', hpop, hpop', hrep, hloose, hlt⟩ := exists_pop h
    refine Or.inl ⟨m', e, c', qs, ?_, ?_, hrep, hloose, hlt⟩
    · rw [LruCache.nextFreeElement, hpop']
    · rw [Cache.nextFreeElement, hpop, Option.bind_some]
  | nil =>
    have hpop : c.popFreeList = some (none, c) := by
      rw [Cache.popFreeList, show c.freeList = none from h.shape.chained]
    have hpop' : LruCache.popFreeList m = none := by
      rw [LruCache.popFreeList, h.free_eq]
      rfl
    have hnext : c.nextFreeElement = c.addBlock.popFreeList := by
      rw [Cache.nextFreeElement, hpop, Option.bind_some]
    have hnext' : LruCache.nextFreeElement m = LruCache.popFreeList (LruCache.addBlock m) := by
      rw [LruCache.nextFreeElement, hpop']
    by_cases hgrow : c.blocks.count < 10 ∧ c.blocks.capacity < c.maxElements
    · obtain ⟨e, qs, hrep⟩ := exists_addBlock h hs hmax hgrow
      obtain ⟨c', m', hpop, hpop', hrep', hloose, hlt⟩ := exists_pop hrep
      exact Or.inl ⟨m', e, c', qs, hnext'.trans hpop', hnext.trans hpop, hrep', hloose, hlt⟩
    · refine Or.inr ⟨rfl, ?_, ?_, hgrow⟩
      · have hsame : Blocks.grow m.maxElements m.blocks = m.blocks := by
          rw [Blocks.grow, if_neg]
          rw [h.blocks_eq, h.max_eq]
          exact hgrow
        rw [hnext', LruCache.popFreeList, LruCache.addBlock]
        dsimp only
        rw [hsame, Nat.sub_self, List.replicate_zero, List.nil_append, h.free_eq]
        rfl
      · rw [hnext, Cache.addBlock, if_neg hgrow]
        exact hpop

/-! ## Keys and values -/

namespace Cache

theorem next_modify (c : Cache K V) (a : Nat) {f : Element K V → Element K V}
    (hf : ∀ x, (f x).next = x.next) : (c.modify a f).next = c.next := by
  funext b
  rcases eq_or_ne b a with rfl | hb
  · rw [next, heap_modify_self, hf, next]
  · rw [next, heap_modify_of_ne c hb, next]

theorem prev_modify (c : Cache K V) (a : Nat) {f : Element K V → Element K V}
    (hf : ∀ x, (f x).prev = x.prev) : (c.modify a f).prev = c.prev := by
  funext b
  rcases eq_or_ne b a with rfl | hb
  · rw [prev, heap_modify_self, hf, prev]
  · rw [prev, heap_modify_of_ne c hb, prev]

theorem entry_modify_of_ne (c : Cache K V) {a b : Nat} (h : b ≠ a)
    (f : Element K V → Element K V) : (c.modify a f).entry b = c.entry b := by
  rw [entry, heap_modify_of_ne c h, entry]

end Cache

theorem Shape.modify (h : Shape c ps qs) (a : Nat) {f : Element K V → Element K V}
    (hnext : ∀ x, (f x).next = x.next) (hprev : ∀ x, (f x).prev = x.prev) :
    Shape (c.modify a f) ps qs := by
  refine ⟨h.nodup, ?_, h.head_eq, h.tail_eq, ?_, ?_⟩
  · rw [c.next_modify a hnext, c.prev_modify a hprev]
    exact h.linked
  · rw [c.next_modify a hnext]
    exact h.chained
  · rw [c.prev_modify a hprev]
    exact h.prev_free

section

variable [DecidableEq K] {key : K}

/-- **A STORE TO A VALUE** of an element that the table gives. -/
theorem Rep.modifyValue (h : Rep c m ps qs) (he : c.table key = some e) (write : V → V) :
    Rep (c.modify e fun element => { element with value := write element.value })
      (LruCache.modifyValue m key write) ps qs := by
  obtain ⟨hmem, hkey⟩ := (h.table key e).mp he
  have hfree : ∀ a ∈ qs, a ≠ e := fun a ha hae =>
    (List.nodup_append.mp h.shape.nodup).2.2 e hmem a ha hae.symm
  have hkeys : ∀ a, (Cache.entry (c.modify e fun element =>
      { element with value := write element.value }) a).key = (c.entry a).key := by
    intro a
    rcases eq_or_ne a e with rfl | ha
    · rw [Cache.entry, c.heap_modify_self]
      rfl
    · rw [c.entry_modify_of_ne ha]
  refine ⟨h.shape.modify e (fun _ => rfl) (fun _ => rfl), h.lt, ?_, ?_, ?_, h.blocks_eq,
    h.max_eq⟩
  · show m.lru.map _ = _
    rw [h.lru_eq, List.map_map]
    refine List.map_congr_left fun a ha => ?_
    show (if (c.entry a).key = key then _ else _) = _
    rcases eq_or_ne a e with rfl | hae
    · rw [if_pos hkey, Cache.entry, Cache.entry, c.heap_modify_self]
    · rw [if_neg, c.entry_modify_of_ne hae]
      intro hkey'
      have := (h.table key a).mpr ⟨ha, hkey'⟩
      rw [he] at this
      exact hae (Option.some.inj this).symm
  · rw [show (LruCache.modifyValue m key write).freeList = m.freeList from rfl, h.free_eq]
    refine List.map_congr_left fun a ha => ?_
    rw [c.entry_modify_of_ne (hfree a ha)]
  · intro key' a
    rw [hkeys]
    exact h.table key' a

/-- **A NEW ELEMENT** is placed at the head, with the value it had. -/
theorem Rep.place (h : Rep c m ps qs) (he : Loose c ps qs e) (hlt : e < c.blocks.capacity.toNat)
    (hkey : key ∉ m.lru.map LruElement.key) :
    Rep (c.place key e) (LruCache.pushLruHead m { key, value := (c.entry e).value })
      (e :: ps) qs := by
  have hne : ∀ a ∈ ps ++ qs, a ≠ e := fun a ha hae => he.notMem (hae ▸ ha)
  have hshape := h.shape.modify e (f := fun element => { element with key }) (fun _ => rfl)
    (fun _ => rfl)
  have hloose : Loose (c.modify e fun element => { element with key }) ps qs e :=
    ⟨he.notMem,
      (congrFun (c.next_modify e (f := fun element => { element with key }) fun _ => rfl) e).trans
        he.next_eq,
      (congrFun (c.prev_modify e (f := fun element => { element with key }) fun _ => rfl) e).trans
        he.prev_eq⟩
  obtain ⟨hshape', hrelinked⟩ := shape_pushLruHead_of_loose
    (c := { c.modify e fun element => { element with key } with
      table := Function.update c.table key (some e) })
    ⟨hshape.nodup, hshape.linked, hshape.head_eq, hshape.tail_eq, hshape.chained,
      hshape.prev_free⟩ ⟨hloose.notMem, hloose.next_eq, hloose.prev_eq⟩
  have hself : Cache.entry (c.place key e) e = { key, value := (c.entry e).value } := by
    refine (congrFun hrelinked.entry_eq e).trans ?_
    show Cache.entry (c.modify e fun element => { element with key }) e = _
    rw [Cache.entry, c.heap_modify_self]
    rfl
  have hother : ∀ a ∈ ps ++ qs, Cache.entry (c.place key e) a = c.entry a := by
    intro a ha
    refine (congrFun hrelinked.entry_eq a).trans ?_
    exact c.entry_modify_of_ne (hne a ha) fun element => { element with key }
  have htable : (c.place key e).table = Function.update c.table key (some e) :=
    hrelinked.table_eq
  have hblocks : (c.place key e).blocks = c.blocks := hrelinked.blocks_eq
  refine ⟨hshape', ?_, ?_, ?_, ?_, ?_, ?_⟩
  · intro a ha
    rw [hblocks]
    rcases List.mem_cons.mp ha with rfl | ha
    · exact hlt
    · exact h.lt a ha
  · show _ :: m.lru = _
    rw [List.map_cons, hself, h.lru_eq]
    exact congrArg _
      (List.map_congr_left fun a ha => (hother a (List.mem_append_left _ ha)).symm)
  · show m.freeList = _
    rw [h.free_eq]
    refine List.map_congr_left fun a ha => ?_
    rw [hother a (List.mem_append_right _ ha)]
  · intro key' a
    rw [htable]
    rcases eq_or_ne key' key with rfl | hne'
    · rw [Function.update_self]
      constructor
      · intro hea
        obtain rfl := Option.some.inj hea
        exact ⟨List.mem_cons_self, congrArg LruElement.key hself⟩
      · rintro ⟨ha, hkey'⟩
        rcases List.mem_cons.mp ha with rfl | ha
        · rfl
        · rw [hother a (List.mem_append_left _ ha)] at hkey'
          refine absurd (List.mem_map.mpr ⟨c.entry a, ?_, hkey'⟩) hkey
          rw [h.lru_eq]
          exact List.mem_map_of_mem ha
    · rw [Function.update_of_ne hne', h.table]
      constructor
      · rintro ⟨ha, hkey'⟩
        rw [hother a (List.mem_append_left _ ha)]
        exact ⟨List.mem_cons_of_mem _ ha, hkey'⟩
      · rintro ⟨ha, hkey'⟩
        rcases List.mem_cons.mp ha with rfl | ha
        · rw [hself] at hkey'
          exact absurd hkey'.symm hne'
        · rw [hother a (List.mem_append_left _ ha)] at hkey'
          exact ⟨ha, hkey'⟩
  · rw [hblocks]
    exact h.blocks_eq
  · exact h.max_eq.trans (congrArg UInt64.toNat hrelinked.max_eq).symm

theorem modifyValue_pushLruHead {old value : V} (hkey : key ∉ m.lru.map LruElement.key) :
    LruCache.modifyValue (LruCache.pushLruHead m { key, value := old }) key (fun _ => value)
      = LruCache.pushLruHead m { key, value } := by
  rw [LruCache.modifyValue, LruCache.pushLruHead, LruCache.pushLruHead]
  dsimp only
  rw [List.map_cons, if_pos rfl]
  congr 2
  refine (List.map_congr_left fun x hx => if_neg ?_).trans (List.map_id _)
  exact fun h => hkey (h ▸ List.mem_map_of_mem hx)

/-! ## The operations -/

omit [DecidableEq K] in
theorem represents_ofMax [Inhabited K] [Inhabited V] {fuel : Nat} {max : UInt64}
    (h : Cache.ofMax fuel max = some c)
    (hnext : c.blocks.next.toNat = (Blocks.start max.toNat).next) :
    Represents c (LruCache.ofMax max.toNat) := by
  obtain ⟨next, -, rfl⟩ := Option.map_eq_some_iff.mp h
  refine ⟨sound_ofMax _, [], [], ⟨List.nodup_nil, trivial, rfl, rfl, rfl, ?_⟩, ?_, rfl, rfl, ?_,
    ?_, rfl⟩
  · rintro a ⟨⟩
  · rintro a ⟨⟩
  · intro key a
    constructor
    · intro hnone
      cases hnone
    · rintro ⟨⟨⟩, -⟩
  · show Blocks.start max.toNat = ⟨0, 0, next.toNat⟩
    rw [show next.toNat = (Blocks.start max.toNat).next from hnext]
    rfl

theorem exists_concat {A : Type} {l : List A} (h : l ≠ []) :
    ∃ l' a, l = l' ++ [a] ∧ l.getLast? = some a := by
  rcases List.eq_nil_or_concat l with rfl | ⟨l', a, rfl⟩
  · exact absurd rfl h
  · exact ⟨l', a, List.concat_eq_append, by rw [List.concat_eq_append, List.getLast?_append]; rfl⟩

/-- The element that is placed, and the value that is written to it. -/
theorem exists_placed (h : Rep c m ps qs) (he : Loose c ps qs e) (hlt : e < c.blocks.capacity.toNat)
    (hkey : key ∉ m.lru.map LruElement.key) (value : V) :
    Rep ((c.place key e).modify e fun element => { element with value })
      (LruCache.pushLruHead m { key, value }) (e :: ps) qs := by
  have hplace := h.place he hlt hkey
  have htable : (c.place key e).table key = some e :=
    (hplace.table key e).mpr ⟨List.mem_cons_self, by
      have hlru := hplace.lru_eq
      rw [List.map_cons] at hlru
      exact congrArg LruElement.key (List.cons.inj hlru).1.symm⟩
  have hmodify := hplace.modifyValue htable fun _ => value
  rw [modifyValue_pushLruHead hkey] at hmodify
  exact hmodify

/-- What `Insert` leaves of the list: the last element goes only where the key is new and the
    blocks hold no more. -/
def kept (m : LruCache K V) (key : K) : List (LruElement K V) :=
  if (LruCache.lookupInternal m key).isSome then LruCache.removeFromLru key m.lru
  else if m.lru.length < Blocks.total m.maxElements then m.lru
  else m.lru.dropLast

/-- **`Insert`** does what it does with lists. -/
theorem represents_insert [Inhabited K] [Inhabited V] (h : Represents c m)
    (hpos : 0 < m.maxElements)
    (hmax : m.maxElements ≤ 2 ^ 63) (key : K) (value : V) :
    ∃ c' m', c.insert key value = some c' ∧ LruCache.insert m key (fun _ => value) = some m' ∧
      m'.maxElements = m.maxElements ∧ m'.lru = { key, value } :: kept m key ∧
      Represents c' m' := by
  obtain ⟨hs, ps, qs, hrep⟩ := h
  rw [kept]
  have hlookup := hrep.lookupInternal key
  cases hfound : c.lookupInternal key with
  | some e =>
    rw [hfound, Option.map_some] at hlookup
    obtain ⟨hmem, rfl⟩ := (hrep.table key e).mp hfound
    obtain ⟨l₁, l₂, rfl⟩ := List.mem_iff_append.mp hmem
    obtain ⟨c₁, hevict, hrep₁⟩ := exists_evict hrep hs
    have hs₁ := hs.evict (lookupInternal_eq_some hlookup).1
    have hkey : (c.entry e).key ∉ (LruCache.evict m (c.entry e)).lru.map LruElement.key :=
      notMem_removeFromLru hs.nodup
    rcases nextFreeElement_cases hrep₁ hs₁ hmax with
      ⟨m₂, e₂, c₂, qs₂, hnext, hnext', hrep₂, hloose, hlt⟩ | ⟨hnil, -⟩
    · have htaken := taken_of_nextFreeElement hs₁ hnext
      refine ⟨_, LruCache.pushLruHead m₂ { key := (c.entry e).key, value }, ?_, ?_,
        htaken.max_eq, ?_, htaken.sound_pushLruHead hs₁.nodup hkey value, _, _,
        exists_placed hrep₂ hloose hlt (by rw [htaken.lru_eq]; exact hkey) value⟩
      · rw [Cache.insert, Cache.insertKey, hfound]
        dsimp only
        rw [hevict, Option.bind_some, hnext']
        rfl
      · rw [LruCache.insert, hlookup]
        dsimp only
        rw [hnext]
      · rw [hlookup, if_pos Option.isSome_some]
        exact congrArg _ htaken.lru_eq
    · cases hnil
  | none =>
    rw [hfound, Option.map_none] at hlookup
    have hkey := lookupInternal_eq_none.mp hlookup
    rcases nextFreeElement_cases hrep hs hmax with
      ⟨m₂, e₂, c₂, qs₂, hnext, hnext', hrep₂, hloose, hlt⟩ | ⟨rfl, hnext, hnext', hgrow⟩
    · have htaken := taken_of_nextFreeElement hs hnext
      refine ⟨_, LruCache.pushLruHead m₂ { key, value }, ?_, ?_, htaken.max_eq, ?_,
        htaken.sound_pushLruHead hs.nodup hkey value, _, _,
        exists_placed hrep₂ hloose hlt (by rw [htaken.lru_eq]; exact hkey) value⟩
      · rw [Cache.insert, Cache.insertKey, hfound]
        dsimp only
        rw [Option.bind_some, hnext']
        rfl
      · rw [LruCache.insert, hlookup]
        dsimp only
        rw [hnext]
      · have hroom : m.lru.length < Blocks.total m.maxElements := by
          obtain ⟨n, hn⟩ := htaken.grown
          have hroom := htaken.room
          have hle := Blocks.capacity_le_total m.maxElements n
          rw [hn, htaken.max_eq, htaken.lru_eq] at hroom
          omega
        rw [hlookup, if_neg (by rw [Option.isSome_none]; exact Bool.false_ne_true), if_pos hroom]
        exact congrArg _ htaken.lru_eq
    · -- the last element is replaced
      have hfull : ¬ m.lru.length < Blocks.total m.maxElements := by
        obtain ⟨n, hn⟩ := hs.grown
        have hroom := hs.room
        have htotal := @Blocks.capacity_eq_total m.maxElements n (by
          rw [← hn, hrep.blocks_eq, hrep.max_eq]
          exact hgrow)
        rw [hrep.free_eq, hn, htotal] at hroom
        exact fun hlt => Nat.lt_irrefl _ (hroom ▸ hlt)
      have hne : ps ≠ [] := by
        rintro rfl
        obtain ⟨n, hn⟩ := hs.grown
        have hcapacity : 0 < (Blocks.after m.maxElements n).capacity := by
          refine Blocks.capacity_pos hpos ?_
          rw [← hn, hrep.blocks_eq, hrep.max_eq]
          exact hgrow
        have hroom := hs.room
        rw [hrep.lru_eq, hrep.free_eq, hn] at hroom
        have hzero : 0 = (Blocks.after m.maxElements n).capacity := hroom
        omega
      obtain ⟨l, tail, rfl, hlast⟩ := exists_concat hne
      have htail : c.lruTail = some tail := hrep.shape.tail_eq.trans hlast
      have hlast' : m.lru.getLast? = some (c.entry tail) := by
        rw [hrep.lru_eq, List.getLast?_map, hlast, Option.map_some]
      obtain ⟨c₁, hevict, hrep₁⟩ :=
        exists_evict (show Rep c m (l ++ tail :: []) _ from hrep) hs
      have hs₁ := hs.evict (List.mem_of_getLast? hlast')
      have hkey₁ : key ∉ (LruCache.evict m (c.entry tail)).lru.map LruElement.key := fun hmem =>
        hkey ((List.eraseP_sublist.map _).subset hmem)
      rcases nextFreeElement_cases hrep₁ hs₁ hmax with
        ⟨m₂, e₂, c₂, qs₂, hnext₂, hnext₂', hrep₂, hloose, hlt⟩ | ⟨hnil, -⟩
      · have htaken := taken_of_nextFreeElement hs₁ hnext₂
        refine ⟨_, LruCache.pushLruHead m₂ { key, value }, ?_, ?_, htaken.max_eq, ?_,
          htaken.sound_pushLruHead hs₁.nodup hkey₁ value, _, _,
          exists_placed hrep₂ hloose hlt (by rw [htaken.lru_eq]; exact hkey₁) value⟩
        · rw [Cache.insert, Cache.insertKey, hfound]
          dsimp only
          rw [Option.bind_some, hnext', Option.bind_some]
          dsimp only
          rw [htail]
          dsimp only
          rw [hevict, Option.bind_some, hnext₂']
          rfl
        · rw [LruCache.insert, hlookup]
          dsimp only
          rw [hnext]
          dsimp only
          rw [hlast']
          dsimp only
          rw [hnext₂, Option.map_some]
        · rw [hlookup, if_neg (by rw [Option.isSome_none]; exact Bool.false_ne_true),
            if_neg hfull]
          refine congrArg _ (htaken.lru_eq.trans ?_)
          exact removeFromLru_getLast hs.nodup hlast'
      · cases hnil

theorem Rep.moveToHead (h : Rep c m (l₁ ++ e :: l₂) qs) (hs : Sound m) :
    Rep (c.pushLruHead e)
      { m with lru := c.entry e :: LruCache.removeFromLru (c.entry e).key m.lru }
      (e :: (l₁ ++ l₂)) qs := by
  obtain ⟨hshape, hrelinked⟩ := shape_pushLruHead h.shape
  have hperm : ∀ a, a ∈ e :: (l₁ ++ l₂) ↔ a ∈ l₁ ++ e :: l₂ := fun a =>
    List.perm_middle.mem_iff.symm
  have hnodup := hs.nodup
  rw [h.lru_eq, List.map_append, List.map_cons] at hnodup
  refine ⟨hshape, ?_, ?_, ?_, ?_, ?_, ?_⟩
  · intro a ha
    rw [hrelinked.blocks_eq]
    refine h.lt a ?_
    rcases List.mem_append.mp ha with ha | ha
    · exact List.mem_append_left _ ((hperm a).mp ha)
    · exact List.mem_append_right _ ha
  · show c.entry e :: LruCache.removeFromLru (c.entry e).key m.lru = _
    rw [h.lru_eq, List.map_append, List.map_cons, removeFromLru_middle hnodup,
      hrelinked.entry_eq, List.map_cons, List.map_append]
  · rw [hrelinked.entry_eq]
    exact h.free_eq
  · intro key a
    rw [hrelinked.table_eq, hrelinked.entry_eq, h.table, hperm]
  · rw [hrelinked.blocks_eq]
    exact h.blocks_eq
  · rw [hrelinked.max_eq]
    exact h.max_eq

/-- **`Lookup`** and what the caller writes. -/
theorem represents_mutableLookup (h : Represents c m) (key : K) (write : V → V) :
    (∃ value m', LruCache.mutableLookup m key = some (value, m') ∧
      (c.mutableLookup key write).1 = some value ∧
      Represents (c.mutableLookup key write).2 (LruCache.modifyValue m' key write)) ∨
    LruCache.mutableLookup m key = none ∧ c.mutableLookup key write = (none, c) := by
  obtain ⟨hs, ps, qs, hrep⟩ := h
  have hlookup := hrep.lookupInternal key
  rw [LruCache.mutableLookup, Cache.mutableLookup]
  cases hfound : c.lookupInternal key with
  | none =>
    rw [hfound, Option.map_none] at hlookup
    rw [hlookup]
    exact Or.inr ⟨rfl, rfl⟩
  | some e =>
    rw [hfound, Option.map_some] at hlookup
    obtain ⟨hmem, hkey⟩ := (hrep.table key e).mp hfound
    obtain ⟨l₁, l₂, rfl⟩ := List.mem_iff_append.mp hmem
    have hmoved := hrep.moveToHead hs
    have hrelinked := (shape_pushLruHead hrep.shape).2
    have htable : (c.pushLruHead e).table key = some e := by
      rw [hrelinked.table_eq]
      exact hfound
    have hmap : LruCache.mutableLookup m key = some ((c.entry e).value,
        { m with lru := c.entry e :: LruCache.removeFromLru (c.entry e).key m.lru }) := by
      rw [LruCache.mutableLookup, hlookup, Option.map_some]
    refine Or.inl ⟨_, _, hmap, ?_, (mutableLookup_spec hs hmap).1.modifyValue key write, _, _,
      hmoved.modifyValue htable write⟩
    exact congrArg (fun entry => some (LruElement.value entry)) (congrFun hrelinked.entry_eq e)

/-- **`LookupWithoutInsert`** and what the caller writes. -/
theorem represents_mutableLookupWithoutInsert (h : Represents c m) (key : K) (write : V → V) :
    (c.mutableLookupWithoutInsert key write).1
        = (LruCache.lookupInternal m key).map LruElement.value ∧
      Represents (c.mutableLookupWithoutInsert key write).2
        (LruCache.modifyValue m key write) := by
  obtain ⟨hs, ps, qs, hrep⟩ := h
  rw [hrep.lookupInternal, Cache.mutableLookupWithoutInsert]
  cases hfound : c.lookupInternal key with
  | none =>
    refine ⟨rfl, hs.modifyValue key write, ps, qs, ?_⟩
    have hkey : ∀ x ∈ m.lru, x.key ≠ key := by
      intro x hx hxkey
      rw [hrep.lru_eq] at hx
      obtain ⟨a, ha, rfl⟩ := List.mem_map.mp hx
      have htable : c.table key = some a := (hrep.table key a).mpr ⟨ha, hxkey⟩
      rw [show c.table key = none from hfound] at htable
      cases htable
    have hsame : LruCache.modifyValue m key write = m := by
      rw [LruCache.modifyValue, List.map_congr_left fun x hx => if_neg (hkey x hx)]
      rw [List.map_id']
    rw [hsame]
    exact hrep
  | some e =>
    exact ⟨rfl, hs.modifyValue key write, ps, qs, hrep.modifyValue hfound write⟩

/-- **`Erase`**. -/
theorem represents_erase (h : Represents c m) (key : K) :
    ∃ c', c.erase key = some ((LruCache.lookupInternal m key).isSome, c') ∧
      Represents c' (LruCache.erase m key) := by
  obtain ⟨hs, ps, qs, hrep⟩ := h
  have hlookup := hrep.lookupInternal key
  rw [Cache.erase, LruCache.erase]
  cases hfound : c.lookupInternal key with
  | none =>
    rw [hfound, Option.map_none] at hlookup
    rw [hlookup]
    exact ⟨c, rfl, hs, ps, qs, hrep⟩
  | some e =>
    rw [hfound, Option.map_some] at hlookup
    obtain ⟨hmem, rfl⟩ := (hrep.table key e).mp hfound
    obtain ⟨l₁, l₂, rfl⟩ := List.mem_iff_append.mp hmem
    obtain ⟨c', hevict, hrep'⟩ := exists_evict hrep hs
    rw [hlookup]
    refine ⟨c', ?_, hs.evict (lookupInternal_eq_some hlookup).1, _, _, hrep'⟩
    dsimp only
    rw [hevict]
    rfl

end

theorem length_le_of_lt {l : List Nat} {n : Nat} (hnodup : l.Nodup) (h : ∀ a ∈ l, a < n) :
    l.length ≤ n := by
  have hsub : l ⊆ List.range n := fun a ha => List.mem_range.mpr (h a ha)
  have := (List.subperm_of_subset hnodup hsub).length_le
  rwa [List.length_range] at this

theorem Rep.length_le (h : Rep c m ps qs) : ps.length ≤ c.blocks.capacity.toNat :=
  length_le_of_lt (List.nodup_append.mp h.shape.nodup).1 fun a ha =>
    h.lt a (List.mem_append_left _ ha)

/-- **`Clear`**. -/
theorem represents_clear (h : Represents c m) :
    ∃ c', c.clear = some c' ∧ Represents c' (LruCache.clear m) := by
  obtain ⟨hs, ps, qs, hrep⟩ := h
  have hchained : Chained c.next c.lruHead ps := by
    rw [hrep.shape.head_eq]
    exact hrep.shape.linked.chained
  obtain ⟨c', hclear, hfree, hprev, hrelinked⟩ := exists_clearFrom
    (c := { c with table := fun _ => none }) hrep.shape.nodup hchained hrep.shape.chained
    hrep.shape.prev_free hrep.length_le
  have hperm : (ps.reverse ++ qs).Perm (ps ++ qs) := (List.reverse_perm ps).append_right qs
  refine ⟨{ c' with lruHead := none, lruTail := none }, by rw [Cache.clear, hclear]; rfl,
    hs.clear, [], ps.reverse ++ qs, ⟨hperm.nodup_iff.mpr hrep.shape.nodup, trivial, rfl, rfl,
      hfree, hprev⟩, ?_, rfl, ?_, ?_, ?_, ?_⟩
  · intro a ha
    show a < c'.blocks.capacity.toNat
    rw [hrelinked.blocks_eq]
    exact hrep.lt a (hperm.mem_iff.mp ha)
  · show (m.lru.map LruElement.value).reverse ++ m.freeList
      = (ps.reverse ++ qs).map fun a => (c'.entry a).value
    rw [hrelinked.entry_eq, hrep.lru_eq, hrep.free_eq, List.map_map, List.map_append,
      List.map_reverse]
    rfl
  · intro key a
    show c'.table key = some a ↔ _
    rw [hrelinked.table_eq]
    constructor
    · intro hnone
      cases hnone
    · rintro ⟨⟨⟩, -⟩
  · show m.blocks = c'.blocks.toBlocks
    rw [hrelinked.blocks_eq]
    exact hrep.blocks_eq
  · show m.maxElements = c'.maxElements.toNat
    rw [hrelinked.max_eq]
    exact hrep.max_eq

/-- **THE ITERATOR** visits the list. -/
theorem elements_eq (h : Represents c m) :
    c.elements = m.lru := by
  obtain ⟨hs, ps, qs, hrep⟩ := h
  have hchained : Chained c.next c.lruHead ps := by
    rw [hrep.shape.head_eq]
    exact hrep.shape.linked.chained
  rw [Cache.elements, elementsFrom_eq hchained hrep.length_le, hrep.lru_eq]

end LruPointers
