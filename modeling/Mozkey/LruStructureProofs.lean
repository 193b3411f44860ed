import Mozkey.LruExactProofs

/-! # LruCache — the structure behind every sequence of calls

    What a cache promises about its pointers: the two lists share out the allocated elements,
    the one is linked both ways between the head and the tail, the other ends in a null
    pointer, and the table has the keys of the first. -/

namespace LruPointers

open LinkedList LruCache

variable {K V : Type} [DecidableEq K] [Inhabited K] [Inhabited V]

/-! ## The structure -/

/-- The structure of a cache, with the elements of its LRU list and of its free list. -/
structure Structured (c : Cache K V) (lru free : List Nat) : Prop where
  /-- An allocated element is on one of the lists, and on one only, once. -/
  allocated : ∀ a, a ∈ lru ++ free ↔ a < c.blocks.capacity.toNat
  nodup : (lru ++ free).Nodup
  /-- The LRU list runs from its head to its tail by `next`, and back by `prev`. -/
  linked : Linked c.next c.prev none lru none
  head : c.lruHead = lru.head?
  tail : c.lruTail = lru.getLast?
  /-- The keys of the LRU list are distinct, and are those of the table. -/
  keys : (lru.map (fun a => (c.heap a).key)).Nodup
  table : ∀ key a, c.table key = some a ↔ a ∈ lru ∧ (c.heap a).key = key
  /-- The free list ends in a null pointer, and its head has no element before it. -/
  chained : Chained c.next c.freeList free
  prevFree : ∀ a, c.freeList = some a → c.prev a = none

/-- A cache that stands for lists has the structure. -/
theorem structured_of_rep {c : Cache K V} {m : LruCache K V} {ps qs : List Nat} (hs : Sound m)
    (h : Rep c m ps qs) : Structured c ps qs where
  allocated a := by
    have hlength : (ps ++ qs).length = c.blocks.capacity.toNat := by
      have hroom := hs.room
      rw [h.lru_eq, h.free_eq, h.blocks_eq, List.length_map, List.length_map] at hroom
      rw [List.length_append]
      exact hroom
    have hsub : ps ++ qs ⊆ List.range c.blocks.capacity.toNat :=
      fun b hb => List.mem_range.mpr (h.lt b hb)
    have hperm : (ps ++ qs).Perm (List.range c.blocks.capacity.toNat) :=
      (List.subperm_of_subset h.shape.nodup hsub).perm_of_length_le
        (by rw [List.length_range, hlength])
    rw [hperm.mem_iff, List.mem_range]
  nodup := h.shape.nodup
  linked := h.shape.linked
  head := h.shape.head_eq
  tail := h.shape.tail_eq
  keys := h.keys_nodup hs
  table := h.table
  chained := h.shape.chained
  prevFree a ha := by
    cases qs with
    | nil =>
      have hnone : c.freeList = none := h.shape.chained
      rw [hnone] at ha
      exact absurd ha.symm (Option.some_ne_none a)
    | cons b qs =>
      have hsome : c.freeList = some b := h.shape.chained.1
      rw [hsome] at ha
      obtain rfl := Option.some.inj ha
      exact h.shape.prev_free b List.mem_cons_self

/-! ## The calls -/

/-- The calls of a cache, also the one that leaves the value of the element to its caller. -/
inductive Call (K V : Type) where
  | op (op : Op K V)
  | insertKey (key : K)

/-- A call; `none` where a check fails. -/
def Cache.call (c : Cache K V) : Call K V → Option (Cache K V)
  | .op op => (c.step op).map Prod.snd
  | .insertKey key => (c.insertKey key).map Prod.snd

/-- The calls of a cache, one after the other. -/
def Cache.calls (c : Cache K V) (calls : List (Call K V)) : Option (Cache K V) :=
  calls.foldlM Cache.call c

/-- **`Insert(key)`** is an insertion of the value that the element has. -/
theorem represents_insertKey {c : Cache K V} {m : LruCache K V} (h : Represents c m)
    (hpos : 0 < m.maxElements) (hmax : m.maxElements ≤ 2 ^ 63) (key : K) :
    ∃ e c' m', c.insertKey key = some (e, c') ∧ m'.maxElements = m.maxElements ∧
      Represents c' m' := by
  obtain ⟨c₁, -, hinsert, -⟩ := represents_insert h hpos hmax key default
  obtain ⟨⟨e, c'⟩, hkey, -⟩ := Option.map_eq_some_iff.mp hinsert
  obtain ⟨c₂, m', hinsert', -, hmax', -, hrep⟩ :=
    represents_insert h hpos hmax key (c'.heap e).value
  rw [Cache.insert, hkey, Option.map_some] at hinsert'
  obtain rfl := Option.some.inj hinsert'
  -- storing the value that is there changes nothing
  have hsame : c'.modify e (fun element => { element with value := (c'.heap e).value }) = c' := by
    rw [Cache.modify]
    show ({ c' with heap := Function.update c'.heap e (c'.heap e) } : Cache K V) = c'
    rw [Function.update_eq_self]
  dsimp only at hrep
  rw [hsame] at hrep
  exact ⟨e, c', m', hkey, hmax', hrep⟩

/-- **ONE CALL.** -/
theorem represents_call {c : Cache K V} {m : LruCache K V} (h : Represents c m)
    (hpos : 0 < m.maxElements) (hmax : m.maxElements ≤ 2 ^ 63) (call : Call K V) :
    ∃ c' m', c.call call = some c' ∧ m'.maxElements = m.maxElements ∧ Represents c' m' := by
  cases call with
  | op op =>
    obtain ⟨c', m', hstep, hmax', hrep, -⟩ := step_eq h hpos hmax op
    exact ⟨c', m', by rw [Cache.call, hstep]; rfl, hmax', hrep⟩
  | insertKey key =>
    obtain ⟨e, c', m', hkey, hmax', hrep⟩ := represents_insertKey h hpos hmax key
    exact ⟨c', m', by rw [Cache.call, hkey]; rfl, hmax', hrep⟩

theorem represents_calls : ∀ (calls : List (Call K V)) {c : Cache K V} {m : LruCache K V},
    Represents c m → 0 < m.maxElements → m.maxElements ≤ 2 ^ 63 →
      ∃ c' m', c.calls calls = some c' ∧ Represents c' m' := by
  intro calls
  induction calls with
  | nil =>
    intro c m h _ _
    exact ⟨c, m, rfl, h⟩
  | cons call calls ih =>
    intro c m h hpos hmax
    obtain ⟨c₁, m₁, hcall, hmax₁, hrep₁⟩ := represents_call h hpos hmax call
    obtain ⟨c', m', hcalls, hrep'⟩ := ih hrep₁ (by omega) (by omega)
    refine ⟨c', m', ?_, hrep'⟩
    rw [Cache.calls, List.foldlM_cons, hcall]
    exact hcalls

/-- **EVERY SEQUENCE OF CALLS** on a new cache: no check fails, and the cache behind it has
    its structure. -/
theorem structured_run (max : UInt64) (fuel : Nat) (c₀ : Cache K V) (calls : List (Call K V))
    (hmax : 1 ≤ max) (h : Cache.ofMax fuel max = some c₀) :
    ∃ c, c₀.calls calls = some c ∧ ∃ lru free, Structured c lru free := by
  have hle : max.toNat ≤ 2 ^ 63 := by
    by_contra hlt
    rw [ofMax_eq_none (Nat.lt_of_not_le hlt)] at h
    exact absurd h.symm (Option.some_ne_none c₀)
  have hpos : 0 < (LruCache.ofMax max.toNat : LruCache K V).maxElements :=
    UInt64.le_iff_toNat_le.mp hmax
  obtain ⟨c, m, hcalls, hs, ps, qs, hrep⟩ :=
    represents_calls calls (represents_of_ofMax h hle) hpos hle
  exact ⟨c, hcalls, ps, qs, structured_of_rep hs hrep⟩

/-- A cache of one element: an element is replaced, and the cache is cleared and used again. -/
theorem structured_run_one :
    ∃ c₀ : Cache Nat Nat, Cache.ofMax 0 1 = some c₀ ∧ ∃ c,
      c₀.calls [.op (.insert 1 10), .insertKey 2, .op .clear, .op (.insert 1 20)] = some c ∧
        ∃ lru free, Structured c lru free :=
  ⟨_, rfl, structured_run 1 0 _ _ (by decide) rfl⟩

end LruPointers
