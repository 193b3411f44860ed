import Mathlib

/-! # LruCache — the cache in memory

    `storage::LruCache` keeps its elements on a list, the last used one first, and takes
    new elements from a free list that blocks of growing size feed.  An element that is
    evicted goes to the free list with its value still in it. -/

/-! ## The blocks -/

namespace LruCache

/-- The number of blocks a cache may allocate. -/
def maxBlocks : Nat := 10

/-- `block_count_`, `block_capacity_` and `next_block_size_`. -/
structure Blocks where
  count : Nat
  capacity : Nat
  next : Nat
  deriving DecidableEq

namespace Blocks

/-- The loop of the constructor; it takes fewer rounds than the fuel. -/
def doubleUntil (max : Nat) : Nat → Nat → Nat
  | 0, next => next
  | fuel + 1, next => if next <<< 10 < max then doubleUntil max fuel (next <<< 1) else next

/-- The blocks of a new cache. -/
def start (max : Nat) : Blocks where
  count := 0
  capacity := 0
  next := if max ≤ 128 then max else doubleUntil max max 64

/-- What `AddBlock` does to the counters. -/
def grow (max : Nat) (b : Blocks) : Blocks :=
  if b.count < maxBlocks ∧ b.capacity < max then
    let capacity := b.capacity + b.next
    let count := b.count + 1
    if count < maxBlocks then
      let next := min (b.next <<< 1) ((max - capacity) / (maxBlocks - count))
      { count := count
        capacity := capacity
        next := if capacity + next > max then max - capacity else next }
    else { count := count, capacity := capacity, next := b.next }
  else b

/-- The blocks behind `n` calls of `AddBlock`. -/
def after (max n : Nat) : Blocks := (grow max)^[n] (start max)

theorem after_succ (max n : Nat) : after max (n + 1) = grow max (after max n) :=
  Function.iterate_succ_apply' _ _ _

theorem capacity_le_grow (max : Nat) (b : Blocks) : b.capacity ≤ (grow max b).capacity := by
  rw [grow]
  by_cases hgrow : b.count < maxBlocks ∧ b.capacity < max
  · rw [if_pos hgrow]
    by_cases hlast : b.count + 1 < maxBlocks
    · rw [if_pos hlast]
      exact Nat.le_add_right _ _
    · rw [if_neg hlast]
      exact Nat.le_add_right _ _
  · rw [if_neg hgrow]

variable {max : Nat}

theorem doubleUntil_le : ∀ {fuel next : Nat}, next ≤ max →
    doubleUntil max fuel next ≤ max := by
  intro fuel
  induction fuel with
  | zero => intro next h; exact h
  | succ fuel ih =>
    intro next h
    rw [doubleUntil]
    split
    · rename_i hlt
      refine ih ?_
      rw [Nat.shiftLeft_eq] at hlt ⊢
      omega
    · exact h

theorem capacity_le_of_after (max n : Nat) :
    (after max n).capacity ≤ max ∧
      ((after max n).count < maxBlocks → (after max n).capacity + (after max n).next ≤ max) := by
  induction n with
  | zero =>
    refine ⟨Nat.zero_le _, fun _ => ?_⟩
    show 0 + (start max).next ≤ max
    rw [Nat.zero_add, start]
    show (if max ≤ 128 then max else _) ≤ max
    split
    · exact Nat.le_refl _
    · exact doubleUntil_le (by omega)
  | succ n ih =>
    rw [after_succ, grow]
    by_cases hgrow : (after max n).count < maxBlocks ∧ (after max n).capacity < max
    · rw [if_pos hgrow]
      have hle := ih.2 hgrow.1
      by_cases hcount : (after max n).count + 1 < maxBlocks
      · simp only [if_pos hcount]
        refine ⟨hle, fun _ => ?_⟩
        split <;> omega
      · simp only [if_neg hcount]
        exact ⟨hle, fun h => absurd h hcount⟩
    · rw [if_neg hgrow]
      exact ih

theorem capacity_le (max n : Nat) : (after max n).capacity ≤ max := (capacity_le_of_after max n).1

/-- A cache that is not full can allocate another element. -/
def Fills (max : Nat) : Prop :=
  ∀ n, (after max n).capacity < max → (after max n).count < maxBlocks ∧ 0 < (after max n).next

variable {n : Nat}

theorem fills_of_fixed (hfixed : grow max (after max n) = after max n)
    (h : ∀ k ≤ n, (after max k).capacity < max →
      (after max k).count < maxBlocks ∧ 0 < (after max k).next) : Fills max := by
  have hafter : ∀ k, after max (n + k) = after max n := by
    intro k
    induction k with
    | zero => rfl
    | succ k ih => rw [← Nat.add_assoc, after_succ, ih, hfixed]
  intro k
  rcases Nat.le_total k n with hk | hk
  · exact h k hk
  · obtain ⟨m, rfl⟩ := Nat.exists_eq_add_of_le hk
    rw [hafter]
    exact h n (Nat.le_refl _)

theorem fills_of_le (h : max ≤ 128) (hpos : 0 < max) : Fills max := by
  have hstart : start max = { count := 0, capacity := 0, next := max } := by
    rw [start, if_pos h]
  have hone : (after max 1).capacity = max := by
    show (grow max (start max)).capacity = max
    rw [hstart, grow, if_pos ⟨Nat.zero_lt_succ _, hpos⟩]
    show (0 + max) = max
    exact Nat.zero_add _
  refine fills_of_fixed (n := 1) ?_ ?_
  · rw [grow, if_neg (by rw [hone]; exact fun hlt => Nat.lt_irrefl _ hlt.2)]
  · intro k hk hlt
    have hk' : k = 0 ∨ k = 1 := by omega
    rcases hk' with rfl | rfl
    · show (start max).count < maxBlocks ∧ 0 < (start max).next
      rw [hstart]
      exact ⟨Nat.zero_lt_succ _, hpos⟩
    · rw [hone] at hlt
      exact absurd hlt (Nat.lt_irrefl _)

theorem fills_10000 : Fills 10000 := by
  refine fills_of_fixed (n := 10) ?_ ?_
  · decide +kernel
  · decide +kernel

/-! ## How far the blocks grow -/

/-- The constructor doubles the size of the first block until ten blocks are enough for a
    size that doubles ten times. -/
theorem doubleUntil_spec : ∀ {fuel next : Nat}, 64 ≤ next →
    (next = 64 ∨ 512 * next < max) → max ≤ next * 1024 * 2 ^ fuel →
    64 ≤ doubleUntil max fuel next ∧
      (doubleUntil max fuel next = 64 ∨ 512 * doubleUntil max fuel next < max) ∧
      max ≤ 1024 * doubleUntil max fuel next := by
  intro fuel
  induction fuel with
  | zero =>
    intro next hge hnext hmax
    rw [doubleUntil]
    exact ⟨hge, hnext, by omega⟩
  | succ fuel ih =>
    intro next hge hnext hmax
    rw [doubleUntil]
    rw [Nat.shiftLeft_eq, Nat.shiftLeft_eq]
    split
    · rw [Nat.pow_succ] at hmax
      exact ih (by omega) (by omega) (by
        calc max ≤ next * 1024 * (2 ^ fuel * 2) := hmax
          _ = next * 2 ^ 1 * 1024 * 2 ^ fuel := by ring)
    · exact ⟨hge, hnext, by omega⟩

theorem start_next (h : 128 < max) :
    64 ≤ (start max).next ∧ ((start max).next = 64 ∨ 512 * (start max).next < max) ∧
      max ≤ 1024 * (start max).next := by
  have hnext : (start max).next = doubleUntil max max 64 := by
    rw [start, if_neg (Nat.not_le.mpr h)]
  rw [hnext]
  refine doubleUntil_spec (Nat.le_refl _) (Or.inl rfl) ?_
  have := Nat.lt_two_pow_self (n := max)
  omega

theorem start_next_of_le (h : max ≤ 128) : (start max).next = max := by
  rw [start, if_pos h]

/-- A block is at most twice as large as the one before it. -/
theorem capacity_add_le (max n : Nat) :
    (after max n).capacity + (start max).next
        ≤ (start max).next * 2 ^ (after max n).count ∧
      (after max n).next ≤ (start max).next * 2 ^ (after max n).count ∧
      (after max n).count ≤ maxBlocks := by
  induction n with
  | zero =>
    refine ⟨?_, ?_, Nat.zero_le _⟩
    · show 0 + (start max).next ≤ (start max).next * 2 ^ 0
      omega
    · show (start max).next ≤ (start max).next * 2 ^ 0
      omega
  | succ n ih =>
    obtain ⟨hcapacity, hnext, hcount⟩ := ih
    rw [after_succ, grow]
    by_cases hgrow : (after max n).count < maxBlocks ∧ (after max n).capacity < max
    · have hpow : (start max).next * 2 ^ ((after max n).count + 1)
          = (start max).next * 2 ^ (after max n).count * 2 := by
        rw [Nat.pow_succ, Nat.mul_assoc]
      rw [if_pos hgrow]
      by_cases hlast : (after max n).count + 1 < maxBlocks
      · simp only [if_pos hlast]
        rw [hpow, Nat.shiftLeft_eq]
        refine ⟨by omega, ?_, hgrow.1⟩
        split <;> omega
      · simp only [if_neg hlast]
        rw [hpow]
        exact ⟨by omega, by omega, hgrow.1⟩
    · rw [if_neg hgrow]
      exact ⟨hcapacity, hnext, hcount⟩

/-- The blocks hold all elements, or their sizes have doubled so far, or what is left is
    shared out among the blocks that are left. -/
def Progress (max : Nat) (b : Blocks) : Prop :=
  b.capacity = max ∨
  (b.count ≤ maxBlocks ∧ b.capacity + (start max).next = (start max).next * 2 ^ b.count ∧
    (b.count < maxBlocks → b.next = (start max).next * 2 ^ b.count ∧
      (0 < b.count → b.next * (maxBlocks - b.count) + b.capacity ≤ max))) ∨
  (b.count < maxBlocks ∧ b.next = (max - b.capacity) / (maxBlocks - b.count) ∧ 0 < b.next)

theorem share_next {r k : Nat} (hpos : 0 < r / (k + 2)) :
    0 < (r - r / (k + 2)) / (k + 1) ∧ (r - r / (k + 2)) / (k + 1) ≤ r / (k + 2) * 2 := by
  have hle := Nat.div_mul_le_self r (k + 2)
  have hlt := Nat.lt_div_mul_add (a := r) (b := k + 2) (by omega)
  generalize r / (k + 2) = q at *
  have hsplit : q * (k + 2) = q * (k + 1) + q := Nat.mul_succ q (k + 1)
  have hone : k + 1 ≤ q * (k + 1) := Nat.le_mul_of_pos_left _ hpos
  refine ⟨Nat.div_pos (by omega) (Nat.succ_pos k), Nat.div_le_of_le_mul ?_⟩
  have htwo : (k + 1) * (q * 2) = q * (k + 1) + q * (k + 1) := by ring
  omega

theorem progress_share {count capacity next : Nat} (hcount : count < maxBlocks)
    (hnext : next = (max - capacity) / (maxBlocks - count)) (hpos : 0 < next)
    (hlt : capacity < max) : Progress max (grow max ⟨count, capacity, next⟩) := by
  rw [grow, if_pos ⟨hcount, hlt⟩]
  dsimp only
  by_cases hlast : count + 1 < maxBlocks
  · rw [if_pos hlast, Nat.shiftLeft_eq]
    obtain ⟨k, hk⟩ : ∃ k, maxBlocks - (count + 1) = k + 1 :=
      ⟨maxBlocks - (count + 1) - 1, by omega⟩
    obtain rfl : next = (max - capacity) / (k + 2) := by
      rw [hnext, show maxBlocks - count = k + 2 by omega]
    obtain ⟨hpos', hle⟩ := share_next hpos
    rw [hk, ← Nat.sub_sub, Nat.pow_one, Nat.min_eq_right hle, if_neg]
    · refine Or.inr (Or.inr ⟨hlast, ?_, hpos'⟩)
      show _ = (max - (capacity + _)) / (maxBlocks - (count + 1))
      rw [hk, ← Nat.sub_sub]
    · have := Nat.div_le_self (max - capacity - (max - capacity) / (k + 2)) (k + 1)
      have := Nat.div_le_self (max - capacity) (k + 2)
      omega
  · rw [if_neg hlast]
    refine Or.inl ?_
    show capacity + next = max
    rw [hnext, show maxBlocks - count = 1 by omega, Nat.div_one]
    omega

theorem progress_double {count capacity : Nat} (hcount : count < maxBlocks) (hlt : capacity < max)
    (hcapacity : capacity + (start max).next = (start max).next * 2 ^ count)
    (hroom : 0 < count → (start max).next * 2 ^ count * (maxBlocks - count) + capacity ≤ max) :
    Progress max (grow max ⟨count, capacity, (start max).next * 2 ^ count⟩) := by
  rw [grow, if_pos ⟨hcount, hlt⟩]
  have hdouble : (start max).next * 2 ^ (count + 1) = (start max).next * 2 ^ count * 2 := by
    rw [Nat.pow_succ, Nat.mul_assoc]
  have hstart : 128 < max ∧ 64 ≤ (start max).next ∧
      ((start max).next = 64 ∨ 512 * (start max).next < max) ∨ (start max).next = max := by
    rcases Nat.lt_or_ge 128 max with h | h
    · exact Or.inl ⟨h, (start_next h).1, (start_next h).2.1⟩
    · exact Or.inr (start_next_of_le h)
  rw [Progress]
  dsimp only
  generalize hs : (start max).next = s at *
  by_cases hlast : count + 1 < maxBlocks
  · obtain ⟨k, hk⟩ : ∃ k, maxBlocks - (count + 1) = k + 1 :=
      ⟨maxBlocks - (count + 1) - 1, by omega⟩
    rw [if_pos hlast, hk, Nat.shiftLeft_eq, Nat.pow_one]
    -- either the block is the last one, or every block that is left gets an element
    have hleft : capacity + s * 2 ^ count = max ∨ capacity + s * 2 ^ count + (k + 1) ≤ max := by
      rcases Nat.eq_zero_or_pos count with rfl | hpos
      · rw [Nat.pow_zero, Nat.mul_one] at hcapacity ⊢
        rw [maxBlocks] at hk
        omega
      · have hroom := hroom hpos
        rw [show maxBlocks - count = k + 1 + 1 by omega, Nat.mul_succ] at hroom
        have hone := Nat.le_mul_of_pos_left (k + 1) (show 0 < s * 2 ^ count by omega)
        omega
    rcases hleft with hfull | hleft
    · exact Or.inl hfull
    · have hshare : 0 < (max - (capacity + s * 2 ^ count)) / (k + 1) :=
        Nat.div_pos (by omega) (Nat.succ_pos k)
      have hmul := Nat.div_mul_le_self (max - (capacity + s * 2 ^ count)) (k + 1)
      have hself := Nat.div_le_self (max - (capacity + s * 2 ^ count)) (k + 1)
      refine Or.inr ?_
      rcases Nat.le_total (s * 2 ^ count * 2) ((max - (capacity + s * 2 ^ count)) / (k + 1))
        with hmin | hmin
      · rw [Nat.min_eq_left hmin, if_neg (by omega)]
        have hroom' := Nat.mul_le_mul_right (k + 1) hmin
        refine Or.inl ⟨hlast.le, ?_, fun _ => ⟨hdouble.symm, fun _ => ?_⟩⟩
        · dsimp only
          omega
        · dsimp only
          omega
      · rw [Nat.min_eq_right hmin, if_neg (by omega)]
        exact Or.inr ⟨hlast, rfl, hshare⟩
  · rw [if_neg hlast]
    have hcount : count + 1 = maxBlocks := by omega
    refine Or.inr (Or.inl ⟨hcount.le, ?_, fun h => absurd h hlast⟩)
    dsimp only
    omega

/-- **A NEW BLOCK** keeps on. -/
theorem progress_grow {b : Blocks} (hle : b.capacity ≤ max) (h : Progress max b) :
    Progress max (grow max b) := by
  by_cases hgrow : b.count < maxBlocks ∧ b.capacity < max
  · obtain ⟨hcount, hlt⟩ := hgrow
    rcases h with hfull | ⟨-, hcapacity, hnext⟩ | ⟨-, hnext, hpos⟩
    · omega
    · obtain ⟨hnext, hroom⟩ := hnext hcount
      obtain ⟨count, capacity, next⟩ := b
      obtain rfl : next = (start max).next * 2 ^ count := hnext
      exact progress_double hcount hlt hcapacity hroom
    · exact progress_share hcount hnext hpos hlt
  · rw [grow, if_neg hgrow]
    exact h

theorem progress_after (max n : Nat) : Progress max (after max n) := by
  induction n with
  | zero =>
    refine Or.inr (Or.inl ⟨Nat.zero_le _, ?_, fun _ => ⟨?_, fun h => absurd h (Nat.lt_irrefl 0)⟩⟩)
    · show 0 + (start max).next = (start max).next * 2 ^ 0
      omega
    · show (start max).next = (start max).next * 2 ^ 0
      omega
  | succ n ih =>
    rw [after_succ]
    exact progress_grow (capacity_le max n) ih

theorem next_pos (hlt : (after max n).capacity < max) (hcount : (after max n).count < maxBlocks) :
    0 < (after max n).next := by
  rcases progress_after max n with hfull | ⟨-, -, hnext⟩ | ⟨-, -, hpos⟩
  · omega
  · rw [(hnext hcount).1]
    refine Nat.mul_pos ?_ (Nat.two_pow_pos _)
    rcases Nat.lt_or_ge 128 max with h | h
    · have := start_next h
      omega
    · have := start_next_of_le h
      omega
  · exact hpos

theorem capacity_pos (hpos : 0 < max)
    (hgrow : ¬ ((after max n).count < maxBlocks ∧ (after max n).capacity < max)) :
    0 < (after max n).capacity := by
  have hstart : 0 < (start max).next := by
    rcases Nat.lt_or_ge 128 max with h | h
    · have := start_next h
      omega
    · rw [start_next_of_le h]
      exact hpos
  rcases progress_after max n with hfull | ⟨hcount, hcapacity, -⟩ | ⟨hcount, -⟩
  · omega
  · by_cases hlt : (after max n).capacity < max
    · have hten : (after max n).count = 10 :=
        Nat.le_antisymm hcount (Nat.le_of_not_lt fun h => hgrow ⟨h, hlt⟩)
      rw [hten] at hcapacity
      omega
    · omega
  · have : ¬ (after max n).capacity < max := fun hlt => hgrow ⟨hcount, hlt⟩
    omega

theorem next_lt (hmax : max ≤ 2 ^ 63) (hcount : (after max n).count < maxBlocks) :
    (after max n).next < 2 ^ 63 := by
  obtain ⟨-, hnext, -⟩ := capacity_add_le max n
  have hpow : 2 ^ (after max n).count ≤ 2 ^ 9 :=
    Nat.pow_le_pow_right (by decide) (Nat.le_of_lt_succ hcount)
  have hmul := Nat.mul_le_mul_left (start max).next hpow
  rcases Nat.lt_or_ge 128 max with h | h
  · have := start_next h
    omega
  · have := start_next_of_le h
    omega

/-- How far blocks of doubling size get. -/
theorem capacity_le_start (max n : Nat) : (after max n).capacity ≤ 1023 * (start max).next := by
  obtain ⟨hcapacity, -, hcount⟩ := capacity_add_le max n
  have hpow : 2 ^ (after max n).count ≤ 2 ^ 10 := Nat.pow_le_pow_right (by decide) hcount
  have := Nat.mul_le_mul_left (start max).next hpow
  omega

/-- The number of elements that the blocks of a cache hold in the end. -/
def total (max : Nat) : Nat := min max (1023 * (start max).next)

theorem capacity_le_total (max n : Nat) : (after max n).capacity ≤ total max :=
  Nat.le_min.mpr ⟨capacity_le max n, capacity_le_start max n⟩

/-- **BLOCKS THAT GROW NO MORE** hold it. -/
theorem capacity_eq_total {max n : Nat}
    (hgrow : ¬ ((after max n).count < maxBlocks ∧ (after max n).capacity < max)) :
    (after max n).capacity = total max := by
  refine Nat.le_antisymm (capacity_le_total max n) ?_
  rw [total]
  have hle := capacity_le max n
  by_cases hlt : (after max n).capacity < max
  · have hcount : ¬ (after max n).count < maxBlocks := fun h => hgrow ⟨h, hlt⟩
    rcases progress_after max n with hfull | ⟨hten, hcapacity, -⟩ | ⟨hcount', -⟩
    · omega
    · have hten : (after max n).count = 10 := Nat.le_antisymm hten (Nat.le_of_not_lt hcount)
      rw [hten] at hcapacity
      omega
    · exact absurd hcount' hcount
  · omega

end Blocks

end LruCache

/-! ## The cache -/

/-- `LruCache::Element`. -/
structure LruElement (K V : Type) where
  key : K
  value : V
  deriving DecidableEq

/-- `LruCache`: the list from its head to its tail.  The table maps the keys of the list to
    its elements. -/
structure LruCache (K V : Type) where
  maxElements : Nat
  blocks : LruCache.Blocks
  freeList : List V
  lru : List (LruElement K V)

namespace LruCache

variable {K V : Type}

section

variable [DecidableEq K] [Inhabited V]

/-- `LruCache(max_elements)`. -/
def ofMax (max : Nat) : LruCache K V where
  maxElements := max
  blocks := Blocks.start max
  freeList := []
  lru := []

/-- `Size`. -/
def size (c : LruCache K V) : Nat := c.lru.length

/-- `HasKey`. -/
def hasKey (c : LruCache K V) (key : K) : Bool := c.lru.any (fun e => e.key = key)

/-- `LookupInternal`. -/
def lookupInternal (c : LruCache K V) (key : K) : Option (LruElement K V) :=
  c.lru.find? (fun e => e.key = key)

/-- `RemoveFromLRU`. -/
def removeFromLru (key : K) (lru : List (LruElement K V)) : List (LruElement K V) :=
  lru.eraseP (fun e => e.key = key)

/-- `AddBlock`: the elements of a new block hold default values. -/
def addBlock (c : LruCache K V) : LruCache K V :=
  let blocks := Blocks.grow c.maxElements c.blocks
  { c with
    blocks := blocks
    freeList := List.replicate (blocks.capacity - c.blocks.capacity) default ++ c.freeList }

/-- `PopFreeList`: the value of the element, and what is left. -/
def popFreeList (c : LruCache K V) : Option (V × LruCache K V) :=
  match c.freeList with
  | [] => none
  | value :: rest => some (value, { c with freeList := rest })

/-- `NextFreeElement`. -/
def nextFreeElement (c : LruCache K V) : Option (V × LruCache K V) :=
  match popFreeList c with
  | some r => some r
  | none => popFreeList (addBlock c)

/-- `Evict` of an element of the list. -/
def evict (c : LruCache K V) (e : LruElement K V) : LruCache K V :=
  { c with freeList := e.value :: c.freeList, lru := removeFromLru e.key c.lru }

/-- `PushLRUHead` of an element that is not on the list. -/
def pushLruHead (c : LruCache K V) (e : LruElement K V) : LruCache K V :=
  { c with lru := e :: c.lru }

/-- `Insert(key)`, and what the caller writes over the value of the element, which is that
    of its last use; `none` where a check fails. -/
def insert (c : LruCache K V) (key : K) (write : V → V) : Option (LruCache K V) :=
  let c := match lookupInternal c key with
    | some e => evict c e
    | none => c
  match nextFreeElement c with
  | some (value, c) => some (pushLruHead c { key := key, value := write value })
  | none =>
    match c.lru.getLast? with
    | none => none
    | some tail =>
      (nextFreeElement (evict c tail)).map fun (value, c) =>
        pushLruHead c { key := key, value := write value }

/-- `MutableLookup`: the value, and the cache with its element at the head. -/
def mutableLookup (c : LruCache K V) (key : K) : Option (V × LruCache K V) :=
  (lookupInternal c key).map fun e =>
    (e.value, { c with lru := e :: removeFromLru e.key c.lru })

/-- What a caller writes through a pointer to the value of an element. -/
def modifyValue (c : LruCache K V) (key : K) (write : V → V) : LruCache K V :=
  { c with lru := c.lru.map fun e => if e.key = key then { e with value := write e.value } else e }

/-- `Erase`. -/
def erase (c : LruCache K V) (key : K) : LruCache K V :=
  match lookupInternal c key with
  | some e => evict c e
  | none => c

/-- `Clear`. -/
def clear (c : LruCache K V) : LruCache K V :=
  { c with freeList := (c.lru.map LruElement.value).reverse ++ c.freeList, lru := [] }

/-! ## What the operations keep -/

end

/-- What a cache keeps: its keys are distinct, and every element of its blocks is on one of
    the lists. -/
structure Sound (c : LruCache K V) : Prop where
  nodup : (c.lru.map LruElement.key).Nodup
  room : c.lru.length + c.freeList.length = c.blocks.capacity
  grown : ∃ n, c.blocks = Blocks.after c.maxElements n

theorem sound_ofMax (max : Nat) : Sound (ofMax max : LruCache K V) :=
  ⟨List.nodup_nil, rfl, 0, rfl⟩

variable {c : LruCache K V}

/-- **THE BOUND**: a cache holds at most `max_elements` elements. -/
theorem Sound.length_le (h : Sound c) : c.lru.length ≤ c.maxElements := by
  obtain ⟨n, hn⟩ := h.grown
  have hcap : c.blocks.capacity ≤ c.maxElements := by
    rw [hn]
    exact Blocks.capacity_le c.maxElements n
  have := h.room
  omega

variable {key : K} {e : LruElement K V}

section

variable [DecidableEq K]

theorem lookupInternal_eq_some (h : lookupInternal c key = some e) : e ∈ c.lru ∧ e.key = key :=
  ⟨List.mem_of_find?_eq_some h, by simpa using List.find?_some h⟩

theorem lookupInternal_eq_none :
    lookupInternal c key = none ↔ key ∉ c.lru.map LruElement.key := by
  rw [lookupInternal, List.find?_eq_none, List.mem_map]
  constructor
  · rintro h ⟨e, he, rfl⟩
    exact h e he (decide_eq_true rfl)
  · intro h e he hkey
    exact h ⟨e, he, of_decide_eq_true hkey⟩

theorem removeFromLru_eq_filter (key : K) {lru : List (LruElement K V)}
    (h : (lru.map LruElement.key).Nodup) :
    removeFromLru key lru = lru.filter (fun e => e.key ≠ key) := by
  induction lru with
  | nil => rfl
  | cons e lru ih =>
    rw [List.map_cons, List.nodup_cons] at h
    rw [removeFromLru]
    by_cases he : e.key = key
    · rw [List.eraseP_cons_of_pos (by simpa using he),
        List.filter_cons_of_neg (by simpa using he)]
      refine (List.filter_eq_self.mpr ?_).symm
      intro x hx
      rw [decide_eq_true_eq]
      intro hxe
      exact h.1 (List.mem_map.mpr ⟨x, hx, hxe.trans he.symm⟩)
    · rw [List.eraseP_cons_of_neg (by simpa using he),
        List.filter_cons_of_pos (by simpa using he)]
      exact congrArg _ (ih h.2)

theorem removeFromLru_of_notMem {lru : List (LruElement K V)} (h : key ∉ lru.map LruElement.key) :
    removeFromLru key lru = lru := by
  refine List.eraseP_of_forall_not ?_
  intro e he hkey
  exact h (List.mem_map.mpr ⟨e, he, of_decide_eq_true hkey⟩)

theorem removeFromLru_getLast {lru : List (LruElement K V)} (h : (lru.map LruElement.key).Nodup)
    (he : lru.getLast? = some e) :
    removeFromLru e.key lru = lru.dropLast := by
  obtain ⟨rest, rfl⟩ := List.getLast?_eq_some_iff.mp he
  rw [List.map_append, List.nodup_append] at h
  have hrest : e.key ∉ rest.map LruElement.key :=
    fun hmem => h.2.2 e.key hmem e.key (List.mem_singleton_self _) rfl
  rw [removeFromLru, List.eraseP_append_right _ (by
    intro x hx hkey
    exact hrest (List.mem_map.mpr ⟨x, hx, of_decide_eq_true hkey⟩)),
    List.eraseP_cons_of_pos (by simp), List.append_nil, List.dropLast_concat]

theorem length_removeFromLru {lru : List (LruElement K V)} (he : e ∈ lru) :
    (removeFromLru e.key lru).length + 1 = lru.length := by
  have hlen : (removeFromLru e.key lru).length = lru.length - 1 :=
    List.length_eraseP_of_mem he (decide_eq_true rfl)
  rw [hlen]
  have := List.length_pos_of_mem he
  omega

theorem nodup_removeFromLru {lru : List (LruElement K V)} (h : (lru.map LruElement.key).Nodup) :
    ((removeFromLru key lru).map LruElement.key).Nodup :=
  h.sublist (List.eraseP_sublist.map _)

theorem notMem_removeFromLru {lru : List (LruElement K V)} (h : (lru.map LruElement.key).Nodup) :
    key ∉ (removeFromLru key lru).map LruElement.key := by
  rw [removeFromLru_eq_filter key h, List.mem_map]
  rintro ⟨e, he, hkey⟩
  exact of_decide_eq_true (List.mem_filter.mp he).2 hkey

theorem Sound.evict (h : Sound c) (he : e ∈ c.lru) :
    Sound (evict c e) := by
  refine ⟨nodup_removeFromLru h.nodup, ?_, h.grown⟩
  have hlen := length_removeFromLru he
  have hroom := h.room
  show (removeFromLru e.key c.lru).length + (c.freeList.length + 1) = c.blocks.capacity
  omega

end

/-- An element that was taken is missing on both lists. -/
structure Taken (c c' : LruCache K V) : Prop where
  lru_eq : c'.lru = c.lru
  max_eq : c'.maxElements = c.maxElements
  room : c'.lru.length + 1 + c'.freeList.length = c'.blocks.capacity
  grown : ∃ n, c'.blocks = Blocks.after c'.maxElements n

variable {value : V}

theorem popFreeList_spec (h : c.lru.length + c.freeList.length
      = c.blocks.capacity) (hgrown : ∃ n, c.blocks = Blocks.after c.maxElements n) {rest : List V}
    (hfree : c.freeList = value :: rest) :
    ∃ c', popFreeList c = some (value, c') ∧ Taken c c' := by
  refine ⟨{ c with freeList := rest }, by rw [popFreeList, hfree], rfl, rfl, ?_, hgrown⟩
  show c.lru.length + 1 + rest.length = c.blocks.capacity
  rw [hfree, List.length_cons] at h
  omega

section

variable [Inhabited V]

theorem nextFreeElement_of_free (h : Sound c) {rest : List V} (hfree : c.freeList = value :: rest) :
    ∃ c', nextFreeElement c = some (value, c') ∧ Taken c c' := by
  obtain ⟨c', hpop, htaken⟩ := popFreeList_spec h.room h.grown hfree
  exact ⟨c', by rw [nextFreeElement, hpop], htaken⟩

theorem nextFreeElement_of_lt (h : Sound c) (hfills : Blocks.Fills c.maxElements)
    (hlt : c.lru.length < c.maxElements) :
    ∃ value c', nextFreeElement c = some (value, c') ∧ Taken c c' := by
  cases hfree : c.freeList with
  | cons value rest =>
    obtain ⟨c', hnext, htaken⟩ := nextFreeElement_of_free h hfree
    exact ⟨value, c', hnext, htaken⟩
  | nil =>
    obtain ⟨n, hn⟩ := h.grown
    have hroom : c.lru.length = c.blocks.capacity := by
      have := h.room
      rw [hfree] at this
      exact this
    obtain ⟨hcount, hnext⟩ : c.blocks.count < maxBlocks ∧ 0 < c.blocks.next := by
      rw [hn]
      exact hfills n (by rw [← hn, ← hroom]; exact hlt)
    -- the list is empty and the blocks do not hold every element yet
    have hgrow : (Blocks.grow c.maxElements c.blocks).capacity
        = c.blocks.capacity + c.blocks.next := by
      rw [Blocks.grow, if_pos ⟨hcount, by rw [← hroom]; exact hlt⟩]
      dsimp only
      split <;> rfl
    have hnew : (addBlock c).freeList = List.replicate c.blocks.next default := by
      rw [addBlock]
      simp only [hgrow, hfree, Nat.add_sub_cancel_left, List.append_nil]
    have hfree' : (addBlock c).freeList
        = default :: List.replicate (c.blocks.next - 1) default := by
      rw [hnew, ← List.replicate_succ, Nat.sub_add_cancel hnext]
    have hroom' : (addBlock c).lru.length + (addBlock c).freeList.length
        = (addBlock c).blocks.capacity := by
      rw [hnew, List.length_replicate]
      show c.lru.length + c.blocks.next = (Blocks.grow c.maxElements c.blocks).capacity
      rw [hgrow, hroom]
    have hgrown' : ∃ n, (addBlock c).blocks = Blocks.after (addBlock c).maxElements n :=
      ⟨n + 1, by
        rw [Blocks.after_succ, show (addBlock c).maxElements = c.maxElements from rfl, ← hn]
        rfl⟩
    obtain ⟨c', hpop, htaken⟩ := popFreeList_spec hroom' hgrown' hfree'
    refine ⟨default, c', ?_, htaken.lru_eq, htaken.max_eq, htaken.room, htaken.grown⟩
    rw [nextFreeElement, show popFreeList c = none from by rw [popFreeList, hfree]]
    exact hpop

theorem nextFreeElement_of_full (h : Sound c) (hfull : c.lru.length = c.maxElements) :
    nextFreeElement c = none := by
  obtain ⟨n, hn⟩ := h.grown
  have hle : c.blocks.capacity ≤ c.maxElements := by
    rw [hn]
    exact Blocks.capacity_le c.maxElements n
  have hroom := h.room
  have hfree : c.freeList = [] := List.eq_nil_of_length_eq_zero (by omega)
  have hgrow : Blocks.grow c.maxElements c.blocks = c.blocks := by
    rw [Blocks.grow, if_neg]
    rintro ⟨-, hlt⟩
    omega
  have hadd : (addBlock c).freeList = [] := by
    rw [addBlock]
    simp only [hgrow, hfree, Nat.sub_self, List.replicate_zero, List.append_nil]
  rw [nextFreeElement, show popFreeList c = none from by rw [popFreeList, hfree]]
  show popFreeList (addBlock c) = none
  rw [popFreeList, hadd]

end

variable {c' : LruCache K V}

theorem Taken.sound_pushLruHead (h : Taken c c') (hnodup : (c.lru.map LruElement.key).Nodup)
    (hkey : key ∉ c.lru.map LruElement.key) (value : V) :
    Sound (pushLruHead c' { key := key, value := value }) := by
  refine ⟨?_, ?_, h.grown⟩
  · show (key :: c'.lru.map LruElement.key).Nodup
    rw [h.lru_eq]
    exact List.nodup_cons.mpr ⟨hkey, hnodup⟩
  · show (c'.lru.length + 1) + c'.freeList.length = c'.blocks.capacity
    exact h.room

variable [DecidableEq K]

/-- The elements that stay when a key is inserted: the last one goes only where the cache
    is full and the key is new. -/
def keptBy (c : LruCache K V) (key : K) : List (LruElement K V) :=
  if (lookupInternal c key).isSome ∨ c.lru.length < c.maxElements then removeFromLru key c.lru
  else c.lru.dropLast

/-- **INSERT**: the element is at the head, over the value it had where it was there
    before. -/
theorem insert_spec [Inhabited V] (h : Sound c) (hfills : Blocks.Fills c.maxElements)
    (hpos : 0 < c.maxElements)
    (key : K) (write : V → V) :
    ∃ c' old, insert c key write = some c' ∧ Sound c' ∧ c'.maxElements = c.maxElements ∧
      c'.lru = { key := key, value := write old } :: keptBy c key ∧
      ∀ e, lookupInternal c key = some e → old = e.value := by
  cases hlookup : lookupInternal c key with
  | some e =>
    obtain ⟨he, rfl⟩ := lookupInternal_eq_some hlookup
    obtain ⟨c', hnext, htaken⟩ := nextFreeElement_of_free (h.evict he) rfl
    refine ⟨pushLruHead c' { key := e.key, value := write e.value }, e.value,
      by rw [insert, hlookup]; simp only [hnext],
      htaken.sound_pushLruHead (nodup_removeFromLru h.nodup) (notMem_removeFromLru h.nodup) _,
      htaken.max_eq, ?_, fun e' he' => by rw [Option.some.inj he']⟩
    show _ :: c'.lru = _
    rw [htaken.lru_eq, keptBy, hlookup, if_pos (Or.inl Option.isSome_some)]
    rfl
  | none =>
    have hkey := lookupInternal_eq_none.mp hlookup
    rcases Nat.lt_or_ge c.lru.length c.maxElements with hlt | hge
    · obtain ⟨value, c', hnext, htaken⟩ := nextFreeElement_of_lt h hfills hlt
      refine ⟨pushLruHead c' { key := key, value := write value }, value,
        by rw [insert, hlookup]; simp only [hnext],
        htaken.sound_pushLruHead h.nodup hkey _, htaken.max_eq, ?_, fun e he => by cases he⟩
      show _ :: c'.lru = _
      rw [htaken.lru_eq, keptBy, if_pos (Or.inr hlt), removeFromLru_of_notMem hkey]
    · have hfull : c.lru.length = c.maxElements := Nat.le_antisymm h.length_le hge
      have hne : c.lru ≠ [] := by
        intro hnil
        rw [hnil] at hfull
        exact Nat.lt_irrefl _ (hfull ▸ hpos)
      obtain ⟨tail, htail⟩ := List.getLast?_isSome.mpr hne |> Option.isSome_iff_exists.mp
      have htailMem : tail ∈ c.lru := List.mem_of_getLast? htail
      obtain ⟨c', hnext, htaken⟩ := nextFreeElement_of_free (h.evict htailMem) rfl
      have hkey' : key ∉ (evict c tail).lru.map LruElement.key := fun hmem =>
        hkey ((List.eraseP_sublist.map _).subset hmem)
      refine ⟨pushLruHead c' { key := key, value := write tail.value }, tail.value, ?_,
        htaken.sound_pushLruHead (nodup_removeFromLru h.nodup) hkey' _, htaken.max_eq, ?_,
        fun e he => by cases he⟩
      · rw [insert, hlookup]
        simp only [nextFreeElement_of_full h hfull, htail, hnext, Option.map_some]
      · show _ :: c'.lru = _
        rw [htaken.lru_eq, keptBy, hlookup, if_neg (by
          rintro (hsome | hlt)
          · cases hsome
          · omega)]
        exact congrArg _ (removeFromLru_getLast h.nodup htail)

theorem Sound.modifyValue (h : Sound c) (key : K) (write : V → V) :
    Sound (modifyValue c key write) := by
  have hkeys : (LruCache.modifyValue c key write).lru.map LruElement.key
      = c.lru.map LruElement.key := by
    show (c.lru.map _).map LruElement.key = _
    rw [List.map_map]
    refine List.map_congr_left ?_
    intro e _
    show LruElement.key (if e.key = key then _ else e) = e.key
    split <;> rfl
  refine ⟨by rw [hkeys]; exact h.nodup, ?_, h.grown⟩
  show (c.lru.map _).length + c.freeList.length = c.blocks.capacity
  rw [List.length_map]
  exact h.room

omit [DecidableEq K] in
/-- The element that is taken is missing on both lists, however it was found. -/
theorem taken_of_nextFreeElement [Inhabited V] (h : Sound c)
    (hnext : nextFreeElement c = some (value, c')) :
    Taken c c' := by
  rw [nextFreeElement] at hnext
  cases hfree : c.freeList with
  | cons value' rest =>
    obtain ⟨c'', hpop, htaken⟩ := popFreeList_spec h.room h.grown hfree
    rw [hpop] at hnext
    obtain ⟨-, rfl⟩ := Prod.mk.inj (Option.some.inj hnext)
    exact htaken
  | nil =>
    rw [show popFreeList c = none from by rw [popFreeList, hfree]] at hnext
    dsimp only at hnext
    have hroom' : (addBlock c).lru.length + (addBlock c).freeList.length
        = (addBlock c).blocks.capacity := by
      have hle := Blocks.capacity_le_grow c.maxElements c.blocks
      have hroom := h.room
      rw [hfree, List.length_nil] at hroom
      show c.lru.length + (List.replicate _ default ++ c.freeList).length = _
      rw [hfree, List.append_nil, List.length_replicate]
      show c.lru.length + ((Blocks.grow c.maxElements c.blocks).capacity - c.blocks.capacity)
        = (Blocks.grow c.maxElements c.blocks).capacity
      omega
    have hgrown' : ∃ n, (addBlock c).blocks = Blocks.after (addBlock c).maxElements n := by
      obtain ⟨n, hn⟩ := h.grown
      refine ⟨n + 1, ?_⟩
      rw [Blocks.after_succ]
      show Blocks.grow c.maxElements c.blocks = Blocks.grow c.maxElements _
      rw [hn]
      rfl
    cases hadd : (addBlock c).freeList with
    | nil =>
      rw [popFreeList, hadd] at hnext
      cases hnext
    | cons value' rest =>
      obtain ⟨c'', hpop, htaken⟩ := popFreeList_spec hroom' hgrown' hadd
      rw [hpop] at hnext
      obtain ⟨-, rfl⟩ := Prod.mk.inj (Option.some.inj hnext)
      exact ⟨htaken.lru_eq, htaken.max_eq, htaken.room, htaken.grown⟩

/-- **ERASE**: exactly the element of the key is gone. -/
theorem erase_spec (h : Sound c) (key : K) :
    Sound (erase c key) ∧ (erase c key).maxElements = c.maxElements ∧
      (erase c key).lru = removeFromLru key c.lru := by
  rw [erase]
  cases hlookup : lookupInternal c key with
  | some e =>
    obtain ⟨he, rfl⟩ := lookupInternal_eq_some hlookup
    exact ⟨h.evict he, rfl, rfl⟩
  | none =>
    exact ⟨h, rfl, (removeFromLru_of_notMem (lookupInternal_eq_none.mp hlookup)).symm⟩

/-- **LOOKUP**: the element is at the head, the others are in their order. -/
theorem mutableLookup_spec (h : Sound c) (hlookup : mutableLookup c key = some (value, c')) :
    Sound c' ∧ c'.maxElements = c.maxElements ∧
      { key := key, value := value } ∈ c.lru ∧
      c'.lru = { key := key, value := value } :: removeFromLru key c.lru := by
  obtain ⟨e, he, heq⟩ := Option.map_eq_some_iff.mp hlookup
  obtain ⟨hmem, rfl⟩ := lookupInternal_eq_some he
  obtain ⟨rfl, rfl⟩ := Prod.mk.inj heq
  refine ⟨⟨?_, ?_, h.grown⟩, rfl, hmem, rfl⟩
  · exact List.nodup_cons.mpr ⟨notMem_removeFromLru h.nodup, nodup_removeFromLru h.nodup⟩
  · show (removeFromLru e.key c.lru).length + 1 + c.freeList.length = c.blocks.capacity
    rw [length_removeFromLru hmem]
    exact h.room

omit [DecidableEq K] in
theorem Sound.clear (h : Sound c) : Sound (clear c) := by
  refine ⟨List.nodup_nil, ?_, h.grown⟩
  have hroom := h.room
  show 0 + ((c.lru.map LruElement.value).reverse ++ c.freeList).length = c.blocks.capacity
  rw [List.length_append, List.length_reverse, List.length_map]
  omega

theorem removeFromLru_modifyValue (h : Sound c) (key : K) (write : V → V) :
    removeFromLru key (modifyValue c key write).lru = removeFromLru key c.lru := by
  rw [removeFromLru_eq_filter key (h.modifyValue key write).nodup,
    removeFromLru_eq_filter key h.nodup]
  show (c.lru.map _).filter _ = _
  induction c.lru with
  | nil => rfl
  | cons e lru ih =>
    rw [List.map_cons]
    by_cases he : e.key = key
    · rw [List.filter_cons_of_neg (by simp [he]), List.filter_cons_of_neg (by simp [he]), ih]
    · rw [if_neg he, List.filter_cons_of_pos (by simp [he]),
        List.filter_cons_of_pos (by simp [he]), ih]

theorem map_key_removeFromLru (h : Sound c) (key : K) :
    (removeFromLru key c.lru).map LruElement.key
      = (c.lru.map LruElement.key).filter (· ≠ key) := by
  rw [removeFromLru_eq_filter key h.nodup, List.filter_map]
  rfl

end LruCache
