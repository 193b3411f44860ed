import Mozkey.LruCacheProofs
import Mozkey.LinkedListProofs

/-! # LruCache — the elements and their links

    The elements of a cache live in blocks.  Every element is on the free list, which uses its
    `next` pointer alone, or on the list of the last used ones, which uses both pointers; the
    table maps a key to its element. -/

namespace LruPointers

open LinkedList

/-! ## The cache -/

/-- An element: its key and value, and its neighbours in the lists. -/
structure Element (K V : Type) where
  next : Option Nat
  prev : Option Nat
  key : K
  value : V

/-- `block_count_`, `block_capacity_` and `next_block_size_`. -/
structure Counters where
  count : UInt64
  capacity : UInt64
  next : UInt64

/-- `LruCache`: the elements of all blocks, in the order of their blocks. -/
structure Cache (K V : Type) where
  heap : Nat → Element K V
  table : K → Option Nat
  freeList : Option Nat
  lruHead : Option Nat
  lruTail : Option Nat
  blocks : Counters
  maxElements : UInt64

/-- The counters behind a block that `AddBlock` allocates. -/
def Counters.grow (max : UInt64) (b : Counters) : Counters :=
  let capacity := b.capacity + b.next
  let count := b.count + 1
  let blocksRemaining := 10 - count
  if 0 < blocksRemaining then
    let next := b.next <<< 1
    let elementsRemaining := max - capacity
    let next :=
      if elementsRemaining / blocksRemaining < next then elementsRemaining / blocksRemaining
      else next
    let next := if max < capacity + next then max - capacity else next
    { count, capacity, next }
  else { count, capacity, next := b.next }

variable {K V : Type}

/-- The loop of the constructor; `none` where the fuel runs out. -/
def doubleUntil (max : UInt64) : Nat → UInt64 → Option UInt64
  | 0, _ => none
  | fuel + 1, next =>
    if next <<< 10 < max then doubleUntil max fuel (next <<< 1) else some next

namespace Cache

variable [DecidableEq K] [Inhabited K] [Inhabited V]

/-- `LruCache(max_elements)`. -/
def ofMax (fuel : Nat) (max : UInt64) : Option (Cache K V) :=
  (if max ≤ 128 then some max else doubleUntil max fuel 64).map fun next =>
    { heap := fun _ => { next := none, prev := none, key := default, value := default }
      table := fun _ => none
      freeList := none
      lruHead := none
      lruTail := none
      blocks := { count := 0, capacity := 0, next }
      maxElements := max }

/-- A store to an element. -/
def modify (c : Cache K V) (a : Nat) (f : Element K V → Element K V) : Cache K V :=
  { c with heap := Function.update c.heap a (f (c.heap a)) }

/-- A store to `next`. -/
def setNext (c : Cache K V) (a : Nat) (v : Option Nat) : Cache K V :=
  c.modify a fun e => { e with next := v }

/-- A store to `prev`. -/
def setPrev (c : Cache K V) (a : Nat) (v : Option Nat) : Cache K V :=
  c.modify a fun e => { e with prev := v }

/-- A store to the `next` of the element at a pointer that may be null. -/
def storeNext (c : Cache K V) (p v : Option Nat) : Cache K V :=
  match p with
  | some a => c.setNext a v
  | none => c

/-- A store to the `prev` of the element at a pointer that may be null. -/
def storePrev (c : Cache K V) (p v : Option Nat) : Cache K V :=
  match p with
  | some a => c.setPrev a v
  | none => c

/-- An element comes back to the free list. -/
def pushFreeList (c : Cache K V) (e : Nat) : Cache K V :=
  let c := c.setPrev e none
  let c := c.setNext e c.freeList
  { c with freeList := some e }

/-- The body of the loop of `AddBlock`: a default element. -/
def addElement (c : Cache K V) (e : Nat) : Cache K V :=
  { c.modify e fun _ => { next := c.freeList, prev := none, key := default, value := default } with
    freeList := some e }

/-- The loop of `AddBlock`. -/
def addElements (first : Nat) : Nat → Cache K V → Cache K V
  | 0, c => c
  | n + 1, c => (addElements first n c).addElement (first + n)

/-- A new block of elements, all of them free. -/
def addBlock (c : Cache K V) : Cache K V :=
  if c.blocks.count < 10 ∧ c.blocks.capacity < c.maxElements then
    { addElements c.blocks.capacity.toNat c.blocks.next.toNat c with
      blocks := c.blocks.grow c.maxElements }
  else c

/-- `PopFreeList`; `none` where a check fails. -/
def popFreeList (c : Cache K V) : Option (Option Nat × Cache K V) :=
  match c.freeList with
  | none => some (none, c)
  | some r =>
    if (c.heap r).prev = none then
      let c := { c with freeList := (c.heap r).next }
      let c := c.storePrev c.freeList none
      some (some r, c.setNext r none)
    else none

/-- A free element, of a new block if need be. -/
def nextFreeElement (c : Cache K V) : Option (Option Nat × Cache K V) :=
  (popFreeList c).bind fun (r, c) =>
    match r with
    | some r => some (some r, c)
    | none => popFreeList (addBlock c)

/-- `LookupInternal`. -/
def lookupInternal (c : Cache K V) (key : K) : Option Nat := c.table key

/-- An element leaves the list. -/
def removeFromLru (c : Cache K V) (e : Nat) : Cache K V :=
  let c := if c.lruHead = some e then { c with lruHead := (c.heap e).next } else c
  let c := if c.lruTail = some e then { c with lruTail := (c.heap e).prev } else c
  let c := c.storeNext (c.heap e).prev (c.heap e).next
  let c := c.storePrev (c.heap e).next (c.heap e).prev
  (c.setPrev e none).setNext e none

/-- `PushLRUHead` behind its `RemoveFromLRU`. -/
def linkHead (c : Cache K V) (e : Nat) : Cache K V :=
  let c := c.setNext e c.lruHead
  let c := { c with lruHead := some e }
  let c := c.storePrev (c.heap e).next (some e)
  if c.lruTail = none then { c with lruTail := some e } else c

/-- An element becomes the head of the list. -/
def pushLruHead (c : Cache K V) (e : Nat) : Cache K V :=
  if c.lruHead = some e then c else (c.removeFromLru e).linkHead e

/-- `Evict` of an element; `none` where a check fails. -/
def evict (c : Cache K V) (e : Nat) : Option (Cache K V) :=
  let key := (c.heap e).key
  if (c.table key).isSome then
    some (({ c with table := Function.update c.table key none }.removeFromLru e).pushFreeList e)
  else none

/-- What `Insert(key)` does with a free element. -/
def place (c : Cache K V) (key : K) (e : Nat) : Cache K V :=
  let c := c.modify e fun element => { element with key }
  { c with table := Function.update c.table key (some e) }.pushLruHead e

/-- `Insert(key)`: the element; `none` where a check fails. -/
def insertKey (c : Cache K V) (key : K) : Option (Nat × Cache K V) :=
  (match lookupInternal c key with
    | some e => evict c e
    | none => some c).bind fun c =>
  (nextFreeElement c).bind fun (e, c) =>
    match e with
    | some e => some (e, c.place key e)
    | none =>
      match c.lruTail with
      | none => none
      | some tail =>
        (evict c tail).bind fun c =>
        (nextFreeElement c).bind fun (e, c) => e.map fun e => (e, c.place key e)

/-- `Insert(key, value)`. -/
def insert (c : Cache K V) (key : K) (value : V) : Option (Cache K V) :=
  (insertKey c key).map fun (e, c) => c.modify e fun element => { element with value }

/-- `MutableLookup`: the value, and what the caller writes over it. -/
def mutableLookup (c : Cache K V) (key : K) (write : V → V) : Option V × Cache K V :=
  match lookupInternal c key with
  | some e =>
    let c := c.pushLruHead e
    (some (c.heap e).value,
      c.modify e fun element => { element with value := write element.value })
  | none => (none, c)

/-- `MutableLookupWithoutInsert`, and what is written. -/
def mutableLookupWithoutInsert (c : Cache K V) (key : K) (write : V → V) :
    Option V × Cache K V :=
  match lookupInternal c key with
  | some e =>
    (some (c.heap e).value,
      c.modify e fun element => { element with value := write element.value })
  | none => (none, c)

/-- `Lookup`. -/
def lookup (c : Cache K V) (key : K) : Option V × Cache K V := mutableLookup c key id

/-- `LookupWithoutInsert`. -/
def lookupWithoutInsert (c : Cache K V) (key : K) : Option V :=
  (lookupInternal c key).map fun e => (c.heap e).value

/-- `Erase`, and whether there was the key. -/
def erase (c : Cache K V) (key : K) : Option (Bool × Cache K V) :=
  match lookupInternal c key with
  | some e => (evict c e).map fun c => (true, c)
  | none => some (false, c)

/-- The loop of `Clear`: the iterator has the next element before this one is pushed; `none`
    where the fuel runs out. -/
def clearFrom : Nat → Option Nat → Cache K V → Option (Cache K V)
  | _, none, c => some c
  | 0, some _, _ => none
  | fuel + 1, some e, c => clearFrom fuel (c.heap e).next (c.pushFreeList e)

/-- `Clear`. -/
def clear (c : Cache K V) : Option (Cache K V) :=
  (clearFrom c.blocks.capacity.toNat c.lruHead { c with table := fun _ => none }).map fun c =>
    { c with lruHead := none, lruTail := none }

/-- The elements from one on, as the iterator visits them. -/
def elementsFrom (c : Cache K V) : Nat → Option Nat → List (LruElement K V)
  | _, none => []
  | 0, some _ => []
  | fuel + 1, some e =>
    { key := (c.heap e).key, value := (c.heap e).value }
      :: c.elementsFrom fuel (c.heap e).next

/-- The elements from `begin` to `end`. -/
def elements (c : Cache K V) : List (LruElement K V) :=
  c.elementsFrom c.blocks.capacity.toNat c.lruHead

end Cache

/-! ## The links -/

namespace Cache

/-- The next links of the elements. -/
def next (c : Cache K V) (a : Nat) : Option Nat := (c.heap a).next

/-- The previous links of the elements. -/
def prev (c : Cache K V) (a : Nat) : Option Nat := (c.heap a).prev

/-- The key and the value of an element. -/
def entry (c : Cache K V) (a : Nat) : LruElement K V :=
  { key := (c.heap a).key, value := (c.heap a).value }

theorem heap_modify_self (c : Cache K V) (a : Nat) (f : Element K V → Element K V) :
    (c.modify a f).heap a = f (c.heap a) := Function.update_self _ _ _

theorem heap_modify_of_ne (c : Cache K V) {a b : Nat} (h : b ≠ a)
    (f : Element K V → Element K V) : (c.modify a f).heap b = c.heap b :=
  Function.update_of_ne h _ _

@[simp] theorem next_setNext (c : Cache K V) (a : Nat) (v : Option Nat) :
    (c.setNext a v).next = Function.update c.next a v := by
  funext b
  rcases eq_or_ne b a with rfl | hb
  · rw [Function.update_self, next, setNext, heap_modify_self]
  · rw [Function.update_of_ne hb, next, setNext, heap_modify_of_ne c hb, next]

@[simp] theorem prev_setNext (c : Cache K V) (a : Nat) (v : Option Nat) :
    (c.setNext a v).prev = c.prev := by
  funext b
  rcases eq_or_ne b a with rfl | hb
  · rw [prev, setNext, heap_modify_self, prev]
  · rw [prev, setNext, heap_modify_of_ne c hb, prev]

@[simp] theorem next_setPrev (c : Cache K V) (a : Nat) (v : Option Nat) :
    (c.setPrev a v).next = c.next := by
  funext b
  rcases eq_or_ne b a with rfl | hb
  · rw [next, setPrev, heap_modify_self, next]
  · rw [next, setPrev, heap_modify_of_ne c hb, next]

@[simp] theorem prev_setPrev (c : Cache K V) (a : Nat) (v : Option Nat) :
    (c.setPrev a v).prev = Function.update c.prev a v := by
  funext b
  rcases eq_or_ne b a with rfl | hb
  · rw [Function.update_self, prev, setPrev, heap_modify_self]
  · rw [Function.update_of_ne hb, prev, setPrev, heap_modify_of_ne c hb, prev]

@[simp] theorem entry_setNext (c : Cache K V) (a : Nat) (v : Option Nat) :
    (c.setNext a v).entry = c.entry := by
  funext b
  rcases eq_or_ne b a with rfl | hb
  · rw [entry, setNext, heap_modify_self, entry]
  · rw [entry, setNext, heap_modify_of_ne c hb, entry]

@[simp] theorem entry_setPrev (c : Cache K V) (a : Nat) (v : Option Nat) :
    (c.setPrev a v).entry = c.entry := by
  funext b
  rcases eq_or_ne b a with rfl | hb
  · rw [entry, setPrev, heap_modify_self, entry]
  · rw [entry, setPrev, heap_modify_of_ne c hb, entry]

@[simp] theorem next_storeNext (c : Cache K V) (p v : Option Nat) :
    (c.storeNext p v).next = setAt c.next p v := by
  cases p with
  | none => rfl
  | some a => exact c.next_setNext a v

@[simp] theorem prev_storeNext (c : Cache K V) (p v : Option Nat) :
    (c.storeNext p v).prev = c.prev := by
  cases p with
  | none => rfl
  | some a => exact c.prev_setNext a v

@[simp] theorem next_storePrev (c : Cache K V) (p v : Option Nat) :
    (c.storePrev p v).next = c.next := by
  cases p with
  | none => rfl
  | some a => exact c.next_setPrev a v

@[simp] theorem prev_storePrev (c : Cache K V) (p v : Option Nat) :
    (c.storePrev p v).prev = setAt c.prev p v := by
  cases p with
  | none => rfl
  | some a => exact c.prev_setPrev a v

theorem kept_storeNext (c : Cache K V) (p v : Option Nat) :
    (c.storeNext p v).lruHead = c.lruHead ∧ (c.storeNext p v).lruTail = c.lruTail ∧
      (c.storeNext p v).freeList = c.freeList := by
  cases p <;> exact ⟨rfl, rfl, rfl⟩

theorem kept_storePrev (c : Cache K V) (p v : Option Nat) :
    (c.storePrev p v).lruHead = c.lruHead ∧ (c.storePrev p v).lruTail = c.lruTail ∧
      (c.storePrev p v).freeList = c.freeList := by
  cases p <;> exact ⟨rfl, rfl, rfl⟩

end Cache

/-- What the operations on the lists leave as it is. -/
structure Relinked (c c' : Cache K V) : Prop where
  entry_eq : c'.entry = c.entry
  table_eq : c'.table = c.table
  blocks_eq : c'.blocks = c.blocks
  max_eq : c'.maxElements = c.maxElements

variable {c : Cache K V}

theorem Relinked.trans {c' c'' : Cache K V} (h : Relinked c c') (h' : Relinked c' c'') :
    Relinked c c'' :=
  ⟨h'.entry_eq.trans h.entry_eq, h'.table_eq.trans h.table_eq, h'.blocks_eq.trans h.blocks_eq,
    h'.max_eq.trans h.max_eq⟩

theorem relinked_setNext (c : Cache K V) (a : Nat) (v : Option Nat) :
    Relinked c (c.setNext a v) := ⟨c.entry_setNext a v, rfl, rfl, rfl⟩

theorem relinked_setPrev (c : Cache K V) (a : Nat) (v : Option Nat) :
    Relinked c (c.setPrev a v) := ⟨c.entry_setPrev a v, rfl, rfl, rfl⟩

theorem relinked_storeNext (c : Cache K V) (p v : Option Nat) :
    Relinked c (c.storeNext p v) := by
  cases p with
  | none => exact ⟨rfl, rfl, rfl, rfl⟩
  | some a => exact relinked_setNext c a v

theorem relinked_storePrev (c : Cache K V) (p v : Option Nat) :
    Relinked c (c.storePrev p v) := by
  cases p with
  | none => exact ⟨rfl, rfl, rfl, rfl⟩
  | some a => exact relinked_setPrev c a v

/-- The elements on the list of the last used ones, and those on the free list. -/
structure Shape (c : Cache K V) (ps qs : List Nat) : Prop where
  nodup : (ps ++ qs).Nodup
  linked : Linked c.next c.prev none ps none
  head_eq : c.lruHead = ps.head?
  tail_eq : c.lruTail = ps.getLast?
  chained : Chained c.next c.freeList qs
  prev_free : ∀ a ∈ qs, c.prev a = none

/-- An element that is on no list, with its links cleared. -/
structure Loose (c : Cache K V) (ps qs : List Nat) (e : Nat) : Prop where
  notMem : e ∉ ps ++ qs
  next_eq : c.next e = none
  prev_eq : c.prev e = none

/-! ## The operations on the lists -/

variable {ps qs : List Nat} {e : Nat}

/-- An element that is on no list is chained in front of the free list. -/
theorem Shape.push_free {c' : Cache K V} (h : Shape c ps qs) (he : e ∉ ps ++ qs)
    (hnext : c'.next = Function.update c.next e c.freeList)
    (hprev : c'.prev = Function.update c.prev e none) (hhead : c'.lruHead = c.lruHead)
    (htail : c'.lruTail = c.lruTail) (hfree : c'.freeList = some e) :
    Shape c' ps (e :: qs) := by
  have hps : ∀ a ∈ ps, a ≠ e := fun a ha hae => he (List.mem_append_left _ (hae ▸ ha))
  have hqs : ∀ a ∈ qs, a ≠ e := fun a ha hae => he (List.mem_append_right _ (hae ▸ ha))
  refine ⟨?_, ?_, hhead.trans h.head_eq, htail.trans h.tail_eq, ?_, ?_⟩
  · exact List.nodup_middle.mpr (List.nodup_cons.mpr ⟨he, h.nodup⟩)
  · rw [hnext, hprev]
    exact h.linked.congr fun a ha =>
      ⟨Function.update_of_ne (hps a ha) _ _, Function.update_of_ne (hps a ha) _ _⟩
  · refine ⟨hfree, ?_⟩
    rw [hnext, Function.update_self]
    exact h.chained.congr fun a ha => Function.update_of_ne (hqs a ha) _ _
  · intro a ha
    rw [hprev]
    rcases List.mem_cons.mp ha with rfl | ha
    · exact Function.update_self _ _ _
    · rw [Function.update_of_ne (hqs a ha)]
      exact h.prev_free a ha

namespace Cache

theorem next_pushFreeList (c : Cache K V) (e : Nat) :
    (c.pushFreeList e).next = Function.update c.next e c.freeList := by
  show ((c.setPrev e none).setNext e c.freeList).next = _
  rw [next_setNext, next_setPrev]

theorem prev_pushFreeList (c : Cache K V) (e : Nat) :
    (c.pushFreeList e).prev = Function.update c.prev e none := by
  show ((c.setPrev e none).setNext e c.freeList).prev = _
  rw [prev_setNext, prev_setPrev]

end Cache

theorem relinked_pushFreeList (c : Cache K V) (e : Nat) : Relinked c (c.pushFreeList e) := by
  have hset := (relinked_setPrev c e none).trans (relinked_setNext _ e c.freeList)
  exact ⟨hset.entry_eq, hset.table_eq, hset.blocks_eq, hset.max_eq⟩

/-- **`PushFreeList`** of an element that is on no list. -/
theorem shape_pushFreeList (h : Shape c ps qs) (he : e ∉ ps ++ qs) :
    Shape (c.pushFreeList e) ps (e :: qs) :=
  h.push_free he (c.next_pushFreeList e) (c.prev_pushFreeList e) rfl rfl rfl

/-- **`PopFreeList`** takes the first free element. -/
theorem shape_popFreeList (h : Shape c ps (e :: qs)) :
    ∃ c', c.popFreeList = some (some e, c') ∧ Shape c' ps qs ∧ Relinked c c' ∧
      Loose c' ps qs e := by
  obtain ⟨hfree, hchained⟩ := h.chained
  obtain ⟨he, hnodup⟩ := List.nodup_cons.mp (List.nodup_middle.mp h.nodup)
  have hps : ∀ a ∈ ps, a ≠ e := fun a ha hae => he (List.mem_append_left _ (hae ▸ ha))
  have hqs : ∀ a ∈ qs, a ≠ e := fun a ha hae => he (List.mem_append_right _ (hae ▸ ha))
  have hprevE : c.prev e = none := h.prev_free e List.mem_cons_self
  -- the element behind it is free too
  have hprev : setAt c.prev (c.next e) none = c.prev := by
    cases qs with
    | nil =>
      rw [show c.next e = none from hchained]
      rfl
    | cons f qs =>
      rw [hchained.1, setAt,
        ← h.prev_free f (List.mem_cons_of_mem _ List.mem_cons_self), Function.update_eq_self]
  have hnext' : ((({ c with freeList := c.next e }).storePrev (c.next e) none).setNext e
      none).next = Function.update c.next e none := by
    rw [Cache.next_setNext, Cache.next_storePrev]
    rfl
  have hprev' : ((({ c with freeList := c.next e }).storePrev (c.next e) none).setNext e
      none).prev = c.prev := by
    rw [Cache.prev_setNext, Cache.prev_storePrev]
    exact hprev
  have hrelinked := (relinked_storePrev { c with freeList := c.next e } (c.next e) none).trans
    (relinked_setNext _ e none)
  have hkept := Cache.kept_storePrev { c with freeList := c.next e } (c.next e) none
  refine ⟨(({ c with freeList := c.next e }).storePrev (c.next e) none).setNext e none, ?_,
    ⟨hnodup, ?_, hkept.1.trans h.head_eq, hkept.2.1.trans h.tail_eq, ?_, ?_⟩,
    ⟨hrelinked.entry_eq, hrelinked.table_eq, hrelinked.blocks_eq, hrelinked.max_eq⟩, he, ?_, ?_⟩
  · rw [Cache.popFreeList, hfree]
    dsimp only
    rw [if_pos (show (c.heap e).prev = none from hprevE)]
    rfl
  · rw [hnext', hprev']
    exact h.linked.congr fun a ha => ⟨Function.update_of_ne (hps a ha) _ _, rfl⟩
  · rw [hnext', show Cache.freeList (Cache.setNext _ e none) = c.next e from hkept.2.2]
    exact hchained.congr fun a ha => Function.update_of_ne (hqs a ha) _ _
  · intro a ha
    rw [hprev']
    exact h.prev_free a (List.mem_cons_of_mem _ ha)
  · rw [hnext', Function.update_self]
  · rw [hprev', hprevE]

/-- The links behind `RemoveFromLRU` of an element that is not its own predecessor. -/
theorem links_removeFromLru (hprev : c.prev e ≠ some e) :
    (c.removeFromLru e).next = Function.update (setAt c.next (c.prev e) (c.next e)) e none ∧
      (c.removeFromLru e).prev = Function.update (setAt c.prev (c.next e) (c.prev e)) e none ∧
      (c.removeFromLru e).lruHead = (if c.lruHead = some e then c.next e else c.lruHead) ∧
      (c.removeFromLru e).lruTail = (if c.lruTail = some e then c.prev e else c.lruTail) ∧
      (c.removeFromLru e).freeList = c.freeList ∧ Relinked c (c.removeFromLru e) := by
  -- the pointers to both ends are changed first
  obtain ⟨c₁, hc₁, hheap, hhead, htail, hfree, htable, hblocks, hmax⟩ : ∃ c₁ : Cache K V,
      c.removeFromLru e = (((c₁.storeNext (c.prev e) (c.next e)).storePrev
        ((c₁.storeNext (c.prev e) (c.next e)).next e)
        ((c₁.storeNext (c.prev e) (c.next e)).prev e)).setPrev e none).setNext e none ∧
      c₁.heap = c.heap ∧
      c₁.lruHead = (if c.lruHead = some e then c.next e else c.lruHead) ∧
      c₁.lruTail = (if c.lruTail = some e then c.prev e else c.lruTail) ∧
      c₁.freeList = c.freeList ∧ c₁.table = c.table ∧ c₁.blocks = c.blocks ∧
      c₁.maxElements = c.maxElements := by
    rw [Cache.removeFromLru]
    by_cases hhead : c.lruHead = some e
    · by_cases htail : c.lruTail = some e
      · refine ⟨{ c with lruHead := c.next e, lruTail := c.prev e }, ?_⟩
        simp only [if_pos hhead, if_pos htail, and_true]
        rfl
      · refine ⟨{ c with lruHead := c.next e }, ?_⟩
        simp only [if_pos hhead, if_neg htail, and_true]
        rfl
    · by_cases htail : c.lruTail = some e
      · refine ⟨{ c with lruTail := c.prev e }, ?_⟩
        simp only [if_neg hhead, if_pos htail, and_true]
        rfl
      · refine ⟨c, ?_⟩
        simp only [if_neg hhead, if_neg htail, and_true]
        rfl
  have hn : c₁.next = c.next := by
    funext a
    rw [Cache.next, hheap, Cache.next]
  have hp : c₁.prev = c.prev := by
    funext a
    rw [Cache.prev, hheap, Cache.prev]
  have he : c₁.entry = c.entry := by
    funext a
    rw [Cache.entry, hheap, Cache.entry]
  rw [hc₁, Cache.next_storeNext, Cache.prev_storeNext, hn, hp, setAt_of_ne hprev]
  have hrelinked := (((relinked_storeNext c₁ (c.prev e) (c.next e)).trans
    (relinked_storePrev _ (c.next e) (c.prev e))).trans (relinked_setPrev _ e none)).trans
      (relinked_setNext _ e none)
  have hkept := Cache.kept_storeNext c₁ (c.prev e) (c.next e)
  have hkept' := Cache.kept_storePrev (c₁.storeNext (c.prev e) (c.next e)) (c.next e) (c.prev e)
  refine ⟨?_, ?_, (hkept'.1.trans hkept.1).trans hhead, (hkept'.2.1.trans hkept.2.1).trans htail,
    (hkept'.2.2.trans hkept.2.2).trans hfree, hrelinked.entry_eq.trans he,
    hrelinked.table_eq.trans htable, hrelinked.blocks_eq.trans hblocks,
    hrelinked.max_eq.trans hmax⟩
  · rw [Cache.next_setNext, Cache.next_setPrev, Cache.next_storePrev, Cache.next_storeNext, hn]
  · rw [Cache.prev_setNext, Cache.prev_setPrev, Cache.prev_storePrev, Cache.prev_storeNext, hp]

/-- **`RemoveFromLRU`** of an element of the list. -/
theorem shape_removeFromLru {l₁ l₂ : List Nat} (h : Shape c (l₁ ++ e :: l₂) qs) :
    Shape (c.removeFromLru e) (l₁ ++ l₂) qs ∧ Relinked c (c.removeFromLru e) ∧
      Loose (c.removeFromLru e) (l₁ ++ l₂) qs e := by
  obtain ⟨hprevE, hnextE⟩ := h.linked.links
  rw [Option.or_none] at hprevE hnextE
  have hmid : (e :: ((l₁ ++ l₂) ++ qs)).Nodup := by
    have := h.nodup
    rw [List.append_assoc, List.cons_append] at this
    rw [List.append_assoc]
    exact List.nodup_middle.mp this
  obtain ⟨he, hnodup⟩ := List.nodup_cons.mp hmid
  have hl : (l₁ ++ e :: l₂).Nodup := (List.nodup_append.mp h.nodup).1
  have he₁ : e ∉ l₁ := fun hmem => he (List.mem_append_left _ (List.mem_append_left _ hmem))
  have he₂ : e ∉ l₂ := fun hmem => he (List.mem_append_left _ (List.mem_append_right _ hmem))
  have hqs : ∀ a ∈ qs, a ∉ l₁ ++ l₂ := fun a ha hmem =>
    (List.nodup_append.mp hnodup).2.2 a hmem a ha rfl
  have hqe : ∀ a ∈ qs, a ≠ e := fun a ha hae => he (List.mem_append_right _ (hae ▸ ha))
  obtain ⟨hnext, hprev, hhead, htail, hfree, hrelinked⟩ := links_removeFromLru (c := c) (e := e)
    (by rw [hprevE]; exact fun hlast => he₁ (List.mem_of_mem_getLast? hlast))
  refine ⟨⟨hnodup, ?_, ?_, ?_, ?_, ?_⟩, hrelinked, he, ?_, ?_⟩
  · rw [hnext, hprev]
    exact h.linked.remove hl
  · rw [hhead, h.head_eq, hnextE]
    cases l₁ with
    | nil => exact if_pos rfl
    | cons a l₁ =>
      exact if_neg fun hae : some a = some e => he₁ (Option.some.inj hae ▸ List.mem_cons_self)
  · rw [htail, h.tail_eq, hprevE, List.getLast?_append, List.getLast?_append]
    cases l₂ with
    | nil => exact if_pos rfl
    | cons a l₂ =>
      rw [List.getLast?_cons_cons, if_neg]
      rw [List.getLast?_cons, Option.some_or]
      intro hlast
      refine he₂ (List.mem_of_mem_getLast? (l := a :: l₂) ?_)
      rw [List.getLast?_cons, Option.some.inj hlast]
      rfl
  · rw [hfree, hnext]
    refine h.chained.congr fun a ha => ?_
    rw [Function.update_of_ne (hqe a ha), setAt_of_ne]
    rw [hprevE]
    exact fun hlast => hqs a ha (List.mem_append_left _ (List.mem_of_mem_getLast? hlast))
  · intro a ha
    rw [hprev, Function.update_of_ne (hqe a ha), setAt_of_ne]
    · exact h.prev_free a ha
    · rw [hnextE]
      exact fun hhead => hqs a ha (List.mem_append_right _ (List.mem_of_mem_head? hhead))
  · rw [hnext, Function.update_self]
  · rw [hprev, Function.update_self]

theorem shape_removeFromLru_of_loose (h : Shape c ps qs) (he : Loose c ps qs e) :
    Shape (c.removeFromLru e) ps qs ∧ Relinked c (c.removeFromLru e) ∧
      Loose (c.removeFromLru e) ps qs e := by
  have heps : e ∉ ps := fun hmem => he.notMem (List.mem_append_left _ hmem)
  obtain ⟨hnext, hprev, hhead, htail, hfree, hrelinked⟩ := links_removeFromLru (c := c) (e := e)
    (by rw [he.prev_eq]; exact fun hnone => Option.some_ne_none e hnone.symm)
  rw [he.prev_eq, he.next_eq] at hnext hprev
  have hnext' : (c.removeFromLru e).next = c.next := by
    rw [hnext, setAt, ← he.next_eq, Function.update_eq_self]
  have hprev' : (c.removeFromLru e).prev = c.prev := by
    rw [hprev, setAt, ← he.prev_eq, Function.update_eq_self]
  refine ⟨⟨h.nodup, by rw [hnext', hprev']; exact h.linked, ?_, ?_,
    by rw [hfree, hnext']; exact h.chained, by rw [hprev']; exact h.prev_free⟩, hrelinked,
    he.notMem, by rw [hnext']; exact he.next_eq, by rw [hprev']; exact he.prev_eq⟩
  · rw [hhead, if_neg]
    · exact h.head_eq
    · rw [h.head_eq]
      exact fun hmem => heps (List.mem_of_mem_head? hmem)
  · rw [htail, if_neg]
    · exact h.tail_eq
    · rw [h.tail_eq]
      exact fun hmem => heps (List.mem_of_mem_getLast? hmem)

theorem shape_linkHead (h : Shape c ps qs) (he : Loose c ps qs e) :
    Shape (c.linkHead e) (e :: ps) qs ∧ Relinked c (c.linkHead e) := by
  have heps : e ∉ ps := fun hmem => he.notMem (List.mem_append_left _ hmem)
  have heqs : e ∉ qs := fun hmem => he.notMem (List.mem_append_right _ hmem)
  have hps : ps.Nodup := (List.nodup_append.mp h.nodup).1
  have hqs : ∀ a ∈ qs, a ∉ ps := fun a ha hmem =>
    (List.nodup_append.mp h.nodup).2.2 a hmem a ha rfl
  -- behind the three stores, in front of the one to the tail
  obtain ⟨c₁, hc₁, hnext, hprev, hhead, htail, hfree, hrelinked⟩ : ∃ c₁ : Cache K V,
      c.linkHead e = (if c₁.lruTail = none then { c₁ with lruTail := some e } else c₁) ∧
      c₁.next = Function.update c.next e c.lruHead ∧
      c₁.prev = setAt c.prev c.lruHead (some e) ∧ c₁.lruHead = some e ∧
      c₁.lruTail = c.lruTail ∧ c₁.freeList = c.freeList ∧ Relinked c c₁ := by
    have hfirst : (({ c.setNext e c.lruHead with lruHead := some e } : Cache K V).heap e).next
        = c.lruHead := by
      show (c.setNext e c.lruHead).next e = c.lruHead
      rw [Cache.next_setNext, Function.update_self]
    have hkept := Cache.kept_storePrev { c.setNext e c.lruHead with lruHead := some e }
      c.lruHead (some e)
    have hset := relinked_storePrev { c.setNext e c.lruHead with lruHead := some e }
      c.lruHead (some e)
    have hset' := relinked_setNext c e c.lruHead
    refine ⟨({ c.setNext e c.lruHead with lruHead := some e } : Cache K V).storePrev c.lruHead
      (some e), ?_, ?_, ?_, hkept.1, hkept.2.1, hkept.2.2, hset.entry_eq.trans hset'.entry_eq,
      hset.table_eq, hset.blocks_eq, hset.max_eq⟩
    · rw [Cache.linkHead]
      dsimp only
      rw [hfirst]
    · rw [Cache.next_storePrev]
      exact Cache.next_setNext c e c.lruHead
    · rw [Cache.prev_storePrev]
      exact congrArg (fun f => setAt f c.lruHead (some e)) (Cache.prev_setNext c e c.lruHead)
  have hshape : Linked c₁.next c₁.prev none (e :: ps) none ∧ Chained c₁.next c₁.freeList qs ∧
      ∀ a ∈ qs, c₁.prev a = none := by
    rw [hnext, hprev, hfree, h.head_eq]
    refine ⟨h.linked.push hps heps he.prev_eq, h.chained.congr fun a ha => ?_, fun a ha => ?_⟩
    · exact Function.update_of_ne (fun hae : a = e => heqs (hae ▸ ha)) _ _
    · rw [setAt_of_ne fun hmem => hqs a ha (List.mem_of_mem_head? hmem)]
      exact h.prev_free a ha
  have hnodup : ((e :: ps) ++ qs).Nodup := List.nodup_cons.mpr ⟨he.notMem, h.nodup⟩
  rw [hc₁, htail, h.tail_eq]
  cases ps with
  | nil =>
    rw [if_pos List.getLast?_nil]
    exact ⟨⟨hnodup, hshape.1, hhead, rfl, hshape.2.1, hshape.2.2⟩,
      hrelinked.entry_eq, hrelinked.table_eq, hrelinked.blocks_eq, hrelinked.max_eq⟩
  | cons a ps =>
    rw [List.getLast?_cons, if_neg (Option.some_ne_none _)]
    refine ⟨⟨hnodup, hshape.1, hhead, ?_, hshape.2.1, hshape.2.2⟩, hrelinked⟩
    rw [htail, h.tail_eq, List.getLast?_cons_cons]

/-- **`PushLRUHead`** of an element that is on no list. -/
theorem shape_pushLruHead_of_loose (h : Shape c ps qs) (he : Loose c ps qs e) :
    Shape (c.pushLruHead e) (e :: ps) qs ∧ Relinked c (c.pushLruHead e) := by
  have hhead : c.lruHead ≠ some e := by
    rw [h.head_eq]
    exact fun hmem => he.notMem (List.mem_append_left _ (List.mem_of_mem_head? hmem))
  obtain ⟨hshape, hrelinked, hloose⟩ := shape_removeFromLru_of_loose h he
  obtain ⟨hshape', hrelinked'⟩ := shape_linkHead hshape hloose
  rw [Cache.pushLruHead, if_neg hhead]
  exact ⟨hshape', hrelinked.trans hrelinked'⟩

/-- **`PushLRUHead`** of an element of the list. -/
theorem shape_pushLruHead {l₁ l₂ : List Nat} (h : Shape c (l₁ ++ e :: l₂) qs) :
    Shape (c.pushLruHead e) (e :: (l₁ ++ l₂)) qs ∧ Relinked c (c.pushLruHead e) := by
  obtain ⟨hshape, hrelinked, hloose⟩ := shape_removeFromLru h
  obtain ⟨hshape', hrelinked'⟩ := shape_linkHead hshape hloose
  rw [Cache.pushLruHead]
  cases l₁ with
  | nil =>
    have hhead : c.lruHead = some e := h.head_eq
    rw [if_pos hhead]
    exact ⟨h, rfl, rfl, rfl, rfl⟩
  | cons a l₁ =>
    rw [if_neg]
    · exact ⟨hshape', hrelinked.trans hrelinked'⟩
    · rw [h.head_eq]
      intro hae
      have hnodup := (List.nodup_append.mp h.nodup).1
      have ha : a = e := Option.some.inj hae
      exact (List.nodup_cons.mp hnodup).1
        (ha ▸ List.mem_append_right _ List.mem_cons_self)

/-! ## The elements of a block -/

section

variable [Inhabited K] [Inhabited V]

namespace Cache

theorem heap_addElement_self (c : Cache K V) (e : Nat) :
    (c.addElement e).heap e
      = { next := c.freeList, prev := none, key := default, value := default } :=
  Function.update_self _ _ _

theorem heap_addElement_of_ne (c : Cache K V) {a : Nat} (h : a ≠ e) :
    (c.addElement e).heap a = c.heap a := Function.update_of_ne h _ _

theorem next_addElement (c : Cache K V) (e : Nat) :
    (c.addElement e).next = Function.update c.next e c.freeList := by
  funext a
  rcases eq_or_ne a e with rfl | ha
  · rw [Function.update_self, next, heap_addElement_self]
  · rw [Function.update_of_ne ha, next, heap_addElement_of_ne c ha, next]

theorem prev_addElement (c : Cache K V) (e : Nat) :
    (c.addElement e).prev = Function.update c.prev e none := by
  funext a
  rcases eq_or_ne a e with rfl | ha
  · rw [Function.update_self, prev, heap_addElement_self]
  · rw [Function.update_of_ne ha, prev, heap_addElement_of_ne c ha, prev]

theorem entry_addElement_of_ne (c : Cache K V) {a : Nat} (h : a ≠ e) :
    (c.addElement e).entry a = c.entry a := by
  rw [entry, heap_addElement_of_ne c h, entry]

theorem entry_addElement_self (c : Cache K V) (e : Nat) :
    (c.addElement e).entry e = { key := default, value := default } := by
  rw [entry, heap_addElement_self]

end Cache

/-- What the loop of `AddBlock` has added. -/
structure Added (c c' : Cache K V) (ps qs qs' : List Nat) (first n : Nat) : Prop where
  shape : Shape c' ps qs'
  lt : ∀ a ∈ ps ++ qs', a < first + n
  entry_eq : ∀ a ∈ ps, c'.entry a = c.entry a
  values_eq : qs'.map (fun a => (c'.entry a).value)
    = List.replicate n default ++ qs.map (fun a => (c.entry a).value)
  table_eq : c'.table = c.table
  blocks_eq : c'.blocks = c.blocks
  max_eq : c'.maxElements = c.maxElements

theorem exists_added {first : Nat} (h : Shape c ps qs) (hlt : ∀ a ∈ ps ++ qs, a < first) :
    ∀ n, ∃ qs', Added c (Cache.addElements first n c) ps qs qs' first n := by
  intro n
  induction n with
  | zero => exact ⟨qs, h, hlt, fun _ _ => rfl, rfl, rfl, rfl, rfl⟩
  | succ n ih =>
    obtain ⟨qs', hadded⟩ := ih
    have hfresh : first + n ∉ ps ++ qs' := fun hmem => Nat.lt_irrefl _ (hadded.lt _ hmem)
    have hne : ∀ a ∈ ps ++ qs', a ≠ first + n := fun a ha hae => hfresh (hae ▸ ha)
    refine ⟨(first + n) :: qs', ?_, ?_, ?_, ?_, hadded.table_eq, hadded.blocks_eq,
      hadded.max_eq⟩
    · exact hadded.shape.push_free hfresh (Cache.next_addElement _ _)
        (Cache.prev_addElement _ _) rfl rfl rfl
    · intro a ha
      rcases List.mem_append.mp ha with ha | ha
      · have := hadded.lt a (List.mem_append_left _ ha)
        omega
      · rcases List.mem_cons.mp ha with rfl | ha
        · omega
        · have := hadded.lt a (List.mem_append_right _ ha)
          omega
    · intro a ha
      rw [← hadded.entry_eq a ha, Cache.addElements,
        Cache.entry_addElement_of_ne _ (hne a (List.mem_append_left _ ha))]
    · rw [List.map_cons, List.replicate_succ, List.cons_append, ← hadded.values_eq,
        Cache.addElements, Cache.entry_addElement_self]
      refine congrArg _ (List.map_congr_left fun a ha => ?_)
      rw [Cache.entry_addElement_of_ne _ (hne a (List.mem_append_right _ ha))]

end

/-! ## The iterator -/

theorem elementsFrom_eq : ∀ {l : List Nat} {h : Option Nat} {fuel : Nat},
    Chained c.next h l → l.length ≤ fuel → c.elementsFrom fuel h = l.map c.entry := by
  intro l
  induction l with
  | nil =>
    intro h fuel hl _
    rw [show h = none from hl, Cache.elementsFrom.eq_def]
    rfl
  | cons a l ih =>
    intro h fuel hl hfuel
    obtain ⟨hhead, hrest⟩ := hl
    obtain ⟨fuel, rfl⟩ := Nat.exists_eq_add_of_lt (Nat.lt_of_lt_of_le (Nat.succ_pos _) hfuel)
    rw [hhead, Nat.zero_add, Cache.elementsFrom, List.map_cons]
    refine congrArg _ (ih hrest ?_)
    rw [List.length_cons] at hfuel
    omega

/-- The loop of `Clear`. -/
theorem exists_clearFrom : ∀ {l qs : List Nat} {c : Cache K V} {h : Option Nat} {fuel : Nat},
    (l ++ qs).Nodup → Chained c.next h l → Chained c.next c.freeList qs →
    (∀ a ∈ qs, c.prev a = none) → l.length ≤ fuel →
    ∃ c', Cache.clearFrom fuel h c = some c' ∧ Chained c'.next c'.freeList (l.reverse ++ qs) ∧
      (∀ a ∈ l.reverse ++ qs, c'.prev a = none) ∧ Relinked c c' := by
  intro l
  induction l with
  | nil =>
    intro qs c h fuel _ hl hfree hprev _
    refine ⟨c, ?_, hfree, hprev, rfl, rfl, rfl, rfl⟩
    rw [show h = none from hl, Cache.clearFrom.eq_def]
  | cons e l ih =>
    intro qs c h fuel hnodup hl hfree hprev hfuel
    obtain ⟨hhead, hrest⟩ := hl
    obtain ⟨fuel, rfl⟩ := Nat.exists_eq_add_of_lt (Nat.lt_of_lt_of_le (Nat.succ_pos _) hfuel)
    obtain ⟨he, hnodup'⟩ := List.nodup_cons.mp hnodup
    have hl : ∀ a ∈ l, a ≠ e := fun a ha hae => he (List.mem_append_left _ (hae ▸ ha))
    have hqs : ∀ a ∈ qs, a ≠ e := fun a ha hae => he (List.mem_append_right _ (hae ▸ ha))
    have hchain : Chained (c.pushFreeList e).next (c.next e) l := by
      rw [c.next_pushFreeList]
      exact hrest.congr fun a ha => Function.update_of_ne (hl a ha) _ _
    have hfree' : Chained (c.pushFreeList e).next (c.pushFreeList e).freeList (e :: qs) := by
      refine ⟨rfl, ?_⟩
      rw [c.next_pushFreeList, Function.update_self]
      exact hfree.congr fun a ha => Function.update_of_ne (hqs a ha) _ _
    have hprev' : ∀ a ∈ e :: qs, (c.pushFreeList e).prev a = none := by
      intro a ha
      rw [c.prev_pushFreeList]
      rcases List.mem_cons.mp ha with rfl | ha
      · exact Function.update_self _ _ _
      · rw [Function.update_of_ne (hqs a ha)]
        exact hprev a ha
    have hfuel' : l.length ≤ 0 + fuel := by
      rw [List.length_cons] at hfuel
      omega
    obtain ⟨c', hc', hchained, hprevs, hrelinked⟩ :=
      ih (List.nodup_middle.mpr hnodup) hchain hfree' hprev' hfuel'
    refine ⟨c', ?_, ?_, ?_, (relinked_pushFreeList c e).trans hrelinked⟩
    · rw [hhead, Cache.clearFrom]
      exact hc'
    · rw [List.reverse_cons, List.append_assoc]
      exact hchained
    · rw [List.reverse_cons, List.append_assoc]
      exact hprevs

end LruPointers
