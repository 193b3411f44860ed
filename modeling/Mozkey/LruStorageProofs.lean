import Mozkey.LittleEndianProofs

/-! # LruStorage — slots, list nodes and the fingerprint map

    The storage is a mapped file: a header of three 32-bit words and an array of
    fixed-size slots (fingerprint, timestamp, value).  In memory it keeps a list
    of nodes, front first used last, each pointing to a slot, and a map from
    fingerprints to list nodes.

    The model keeps the three structures apart, as the source does: a node has an
    identity (the `std::list` iterator) and a slot index (the `char*` it holds),
    and the map takes fingerprints to node identities.  An operation that would
    dereference a missing node, or the end iterator, has no result: `none` is
    undefined behaviour.  Fingerprints stand for keys.

    This file has the operations and the file image; `openImage_encodeImage` says that
    opening the image of a well-formatted storage reads its slots back. -/

namespace MozkeyLru

open ByteString LittleEndian

/-- The limits and the sizes of the file. -/
def kMaxLruSize : Nat := 1000000
def kMaxValueSize : Nat := 1024
def kFileHeaderSize : Nat := 12
def kItemHeaderSize : Nat := 12

/-- `sizeof(size_t)` on the 64-bit targets. -/
def sizeofSizeT : Nat := 8

/-- One slot: fingerprint, last access time, value bytes. -/
structure Slot where
  fp : UInt64
  timestamp : UInt32
  value : Bytes
  deriving DecidableEq

/-- A slot that is not used. -/
def zeroSlot (valueSize : Nat) : Slot := ⟨0, 0, List.replicate valueSize 0⟩

/-- A list node: its identity and the slot it points to. -/
structure Node where
  id : Nat
  slot : Nat
  deriving DecidableEq

/-- `LruStorage`.  `nextItem` is `next_item_` counted in slots, so `next_item_ == end_`
    is `nextItem = slots.length`; `nextId` supplies identities for new nodes. -/
structure LruStorage where
  valueSize : Nat
  size : Nat
  seed : UInt32
  slots : List Slot
  nextItem : Nat
  lruList : List Node
  lruMap : AList (fun _ : UInt64 => Nat)
  nextId : Nat

/-! ## The file image -/

/-- The bytes of a slot. -/
def encodeSlot (s : Slot) : Bytes :=
  storeLE 8 s.fp.toNat ++ storeLE 4 s.timestamp.toNat ++ s.value

/-- The slot spelled by `item_size` bytes. -/
def decodeSlot (item : Bytes) : Slot :=
  ⟨UInt64.ofNat (loadLE (item.take 8)), UInt32.ofNat (loadLE ((item.drop 8).take 4)),
    item.drop 12⟩

/-- The first `count` pieces of `n` bytes. -/
def chunks (n : Nat) : Nat → Bytes → List Bytes
  | 0, _ => []
  | count + 1, bytes => bytes.take n :: chunks n count (bytes.drop n)

/-- The header and the slot array as bytes. -/
def encodeImage (valueSize size : Nat) (seed : UInt32) (slots : List Slot) : Bytes :=
  storeLE 4 valueSize ++ storeLE 4 size ++ storeLE 4 seed.toNat ++ slots.flatMap encodeSlot

/-- The slot at index `i`. -/
def slotAt (slots : List Slot) (i : Nat) : Slot := slots.getD i ⟨0, 0, []⟩

namespace LruStorage

/-- The file of a storage. -/
def image (s : LruStorage) : Bytes := encodeImage s.valueSize s.size s.seed s.slots

end LruStorage

/-- The slot indices in the order of the `stable_sort` by timestamp, latest first. -/
def sortByTimeStamp (slots : List Slot) : List Nat :=
  (List.range slots.length).insertionSort
    (fun i j => (slotAt slots j).timestamp ≤ (slotAt slots i).timestamp)

/-- The part of `Open` that builds the list, the map and `next_item_`. -/
def openSlots (valueSize size : Nat) (seed : UInt32) (slots : List Slot) : LruStorage :=
  let ary := sortByTimeStamp slots
  let live := ary.filter (fun i => (slotAt slots i).timestamp ≠ 0)
  { valueSize := valueSize
    size := size
    seed := seed
    slots := slots
    nextItem := (ary.find? (fun i => (slotAt slots i).timestamp = 0)).getD slots.length
    lruList := live.map (fun i => ⟨i, i⟩)
    lruMap := live.foldl (fun m i => m.insert (slotAt slots i).fp i) ∅
    nextId := slots.length }

/-- `LruStorage::Open(char*, size_t)`. -/
def openImage (bytes : Bytes) : Option LruStorage :=
  let valueSize := loadLE (bytes.take 4)
  let size := loadLE ((bytes.drop 4).take 4)
  let seed := UInt32.ofNat (loadLE ((bytes.drop 8).take 4))
  if valueSize % 4 ≠ 0 then none
  else if size = 0 ∨ size > kMaxLruSize then none
  else if valueSize = 0 ∨ valueSize > kMaxValueSize then none
  else if bytes.length ≠ kFileHeaderSize + (valueSize + kItemHeaderSize) * size then none
  else
    some (openSlots valueSize size seed
      ((chunks (valueSize + kItemHeaderSize) size (bytes.drop kFileHeaderSize)).map decodeSlot))

/-- `LruStorage::CreateStorageFile`: the bytes of the new file. -/
def createStorageFile (valueSize size : Nat) (seed : UInt32) : Option Bytes :=
  if valueSize = 0 ∨ valueSize > kMaxValueSize then none
  else if size = 0 ∨ size > kMaxLruSize then none
  else if valueSize % 4 ≠ 0 then none
  else some (encodeImage valueSize size seed (List.replicate size (zeroSlot valueSize)))

/-! ## The operations -/

/-- The bytes a `const char* value` of `n` bytes points to. -/
def readValue (value : Nat → UInt8) (n : Nat) : Bytes := (List.range n).map value

namespace LruStorage

/-- The slot a map iterator points to, `*it`; `none` when the node is gone. -/
def deref (s : LruStorage) (id : Nat) : Option Nat :=
  (s.lruList.find? (fun n => n.id = id)).map Node.slot

/-- `lru_list_.splice(lru_list_.begin(), lru_list_, it)`. -/
def moveToFront (l : List Node) (id : Nat) : List Node :=
  l.filter (fun n => n.id = id) ++ l.filter (fun n => n.id ≠ id)

/-- `*it = ptr` through the iterator `id`. -/
def repoint (l : List Node) (id slot : Nat) : List Node :=
  l.map (fun n => if n.id = id then { n with slot := slot } else n)

/-- `Update(ptr)`: stamp a slot with the clock. -/
def updateTime (s : LruStorage) (i : Nat) (now : UInt32) : List Slot :=
  s.slots.set i { slotAt s.slots i with timestamp := now }

/-- `Update(ptr, fp, value, value_size)`. -/
def updateItem (s : LruStorage) (i : Nat) (now : UInt32) (fp : UInt64) (value : Nat → UInt8) :
    List Slot :=
  s.slots.set i ⟨fp, now, readValue value s.valueSize⟩

/-- `Touch`. -/
def touch (s : LruStorage) (now : UInt32) (fp : UInt64) : Option (Bool × LruStorage) :=
  match s.lruMap.lookup fp with
  | none => some (false, s)
  | some id =>
    match s.deref id with
    | none => none
    | some i =>
      some (true, { s with
        slots := s.updateTime i now
        lruList := moveToFront s.lruList id })

/-- The branch of `Insert` and `TryInsert` for a fingerprint that is in the map. -/
def overwrite (s : LruStorage) (now : UInt32) (fp : UInt64) (value : Nat → UInt8) (id : Nat) :
    Option (Bool × LruStorage) :=
  match s.deref id with
  | none => none
  | some i =>
    some (true, { s with
      slots := s.updateItem i now fp value
      lruList := moveToFront s.lruList id })

/-- `Insert`.  A null `value` is refused. -/
def insert (s : LruStorage) (now : UInt32) (fp : UInt64) (value : Option (Nat → UInt8)) :
    Option (Bool × LruStorage) :=
  match value with
  | none => some (false, s)
  | some value =>
    match s.lruMap.lookup fp with
    | some id => s.overwrite now fp value id
    | none =>
      if s.lruMap.entries.length ≥ s.size ∨ s.nextItem = s.slots.length then
        -- drop the least recently used element and reuse its node and slot
        match s.lruList.getLast? with
        | none => none
        | some node =>
          some (true, { s with
            slots := s.updateItem node.slot now fp value
            lruList := moveToFront s.lruList node.id
            lruMap := (s.lruMap.erase (slotAt s.slots node.slot).fp).insert fp node.id })
      else if s.nextItem < s.slots.length then
        -- take a new slot
        some (true, { s with
          slots := s.updateItem s.nextItem now fp value
          lruList := ⟨s.nextId, s.nextItem⟩ :: s.lruList
          lruMap := s.lruMap.insert fp s.nextId
          nextItem := s.nextItem + 1
          nextId := s.nextId + 1 })
      else some (false, s)

/-- `TryInsert`: only where the key is stored. -/
def tryInsert (s : LruStorage) (now : UInt32) (fp : UInt64) (value : Nat → UInt8) :
    Option (Bool × LruStorage) :=
  match s.lruMap.lookup fp with
  | some id => s.overwrite now fp value id
  | none => some (true, s)

/-- `Delete(fp, it)`: the last slot before `next_item_` fills the hole. -/
def deleteNode (s : LruStorage) (fp : UInt64) (node : Node) : Option (Bool × LruStorage) :=
  if s.nextItem < 1 then some (false, s)
  else
    let next := s.nextItem - 1
    let lruMap := s.lruMap.erase fp
    let lruList := s.lruList.filter (fun n => n.id ≠ node.id)
    if next = node.slot then
      some (true, { s with
        slots := s.slots.set next (zeroSlot s.valueSize)
        nextItem := next, lruMap := lruMap, lruList := lruList })
    else
      let moved := slotAt s.slots next
      match lruMap.lookup moved.fp with
      | none => none
      | some id =>
        if lruList.any (fun n => n.id = id) then
          some (true, { s with
            slots := (s.slots.set node.slot moved).set next (zeroSlot s.valueSize)
            nextItem := next
            lruMap := lruMap
            lruList := repoint lruList id node.slot })
        else none

/-- `Delete(key)`. -/
def delete (s : LruStorage) (fp : UInt64) : Option (Bool × LruStorage) :=
  match s.lruMap.lookup fp with
  | none => some (true, s)
  | some id =>
    match s.deref id with
    | none => none
    | some i => s.deleteNode fp ⟨id, i⟩

/-- The loop of `DeleteElementsBefore`, with `num_deleted`.  Every round either ends
    the loop or removes a node, so the list length is fuel enough. -/
def deleteElementsBeforeLoop (timestamp : UInt32) :
    Nat → LruStorage → Nat → Option (Nat × LruStorage)
  | 0, s, numDeleted => some (numDeleted, s)
  | fuel + 1, s, numDeleted =>
    match s.lruList.getLast? with
    | none => some (numDeleted, s)
    | some node =>
      if (slotAt s.slots node.slot).timestamp ≥ timestamp then some (numDeleted, s)
      else
        match s.deleteNode (slotAt s.slots node.slot).fp node with
        | none => none
        | some (false, s') => some (numDeleted, s')
        | some (true, s') =>
          deleteElementsBeforeLoop timestamp fuel s' (numDeleted + 1)

/-- `DeleteElementsBefore`. -/
def deleteElementsBefore (s : LruStorage) (timestamp : UInt32) : Option (Nat × LruStorage) :=
  deleteElementsBeforeLoop timestamp s.lruList.length s 0

/-- `Clear`: zero the file from an offset on and open it again.  The offset is the
    sum of the sizes of the members `value_size_`, `size_` and `seed_`, two of which
    are `size_t`. -/
def clear (s : LruStorage) : Option (Bool × LruStorage) :=
  if s.lruList = [] then some (true, s)
  else
    let offset := sizeofSizeT + sizeofSizeT + 4
    if offset ≥ s.image.length then some (false, s)
    else
      (openImage (s.image.take offset ++
        List.replicate (s.image.length - offset) 0)).map (fun s' => (true, s'))

/-- The loop of `Merge` that drops slots whose fingerprint was `seen`. -/
def dropSeen : List UInt64 → List Slot → List Slot
  | _, [] => []
  | seen, slot :: rest =>
    if slot.fp ∈ seen then dropSeen seen rest else slot :: dropSeen (slot.fp :: seen) rest

/-- The slots `Merge` writes back. -/
def mergedSlots (s other : LruStorage) : List Slot :=
  let ary := (s.slots ++ other.slots).insertionSort (fun a b => b.timestamp ≤ a.timestamp)
  let buf := (dropSeen [] ary).take s.slots.length
  buf ++ List.replicate (s.slots.length - buf.length) (zeroSlot s.valueSize)

/-- `Merge(const LruStorage&)`. -/
def merge (s other : LruStorage) : Option (Bool × LruStorage) :=
  if other.valueSize ≠ s.valueSize then some (false, s)
  else if s.seed ≠ other.seed then some (false, s)
  else
    (openImage (encodeImage s.valueSize s.size s.seed (s.mergedSlots other))).map
      (fun s' => (true, s'))

end LruStorage

/-! ## Opening an image -/

/-- The header fields and the slots fit the file format. -/
structure Formatted (valueSize size : Nat) (slots : List Slot) : Prop where
  valueSize_mod : valueSize % 4 = 0
  valueSize_pos : valueSize ≠ 0
  valueSize_le : valueSize ≤ kMaxValueSize
  size_pos : size ≠ 0
  size_le : size ≤ kMaxLruSize
  length_eq : slots.length = size
  value_length : ∀ s ∈ slots, s.value.length = valueSize

theorem length_encodeSlot (s : Slot) :
    (encodeSlot s).length = s.value.length + kItemHeaderSize := by
  simp only [encodeSlot, List.length_append, length_storeLE, kItemHeaderSize]
  omega

theorem decodeSlot_encodeSlot (s : Slot) : decodeSlot (encodeSlot s) = s := by
  have h8 : (encodeSlot s).take 8 = storeLE 8 s.fp.toNat := by
    rw [encodeSlot, List.append_assoc,
      List.take_append_of_le_length (by rw [length_storeLE]),
      List.take_of_length_le (by rw [length_storeLE])]
  have hd8 : (encodeSlot s).drop 8 = storeLE 4 s.timestamp.toNat ++ s.value := by
    rw [encodeSlot, List.append_assoc, List.drop_left' (length_storeLE _ _)]
  have h4 : ((encodeSlot s).drop 8).take 4 = storeLE 4 s.timestamp.toNat := by
    rw [hd8, List.take_left' (length_storeLE _ _)]
  have hd12 : (encodeSlot s).drop 12 = s.value := by
    rw [encodeSlot, List.drop_left' (by rw [List.length_append, length_storeLE, length_storeLE])]
  rw [decodeSlot, h8, h4, hd12, loadLE_storeLE (by exact s.fp.toNat_lt),
    loadLE_storeLE (by exact s.timestamp.toNat_lt), UInt64.ofNat_toNat, UInt32.ofNat_toNat]

theorem chunks_flatMap {n : Nat} (f : Slot → Bytes) :
    ∀ slots : List Slot, (∀ s ∈ slots, (f s).length = n) →
      chunks n slots.length (slots.flatMap f) = slots.map f := by
  intro slots
  induction slots with
  | nil => intro _; rfl
  | cons s slots ih =>
    intro h
    have hs : (f s).length = n := h s List.mem_cons_self
    rw [List.length_cons, List.flatMap_cons, chunks, List.take_left' hs, List.drop_left' hs,
      ih (fun s' hs' => h s' (List.mem_cons_of_mem _ hs')), List.map_cons]

theorem length_flatMap_encodeSlot {n : Nat} : ∀ slots : List Slot,
    (∀ s ∈ slots, s.value.length = n) →
    (slots.flatMap encodeSlot).length = (n + kItemHeaderSize) * slots.length := by
  intro slots
  induction slots with
  | nil => intro _; rfl
  | cons s slots ih =>
    intro h
    rw [List.flatMap_cons, List.length_append, length_encodeSlot, h s List.mem_cons_self,
      ih (fun s' hs' => h s' (List.mem_cons_of_mem _ hs')), List.length_cons, Nat.mul_add]
    omega

/-- **OPENING AN IMAGE READS ITS SLOTS BACK.** -/
theorem openImage_encodeImage {valueSize size : Nat} {seed : UInt32} {slots : List Slot}
    (h : Formatted valueSize size slots) :
    openImage (encodeImage valueSize size seed slots)
      = some (openSlots valueSize size seed slots) := by
  have hvs : valueSize < 256 ^ 4 :=
    Nat.lt_of_le_of_lt h.valueSize_le (by decide)
  have hsz : size < 256 ^ 4 := Nat.lt_of_le_of_lt h.size_le (by decide)
  have h0 : (encodeImage valueSize size seed slots).take 4 = storeLE 4 valueSize := by
    rw [encodeImage, List.append_assoc, List.append_assoc,
      List.take_left' (length_storeLE _ _)]
  have h4 : ((encodeImage valueSize size seed slots).drop 4).take 4 = storeLE 4 size := by
    rw [encodeImage, List.append_assoc, List.append_assoc,
      List.drop_left' (length_storeLE _ _), List.take_left' (length_storeLE _ _)]
  have h8 : ((encodeImage valueSize size seed slots).drop 8).take 4 = storeLE 4 seed.toNat := by
    rw [encodeImage, List.append_assoc,
      List.drop_left' (by rw [List.length_append, length_storeLE, length_storeLE]),
      List.take_left' (length_storeLE _ _)]
  have h12 : (encodeImage valueSize size seed slots).drop kFileHeaderSize
      = slots.flatMap encodeSlot := by
    rw [encodeImage, List.drop_left' (by
      simp only [List.length_append, length_storeLE, kFileHeaderSize])]
  have hlen : (encodeImage valueSize size seed slots).length
      = kFileHeaderSize + (valueSize + kItemHeaderSize) * size := by
    simp only [encodeImage, List.length_append, length_storeLE, kFileHeaderSize]
    rw [length_flatMap_encodeSlot slots h.value_length, h.length_eq]
  have hchunks : (chunks (valueSize + kItemHeaderSize) size (slots.flatMap encodeSlot)).map
      decodeSlot = slots := by
    have := chunks_flatMap encodeSlot slots (n := valueSize + kItemHeaderSize)
      (fun s hs => by rw [length_encodeSlot, h.value_length s hs])
    rw [← h.length_eq, this, List.map_map]
    exact (List.map_congr_left (fun s _ => decodeSlot_encodeSlot s)).trans (List.map_id _)
  rw [openImage]
  simp only [h0, h4, h8, h12, hchunks, loadLE_storeLE hvs, loadLE_storeLE hsz,
    loadLE_storeLE (show seed.toNat < 256 ^ 4 from seed.toNat_lt), UInt32.ofNat_toNat]
  rw [if_neg (not_not.mpr h.valueSize_mod),
    if_neg (not_or.mpr ⟨h.size_pos, Nat.not_lt.mpr h.size_le⟩),
    if_neg (not_or.mpr ⟨h.valueSize_pos, Nat.not_lt.mpr h.valueSize_le⟩),
    if_neg (not_not.mpr hlen)]

end MozkeyLru
