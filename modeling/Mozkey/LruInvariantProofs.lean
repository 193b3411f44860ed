import Mozkey.LruStorageProofs

/-! # LruStorage — what a step can do to the linked structures

    `Linked s e` ties the list, the map and the slot array of a storage together.
    The live slots (those a node points to) are the prefix before `next_item_` and,
    for the images of `LruImageProofs`, a suffix from `e` on; `e = size` is the
    ordinary case without a suffix.

    The route:

    * `Effect` lists the five things an operation can do to the structures;
    * `Linked.effect` says that each of them keeps the storage linked. -/

namespace MozkeyLru

open ByteString

theorem slotAt_set {slots : List Slot} {i : Nat} (h : i < slots.length) (c : Slot) (j : Nat) :
    slotAt (slots.set i c) j = if j = i then c else slotAt slots j := by
  rw [slotAt, slotAt, List.getD_eq_getElem?_getD, List.getD_eq_getElem?_getD,
    List.getElem?_set]
  by_cases hij : i = j
  · rw [if_pos hij, if_pos (hij ▸ h), if_pos hij.symm]; rfl
  · rw [if_neg hij, if_neg (fun h' => hij h'.symm)]

namespace LruStorage

/-- The fingerprint in the slot of a node. -/
def fpOf (s : LruStorage) (n : Node) : UInt64 := (slotAt s.slots n.slot).fp

/-- The timestamp in the slot of a node. -/
def timeOf (s : LruStorage) (n : Node) : UInt32 := (slotAt s.slots n.slot).timestamp

/-- A slot is live when a list node points to it. -/
def Live (s : LruStorage) (i : Nat) : Prop := ∃ n ∈ s.lruList, n.slot = i

end LruStorage

open LruStorage

/-- The list, the map and the slots fit together; the live slots are
    `[0, next_item_)` and `[e, size)`. -/
structure Linked (s : LruStorage) (e : Nat) : Prop where
  length_eq : s.slots.length = s.size
  next_le : s.nextItem ≤ e
  e_le : e ≤ s.size
  live_iff : ∀ i, s.Live i ↔ i < s.nextItem ∨ (e ≤ i ∧ i < s.size)
  slots_nodup : (s.lruList.map Node.slot).Nodup
  ids_nodup : (s.lruList.map Node.id).Nodup
  ids_lt : ∀ n ∈ s.lruList, n.id < s.nextId
  map_iff : ∀ fp id, s.lruMap.lookup fp = some id ↔
    ∃ n ∈ s.lruList, n.id = id ∧ s.fpOf n = fp

namespace Linked

variable {s : LruStorage} {e : Nat}

variable {m n : Node}

theorem eq_of_id (h : Linked s e) (hm : m ∈ s.lruList) (hn : n ∈ s.lruList) (hid : m.id = n.id) :
    m = n :=
  List.inj_on_of_nodup_map h.ids_nodup hm hn hid

theorem eq_of_slot (h : Linked s e) (hm : m ∈ s.lruList) (hn : n ∈ s.lruList)
    (hslot : m.slot = n.slot) : m = n :=
  List.inj_on_of_nodup_map h.slots_nodup hm hn hslot

theorem lookup_node (h : Linked s e) (hn : n ∈ s.lruList) :
    s.lruMap.lookup (s.fpOf n) = some n.id :=
  (h.map_iff _ _).mpr ⟨n, hn, rfl, rfl⟩

theorem eq_of_fp (h : Linked s e) (hm : m ∈ s.lruList) (hn : n ∈ s.lruList)
    (hfp : s.fpOf m = s.fpOf n) : m = n := by
  have hm' := h.lookup_node hm
  rw [hfp, h.lookup_node hn] at hm'
  exact h.eq_of_id hm hn (Option.some.inj hm').symm

theorem slot_lt (h : Linked s e) (hn : n ∈ s.lruList) :
    n.slot < s.slots.length := by
  rw [h.length_eq]
  have := h.next_le
  have := h.e_le
  rcases (h.live_iff n.slot).mp ⟨n, hn, rfl⟩ with h1 | h2
  · omega
  · exact h2.2

theorem deref_node (h : Linked s e) (hn : n ∈ s.lruList) :
    s.deref n.id = some n.slot := by
  rw [LruStorage.deref]
  cases hf : s.lruList.find? (fun m => m.id = n.id) with
  | none =>
    have := List.find?_eq_none.mp hf n hn
    exact absurd (decide_eq_true rfl) this
  | some m =>
    have hid : m.id = n.id := by
      have := List.find?_some hf
      exact of_decide_eq_true this
    have hmn : m = n := h.eq_of_id (List.mem_of_find?_eq_some hf) hn hid
    rw [hmn]
    rfl

theorem length_lruList (h : Linked s e) :
    s.lruList.length = s.nextItem + (s.size - e) := by
  have hperm : (s.lruList.map Node.slot).Perm
      (List.range s.nextItem ++ List.range' e (s.size - e)) := by
    refine (List.perm_ext_iff_of_nodup h.slots_nodup ?_).mpr ?_
    · refine List.nodup_append.mpr ⟨List.nodup_range, List.nodup_range', ?_⟩
      intro a ha b hb hab
      have h1 := List.mem_range.mp ha
      have h2 := List.mem_range'_1.mp hb
      have := h.next_le
      omega
    · intro i
      rw [List.mem_map, List.mem_append, List.mem_range, List.mem_range'_1]
      have := h.e_le
      have hlive := h.live_iff i
      rw [LruStorage.Live] at hlive
      rw [hlive]
      constructor
      · rintro (h1 | h2)
        · exact Or.inl h1
        · exact Or.inr ⟨h2.1, by omega⟩
      · rintro (h1 | h2)
        · exact Or.inl h1
        · exact Or.inr ⟨h2.1, by omega⟩
  have := hperm.length_eq
  rw [List.length_map, List.length_append, List.length_range, List.length_range'] at this
  exact this

theorem length_lruMap (h : Linked s e) :
    s.lruMap.entries.length = s.lruList.length := by
  have hnodup : (s.lruList.map s.fpOf).Nodup :=
    List.Nodup.map_on (fun m hm n hn hfp => h.eq_of_fp hm hn hfp) h.ids_nodup.of_map
  have hperm : s.lruMap.keys.Perm (s.lruList.map s.fpOf) := by
    refine (List.perm_ext_iff_of_nodup s.lruMap.keys_nodup hnodup).mpr ?_
    intro fp
    rw [← AList.mem_keys, ← AList.lookup_isSome, Option.isSome_iff_exists, List.mem_map]
    constructor
    · rintro ⟨id, hid⟩
      obtain ⟨n, hn, -, hfp⟩ := (h.map_iff fp id).mp hid
      exact ⟨n, hn, hfp⟩
    · rintro ⟨n, hn, hfp⟩
      exact ⟨n.id, (h.map_iff fp n.id).mpr ⟨n, hn, rfl, hfp⟩⟩
  have := hperm.length_eq
  rw [List.length_map] at this
  rw [← this, AList.keys, List.keys, List.length_map]

theorem node_of_lookup (h : Linked s e) {fp : UInt64} {id : Nat}
    (hl : s.lruMap.lookup fp = some id) :
    ∃ n ∈ s.lruList, n.id = id ∧ s.fpOf n = fp ∧ s.deref id = some n.slot := by
  obtain ⟨n, hn, hid, hfp⟩ := (h.map_iff fp id).mp hl
  exact ⟨n, hn, hid, hfp, hid ▸ h.deref_node hn⟩

end Linked

/-! ## The effects -/

namespace LruStorage

/-- A live slot gets new content and its node moves to the front. -/
def refreshed (s : LruStorage) (x : Node) (c : Slot)
    (lruMap : AList (fun _ : UInt64 => Nat)) : LruStorage :=
  { s with
    slots := s.slots.set x.slot c
    lruList := moveToFront s.lruList x.id
    lruMap := lruMap }

/-- The slot at `next_item_` becomes live under a new node at the front. -/
def grown (s : LruStorage) (c : Slot) : LruStorage :=
  { s with
    slots := s.slots.set s.nextItem c
    lruList := ⟨s.nextId, s.nextItem⟩ :: s.lruList
    lruMap := s.lruMap.insert c.fp s.nextId
    nextItem := s.nextItem + 1
    nextId := s.nextId + 1 }

/-- The node of the last slot before `next_item_` goes away with its slot. -/
def removedLast (s : LruStorage) (x : Node) : LruStorage :=
  { s with
    slots := s.slots.set x.slot (zeroSlot s.valueSize)
    nextItem := s.nextItem - 1
    lruMap := s.lruMap.erase (s.fpOf x)
    lruList := s.lruList.filter (fun n => n.id ≠ x.id) }

/-- The node `x` goes away and the last slot, of node `m`, moves into its slot. -/
def removedMoved (s : LruStorage) (x m : Node) : LruStorage :=
  { s with
    slots := (s.slots.set x.slot (slotAt s.slots m.slot)).set m.slot (zeroSlot s.valueSize)
    nextItem := s.nextItem - 1
    lruMap := s.lruMap.erase (s.fpOf x)
    lruList := repoint (s.lruList.filter (fun n => n.id ≠ x.id)) m.id x.slot }

end LruStorage

/-- What one operation can do to a linked storage at clock reading `now`. -/
inductive Effect (s : LruStorage) (now : UInt32) : LruStorage → Prop where
  | stay : Effect s now s
  | stamp (x : Node) (c : Slot) : x ∈ s.lruList → c.fp = s.fpOf x → c.timestamp = now →
      c.value = (slotAt s.slots x.slot).value ∨ c.value.length = s.valueSize →
      Effect s now (s.refreshed x c s.lruMap)
  | replace (x : Node) (c : Slot) : s.lruList.getLast? = some x →
      s.lruMap.lookup c.fp = none → c.timestamp = now → c.value.length = s.valueSize →
      Effect s now (s.refreshed x c ((s.lruMap.erase (s.fpOf x)).insert c.fp x.id))
  | grow (c : Slot) : s.lruMap.lookup c.fp = none → s.lruList.length < s.size →
      s.nextItem < s.size → c.timestamp = now → c.value.length = s.valueSize →
      Effect s now (s.grown c)
  | removeLast (x : Node) : x ∈ s.lruList → x.slot + 1 = s.nextItem →
      Effect s now (s.removedLast x)
  | removeMoved (x m : Node) : x ∈ s.lruList → m ∈ s.lruList → x ≠ m →
      m.slot + 1 = s.nextItem → Effect s now (s.removedMoved x m)

theorem length_readValue (value : Nat → UInt8) (n : Nat) : (readValue value n).length = n := by
  rw [readValue, List.length_map, List.length_range]

section Operations

variable {s : LruStorage} {e : Nat}

theorem touch_effect (h : Linked s e) (now : UInt32) (fp : UInt64) :
    ∃ b s', s.touch now fp = some (b, s') ∧ Effect s now s' := by
  rw [touch]
  cases hl : s.lruMap.lookup fp with
  | none => exact ⟨false, s, rfl, .stay⟩
  | some id =>
    obtain ⟨n, hn, rfl, hfp, hd⟩ := h.node_of_lookup hl
    refine ⟨true, s.refreshed n { slotAt s.slots n.slot with timestamp := now } s.lruMap,
      ?_, .stamp n _ hn rfl rfl (Or.inl rfl)⟩
    dsimp only
    rw [hd]
    rfl

theorem overwrite_effect (h : Linked s e) (now : UInt32) {fp : UInt64} (value : Nat → UInt8)
    {id : Nat} (hl : s.lruMap.lookup fp = some id) :
    ∃ b s', s.overwrite now fp value id = some (b, s') ∧ Effect s now s' := by
  obtain ⟨n, hn, rfl, hfp, hd⟩ := h.node_of_lookup hl
  refine ⟨true, s.refreshed n ⟨fp, now, readValue value s.valueSize⟩ s.lruMap, ?_,
    .stamp n _ hn hfp.symm rfl (Or.inr (length_readValue _ _))⟩
  rw [overwrite, hd]
  rfl

theorem tryInsert_effect (h : Linked s e) (now : UInt32) (fp : UInt64) (value : Nat → UInt8) :
    ∃ b s', s.tryInsert now fp value = some (b, s') ∧ Effect s now s' := by
  rw [tryInsert]
  cases hl : s.lruMap.lookup fp with
  | none => exact ⟨true, s, rfl, .stay⟩
  | some id => exact overwrite_effect h now value hl

theorem insert_effect (h : Linked s e) (hpos : 0 < s.size) (now : UInt32) (fp : UInt64)
    (value : Option (Nat → UInt8)) :
    ∃ b s', s.insert now fp value = some (b, s') ∧ Effect s now s' := by
  cases value with
  | none => exact ⟨false, s, rfl, .stay⟩
  | some value =>
    rw [LruStorage.insert]
    cases hl : s.lruMap.lookup fp with
    | some id => exact overwrite_effect h now value hl
    | none =>
      have hlen := h.length_lruList
      have hmap := h.length_lruMap
      have hne := h.next_le
      have hes := h.e_le
      have hsl := h.length_eq
      dsimp only
      by_cases hfull : s.lruMap.entries.length ≥ s.size ∨ s.nextItem = s.slots.length
      · rw [if_pos hfull]
        cases hlast : s.lruList.getLast? with
        | none =>
          rw [List.getLast?_eq_none_iff] at hlast
          rw [hlast, List.length_nil] at hlen
          rw [hlast, List.length_nil] at hmap
          omega
        | some x =>
          exact ⟨true, _, rfl, .replace x ⟨fp, now, readValue value s.valueSize⟩ hlast hl
            rfl (length_readValue _ _)⟩
      · rw [if_neg hfull, if_pos (by omega)]
        exact ⟨true, _, rfl, .grow ⟨fp, now, readValue value s.valueSize⟩ hl (by omega)
          (by omega) rfl (length_readValue _ _)⟩

/-- `Delete(fp, it)` of a node fails when `next_item_` is at the beginning; otherwise the node goes
    away, with the last slot or with its own one, into which the last one moves. -/
theorem deleteNode_cases (h : Linked s e) {x : Node} (hx : x ∈ s.lruList) :
    (s.nextItem = 0 ∧ s.deleteNode (s.fpOf x) x = some (false, s)) ∨
    (x.slot + 1 = s.nextItem ∧ s.deleteNode (s.fpOf x) x = some (true, s.removedLast x)) ∨
    ∃ m ∈ s.lruList, x ≠ m ∧ m.slot + 1 = s.nextItem ∧
      s.deleteNode (s.fpOf x) x = some (true, s.removedMoved x m) := by
  rw [deleteNode]
  by_cases h0 : s.nextItem < 1
  · rw [if_pos h0]
    exact Or.inl ⟨by omega, rfl⟩
  · rw [if_neg h0]
    refine Or.inr ?_
    dsimp only
    by_cases hlast : s.nextItem - 1 = x.slot
    · rw [if_pos hlast, removedLast, ← hlast]
      exact Or.inl ⟨by omega, rfl⟩
    · rw [if_neg hlast]
      -- the node of the last slot, which is another node
      obtain ⟨m, hm, hslot⟩ := (h.live_iff (s.nextItem - 1)).mpr (Or.inl (by omega))
      have hxm : x ≠ m := fun heq => hlast (by rw [heq, hslot])
      have hfpne : s.fpOf m ≠ s.fpOf x := fun heq => hxm (h.eq_of_fp hx hm heq.symm)
      have hmid : m.id ≠ x.id := fun hid => hxm (h.eq_of_id hx hm hid.symm)
      have hlook : (s.lruMap.erase (s.fpOf x)).lookup (slotAt s.slots (s.nextItem - 1)).fp
          = some m.id := by
        rw [← hslot]
        show (s.lruMap.erase (s.fpOf x)).lookup (s.fpOf m) = some m.id
        rw [AList.lookup_erase_ne hfpne, h.lookup_node hm]
      have hany : (s.lruList.filter (fun n => n.id ≠ x.id)).any (fun n => n.id = m.id) = true :=
        List.any_eq_true.mpr ⟨m, List.mem_filter.mpr ⟨hm, by simpa using hmid⟩, by simp⟩
      rw [hlook]
      dsimp only
      rw [if_pos hany]
      refine Or.inr ⟨m, hm, hxm, by omega, ?_⟩
      rw [removedMoved, hslot]

/-- `Delete(fp, it)` is defined on a node; it fails only when `next_item_` is at the
    beginning, and otherwise removes the node. -/
theorem deleteNode_effect (h : Linked s e) {x : Node} (hx : x ∈ s.lruList) (now : UInt32) :
    (s.nextItem = 0 ∧ s.deleteNode (s.fpOf x) x = some (false, s)) ∨
    (0 < s.nextItem ∧ ∃ s', s.deleteNode (s.fpOf x) x = some (true, s') ∧ Effect s now s' ∧
      s'.lruList.length + 1 = s.lruList.length) := by
  have hcount : (s.lruList.filter (fun n => n.id ≠ x.id)).length + 1 = s.lruList.length := by
    have heq : s.lruList.filter (fun n => n.id ≠ x.id) = s.lruList.erase x := by
      rw [(h.ids_nodup.of_map).erase_eq_filter]
      refine List.filter_congr ?_
      intro n hn
      by_cases hnx : n = x
      · rw [hnx]; simp
      · have : n.id ≠ x.id := fun hid => hnx (h.eq_of_id hn hx hid)
        simp [this, hnx]
    rw [heq, List.length_erase_of_mem hx]
    have := List.length_pos_of_mem hx
    omega
  rcases deleteNode_cases h hx with hzero | ⟨hlast, hdel⟩ | ⟨m, hm, hxm, hlast, hdel⟩
  · exact Or.inl hzero
  · exact Or.inr ⟨by omega, _, hdel, .removeLast x hx hlast, hcount⟩
  · refine Or.inr ⟨by omega, _, hdel, .removeMoved x m hx hm hxm hlast, ?_⟩
    show (repoint _ _ _).length + 1 = _
    rw [repoint, List.length_map]
    exact hcount

theorem delete_effect (h : Linked s e) (now : UInt32) (fp : UInt64) :
    ∃ b s', s.delete fp = some (b, s') ∧ Effect s now s' := by
  rw [delete]
  cases hl : s.lruMap.lookup fp with
  | none => exact ⟨true, s, rfl, .stay⟩
  | some id =>
    obtain ⟨n, hn, rfl, hfp, hd⟩ := h.node_of_lookup hl
    dsimp only
    rw [hd, ← hfp]
    rcases deleteNode_effect h hn now with ⟨-, hdel⟩ | ⟨-, s', hdel, heff, -⟩
    · exact ⟨false, s, hdel, .stay⟩
    · exact ⟨true, s', hdel, heff⟩

/-- `DeleteElementsBefore` is defined and is a run of removals, once removals keep the
    storage linked. -/
theorem deleteElementsBeforeLoop_effects (now : UInt32) (timestamp : UInt32)
    (hkeep : ∀ s s', Linked s e → Effect s now s' → Linked s' e) :
    ∀ fuel (s : LruStorage) numDeleted, Linked s e →
      ∃ n s', deleteElementsBeforeLoop timestamp fuel s numDeleted = some (n, s') ∧
        Relation.ReflTransGen (fun a b => Effect a now b) s s' := by
  intro fuel
  induction fuel with
  | zero => intro s numDeleted _; exact ⟨numDeleted, s, rfl, .refl⟩
  | succ fuel ih =>
    intro s numDeleted h
    rw [deleteElementsBeforeLoop]
    cases hlast : s.lruList.getLast? with
    | none => exact ⟨numDeleted, s, rfl, .refl⟩
    | some x =>
      have hx : x ∈ s.lruList := List.mem_of_getLast? hlast
      dsimp only
      by_cases hts : (slotAt s.slots x.slot).timestamp ≥ timestamp
      · rw [if_pos hts]
        exact ⟨numDeleted, s, rfl, .refl⟩
      · rw [if_neg hts]
        rcases deleteNode_effect h hx now with ⟨-, hdel⟩ | ⟨-, s', hdel, heff, -⟩
        · rw [show (slotAt s.slots x.slot).fp = s.fpOf x from rfl, hdel]
          exact ⟨numDeleted, s, rfl, .refl⟩
        · rw [show (slotAt s.slots x.slot).fp = s.fpOf x from rfl, hdel]
          obtain ⟨n, s'', hrun, hrest⟩ := ih s' (numDeleted + 1) (hkeep s s' h heff)
          exact ⟨n, s'', hrun, .head heff hrest⟩

end Operations

/-! ## Every effect keeps the storage linked -/

theorem moveToFront_perm (l : List Node) (id : Nat) : (moveToFront l id).Perm l := by
  have := List.filter_append_perm (fun n : Node => decide (n.id = id)) l
  rw [moveToFront]
  simpa only [decide_not] using this

theorem mem_moveToFront {l : List Node} {id : Nat} {n : Node} :
    n ∈ moveToFront l id ↔ n ∈ l :=
  (moveToFront_perm l id).mem_iff

section Preservation

variable {s : LruStorage} {e : Nat}

variable {x n : Node}

theorem slotAt_refreshed (h : Linked s e) (hx : x ∈ s.lruList) (c : Slot)
    (m : AList (fun _ : UInt64 => Nat)) (hn : n ∈ s.lruList) :
    slotAt (s.refreshed x c m).slots n.slot = if n = x then c else slotAt s.slots n.slot := by
  show slotAt (s.slots.set x.slot c) n.slot = _
  rw [slotAt_set (h.slot_lt hx)]
  by_cases hnx : n = x
  · rw [if_pos (by rw [hnx]), if_pos hnx]
  · rw [if_neg (fun hslot => hnx (h.eq_of_slot hn hx hslot)), if_neg hnx]

theorem fpOf_refreshed (h : Linked s e) (hx : x ∈ s.lruList) (c : Slot)
    (m : AList (fun _ : UInt64 => Nat)) (hn : n ∈ s.lruList) :
    (s.refreshed x c m).fpOf n = if n = x then c.fp else s.fpOf n := by
  rw [fpOf, slotAt_refreshed h hx c m hn]
  by_cases hnx : n = x
  · rw [if_pos hnx, if_pos hnx]
  · rw [if_neg hnx, if_neg hnx]
    rfl

variable {c : Slot}

theorem Linked.refreshed (h : Linked s e) {m : AList (fun _ : UInt64 => Nat)}
    (hm : ∀ fp id, m.lookup fp = some id ↔
      ∃ n ∈ s.lruList, n.id = id ∧ (s.refreshed x c m).fpOf n = fp) :
    Linked (s.refreshed x c m) e where
  length_eq := by
    show (s.slots.set x.slot c).length = s.size
    rw [List.length_set]
    exact h.length_eq
  next_le := h.next_le
  e_le := h.e_le
  live_iff := by
    intro i
    refine Iff.trans ?_ (h.live_iff i)
    constructor
    · rintro ⟨n, hn, hslot⟩
      exact ⟨n, mem_moveToFront.mp hn, hslot⟩
    · rintro ⟨n, hn, hslot⟩
      exact ⟨n, mem_moveToFront.mpr hn, hslot⟩
  slots_nodup := (((moveToFront_perm s.lruList x.id).map Node.slot).nodup_iff).mpr h.slots_nodup
  ids_nodup := (((moveToFront_perm s.lruList x.id).map Node.id).nodup_iff).mpr h.ids_nodup
  ids_lt := fun n hn => h.ids_lt n (mem_moveToFront.mp hn)
  map_iff := by
    intro fp id
    rw [show (s.refreshed x c m).lruMap.lookup fp = m.lookup fp from rfl, hm fp id]
    constructor
    · rintro ⟨n, hn, hid, hfp⟩
      exact ⟨n, mem_moveToFront.mpr hn, hid, hfp⟩
    · rintro ⟨n, hn, hid, hfp⟩
      exact ⟨n, mem_moveToFront.mp hn, hid, hfp⟩

theorem Linked.stamp (h : Linked s e) (hx : x ∈ s.lruList) (hc : c.fp = s.fpOf x) :
    Linked (s.refreshed x c s.lruMap) e := by
  refine h.refreshed ?_
  intro fp id
  rw [h.map_iff fp id]
  have hsame : ∀ n ∈ s.lruList, (s.refreshed x c s.lruMap).fpOf n = s.fpOf n := by
    intro n hn
    rw [fpOf_refreshed h hx c s.lruMap hn]
    by_cases hnx : n = x
    · rw [if_pos hnx, hc, hnx]
    · rw [if_neg hnx]
  constructor
  · rintro ⟨n, hn, hid, hfp⟩
    exact ⟨n, hn, hid, (hsame n hn).trans hfp⟩
  · rintro ⟨n, hn, hid, hfp⟩
    exact ⟨n, hn, hid, (hsame n hn).symm.trans hfp⟩

theorem Linked.replace (h : Linked s e) (hx : x ∈ s.lruList) (hc : s.lruMap.lookup c.fp = none) :
    Linked (s.refreshed x c ((s.lruMap.erase (s.fpOf x)).insert c.fp x.id)) e := by
  refine h.refreshed ?_
  intro fp id
  have hfresh : ∀ n ∈ s.lruList, s.fpOf n ≠ c.fp := by
    intro n hn hfp
    have := h.lookup_node hn
    rw [hfp, hc] at this
    exact nomatch this
  by_cases hfp : fp = c.fp
  · subst hfp
    rw [AList.lookup_insert]
    constructor
    · intro hid
      refine ⟨x, hx, Option.some.inj hid, ?_⟩
      rw [fpOf_refreshed h hx _ _ hx, if_pos rfl]
    · rintro ⟨n, hn, hid, hn'⟩
      rw [fpOf_refreshed h hx _ _ hn] at hn'
      by_cases hnx : n = x
      · rw [← hnx, hid]
      · rw [if_neg hnx] at hn'
        exact absurd hn' (hfresh n hn)
  · rw [AList.lookup_insert_ne hfp]
    by_cases hold : fp = s.fpOf x
    · rw [hold, AList.lookup_erase]
      constructor
      · intro hid; exact nomatch hid
      · rintro ⟨n, hn, -, hn'⟩
        rw [fpOf_refreshed h hx _ _ hn] at hn'
        by_cases hnx : n = x
        · rw [if_pos hnx] at hn'
          exact absurd (hold.trans hn'.symm) hfp
        · rw [if_neg hnx] at hn'
          exact absurd (h.eq_of_fp hn hx hn') hnx
    · rw [AList.lookup_erase_ne hold, h.map_iff fp id]
      constructor
      · rintro ⟨n, hn, hid, hn'⟩
        refine ⟨n, hn, hid, ?_⟩
        rw [fpOf_refreshed h hx _ _ hn, if_neg (fun hnx => hold (by rw [← hn', hnx])), hn']
      · rintro ⟨n, hn, hid, hn'⟩
        rw [fpOf_refreshed h hx _ _ hn] at hn'
        by_cases hnx : n = x
        · rw [if_pos hnx] at hn'
          exact absurd hn'.symm hfp
        · rw [if_neg hnx] at hn'
          exact ⟨n, hn, hid, hn'⟩

theorem Linked.next_free (h : Linked s e) (hlen : s.lruList.length < s.size) (hn : n ∈ s.lruList) :
    n.slot ≠ s.nextItem := by
  have hcount := h.length_lruList
  have hle := h.next_le
  have hes := h.e_le
  intro hslot
  rcases (h.live_iff s.nextItem).mp ⟨n, hn, hslot⟩ with h1 | h2 <;> omega

theorem slotAt_grown (h : Linked s e) (c : Slot) (hlen : s.lruList.length < s.size)
    (hnext : s.nextItem < s.size) (hn : n ∈ s.lruList) :
    slotAt (s.grown c).slots n.slot = slotAt s.slots n.slot := by
  show slotAt (s.slots.set s.nextItem c) n.slot = _
  rw [slotAt_set (by rw [h.length_eq]; exact hnext), if_neg (h.next_free hlen hn)]

theorem Linked.grow (h : Linked s e) (hc : s.lruMap.lookup c.fp = none)
    (hlen : s.lruList.length < s.size) (hnext : s.nextItem < s.size) :
    Linked (s.grown c) e := by
  have hcount := h.length_lruList
  have hle := h.next_le
  have hes := h.e_le
  have hlt : s.nextItem < s.slots.length := by rw [h.length_eq]; exact hnext
  have hfp : ∀ n ∈ s.lruList, (s.grown c).fpOf n = s.fpOf n :=
    fun n hn => congrArg Slot.fp (slotAt_grown h c hlen hnext hn)
  have hfpnew : (s.grown c).fpOf ⟨s.nextId, s.nextItem⟩ = c.fp := by
    show (slotAt (s.slots.set s.nextItem c) s.nextItem).fp = _
    rw [slotAt_set hlt, if_pos rfl]
  exact
    { length_eq := by
        show (s.slots.set s.nextItem c).length = s.size
        rw [List.length_set]
        exact h.length_eq
      next_le := by show s.nextItem + 1 ≤ e; omega
      e_le := hes
      live_iff := by
        intro i
        show (∃ n ∈ _ :: s.lruList, n.slot = i) ↔ i < s.nextItem + 1 ∨ _
        have hlive := h.live_iff i
        rw [LruStorage.Live] at hlive
        rw [List.exists_mem_cons_iff, hlive]
        constructor
        · rintro (h1 | h2 | h3)
          · have : s.nextItem = i := h1
            omega
          · omega
          · exact Or.inr h3
        · rintro (h1 | h2)
          · by_cases heq : s.nextItem = i
            · exact Or.inl heq
            · exact Or.inr (Or.inl (by omega))
          · exact Or.inr (Or.inr h2)
      slots_nodup := by
        refine List.nodup_cons.mpr ⟨?_, h.slots_nodup⟩
        intro hmem
        obtain ⟨n, hn, hslot⟩ := List.mem_map.mp hmem
        exact h.next_free hlen hn hslot
      ids_nodup := by
        refine List.nodup_cons.mpr ⟨?_, h.ids_nodup⟩
        intro hmem
        obtain ⟨n, hn, hid⟩ := List.mem_map.mp hmem
        exact absurd hid (Nat.ne_of_lt (h.ids_lt n hn))
      ids_lt := by
        intro n hn
        show n.id < s.nextId + 1
        rcases List.mem_cons.mp hn with heq | hmem
        · rw [heq]; exact Nat.lt_succ_self _
        · exact Nat.lt_succ_of_lt (h.ids_lt n hmem)
      map_iff := by
        intro fp id
        show (s.lruMap.insert c.fp s.nextId).lookup fp = some id
          ↔ ∃ n ∈ _ :: s.lruList, n.id = id ∧ (s.grown c).fpOf n = fp
        rw [List.exists_mem_cons_iff, hfpnew]
        by_cases hcfp : fp = c.fp
        · rw [hcfp, AList.lookup_insert]
          constructor
          · intro hid
            exact Or.inl ⟨Option.some.inj hid, rfl⟩
          · rintro (⟨hid, -⟩ | ⟨n, hn, -, hn'⟩)
            · exact congrArg some hid
            · rw [hfp n hn] at hn'
              have := h.lookup_node hn
              rw [hn', hc] at this
              exact nomatch this
        · rw [AList.lookup_insert_ne hcfp, h.map_iff fp id]
          constructor
          · rintro ⟨n, hn, hid, hn'⟩
            exact Or.inr ⟨n, hn, hid, (hfp n hn).trans hn'⟩
          · rintro (⟨-, hn'⟩ | ⟨n, hn, hid, hn'⟩)
            · exact absurd hn'.symm hcfp
            · exact ⟨n, hn, hid, (hfp n hn).symm.trans hn'⟩ }

theorem Linked.lookup_erase_iff (h : Linked s e) (hx : x ∈ s.lruList) (fp : UInt64) (id : Nat) :
    (s.lruMap.erase (s.fpOf x)).lookup fp = some id ↔
      ∃ n ∈ s.lruList, n ≠ x ∧ n.id = id ∧ s.fpOf n = fp := by
  by_cases hold : fp = s.fpOf x
  · rw [hold, AList.lookup_erase]
    constructor
    · intro hid; exact nomatch hid
    · rintro ⟨n, hn, hnx, -, hn'⟩
      exact absurd (h.eq_of_fp hn hx hn') hnx
  · rw [AList.lookup_erase_ne hold, h.map_iff fp id]
    constructor
    · rintro ⟨n, hn, hid, hn'⟩
      exact ⟨n, hn, fun hnx => hold (by rw [← hn', hnx]), hid, hn'⟩
    · rintro ⟨n, hn, -, hid, hn'⟩
      exact ⟨n, hn, hid, hn'⟩

theorem Linked.mem_without (h : Linked s e) (hx : x ∈ s.lruList) :
    n ∈ s.lruList.filter (fun n => n.id ≠ x.id) ↔ n ∈ s.lruList ∧ n ≠ x := by
  rw [List.mem_filter]
  constructor
  · rintro ⟨hn, hid⟩
    exact ⟨hn, fun hnx => of_decide_eq_true hid (by rw [hnx])⟩
  · rintro ⟨hn, hnx⟩
    exact ⟨hn, decide_eq_true (fun hid => hnx (h.eq_of_id hn hx hid))⟩

theorem slotAt_removedLast (h : Linked s e) (hx : x ∈ s.lruList) (hn : n ∈ s.lruList) (hnx : n ≠ x)
    :
    slotAt (s.removedLast x).slots n.slot = slotAt s.slots n.slot := by
  show slotAt (s.slots.set x.slot _) n.slot = _
  rw [slotAt_set (h.slot_lt hx), if_neg (fun hslot => hnx (h.eq_of_slot hn hx hslot))]

theorem Linked.removeLast (h : Linked s e) (hx : x ∈ s.lruList) (hlast : x.slot + 1 = s.nextItem) :
    Linked (s.removedLast x) e := by
  have hle := h.next_le
  have hfp : ∀ n ∈ s.lruList, n ≠ x → (s.removedLast x).fpOf n = s.fpOf n :=
    fun n hn hnx => congrArg Slot.fp (slotAt_removedLast h hx hn hnx)
  have hsub : (s.lruList.filter (fun n => n.id ≠ x.id)).Sublist s.lruList :=
    List.filter_sublist
  exact
    { length_eq := by
        show (s.slots.set x.slot _).length = s.size
        rw [List.length_set]
        exact h.length_eq
      next_le := by show s.nextItem - 1 ≤ e; omega
      e_le := h.e_le
      live_iff := by
        intro i
        show (∃ n ∈ s.lruList.filter _, n.slot = i) ↔ i < s.nextItem - 1 ∨ _
        constructor
        · rintro ⟨n, hn, hslot⟩
          obtain ⟨hn, hnx⟩ := (h.mem_without hx).mp hn
          have hne : i ≠ x.slot := fun hi => hnx (h.eq_of_slot hn hx (hslot.trans hi))
          rcases (h.live_iff i).mp ⟨n, hn, hslot⟩ with h1 | h2
          · exact Or.inl (by omega)
          · exact Or.inr h2
        · intro hi
          have hi' : i < s.nextItem ∨ (e ≤ i ∧ i < s.size) := by
            rcases hi with h1 | h2
            · exact Or.inl (by omega)
            · exact Or.inr h2
          obtain ⟨n, hn, hslot⟩ := (h.live_iff i).mpr hi'
          refine ⟨n, (h.mem_without hx).mpr ⟨hn, ?_⟩, hslot⟩
          rintro rfl
          rcases hi with h1 | h2 <;> omega
      slots_nodup := h.slots_nodup.sublist (hsub.map _)
      ids_nodup := h.ids_nodup.sublist (hsub.map _)
      ids_lt := fun n hn => h.ids_lt n (hsub.subset hn)
      map_iff := by
        intro fp id
        show (s.lruMap.erase (s.fpOf x)).lookup fp = some id
          ↔ ∃ n ∈ s.lruList.filter _, n.id = id ∧ (s.removedLast x).fpOf n = fp
        rw [h.lookup_erase_iff hx]
        constructor
        · rintro ⟨n, hn, hnx, hid, hn'⟩
          exact ⟨n, (h.mem_without hx).mpr ⟨hn, hnx⟩, hid, (hfp n hn hnx).trans hn'⟩
        · rintro ⟨n, hn, hid, hn'⟩
          obtain ⟨hn, hnx⟩ := (h.mem_without hx).mp hn
          exact ⟨n, hn, hnx, hid, (hfp n hn hnx).symm.trans hn'⟩ }

/-- Where a node points after the last slot, of node `m`, moved into the slot of `x`. -/
def relocated (x m n : Node) : Node := if n.id = m.id then { n with slot := x.slot } else n

theorem relocated_id (x m n : Node) : (relocated x m n).id = n.id := by
  rw [relocated]
  by_cases hid : n.id = m.id
  · rw [if_pos hid]
  · rw [if_neg hid]

theorem relocated_self (x m : Node) : relocated x m m = ⟨m.id, x.slot⟩ := if_pos rfl

variable {m : Node}

theorem Linked.relocated_ne (h : Linked s e) (hm : m ∈ s.lruList) (hn : n ∈ s.lruList)
    (hnm : n ≠ m) : relocated x m n = n :=
  if_neg (fun hid => hnm (h.eq_of_id hn hm hid))

theorem slotAt_removedMoved (h : Linked s e) (hx : x ∈ s.lruList) (hm : m ∈ s.lruList) (i : Nat) :
    slotAt (s.removedMoved x m).slots i
      = if i = m.slot then zeroSlot s.valueSize
        else if i = x.slot then slotAt s.slots m.slot else slotAt s.slots i := by
  have hmlt : m.slot < (s.slots.set x.slot (slotAt s.slots m.slot)).length := by
    rw [List.length_set]; exact h.slot_lt hm
  show slotAt ((s.slots.set x.slot _).set m.slot _) i = _
  rw [slotAt_set hmlt, slotAt_set (h.slot_lt hx)]

theorem slotAt_relocated (h : Linked s e) (hx : x ∈ s.lruList) (hm : m ∈ s.lruList) (hxm : x ≠ m)
    (hn : n ∈ s.lruList) (hnx : n ≠ x) :
    slotAt (s.removedMoved x m).slots (relocated x m n).slot = slotAt s.slots n.slot := by
  rw [slotAt_removedMoved h hx hm]
  by_cases hnm : n = m
  · rw [hnm, relocated_self, if_neg (fun hslot => hxm (h.eq_of_slot hx hm hslot)), if_pos rfl]
  · rw [h.relocated_ne hm hn hnm, if_neg (fun hslot => hnm (h.eq_of_slot hn hm hslot)),
      if_neg (fun hslot => hnx (h.eq_of_slot hn hx hslot))]

/-- Removing a node and moving the last slot into its place keeps the storage linked:
    only the moved node changes its slot, and no fingerprint changes its node. -/
theorem Linked.removeMoved (h : Linked s e) (hx : x ∈ s.lruList) (hm : m ∈ s.lruList) (hxm : x ≠ m)
    (hlast : m.slot + 1 = s.nextItem) :
    Linked (s.removedMoved x m) e := by
  have hle := h.next_le
  have hslots : x.slot ≠ m.slot := fun hslot => hxm (h.eq_of_slot hx hm hslot)
  have hlist : (s.removedMoved x m).lruList
      = (s.lruList.filter (fun n => n.id ≠ x.id)).map (relocated x m) := rfl
  have hmem : ∀ n, n ∈ (s.removedMoved x m).lruList ↔
      ∃ n' ∈ s.lruList, n' ≠ x ∧ relocated x m n' = n := by
    intro n
    rw [hlist, List.mem_map]
    constructor
    · rintro ⟨n', hn', heq⟩
      obtain ⟨hn', hnx⟩ := (h.mem_without hx).mp hn'
      exact ⟨n', hn', hnx, heq⟩
    · rintro ⟨n', hn', hnx, heq⟩
      exact ⟨n', (h.mem_without hx).mpr ⟨hn', hnx⟩, heq⟩
  have hfp : ∀ n ∈ s.lruList, n ≠ x →
      (s.removedMoved x m).fpOf (relocated x m n) = s.fpOf n :=
    fun n hn hnx => congrArg Slot.fp (slotAt_relocated h hx hm hxm hn hnx)
  have hsub : (s.lruList.filter (fun n => n.id ≠ x.id)).Sublist s.lruList :=
    List.filter_sublist
  exact
    { length_eq := by
        show ((s.slots.set x.slot _).set m.slot _).length = s.size
        rw [List.length_set, List.length_set]
        exact h.length_eq
      next_le := by show s.nextItem - 1 ≤ e; omega
      e_le := h.e_le
      live_iff := by
        intro i
        show (∃ n ∈ (s.removedMoved x m).lruList, n.slot = i) ↔ i < s.nextItem - 1 ∨ _
        have hxlive := (h.live_iff x.slot).mp ⟨x, hx, rfl⟩
        constructor
        · rintro ⟨n, hn, hslot⟩
          obtain ⟨n', hn', hnx, rfl⟩ := (hmem n).mp hn
          by_cases hnm : n' = m
          · rw [hnm, relocated_self] at hslot
            have : x.slot = i := hslot
            rcases hxlive with h1 | h2
            · exact Or.inl (by omega)
            · exact Or.inr (this ▸ h2)
          · rw [h.relocated_ne hm hn' hnm] at hslot
            have hne : i ≠ m.slot := fun hi => hnm (h.eq_of_slot hn' hm (hslot.trans hi))
            rcases (h.live_iff i).mp ⟨n', hn', hslot⟩ with h1 | h2
            · exact Or.inl (by omega)
            · exact Or.inr h2
        · intro hi
          by_cases hix : i = x.slot
          · exact ⟨relocated x m m, (hmem _).mpr ⟨m, hm, hxm.symm, rfl⟩, by
              rw [relocated_self, hix]⟩
          · have hi' : i < s.nextItem ∨ (e ≤ i ∧ i < s.size) := by
              rcases hi with h1 | h2
              · exact Or.inl (by omega)
              · exact Or.inr h2
            obtain ⟨n, hn, hslot⟩ := (h.live_iff i).mpr hi'
            have hnx : n ≠ x := fun heq => hix (by rw [← hslot, heq])
            have hnm : n ≠ m := by
              rintro rfl
              rcases hi with h1 | h2 <;> omega
            exact ⟨n, (hmem n).mpr ⟨n, hn, hnx, h.relocated_ne hm hn hnm⟩, hslot⟩
      slots_nodup := by
        rw [hlist, List.map_map]
        refine List.Nodup.map_on ?_ (h.ids_nodup.of_map.sublist hsub)
        intro a ha b hb hab
        obtain ⟨ha, hax⟩ := (h.mem_without hx).mp ha
        obtain ⟨hb, hbx⟩ := (h.mem_without hx).mp hb
        have hab' : (relocated x m a).slot = (relocated x m b).slot := hab
        by_cases ham : a = m
        · by_cases hbm : b = m
          · rw [ham, hbm]
          · rw [ham, relocated_self, h.relocated_ne hm hb hbm] at hab'
            exact absurd (h.eq_of_slot hb hx hab'.symm) hbx
        · by_cases hbm : b = m
          · rw [hbm, relocated_self, h.relocated_ne hm ha ham] at hab'
            exact absurd (h.eq_of_slot ha hx hab') hax
          · rw [h.relocated_ne hm ha ham, h.relocated_ne hm hb hbm] at hab'
            exact h.eq_of_slot ha hb hab'
      ids_nodup := by
        rw [hlist, List.map_map,
          show Node.id ∘ relocated x m = Node.id from funext (relocated_id x m)]
        exact h.ids_nodup.sublist (hsub.map _)
      ids_lt := by
        intro n hn
        obtain ⟨n', hn', -, rfl⟩ := (hmem n).mp hn
        rw [relocated_id]
        exact h.ids_lt n' hn'
      map_iff := by
        intro fp id
        show (s.lruMap.erase (s.fpOf x)).lookup fp = some id ↔ _
        rw [h.lookup_erase_iff hx]
        constructor
        · rintro ⟨n, hn, hnx, hid, hn'⟩
          exact ⟨relocated x m n, (hmem _).mpr ⟨n, hn, hnx, rfl⟩, (relocated_id x m n).trans hid,
            (hfp n hn hnx).trans hn'⟩
        · rintro ⟨n, hn, hid, hn'⟩
          obtain ⟨n', hn1, hnx, rfl⟩ := (hmem n).mp hn
          exact ⟨n', hn1, hnx, (relocated_id x m n').symm.trans hid,
            (hfp n' hn1 hnx).symm.trans hn'⟩ }

/-- **EVERY EFFECT KEEPS THE STORAGE LINKED.** -/
theorem Linked.effect (h : Linked s e) {now : UInt32} {s' : LruStorage}
    (heff : Effect s now s') : Linked s' e := by
  cases heff with
  | stay => exact h
  | stamp x c hx hc _ _ => exact h.stamp hx hc
  | replace x c hx hc _ _ => exact h.replace (List.mem_of_getLast? hx) hc
  | grow c hc hlen hnext _ _ => exact h.grow hc hlen hnext
  | removeLast x hx hlast => exact h.removeLast hx hlast
  | removeMoved x m hx hm hxm hlast => exact h.removeMoved hx hm hxm hlast

theorem deleteElementsBefore_effects (h : Linked s e) (now timestamp : UInt32) :
    ∃ n s', s.deleteElementsBefore timestamp = some (n, s') ∧
      Relation.ReflTransGen (fun a b => Effect a now b) s s' :=
  deleteElementsBeforeLoop_effects now timestamp (fun _ _ h heff => h.effect heff) _ s 0 h

end Preservation

end MozkeyLru
