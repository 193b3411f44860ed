import Mozkey.LruOpenProofs

/-! # LruStorage — the invariant of the operations

    `Sound now` is the invariant that carries the runs of `LruRunProofs`; `now` is the
    stamp `Update` writes:

    * the storage is linked with no live suffix, so the live slots are the prefix
      before `next_item_`;
    * the list is ordered by timestamp, and every listed timestamp is between 1 and
      the clock;
    * the slots from `next_item_` on are zero.

    `Sound.effect` preserves it along the operations. -/

namespace MozkeyLru

open ByteString LruStorage

/-! ## The operations as steps -/

/-- An operation on an open storage. -/
inductive Op where
  | insert (fp : UInt64) (value : Option (Nat → UInt8))
  | touch (fp : UInt64)
  | delete (fp : UInt64)
  | deleteElementsBefore (timestamp : UInt32)
  | getAllValues

/-- The storage after an operation; `now` is the stamp `Update` writes. -/
def step (now : UInt32) (s : LruStorage) : Op → Option LruStorage
  | .insert fp value => (s.insert now fp value).map Prod.snd
  | .touch fp => (s.touch now fp).map Prod.snd
  | .delete fp => (s.delete fp).map Prod.snd
  | .deleteElementsBefore timestamp => (s.deleteElementsBefore timestamp).map Prod.snd
  | .getAllValues => some s

/-- Every operation on a linked storage is defined and is a run of effects. -/
theorem step_effects {s : LruStorage} {e : Nat} (h : Linked s e) (hpos : 0 < s.size)
    (now : UInt32) (op : Op) :
    ∃ s', step now s op = some s' ∧ Relation.ReflTransGen (fun a b => Effect a now b) s s' := by
  cases op with
  | insert fp value =>
    obtain ⟨b, s', heq, heff⟩ := insert_effect h hpos now fp value
    exact ⟨s', by rw [step, heq]; rfl, .single heff⟩
  | touch fp =>
    obtain ⟨b, s', heq, heff⟩ := touch_effect h now fp
    exact ⟨s', by rw [step, heq]; rfl, .single heff⟩
  | delete fp =>
    obtain ⟨b, s', heq, heff⟩ := delete_effect h now fp
    exact ⟨s', by rw [step, heq]; rfl, .single heff⟩
  | deleteElementsBefore timestamp =>
    obtain ⟨n, s', heq, heffs⟩ := deleteElementsBefore_effects h now timestamp
    exact ⟨s', by rw [step, heq]; rfl, heffs⟩
  | getAllValues => exact ⟨s, rfl, .refl⟩

/-! ## The invariant -/

/-- The invariant of a run at stamp `now`. -/
structure Sound (now : UInt32) (s : LruStorage) : Prop where
  formatted : Formatted s.valueSize s.size s.slots
  linked : Linked s s.size
  ordered : s.lruList.Pairwise (fun a b => s.timeOf b ≤ s.timeOf a)
  stamped : ∀ n ∈ s.lruList, s.timeOf n ≠ 0 ∧ s.timeOf n ≤ now
  vacant : ∀ i, s.nextItem ≤ i → i < s.size → slotAt s.slots i = zeroSlot s.valueSize

theorem length_zeroSlot (n : Nat) : (zeroSlot n).value.length = n := List.length_replicate

theorem slotAt_eq {slots : List Slot} {i : Nat} (h : i < slots.length) :
    slotAt slots i = slots[i] := by
  rw [slotAt, List.getD_eq_getElem?_getD, List.getElem?_eq_getElem h, Option.getD_some]

theorem slotAt_mem {slots : List Slot} {i : Nat} (h : i < slots.length) :
    slotAt slots i ∈ slots := by
  rw [slotAt_eq h]
  exact List.getElem_mem h

theorem Formatted.set {valueSize size : Nat} {slots : List Slot}
    (h : Formatted valueSize size slots) (i : Nat) {c : Slot} (hc : c.value.length = valueSize) :
    Formatted valueSize size (slots.set i c) :=
  { h with
    length_eq := by rw [List.length_set]; exact h.length_eq
    value_length := by
      intro x hx
      rcases List.mem_or_eq_of_mem_set hx with hmem | heq
      · exact h.value_length x hmem
      · rw [heq]; exact hc }

namespace Sound

variable {now : UInt32} {s : LruStorage}

theorem nextItem_le (h : Sound now s) : s.nextItem ≤ s.size := h.linked.next_le

theorem slot_lt_next (h : Sound now s) {n : Node} (hn : n ∈ s.lruList) :
    n.slot < s.nextItem := by
  rcases (h.linked.live_iff n.slot).mp ⟨n, hn, rfl⟩ with h1 | h2
  · exact h1
  · omega

theorem later (h : Sound now s) {now' : UInt32} (hle : now ≤ now') : Sound now' s :=
  { h with stamped := fun n hn =>
      ⟨(h.stamped n hn).1, UInt32.le_trans (h.stamped n hn).2 hle⟩ }

theorem refreshed (h : Sound now s) (hnow : now ≠ 0) {x : Node} (hx : x ∈ s.lruList) {c : Slot}
    {m : AList (fun _ : UInt64 => Nat)} (hlinked : Linked (s.refreshed x c m) s.size)
    (hc : c.timestamp = now) (hv : c.value.length = s.valueSize) :
    Sound now (s.refreshed x c m) := by
  have htime : ∀ n ∈ s.lruList,
      (s.refreshed x c m).timeOf n = if n = x then now else s.timeOf n := by
    intro n hn
    rw [timeOf, slotAt_refreshed h.linked hx c m hn]
    by_cases hnx : n = x
    · rw [if_pos hnx, if_pos hnx, hc]
    · rw [if_neg hnx, if_neg hnx]
      rfl
  have htimex : (s.refreshed x c m).timeOf x = now := by rw [htime x hx, if_pos rfl]
  have hfirst : ∀ n ∈ s.lruList.filter (fun n => n.id = x.id), n = x := by
    intro n hn
    rw [List.mem_filter] at hn
    exact h.linked.eq_of_id hn.1 hx (of_decide_eq_true hn.2)
  have hrest : ∀ n ∈ s.lruList.filter (fun n => n.id ≠ x.id), n ∈ s.lruList ∧ n ≠ x :=
    fun n hn => (h.linked.mem_without hx).mp hn
  exact
    { formatted := h.formatted.set x.slot hv
      linked := hlinked
      ordered := by
        show (s.lruList.filter _ ++ s.lruList.filter _).Pairwise _
        refine List.pairwise_append.mpr ⟨?_, ?_, ?_⟩
        · refine List.pairwise_of_forall_mem_list ?_
          intro a ha b hb
          rw [hfirst a ha, hfirst b hb]
          exact UInt32.le_refl _
        · refine (h.ordered.sublist List.filter_sublist).imp_of_mem ?_
          intro a b ha hb hab
          rw [htime a (hrest a ha).1, htime b (hrest b hb).1, if_neg (hrest a ha).2,
            if_neg (hrest b hb).2]
          exact hab
        · intro a ha b hb
          rw [hfirst a ha, htimex, htime b (hrest b hb).1, if_neg (hrest b hb).2]
          exact (h.stamped b (hrest b hb).1).2
      stamped := by
        intro n hn
        have hn' : n ∈ s.lruList := mem_moveToFront.mp hn
        rw [htime n hn']
        by_cases hnx : n = x
        · rw [if_pos hnx]
          exact ⟨hnow, UInt32.le_refl _⟩
        · rw [if_neg hnx]
          exact h.stamped n hn'
      vacant := by
        intro i hi hlt
        have hix : i ≠ x.slot := by
          have := h.slot_lt_next hx
          have : s.nextItem ≤ i := hi
          omega
        show slotAt (s.slots.set x.slot c) i = _
        rw [slotAt_set (h.linked.slot_lt hx), if_neg hix]
        exact h.vacant i hi hlt }

theorem grown (h : Sound now s) (hnow : now ≠ 0) {c : Slot}
    (hlinked : Linked (s.grown c) s.size) (hlen : s.lruList.length < s.size)
    (hnext : s.nextItem < s.size) (hc : c.timestamp = now) (hv : c.value.length = s.valueSize) :
    Sound now (s.grown c) := by
  have hlt : s.nextItem < s.slots.length := by rw [h.linked.length_eq]; exact hnext
  have htime : ∀ n ∈ s.lruList, (s.grown c).timeOf n = s.timeOf n :=
    fun n hn => congrArg Slot.timestamp (slotAt_grown h.linked c hlen hnext hn)
  have hnew : (s.grown c).timeOf ⟨s.nextId, s.nextItem⟩ = now := by
    show (slotAt (s.slots.set s.nextItem c) s.nextItem).timestamp = now
    rw [slotAt_set hlt, if_pos rfl, hc]
  exact
    { formatted := h.formatted.set s.nextItem hv
      linked := hlinked
      ordered := by
        refine List.pairwise_cons.mpr ⟨?_, ?_⟩
        · intro n hn
          rw [hnew, htime n hn]
          exact (h.stamped n hn).2
        · refine h.ordered.imp_of_mem ?_
          intro a b ha hb hab
          rw [htime a ha, htime b hb]
          exact hab
      stamped := by
        intro n hn
        rcases List.mem_cons.mp hn with heq | hmem
        · rw [heq, hnew]
          exact ⟨hnow, UInt32.le_refl _⟩
        · rw [htime n hmem]
          exact h.stamped n hmem
      vacant := by
        intro i hi hlt'
        have hi' : s.nextItem + 1 ≤ i := hi
        show slotAt (s.slots.set s.nextItem c) i = _
        rw [slotAt_set hlt, if_neg (by omega)]
        exact h.vacant i (by omega) hlt' }

theorem removedLast (h : Sound now s) {x : Node} (hx : x ∈ s.lruList)
    (hlinked : Linked (s.removedLast x) s.size) (hlast : x.slot + 1 = s.nextItem) :
    Sound now (s.removedLast x) := by
  have htime : ∀ n ∈ s.lruList.filter (fun n => n.id ≠ x.id),
      n ∈ s.lruList ∧ (s.removedLast x).timeOf n = s.timeOf n := by
    intro n hn
    obtain ⟨hn', hnx⟩ := (h.linked.mem_without hx).mp hn
    exact ⟨hn', congrArg Slot.timestamp (slotAt_removedLast h.linked hx hn' hnx)⟩
  exact
    { formatted := h.formatted.set x.slot (length_zeroSlot _)
      linked := hlinked
      ordered := by
        refine (h.ordered.sublist List.filter_sublist).imp_of_mem ?_
        intro a b ha hb hab
        rw [(htime a ha).2, (htime b hb).2]
        exact hab
      stamped := by
        intro n hn
        rw [(htime n hn).2]
        exact h.stamped n (htime n hn).1
      vacant := by
        intro i hi hlt
        have hi' : s.nextItem - 1 ≤ i := hi
        show slotAt (s.slots.set x.slot _) i = _
        rw [slotAt_set (h.linked.slot_lt hx)]
        by_cases hix : i = x.slot
        · rw [if_pos hix]
          rfl
        · rw [if_neg hix]
          exact h.vacant i (by omega) hlt }

theorem removedMoved (h : Sound now s) {x m : Node} (hx : x ∈ s.lruList) (hm : m ∈ s.lruList)
    (hxm : x ≠ m) (hlinked : Linked (s.removedMoved x m) s.size)
    (hlast : m.slot + 1 = s.nextItem) : Sound now (s.removedMoved x m) := by
  have htime : ∀ n ∈ s.lruList.filter (fun n => n.id ≠ x.id),
      n ∈ s.lruList ∧ (s.removedMoved x m).timeOf (relocated x m n) = s.timeOf n := by
    intro n hn
    obtain ⟨hn', hnx⟩ := (h.linked.mem_without hx).mp hn
    exact ⟨hn', congrArg Slot.timestamp (slotAt_relocated h.linked hx hm hxm hn' hnx)⟩
  have hmoved : (slotAt s.slots m.slot).value.length = s.valueSize :=
    h.formatted.value_length _ (slotAt_mem (h.linked.slot_lt hm))
  exact
    { formatted := (h.formatted.set x.slot hmoved).set m.slot (length_zeroSlot _)
      linked := hlinked
      ordered := by
        show ((s.lruList.filter (fun n => n.id ≠ x.id)).map (relocated x m)).Pairwise _
        rw [List.pairwise_map]
        refine (h.ordered.sublist List.filter_sublist).imp_of_mem ?_
        intro a b ha hb hab
        rw [(htime a ha).2, (htime b hb).2]
        exact hab
      stamped := by
        intro n hn
        obtain ⟨n', hn', rfl⟩ := List.mem_map.mp
          (show n ∈ (s.lruList.filter (fun n => n.id ≠ x.id)).map (relocated x m) from hn)
        rw [(htime n' hn').2]
        exact h.stamped n' (htime n' hn').1
      vacant := by
        intro i hi hlt
        have hi' : s.nextItem - 1 ≤ i := hi
        have hxslot := h.slot_lt_next hx
        rw [slotAt_removedMoved h.linked hx hm]
        by_cases him : i = m.slot
        · rw [if_pos him]
          rfl
        · rw [if_neg him, if_neg (by omega)]
          exact h.vacant i (by omega) hlt }

/-- **EVERY EFFECT KEEPS THE INVARIANT.** -/
theorem effect (h : Sound now s) (hnow : now ≠ 0) {s' : LruStorage} (heff : Effect s now s') :
    Sound now s' := by
  have hlinked := h.linked.effect heff
  cases heff with
  | stay => exact h
  | stamp x c hx hc hts hv =>
    refine h.refreshed hnow hx hlinked hts ?_
    rcases hv with heq | hlen
    · rw [heq]
      exact h.formatted.value_length _ (slotAt_mem (h.linked.slot_lt hx))
    · exact hlen
  | replace x c hx hc hts hv => exact h.refreshed hnow (List.mem_of_getLast? hx) hlinked hts hv
  | grow c hc hlen hnext hts hv => exact h.grown hnow hlinked hlen hnext hts hv
  | removeLast x hx hlast => exact h.removedLast hx hlinked hlast
  | removeMoved x m hx hm hxm hlast => exact h.removedMoved hx hm hxm hlinked hlast

theorem effects (h : Sound now s) (hnow : now ≠ 0) {s' : LruStorage}
    (heffs : Relation.ReflTransGen (fun a b => Effect a now b) s s') : Sound now s' := by
  induction heffs with
  | refl => exact h
  | tail _ heff ih => exact ih.effect hnow heff

theorem live_iff (h : Sound now s) {i : Nat} (hi : i < s.size) :
    (slotAt s.slots i).timestamp ≠ 0 ↔ i < s.nextItem := by
  constructor
  · intro hts
    by_contra hge
    rw [h.vacant i (by omega) hi] at hts
    exact hts rfl
  · intro hlt
    obtain ⟨n, hn, rfl⟩ := (h.linked.live_iff i).mpr (Or.inl hlt)
    exact (h.stamped n hn).1

theorem timestamp_le (h : Sound now s) {i : Nat} (hi : i < s.size) :
    (slotAt s.slots i).timestamp ≤ now := by
  by_cases hlt : i < s.nextItem
  · obtain ⟨n, hn, rfl⟩ := (h.linked.live_iff i).mpr (Or.inl hlt)
    exact (h.stamped n hn).2
  · rw [h.vacant i (by omega) hi]
    exact UInt32.le_iff_toNat_le.mpr (Nat.zero_le _)

theorem distinctFps (h : Sound now s) : DistinctFps s.slots := by
  intro i j hi hj hti htj heq
  rw [h.linked.length_eq] at hi hj
  obtain ⟨m, hm, rfl⟩ := (h.linked.live_iff i).mpr (Or.inl ((h.live_iff hi).mp hti))
  obtain ⟨n, hn, rfl⟩ := (h.linked.live_iff j).mpr (Or.inl ((h.live_iff hj).mp htj))
  rw [h.linked.eq_of_fp hm hn heq]

end Sound

end MozkeyLru
