import Mozkey.LruInvariantProofs

/-! # LruStorage — what `Open` builds from a slot array

    `Open` sorts the slots by timestamp, latest first, puts the live ones on the list
    and takes the first dead one as `next_item_`.  The sort is stable, so the first
    dead slot in sorted order is the first dead slot of the array. -/

namespace MozkeyLru

open ByteString LruStorage

theorem pairwise_sortBy {α : Type} (f : α → UInt32) (l : List α) :
    (l.insertionSort (fun a b => f b ≤ f a)).Pairwise (fun a b => f b ≤ f a) := by
  have : Std.Total (fun a b => f b ≤ f a) := ⟨fun a b => UInt32.le_total (f b) (f a)⟩
  have : IsTrans α (fun a b => f b ≤ f a) := ⟨fun _ _ _ hab hbc => UInt32.le_trans hbc hab⟩
  exact List.pairwise_insertionSort _ l

theorem filter_sortBy {α : Type} (f : α → UInt32) (t : UInt32) (l : List α) :
    (l.insertionSort (fun a b => f b ≤ f a)).filter (fun a => f a = t)
      = l.filter (fun a => f a = t) := by
  have hsub : (l.filter (fun a => f a = t)).Sublist
      (l.insertionSort (fun a b => f b ≤ f a)) := by
    refine List.sublist_insertionSort (List.pairwise_filter.mpr ?_) List.filter_sublist
    refine List.pairwise_of_forall ?_
    intro a b ha hb
    rw [of_decide_eq_true ha, of_decide_eq_true hb]
    exact UInt32.le_refl t
  have hsub' := hsub.filter (fun a => f a = t)
  rw [List.filter_filter] at hsub'
  simp only [Bool.and_self] at hsub'
  refine (hsub'.eq_of_length ?_).symm
  exact ((List.perm_insertionSort _ l).filter _).length_eq.symm

/-! ## The live slots in the order of the list -/

/-- The live slots, latest first. -/
def liveSlots (slots : List Slot) : List Nat :=
  (sortByTimeStamp slots).filter (fun i => (slotAt slots i).timestamp ≠ 0)

theorem mem_liveSlots {slots : List Slot} {i : Nat} :
    i ∈ liveSlots slots ↔ i < slots.length ∧ (slotAt slots i).timestamp ≠ 0 := by
  rw [liveSlots, List.mem_filter, sortByTimeStamp, List.mem_insertionSort, List.mem_range,
    decide_eq_true_iff]

theorem nodup_liveSlots (slots : List Slot) : (liveSlots slots).Nodup :=
  ((List.perm_insertionSort _ _).nodup_iff.mpr List.nodup_range).filter _

/-- **THE LIST IS ORDERED.**  `Open` lists the live slots by non-increasing timestamp. -/
theorem openSlots_ordered (valueSize size : Nat) (seed : UInt32) (slots : List Slot) :
    (openSlots valueSize size seed slots).lruList.Pairwise (fun a b =>
      (openSlots valueSize size seed slots).timeOf b
        ≤ (openSlots valueSize size seed slots).timeOf a) := by
  show ((liveSlots slots).map (fun i => (⟨i, i⟩ : Node))).Pairwise _
  rw [List.pairwise_map]
  exact List.Pairwise.filter _
    (pairwise_sortBy (fun i => (slotAt slots i).timestamp) (List.range slots.length))

theorem openSlots_nextItem {valueSize size : Nat} {seed : UInt32} {slots : List Slot} {d : Nat}
    (hlive : ∀ i < d, (slotAt slots i).timestamp ≠ 0)
    (hd : d = slots.length ∨ d < slots.length ∧ (slotAt slots d).timestamp = 0) :
    (openSlots valueSize size seed slots).nextItem = d := by
  show ((sortByTimeStamp slots).find? (fun i => (slotAt slots i).timestamp = 0)).getD
    slots.length = d
  have hfind : (sortByTimeStamp slots).find? (fun i => (slotAt slots i).timestamp = 0)
      = (List.range slots.length).find? (fun i => (slotAt slots i).timestamp = 0) := by
    rw [← List.head?_filter, ← List.head?_filter, sortByTimeStamp,
      filter_sortBy (fun i => (slotAt slots i).timestamp) 0]
  rw [hfind]
  rcases hd with heq | ⟨hlt, hzero⟩
  · have hnone : (List.range slots.length).find? (fun i => (slotAt slots i).timestamp = 0)
        = none := by
      refine List.find?_eq_none.mpr ?_
      intro i hi hz
      exact hlive i (heq ▸ List.mem_range.mp hi) (of_decide_eq_true hz)
    rw [hnone]
    exact heq.symm
  · have hsome : (List.range slots.length).find? (fun i => (slotAt slots i).timestamp = 0)
        = some d := by
      refine List.find?_range_eq_some.mpr ⟨decide_eq_true hzero, List.mem_range.mpr hlt, ?_⟩
      intro j hj
      have := hlive j hj
      simpa using this
    rw [hsome]
    rfl

/-! ## The fingerprint map -/

/-- The map after inserting `f i ↦ i` for a list with distinct `f i`. -/
theorem lookup_foldl_insert (f : Nat → UInt64) : ∀ (l : List Nat)
    (m : AList (fun _ : UInt64 => Nat)), (l.map f).Nodup → ∀ fp id,
    (l.foldl (fun m i => m.insert (f i) i) m).lookup fp = some id ↔
      (id ∈ l ∧ f id = fp) ∨ (m.lookup fp = some id ∧ fp ∉ l.map f) := by
  intro l
  induction l with
  | nil =>
    intro m _ fp id
    rw [List.foldl_nil, List.map_nil]
    constructor
    · intro h; exact Or.inr ⟨h, List.not_mem_nil⟩
    · rintro (⟨h, -⟩ | ⟨h, -⟩)
      · exact absurd h List.not_mem_nil
      · exact h
  | cons i l ih =>
    intro m hnodup fp id
    rw [List.map_cons, List.nodup_cons] at hnodup
    rw [List.foldl_cons, ih _ hnodup.2, List.map_cons, List.mem_cons, List.mem_cons]
    by_cases hfp : fp = f i
    · rw [hfp, AList.lookup_insert]
      constructor
      · rintro (⟨hid, heq⟩ | ⟨hid, -⟩)
        · exact Or.inl ⟨Or.inr hid, heq⟩
        · have : i = id := Option.some.inj hid
          exact Or.inl ⟨Or.inl this.symm, by rw [this]⟩
      · rintro (⟨hid | hid, heq⟩ | ⟨-, hnot⟩)
        · exact Or.inr ⟨by rw [hid], hnodup.1⟩
        · exact Or.inl ⟨hid, heq⟩
        · exact absurd (Or.inl rfl) hnot
    · rw [AList.lookup_insert_ne hfp]
      constructor
      · rintro (⟨hid, heq⟩ | ⟨hid, hnot⟩)
        · exact Or.inl ⟨Or.inr hid, heq⟩
        · exact Or.inr ⟨hid, fun h => h.elim hfp hnot⟩
      · rintro (⟨hid | hid, heq⟩ | ⟨hid, hnot⟩)
        · exact absurd (by rw [← heq, hid]) hfp
        · exact Or.inl ⟨hid, heq⟩
        · exact Or.inr ⟨hid, fun h => hnot (Or.inr h)⟩

/-- The live fingerprints of a slot array are distinct. -/
def DistinctFps (slots : List Slot) : Prop :=
  ∀ i j, i < slots.length → j < slots.length →
    (slotAt slots i).timestamp ≠ 0 → (slotAt slots j).timestamp ≠ 0 →
    (slotAt slots i).fp = (slotAt slots j).fp → i = j

/-- **WHAT `Open` BUILDS.**  With distinct live fingerprints and the dead slots in
    `[d, e)`, the list, the map and the slots are linked. -/
theorem openSlots_linked (valueSize : Nat) {size : Nat} (seed : UInt32) {slots : List Slot}
    {d e : Nat}
    (hlen : slots.length = size) (hde : d ≤ e) (hes : e ≤ size) (hd : d = size ∨ d < e)
    (hlive : ∀ i < size, (slotAt slots i).timestamp ≠ 0 ↔ i < d ∨ e ≤ i)
    (hfp : DistinctFps slots) :
    Linked (openSlots valueSize size seed slots) e ∧
      (openSlots valueSize size seed slots).nextItem = d := by
  have hnext : (openSlots valueSize size seed slots).nextItem = d := by
    refine openSlots_nextItem ?_ ?_
    · intro i hi
      exact (hlive i (by omega)).mpr (Or.inl hi)
    · rcases hd with heq | hlt
      · exact Or.inl (by omega)
      · refine Or.inr ⟨by omega, ?_⟩
        by_contra hne
        have := (hlive d (by omega)).mp hne
        omega
  refine ⟨?_, hnext⟩
  have hslots : ((liveSlots slots).map (fun i => (⟨i, i⟩ : Node))).map Node.slot
      = liveSlots slots := by
    rw [List.map_map]; exact List.map_id _
  have hids : ((liveSlots slots).map (fun i => (⟨i, i⟩ : Node))).map Node.id
      = liveSlots slots := by
    rw [List.map_map]; exact List.map_id _
  have hfps : ((liveSlots slots).map (fun i => (slotAt slots i).fp)).Nodup := by
    refine List.Nodup.map_on ?_ (nodup_liveSlots slots)
    intro i hi j hj heq
    rw [mem_liveSlots] at hi hj
    exact hfp i j hi.1 hj.1 hi.2 hj.2 heq
  exact
    { length_eq := hlen
      next_le := by rw [hnext]; exact hde
      e_le := hes
      live_iff := by
        intro i
        rw [hnext]
        show (∃ n ∈ (liveSlots slots).map (fun i => (⟨i, i⟩ : Node)), n.slot = i)
          ↔ i < d ∨ (e ≤ i ∧ i < size)
        constructor
        · rintro ⟨n, hn, hslot⟩
          obtain ⟨j, hj, rfl⟩ := List.mem_map.mp hn
          have hji : j = i := hslot
          rw [hji, mem_liveSlots, hlen] at hj
          rcases (hlive i hj.1).mp hj.2 with h1 | h2
          · exact Or.inl h1
          · exact Or.inr ⟨h2, hj.1⟩
        · intro hi
          have hlt : i < size := by omega
          refine ⟨⟨i, i⟩, List.mem_map.mpr ⟨i, ?_, rfl⟩, rfl⟩
          rw [mem_liveSlots, hlen]
          exact ⟨hlt, (hlive i hlt).mpr (hi.imp id And.left)⟩
      slots_nodup := by
        show (((liveSlots slots).map (fun i => (⟨i, i⟩ : Node))).map Node.slot).Nodup
        rw [hslots]
        exact nodup_liveSlots slots
      ids_nodup := by
        show (((liveSlots slots).map (fun i => (⟨i, i⟩ : Node))).map Node.id).Nodup
        rw [hids]
        exact nodup_liveSlots slots
      ids_lt := by
        intro n hn
        obtain ⟨i, hi, rfl⟩ := List.mem_map.mp hn
        exact (mem_liveSlots.mp hi).1
      map_iff := by
        intro fp id
        show AList.lookup fp ((liveSlots slots).foldl
            (fun m i => m.insert (slotAt slots i).fp i) (∅ : AList (fun _ : UInt64 => Nat)))
            = some id
          ↔ ∃ n ∈ (liveSlots slots).map (fun i => (⟨i, i⟩ : Node)),
              n.id = id ∧ (slotAt slots n.slot).fp = fp
        rw [lookup_foldl_insert (fun i => (slotAt slots i).fp) _ _ hfps, AList.lookup_empty]
        constructor
        · rintro (⟨hid, hf⟩ | ⟨hid, -⟩)
          · exact ⟨⟨id, id⟩, List.mem_map.mpr ⟨id, hid, rfl⟩, rfl, hf⟩
          · exact nomatch hid
        · rintro ⟨n, hn, hid, hf⟩
          obtain ⟨i, hi, rfl⟩ := List.mem_map.mp hn
          have hi' : i = id := hid
          rw [← hi']
          exact Or.inl ⟨hi, hf⟩ }

end MozkeyLru
