import Mozkey.LruSoundProofs

/-! # LruStorage — which accepted images can be operated on

    `Open` checks the sizes only.  `OperatesSafely` says that from an opened storage
    every sequence of operations stays defined and coherent: the map takes the
    fingerprint of every listed slot to its node, and an insertion that takes
    `next_item_` finds a slot that is not live.

    * `distinctFps_of_operatesSafely` — two live slots with one fingerprint already
      break the map that `Open` builds;
    * `contiguousDead_of_operatesSafely` — with a live slot between dead ones,
      insertions of fresh fingerprints walk `next_item_` onto the live slot before the
      map is full. -/

namespace MozkeyLru

open ByteString LruStorage

/-- A sequence of operations, each with the stamp of its moment. -/
def run (s : LruStorage) : List (UInt32 × Op) → Option LruStorage
  | [] => some s
  | (now, op) :: rest =>
    match step now s op with
    | none => none
    | some s' => run s' rest

/-- The map agrees with the list, and `next_item_` is not live when `Insert` takes it. -/
structure Coherent (s : LruStorage) : Prop where
  maps_live : ∀ n ∈ s.lruList, s.lruMap.lookup (s.fpOf n) = some n.id
  next_free : ∀ fp, s.lruMap.lookup fp = none →
    ¬ (s.lruMap.entries.length ≥ s.size ∨ s.nextItem = s.slots.length) → ¬ s.Live s.nextItem

/-- Every sequence of operations is defined and ends in a coherent storage.  An
    operation is undefined when `Delete` looks up an absent fingerprint or an iterator
    without a node is followed. -/
def OperatesSafely (s : LruStorage) : Prop :=
  ∀ ops : List (UInt32 × Op), ∃ s', run s ops = some s' ∧ Coherent s'

/-- The dead slots have no live slot between them. -/
def ContiguousDead (slots : List Slot) : Prop :=
  ∀ i j k, i < j → j < k → k < slots.length →
    (slotAt slots i).timestamp = 0 → (slotAt slots k).timestamp = 0 →
    (slotAt slots j).timestamp = 0

/-! ## Good images operate safely -/

variable {s : LruStorage} {e : Nat}

theorem Linked.coherent (h : Linked s e) : Coherent s where
  maps_live := fun _ hn => h.lookup_node hn
  next_free := by
    intro fp _ hfree ⟨n, hn, hslot⟩
    refine h.next_free ?_ hn hslot
    have := h.length_lruMap
    omega

theorem Effect.size_eq {s' : LruStorage} {now : UInt32} (heff : Effect s now s') :
    s'.size = s.size := by
  cases heff <;> rfl

theorem Linked.effects {s' : LruStorage} {now : UInt32} (h : Linked s e)
    (heffs : Relation.ReflTransGen (fun a b => Effect a now b) s s') :
    Linked s' e ∧ s'.size = s.size := by
  induction heffs with
  | refl => exact ⟨h, rfl⟩
  | tail _ heff ih => exact ⟨ih.1.effect heff, heff.size_eq.trans ih.2⟩

/-- From a linked storage every sequence of operations is defined and keeps it linked. -/
theorem run_linked : ∀ (ops : List (UInt32 × Op)) (s : LruStorage), Linked s e →
    0 < s.size → ∃ s', run s ops = some s' ∧ Linked s' e := by
  intro ops
  induction ops with
  | nil => intro s h _; exact ⟨s, rfl, h⟩
  | cons first rest ih =>
    intro s h hpos
    obtain ⟨now, op⟩ := first
    obtain ⟨s', hstep, heffs⟩ := step_effects h hpos now op
    obtain ⟨h', hsize⟩ := h.effects heffs
    obtain ⟨s'', hrun, h''⟩ := ih s' h' (hsize ▸ hpos)
    refine ⟨s'', ?_, h''⟩
    rw [run, hstep]
    exact hrun

/-- Dead slots without a live one between them are an interval `[d, e)`. -/
theorem dead_interval {slots : List Slot} (h : ContiguousDead slots) :
    ∃ d e, d ≤ e ∧ e ≤ slots.length ∧ (d = slots.length ∨ d < e) ∧
      ∀ i < slots.length, (slotAt slots i).timestamp ≠ 0 ↔ i < d ∨ e ≤ i := by
  by_cases hdead : ∃ d, d < slots.length ∧ (slotAt slots d).timestamp = 0
  · -- the first dead slot, and the first live slot after it
    let d := Nat.find hdead
    obtain ⟨hdlt, hdts⟩ : d < slots.length ∧ (slotAt slots d).timestamp = 0 :=
      Nat.find_spec hdead
    have hbefore : ∀ i < d, (slotAt slots i).timestamp ≠ 0 := by
      intro i hi hts
      exact Nat.find_min hdead hi ⟨by omega, hts⟩
    have hend : ∃ e, d < e ∧ (e = slots.length ∨ (slotAt slots e).timestamp ≠ 0) :=
      ⟨slots.length, hdlt, Or.inl rfl⟩
    let e := Nat.find hend
    obtain ⟨hde, hets⟩ : d < e ∧ (e = slots.length ∨ (slotAt slots e).timestamp ≠ 0) :=
      Nat.find_spec hend
    have hele : e ≤ slots.length := Nat.find_min' hend ⟨hdlt, Or.inl rfl⟩
    have hmid : ∀ i, d ≤ i → i < e → (slotAt slots i).timestamp = 0 := by
      intro i hdi hie
      by_cases heq : i = d
      · rw [heq]; exact hdts
      · by_contra hts
        exact Nat.find_min hend hie ⟨by omega, Or.inr hts⟩
    refine ⟨d, e, by omega, hele, Or.inr hde, ?_⟩
    intro i hi
    constructor
    · intro hts
      by_contra hcon
      exact hts (hmid i (by omega) (by omega))
    · rintro (hid | hei)
      · exact hbefore i hid
      · intro hts
        rcases hets with heq | hlive
        · omega
        · by_cases hie : e = i
          · exact hlive (hie ▸ hts)
          · exact hlive (h d e i hde (by omega) hi hdts hts)
  · refine ⟨slots.length, slots.length, Nat.le_refl _, Nat.le_refl _, Or.inl rfl, ?_⟩
    intro i hi
    exact ⟨fun _ => Or.inl hi, fun _ hts => hdead ⟨i, hi, hts⟩⟩

variable {bytes : Bytes}

theorem openImage_openSlots (h : openImage bytes = some s) :
    s = openSlots s.valueSize s.size s.seed s.slots ∧ s.slots.length = s.size ∧
      0 < s.size ∧ s.size ≤ kMaxLruSize := by
  have hchunks : ∀ (n count : Nat) (bs : Bytes), (chunks n count bs).length = count := by
    intro n count
    induction count with
    | zero => intro bs; rfl
    | succ count ih => intro bs; rw [chunks, List.length_cons, ih]
  rw [openImage] at h
  split at h
  · cases h
  · split at h
    · cases h
    · rename_i hsize
      split at h
      · cases h
      · split at h
        · cases h
        · rw [← Option.some.inj h]
          refine ⟨rfl, ?_, ?_, ?_⟩
          · show (List.map _ _).length = _
            rw [List.length_map, hchunks]
            rfl
          · show 0 < LittleEndian.loadLE _
            omega
          · show LittleEndian.loadLE _ ≤ _
            omega

theorem operatesSafely_of_image (h : openImage bytes = some s) (hfp : DistinctFps s.slots)
    (hdead : ContiguousDead s.slots) : OperatesSafely s := by
  obtain ⟨heq, hlen, hpos, -⟩ := openImage_openSlots h
  obtain ⟨d, e, hde, hele, hd, hlive⟩ := dead_interval hdead
  rw [hlen] at hele hd hlive
  have hlinked := (openSlots_linked s.valueSize s.seed hlen hde hele hd
    hlive hfp).1
  rw [← heq] at hlinked
  intro ops
  obtain ⟨s', hrun, h'⟩ := run_linked ops s hlinked hpos
  exact ⟨s', hrun, h'.coherent⟩

/-! ## Repeated fingerprints -/

theorem distinctFps_of_operatesSafely (h : openImage bytes = some s) (hsafe : OperatesSafely s) :
    DistinctFps s.slots := by
  obtain ⟨heq, hlen, -, -⟩ := openImage_openSlots h
  have hlist : s.lruList = (liveSlots s.slots).map (fun i => (⟨i, i⟩ : Node)) := by
    rw [heq]
    rfl
  obtain ⟨s', hrun, hcoh⟩ := hsafe []
  rw [← Option.some.inj hrun] at hcoh
  intro i j hi hj hti htj hfp
  have hnode : ∀ k, k < s.slots.length → (slotAt s.slots k).timestamp ≠ 0 →
      s.lruMap.lookup (slotAt s.slots k).fp = some k := by
    intro k hk htk
    refine hcoh.maps_live ⟨k, k⟩ ?_
    rw [hlist]
    exact List.mem_map.mpr ⟨k, mem_liveSlots.mpr ⟨hk, htk⟩, rfl⟩
  have hlook := hnode i hi hti
  rw [hfp, hnode j hj htj] at hlook
  exact (Option.some.inj hlook).symm

/-! ## A live slot between dead ones -/

theorem exists_fresh (m : AList (fun _ : UInt64 => Nat)) (hm : m.entries.length < kMaxLruSize) :
    ∃ fp, m.lookup fp = none := by
  by_contra hall
  have hmem : ∀ fp, fp ∈ m.keys := by
    intro fp
    by_contra hnot
    exact hall ⟨fp, AList.lookup_eq_none.mpr (fun h => hnot (AList.mem_keys.mp h))⟩
  have hnodup : ((List.range (m.entries.length + 1)).map UInt64.ofNat).Nodup := by
    refine List.Nodup.map_on ?_ List.nodup_range
    intro a ha b hb hab
    have hlt : ∀ k ∈ List.range (m.entries.length + 1), k < 2 ^ 64 := by
      intro k hk
      have := List.mem_range.mp hk
      rw [kMaxLruSize] at hm
      omega
    have := congrArg UInt64.toNat hab
    rw [UInt64.toNat_ofNat_of_lt' (hlt a ha), UInt64.toNat_ofNat_of_lt' (hlt b hb)] at this
    exact this
  have hle := (List.subperm_of_subset hnodup (fun fp _ => hmem fp)).length_le
  rw [List.length_map, List.length_range, AList.keys, List.keys, List.length_map] at hle
  omega

/-- Insertions can bring `next_item_` to the live slot `e` while the map has room. -/
structure Doomed (s : LruStorage) (e : Nat) : Prop where
  length_eq : s.slots.length = s.size
  size_le : s.size ≤ kMaxLruSize
  next_le : s.nextItem ≤ e
  e_lt : e < s.size
  live : s.Live e
  room : s.lruMap.entries.length + (e - s.nextItem) < s.size

theorem Doomed.insert (h : Doomed s e) (hlt : s.nextItem < e) :
    ∃ fp s', step 1 s (.insert fp (some (fun _ => 0))) = some s' ∧ Doomed s' e ∧
      s'.nextItem = s.nextItem + 1 := by
  have hlen := h.length_eq
  have helt := h.e_lt
  have hroom := h.room
  have hsize := h.size_le
  obtain ⟨fp, hfp⟩ := exists_fresh s.lruMap (by omega)
  refine ⟨fp, s.grown ⟨fp, 1, readValue (fun _ => 0) s.valueSize⟩, ?_, ?_, rfl⟩
  · rw [step, LruStorage.insert, hfp]
    dsimp only
    rw [if_neg (by omega), if_pos (by omega)]
    rfl
  · have hnot : fp ∉ s.lruMap := AList.lookup_eq_none.mp hfp
    exact
      { length_eq := by
          show (s.slots.set _ _).length = s.size
          rw [List.length_set]
          exact hlen
        size_le := hsize
        next_le := hlt
        e_lt := helt
        live := by
          obtain ⟨n, hn, hslot⟩ := h.live
          exact ⟨n, List.mem_cons_of_mem _ hn, hslot⟩
        room := by
          show (s.lruMap.insert fp s.nextId).entries.length + (e - (s.nextItem + 1)) < s.size
          rw [AList.entries_insert_of_notMem hnot, List.length_cons]
          omega }

/-- A doomed storage has a run after which `Insert` overwrites a live slot. -/
theorem Doomed.not_operatesSafely : ∀ (k : Nat) (s : LruStorage), Doomed s e →
    e - s.nextItem = k → ¬ OperatesSafely s := by
  intro k
  induction k with
  | zero =>
    intro s h hk hsafe
    obtain ⟨s', hrun, hcoh⟩ := hsafe []
    rw [← Option.some.inj hrun] at hcoh
    have hlen := h.length_eq
    have hroom := h.room
    have hsize := h.size_le
    have helt := h.e_lt
    have hnext : s.nextItem = e := by have := h.next_le; omega
    obtain ⟨fp, hfp⟩ := exists_fresh s.lruMap (by omega)
    exact hcoh.next_free fp hfp (by omega) (hnext ▸ h.live)
  | succ k ih =>
    intro s h hk hsafe
    obtain ⟨fp, s', hstep, h', hnext⟩ := h.insert (by omega)
    refine ih s' h' (by omega) ?_
    intro ops
    obtain ⟨s'', hrun, hcoh⟩ := hsafe ((1, .insert fp (some (fun _ => 0))) :: ops)
    refine ⟨s'', ?_, hcoh⟩
    rw [run, hstep] at hrun
    exact hrun

/-- The map that `Open` builds has at most one entry for each live slot. -/
theorem length_foldl_insert (f : Nat → UInt64) : ∀ (l : List Nat)
    (m : AList (fun _ : UInt64 => Nat)),
    (l.foldl (fun m i => m.insert (f i) i) m).entries.length ≤ m.entries.length + l.length := by
  intro l
  induction l with
  | nil => intro m; exact Nat.le_refl _
  | cons i l ih =>
    intro m
    have hinsert : (m.insert (f i) i).entries.length ≤ m.entries.length + 1 := by
      rw [AList.entries_insert, List.length_cons]
      have := (List.kerase_sublist (f i) m.entries).length_le
      omega
    have := ih (m.insert (f i) i)
    rw [List.foldl_cons, List.length_cons]
    omega

theorem contiguousDead_of_operatesSafely (h : openImage bytes = some s) (hsafe : OperatesSafely s) :
    ContiguousDead s.slots := by
  obtain ⟨heq, hlen, hpos, hmax⟩ := openImage_openSlots h
  intro i j k hij hjk hk hti htk
  by_contra htj
  -- the first dead slot, and the first live slot after it
  have hdead : ∃ d, (slotAt s.slots d).timestamp = 0 := ⟨i, hti⟩
  let d := Nat.find hdead
  have hdts : (slotAt s.slots d).timestamp = 0 := Nat.find_spec hdead
  have hdi : d ≤ i := Nat.find_min' hdead hti
  have hbefore : ∀ i' < d, (slotAt s.slots i').timestamp ≠ 0 := fun _ => Nat.find_min hdead
  have hlive : ∃ e, d < e ∧ (slotAt s.slots e).timestamp ≠ 0 := ⟨j, by omega, htj⟩
  let e := Nat.find hlive
  obtain ⟨hde, hets⟩ : d < e ∧ (slotAt s.slots e).timestamp ≠ 0 := Nat.find_spec hlive
  have hej : e ≤ j := Nat.find_min' hlive ⟨by omega, htj⟩
  have hmid : ∀ i', d ≤ i' → i' < e → (slotAt s.slots i').timestamp = 0 := by
    intro i' h1 h2
    by_cases hi' : i' = d
    · rw [hi']; exact hdts
    · by_contra hts
      exact Nat.find_min hlive h2 ⟨by omega, hts⟩
  have hnext : s.nextItem = d := by
    rw [heq]
    exact openSlots_nextItem hbefore (Or.inr ⟨by omega, hdts⟩)
  -- the live slots, the slots `[d, e)` and `k` are different slots
  have hcount : (liveSlots s.slots).length + (e - d) + 1 ≤ s.size := by
    have hnodup : (k :: (List.range' d (e - d) ++ liveSlots s.slots)).Nodup := by
      refine List.nodup_cons.mpr ⟨?_, List.nodup_append.mpr
        ⟨List.nodup_range', nodup_liveSlots s.slots, ?_⟩⟩
      · intro hmem
        rcases List.mem_append.mp hmem with h1 | h2
        · have := List.mem_range'_1.mp h1
          omega
        · exact (mem_liveSlots.mp h2).2 htk
      · intro a ha b hb hab
        have := List.mem_range'_1.mp ha
        exact (mem_liveSlots.mp hb).2 (hab ▸ hmid a (by omega) (by omega))
    have hsubset : ∀ a ∈ k :: (List.range' d (e - d) ++ liveSlots s.slots),
        a ∈ List.range s.size := by
      intro a ha
      rw [List.mem_range, ← hlen]
      rcases List.mem_cons.mp ha with rfl | hmem
      · exact hk
      · rcases List.mem_append.mp hmem with h1 | h2
        · have := List.mem_range'_1.mp h1
          omega
        · exact (mem_liveSlots.mp h2).1
    have := (List.subperm_of_subset hnodup hsubset).length_le
    rw [List.length_cons, List.length_append, List.length_range', List.length_range] at this
    omega
  have hmap : s.lruMap.entries.length ≤ (liveSlots s.slots).length := by
    rw [heq]
    have := length_foldl_insert (fun i => (slotAt s.slots i).fp) (liveSlots s.slots) ∅
    rw [show (∅ : AList (fun _ : UInt64 => Nat)).entries.length = 0 from rfl, Nat.zero_add] at this
    exact this
  have hdoomed : Doomed s e :=
    { length_eq := hlen
      size_le := hmax
      next_le := by omega
      e_lt := by omega
      live := by
        refine ⟨⟨e, e⟩, ?_, rfl⟩
        rw [heq]
        exact List.mem_map.mpr ⟨e, mem_liveSlots.mpr ⟨by omega, hets⟩, rfl⟩
      room := by omega }
  exact hdoomed.not_operatesSafely _ s rfl hsafe

/-! ## Exactly the good images -/

/-- **WHICH IMAGES CAN BE OPERATED ON.**  A storage opened from an image operates safely
    exactly when its live fingerprints are distinct and no live slot lies between dead
    ones. -/
theorem operatesSafely_iff {bytes : Bytes} {s : LruStorage} (h : openImage bytes = some s) :
    OperatesSafely s ↔ DistinctFps s.slots ∧ ContiguousDead s.slots :=
  ⟨fun hsafe => ⟨distinctFps_of_operatesSafely h hsafe, contiguousDead_of_operatesSafely h hsafe⟩,
    fun ⟨hfp, hdead⟩ => operatesSafely_of_image h hfp hdead⟩

/-- Two live slots with the fingerprints 7 and `fp`. -/
def twoSlots (fp : UInt64) : List Slot := [⟨7, 1, [0, 0, 0, 0]⟩, ⟨fp, 2, [0, 0, 0, 0]⟩]

theorem openImage_twoSlots (fp : UInt64) :
    openImage (encodeImage 4 2 0 (twoSlots fp)) = some (openSlots 4 2 0 (twoSlots fp)) :=
  openImage_encodeImage
    { valueSize_mod := by decide
      valueSize_pos := by decide
      valueSize_le := by decide
      size_pos := by decide
      size_le := by decide
      length_eq := rfl
      value_length := by simp [twoSlots] }

/-- Two fingerprints, and no dead slot. -/
theorem operatesSafely_distinct : OperatesSafely (openSlots 4 2 0 (twoSlots 8)) := by
  refine (operatesSafely_iff (openImage_twoSlots 8)).mpr ⟨fun i j hi hj _ _ hfp => ?_,
    fun i j k hij hjk hk => ?_⟩
  · have hlt : ∀ i < 2, ∀ j < 2,
        (slotAt (twoSlots 8) i).fp = (slotAt (twoSlots 8) j).fp → i = j := by
      decide
    exact hlt i hi j hj hfp
  · have hk' : k < 2 := hk
    omega

/-- `Open` accepts an image it cannot operate on. -/
theorem open_accepts_unsafe :
    ¬ ∀ (bytes : Bytes) (s : LruStorage), openImage bytes = some s → OperatesSafely s := by
  intro hall
  have hfp := distinctFps_of_operatesSafely (openImage_twoSlots 7)
    (hall _ _ (openImage_twoSlots 7))
  exact absurd (hfp 0 1 (by decide) (by decide) (by decide) (by decide) rfl) (by decide)

end MozkeyLru
