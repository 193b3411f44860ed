import Mozkey.LruSoundProofs

/-! # LruStorage — opening the file again

    Reopening, `Clear` and `Merge` all rebuild the list and the map from the bytes. -/

namespace MozkeyLru

open ByteString LittleEndian LruStorage

/-! ## Opening again -/

variable {now : UInt32}

/-- **OPENING ESTABLISHES THE INVARIANT** when the live slots are a prefix with distinct
    fingerprints and past timestamps, and the other slots are zero. -/
theorem sound_openSlots {valueSize size : Nat} {seed : UInt32} {slots : List Slot} {d : Nat}
    (hf : Formatted valueSize size slots) (hd : d ≤ size)
    (hlive : ∀ i < size, (slotAt slots i).timestamp ≠ 0 ↔ i < d) (hfp : DistinctFps slots)
    (hnow : ∀ i < size, (slotAt slots i).timestamp ≤ now)
    (hzero : ∀ i, d ≤ i → i < size → slotAt slots i = zeroSlot valueSize) :
    Sound now (openSlots valueSize size seed slots) := by
  obtain ⟨hlinked, hnext⟩ := openSlots_linked valueSize seed
    hf.length_eq hd (Nat.le_refl size) (by omega)
    (fun i hi => (hlive i hi).trans ⟨Or.inl, fun h => h.resolve_right (by omega)⟩) hfp
  exact
    { formatted := hf
      linked := hlinked
      ordered := openSlots_ordered valueSize size seed slots
      stamped := by
        intro n hn
        obtain ⟨i, hi, rfl⟩ := List.mem_map.mp hn
        obtain ⟨hlt, hts⟩ := mem_liveSlots.mp hi
        exact ⟨hts, hnow i (by rw [← hf.length_eq]; exact hlt)⟩
      vacant := by
        intro i hi hlt
        rw [hnext] at hi
        exact hzero i hi hlt }

variable {s s' : LruStorage}

theorem Sound.reopen (h : Sound now s) (hopen : openImage s.image = some s') : Sound now s' := by
  rw [image, openImage_encodeImage h.formatted] at hopen
  rw [← Option.some.inj hopen]
  exact sound_openSlots h.formatted h.nextItem_le (fun i hi => h.live_iff hi) h.distinctFps
    (fun i hi => h.timestamp_le hi) h.vacant

theorem slotAt_replicate {n i : Nat} {c : Slot} (h : i < n) :
    slotAt (List.replicate n c) i = c := by
  rw [slotAt_eq (by rw [List.length_replicate]; exact h), List.getElem_replicate]

theorem sound_zero {now : UInt32} {valueSize size : Nat} {seed : UInt32}
    (hf : Formatted valueSize size (List.replicate size (zeroSlot valueSize))) :
    Sound now (openSlots valueSize size seed (List.replicate size (zeroSlot valueSize))) := by
  have hread : ∀ i < size, slotAt (List.replicate size (zeroSlot valueSize)) i
      = zeroSlot valueSize := fun i hi => slotAt_replicate hi
  refine sound_openSlots hf (Nat.zero_le size) ?_ ?_ ?_ (fun i _ hi => hread i hi)
  · intro i hi
    rw [hread i hi]
    exact ⟨fun h => absurd rfl h, fun h => absurd h (Nat.not_lt_zero i)⟩
  · intro i j hi _ hti
    rw [List.length_replicate] at hi
    rw [hread i hi] at hti
    exact absurd rfl hti
  · intro i hi
    rw [hread i hi]
    exact UInt32.le_iff_toNat_le.mpr (Nat.zero_le _)

theorem formatted_zero {valueSize size : Nat} (hmod : valueSize % 4 = 0) (hvs : valueSize ≠ 0)
    (hvs' : valueSize ≤ kMaxValueSize) (hsz : size ≠ 0) (hsz' : size ≤ kMaxLruSize) :
    Formatted valueSize size (List.replicate size (zeroSlot valueSize)) :=
  { valueSize_mod := hmod
    valueSize_pos := hvs
    valueSize_le := hvs'
    size_pos := hsz
    size_le := hsz'
    length_eq := List.length_replicate
    value_length := fun x hx => by
      rw [List.eq_of_mem_replicate hx]
      exact length_zeroSlot valueSize }

theorem createStorageFile_eq {valueSize size : Nat} {seed : UInt32} {bytes : Bytes}
    (h : createStorageFile valueSize size seed = some bytes) :
    Formatted valueSize size (List.replicate size (zeroSlot valueSize)) ∧
      bytes = encodeImage valueSize size seed (List.replicate size (zeroSlot valueSize)) := by
  rw [createStorageFile] at h
  by_cases hvs : valueSize = 0 ∨ valueSize > kMaxValueSize
  · rw [if_pos hvs] at h; exact nomatch h
  · by_cases hsz : size = 0 ∨ size > kMaxLruSize
    · rw [if_neg hvs, if_pos hsz] at h; exact nomatch h
    · by_cases hmod : valueSize % 4 ≠ 0
      · rw [if_neg hvs, if_neg hsz, if_pos hmod] at h; exact nomatch h
      · rw [if_neg hvs, if_neg hsz, if_neg hmod] at h
        exact ⟨formatted_zero (by omega) (by omega) (by omega) (by omega) (by omega),
          (Option.some.inj h).symm⟩

/-! ### Clear -/

theorem encodeSlot_zeroSlot (valueSize : Nat) :
    encodeSlot (zeroSlot valueSize) = List.replicate (valueSize + kItemHeaderSize) 0 := by
  show storeLE 8 0 ++ storeLE 4 0 ++ List.replicate valueSize 0 = _
  rw [storeLE_zero, storeLE_zero, List.replicate_append_replicate,
    List.replicate_append_replicate, kItemHeaderSize]
  congr 1
  omega

theorem flatMap_zeroSlot (valueSize : Nat) : ∀ n,
    (List.replicate n (zeroSlot valueSize)).flatMap encodeSlot
      = List.replicate ((valueSize + kItemHeaderSize) * n) 0 := by
  intro n
  induction n with
  | zero => rfl
  | succ n ih =>
    rw [List.replicate_succ, List.flatMap_cons, ih, encodeSlot_zeroSlot,
      List.replicate_append_replicate, Nat.mul_add, Nat.mul_one, Nat.add_comm]

/-- The slots `Clear` leaves: zero but for the fingerprint of the first. -/
def clearedSlots (s : LruStorage) : List Slot :=
  ⟨(slotAt s.slots 0).fp, 0, List.replicate s.valueSize 0⟩ ::
    List.replicate (s.size - 1) (zeroSlot s.valueSize)

/-- Zeroing the image from byte 20 on keeps the header and the first fingerprint. -/
theorem image_cleared (hf : Formatted s.valueSize s.size s.slots) :
    20 < s.image.length ∧ s.image.take 20 ++ List.replicate (s.image.length - 20) 0
      = encodeImage s.valueSize s.size s.seed (clearedSlots s) := by
  have hlen : s.image.length = 12 + (s.valueSize + kItemHeaderSize) * s.size := by
    rw [image, encodeImage, List.length_append, List.length_append, List.length_append,
      length_storeLE, length_storeLE, length_storeLE,
      length_flatMap_encodeSlot s.slots hf.value_length, hf.length_eq]
  obtain ⟨n, hn⟩ : ∃ n, s.size = n + 1 := ⟨s.size - 1, by have := hf.size_pos; omega⟩
  cases hslots : s.slots with
  | nil =>
    have := hf.length_eq
    rw [hslots, List.length_nil] at this
    exact absurd this.symm hf.size_pos
  | cons first rest =>
    have hlen' : s.image.length - 20 = 4 + s.valueSize + (s.valueSize + kItemHeaderSize) * n := by
      rw [hlen, hn, Nat.mul_add, Nat.mul_one, kItemHeaderSize]
      omega
    have htake : s.image.take 20 = storeLE 4 s.valueSize ++ storeLE 4 s.size
        ++ storeLE 4 s.seed.toNat ++ storeLE 8 first.fp.toNat := by
      rw [image, encodeImage, hslots, List.flatMap_cons, encodeSlot,
        List.append_assoc (storeLE 8 _), List.append_assoc (storeLE 8 _), ← List.append_assoc]
      exact List.take_left' (by simp only [List.length_append, length_storeLE])
    refine ⟨by rw [hlen, hn, Nat.mul_add, kItemHeaderSize]; omega, ?_⟩
    rw [htake, hlen', clearedSlots, hslots, encodeImage, List.flatMap_cons, flatMap_zeroSlot,
      hn, Nat.add_sub_cancel, encodeSlot]
    show _ = _ ++ (storeLE 8 first.fp.toNat ++ storeLE 4 0 ++ _ ++ _)
    rw [storeLE_zero, List.append_assoc, List.append_assoc (storeLE 8 _),
      List.append_assoc (storeLE 8 _), List.replicate_append_replicate,
      List.replicate_append_replicate]

theorem formatted_cleared (hf : Formatted s.valueSize s.size s.slots) :
    Formatted s.valueSize s.size (clearedSlots s) :=
  { hf with
    length_eq := by
      have := hf.size_pos
      rw [clearedSlots, List.length_cons, List.length_replicate]
      omega
    value_length := by
      intro x hx
      rcases List.mem_cons.mp hx with heq | hmem
      · rw [heq]; exact List.length_replicate
      · rw [List.eq_of_mem_replicate hmem]; exact length_zeroSlot _ }

/-- **WHAT `Clear` DOES** to a non-empty storage: the file keeps the fingerprint of its
    first slot. -/
theorem clear_eq (hf : Formatted s.valueSize s.size s.slots) (hne : s.lruList ≠ []) :
    s.clear = some (true, openSlots s.valueSize s.size s.seed (clearedSlots s)) := by
  obtain ⟨hlt, himage⟩ := image_cleared hf
  rw [clear, if_neg hne]
  show (if 20 ≥ s.image.length then _ else _) = _
  rw [if_neg (by omega)]
  show (openImage (s.image.take 20 ++ List.replicate (s.image.length - 20) 0)).map _ = _
  rw [himage, openImage_encodeImage (formatted_cleared hf)]
  rfl

/-- `Clear` has nothing to leave behind: the list is empty, or the fingerprint in the
    first slot is 0. -/
def SafeToClear (s : LruStorage) : Prop := s.lruList = [] ∨ (slotAt s.slots 0).fp = 0

theorem Sound.clear {b : Bool} (h : Sound now s) (hsafe : SafeToClear s)
    (hclear : s.clear = some (b, s')) : Sound now s' := by
  by_cases hempty : s.lruList = []
  · rw [LruStorage.clear, if_pos hempty] at hclear
    have : s = s' := (Prod.mk.inj (Option.some.inj hclear)).2
    exact this ▸ h
  · have hfp : (slotAt s.slots 0).fp = 0 := hsafe.resolve_left hempty
    rw [clear_eq h.formatted hempty] at hclear
    rw [← (Prod.mk.inj (Option.some.inj hclear)).2]
    have hzero : clearedSlots s = List.replicate s.size (zeroSlot s.valueSize) := by
      obtain ⟨n, hn⟩ : ∃ n, s.size = n + 1 :=
        ⟨s.size - 1, by have := h.formatted.size_pos; omega⟩
      rw [clearedSlots, hfp, hn, Nat.add_sub_cancel, List.replicate_succ, zeroSlot]
    rw [hzero]
    exact sound_zero (hzero ▸ formatted_cleared h.formatted)

/-! ### Merge -/

theorem live_prefix_of_sorted : ∀ {slots : List Slot},
    slots.Pairwise (fun a b => b.timestamp ≤ a.timestamp) →
    ∃ d ≤ slots.length, ∀ i < slots.length, (slotAt slots i).timestamp ≠ 0 ↔ i < d := by
  intro slots
  induction slots with
  | nil => intro _; exact ⟨0, Nat.le_refl 0, fun i hi => absurd hi (Nat.not_lt_zero i)⟩
  | cons first rest ih =>
    intro h
    rw [List.pairwise_cons] at h
    by_cases hfirst : first.timestamp = 0
    · refine ⟨0, Nat.zero_le _, ?_⟩
      intro i hi
      refine ⟨fun hts => absurd ?_ hts, fun hlt => absurd hlt (Nat.not_lt_zero i)⟩
      rcases List.mem_cons.mp (slotAt_mem hi) with heq | hmem
      · rw [heq]; exact hfirst
      · have := h.1 _ hmem
        rw [hfirst] at this
        exact UInt32.le_antisymm this (UInt32.le_iff_toNat_le.mpr (Nat.zero_le _))
    · obtain ⟨d, hd, hlive⟩ := ih h.2
      refine ⟨d + 1, Nat.succ_le_succ hd, ?_⟩
      intro i hi
      cases i with
      | zero => exact ⟨fun _ => Nat.succ_pos d, fun _ => hfirst⟩
      | succ i =>
        rw [show slotAt (first :: rest) (i + 1) = slotAt rest i from rfl,
          hlive i (Nat.lt_of_succ_lt_succ hi)]
        omega

theorem sound_of_sorted {valueSize size : Nat} {seed : UInt32} {slots : List Slot}
    (hf : Formatted valueSize size slots)
    (hsorted : slots.Pairwise (fun a b => b.timestamp ≤ a.timestamp))
    (hslot : ∀ x ∈ slots, x.timestamp ≤ now ∧ (x.timestamp = 0 → x = zeroSlot valueSize))
    (hfp : DistinctFps slots) : Sound now (openSlots valueSize size seed slots) := by
  obtain ⟨d, hd, hlive⟩ := live_prefix_of_sorted hsorted
  rw [hf.length_eq] at hd hlive
  refine sound_openSlots hf hd hlive hfp ?_ ?_
  · intro i hi
    exact (hslot _ (slotAt_mem (by rw [hf.length_eq]; exact hi))).1
  · intro i hdi hi
    refine (hslot _ (slotAt_mem (by rw [hf.length_eq]; exact hi))).2 ?_
    by_contra hts
    have := (hlive i hi).mp hts
    omega

theorem dropSeen_sublist : ∀ (l : List Slot) (seen : List UInt64),
    (dropSeen seen l).Sublist l := by
  intro l
  induction l with
  | nil => intro seen; exact List.Sublist.refl _
  | cons x rest ih =>
    intro seen
    rw [dropSeen]
    by_cases hseen : x.fp ∈ seen
    · rw [if_pos hseen]
      exact (ih seen).cons x
    · rw [if_neg hseen]
      exact (ih (x.fp :: seen)).cons_cons x

theorem dropSeen_nodup : ∀ (l : List Slot) (seen : List UInt64),
    ((dropSeen seen l).map Slot.fp).Nodup ∧ ∀ x ∈ dropSeen seen l, x.fp ∉ seen := by
  intro l
  induction l with
  | nil =>
    intro seen
    exact ⟨List.nodup_nil, fun x hx => absurd hx List.not_mem_nil⟩
  | cons x rest ih =>
    intro seen
    rw [dropSeen]
    by_cases hseen : x.fp ∈ seen
    · rw [if_pos hseen]
      exact ih seen
    · rw [if_neg hseen]
      obtain ⟨hnodup, hnot⟩ := ih (x.fp :: seen)
      refine ⟨?_, ?_⟩
      · refine List.nodup_cons.mpr ⟨?_, hnodup⟩
        intro hmem
        obtain ⟨y, hy, heq⟩ := List.mem_map.mp hmem
        exact hnot y hy (heq ▸ List.mem_cons_self)
      · intro y hy
        rcases List.mem_cons.mp hy with heq | hmem
        · rw [heq]; exact hseen
        · exact fun hys => hnot y hmem (List.mem_cons_of_mem _ hys)

/-- Every slot of a sound storage is live in the past or zero. -/
theorem Sound.slot_spec (h : Sound now s) {x : Slot} (hx : x ∈ s.slots) :
    x.value.length = s.valueSize ∧ x.timestamp ≤ now ∧
      (x.timestamp = 0 → x = zeroSlot s.valueSize) := by
  obtain ⟨i, hi, rfl⟩ := List.mem_iff_getElem.mp hx
  have hlt : i < s.size := by rw [← h.linked.length_eq]; exact hi
  rw [← slotAt_eq hi]
  refine ⟨h.formatted.value_length _ (slotAt_mem hi), h.timestamp_le hlt, ?_⟩
  intro hts
  refine h.vacant i ?_ hlt
  by_contra hnext
  exact (h.live_iff hlt).mpr (by omega) hts

/-- **MERGING SOUND STORAGES IS SOUND.** -/
theorem Sound.merge {other : LruStorage} {b : Bool} (h : Sound now s) (hother : Sound now other)
    (hmerge : s.merge other = some (b, s')) : Sound now s' := by
  rw [LruStorage.merge] at hmerge
  by_cases hvs : other.valueSize ≠ s.valueSize
  · rw [if_pos hvs] at hmerge
    exact (Prod.mk.inj (Option.some.inj hmerge)).2 ▸ h
  · by_cases hseed : s.seed ≠ other.seed
    · rw [if_neg hvs, if_pos hseed] at hmerge
      exact (Prod.mk.inj (Option.some.inj hmerge)).2 ▸ h
    · rw [if_neg hvs, if_neg hseed] at hmerge
      rw [not_not] at hvs
      -- the sorted slots of both files, and what is written back
      let ary := (s.slots ++ other.slots).insertionSort (fun a b => b.timestamp ≤ a.timestamp)
      let buf := (dropSeen [] ary).take s.slots.length
      have hmerged : s.mergedSlots other
          = buf ++ List.replicate (s.slots.length - buf.length) (zeroSlot s.valueSize) := rfl
      have hsub : buf.Sublist ary :=
        (List.take_sublist _ _).trans (dropSeen_sublist ary [])
      have hspec : ∀ x ∈ s.mergedSlots other, x.value.length = s.valueSize ∧
          x.timestamp ≤ now ∧ (x.timestamp = 0 → x = zeroSlot s.valueSize) := by
        intro x hx
        rw [hmerged] at hx
        rcases List.mem_append.mp hx with hbuf | hzero
        · have hary : x ∈ s.slots ++ other.slots :=
            (List.mem_insertionSort _).mp (hsub.subset hbuf)
          rcases List.mem_append.mp hary with hs | ho
          · exact h.slot_spec hs
          · exact hvs ▸ hother.slot_spec ho
        · rw [List.eq_of_mem_replicate hzero]
          exact ⟨length_zeroSlot _, UInt32.le_iff_toNat_le.mpr (Nat.zero_le _), fun _ => rfl⟩
      have hlen : (s.mergedSlots other).length = s.size := by
        have hbuf : buf.length ≤ s.slots.length := List.length_take_le _ _
        rw [hmerged, List.length_append, List.length_replicate, ← h.linked.length_eq]
        omega
      have hf : Formatted s.valueSize s.size (s.mergedSlots other) :=
        { h.formatted with
          length_eq := hlen
          value_length := fun x hx => (hspec x hx).1 }
      have hsorted : (s.mergedSlots other).Pairwise (fun a b => b.timestamp ≤ a.timestamp) := by
        rw [hmerged]
        refine List.pairwise_append.mpr ⟨(pairwise_sortBy Slot.timestamp _).sublist hsub, ?_, ?_⟩
        · refine List.pairwise_of_forall_mem_list ?_
          intro x hx y hy
          rw [List.eq_of_mem_replicate hx, List.eq_of_mem_replicate hy]
          exact UInt32.le_refl _
        · intro x _ y hy
          rw [List.eq_of_mem_replicate hy]
          exact UInt32.le_iff_toNat_le.mpr (Nat.zero_le _)
      have hnodup : (buf.map Slot.fp).Nodup :=
        (dropSeen_nodup ary []).1.sublist ((List.take_sublist _ _).map _)
      have hinbuf : ∀ i, i < (s.mergedSlots other).length →
          (slotAt (s.mergedSlots other) i).timestamp ≠ 0 →
          ∃ hi : i < buf.length, slotAt (s.mergedSlots other) i = buf[i] := by
        intro i hi hts
        by_cases hib : i < buf.length
        · refine ⟨hib, ?_⟩
          rw [slotAt_eq hi]
          exact List.getElem_append_left hib
        · refine absurd ?_ hts
          rw [slotAt_eq hi, List.getElem_of_eq hmerged hi,
            List.getElem_append_right (by omega), List.getElem_replicate]
          rfl
      have hdistinct : DistinctFps (s.mergedSlots other) := by
        intro i j hi hj hti htj heq
        obtain ⟨hib, hri⟩ := hinbuf i hi hti
        obtain ⟨hjb, hrj⟩ := hinbuf j hj htj
        rw [hri, hrj] at heq
        refine (List.getElem?_inj (by rw [List.length_map]; exact hib) hnodup).mp ?_
        rw [List.getElem?_map, List.getElem?_map, List.getElem?_eq_getElem hib,
          List.getElem?_eq_getElem hjb]
        exact congrArg some heq
      rw [openImage_encodeImage hf] at hmerge
      rw [← (Prod.mk.inj (Option.some.inj hmerge)).2]
      exact sound_of_sorted hf hsorted (fun x hx => (hspec x hx).2) hdistinct

end MozkeyLru
