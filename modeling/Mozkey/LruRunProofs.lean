import Mozkey.LruReopenProofs

/-! # LruStorage — the invariant along every run

    A run starts from a fresh storage file and takes any operation in any order.  The
    clock (in seconds) is positive and never goes back; `Update` stores its low 32
    bits, so a run is followed up to the reading `2 ^ 32`.  `Merge` takes another
    storage that was reached at the same time.

    `Clear` leaves the fingerprint of the first slot in the file, so the invariant
    holds along the runs whose `Clear` steps have none to leave (`SafeToClear`), and
    `clear_leaves_fingerprint` is a run where it fails. -/

namespace MozkeyLru

open ByteString LruStorage

/-- The storages a run can reach at a clock reading; `mayClear` restricts the storages
    that `Clear` is applied to. -/
inductive Reachable (mayClear : LruStorage → Prop) : Nat → LruStorage → Prop where
  | create {now valueSize size : Nat} {seed : UInt32} {bytes : Bytes} {s : LruStorage} :
      0 < now → createStorageFile valueSize size seed = some bytes → openImage bytes = some s →
      Reachable mayClear now s
  | tick {now now' : Nat} {s : LruStorage} :
      Reachable mayClear now s → now ≤ now' → Reachable mayClear now' s
  | op {now : Nat} {s s' : LruStorage} (o : Op) :
      Reachable mayClear now s → step (UInt32.ofNat now) s o = some s' →
      Reachable mayClear now s'
  | tryInsert {now : Nat} {s s' : LruStorage} {b : Bool} (fp : UInt64) (value : Nat → UInt8) :
      Reachable mayClear now s → s.tryInsert (UInt32.ofNat now) fp value = some (b, s') →
      Reachable mayClear now s'
  | clear {now : Nat} {s s' : LruStorage} {b : Bool} :
      Reachable mayClear now s → mayClear s → s.clear = some (b, s') → Reachable mayClear now s'
  | reopen {now : Nat} {s s' : LruStorage} :
      Reachable mayClear now s → openImage s.image = some s' → Reachable mayClear now s'
  | merge {now : Nat} {s other s' : LruStorage} {b : Bool} :
      Reachable mayClear now s → Reachable mayClear now other →
      s.merge other = some (b, s') → Reachable mayClear now s'

/-- What a run keeps: the live slots are a prefix, each is on the list once, the list
    is ordered, the map is a bijection from the live fingerprints to the nodes, and the
    other slots are zero. -/
structure RunInvariant (s : LruStorage) : Prop where
  next_le : s.nextItem ≤ s.slots.length
  live_prefix : ∀ i < s.slots.length, (slotAt s.slots i).timestamp ≠ 0 ↔ i < s.nextItem
  listed_once : (s.lruList.map Node.slot).Perm (List.range s.nextItem)
  ordered : s.lruList.Pairwise (fun a b => s.timeOf b ≤ s.timeOf a)
  nodes_distinct : (s.lruList.map Node.id).Nodup
  fps_distinct : (s.lruList.map s.fpOf).Nodup
  map_iff : ∀ fp id, s.lruMap.lookup fp = some id ↔
    ∃ n ∈ s.lruList, n.id = id ∧ s.fpOf n = fp
  vacant : ∀ i < s.slots.length, s.nextItem ≤ i → slotAt s.slots i = zeroSlot s.valueSize

theorem Linked.fps_nodup {s : LruStorage} {e : Nat} (h : Linked s e) :
    (s.lruList.map s.fpOf).Nodup :=
  List.Nodup.map_on (fun _ hm _ hn hfp => h.eq_of_fp hm hn hfp) h.ids_nodup.of_map

theorem Sound.runInvariant {now : UInt32} {s : LruStorage} (h : Sound now s) :
    RunInvariant s :=
  { next_le := by rw [h.linked.length_eq]; exact h.nextItem_le
    live_prefix := by
      intro i hi
      rw [h.linked.length_eq] at hi
      exact h.live_iff hi
    listed_once := by
      refine (List.perm_ext_iff_of_nodup h.linked.slots_nodup List.nodup_range).mpr ?_
      intro i
      rw [List.mem_map, List.mem_range]
      constructor
      · rintro ⟨n, hn, rfl⟩
        exact h.slot_lt_next hn
      · intro hi
        exact (h.linked.live_iff i).mpr (Or.inl hi)
    ordered := h.ordered
    nodes_distinct := h.linked.ids_nodup
    fps_distinct := h.linked.fps_nodup
    map_iff := h.linked.map_iff
    vacant := by
      intro i hi hnext
      rw [h.linked.length_eq] at hi
      exact h.vacant i hnext hi }

theorem Reachable.now_pos {mayClear : LruStorage → Prop} {now : Nat} {s : LruStorage}
    (h : Reachable mayClear now s) : 0 < now := by
  induction h with
  | create hpos _ _ => exact hpos
  | tick _ hle ih => exact Nat.lt_of_lt_of_le ih hle
  | op _ _ _ ih => exact ih
  | tryInsert _ _ _ _ ih => exact ih
  | clear _ _ _ ih => exact ih
  | reopen _ _ ih => exact ih
  | merge _ _ _ ih _ => exact ih

theorem stamp_ne_zero {now : Nat} (hpos : 0 < now) (hnow : now < 2 ^ 32) :
    UInt32.ofNat now ≠ 0 := by
  intro h
  have := congrArg UInt32.toNat h
  rw [UInt32.toNat_ofNat_of_lt' hnow] at this
  have : now = 0 := this
  omega

theorem Reachable.sound {now : Nat} {s : LruStorage} (h : Reachable SafeToClear now s) :
    now < 2 ^ 32 → Sound (UInt32.ofNat now) s := by
  induction h with
  | create _ hcreate hopen =>
    intro _
    obtain ⟨hf, rfl⟩ := createStorageFile_eq hcreate
    rw [openImage_encodeImage hf] at hopen
    rw [← Option.some.inj hopen]
    exact sound_zero hf
  | tick _ hle ih =>
    intro hnow
    refine (ih (Nat.lt_of_le_of_lt hle hnow)).later (UInt32.le_iff_toNat_le.mpr ?_)
    rw [UInt32.toNat_ofNat_of_lt' (Nat.lt_of_le_of_lt hle hnow),
      UInt32.toNat_ofNat_of_lt' hnow]
    exact hle
  | op o hreach hstep ih =>
    intro hnow
    have hs := ih hnow
    have hpos : 0 < _ := Nat.pos_of_ne_zero hs.formatted.size_pos
    obtain ⟨s'', heq, heffs⟩ := step_effects hs.linked hpos (UInt32.ofNat _) o
    rw [hstep] at heq
    rw [Option.some.inj heq]
    exact hs.effects (stamp_ne_zero hreach.now_pos hnow) heffs
  | tryInsert fp value hreach hstep ih =>
    intro hnow
    have hs := ih hnow
    obtain ⟨b, s'', heq, heff⟩ := tryInsert_effect hs.linked (UInt32.ofNat _) fp value
    rw [hstep] at heq
    rw [(Prod.mk.inj (Option.some.inj heq)).2]
    exact hs.effect (stamp_ne_zero hreach.now_pos hnow) heff
  | clear _ hsafe hclear ih => exact fun hnow => (ih hnow).clear hsafe hclear
  | reopen _ hopen ih => exact fun hnow => (ih hnow).reopen hopen
  | merge _ _ hmerge ih iho => exact fun hnow => (ih hnow).merge (iho hnow) hmerge

/-- **THE INVARIANT HOLDS ALONG EVERY RUN** that clears only when no fingerprint would
    be left behind, up to the clock reading `2 ^ 32`. -/
theorem reachable_runInvariant {now : Nat} {s : LruStorage} (h : Reachable SafeToClear now s)
    (hnow : now < 2 ^ 32) : RunInvariant s :=
  (h.sound hnow).runInvariant

/-- A storage of one slot of four bytes, as opened after its creation. -/
def tinyStorage : LruStorage := openSlots 4 1 0 [zeroSlot 4]

/-- The same storage with the fingerprint 7 inserted at time 1. -/
def tinyInserted : LruStorage :=
  tinyStorage.grown ⟨7, 1, [0, 0, 0, 0]⟩

theorem tinyStorage_reachable (mayClear : LruStorage → Prop) :
    Reachable mayClear 1 tinyStorage := by
  have hf : Formatted 4 1 [zeroSlot 4] :=
    formatted_zero (by decide) (by decide) (by decide) (by decide) (by decide)
  exact .create Nat.one_pos (show createStorageFile 4 1 0 = some _ from rfl)
    (openImage_encodeImage hf)

theorem tinyInserted_reachable (mayClear : LruStorage → Prop) :
    Reachable mayClear 1 tinyInserted :=
  .op (.insert 7 (some (fun _ => 0))) (tinyStorage_reachable mayClear) rfl

/-- A storage of two slots. -/
def pairStorage : LruStorage := openSlots 4 2 0 [zeroSlot 4, zeroSlot 4]

/-- The same storage with the fingerprints 7 and 8 inserted at the times 1 and 2. -/
def pairInserted : LruStorage :=
  (pairStorage.grown ⟨7, 1, [0, 0, 0, 0]⟩).grown ⟨8, 2, [0, 0, 0, 0]⟩

/-- Two insertions keep the invariant. -/
theorem reachable_runInvariant_insert : RunInvariant pairInserted := by
  have hf : Formatted 4 2 [zeroSlot 4, zeroSlot 4] :=
    formatted_zero (by decide) (by decide) (by decide) (by decide) (by decide)
  have hcreated : Reachable SafeToClear 1 pairStorage :=
    .create Nat.one_pos (show createStorageFile 4 2 0 = some _ from rfl)
      (openImage_encodeImage hf)
  have hfirst : Reachable SafeToClear 1 (pairStorage.grown ⟨7, 1, [0, 0, 0, 0]⟩) :=
    .op (.insert 7 (some (fun _ => 0))) hcreated rfl
  have hsecond : Reachable SafeToClear 2 pairInserted :=
    .op (.insert 8 (some (fun _ => 0))) (hfirst.tick (by decide)) rfl
  exact reachable_runInvariant hsecond (by decide)

/-- **`Clear` LEAVES A FINGERPRINT BEHIND.**  After an insertion, `Clear` keeps the
    fingerprint in the first slot, which is then not zero although it is not live. -/
theorem clear_leaves_fingerprint :
    ¬ ∀ (now : Nat) (s : LruStorage), Reachable (fun _ => True) now s → now < 2 ^ 32 →
      RunInvariant s := by
  intro hall
  have hf : Formatted tinyInserted.valueSize tinyInserted.size tinyInserted.slots :=
    Formatted.set (formatted_zero (by decide) (by decide) (by decide) (by decide)
      (by decide)) 0 rfl
  have hclear := clear_eq hf (List.cons_ne_nil _ _)
  have hreach : Reachable (fun _ => True) 1 _ :=
    .clear (tinyInserted_reachable _) trivial hclear
  have hvacant := (hall 1 _ hreach (by decide)).vacant 0 Nat.one_pos (Nat.le_refl 0)
  exact absurd (congrArg Slot.fp hvacant) (by decide)

end MozkeyLru
