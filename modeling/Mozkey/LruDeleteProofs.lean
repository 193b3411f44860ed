import Mozkey.LruLookupProofs

/-! # LruStorage — what a deletion leaves

    `Delete` takes a node away, and moves the last slot into the hole.  Nothing but what is found
    under its fingerprint changes.  `TryInsert` changes only what is there already. -/

namespace MozkeyLru

open ByteString LruStorage

variable {s s' : LruStorage} {e : Nat} {x m : Node} {c : Slot}

/-! ## A node goes away -/

/-- Where the node of the last slot goes away, the slots of the others are held. -/
theorem holds_removedLast (h : Linked s e) (hx : x ∈ s.lruList) :
    (s.removedLast x).Holds c ↔ s.Holds c ∧ c.fp ≠ s.fpOf x := by
  constructor
  · rintro ⟨n, hn, rfl⟩
    obtain ⟨hn, hnx⟩ := (h.mem_without hx).mp hn
    rw [slotAt_removedLast h hx hn hnx]
    exact ⟨⟨n, hn, rfl⟩, fun hfp => hnx (h.eq_of_fp hn hx hfp)⟩
  · rintro ⟨⟨n, hn, rfl⟩, hfp⟩
    have hnx : n ≠ x := fun heq => hfp (by rw [heq, fpOf])
    exact ⟨n, (h.mem_without hx).mpr ⟨hn, hnx⟩, slotAt_removedLast h hx hn hnx⟩

/-- Where another node goes away and the last slot moves, the slots of the others are held. -/
theorem holds_removedMoved (h : Linked s e) (hx : x ∈ s.lruList) (hm : m ∈ s.lruList)
    (hxm : x ≠ m) : (s.removedMoved x m).Holds c ↔ s.Holds c ∧ c.fp ≠ s.fpOf x := by
  constructor
  · rintro ⟨n', hn', rfl⟩
    obtain ⟨n, hwithout, rfl⟩ := List.mem_map.mp hn'
    obtain ⟨hn, hnx⟩ := (h.mem_without hx).mp hwithout
    have hslot := slotAt_relocated h hx hm hxm hn hnx
    refine ⟨⟨n, hn, hslot.symm⟩, fun hfp => hnx (h.eq_of_fp hn hx ?_)⟩
    exact (congrArg Slot.fp hslot).symm.trans hfp
  · rintro ⟨⟨n, hn, rfl⟩, hfp⟩
    have hnx : n ≠ x := fun heq => hfp (by rw [heq, fpOf])
    exact ⟨relocated x m n, List.mem_map.mpr ⟨n, (h.mem_without hx).mpr ⟨hn, hnx⟩, rfl⟩,
      slotAt_relocated h hx hm hxm hn hnx⟩

/-! ## Deletions -/

/-- What deletions leave: nothing under the fingerprints that are gone, and the rest as it was. -/
structure Deleted (s s' : LruStorage) (gone : UInt64 → Prop) [DecidablePred gone] : Prop where
  linked : Linked s' s'.size
  size : s'.size = s.size
  valueSize : s'.valueSize = s.valueSize
  length : s'.lruList.length ≤ s.lruList.length
  lookup : ∀ fp, s'.lookup fp = if gone fp then some none else s.lookup fp

theorem Deleted.trans {s₁ : LruStorage} {p q r : UInt64 → Prop} [DecidablePred p] [DecidablePred q]
    [DecidablePred r] (h : Deleted s s₁ p) (h' : Deleted s₁ s' q)
    (hr : ∀ fp, r fp ↔ p fp ∨ q fp) : Deleted s s' r where
  linked := h'.linked
  size := h'.size.trans h.size
  valueSize := h'.valueSize.trans h.valueSize
  length := h'.length.trans h.length
  lookup fp := by
    rw [h'.lookup, h.lookup]
    by_cases hq : q fp
    · rw [if_pos hq, if_pos ((hr fp).mpr (.inr hq))]
    · by_cases hp : p fp
      · rw [if_neg hq, if_pos hp, if_pos ((hr fp).mpr (.inl hp))]
      · rw [if_neg hq, if_neg hp, if_neg fun h => ((hr fp).mp h).elim hp hq]

theorem lookup_of_holds {fp : UInt64} (h : Linked s s.size) (h' : Linked s' s.size)
    (hholds : ∀ c, s'.Holds c ↔ s.Holds c ∧ c.fp ≠ fp) (fp' : UInt64) :
    s'.lookup fp' = if fp' = fp then some none else s.lookup fp' := by
  by_cases hfp : fp' = fp
  · rw [if_pos hfp]
    obtain ⟨found, hfound⟩ := lookup_defined h' fp'
    cases found with
    | none => exact hfound
    | some c =>
      obtain ⟨hc, hcfp⟩ := (lookup_eq_some h').mp hfound
      exact absurd (hcfp.trans hfp) ((hholds c).mp hc).2
  · rw [if_neg hfp]
    refine lookup_congr h h' fun c hc => ?_
    rw [hholds, and_iff_left (by rw [hc]; exact hfp)]

/-- **A DELETION** leaves nothing under its fingerprint, and nothing else changes. -/
theorem delete_spec (h : Linked s s.size) (fp : UInt64) :
    ∃ s', s.delete fp = some (true, s') ∧ Deleted s s' (· = fp) := by
  rw [delete]
  cases hl : s.lruMap.lookup fp with
  | none =>
    refine ⟨s, rfl, h, rfl, rfl, le_rfl, fun fp' => ?_⟩
    by_cases hfp : fp' = fp
    · rw [if_pos hfp, hfp, LruStorage.lookup, hl]
    · rw [if_neg hfp]
  | some id =>
    obtain ⟨x, hx, rfl, rfl, hd⟩ := h.node_of_lookup hl
    dsimp only
    rw [hd]
    rcases deleteNode_cases h hx with ⟨hzero, -⟩ | ⟨hlast, hdel⟩ | ⟨m, hm, hxm, hlast, hdel⟩
    · obtain hlt | ⟨hle, hlt⟩ := (h.live_iff x.slot).mp ⟨x, hx, rfl⟩ <;> omega
    · have hlinked := h.removeLast hx hlast
      exact ⟨s.removedLast x, hdel, hlinked, rfl, rfl, List.length_filter_le _ _,
        lookup_of_holds h hlinked fun c => holds_removedLast h hx⟩
    · have hlinked := h.removeMoved hx hm hxm hlast
      refine ⟨s.removedMoved x m, hdel, hlinked, rfl, rfl, ?_,
        lookup_of_holds h hlinked fun c => holds_removedMoved h hx hm hxm⟩
      exact (List.length_map ..).le.trans (List.length_filter_le _ _)

/-! ## Refreshing insertions -/

/-- **AN INSERTION THAT ONLY REFRESHES** stamps what is found under its fingerprint, and changes
    nothing where nothing is found. -/
theorem tryInsert_spec (h : Linked s s.size) (now : UInt32) (fp : UInt64) (value : Nat → UInt8) :
    ∃ s', s.tryInsert now fp value = some (true, s') ∧
      (s' = s ∧ s.lookup fp = some none ∨
        Inserted s s' ⟨fp, now, readValue value s.valueSize⟩ ∧ s.lookup fp ≠ some none ∧
          s'.lruList.length = s.lruList.length) := by
  rw [tryInsert]
  cases hl : s.lruMap.lookup fp with
  | none => exact ⟨s, rfl, .inl ⟨rfl, by rw [LruStorage.lookup, hl]⟩⟩
  | some id =>
    obtain ⟨s', hoverwrite, hinserted, hlength⟩ := overwrite_spec h now value hl
    obtain ⟨x, -, -, -, hd⟩ := h.node_of_lookup hl
    refine ⟨s', hoverwrite, .inr ⟨hinserted, ?_, hlength⟩⟩
    simp [LruStorage.lookup, hl, hd]

end MozkeyLru
