import Mozkey.LruReopenProofs

/-! # LruStorage — what a lookup finds

    `Lookup` goes through the map and a node to a slot.  While there is room, an insertion
    changes what is found under its own fingerprint, and nothing else. -/

namespace MozkeyLru

open ByteString LruStorage

/-- `Lookup`: the slot, with the value and the last access time, if there is one. -/
def LruStorage.lookup (s : LruStorage) (fp : UInt64) : Option (Option Slot) :=
  match s.lruMap.lookup fp with
  | none => some none
  | some id => (s.deref id).map fun i => some (slotAt s.slots i)

/-- A node of the storage that points to a slot. -/
def LruStorage.Holds (s : LruStorage) (c : Slot) : Prop :=
  ∃ n ∈ s.lruList, slotAt s.slots n.slot = c

variable {s s' : LruStorage} {e : Nat}

/-- **A LOOKUP FINDS** the slot that has the fingerprint. -/
theorem lookup_eq_some (h : Linked s e) {fp : UInt64} {c : Slot} :
    s.lookup fp = some (some c) ↔ s.Holds c ∧ c.fp = fp := by
  rw [LruStorage.lookup]
  constructor
  · cases hl : s.lruMap.lookup fp with
    | none =>
      intro hc
      cases hc
    | some id =>
      intro hc
      obtain ⟨n, hn, -, hfp, hd⟩ := h.node_of_lookup hl
      simp only [hd, Option.map_some] at hc
      cases hc
      exact ⟨⟨n, hn, rfl⟩, hfp⟩
  · rintro ⟨⟨n, hn, rfl⟩, rfl⟩
    have hl : s.lruMap.lookup (slotAt s.slots n.slot).fp = some n.id := h.lookup_node hn
    rw [hl]
    dsimp only
    rw [h.deref_node hn]
    rfl

theorem lookup_defined (h : Linked s e) (fp : UInt64) : ∃ found, s.lookup fp = some found := by
  rw [LruStorage.lookup]
  cases hl : s.lruMap.lookup fp with
  | none => exact ⟨none, rfl⟩
  | some id =>
    obtain ⟨n, hn, -, -, hd⟩ := h.node_of_lookup hl
    exact ⟨some (slotAt s.slots n.slot), by simp only [hd, Option.map_some]⟩

theorem lookup_congr {e' : Nat} (h : Linked s e) (h' : Linked s' e') {fp : UInt64}
    (hholds : ∀ c, c.fp = fp → (s'.Holds c ↔ s.Holds c)) : s'.lookup fp = s.lookup fp := by
  obtain ⟨found, hfound⟩ := lookup_defined h fp
  obtain ⟨found', hfound'⟩ := lookup_defined h' fp
  rw [hfound, hfound', Option.some.injEq]
  refine Option.ext ?_
  intro c
  have hiff : s'.lookup fp = some (some c) ↔ s.lookup fp = some (some c) := by
    rw [lookup_eq_some h, lookup_eq_some h']
    exact and_congr_left (hholds c)
  rwa [hfound, hfound', Option.some.injEq, Option.some.injEq] at hiff

/-- What an insertion does to a storage. -/
structure Inserted (s s' : LruStorage) (c : Slot) : Prop where
  linked : Linked s' s'.size
  size : s'.size = s.size
  valueSize : s'.valueSize = s.valueSize
  length : s'.lruList.length ≤ s.lruList.length + 1
  lookup : ∀ fp, s'.lookup fp = if fp = c.fp then some (some c) else s.lookup fp

/-- An overwritten slot changes what is found under its fingerprint; no other slot is taken. -/
theorem overwrite_spec (h : Linked s s.size) (now : UInt32) {fp : UInt64} (value : Nat → UInt8)
    {id : Nat} (hl : s.lruMap.lookup fp = some id) :
    ∃ s', s.overwrite now fp value id = some (true, s') ∧
      Inserted s s' ⟨fp, now, readValue value s.valueSize⟩ ∧
      s'.lruList.length = s.lruList.length := by
  obtain ⟨c, hc⟩ : ∃ c : Slot, c = ⟨fp, now, readValue value s.valueSize⟩ := ⟨_, rfl⟩
  have hfp : c.fp = fp := by rw [hc]
  obtain ⟨n, hn, rfl, hnfp, hd⟩ := h.node_of_lookup hl
  have hlinked : Linked (s.refreshed n c s.lruMap) s.size := h.stamp hn (hfp.trans hnfp.symm)
  have hlength : (s.refreshed n c s.lruMap).lruList.length = s.lruList.length :=
    (moveToFront_perm s.lruList n.id).length_eq
  refine ⟨s.refreshed n c s.lruMap, ?_,
    hc ▸ ⟨hlinked, rfl, rfl, hlength.le.trans (Nat.le_succ _), ?_⟩, hlength⟩
  · rw [overwrite, hd, hc]
    rfl
  · intro fp'
    by_cases hsame : fp' = c.fp
    · rw [if_pos hsame, lookup_eq_some hlinked]
      refine ⟨⟨n, mem_moveToFront.mpr hn, ?_⟩, hsame.symm⟩
      rw [slotAt_refreshed h hn c s.lruMap hn, if_pos rfl]
    · rw [if_neg hsame]
      refine lookup_congr h hlinked ?_
      intro d hd'
      constructor
      · rintro ⟨m, hm, rfl⟩
        have hm' := mem_moveToFront.mp hm
        rw [slotAt_refreshed h hn c s.lruMap hm'] at hd' ⊢
        by_cases hmn : m = n
        · rw [if_pos hmn] at hd'
          exact absurd hd'.symm hsame
        · rw [if_neg hmn]
          exact ⟨m, hm', rfl⟩
      · rintro ⟨m, hm, rfl⟩
        refine ⟨m, mem_moveToFront.mpr hm, ?_⟩
        rw [slotAt_refreshed h hn c s.lruMap hm, if_neg]
        rintro rfl
        exact hsame (hd'.symm.trans (hnfp.trans hfp.symm))

/-- **AN INSERTION** into a storage with room changes what is found under its fingerprint. -/
theorem insert_spec (h : Linked s s.size) (hroom : s.lruList.length < s.size) (now : UInt32)
    (fp : UInt64) (value : Nat → UInt8) :
    ∃ s', s.insert now fp (some value) = some (true, s') ∧
      Inserted s s' ⟨fp, now, readValue value s.valueSize⟩ := by
  obtain ⟨c, hc⟩ : ∃ c : Slot, c = ⟨fp, now, readValue value s.valueSize⟩ := ⟨_, rfl⟩
  have hfp : c.fp = fp := by rw [hc]
  have hlength := h.length_lruList
  rw [Nat.sub_self, Nat.add_zero] at hlength
  rw [LruStorage.insert]
  cases hl : s.lruMap.lookup fp with
  | some id =>
    obtain ⟨s', hoverwrite, hinserted, -⟩ := overwrite_spec h now value hl
    exact ⟨s', hoverwrite, hinserted⟩
  | none =>
    have hnext : s.nextItem < s.size := by omega
    have hnew : s.lruMap.lookup c.fp = none := by rw [hfp, hl]
    have hlinked : Linked (s.grown c) s.size := h.grow hnew hroom hnext
    have hslots : s.nextItem < s.slots.length := by rw [h.length_eq]; exact hnext
    refine ⟨s.grown c, ?_, hc ▸ ⟨hlinked, rfl, rfl, le_rfl, ?_⟩⟩
    · dsimp only
      rw [if_neg (by rw [h.length_lruMap]; omega), if_pos hslots, hc]
      rfl
    · intro fp'
      have hfirst : slotAt (s.grown c).slots s.nextItem = c := by
        show slotAt (s.slots.set s.nextItem c) s.nextItem = c
        rw [slotAt_set hslots, if_pos rfl]
      by_cases hsame : fp' = c.fp
      · rw [if_pos hsame, lookup_eq_some hlinked]
        exact ⟨⟨⟨s.nextId, s.nextItem⟩, List.mem_cons_self, hfirst⟩, hsame.symm⟩
      · rw [if_neg hsame]
        refine lookup_congr h hlinked ?_
        intro d hd'
        constructor
        · rintro ⟨m, hm, rfl⟩
          rcases List.mem_cons.mp hm with rfl | hm
          · rw [hfirst] at hd'
            exact absurd hd'.symm hsame
          · rw [slotAt_grown h c hroom hnext hm]
            exact ⟨m, hm, rfl⟩
        · rintro ⟨m, hm, rfl⟩
          exact ⟨m, List.mem_cons_of_mem _ hm, slotAt_grown h c hroom hnext hm⟩

/-- Insertions, one after the other: the clock, the fingerprint and the value of each. -/
def LruStorage.inserts (s : LruStorage) (items : List (UInt32 × UInt64 × (Nat → UInt8))) :
    Option LruStorage :=
  items.foldlM (fun s item => (s.insert item.1 item.2.1 (some item.2.2)).map Prod.snd) s

/-- **THE LAST INSERTION** under a fingerprint is what is found there. -/
theorem inserts_spec (items : List (UInt32 × UInt64 × (Nat → UInt8))) :
    ∀ {s : LruStorage}, Linked s s.size → s.lruList.length + items.length ≤ s.size →
      ∃ s', s.inserts items = some s' ∧ s'.valueSize = s.valueSize ∧
        ∀ fp, s'.lookup fp
          = (items.filter fun item => item.2.1 = fp).getLast?.elim (s.lookup fp)
            fun item => some (some ⟨fp, item.1, readValue item.2.2 s.valueSize⟩) := by
  induction items with
  | nil => exact fun _ _ => ⟨_, rfl, rfl, fun _ => rfl⟩
  | cons item items ih =>
    intro s h hroom
    rw [List.length_cons] at hroom
    obtain ⟨s₁, hinsert, hs₁⟩ := insert_spec h (by omega) item.1 item.2.1 item.2.2
    have hlength := hs₁.length
    have hsize := hs₁.size
    obtain ⟨s', hinserts, hvalueSize, hlookup⟩ := ih hs₁.linked (by omega)
    refine ⟨s', ?_, hvalueSize.trans hs₁.valueSize, ?_⟩
    · rw [LruStorage.inserts, List.foldlM_cons, hinsert]
      exact hinserts
    · intro fp
      rw [hlookup, hs₁.valueSize]
      by_cases hfp : item.2.1 = fp
      · simp only [List.filter_cons, decide_eq_true hfp, if_true, List.getLast?_cons]
        cases (items.filter fun item => item.2.1 = fp).getLast? with
        | some last => rfl
        | none =>
          cases hfp
          exact (hs₁.lookup _).trans (if_pos rfl)
      · simp only [List.filter_cons, decide_eq_false hfp, Bool.false_eq_true, if_false]
        rw [hs₁.lookup, if_neg (Ne.symm hfp)]

end MozkeyLru
