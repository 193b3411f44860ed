import Mozkey.LittleEndianProofs

/-! # Word arrays — arrays written cell by cell, and their byte images

    An array in memory is filled by single writes and saved as the bytes of its words,
    least significant byte first. -/

namespace WordArray

open ByteString LittleEndian

/-! ## Writing -/

section

variable {α : Type}

/-- A write with its bounds check. -/
def writeAt (a : List α) (w : Nat × α) : Option (List α) :=
  if w.1 < a.length then some (a.set w.1 w.2) else none

/-- A run of checked writes. -/
def writeAll (a : List α) (ws : List (Nat × α)) : Option (List α) := ws.foldlM writeAt a

variable {a a' : List α} {w : Nat × α}

theorem writeAt_eq_some :
    writeAt a w = some a' ↔ w.1 < a.length ∧ a' = a.set w.1 w.2 := by
  rw [writeAt]
  split
  · rename_i h
    rw [Option.some_inj]
    exact ⟨fun ha => ⟨h, ha.symm⟩, fun ha => ha.2.symm⟩
  · rename_i h
    exact ⟨fun ha => (by cases ha), fun ha => absurd ha.1 h⟩

variable {ws : List (Nat × α)}

theorem writeAll_cons :
    writeAll a (w :: ws) = some a' ↔
      w.1 < a.length ∧ writeAll (a.set w.1 w.2) ws = some a' := by
  rw [writeAll, List.foldlM_cons, Option.bind_eq_bind, Option.bind_eq_some_iff]
  constructor
  · rintro ⟨b, hb, hrun⟩
    obtain ⟨hlt, rfl⟩ := writeAt_eq_some.mp hb
    exact ⟨hlt, hrun⟩
  · rintro ⟨hlt, hrun⟩
    exact ⟨_, writeAt_eq_some.mpr ⟨hlt, rfl⟩, hrun⟩

theorem writeAll_append {ws' : List (Nat × α)} :
    writeAll a (ws ++ ws') = some a' ↔
      ∃ b, writeAll a ws = some b ∧ writeAll b ws' = some a' := by
  rw [writeAll, List.foldlM_append, Option.bind_eq_bind, Option.bind_eq_some_iff]
  rfl

theorem getElem?_writeAll_of_unwritten {i : Nat} :
    ∀ {a a' : List α}, writeAll a ws = some a' → (∀ w ∈ ws, w.1 ≠ i) → a'[i]? = a[i]? := by
  induction ws with
  | nil =>
    intro a a' h _
    rw [← Option.some.inj h]
  | cons w ws ih =>
    intro a a' h hne
    rw [ih (writeAll_cons.mp h).2 (fun v hv => hne v (List.mem_cons_of_mem _ hv)),
      List.getElem?_set_ne (hne w (List.mem_cons_self ..))]

theorem getElem?_writeAll_of_nodup :
    ∀ {a a' : List α}, writeAll a ws = some a' → (ws.map Prod.fst).Nodup → w ∈ ws →
      a'[w.1]? = some w.2 := by
  induction ws with
  | nil => intro a a' _ _ hw; cases hw
  | cons v ws ih =>
    intro a a' h hnodup hw
    obtain ⟨hlt, hrun⟩ := writeAll_cons.mp h
    rw [List.map_cons, List.nodup_cons] at hnodup
    rcases List.mem_cons.mp hw with rfl | hw
    · have hne : ∀ u ∈ ws, u.1 ≠ w.1 := by
        intro u hu heq
        exact hnodup.1 (heq ▸ List.mem_map_of_mem hu)
      rw [getElem?_writeAll_of_unwritten hrun hne, List.getElem?_set_self hlt]
    · exact ih hrun hnodup.2 hw

end

/-! ## Images -/

/-- The image of an array of `w`-byte words. -/
def storeWords (w : Nat) (words : List Nat) : Bytes := words.flatMap (storeLE w)

/-- The first `n` words of `w` bytes. -/
def loadWords (w : Nat) : Nat → Bytes → List Nat
  | 0, _ => []
  | n + 1, data => loadLE (data.take w) :: loadWords w n (data.drop w)

theorem length_storeWords (w : Nat) (words : List Nat) :
    (storeWords w words).length = w * words.length := by
  induction words with
  | nil => rfl
  | cons n words ih =>
    rw [storeWords] at ih
    rw [storeWords, List.flatMap_cons, List.length_append, length_storeLE, ih,
      List.length_cons, Nat.mul_succ, Nat.add_comm]

/-- **LOADING INVERTS STORING**, whatever follows the image. -/
theorem loadWords_storeWords {w : Nat} {words : List Nat} (rest : Bytes) :
    (∀ n ∈ words, n < 256 ^ w) →
      loadWords w words.length (storeWords w words ++ rest) = words := by
  induction words with
  | nil => intro _; rfl
  | cons n words ih =>
    intro h
    have hlen : (storeLE w n).length = w := length_storeLE w n
    rw [List.length_cons, loadWords, storeWords, List.flatMap_cons, List.append_assoc,
      List.take_left' hlen, List.drop_left' hlen,
      loadLE_storeLE (h n (List.mem_cons_self ..))]
    exact congrArg _ (ih (fun m hm => h m (List.mem_cons_of_mem _ hm)))

theorem getElem?_storeLE {w i : Nat} (n : Nat) (h : i < w) :
    (storeLE w n)[i]? = some (UInt8.ofNat (n / 256 ^ i % 256)) := by
  induction w generalizing n i with
  | zero => cases h
  | succ w ih =>
    cases i with
    | zero => rw [storeLE, List.getElem?_cons_zero, Nat.pow_zero, Nat.div_one]
    | succ i =>
      rw [storeLE, List.getElem?_cons_succ, ih _ (Nat.lt_of_succ_lt_succ h),
        Nat.div_div_eq_div_mul, Nat.pow_succ']

/-- The bytes of an image, one by one. -/
theorem getElem?_storeWords {w : Nat} (words : List Nat) (q : Nat) {r : Nat} (h : r < w) :
    (storeWords w words)[w * q + r]?
      = words[q]?.map (fun n => UInt8.ofNat (n / 256 ^ r % 256)) := by
  induction words generalizing q with
  | nil => rfl
  | cons n words ih =>
    rw [storeWords, List.flatMap_cons]
    cases q with
    | zero =>
      rw [Nat.mul_zero, Nat.zero_add,
        List.getElem?_append_left (by rw [length_storeLE]; exact h), getElem?_storeLE n h]
      rfl
    | succ q =>
      have hge : w ≤ w * (q + 1) + r := by
        rw [Nat.mul_succ, Nat.add_assoc, Nat.add_left_comm]
        exact Nat.le_add_right _ _
      have hsub : w * (q + 1) + r - w = w * q + r := by
        rw [Nat.mul_succ, Nat.add_right_comm, Nat.add_sub_cancel]
      rw [List.getElem?_append_right (by rw [length_storeLE]; exact hge), length_storeLE,
        hsub, List.getElem?_cons_succ, ← ih q, storeWords]

end WordArray
