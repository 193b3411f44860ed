import Mozkey.LittleEndianProofs
import Mozkey.SuccinctIndexProofs

/-! # BitStream — bits packed into bytes

    `PushBit` sets the next bit of the last byte, least significant first, and starts a
    byte where the last one is full. -/

namespace MozkeyLouds

open ByteString LittleEndian

/-- `BitStream`: its bytes and how many bits are pushed. -/
structure BitStream where
  image : Bytes
  numBits : Nat

namespace BitStream

/-- `BitStream()`. -/
def empty : BitStream := { image := [], numBits := 0 }

/-- `bit & 1` as a byte. -/
def bitByte (bit : Bool) : UInt8 := if bit then 1 else 0

/-- `PushBit`; a byte is filled from its lowest bit. -/
def pushBit (s : BitStream) (bit : Bool) : BitStream :=
  let shift := s.numBits % 8
  let image := if shift = 0 then s.image ++ [0] else s.image
  { image := image.dropLast ++ [image.getLastD 0 ||| (bitByte bit <<< UInt8.ofNat shift)]
    numBits := s.numBits + 1 }

/-- `FillPadding32`. -/
def fillPadding32 (s : BitStream) : BitStream :=
  let remaining := s.image.length % 4
  let image := if remaining ≠ 0 then s.image ++ List.replicate (4 - remaining) 0 else s.image
  { image := image, numBits := image.length * 8 }

/-- `ByteSize`. -/
def byteSize (s : BitStream) : Nat := s.image.length

end BitStream

/-- `internal::PushInt32`; `none` where the `CHECK` fails. -/
def pushInt32 (value : Nat) (image : Bytes) : Option Bytes :=
  if value ≤ 0xFFFFFFFF then some (image ++ storeLE 4 value) else none

/-- `LoadUnalignedAdvance<uint32_t>` number `i` of a header. -/
def headerField (image : Bytes) (i : Nat) : Nat := loadLE ((image.drop (4 * i)).take 4)

/-! ## Headers -/

theorem pushInt32_eq_some {value : Nat} {image image' : Bytes} :
    pushInt32 value image = some image'
      ↔ value ≤ 0xFFFFFFFF ∧ image' = image ++ storeLE 4 value := by
  rw [pushInt32]
  by_cases h : value ≤ 0xFFFFFFFF
  · rw [if_pos h, Option.some.injEq]
    exact ⟨fun heq => ⟨h, heq.symm⟩, fun heq => heq.2.symm⟩
  · rw [if_neg h]
    exact ⟨fun heq => (nomatch heq), fun heq => absurd heq.1 h⟩

/-- What is pushed as four words stands in front of the parts of an image. -/
def withHeader (a b c d : Nat) (parts : Bytes) : Bytes :=
  storeLE 4 a ++ (storeLE 4 b ++ (storeLE 4 c ++ (storeLE 4 d ++ parts)))

theorem length_withHeader (a b c d : Nat) (parts : Bytes) :
    (withHeader a b c d parts).length = 16 + parts.length := by
  simp only [withHeader, List.length_append, length_storeLE]
  omega

/-- **A HEADER IS READ BACK.** -/
theorem headerField_withHeader {a b c d : Nat} (ha : a ≤ 0xFFFFFFFF) (hb : b ≤ 0xFFFFFFFF)
    (hc : c ≤ 0xFFFFFFFF) (hd : d ≤ 0xFFFFFFFF) (parts : Bytes) :
    headerField (withHeader a b c d parts) 0 = a ∧ headerField (withHeader a b c d parts) 1 = b ∧
      headerField (withHeader a b c d parts) 2 = c ∧
      headerField (withHeader a b c d parts) 3 = d ∧
      (withHeader a b c d parts).drop 16 = parts := by
  have hdrop : ∀ (value : Nat) (rest : Bytes), (storeLE 4 value ++ rest).drop 4 = rest :=
    fun value rest => List.drop_left' (length_storeLE 4 value)
  have htake : ∀ (value : Nat) (rest : Bytes),
      (storeLE 4 value ++ rest).take 4 = storeLE 4 value :=
    fun value rest => List.take_left' (length_storeLE 4 value)
  have hload : ∀ value, value ≤ 0xFFFFFFFF → loadLE (storeLE 4 value) = value :=
    fun value h => loadLE_storeLE (Nat.lt_of_le_of_lt h (by decide))
  have h4 : ∀ n (bs : Bytes), bs.drop (4 * (n + 1)) = (bs.drop 4).drop (4 * n) := by
    intro n bs
    rw [List.drop_drop]
    congr 1
    omega
  refine ⟨?_, ?_, ?_, ?_, ?_⟩
  · rw [headerField, Nat.mul_zero, List.drop_zero, withHeader, htake, hload a ha]
  · rw [headerField, h4 0, Nat.mul_zero, List.drop_zero, withHeader, hdrop, htake, hload b hb]
  · rw [headerField, h4 1, h4 0, Nat.mul_zero, List.drop_zero, withHeader, hdrop, hdrop, htake,
      hload c hc]
  · rw [headerField, h4 2, h4 1, h4 0, Nat.mul_zero, List.drop_zero, withHeader, hdrop, hdrop,
      hdrop, htake, hload d hd]
  · rw [show 16 = 4 * (3 + 1) from rfl, h4 3, h4 2, h4 1, h4 0, Nat.mul_zero, List.drop_zero,
      withHeader, hdrop, hdrop, hdrop, hdrop]

/-! ## The pushed bits -/

/-- The stream holds the pushed bits, in as few bytes as they need. -/
structure Holds (s : BitStream) (bits : List Bool) : Prop where
  numBits : s.numBits = bits.length
  image : ∃ k < 8, bitsOf s.image = bits ++ List.replicate k false

theorem holds_empty : Holds BitStream.empty [] := ⟨rfl, 0, by decide, rfl⟩

theorem getElem?_byteBits (c : UInt8) {i : Nat} (hi : i < 8) :
    (byteBits c)[i]? = some (c.toNat.testBit i) := by
  rw [byteBits, List.getElem?_map, List.getElem?_range hi]
  rfl

theorem length_byteBits (c : UInt8) : (byteBits c).length = 8 := by
  rw [byteBits, List.length_map, List.length_range]

theorem testBit_bitByte_shiftLeft {bit : Bool} {shift : Nat} (h : shift < 8) (i : Nat) :
    (BitStream.bitByte bit <<< UInt8.ofNat shift).toNat.testBit i
      = (bit && decide (shift = i)) := by
  cases bit with
  | false =>
    show ((0 : UInt8) <<< UInt8.ofNat shift).toNat.testBit i = false
    rw [UInt8.zero_shiftLeft]
    exact Nat.zero_testBit i
  | true =>
    have hshift : ∀ n < 8, ((1 : UInt8) <<< UInt8.ofNat n).toNat = 2 ^ n := by decide
    show ((1 : UInt8) <<< UInt8.ofNat shift).toNat.testBit i = _
    rw [hshift shift h, Nat.testBit_two_pow, Bool.true_and]

/-- **SETTING A BIT** behind the bits of a byte. -/
theorem byteBits_or {c : UInt8} {low : List Bool} (bit : Bool) (hlow : low.length < 8)
    (h : byteBits c = low ++ List.replicate (8 - low.length) false) :
    byteBits (c ||| (BitStream.bitByte bit <<< UInt8.ofNat low.length))
      = low ++ bit :: List.replicate (7 - low.length) false := by
  refine List.ext_getElem? ?_
  intro i
  by_cases hi : i < 8
  · have hc := getElem?_byteBits c hi
    rw [h] at hc
    rw [getElem?_byteBits _ hi, UInt8.toNat_or, Nat.testBit_or, testBit_bitByte_shiftLeft hlow]
    rcases Nat.lt_trichotomy i low.length with hlt | heq | hgt
    · rw [List.getElem?_append_left hlt] at hc
      rw [List.getElem?_append_left hlt, hc, decide_eq_false (by omega), Bool.and_false,
        Bool.or_false]
    · rw [heq, List.getElem?_append_right (Nat.le_refl _), Nat.sub_self,
        List.getElem?_replicate_of_lt (by omega)] at hc
      rw [heq, List.getElem?_append_right (Nat.le_refl _), Nat.sub_self, ← Option.some.inj hc,
        decide_eq_true rfl, Bool.and_true, Bool.false_or]
      rfl
    · rw [List.getElem?_append_right (Nat.le_of_lt hgt),
        List.getElem?_replicate_of_lt (by omega)] at hc
      obtain ⟨n, hn⟩ : ∃ n, i - low.length = n + 1 := ⟨i - low.length - 1, by omega⟩
      rw [List.getElem?_append_right (Nat.le_of_lt hgt), hn, List.getElem?_cons_succ,
        List.getElem?_replicate_of_lt (by omega), ← Option.some.inj hc,
        decide_eq_false (by omega), Bool.and_false, Bool.or_false]
  · rw [List.getElem?_eq_none (by rw [length_byteBits]; omega),
      List.getElem?_eq_none (by
        rw [List.length_append, List.length_cons, List.length_replicate]; omega)]

variable {s : BitStream} {bits : List Bool}

/-- **PUSHING A BIT** puts it behind the bits of the stream. -/
theorem holds_pushBit (h : Holds s bits) (bit : Bool) :
    Holds (s.pushBit bit) (bits ++ [bit]) := by
  obtain ⟨hnum, k, hk, himage⟩ := h
  have hlen := congrArg List.length himage
  rw [length_bitsOf, List.length_append, List.length_replicate] at hlen
  -- behind the full bytes there is a byte with `bits.length % 8` bits
  obtain ⟨front, low, c, hfront, hlow, hc, hbits⟩ : ∃ front low c,
      (if s.numBits % 8 = 0 then s.image ++ [0] else s.image) = front ++ [c] ∧
        low.length = s.numBits % 8 ∧ byteBits c = low ++ List.replicate (8 - low.length) false ∧
        bits = bitsOf front ++ low := by
    by_cases hshift : s.numBits % 8 = 0
    · rw [if_pos hshift]
      have hzero : k = 0 := by omega
      rw [hzero, List.replicate_zero, List.append_nil] at himage
      exact ⟨s.image, [], 0, rfl, hshift.symm, by decide, by rw [himage, List.append_nil]⟩
    · rw [if_neg hshift]
      have hne : s.image ≠ [] := by
        intro hnil
        rw [hnil, List.length_nil] at hlen
        omega
      have hsplit := List.dropLast_append_getLast hne
      have hdrop : 8 * s.image.dropLast.length = bits.length - s.numBits % 8 := by
        rw [List.length_dropLast]
        omega
      refine ⟨s.image.dropLast, bits.drop (bits.length - s.numBits % 8), s.image.getLast hne,
        hsplit.symm, by rw [List.length_drop]; omega, ?_, ?_⟩
      · have htail : (bitsOf s.image).drop (8 * s.image.dropLast.length)
            = byteBits (s.image.getLast hne) := by
          conv_lhs => rw [← hsplit]
          rw [List.dropLast_concat, bitsOf_append, List.drop_left' (by rw [length_bitsOf]),
            bitsOf, List.flatMap_cons, List.flatMap_nil,
            List.append_nil]
        rw [← htail, himage, hdrop, List.drop_append_of_le_length (Nat.sub_le _ _),
          List.length_drop]
        congr 2
        omega
      · have hhead : (bitsOf s.image).take (8 * s.image.dropLast.length)
            = bitsOf s.image.dropLast := by
          rw [bitsOf_take, List.dropLast_eq_take, List.length_take]
          congr 2
          omega
        rw [← hhead, himage, hdrop, List.take_append_of_le_length (Nat.sub_le _ _),
          List.take_append_drop]
  refine ⟨by rw [BitStream.pushBit, List.length_append, hnum]; rfl, 7 - low.length, by omega, ?_⟩
  rw [BitStream.pushBit, hfront, List.dropLast_concat, List.getLastD_concat, bitsOf_append,
    ← hlow]
  have hbyte := byteBits_or bit (by rw [hlow]; exact Nat.mod_lt _ (by decide)) hc
  rw [hbits, List.append_assoc, List.append_assoc]
  refine congrArg _ ?_
  rw [bitsOf, List.flatMap_cons, List.flatMap_nil, List.append_nil, hbyte]
  rfl

theorem bitsOf_replicate_zero (n : Nat) :
    bitsOf (List.replicate n 0) = List.replicate (8 * n) false := by
  induction n with
  | zero => rfl
  | succ n ih =>
    rw [List.replicate_succ, bitsOf, List.flatMap_cons]
    rw [bitsOf] at ih
    rw [ih, show 8 * (n + 1) = 8 + 8 * n from by omega, ← List.replicate_append_replicate]
    rfl

/-- **THE PADDING** is 0-bits up to a multiple of 32. -/
theorem fillPadding32_spec (h : Holds s bits) :
    s.fillPadding32.image.length % 4 = 0 ∧
      ∃ k, bitsOf s.fillPadding32.image = bits ++ List.replicate k false := by
  obtain ⟨-, k, -, himage⟩ := h
  rw [BitStream.fillPadding32]
  by_cases hrem : s.image.length % 4 ≠ 0
  · dsimp only
    rw [if_pos hrem, bitsOf_append, bitsOf_replicate_zero, himage, List.length_append,
      List.length_replicate]
    refine ⟨by omega, k + 8 * (4 - s.image.length % 4), ?_⟩
    rw [List.append_assoc, List.replicate_append_replicate]
  · dsimp only
    rw [if_neg hrem]
    exact ⟨by omega, k, himage⟩

theorem length_fillPadding32 (h : Holds s bits) :
    s.fillPadding32.image.length = 4 * ((bits.length + 31) / 32) := by
  obtain ⟨-, k, hk, himage⟩ := h
  have hlen := congrArg List.length himage
  rw [length_bitsOf, List.length_append, List.length_replicate] at hlen
  rw [BitStream.fillPadding32]
  dsimp only
  split_ifs with hrem
  · rw [List.length_append, List.length_replicate]
    omega
  · omega

theorem byteSize_fillPadding32_le (h : Holds s bits) :
    s.fillPadding32.byteSize ≤ bits.length / 8 + 4 := by
  rw [BitStream.byteSize, length_fillPadding32 h]
  omega

end MozkeyLouds
