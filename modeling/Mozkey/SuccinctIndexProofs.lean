import Mozkey.LittleEndianProofs
import Mozkey.RankSelectProofs

/-! # SimpleSuccinctBitVectorIndex — the words of a byte image

    The bits of an image are read in words of 32 bits, little endian.  `Rank1` counts the
    1-bits of whole words and of the low bits of one more, and `Select0` runs on the
    complements of the words; it is `Select1` with the other bit. -/

namespace MozkeyLouds

open ByteString LittleEndian RankSelect

/-! ## The bits of an image -/

/-- The bits of a byte, least significant first. -/
def byteBits (c : UInt8) : List Bool := (List.range 8).map c.toNat.testBit

/-- The bits of an image. -/
def bitsOf (data : Bytes) : List Bool := data.flatMap byteBits

/-- `LoadUnaligned<uint32_t>(data + offset)`. -/
def loadWord (data : Bytes) (offset : Nat) : BitVec 32 :=
  BitVec.ofNat 32 (loadLE ((data.drop offset).take 4))

/-- The bits of a word, least significant first. -/
def wordBits (word : BitVec 32) : List Bool := (List.range 32).map word.getLsbD

/-- The number of 1-bits of a word. -/
def popcount (word : BitVec 32) : Nat := (wordBits word).count true

theorem length_bitsOf (data : Bytes) : (bitsOf data).length = 8 * data.length := by
  induction data with
  | nil => rfl
  | cons c data ih =>
    rw [bitsOf, List.flatMap_cons, List.length_append]
    rw [bitsOf] at ih
    rw [ih, byteBits, List.length_map, List.length_range, List.length_cons]
    omega

theorem bitsOf_append (a b : Bytes) : bitsOf (a ++ b) = bitsOf a ++ bitsOf b :=
  List.flatMap_append

theorem bitsOf_drop (data : Bytes) (n : Nat) :
    (bitsOf data).drop (8 * n) = bitsOf (data.drop n) := by
  by_cases h : n ≤ data.length
  · rw [← List.take_append_drop n data, bitsOf_append, List.take_append_drop,
      List.drop_left' (by rw [length_bitsOf, List.length_take, Nat.min_eq_left h])]
  · rw [List.drop_of_length_le (by rw [length_bitsOf]; omega),
      List.drop_of_length_le (by omega)]
    rfl

theorem bitsOf_take (data : Bytes) (n : Nat) :
    (bitsOf data).take (8 * n) = bitsOf (data.take n) := by
  by_cases h : n ≤ data.length
  · conv_lhs => rw [← List.take_append_drop n data]
    rw [bitsOf_append, List.take_left' (by rw [length_bitsOf, List.length_take,
      Nat.min_eq_left h])]
  · rw [List.take_of_length_le (by rw [length_bitsOf]; omega),
      List.take_of_length_le (by omega)]

theorem map_testBit_loadLE : ∀ bs : Bytes,
    (List.range (8 * bs.length)).map (loadLE bs).testBit = bitsOf bs := by
  intro bs
  induction bs with
  | nil => rfl
  | cons c bs ih =>
    have hload : loadLE (c :: bs) = 2 ^ 8 * loadLE bs + c.toNat := by
      rw [loadLE]; omega
    have hbit := Nat.testBit_two_pow_mul_add (loadLE bs) (show c.toNat < 2 ^ 8 from c.toNat_lt)
    rw [List.length_cons, show 8 * (bs.length + 1) = 8 + 8 * bs.length from by omega,
      List.range_add, List.map_append, List.map_map, bitsOf, List.flatMap_cons]
    congr 1
    · refine List.map_congr_left ?_
      intro j hj
      rw [hload, hbit, if_pos (List.mem_range.mp hj)]
    · rw [bitsOf] at ih
      rw [← ih]
      refine List.map_congr_left ?_
      intro j _
      show (loadLE (c :: bs)).testBit (8 + j) = _
      rw [hload, hbit, if_neg (by omega), Nat.add_sub_cancel_left]

/-- A word is 32 bits of the image. -/
theorem wordBits_loadWord {data : Bytes} {offset : Nat} (h : offset + 4 ≤ data.length) :
    wordBits (loadWord data offset) = ((bitsOf data).drop (8 * offset)).take 32 := by
  have hlen : ((data.drop offset).take 4).length = 4 := by
    rw [List.length_take, List.length_drop]; omega
  rw [bitsOf_drop, show 32 = 8 * 4 from rfl, bitsOf_take, ← map_testBit_loadLE, hlen]
  refine List.map_congr_left ?_
  intro j hj
  have hj' : j < 32 := List.mem_range.mp hj
  rw [loadWord, BitVec.getLsbD_ofNat, decide_eq_true hj', Bool.true_and]

/-! ## Words -/

/-- A word, or its complement when 0-bits are counted. -/
def maskWord (b : Bool) (word : BitVec 32) : BitVec 32 := if b then word else ~~~word

/-- The loop of `Select0` and `Select1` over the bits of a word; the index runs one past
    the bit. -/
def findBit : Nat → BitVec 32 → Nat → Nat → Nat
  | 0, _, _, index => index
  | fuel + 1, word, n, index =>
    if n = 0 then index
    else findBit fuel (word >>> 1) (n - if word.getLsbD 0 then 1 else 0) (index + 1)

/-- The increment of a cache. -/
def cacheIncrement (numBits size : Nat) : Nat :=
  let increment := if size = 0 then numBits else numBits / size
  if increment = 0 then 1 else increment

theorem popcount_loadWord {data : Bytes} {offset : Nat} (h : offset + 4 ≤ data.length) :
    popcount (loadWord data offset) = rank true ((bitsOf data).drop (8 * offset)) 32 := by
  rw [popcount, wordBits_loadWord h]
  rfl

theorem wordBits_not (word : BitVec 32) : wordBits (~~~word) = (wordBits word).map (!·) := by
  rw [wordBits, wordBits, List.map_map]
  refine List.map_congr_left ?_
  intro j hj
  rw [BitVec.getLsbD_not, decide_eq_true (List.mem_range.mp hj), Bool.true_and]
  rfl

theorem popcount_maskWord (b : Bool) (word : BitVec 32) :
    popcount (maskWord b word) = (wordBits word).count b := by
  cases b with
  | true => rfl
  | false =>
    rw [popcount, maskWord, if_neg Bool.false_ne_true, wordBits_not,
      ← List.count_map_of_injective (wordBits word) (!·) (fun a c h => by simpa using h) false]
    rfl

theorem popcount_shiftLeft {word : BitVec 32} {k : Nat} (hk : k ≤ 32) :
    popcount (word <<< (32 - k)) = ((wordBits word).take k).count true := by
  have hrange : List.range 32
      = List.range (32 - k) ++ (List.range k).map ((32 - k) + ·) := by
    rw [← List.range_add]
    congr 1
    omega
  have htake : (wordBits word).take k = (List.range k).map word.getLsbD := by
    rw [wordBits, ← List.map_take, List.take_range, Nat.min_eq_left hk]
  rw [popcount, wordBits, hrange, List.map_append, List.count_append, List.map_map, htake]
  have hlow : ((List.range (32 - k)).map (word <<< (32 - k)).getLsbD).count true = 0 := by
    refine List.count_eq_zero.mpr ?_
    intro hmem
    obtain ⟨j, hj, hbit⟩ := List.mem_map.mp hmem
    rw [BitVec.getLsbD_shiftLeft, decide_eq_true (List.mem_range.mp hj)] at hbit
    simp at hbit
  have hhigh : (List.range k).map ((word <<< (32 - k)).getLsbD ∘ ((32 - k) + ·))
      = (List.range k).map word.getLsbD := by
    refine List.map_congr_left ?_
    intro j hj
    have hj' := List.mem_range.mp hj
    show (word <<< (32 - k)).getLsbD (32 - k + j) = _
    rw [BitVec.getLsbD_shiftLeft, decide_eq_true (by omega), decide_eq_false (by omega),
      Nat.add_sub_cancel_left]
    simp
  rw [hlow, hhigh, Nat.zero_add]

section

variable {data : Bytes}

theorem word_le {b : Bool} {offset n : Nat} (hpos : 0 < n)
    (hn : n ≤ ((bitsOf data).drop (8 * offset)).count b) (hmod : (data.length - offset) % 4 = 0) :
    offset + 4 ≤ data.length := by
  by_contra hout
  rw [List.drop_of_length_le (by rw [length_bitsOf]; omega), List.count_nil] at hn
  omega

/-- The bits behind an offset are those of the word there and those behind it. -/
theorem count_drop_word {b : Bool} {offset : Nat} (hin : offset + 4 ≤ data.length) :
    ((bitsOf data).drop (8 * offset)).count b = popcount (maskWord b (loadWord data offset))
      + ((bitsOf data).drop (8 * (offset + 4))).count b := by
  rw [popcount_maskWord, wordBits_loadWord hin, ← List.count_append,
    show 8 * (offset + 4) = 8 * offset + 32 from by omega, ← List.drop_drop, List.take_append_drop]

end

/-- The search over the bits of a word runs one past the `n`-th 1-bit. -/
theorem findBit_spec : ∀ (fuel : Nat) (word : BitVec 32) (n index : Nat), 0 < n →
    n ≤ ((List.range fuel).map word.getLsbD).count true →
    ∃ p, IsSelect true ((List.range fuel).map word.getLsbD) n p ∧
      findBit fuel word n index = index + p + 1 := by
  intro fuel
  induction fuel with
  | zero => intro word n index hpos hn; exact absurd hn (Nat.not_le.mpr hpos)
  | succ fuel ih =>
    intro word n index hpos hn
    have hbits : (List.range (fuel + 1)).map word.getLsbD
        = word.getLsbD 0 :: (List.range fuel).map (word >>> 1).getLsbD := by
      rw [List.range_succ_eq_map, List.map_cons, List.map_map]
      congr 1
      refine List.map_congr_left ?_
      intro j _
      rw [BitVec.getLsbD_ushiftRight, Nat.add_comm]
      rfl
    rw [hbits] at hn
    rw [hbits, findBit, if_neg (by omega)]
    cases hbit : word.getLsbD 0 with
    | true =>
      rw [hbit, List.count_cons_self] at hn
      rw [if_pos rfl]
      by_cases hone : n = 1
      · refine ⟨0, ⟨rfl, hone.symm⟩, ?_⟩
        rw [hone]
        cases fuel with
        | zero => rfl
        | succ fuel => rw [findBit, if_pos rfl]
      · obtain ⟨p, ⟨hget, hrank⟩, hfind⟩ := ih (word >>> 1) (n - 1) (index + 1) (by omega)
          (by omega)
        refine ⟨p + 1, ⟨hget, ?_⟩, by rw [hfind]; omega⟩
        rw [rank, List.take_succ_cons, List.count_cons_self]
        rw [rank] at hrank
        omega
    | false =>
      rw [hbit, List.count_cons_of_ne (by decide)] at hn
      rw [if_neg Bool.false_ne_true]
      obtain ⟨p, ⟨hget, hrank⟩, hfind⟩ := ih (word >>> 1) n (index + 1) hpos hn
      refine ⟨p + 1, ⟨hget, ?_⟩, by rw [Nat.sub_zero, hfind]; omega⟩
      rw [rank, List.take_succ_cons, List.count_cons_of_ne (by decide)]
      exact hrank

theorem cacheIncrement_pos (numBits size : Nat) : 0 < cacheIncrement numBits size := by
  rw [cacheIncrement]
  by_cases h : (if size = 0 then numBits else numBits / size) = 0
  · rw [if_pos h]
    exact Nat.one_pos
  · rw [if_neg h]
    exact Nat.pos_of_ne_zero h

/-- A bit of an image by its byte. -/
theorem getElem?_bitsOf (data : Bytes) (n : Nat) :
    (bitsOf data)[n]? = data[n / 8]?.map fun c => c.toNat.testBit (n % 8) := by
  have hsplit : (bitsOf data)[n]? = (bitsOf (data.drop (n / 8)))[n % 8]? := by
    rw [← bitsOf_drop, List.getElem?_drop, Nat.div_add_mod]
  have hhead : data[n / 8]? = (data.drop (n / 8))[0]? := by rw [List.getElem?_drop, Nat.add_zero]
  have hlt : n % 8 < 8 := Nat.mod_lt n (by decide)
  rw [hsplit, hhead]
  cases data.drop (n / 8) with
  | nil => rfl
  | cons c rest =>
    rw [bitsOf, List.flatMap_cons, List.getElem?_append_left (by simp [byteBits, hlt]), byteBits,
      List.getElem?_map, List.getElem?_range hlt]
    rfl

end MozkeyLouds
