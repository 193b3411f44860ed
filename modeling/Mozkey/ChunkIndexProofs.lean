import Mozkey.OptionListProofs
import Mozkey.SuccinctIndexProofs

/-! # SimpleSuccinctBitVectorIndex — rank and select over a byte image

    The index stores the number of 1-bits before each chunk and two caches that narrow the
    binary search over the chunks.  Every `int` may overflow, every word is read inside the
    image, and `std::lower_bound` asks for a partitioned range: `none` is what the language
    does not define, and an allocation that fails. -/

namespace MozkeySuccinct

open ByteString LittleEndian RankSelect OptionList
open MozkeyLouds

/-! ## The index -/

/-- The values of an `int` end here. -/
abbrev intLimit : Nat := 2147483648

/-- `chunk_size_` of the constructor, in bytes. -/
def kChunkSize : Nat := 32

/-- A value that is converted to `int`. -/
def toInt (x : Int) : Int := x.bmod 4294967296

/-- `LoadUnaligned<uint32_t>(data + offset)`. -/
def load (data : Bytes) (offset : Nat) : Option (BitVec 32) :=
  if offset + 4 ≤ data.length then some (loadWord data offset) else none

/-- `Count1Bits(data + offset, length)`. -/
def count1Bits (data : Bytes) : Nat → Nat → Option Nat
  | _, 0 => some 0
  | offset, length + 1 =>
    (load data offset).bind (fun word =>
      (count1Bits data (offset + 4) length).map (popcount word + ·))

/-- The loop of `InitIndex`; `num_bits` is an `int`. -/
def initIndexLoop (data : Bytes) (chunkSize : Nat) : Nat → Nat → Nat → Nat → Option (List Nat)
  | 0, _, remainingNumWords, numBits => if remainingNumWords = 0 then some [numBits] else none
  | fuel + 1, offset, remainingNumWords, numBits =>
    if remainingNumWords = 0 then some [numBits]
    else
      (count1Bits data offset (min (chunkSize / 4) remainingNumWords)).bind (fun bits =>
        if numBits + bits < intLimit then
          (initIndexLoop data chunkSize fuel (offset + chunkSize)
            (remainingNumWords - chunkSize / 4) (numBits + bits)).map (numBits :: ·)
        else none)

/-- How many chunks there are. -/
def chunkLength (chunkSize length : Nat) : Nat := (length + chunkSize - 1) / chunkSize

/-- `InitIndex`, with its `CHECK`. -/
def initIndex (data : Bytes) (chunkSize : Nat) : Option (List Nat) :=
  if data.length + chunkSize < intLimit then
    (initIndexLoop data chunkSize (data.length / 4) 0 (data.length / 4) 0).bind (fun index =>
      if chunkLength chunkSize data.length + 1 = index.length then some index else none)
  else none

/-- The values that `std::lower_bound` compares: the index, or what `ZeroBitIndexIterator`
    makes of it, a number of 64 bits that is converted to `int`. -/
def valuesOf (b : Bool) (chunkSize : Nat) (index : List Nat) : Option (List Int) :=
  if b then some (index.map Int.ofNat)
  else if chunkSize * 8 < intLimit then
    some (index.mapIdx (fun i (ones : Nat) => toInt ((chunkSize * 8 * i : Nat) - ones)))
  else none

/-- `std::lower_bound` on `[first, last)`, which is to be partitioned. -/
def lowerBound (values : List Int) (first last : Nat) (value : Int) : Option Nat :=
  let range := (values.take last).drop first
  if first ≤ last ∧ (range.dropWhile (· < value)).all (value ≤ ·) then
    some (first + (range.takeWhile (· < value)).length)
  else none

/-- `InitLowerBound0Cache` and `InitLowerBound1Cache`; pointers are offsets.  `reserve` wants
    no more than the vector can hold, and the target is converted to `int`. -/
def initLowerBoundCache (b : Bool) (chunkSize : Nat) (index : List Nat) (increment size : Nat) :
    Option (List Nat) :=
  if size + 2 < 2 ^ 60 then
    ((List.range size).mapM (fun i =>
      (valuesOf b chunkSize index).bind (fun values =>
        lowerBound values 0 index.length (toInt (increment * (i + 1) : Nat))))).map
      (fun pointers => 0 :: pointers ++ [index.length])
  else none

/-- `SimpleSuccinctBitVectorIndex`, with `int` limits. -/
structure SimpleSuccinctBitVectorIndex where
  data : Bytes
  chunkSize : Nat
  index : List Nat
  lb0CacheIncrement : Nat
  lb0Cache : List Nat
  lb1CacheIncrement : Nat
  lb1Cache : List Nat

/-- `GetNum1Bits`. -/
def getNum1Bits (index : List Nat) : Nat := index.getLastD 0

/-- `GetNum0Bits`; `none` where the `int` overflows. -/
def getNum0Bits (length : Nat) (index : List Nat) : Option Nat :=
  if 8 * length < intLimit then some (8 * length - index.getLastD 0) else none

/-- `Init` of an index with a chunk size. -/
def init (chunkSize : Nat) (data : Bytes) (lb0CacheSize lb1CacheSize : Nat) :
    Option SimpleSuccinctBitVectorIndex :=
  (initIndex data chunkSize).bind (fun index =>
    (getNum0Bits data.length index).bind (fun num0Bits =>
      let increment0 := cacheIncrement num0Bits lb0CacheSize
      let increment1 := cacheIncrement (getNum1Bits index) lb1CacheSize
      (initLowerBoundCache false chunkSize index increment0 lb0CacheSize).bind (fun lb0Cache =>
        (initLowerBoundCache true chunkSize index increment1 lb1CacheSize).map (fun lb1Cache =>
          { data := data
            chunkSize := chunkSize
            index := index
            lb0CacheIncrement := increment0
            lb0Cache := lb0Cache
            lb1CacheIncrement := increment1
            lb1Cache := lb1Cache }))))

/-! ## The queries -/

/-- The number of bits before a chunk, as `Select0` and `Select1` take it off. -/
def bitsBefore (b : Bool) (chunkSize : Nat) (index : List Nat) (chunkIndex : Nat) : Option Nat :=
  index[chunkIndex]?.bind (fun ones =>
    if b then some ones
    else if chunkSize * 8 * chunkIndex < intLimit then some (chunkSize * 8 * chunkIndex - ones)
    else none)

/-- The loop of `Select0` and `Select1` over the words, with the remaining count. -/
def findWord (b : Bool) (data : Bytes) : Nat → Nat → Nat → Option (Nat × Nat)
  | 0, _, _ => none
  | fuel + 1, offset, n =>
    (load data offset).bind (fun word =>
      if popcount (maskWord b word) ≥ n then some (offset, n)
      else findWord b data fuel (offset + 4) (n - popcount (maskWord b word)))

namespace SimpleSuccinctBitVectorIndex

/-- `Get`; past the image there are no bits. -/
def get (s : SimpleSuccinctBitVectorIndex) (index : Nat) : Option Bool :=
  s.data[index / 8]?.map (fun c => c.toNat.testBit (index % 8))

/-- `Rank1`. -/
def rank1 (s : SimpleSuccinctBitVectorIndex) (n : Nat) : Option Nat :=
  if s.chunkSize * 8 < intLimit then
    let numChunks := n / (s.chunkSize * 8)
    s.index[numChunks]?.bind (fun before =>
      (count1Bits s.data (numChunks * s.chunkSize) ((n / 8 - numChunks * s.chunkSize) / 4)).bind
        (fun words =>
          if n % 32 > 0 then
            (load s.data (4 * (n / 32))).map (fun word : BitVec 32 =>
              before + words + popcount (word <<< (32 - n % 32)))
          else some (before + words)))
  else none

/-- The common body of `Select0` and `Select1`. -/
def select (b : Bool) (s : SimpleSuccinctBitVectorIndex) (increment : Nat) (cache : List Nat)
    (n : Nat) : Option Nat :=
  let cacheIndex := min (n / increment) (cache.length - 2)
  (cache[cacheIndex]?).bind (fun first =>
    (cache[cacheIndex + 1]?).bind (fun last =>
      (valuesOf b s.chunkSize s.index).bind (fun values =>
        (lowerBound values first last n).bind (fun pointer =>
          if pointer = 0 then none
          else
            (bitsBefore b s.chunkSize s.index (pointer - 1)).bind (fun before =>
              (findWord b s.data (s.data.length / 4) ((pointer - 1) * s.chunkSize / 4 * 4)
                (n - before)).bind (fun found =>
                  (load s.data found.1).map (fun word =>
                    findBit 32 (maskWord b word) found.2 (found.1 * 8) - 1)))))))

/-- `Select0`. -/
def select0 (s : SimpleSuccinctBitVectorIndex) (n : Nat) : Option Nat :=
  select false s s.lb0CacheIncrement s.lb0Cache n

/-- `Select1`. -/
def select1 (s : SimpleSuccinctBitVectorIndex) (n : Nat) : Option Nat :=
  select true s s.lb1CacheIncrement s.lb1Cache n

end SimpleSuccinctBitVectorIndex


/-! ## Words -/

theorem exists_count1Bits (data : Bytes) : ∀ (length offset : Nat),
    offset + 4 * length ≤ data.length →
    ∃ bits, count1Bits data offset length = some bits ∧
      rank true (bitsOf data) (8 * offset) + bits
        = rank true (bitsOf data) (8 * offset + 32 * length) := by
  intro length
  induction length with
  | zero => intro offset _; exact ⟨0, rfl, rfl⟩
  | succ length ih =>
    intro offset h
    obtain ⟨bits, hbits, hrank⟩ := ih (offset + 4) (by omega)
    rw [show 8 * (offset + 4) = 8 * offset + 32 from by omega, rank_add] at hrank
    refine ⟨popcount (loadWord data offset) + bits, ?_, ?_⟩
    · rw [count1Bits, load, if_pos (by omega), Option.bind_some, hbits, Option.map_some]
    · rw [popcount_loadWord (by omega),
        show 8 * offset + 32 * (length + 1) = 8 * offset + 32 + 32 * length from by omega, ← hrank]
      omega

/-! ## The counts before the chunks -/

section Chunks

variable {data : Bytes} {chunkSize : Nat} (hdvd : 4 ∣ chunkSize) (hpos : 0 < chunkSize)
  (haligned : data.length % 4 = 0)
include hdvd hpos

theorem rounds_succ {remaining : Nat} (h : 0 < remaining) :
    (4 * (remaining - chunkSize / 4) + chunkSize - 1) / chunkSize + 1
      = (4 * remaining + chunkSize - 1) / chunkSize := by
  obtain ⟨m, rfl⟩ := hdvd
  have hm : 4 * m / 4 = m := Nat.mul_div_cancel_left m (by decide)
  rw [hm]
  by_cases hfull : m ≤ remaining
  · rw [show 4 * remaining + 4 * m - 1 = 4 * (remaining - m) + 4 * m - 1 + 4 * m from by omega,
      Nat.add_div_right _ hpos]
  · rw [show remaining - m = 0 from by omega, Nat.mul_zero, Nat.zero_add,
      Nat.div_eq_of_lt (by omega),
      show 4 * remaining + 4 * m - 1 = 4 * remaining - 1 + 4 * m from by omega,
      Nat.add_div_right _ hpos, Nat.div_eq_of_lt (by omega)]

theorem initIndexLoop_spec (hfit : 8 * data.length < intLimit) :
    ∀ (fuel offset remaining numBits : Nat), remaining ≤ fuel →
      (offset + 4 * remaining = data.length ∨ (remaining = 0 ∧ data.length ≤ offset)) →
      numBits = rank true (bitsOf data) (8 * offset) →
      ∃ index, initIndexLoop data chunkSize fuel offset remaining numBits = some index ∧
        index.length = (4 * remaining + chunkSize - 1) / chunkSize + 1 ∧
          ∀ k < index.length,
            index[k]? = some (rank true (bitsOf data) (8 * offset + 8 * chunkSize * k)) := by
  have hend : ∀ offset numBits, numBits = rank true (bitsOf data) (8 * offset) →
      [numBits].length = (4 * 0 + chunkSize - 1) / chunkSize + 1 ∧
        ∀ k < [numBits].length,
          [numBits][k]? = some (rank true (bitsOf data) (8 * offset + 8 * chunkSize * k)) := by
    intro offset numBits hnum
    refine ⟨?_, ?_⟩
    · rw [Nat.mul_zero, Nat.zero_add, Nat.div_eq_of_lt (by omega)]
      rfl
    · intro k hk
      rw [List.length_singleton] at hk
      rw [show k = 0 from by omega, hnum, Nat.mul_zero, Nat.add_zero]
      rfl
  intro fuel
  induction fuel with
  | zero =>
    intro offset remaining numBits hle _ hnum
    obtain rfl : remaining = 0 := by omega
    exact ⟨[numBits], by rw [initIndexLoop, if_pos rfl], hend offset numBits hnum⟩
  | succ fuel ih =>
    intro offset remaining numBits hle hplace hnum
    rw [initIndexLoop]
    by_cases hzero : remaining = 0
    · subst hzero
      exact ⟨[numBits], by rw [if_pos rfl], hend offset numBits hnum⟩
    · rw [if_neg hzero]
      have hlen : offset + 4 * remaining = data.length := hplace.resolve_right (by omega)
      have hwords : 4 * (chunkSize / 4) = chunkSize := Nat.mul_div_cancel' hdvd
      obtain ⟨bits, hbits, hrank⟩ := exists_count1Bits data
        (min (chunkSize / 4) remaining) offset (by omega)
      have hnext : numBits + bits = rank true (bitsOf data) (8 * (offset + chunkSize)) := by
        rw [hnum, hrank]
        by_cases hfull : chunkSize / 4 ≤ remaining
        · rw [Nat.min_eq_left hfull]
          congr 1
          omega
        · -- the last chunk is not full: the rank is the number of all 1-bits
          rw [Nat.min_eq_right (by omega), rank_of_length_le (by rw [length_bitsOf]; omega),
            rank_of_length_le (by rw [length_bitsOf]; omega)]
      have hsmall : numBits + bits < intLimit := by
        have hle := rank_le_length true (bitsOf data) (8 * (offset + chunkSize))
        rw [length_bitsOf] at hle
        omega
      obtain ⟨index, hindex, hlength, hget⟩ := ih (offset + chunkSize)
        (remaining - chunkSize / 4) (numBits + bits) (by omega) (by omega) hnext
      refine ⟨numBits :: index, ?_, ?_, ?_⟩
      · rw [hbits, Option.bind_some, if_pos hsmall, hindex, Option.map_some]
      · rw [List.length_cons, hlength, rounds_succ hdvd hpos (by omega)]
      · intro k hk
        cases k with
        | zero =>
          rw [hnum, Nat.mul_zero, Nat.add_zero]
          rfl
        | succ k =>
          rw [List.length_cons] at hk
          rw [List.getElem?_cons_succ, hget k (by omega), Nat.mul_succ]
          congr 2
          omega

include haligned

/-- **`InitIndex`**: the number of 1-bits before each chunk. -/
theorem initIndex_spec (hfit : 8 * data.length < intLimit)
    (hsum : data.length + chunkSize < intLimit) :
    ∃ index, initIndex data chunkSize = some index ∧
      index.length = chunkLength chunkSize data.length + 1 ∧
        ∀ k ≤ chunkLength chunkSize data.length,
          index[k]? = some (rank true (bitsOf data) (8 * chunkSize * k)) := by
  obtain ⟨index, hindex, hlength, hget⟩ := initIndexLoop_spec hdvd hpos hfit (data.length / 4) 0
    (data.length / 4) 0 (Nat.le_refl _) (Or.inl (by omega)) rfl
  rw [show 4 * (data.length / 4) = data.length from by omega] at hlength
  have hsame : chunkLength chunkSize data.length + 1 = index.length := hlength.symm
  refine ⟨index, ?_, hlength, ?_⟩
  · rw [initIndex, if_pos hsum, hindex, Option.bind_some, if_pos hsame]
  · intro k hk
    rw [hget k (by omega), Nat.mul_zero, Nat.zero_add]

end Chunks

/-! ## Chunks -/

variable {k : Nat}

theorem chunk_lt {chunkSize length : Nat} (hpos : 0 < chunkSize)
    (hk : k < chunkLength chunkSize length) : chunkSize * k < length := by
  rw [chunkLength, Nat.lt_iff_add_one_le, Nat.le_div_iff_mul_le hpos, Nat.add_mul,
    Nat.mul_comm k] at hk
  omega

theorem length_le_chunks {chunkSize length : Nat} (hpos : 0 < chunkSize) :
    length ≤ chunkSize * chunkLength chunkSize length := by
  have h := Nat.lt_mul_div_succ (length + chunkSize - 1) hpos
  rw [Nat.mul_succ] at h
  rw [chunkLength]
  omega

/-- An index whose counts are right. -/
structure Indexed (data : Bytes) (chunkSize : Nat) (index : List Nat) : Prop where
  length : index.length = chunkLength chunkSize data.length + 1
  get : ∀ k ≤ chunkLength chunkSize data.length,
    index[k]? = some (rank true (bitsOf data) (8 * chunkSize * k))

section Chunks

variable {data : Bytes} {chunkSize : Nat} {index : List Nat} (hdvd : 4 ∣ chunkSize)
  (hpos : 0 < chunkSize) (haligned : data.length % 4 = 0) (hindexed : Indexed data chunkSize index)
include hpos hindexed

theorem getNum1Bits_eq : getNum1Bits index = (bitsOf data).count true := by
  have hcover : data.length ≤ chunkSize * chunkLength chunkSize data.length :=
    length_le_chunks hpos
  rw [getNum1Bits, List.getLastD_eq_getLast?, List.getLast?_eq_getElem?, hindexed.length,
    Nat.add_sub_cancel, hindexed.get _ (Nat.le_refl _), Option.getD_some, rank_of_length_le]
  rw [length_bitsOf, Nat.mul_assoc]
  omega

theorem getNum0Bits_eq (hfit : 8 * data.length < intLimit) :
    getNum0Bits data.length index = some ((bitsOf data).count false) := by
  have hsum := List.count_add_count_not (bitsOf data) true
  rw [Bool.not_true, length_bitsOf] at hsum
  have hones := getNum1Bits_eq hpos hindexed
  rw [getNum1Bits] at hones
  rw [getNum0Bits, if_pos hfit, hones]
  congr 1
  omega

include hdvd haligned

/-- **`Rank1` COUNTS THE 1-BITS** before a position. -/
theorem rank1_eq {s : SimpleSuccinctBitVectorIndex} (hdata : s.data = data)
    (hsize : s.chunkSize = chunkSize) (hindex : s.index = index)
    (hchunk : chunkSize * 8 < intLimit) {n : Nat} (hn : n ≤ 8 * data.length) :
    s.rank1 n = some (rank true (bitsOf data) n) := by
  have hbelow : n / (chunkSize * 8) * chunkSize ≤ n / 8 := by
    rw [Nat.mul_comm chunkSize 8, ← Nat.div_div_eq_div_mul]
    exact Nat.div_mul_le_self _ _
  have hchunks : n / (chunkSize * 8) ≤ chunkLength chunkSize data.length := by
    have hcover : data.length ≤ chunkSize * chunkLength chunkSize data.length :=
      length_le_chunks hpos
    refine Nat.le_of_mul_le_mul_left ?_ hpos
    rw [Nat.mul_comm]
    omega
  have hwhole : 4 ∣ n / (chunkSize * 8) * chunkSize := Dvd.dvd.mul_left hdvd _
  have hfirst : 8 * chunkSize * (n / (chunkSize * 8)) = 8 * (n / (chunkSize * 8) * chunkSize) := by
    rw [Nat.mul_assoc, Nat.mul_comm chunkSize (n / (chunkSize * 8))]
  have hget := hindexed.get _ hchunks
  rw [hfirst] at hget
  rw [SimpleSuccinctBitVectorIndex.rank1, hsize, if_pos hchunk, hindex, hdata]
  dsimp only
  rw [hget]
  generalize n / (chunkSize * 8) * chunkSize = offset at hbelow hwhole
  obtain ⟨words, hwords, hrank⟩ := exists_count1Bits data ((n / 8 - offset) / 4) offset
    (by omega)
  rw [show 8 * offset + 32 * ((n / 8 - offset) / 4) = 32 * (n / 32) from by omega] at hrank
  rw [Option.bind_some, hwords, Option.bind_some, hrank]
  by_cases hrest : n % 32 > 0
  · -- the bits behind the last whole word
    rw [if_pos hrest, load, if_pos (by omega), Option.map_some,
      popcount_shiftLeft (by omega), wordBits_loadWord (by omega),
      List.take_take, Nat.min_eq_left (by omega)]
    have hadd : rank true (bitsOf data) (32 * (n / 32) + n % 32) = _ :=
      rank_add (32 * (n / 32)) (n % 32)
    rw [show 32 * (n / 32) + n % 32 = n from by omega] at hadd
    rw [hadd, show 8 * (4 * (n / 32)) = 32 * (n / 32) from by omega]
    rfl
  · rw [if_neg hrest]
    congr 2
    omega

end Chunks

/-! ## Searching -/

variable {values : List Int}

/-- **A SEARCH IN A SORTED RANGE** finds the first value that is not less. -/
theorem lowerBound_spec (hsorted : values.Pairwise (· ≤ ·)) {first last : Nat} (hle : first ≤ last)
    (hlast : last ≤ values.length) (value : Int) :
    ∃ p, lowerBound values first last value = some p ∧ first ≤ p ∧ p ≤ last ∧
      (∀ i x, first ≤ i → i < p → values[i]? = some x → x < value) ∧
        ∀ i x, p ≤ i → i < last → values[i]? = some x → value ≤ x := by
  have hrange : ((values.take last).drop first).Pairwise (· ≤ ·) :=
    (hsorted.sublist (List.take_sublist _ _)).sublist (List.drop_sublist _ _)
  have hget : ∀ k, first + k < last →
      ((values.take last).drop first)[k]? = values[first + k]? := by
    intro k hk
    rw [List.getElem?_drop, List.getElem?_take_of_lt hk]
  have hlength : ((values.take last).drop first).length = last - first := by
    rw [List.length_drop, List.length_take, Nat.min_eq_left hlast]
  generalize hr : (values.take last).drop first = range at hrange hget hlength
  have hsplit := @List.takeWhile_append_dropWhile _ (fun x : Int => decide (x < value)) range
  have hsmall : ∀ x ∈ range.takeWhile (fun x : Int => decide (x < value)), x < value := by
    intro x hx
    have himp := List.mem_takeWhile_imp hx
    exact of_decide_eq_true himp
  have hbig : ∀ x ∈ range.dropWhile (fun x : Int => decide (x < value)), value ≤ x := by
    cases hdrop : range.dropWhile (fun x : Int => decide (x < value)) with
    | nil => intro x hx; exact absurd hx List.not_mem_nil
    | cons y rest =>
      have hy : value ≤ y := by
        have hnot := List.head?_dropWhile_not (fun x : Int => decide (x < value)) range
        rw [hdrop, List.head?_cons] at hnot
        simpa using hnot
      rw [← hsplit, hdrop, List.pairwise_append] at hrange
      intro x hx
      rcases List.mem_cons.mp hx with rfl | hx
      · exact hy
      · exact hy.trans ((List.pairwise_cons.mp hrange.2.1).1 x hx)
  have htotal := congrArg List.length hsplit
  rw [List.length_append, hlength] at htotal
  refine ⟨first + (range.takeWhile (fun x : Int => decide (x < value))).length, ?_, by omega,
    by omega, ?_, ?_⟩
  · rw [lowerBound, hr, if_pos]
    refine ⟨hle, List.all_eq_true.mpr fun x hx => decide_eq_true (hbig x hx)⟩
  · intro i x hfirst hi hx
    refine hsmall x (List.mem_of_getElem? (i := i - first) ?_)
    have hleft : (range.takeWhile (fun x : Int => decide (x < value)) ++
        range.dropWhile (fun x : Int => decide (x < value)))[i - first]?
          = (range.takeWhile (fun x : Int => decide (x < value)))[i - first]? :=
      List.getElem?_append_left (by omega)
    rw [← hleft, hsplit, hget _ (by omega), Nat.add_sub_cancel' hfirst, hx]
  · intro i x hi hlt hx
    refine hbig x (List.mem_of_getElem?
      (i := i - first - (range.takeWhile (fun x : Int => decide (x < value))).length) ?_)
    rw [← List.getElem?_append_right (by omega), hsplit, hget _ (by omega),
      Nat.add_sub_cancel' (by omega), hx]

/-! ## The values -/

/-- The counts of the bits `b` at the chunk boundaries, as the index has them. -/
def chunkRank (b : Bool) (data : Bytes) (chunkSize k : Nat) : Nat :=
  if b then rank true (bitsOf data) (8 * chunkSize * k)
  else 8 * chunkSize * k - rank true (bitsOf data) (8 * chunkSize * k)

theorem chunkRank_zero (b : Bool) (data : Bytes) (chunkSize : Nat) :
    chunkRank b data chunkSize 0 = 0 := by
  cases b with
  | true => rfl
  | false => rw [chunkRank, if_neg Bool.false_ne_true, Nat.mul_zero, Nat.zero_sub]

theorem chunkRank_mono (b : Bool) (data : Bytes) (chunkSize : Nat) {k' : Nat} (h : k ≤ k') :
    chunkRank b data chunkSize k ≤ chunkRank b data chunkSize k' := by
  have hle : 8 * chunkSize * k ≤ 8 * chunkSize * k' := Nat.mul_le_mul_left _ h
  cases b with
  | true => exact rank_mono hle
  | false =>
    rw [chunkRank, chunkRank, if_neg Bool.false_ne_true, if_neg Bool.false_ne_true]
    obtain ⟨d, hd⟩ := Nat.exists_eq_add_of_le hle
    have hadd : rank true (bitsOf data) (8 * chunkSize * k + d) = _ :=
      rank_add (8 * chunkSize * k) d
    have hrest := rank_le true ((bitsOf data).drop (8 * chunkSize * k)) d
    have hfirst := rank_le true (bitsOf data) (8 * chunkSize * k)
    rw [hd, hadd]
    omega

theorem chunkRank_of_lt (b : Bool) {data : Bytes} {chunkSize : Nat} (hpos : 0 < chunkSize)
    (hk : k < chunkLength chunkSize data.length) :
    chunkRank b data chunkSize k = rank b (bitsOf data) (8 * chunkSize * k) := by
  cases b with
  | true => rfl
  | false =>
    have hlt := chunk_lt hpos hk
    have hlen : 8 * chunkSize * k ≤ (bitsOf data).length := by
      rw [length_bitsOf, Nat.mul_assoc]
      omega
    have hsum := rank_not (b := true) hlen
    rw [Bool.not_true] at hsum
    rw [chunkRank, if_neg Bool.false_ne_true]
    omega

theorem count_le_chunkRank (b : Bool) {data : Bytes} {chunkSize : Nat} (hpos : 0 < chunkSize) :
    (bitsOf data).count b ≤ chunkRank b data chunkSize (chunkLength chunkSize data.length) := by
  have hcover : data.length ≤ chunkSize * chunkLength chunkSize data.length :=
    length_le_chunks hpos
  have hend : (bitsOf data).length
      ≤ 8 * chunkSize * chunkLength chunkSize data.length := by
    rw [length_bitsOf, Nat.mul_assoc]
    omega
  have hrank := rank_of_length_le (b := true) hend
  have hsum := List.count_add_count_not (bitsOf data) true
  cases b with
  | true => rw [chunkRank, if_pos rfl, hrank]
  | false =>
    rw [chunkRank, if_neg Bool.false_ne_true, hrank]
    rw [Bool.not_true] at hsum
    omega

theorem toInt_of_lt {n : Nat} (h : n < intLimit) : toInt n = n := by
  have hlt : n < 2147483648 := h
  exact Int.bmod_eq_of_le (by omega) (by omega)

/-- The sentinel of the index, as a count of 0-bits. -/
def sentinel (data : Bytes) (chunkSize : Nat) : Nat :=
  chunkRank false data chunkSize (chunkLength chunkSize data.length)

/-- The values of an index: as many as there are chunks and one more, in order. -/
structure Valued (b : Bool) (data : Bytes) (chunkSize : Nat) (values : List Int) : Prop where
  length : values.length = chunkLength chunkSize data.length + 1
  get : ∀ k ≤ chunkLength chunkSize data.length,
    values[k]? = some (chunkRank b data chunkSize k : Int)

variable {b : Bool}

theorem Valued.sorted {data : Bytes} {chunkSize : Nat} (h : Valued b data chunkSize values) :
    values.Pairwise (· ≤ ·) := by
  rw [List.pairwise_iff_getElem]
  intro i j hi hj hij
  rw [h.length] at hi hj
  have hgeti := h.get i (by omega)
  have hgetj := h.get j (by omega)
  rw [(List.getElem?_eq_some_iff.mp hgeti).2, (List.getElem?_eq_some_iff.mp hgetj).2]
  exact Int.ofNat_le.mpr (chunkRank_mono b data chunkSize (Nat.le_of_lt hij))

/-- **THE VALUES** that are searched. -/
theorem valuesOf_spec (b : Bool) {data : Bytes} {chunkSize : Nat} {index : List Nat}
    (hindexed : Indexed data chunkSize index) (hchunk : chunkSize * 8 < intLimit)
    (hsentinel : sentinel data chunkSize < intLimit) :
    ∃ values, valuesOf b chunkSize index = some values ∧ Valued b data chunkSize values := by
  cases b with
  | true =>
    refine ⟨index.map Int.ofNat, rfl, ?_, ?_⟩
    · rw [List.length_map, hindexed.length]
    · intro k hk
      rw [List.getElem?_map, hindexed.get k hk]
      rfl
  | false =>
    refine ⟨_, by rw [valuesOf, if_neg Bool.false_ne_true, if_pos hchunk], ?_, ?_⟩
    · rw [List.length_mapIdx, hindexed.length]
    · intro k hk
      have hle : chunkRank false data chunkSize k < intLimit :=
        Nat.lt_of_le_of_lt (chunkRank_mono false data chunkSize hk) hsentinel
      have hrank := rank_le true (bitsOf data) (8 * chunkSize * k)
      have hcast : ((8 * chunkSize * k : Nat) : Int) - rank true (bitsOf data) (8 * chunkSize * k)
          = (chunkRank false data chunkSize k : Nat) := by
        rw [chunkRank, if_neg Bool.false_ne_true, Int.ofNat_sub hrank]
      rw [List.getElem?_mapIdx, hindexed.get k hk, Option.map_some, Nat.mul_comm chunkSize 8,
        hcast, toInt_of_lt hle]

/-- **THE WHOLE RANGE**: a search that starts at the first chunk. -/
theorem lowerBound_whole {data : Bytes} {chunkSize : Nat} (h : Valued b data chunkSize values)
    (value : Int) :
    ∃ p, lowerBound values 0 values.length value = some p ∧
      p ≤ chunkLength chunkSize data.length + 1 ∧
        (∀ k < p, (chunkRank b data chunkSize k : Int) < value) ∧
          ∀ k, p ≤ k → k ≤ chunkLength chunkSize data.length →
            value ≤ chunkRank b data chunkSize k := by
  obtain ⟨p, hp, -, hle, hbelow, habove⟩ :=
    lowerBound_spec h.sorted (Nat.zero_le _) (Nat.le_refl _) value
  have hlength := h.length
  refine ⟨p, hp, by omega, ?_, ?_⟩
  · intro k hk
    exact hbelow k _ (Nat.zero_le k) hk (h.get k (by omega))
  · intro k hk hlast
    exact habove k _ hk (by omega) (h.get k hlast)

/-! ## The caches -/

/-- What a cache holds: the start, the bounds of its targets, and the end. -/
structure Cached (values : List Int) (increment size : Nat) (cache : List Nat) : Prop where
  length : cache.length = size + 2
  first : cache[0]? = some 0
  middle : ∀ i < size, cache[i + 1]?
    = lowerBound values 0 values.length (toInt (increment * (i + 1) : Nat))
  last : cache[size + 1]? = some values.length

variable {size : Nat}

theorem initLowerBoundCache_spec {data : Bytes} {chunkSize : Nat} {index : List Nat}
    (hvalues : valuesOf b chunkSize index = some values) (hvalued : Valued b data chunkSize values)
    (hlength : index.length = values.length) (increment : Nat) (hsize : size + 2 < 2 ^ 60) :
    ∃ cache, initLowerBoundCache b chunkSize index increment size = some cache ∧
      Cached values increment size cache := by
  have hsome : ∀ i ∈ List.range size, ((valuesOf b chunkSize index).bind (fun values =>
      lowerBound values 0 index.length (toInt (increment * (i + 1) : Nat)))).isSome = true := by
    intro i _
    obtain ⟨p, hp, -⟩ := lowerBound_whole hvalued (toInt (increment * (i + 1) : Nat))
    rw [hvalues, Option.bind_some, hlength, hp]
    rfl
  obtain ⟨pointers, hpointers⟩ := exists_mapM hsome
  have hcount := length_mapM hpointers
  rw [List.length_range] at hcount
  refine ⟨0 :: pointers ++ [index.length], ?_, ?_, rfl, ?_, ?_⟩
  · rw [initLowerBoundCache, if_pos hsize, hpointers, Option.map_some]
  · rw [List.length_append, List.length_cons, hcount, List.length_singleton]
  · intro i hi
    obtain ⟨p, hp, hget⟩ := getElem?_mapM hpointers (List.getElem?_range hi)
    rw [hvalues, Option.bind_some, hlength] at hp
    rw [List.cons_append, List.getElem?_cons_succ, List.getElem?_append_left (by omega), hget, hp]
  · rw [List.cons_append, List.getElem?_cons_succ, ← hcount,
      List.getElem?_append_right (Nat.le_refl _), Nat.sub_self, List.getElem?_cons_zero, hlength]

/-- The targets of a cache that a query looks at do not wrap around. -/
theorem target_lt {numBits n i : Nat} (hn : n ≤ numBits) (hnum : numBits + 1 < intLimit)
    (hi : i < size) (hle : i ≤ n / cacheIncrement numBits size) :
    cacheIncrement numBits size * (i + 1) < intLimit := by
  have hincrement : cacheIncrement numBits size
      = if numBits / size = 0 then 1 else numBits / size := by
    rw [cacheIncrement, if_neg (show ¬ size = 0 by omega)]
  rw [hincrement] at hle ⊢
  split_ifs at hle ⊢ with hzero
  · rw [Nat.div_one] at hle
    omega
  · have hmul : numBits / size * (i + 1) ≤ numBits / size * size := Nat.mul_le_mul_left _ hi
    have hdiv := Nat.div_mul_le_self numBits size
    omega

/-- **THE CACHES ONLY NARROW THE SEARCH**: the chunk found has fewer than `n` bits before
    it, whatever the size of the cache. -/
theorem lowerBound_cached {data : Bytes} {chunkSize : Nat} {increment n : Nat} {cache : List Nat}
    (hpos : 0 < chunkSize) (hvalued : Valued b data chunkSize values)
    (hcached : Cached values increment size cache) (hincrement : 0 < increment)
    (htarget : ∀ i < size, i ≤ n / increment → increment * (i + 1) < intLimit) (hn : 0 < n)
    (hcount : n ≤ (bitsOf data).count b) :
    ∃ first last p, cache[min (n / increment) (cache.length - 2)]? = some first ∧
      cache[min (n / increment) (cache.length - 2) + 1]? = some last ∧
        lowerBound values first last n = some p ∧ 0 < p ∧
          p ≤ chunkLength chunkSize data.length ∧ chunkRank b data chunkSize (p - 1) < n := by
  have hlastRank : (bitsOf data).count b
      ≤ chunkRank b data chunkSize (chunkLength chunkSize data.length) := count_le_chunkRank b hpos
  have hlength := hvalued.length
  rw [hcached.length, Nat.add_sub_cancel]
  have hle : min (n / increment) size ≤ n / increment := Nat.min_le_left _ _
  have hsize : min (n / increment) size ≤ size := Nat.min_le_right _ _
  generalize min (n / increment) size = cacheIndex at hle hsize
  have hbelow : increment * cacheIndex ≤ n :=
    (Nat.mul_le_mul_left increment hle).trans (Nat.mul_div_le n increment)
  -- the start of the range: the chunks before it have less than its target
  have hstart : ∃ first, cache[cacheIndex]? = some first ∧
      first ≤ chunkLength chunkSize data.length ∧
        ∀ k < first, chunkRank b data chunkSize k < increment * cacheIndex := by
    cases cacheIndex with
    | zero => exact ⟨0, hcached.first, Nat.zero_le _, fun k hk => absurd hk (Nat.not_lt_zero k)⟩
    | succ i =>
      have hfit := htarget i (by omega) (by omega)
      obtain ⟨p, hp, -, hbefore, -⟩ := lowerBound_whole hvalued (increment * (i + 1) : Nat)
      refine ⟨p, ?_, ?_, fun k hk => Int.ofNat_lt.mp (hbefore k hk)⟩
      · rw [hcached.middle i (by omega), toInt_of_lt hfit, hp]
      · by_contra hgt
        have hlast := Int.ofNat_lt.mp (hbefore (chunkLength chunkSize data.length) (by omega))
        omega
  obtain ⟨first, hfirst, hfirstLe, hfirstBelow⟩ := hstart
  -- the end of the range: the end of the index, or the bound of the next target
  have hend : ∃ last, cache[cacheIndex + 1]? = some last ∧ first ≤ last ∧ 0 < last ∧
      last ≤ values.length := by
    by_cases hclip : cacheIndex < size
    · have hfit := htarget cacheIndex hclip hle
      obtain ⟨p, hp, hpLe, -, hbehind⟩ :=
        lowerBound_whole hvalued (increment * (cacheIndex + 1) : Nat)
      have hnext : increment * cacheIndex < increment * (cacheIndex + 1) :=
        Nat.mul_lt_mul_of_pos_left (Nat.lt_succ_self cacheIndex) hincrement
      refine ⟨p, ?_, ?_, ?_, by omega⟩
      · rw [hcached.middle cacheIndex hclip, toInt_of_lt hfit, hp]
      · by_contra hgt
        have hless := hfirstBelow p (by omega)
        have hge := Int.ofNat_le.mp (hbehind p (Nat.le_refl p) (by omega))
        omega
      · by_contra hzero
        have hge := Int.ofNat_le.mp (hbehind 0 (by omega) (Nat.zero_le _))
        rw [chunkRank_zero] at hge
        omega
    · refine ⟨values.length, ?_, by omega, by omega, Nat.le_refl _⟩
      rw [show cacheIndex = size by omega]
      exact hcached.last
  obtain ⟨last, hlast, hrange, hlastPos, hlastLe⟩ := hend
  obtain ⟨p, hp, hge, hpLe, hbefore, hbehind⟩ := lowerBound_spec hvalued.sorted hrange hlastLe n
  have hpositive : 0 < p := by
    by_contra hzero
    have hnone := hbehind 0 _ (by omega) hlastPos (hvalued.get 0 (Nat.zero_le _))
    rw [chunkRank_zero] at hnone
    omega
  refine ⟨first, last, p, hfirst, hlast, hp, hpositive, ?_, ?_⟩
  · by_contra hgt
    have hless := Int.ofNat_lt.mp (hbefore (chunkLength chunkSize data.length) _ hfirstLe (by omega)
      (hvalued.get _ (Nat.le_refl _)))
    omega
  · by_cases hsame : p = first
    · have hless := hfirstBelow (p - 1) (by omega)
      omega
    · exact Int.ofNat_lt.mp (hbefore (p - 1) _ (by omega) (by omega) (hvalued.get _ (by omega)))

/-! ## The word and the bit -/

/-- The search over the words stops at the word with the `n`-th bit. -/
theorem exists_findWord (b : Bool) (data : Bytes) : ∀ (fuel offset n : Nat), 0 < n →
    n ≤ ((bitsOf data).drop (8 * offset)).count b → (data.length - offset) % 4 = 0 →
    data.length ≤ offset + 4 * fuel →
    ∃ found, findWord b data fuel offset n = some found ∧ found.1 + 4 ≤ data.length ∧
      0 < found.2 ∧ found.2 ≤ (wordBits (loadWord data found.1)).count b ∧
        rank b (bitsOf data) (8 * found.1) + found.2 = rank b (bitsOf data) (8 * offset) + n := by
  intro fuel
  induction fuel with
  | zero =>
    intro offset n hpos hn _ hend
    rw [List.drop_of_length_le (by rw [length_bitsOf]; omega), List.count_nil] at hn
    omega
  | succ fuel ih =>
    intro offset n hpos hn hmod hend
    have hin := word_le hpos hn hmod
    rw [findWord, load, if_pos hin, Option.bind_some]
    split_ifs with hcount
    · rw [popcount_maskWord] at hcount
      exact ⟨(offset, n), rfl, hin, hpos, hcount, rfl⟩
    · have hrank : rank b (bitsOf data) (8 * (offset + 4))
          = rank b (bitsOf data) (8 * offset) + popcount (maskWord b (loadWord data offset)) := by
        rw [show 8 * (offset + 4) = 8 * offset + 32 from by omega, rank_add, popcount_maskWord,
          wordBits_loadWord hin]
        rfl
      have hdrop := @count_drop_word data b offset hin
      obtain ⟨found, hfound, h1, h2, h3, h4⟩ := ih (offset + 4)
        (n - popcount (maskWord b (loadWord data offset))) (by omega) (by omega) (by omega)
        (by omega)
      exact ⟨found, hfound, h1, h2, h3, by omega⟩

/-- The search in the words behind a chunk boundary finds the `n`-th bit. -/
theorem exists_found (b : Bool) {data : Bytes} (haligned : data.length % 4 = 0) {offset n : Nat}
    (hoffset : offset % 4 = 0) (hrank : rank b (bitsOf data) (8 * offset) < n)
    (hcount : n ≤ (bitsOf data).count b) :
    ∃ found word, findWord b data (data.length / 4) offset
        (n - rank b (bitsOf data) (8 * offset)) = some found ∧
      load data found.1 = some word ∧
        IsSelect b (bitsOf data) n (findBit 32 (maskWord b word) found.2 (found.1 * 8) - 1) := by
  have hsum : rank b (bitsOf data) (8 * offset) + ((bitsOf data).drop (8 * offset)).count b
      = (bitsOf data).count b := by
    rw [rank, ← List.count_append, List.take_append_drop]
  obtain ⟨found, hfound, h1, h2, h3, h4⟩ := exists_findWord b data (data.length / 4)
    offset (n - rank b (bitsOf data) (8 * offset)) (by omega) (by omega) (by omega) (by omega)
  refine ⟨found, loadWord data found.1, hfound, by rw [load, if_pos h1], ?_⟩
  obtain ⟨q, hq, hbit⟩ := findBit_spec 32 (maskWord b (loadWord data found.1)) found.2
    (found.1 * 8) h2 (by rw [← popcount_maskWord] at h3; exact h3)
  have hsel : IsSelect b (wordBits (loadWord data found.1)) found.2 q := by
    cases b with
    | true => exact hq
    | false =>
      have hq' : IsSelect true ((wordBits (loadWord data found.1)).map (!·)) found.2 q := by
        rw [← wordBits_not]
        exact hq
      exact isSelect_map_not hq'
  rw [wordBits_loadWord h1] at hsel
  rw [hbit, Nat.add_sub_cancel, Nat.mul_comm found.1 8]
  refine isSelect_of_drop (by omega) ?_
  rw [show n - rank b (bitsOf data) (8 * found.1) = found.2 from by omega]
  exact isSelect_of_take hsel

theorem bitsBefore_eq (b : Bool) {data : Bytes} {chunkSize : Nat} {index : List Nat}
    (hpos : 0 < chunkSize) (hindexed : Indexed data chunkSize index)
    (hfit : 8 * data.length < intLimit) (hk : k < chunkLength chunkSize data.length) :
    bitsBefore b chunkSize index k = some (rank b (bitsOf data) (8 * (k * chunkSize))) := by
  have hlt := chunk_lt hpos hk
  have hexact := chunkRank_of_lt b hpos hk
  have hplace : 8 * chunkSize * k = 8 * (k * chunkSize) := by
    rw [Nat.mul_assoc, Nat.mul_comm chunkSize k]
  rw [bitsBefore, hindexed.get k (by omega), Option.bind_some]
  rw [hplace] at hexact ⊢
  cases b with
  | true => rfl
  | false =>
    rw [chunkRank, if_neg Bool.false_ne_true, hplace] at hexact
    have hsmall : chunkSize * 8 * k < intLimit := by
      rw [Nat.mul_comm chunkSize 8, hplace, Nat.mul_comm k]
      omega
    rw [if_neg Bool.false_ne_true, if_pos hsmall, Nat.mul_comm chunkSize 8, hplace, hexact]

/-! ## The queries of an index -/

theorem exists_select (b : Bool) {s : SimpleSuccinctBitVectorIndex} {increment n : Nat}
    {cache : List Nat} (hdvd : 4 ∣ s.chunkSize) (hpos : 0 < s.chunkSize)
    (haligned : s.data.length % 4 = 0) (hfit : 8 * s.data.length < intLimit)
    (hindexed : Indexed s.data s.chunkSize s.index)
    (hvalues : valuesOf b s.chunkSize s.index = some values)
    (hvalued : Valued b s.data s.chunkSize values) (hcached : Cached values increment size cache)
    (hincrement : 0 < increment)
    (htarget : ∀ i < size, i ≤ n / increment → increment * (i + 1) < intLimit) (hn : 0 < n)
    (hcount : n ≤ (bitsOf s.data).count b) :
    ∃ p, SimpleSuccinctBitVectorIndex.select b s increment cache n = some p ∧
      IsSelect b (bitsOf s.data) n p := by
  obtain ⟨first, last, p, hfirst, hlast, hp, hppos, hple, hrank⟩ :=
    lowerBound_cached hpos hvalued hcached hincrement htarget hn hcount
  have hbefore := bitsBefore_eq b hpos hindexed hfit (show p - 1 < _ by omega)
  rw [chunkRank_of_lt b hpos (by omega), show 8 * s.chunkSize * (p - 1)
    = 8 * ((p - 1) * s.chunkSize) from by rw [Nat.mul_assoc, Nat.mul_comm s.chunkSize]] at hrank
  have hwhole : 4 ∣ (p - 1) * s.chunkSize := Dvd.dvd.mul_left hdvd _
  obtain ⟨found, word, hfound, hword, hselect⟩ :=
    exists_found b haligned (Nat.mod_eq_zero_of_dvd hwhole) hrank hcount
  refine ⟨_, ?_, hselect⟩
  rw [SimpleSuccinctBitVectorIndex.select, hfirst, Option.bind_some, hlast, Option.bind_some,
    hvalues, Option.bind_some, hp, Option.bind_some, if_neg (by omega), hbefore, Option.bind_some,
    Nat.div_mul_cancel hwhole, hfound, Option.bind_some, hword, Option.map_some]

/-- The numbers of an index fit: the bits of a chunk and of the image, the sentinel as a
    count of 0-bits, and the caches in their vectors. -/
structure Fits (data : Bytes) (chunkSize lb0CacheSize lb1CacheSize : Nat) : Prop where
  chunk : chunkSize * 8 < intLimit
  length : 8 * data.length < intLimit
  sentinel : sentinel data chunkSize < intLimit
  lb0Cache : lb0CacheSize + 2 < 2 ^ 60
  lb1Cache : lb1CacheSize + 2 < 2 ^ 60

theorem sentinel_add_count_le (data : Bytes) :
    sentinel data kChunkSize + (bitsOf data).count true ≤ 8 * data.length + 248 := by
  have hcover : data.length ≤ 32 * chunkLength 32 data.length := length_le_chunks (by decide)
  have hrank : rank true (bitsOf data) (8 * 32 * chunkLength 32 data.length)
      = (bitsOf data).count true := rank_of_length_le (by rw [length_bitsOf]; omega)
  have hcount : (bitsOf data).count true ≤ (bitsOf data).length := List.count_le_length
  have hdiv : chunkLength 32 data.length * 32 ≤ data.length + 32 - 1 := Nat.div_mul_le_self _ _
  rw [length_bitsOf] at hcount
  rw [sentinel, kChunkSize, chunkRank, if_neg Bool.false_ne_true, hrank]
  omega

/-- The numbers of an index with the chunk size of the constructor: the sentinel has less
    than a chunk behind the image. -/
theorem fits_of_count {data : Bytes} {lb0CacheSize lb1CacheSize : Nat}
    (hlength : 8 * data.length < intLimit)
    (hcount : 8 * data.length + 248 < intLimit + (bitsOf data).count true)
    (hlb0 : lb0CacheSize + 2 < 2 ^ 60) (hlb1 : lb1CacheSize + 2 < 2 ^ 60) :
    Fits data kChunkSize lb0CacheSize lb1CacheSize := by
  have hsentinel := sentinel_add_count_le data
  exact ⟨by decide, hlength, by omega, hlb0, hlb1⟩

/-- What a built index says of the sizes. -/
theorem sizes_of_init {chunkSize : Nat} {data : Bytes} {lb0CacheSize lb1CacheSize : Nat}
    {s : SimpleSuccinctBitVectorIndex}
    (h : init chunkSize data lb0CacheSize lb1CacheSize = some s) :
    8 * data.length < intLimit ∧ lb0CacheSize + 2 < 2 ^ 60 ∧ lb1CacheSize + 2 < 2 ^ 60 := by
  simp only [init, initLowerBoundCache, getNum0Bits, Option.bind_eq_some_iff,
    Option.map_eq_some_iff] at h
  obtain ⟨index, -, num0Bits, hnum, lb0Cache, hlb0, lb1Cache, hlb1, -⟩ := h
  split_ifs at hnum hlb0 hlb1 with hlength h0 h1
  exact ⟨hlength, h0, h1⟩

/-- The answers of an index: the numbers of bits, `Rank1` up to the end of the image, and
    `Select1` and `Select0` up to the numbers of bits. -/
structure Answers (data : Bytes) (s : SimpleSuccinctBitVectorIndex) : Prop where
  num1Bits : getNum1Bits s.index = (bitsOf data).count true
  num0Bits : getNum0Bits data.length s.index = some ((bitsOf data).count false)
  rank1 : ∀ n ≤ 8 * data.length, s.rank1 n = some (rank true (bitsOf data) n)
  select1 : ∀ k, 1 ≤ k → k ≤ (bitsOf data).count true →
    ∃ p, s.select1 k = some p ∧ IsSelect true (bitsOf data) k p
  select0 : ∀ k, 1 ≤ k → k ≤ (bitsOf data).count false →
    ∃ p, s.select0 k = some p ∧ IsSelect false (bitsOf data) k p

theorem get_eq (s : SimpleSuccinctBitVectorIndex) (n : Nat) : s.get n = (bitsOf s.data)[n]? :=
  (getElem?_bitsOf s.data n).symm

/-- An index with chunks of whole words, as long as the numbers fit. -/
theorem exists_answers {data : Bytes} {chunkSize lb0CacheSize lb1CacheSize : Nat}
    (hdvd : 4 ∣ chunkSize) (hpos : 0 < chunkSize) (haligned : data.length % 4 = 0)
    (hfits : Fits data chunkSize lb0CacheSize lb1CacheSize) :
    ∃ s, init chunkSize data lb0CacheSize lb1CacheSize = some s ∧ s.data = data ∧
      Answers data s := by
  obtain ⟨hchunk, hlength, hsentinel, hlb0, hlb1⟩ := hfits
  obtain ⟨index, hindex, hindexLength, hindexGet⟩ :=
    initIndex_spec hdvd hpos haligned hlength (by omega)
  have hindexed : Indexed data chunkSize index := ⟨hindexLength, hindexGet⟩
  have hones := getNum1Bits_eq hpos hindexed
  have hzeros := getNum0Bits_eq hpos hindexed hlength
  obtain ⟨values0, hvalues0, hvalued0⟩ := valuesOf_spec false hindexed hchunk hsentinel
  obtain ⟨values1, hvalues1, hvalued1⟩ := valuesOf_spec true hindexed hchunk hsentinel
  obtain ⟨cache0, hcache0, hcached0⟩ := initLowerBoundCache_spec hvalues0 hvalued0
    (hindexLength.trans hvalued0.length.symm)
    (cacheIncrement ((bitsOf data).count false) lb0CacheSize) hlb0
  obtain ⟨cache1, hcache1, hcached1⟩ := initLowerBoundCache_spec hvalues1 hvalued1
    (hindexLength.trans hvalued1.length.symm)
    (cacheIncrement ((bitsOf data).count true) lb1CacheSize) hlb1
  have hbits : ∀ b, (bitsOf data).count b + 1 < intLimit := by
    intro b
    have hle : (bitsOf data).count b ≤ (bitsOf data).length := List.count_le_length
    rw [length_bitsOf] at hle
    rw [intLimit] at hlength ⊢
    omega
  refine ⟨⟨data, chunkSize, index, cacheIncrement ((bitsOf data).count false) lb0CacheSize, cache0,
    cacheIncrement ((bitsOf data).count true) lb1CacheSize, cache1⟩, ?_, rfl, hones, hzeros,
    ?_, ?_, ?_⟩
  · rw [init, hindex, Option.bind_some, hzeros, Option.bind_some, hones]
    dsimp only
    rw [hcache0, Option.bind_some, hcache1, Option.map_some]
  · intro n hn
    exact rank1_eq hdvd hpos haligned hindexed rfl rfl rfl hchunk hn
  · intro k hk hcount
    exact exists_select true hdvd hpos haligned hlength hindexed hvalues1 hvalued1 hcached1
      (cacheIncrement_pos _ _)
      (fun i hi hle => target_lt hcount (hbits true) hi hle) hk hcount
  · intro k hk hcount
    exact exists_select false hdvd hpos haligned hlength hindexed hvalues0 hvalued0 hcached0
      (cacheIncrement_pos _ _)
      (fun i hi hle => target_lt hcount (hbits false) hi hle) hk hcount

/-- **THE INDEX**: as long as the numbers fit, it is built for every chunk size that is a
    power of two, and `Rank1`, `Select1` and `Select0` are what they are for the bits of the
    image. -/
theorem succinct_index (data : Bytes) (chunkSize lb0CacheSize lb1CacheSize : Nat)
    (haligned : data.length % 4 = 0) (hpower : ∃ e, chunkSize = 2 ^ e) (hfour : 4 ≤ chunkSize)
    (hfits : Fits data chunkSize lb0CacheSize lb1CacheSize) :
    ∃ s, init chunkSize data lb0CacheSize lb1CacheSize = some s ∧ Answers data s := by
  have hdvd : 4 ∣ chunkSize := by
    obtain ⟨e, rfl⟩ := hpower
    have htwo : 2 ≤ e := by
      by_contra hlt
      have hle := Nat.pow_le_pow_right (show 0 < 2 by decide) (show e ≤ 1 by omega)
      omega
    exact pow_dvd_pow 2 htwo
  obtain ⟨s, hinit, -, hanswers⟩ := exists_answers hdvd (by omega) haligned hfits
  exact ⟨s, hinit, hanswers⟩

/-- An index of eight bytes with chunks of four, and caches larger than the image. -/
theorem succinct_index_eight :
    ∃ s, init 4 [1, 0, 0, 128, 255, 0, 0, 0] 100 100 = some s ∧
      Answers [1, 0, 0, 128, 255, 0, 0, 0] s :=
  succinct_index [1, 0, 0, 128, 255, 0, 0, 0] 4 100 100 (by decide) ⟨2, rfl⟩ (by decide)
    ⟨by decide, by decide, by decide, by decide, by decide⟩

/-! ## Numbers that do not fit -/

theorem lowerBound_eq_none {first last i j : Nat} {value x y : Int} (hfirst : first ≤ i)
    (hij : i < j) (hlast : j < last) (hi : values[i]? = some x) (hx : value ≤ x)
    (hj : values[j]? = some y) (hy : y < value) :
    lowerBound values first last value = none := by
  rw [lowerBound, if_neg]
  rintro ⟨-, hall⟩
  have hget : ∀ k, first ≤ k → k < last →
      ((values.take last).drop first)[k - first]? = values[k]? := by
    intro k hk hlt
    rw [List.getElem?_drop, Nat.add_sub_cancel' hk, List.getElem?_take_of_lt hlt]
  have hgeti := hget i hfirst (by omega)
  have hgetj := hget j (by omega) hlast
  rw [hi] at hgeti
  rw [hj] at hgetj
  generalize (values.take last).drop first = range at hall hgeti hgetj
  have hsplit := @List.takeWhile_append_dropWhile _ (fun x : Int => decide (x < value)) range
  -- the value that is not less is behind the front part, and so is the one behind it
  have hfront : (range.takeWhile (fun x : Int => decide (x < value))).length ≤ i - first := by
    by_contra hlt
    have hleft : (range.takeWhile (fun x : Int => decide (x < value)) ++
        range.dropWhile (fun x : Int => decide (x < value)))[i - first]?
          = (range.takeWhile (fun x : Int => decide (x < value)))[i - first]? :=
      List.getElem?_append_left (by omega)
    rw [hsplit, hgeti] at hleft
    have hless := List.mem_takeWhile_imp (List.mem_of_getElem? hleft.symm)
    have hlt := of_decide_eq_true hless
    omega
  have hright : (range.takeWhile (fun x : Int => decide (x < value)) ++
      range.dropWhile (fun x : Int => decide (x < value)))[j - first]?
        = (range.dropWhile (fun x : Int => decide (x < value)))[j - first
          - (range.takeWhile (fun x : Int => decide (x < value))).length]? :=
    List.getElem?_append_right (by omega)
  rw [hsplit, hgetj] at hright
  have hge := List.all_eq_true.mp hall y (List.mem_of_getElem? hright.symm)
  have hge := of_decide_eq_true hge
  omega

theorem toInt_of_ge {n : Nat} (hge : intLimit ≤ n) (hlt : n < 2 * intLimit) :
    toInt n = (n : Int) - 2 * intLimit := by
  rw [intLimit] at hge hlt ⊢
  rw [toInt, Int.bmod_def]
  split_ifs with hcase
  · omega
  · omega

theorem count_bitsOf_zero (n : Nat) : (bitsOf (List.replicate n 0)).count true = 0 := by
  rw [List.count_eq_zero]
  intro hmem
  obtain ⟨c, hc, hbit⟩ := List.mem_flatMap.mp hmem
  rw [List.eq_of_mem_replicate hc] at hbit
  revert hbit
  decide

/-- The values of an index whose sentinel does not fit: the last one is negative. -/
theorem valuesOf_overflow {data : Bytes} {chunkSize : Nat} {index : List Nat}
    (hpos : 0 < chunkSize) (hindexed : Indexed data chunkSize index)
    (hchunk : chunkSize * 8 < intLimit) (hfit : 8 * data.length < intLimit)
    (hsentinel : intLimit ≤ sentinel data chunkSize) :
    ∃ values, valuesOf false chunkSize index = some values ∧
      values.length = chunkLength chunkSize data.length + 1 ∧
        (∀ k < chunkLength chunkSize data.length,
          values[k]? = some (chunkRank false data chunkSize k : Int)) ∧
          ∃ y : Int, values[chunkLength chunkSize data.length]? = some y ∧ y < 0 := by
  have hget : ∀ k ≤ chunkLength chunkSize data.length,
      (index.mapIdx (fun i (ones : Nat) => toInt ((chunkSize * 8 * i : Nat) - ones)))[k]?
        = some (toInt (chunkRank false data chunkSize k)) := by
    intro k hk
    have hrank := rank_le true (bitsOf data) (8 * chunkSize * k)
    have hcast : ((8 * chunkSize * k : Nat) : Int) - rank true (bitsOf data) (8 * chunkSize * k)
        = (chunkRank false data chunkSize k : Nat) := by
      rw [chunkRank, if_neg Bool.false_ne_true, Int.ofNat_sub hrank]
    rw [List.getElem?_mapIdx, hindexed.get k hk, Option.map_some, Nat.mul_comm chunkSize 8, hcast]
  -- a count of 0-bits is not more than the bits before its chunk
  have hle : ∀ k, chunkRank false data chunkSize k ≤ 8 * (chunkSize * k) := by
    intro k
    rw [chunkRank, if_neg Bool.false_ne_true, Nat.mul_assoc]
    exact Nat.sub_le _ _
  refine ⟨_, by rw [valuesOf, if_neg Bool.false_ne_true, if_pos hchunk], ?_, ?_, ?_⟩
  · rw [List.length_mapIdx, hindexed.length]
  · intro k hk
    have hlt := chunk_lt hpos hk
    have hbound := hle k
    rw [hget k (by omega), toInt_of_lt (by omega)]
  · refine ⟨_, hget _ (Nat.le_refl _), ?_⟩
    have hlast : chunkSize * chunkLength chunkSize data.length < data.length + chunkSize := by
      have hdiv := Nat.div_mul_le_self (data.length + chunkSize - 1) chunkSize
      rw [Nat.mul_comm, chunkLength]
      omega
    have hbound := hle (chunkLength chunkSize data.length)
    rw [sentinel] at hsentinel
    rw [toInt_of_ge hsentinel (by omega)]
    omega

theorem initLowerBoundCache_zero (b : Bool) (chunkSize : Nat) (index : List Nat)
    (increment : Nat) :
    initLowerBoundCache b chunkSize index increment 0 = some [0, index.length] := rfl

theorem exists_select0_eq_none :
    ∃ s, init 32 (List.replicate 268435452 0) 0 0 = some s ∧ s.select0 1 = none := by
  have hlength : (List.replicate 268435452 (0 : UInt8)).length = 268435452 :=
    List.length_replicate
  have hzero := count_bitsOf_zero 268435452
  generalize List.replicate 268435452 (0 : UInt8) = data at hlength hzero
  have hfit : 8 * data.length < intLimit := by
    rw [hlength]
    decide
  obtain ⟨index, hindex, hindexLength, hindexGet⟩ := initIndex_spec (show 4 ∣ 32 by decide)
    (show 0 < 32 by decide) (show data.length % 4 = 0 by rw [hlength]) hfit
    (show data.length + 32 < intLimit by rw [hlength]; decide)
  have hindexed : Indexed data 32 index := ⟨hindexLength, hindexGet⟩
  have hchunks : chunkLength 32 data.length = 8388608 := by rw [hlength, chunkLength]
  have hrank : ∀ n, rank true (bitsOf data) n = 0 := by
    intro n
    have hle : rank true (bitsOf data) n ≤ (bitsOf data).count true := rank_le_count n
    omega
  obtain ⟨values, hvalues, hvaluesLength, hget, y, hlast, hy⟩ := valuesOf_overflow
    (show 0 < 32 by decide) hindexed (show 32 * 8 < intLimit by decide) hfit
    (show intLimit ≤ sentinel data 32 by
      rw [sentinel, hchunks, chunkRank, if_neg Bool.false_ne_true, hrank])
  rw [hchunks] at hvaluesLength hget hlast hindexLength
  have hone := hget 1 (by decide)
  rw [chunkRank, if_neg Bool.false_ne_true, hrank] at hone
  refine ⟨⟨data, 32, index, cacheIncrement ((bitsOf data).count false) 0, [0, index.length],
    cacheIncrement (getNum1Bits index) 0, [0, index.length]⟩, ?_, ?_⟩
  · rw [init, hindex, Option.bind_some,
      getNum0Bits_eq (show 0 < 32 by decide) hindexed hfit, Option.bind_some]
    dsimp only
    rw [initLowerBoundCache_zero, Option.bind_some, initLowerBoundCache_zero, Option.map_some]
  · have hnone : lowerBound values 0 index.length (1 : Nat) = none :=
      lowerBound_eq_none (Nat.zero_le 1) (show 1 < 8388608 by decide) (by omega) hone (by decide)
        hlast (by omega)
    have hcache : min (1 / cacheIncrement ((bitsOf data).count false) 0)
        ([0, index.length].length - 2) = 0 := Nat.min_zero _
    rw [SimpleSuccinctBitVectorIndex.select0, SimpleSuccinctBitVectorIndex.select]
    dsimp only
    rw [hcache, List.getElem?_cons_zero, Option.bind_some, List.getElem?_cons_succ,
      List.getElem?_cons_zero, Option.bind_some, hvalues, Option.bind_some, hnone, Option.bind_none]

/-- A chunk size of 2^28 overflows in `Rank1`, and 2^28 bytes have more bits than an `int`
    counts; the sentinel of nearly as many zero bytes is negative, and a vector does not hold
    2^60 pointers. -/
theorem succinct_index_overflow :
    (∃ s, init 268435456 [] 0 0 = some s ∧ s.rank1 0 = none) ∧
      (∀ chunkSize s0 s1, init chunkSize (List.replicate 268435456 0) s0 s1 = none) ∧
        (∃ s, init 32 (List.replicate 268435452 0) 0 0 = some s ∧ s.select0 1 = none) ∧
          ∀ data chunkSize s1, init chunkSize data (2 ^ 60) s1 = none := by
  refine ⟨⟨_, rfl, rfl⟩, ?_, ?_, ?_⟩
  · intro chunkSize s0 s1
    have hnone : ∀ index, getNum0Bits (List.replicate 268435456 (0 : UInt8)).length index
        = none := by
      intro index
      rw [getNum0Bits, List.length_replicate, if_neg (by decide)]
    rw [init]
    cases initIndex (List.replicate 268435456 0) chunkSize with
    | none => rfl
    | some index => rw [Option.bind_some, hnone, Option.bind_none]
  · exact exists_select0_eq_none
  · intro data chunkSize s1
    rw [init]
    cases initIndex data chunkSize with
    | none => rfl
    | some index =>
      rw [Option.bind_some]
      cases getNum0Bits data.length index with
      | none => rfl
      | some num0Bits =>
        rw [Option.bind_some]
        dsimp only
        rw [initLowerBoundCache, if_neg (by decide), Option.bind_none]

end MozkeySuccinct
