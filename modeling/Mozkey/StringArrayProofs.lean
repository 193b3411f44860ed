import Mozkey.LittleEndianProofs

/-! # SerializedStringArray — an array of strings as one image

    The image is the number of strings, an offset and a length for each of them, and the strings,
    each with a NUL behind it.  `VerifyData` computes the size of the header in 32 bits, and
    allows a string to end where the image ends, so that the NUL is looked for behind it. -/

namespace MozkeyStringArray

open ByteString LittleEndian

/-! ## The source -/

/-- The bytes that can be read, by their distance from the start of the image. -/
abbrev Memory := Nat → Option UInt8

/-- A block of memory; its size is less than 2^63. -/
structure Image where
  bytes : Bytes
  length_lt : bytes.length < 2 ^ 63

/-- `size`. -/
def Image.length (image : Image) : Nat := image.bytes.length

theorem Image.size_lt (image : Image) : image.length < 2 ^ 63 := image.length_lt

/-- An image with what lies behind it. -/
def Image.memory (image : Image) (behind : Memory) : Memory := fun i =>
  if i < image.length then image.bytes[i]? else behind (i - image.length)

/-- Nothing but the image can be read. -/
def Image.alone (image : Image) : Memory := image.memory fun _ => none

/-- The `uint32_t` at an index of the memory. -/
def loadU32 (memory : Memory) (index : Nat) : Option Nat := do
  let a ← memory (4 * index)
  let b ← memory (4 * index + 1)
  let c ← memory (4 * index + 2)
  let d ← memory (4 * index + 3)
  some (loadLE [a, b, c, d])

/-- The `int32_t` with the bits of a number. -/
def toInt32 (n : Int) : Int := n.bmod (2 ^ 32)

/-- An `int32_t` as `size_t`. -/
def toSizeT (n : Int) : Int := n % 2 ^ 64

/-- The loop of `VerifyData` over the strings from `i` on; `none` where a byte cannot be read, or
    an `int32_t` overflows. -/
def verifyLoop (memory : Memory) (dataSize : Nat) : Nat → Nat → Int → Option Bool
  | 0, _, _ => some true
  | count + 1, i, prevStrEnd =>
    if 2 ^ 31 ≤ 2 * i + 2 then none
    else do
      let offset := toInt32 (← loadU32 memory (2 * i + 1))
      let len := toInt32 (← loadU32 memory (2 * i + 2))
      if offset < prevStrEnd then some false
      else if (dataSize : Int) ≤ toSizeT len ∨ dataSize - toSizeT len < toSizeT offset then
        some false
      else if 2 ^ 31 ≤ offset + len then none
      else
        let c ← memory (offset + len).toNat
        if c ≠ 0 then some false
        else if 2 ^ 31 ≤ offset + len + 1 then none
        else verifyLoop memory dataSize count (i + 1) (offset + len + 1)

/-- `VerifyData`; `none` for a read out of range. -/
def verifyData (memory : Memory) (dataSize : Nat) : Option Bool :=
  if dataSize < 4 then some false
  else do
    let size ← loadU32 memory 0
    let minRequiredDataSize := (4 + 8 * size) % 2 ^ 32
    if dataSize < minRequiredDataSize then some false
    else verifyLoop memory dataSize size 0 (toInt32 minRequiredDataSize)

/-- The offset of a string. -/
def offsetAt (image : Image) (index : Nat) : Option Nat := loadU32 image.alone (index * 2 + 1)

/-- The length of a string. -/
def lengthAt (image : Image) (index : Nat) : Option Nat := loadU32 image.alone (index * 2 + 2)

/-- `size`, of the array. -/
def arraySize (image : Image) : Option Nat := loadU32 image.alone 0

/-- `DataAt`: the bytes of the view, if they are in the image. -/
def dataAt (image : Image) (index : Nat) : Option Bytes := do
  let offset ← offsetAt image index
  let length ← lengthAt image index
  if offset + length ≤ image.length then some ((image.bytes.drop offset).take length) else none

/-- Bytes are copied into a buffer, if there is room for them. -/
def copyTo (pos : Nat) (bytes buffer : Bytes) : Option Bytes :=
  if pos + bytes.length ≤ buffer.length then
    some (buffer.take pos ++ bytes ++ buffer.drop (pos + bytes.length))
  else none

/-- The first loop of `SerializeToBuffer`: the offsets, and the offset behind the last string. -/
def offsetsLoop : List Bytes → Int → List Nat × Int
  | [], currentOffset => ([], currentOffset)
  | str :: strs, currentOffset =>
    let rest := offsetsLoop strs (toInt32 (currentOffset + (str.length + 1)))
    ((currentOffset % 2 ^ 32).toNat :: rest.1, rest.2)

/-- The second loop of `SerializeToBuffer`, from string `i` on. -/
def fillLoop : Nat → List Bytes → List Nat → Bytes → Option Bytes
  | i, str :: strs, offset :: offsets, buffer => do
    let buffer ← copyTo (4 * (2 * i + 1)) (storeLE 4 offset) buffer
    let buffer ← copyTo (4 * (2 * i + 2)) (storeLE 4 str.length) buffer
    let buffer ← copyTo offset (str ++ [0]) buffer
    fillLoop (i + 1) strs offsets buffer
  | _, _, _, buffer => some buffer

/-- `SerializeToBuffer`; `none` where an `int32_t` overflows, or memory is given out or written
    that is not there. -/
def serializeToBuffer (strs : List Bytes) : Option Bytes := do
  let headerByteSize : Nat := 4 * (1 + 2 * strs.length) % 2 ^ 32
  let (offsets, currentOffset) := offsetsLoop strs (toInt32 headerByteSize)
  if currentOffset < 0 ∨ 2 ^ 31 ≤ currentOffset + 3 then none
  else
    let buffer := List.replicate (4 * ((currentOffset.toNat + 3) / 4)) 0
    let buffer ← copyTo 0 (storeLE 4 strs.length) buffer
    let buffer ← fillLoop 0 strs offsets buffer
    some (buffer.take currentOffset.toNat)

/-! ## What the loop asks -/

/-- A string lies between what is before it and the end of the image, with a NUL behind it. -/
structure StringAt (memory : Memory) (dataSize i : Nat) (prevStrEnd : Int) (offset len : Nat) :
    Prop where
  index : 2 * i + 2 < 2 ^ 31
  loadOffset : loadU32 memory (2 * i + 1) = some offset
  loadLen : loadU32 memory (2 * i + 2) = some len
  behind : prevStrEnd ≤ offset
  within : offset + len ≤ dataSize
  lt : offset + len + 1 < 2 ^ 31
  short : len < dataSize
  nul : memory (offset + len) = some 0

theorem loadLE_lt (bytes : Bytes) : loadLE bytes < 256 ^ bytes.length := by
  induction bytes with
  | nil => exact Nat.one_pos
  | cons c bytes ih =>
    have hc : c.toNat < 256 := c.toNat_lt
    rw [loadLE, List.length_cons, Nat.pow_succ]
    omega

theorem loadU32_eq_some {memory : Memory} {index n : Nat} :
    loadU32 memory index = some n ↔ ∃ a b c d, memory (4 * index) = some a ∧
      memory (4 * index + 1) = some b ∧ memory (4 * index + 2) = some c ∧
      memory (4 * index + 3) = some d ∧ loadLE [a, b, c, d] = n := by
  simp only [loadU32, bind, Option.bind_eq_some_iff, Option.some.injEq]
  constructor
  · rintro ⟨a, ha, b, hb, c, hc, d, hd, h⟩
    exact ⟨a, b, c, d, ha, hb, hc, hd, h⟩
  · rintro ⟨a, b, c, d, ha, hb, hc, hd, h⟩
    exact ⟨a, ha, b, hb, c, hc, d, hd, h⟩

theorem loadU32_lt {memory : Memory} {index n : Nat} (h : loadU32 memory index = some n) :
    n < 2 ^ 32 := by
  obtain ⟨a, b, c, d, -, -, -, -, rfl⟩ := loadU32_eq_some.mp h
  have hlt : loadLE [a, b, c, d] < 256 ^ 4 := loadLE_lt [a, b, c, d]
  omega

theorem toInt32_of_lt {n : Nat} (h : n < 2 ^ 31) : toInt32 n = n := by
  rw [toInt32, Int.bmod_eq_of_le] <;> omega

theorem toInt32_of_ge {n : Nat} (hge : 2 ^ 31 ≤ n) (hlt : n < 2 ^ 32) :
    toInt32 n = (n : Int) - 2 ^ 32 := by
  rw [toInt32, Int.bmod_def]
  omega

variable {memory : Memory} {dataSize : Nat}

/-- An `int32_t` is not negative if it is no larger than a size. -/
theorem toSizeT_toInt32_cases {n : Nat} (hlt : n < 2 ^ 32) :
    (n < 2 ^ 31 ∧ toInt32 n = n ∧ toSizeT (toInt32 n) = n) ∨ 2 ^ 63 ≤ toSizeT (toInt32 n) := by
  rw [toSizeT]
  by_cases h : n < 2 ^ 31
  · rw [toInt32_of_lt h]
    exact Or.inl ⟨h, rfl, by omega⟩
  · rw [toInt32_of_ge (by omega) hlt]
    exact Or.inr (by omega)

/-- **A ROUND** of the loop. -/
theorem verifyLoop_succ_iff (hsize : dataSize < 2 ^ 63) {count i : Nat} {prevStrEnd : Int} :
    verifyLoop memory dataSize (count + 1) i prevStrEnd = some true ↔
      ∃ offset len, StringAt memory dataSize i prevStrEnd offset len ∧
        verifyLoop memory dataSize count (i + 1) (offset + len + 1) = some true := by
  rw [verifyLoop]
  constructor
  · intro h
    split_ifs at h with hindex
    obtain ⟨offset, hoffset, h⟩ := Option.bind_eq_some_iff.mp h
    obtain ⟨len, hlen, h⟩ := Option.bind_eq_some_iff.mp h
    dsimp only at h
    by_cases hbehind : toInt32 offset < prevStrEnd
    · rw [if_pos hbehind] at h
      exact nomatch h
    rw [if_neg hbehind] at h
    by_cases hwithin : (dataSize : Int) ≤ toSizeT (toInt32 len) ∨
        dataSize - toSizeT (toInt32 len) < toSizeT (toInt32 offset)
    · rw [if_pos hwithin] at h
      exact nomatch h
    rw [if_neg hwithin] at h
    rw [not_or] at hwithin
    -- a negative number is larger than any size
    obtain ⟨hlenLt, hlenEq, hlenSize⟩ | hge := toSizeT_toInt32_cases (loadU32_lt hlen)
    swap
    · omega
    obtain ⟨hoffsetLt, hoffsetEq, hoffsetSize⟩ | hge := toSizeT_toInt32_cases (loadU32_lt hoffset)
    swap
    · omega
    rw [hoffsetSize, hlenSize] at hwithin
    rw [hoffsetEq] at hbehind
    rw [hoffsetEq, hlenEq] at h
    by_cases hlt : (2 ^ 31 : Int) ≤ offset + len
    · rw [if_pos hlt] at h
      exact nomatch h
    rw [if_neg hlt] at h
    obtain ⟨c, hc, h⟩ := Option.bind_eq_some_iff.mp h
    by_cases hnul : c ≠ 0
    · rw [if_pos hnul] at h
      exact nomatch h
    rw [if_neg hnul] at h
    by_cases hnext : (2 ^ 31 : Int) ≤ offset + len + 1
    · rw [if_pos hnext] at h
      exact nomatch h
    rw [if_neg hnext] at h
    rw [not_not] at hnul
    exact ⟨offset, len, ⟨by omega, hoffset, hlen, by omega, by omega, by omega, by omega,
      hnul ▸ hc⟩, h⟩
  · rintro ⟨offset, len, hstring, h⟩
    have hlt := hstring.lt
    have hbehind := hstring.behind
    have hwithin := hstring.within
    have hshort := hstring.short
    have hoffset : toInt32 offset = offset := toInt32_of_lt (by omega)
    have hlen : toInt32 len = len := toInt32_of_lt (by omega)
    have hoffsetSize : toSizeT offset = offset := by rw [toSizeT]; omega
    have hlenSize : toSizeT len = len := by rw [toSizeT]; omega
    have hnul : memory ((offset : Int) + len).toNat = some 0 := hstring.nul
    rw [if_neg (by have := hstring.index; omega), hstring.loadOffset, hstring.loadLen]
    simp only [bind, Option.bind_some, hoffset, hlen, hoffsetSize, hlenSize, hnul]
    rw [if_neg (by omega), if_neg (by omega), if_neg (by omega), if_neg (by simp),
      if_neg (by omega)]
    exact h

theorem verifyLoop_split (hsize : dataSize < 2 ^ 63) {count : Nat} :
    ∀ {i : Nat} {prevStrEnd : Int}, verifyLoop memory dataSize count i prevStrEnd = some true →
      ∀ k < count, ∃ p offset len, StringAt memory dataSize (i + k) p offset len ∧
        prevStrEnd ≤ p ∧
        verifyLoop memory dataSize (count - (k + 1)) (i + k + 1) (offset + len + 1) =
          some true := by
  induction count with
  | zero => exact fun _ k hk => absurd hk (Nat.not_lt_zero k)
  | succ count ih =>
    intro i prevStrEnd h k hk
    obtain ⟨offset, len, hstring, hrest⟩ := (verifyLoop_succ_iff hsize).mp h
    cases k with
    | zero => exact ⟨prevStrEnd, offset, len, hstring, le_rfl, hrest⟩
    | succ k =>
      obtain ⟨p, offset', len', hstring', hp, hrest'⟩ := ih hrest k (by omega)
      have hbehind := hstring.behind
      refine ⟨p, offset', len', ?_, by omega, ?_⟩
      · rwa [show i + (k + 1) = i + 1 + k by omega]
      · rwa [Nat.add_sub_add_right, show i + (k + 1) + 1 = i + 1 + k + 1 by omega]

theorem verifyData_eq_true :
    verifyData memory dataSize = some true ↔ 4 ≤ dataSize ∧ ∃ size, loadU32 memory 0 = some size ∧
      (4 + 8 * size) % 2 ^ 32 ≤ dataSize ∧
        verifyLoop memory dataSize size 0 (toInt32 ((4 + 8 * size) % 2 ^ 32 : Nat)) =
          some true := by
  rw [verifyData]
  constructor
  · intro h
    by_cases hfour : dataSize < 4
    · rw [if_pos hfour] at h
      exact nomatch h
    rw [if_neg hfour] at h
    obtain ⟨size, hload, h⟩ := Option.bind_eq_some_iff.mp h
    dsimp only at h
    by_cases hlack : dataSize < (4 + 8 * size) % 2 ^ 32
    · rw [if_pos hlack] at h
      exact nomatch h
    rw [if_neg hlack] at h
    exact ⟨by omega, size, hload, by omega, h⟩
  · rintro ⟨hfour, size, hload, hlack, h⟩
    rw [if_neg (by omega), hload]
    simp only [bind, Option.bind_some]
    rw [if_neg (by omega)]
    exact h

/-! ## Accepted images -/

/-- An accepted image can be used. -/
structure Safe (image : Image) : Prop where
  /-- `VerifyData` reads no byte behind the image. -/
  reads : verifyData image.alone image.length = some true
  /-- A string, and the NUL behind it, is in the image. -/
  within : ∀ size, arraySize image = some size → ∀ i < size, ∃ offset len str,
    offsetAt image i = some offset ∧ lengthAt image i = some len ∧ dataAt image i = some str ∧
      offset + len < image.length ∧ image.bytes[offset + len]? = some 0
  /-- It ends before the next one starts. -/
  ordered : ∀ size, arraySize image = some size → ∀ i j, i < j → j < size →
    ∀ offset len offset', offsetAt image i = some offset → lengthAt image i = some len →
      offsetAt image j = some offset' → offset + len < offset'

/-- The header fits the image, and no string ends where the image ends. -/
structure Fits (image : Image) : Prop where
  header : ∀ size, arraySize image = some size → 4 + 8 * size ≤ image.length
  ends : ∀ size, arraySize image = some size → ∀ i < size, ∀ offset len,
    offsetAt image i = some offset → lengthAt image i = some len → offset + len ≠ image.length

variable {image : Image} {behind : Memory}

theorem memory_of_lt {i : Nat} (h : i < image.length) :
    image.memory behind i = image.bytes[i]? :=
  if_pos h

theorem alone_eq_some {i : Nat} {c : UInt8} :
    image.alone i = some c ↔ i < image.length ∧ image.bytes[i]? = some c := by
  rw [Image.alone, Image.memory]
  split_ifs with h
  · simp [h]
  · simp [h]

theorem loadU32_alone (behind : Memory) {index : Nat} (h : 4 * index + 4 ≤ image.length) :
    loadU32 image.alone index = loadU32 (image.memory behind) index := by
  rw [loadU32, loadU32, Image.alone]
  rw [memory_of_lt (show 4 * index < _ by omega), memory_of_lt (show 4 * index + 1 < _ by omega),
    memory_of_lt (show 4 * index + 2 < _ by omega), memory_of_lt (show 4 * index + 3 < _ by omega),
    memory_of_lt (show 4 * index < _ by omega), memory_of_lt (show 4 * index + 1 < _ by omega),
    memory_of_lt (show 4 * index + 2 < _ by omega), memory_of_lt (show 4 * index + 3 < _ by omega)]

theorem le_length_of_loadU32 {index n : Nat} (h : loadU32 image.alone index = some n) :
    4 * index + 4 ≤ image.length := by
  obtain ⟨a, b, c, d, -, -, -, hd, -⟩ := loadU32_eq_some.mp h
  have := (alone_eq_some.mp hd).1
  omega

theorem offsetAt_eq (image : Image) (i : Nat) :
    offsetAt image i = loadU32 image.alone (2 * i + 1) := by
  rw [offsetAt, Nat.mul_comm]

theorem lengthAt_eq (image : Image) (i : Nat) :
    lengthAt image i = loadU32 image.alone (2 * i + 2) := by
  rw [lengthAt, Nat.mul_comm]

theorem verifyLoop_alone {count : Nat} :
    ∀ {i : Nat} {prevStrEnd : Int}, (∀ k < count, 4 * (2 * (i + k) + 2) + 4 ≤ image.length) →
      (∀ k < count, ∀ offset len, offsetAt image (i + k) = some offset →
        lengthAt image (i + k) = some len → offset + len ≠ image.length) →
      verifyLoop (image.memory behind) image.length count i prevStrEnd = some true →
      verifyLoop image.alone image.length count i prevStrEnd = some true := by
  induction count with
  | zero => exact fun _ _ _ => rfl
  | succ count ih =>
    intro i prevStrEnd hheader hends h
    obtain ⟨offset, len, hstring, hrest⟩ := (verifyLoop_succ_iff image.size_lt).mp h
    have hfirst := hheader 0 (Nat.succ_pos count)
    have hoffset : loadU32 image.alone (2 * i + 1) = some offset :=
      (loadU32_alone behind (by omega)).trans hstring.loadOffset
    have hlen : loadU32 image.alone (2 * i + 2) = some len :=
      (loadU32_alone behind (by omega)).trans hstring.loadLen
    have hne := hends 0 (Nat.succ_pos count) offset len ((offsetAt_eq image i).trans hoffset)
      ((lengthAt_eq image i).trans hlen)
    have hwithin := hstring.within
    have hnul := hstring.nul
    rw [memory_of_lt (by omega)] at hnul
    refine (verifyLoop_succ_iff image.size_lt).mpr ⟨offset, len, ?_, ih ?_ ?_ hrest⟩
    · exact { hstring with
        loadOffset := hoffset
        loadLen := hlen
        nul := alone_eq_some.mpr ⟨by omega, hnul⟩ }
    · intro k hk
      have := hheader (k + 1) (by omega)
      omega
    · intro k hk
      have := hends (k + 1) (by omega)
      rwa [show i + (k + 1) = i + 1 + k by omega] at this

theorem safe_of_alone (h : verifyData image.alone image.length = some true) : Safe image := by
  obtain ⟨-, size, hsize, -, hloop⟩ := verifyData_eq_true.mp h
  have hsizes : ∀ size', arraySize image = some size' → size' = size :=
    fun size' hsize' => Option.some.inj (hsize'.symm.trans hsize)
  refine ⟨h, ?_, ?_⟩
  · intro size' hsize' i hi
    obtain rfl := hsizes size' hsize'
    obtain ⟨p, offset, len, hstring, -, -⟩ := verifyLoop_split image.size_lt hloop i hi
    rw [Nat.zero_add] at hstring
    have hoffset := (offsetAt_eq image i).trans hstring.loadOffset
    have hlen := (lengthAt_eq image i).trans hstring.loadLen
    obtain ⟨hlt, hnul⟩ := alone_eq_some.mp hstring.nul
    refine ⟨offset, len, (image.bytes.drop offset).take len, hoffset, hlen, ?_, hlt, hnul⟩
    rw [dataAt, hoffset, hlen]
    exact if_pos (by omega)
  · intro size' hsize' i j hij hj offset len offset' hoffset hlen hoffset'
    obtain rfl := hsizes size' hsize'
    obtain ⟨p, o, l, hstring, -, hrest⟩ := verifyLoop_split image.size_lt hloop i (by omega)
    obtain ⟨p', o', l', hstring', hp, -⟩ :=
      verifyLoop_split image.size_lt hrest (j - (i + 1)) (by omega)
    rw [Nat.zero_add] at hstring hstring'
    rw [show i + 1 + (j - (i + 1)) = j by omega] at hstring'
    rw [offsetAt_eq] at hoffset hoffset'
    rw [lengthAt_eq] at hlen
    have ho := Option.some.inj (hstring.loadOffset.symm.trans hoffset)
    have hl := Option.some.inj (hstring.loadLen.symm.trans hlen)
    have ho' := Option.some.inj (hstring'.loadOffset.symm.trans hoffset')
    have hbehind := hstring'.behind
    omega

/-- **AN ACCEPTED IMAGE** is safe if its header fits and no string ends where it ends. -/
theorem safe_iff (h : verifyData (image.memory behind) image.length = some true) :
    Safe image ↔ Fits image := by
  constructor
  · intro hsafe
    refine ⟨fun size hsize => ?_, fun size hsize i hi offset len hoffset hlen => ?_⟩
    · cases size with
      | zero => exact (verifyData_eq_true.mp h).1
      | succ size =>
        obtain ⟨offset, len, str, -, hlen, -⟩ := hsafe.within _ hsize size (Nat.lt_succ_self size)
        rw [lengthAt_eq] at hlen
        have := le_length_of_loadU32 hlen
        omega
    · obtain ⟨o, l, str, ho, hl, -, hlt, -⟩ := hsafe.within size hsize i hi
      rw [Option.some.inj (hoffset.symm.trans ho), Option.some.inj (hlen.symm.trans hl)]
      exact hlt.ne
  · intro hfits
    obtain ⟨hfour, size, hsize, hmin, hloop⟩ := verifyData_eq_true.mp h
    have hload : loadU32 image.alone 0 = some size :=
      (loadU32_alone behind (by omega)).trans hsize
    have hheader := hfits.header size hload
    refine safe_of_alone (verifyData_eq_true.mpr ⟨hfour, size, hload, hmin, ?_⟩)
    refine verifyLoop_alone (fun k hk => by omega) (fun k hk => ?_) hloop
    exact hfits.ends size hload (0 + k) (by omega)

/-! ## What is written -/

/-- The bytes of the strings, with a NUL behind each. -/
def stringsBytes (strs : List Bytes) : Bytes := (strs.map (· ++ [0])).flatten

/-- The offsets and lengths of strings that lie behind each other. -/
def entriesBytes : List Bytes → Nat → Bytes
  | [], _ => []
  | str :: strs, offset =>
    storeLE 4 offset ++ (storeLE 4 str.length ++ entriesBytes strs (offset + (str.length + 1)))

/-- The size of the header. -/
def headerSize (strs : List Bytes) : Nat := 4 * (1 + 2 * strs.length)

/-- The total size of the image of strings. -/
def totalSize (strs : List Bytes) : Nat := headerSize strs + (stringsBytes strs).length

/-- The bytes of an array of strings. -/
def imageBytes (strs : List Bytes) : Bytes :=
  storeLE 4 strs.length ++ (entriesBytes strs (headerSize strs) ++ stringsBytes strs)

@[simp] theorem stringsBytes_nil : stringsBytes [] = [] := rfl

@[simp] theorem stringsBytes_cons (str : Bytes) (strs : List Bytes) :
    stringsBytes (str :: strs) = str ++ (0 :: stringsBytes strs) := by
  simp [stringsBytes]

@[simp] theorem stringsBytes_append (strs strs' : List Bytes) :
    stringsBytes (strs ++ strs') = stringsBytes strs ++ stringsBytes strs' := by
  simp [stringsBytes]

@[simp] theorem length_entriesBytes (strs : List Bytes) (offset : Nat) :
    (entriesBytes strs offset).length = 8 * strs.length := by
  induction strs generalizing offset with
  | nil => rfl
  | cons str strs ih =>
    simp only [entriesBytes, List.length_append, length_storeLE, ih, List.length_cons]
    omega

theorem entriesBytes_append (strs strs' : List Bytes) (offset : Nat) :
    entriesBytes (strs ++ strs') offset =
      entriesBytes strs offset ++ entriesBytes strs' (offset + (stringsBytes strs).length) := by
  induction strs generalizing offset with
  | nil => simp [entriesBytes]
  | cons str strs ih =>
    have hlen : offset + (str.length + 1) + (stringsBytes strs).length =
        offset + (stringsBytes (str :: strs)).length := by
      simp only [stringsBytes_cons, List.length_append, List.length_cons]
      omega
    simp [entriesBytes, ih, hlen]

@[simp] theorem length_imageBytes (strs : List Bytes) :
    (imageBytes strs).length = totalSize strs := by
  simp only [imageBytes, totalSize, headerSize, List.length_append, length_storeLE,
    length_entriesBytes]
  omega

/-- The offsets of strings that lie behind each other. -/
def offsetsFrom : List Bytes → Nat → List Nat
  | [], _ => []
  | str :: strs, offset => offset :: offsetsFrom strs (offset + (str.length + 1))

theorem offsetsLoop_eq (strs : List Bytes) (offset : Nat)
    (h : offset + (stringsBytes strs).length < 2 ^ 31) :
    offsetsLoop strs offset =
      (offsetsFrom strs offset, ((offset + (stringsBytes strs).length : Nat) : Int)) := by
  induction strs generalizing offset with
  | nil => rfl
  | cons str strs ih =>
    rw [stringsBytes_cons, List.length_append, List.length_cons] at h
    have hnext : toInt32 ((offset : Int) + (str.length + 1)) =
        ((offset + (str.length + 1) : Nat) : Int) := by
      rw [← toInt32_of_lt (show offset + (str.length + 1) < 2 ^ 31 by omega)]
      push_cast
      rfl
    have hoffset : ((offset : Int) % 2 ^ 32).toNat = offset := by omega
    rw [offsetsLoop, hnext, ih _ (by omega), hoffset]
    simp only [offsetsFrom, stringsBytes_cons, List.length_append, List.length_cons, Prod.mk.injEq,
      true_and]
    omega

theorem copyTo_append (pos : Nat) (before old bytes after : Bytes) (hpos : pos = before.length)
    (hlen : old.length = bytes.length) :
    copyTo pos bytes (before ++ (old ++ after)) = some (before ++ (bytes ++ after)) := by
  subst hpos
  rw [copyTo, if_pos (by simp only [List.length_append]; omega), ← hlen]
  simp [List.drop_append, List.append_assoc]

/-- What is left of the header and of the strings is filled, string by string. -/
theorem fillLoop_eq (strs : List Bytes) (i offset : Nat) (header strings : Bytes) (rest : Nat)
    (hheader : header.length = 4 * (2 * i + 1))
    (hoffset : offset = header.length + (8 * strs.length + strings.length)) :
    fillLoop i strs (offsetsFrom strs offset)
        (header ++ (List.replicate (8 * strs.length) 0 ++
          (strings ++ List.replicate ((stringsBytes strs).length + rest) 0))) =
      some (header ++ (entriesBytes strs offset ++
        (strings ++ (stringsBytes strs ++ List.replicate rest 0)))) := by
  induction strs generalizing i offset header strings with
  | nil => simp [fillLoop, entriesBytes]
  | cons str strs ih =>
    rw [List.length_cons] at hoffset
    have hzeros : List.replicate (8 * (str :: strs).length) (0 : UInt8) =
        List.replicate 4 0 ++ (List.replicate 4 0 ++ List.replicate (8 * strs.length) 0) := by
      rw [List.replicate_append_replicate, List.replicate_append_replicate, List.length_cons]
      exact congrArg (List.replicate · 0) (by omega)
    have hspace : List.replicate ((stringsBytes (str :: strs)).length + rest) (0 : UInt8) =
        List.replicate (str.length + 1) 0 ++
          List.replicate ((stringsBytes strs).length + rest) 0 := by
      rw [List.replicate_append_replicate, stringsBytes_cons, List.length_append, List.length_cons]
      exact congrArg (List.replicate · 0) (by omega)
    rw [hzeros, hspace, offsetsFrom, fillLoop]
    -- the offset and the length go to the front of the zeros of the header
    have hfirst := copyTo_append _ _ (List.replicate 4 0) (storeLE 4 offset)
      (List.replicate 4 0 ++ (List.replicate (8 * strs.length) 0 ++ (strings ++
        (List.replicate (str.length + 1) 0 ++
          List.replicate ((stringsBytes strs).length + rest) 0)))) hheader.symm (by simp)
    have hsecond := copyTo_append (4 * (2 * i + 2)) (header ++ storeLE 4 offset)
      (List.replicate 4 0) (storeLE 4 str.length)
      (List.replicate (8 * strs.length) 0 ++ (strings ++
        (List.replicate (str.length + 1) 0 ++
          List.replicate ((stringsBytes strs).length + rest) 0))) (by simp; omega) (by simp)
    -- the string goes to the front of the zeros behind the strings
    have hthird := copyTo_append offset
      (header ++ (storeLE 4 offset ++ (storeLE 4 str.length ++
        (List.replicate (8 * strs.length) 0 ++ strings))))
      (List.replicate (str.length + 1) 0) (str ++ [0])
      (List.replicate ((stringsBytes strs).length + rest) 0)
      (by simp; omega) (by simp)
    have hrest := ih (i + 1) (offset + (str.length + 1))
      (header ++ (storeLE 4 offset ++ storeLE 4 str.length)) (strings ++ (str ++ [0]))
      (by simp; omega) (by simp; omega)
    simp only [List.append_assoc, bind] at hfirst hsecond hthird hrest ⊢
    rw [hfirst, Option.bind_some, hsecond, Option.bind_some, hthird, Option.bind_some, hrest]
    simp [entriesBytes]

/-- **WHAT IS WRITTEN** is the image of the strings, unless rounding its size up overflows. -/
theorem serializeToBuffer_eq {strs : List Bytes} (h : totalSize strs < 2 ^ 31) :
    serializeToBuffer strs =
      if totalSize strs + 3 < 2 ^ 31 then some (imageBytes strs) else none := by
  have hheader : 4 * (1 + 2 * strs.length) % 2 ^ 32 = headerSize strs :=
    Nat.mod_eq_of_lt (by rw [totalSize, headerSize] at h; omega)
  have hoffsets := offsetsLoop_eq strs (headerSize strs) h
  have hint : toInt32 (headerSize strs) = headerSize strs :=
    toInt32_of_lt (by rw [totalSize] at h; omega)
  rw [serializeToBuffer]
  simp only [hheader, hint, hoffsets]
  rw [← totalSize]
  split_ifs with hover hlt hlt
  · omega
  · rfl
  · obtain ⟨rest, hrest⟩ : ∃ rest, 4 * ((totalSize strs + 3) / 4) = totalSize strs + rest :=
      ⟨4 * ((totalSize strs + 3) / 4) - totalSize strs, by omega⟩
    have hzeros : List.replicate (4 * ((totalSize strs + 3) / 4)) (0 : UInt8) =
        [] ++ (List.replicate 4 0 ++ (List.replicate (8 * strs.length) 0 ++
          ([] ++ List.replicate ((stringsBytes strs).length + rest) 0))) := by
      simp only [List.nil_append, List.replicate_append_replicate]
      rw [hrest, totalSize, headerSize]
      exact congrArg (List.replicate · 0) (by omega)
    have hsize := copyTo_append 0 [] (List.replicate 4 0)
      (storeLE 4 strs.length) (List.replicate (8 * strs.length) 0 ++
        ([] ++ List.replicate ((stringsBytes strs).length + rest) 0)) rfl (by simp)
    have hfill := fillLoop_eq strs 0 (headerSize strs) (storeLE 4 strs.length) [] rest (by simp)
      (by simp [headerSize]; omega)
    simp only [Int.toNat_natCast, bind]
    rw [hzeros, hsize, Option.bind_some, List.nil_append, hfill, Option.bind_some]
    have himage : storeLE 4 strs.length ++ (entriesBytes strs (headerSize strs) ++
        ([] ++ (stringsBytes strs ++ List.replicate rest 0))) =
          imageBytes strs ++ List.replicate rest 0 := by
      simp [imageBytes]
    rw [himage, ← length_imageBytes, List.take_left]
  · omega

/-! ## The round trip -/

/-- What has been written is accepted, and gives the strings. -/
def RoundTrips (strs : List Bytes) : Prop :=
  ∃ image : Image, serializeToBuffer strs = some image.bytes ∧
    (∀ behind, verifyData (image.memory behind) image.length = some true) ∧
    arraySize image = some strs.length ∧ ∀ i < strs.length, dataAt image i = strs[i]?

theorem loadU32_of_append (before : Bytes) {after : Bytes} {index n : Nat}
    (hbytes : image.bytes = before ++ (storeLE 4 n ++ after)) (hindex : before.length = 4 * index)
    (hn : n < 2 ^ 32) : loadU32 (image.memory behind) index = some n := by
  have hlength : image.length = before.length + (4 + after.length) := by
    rw [Image.length, hbytes, List.length_append, List.length_append, length_storeLE]
  have hbyte (k : Nat) (hk : k < 4) :
      image.memory behind (4 * index + k) = (storeLE 4 n)[k]? := by
    rw [memory_of_lt (by omega), hbytes, ← hindex, List.getElem?_append_right (by omega),
      Nat.add_sub_cancel_left, List.getElem?_append_left (by simpa using hk)]
  obtain ⟨a, b, c, d, hword⟩ : ∃ a b c d, storeLE 4 n = [a, b, c, d] := ⟨_, _, _, _, rfl⟩
  refine loadU32_eq_some.mpr ⟨a, b, c, d, ?_, ?_, ?_, ?_, ?_⟩
  · exact (hbyte 0 (by omega)).trans (by rw [hword]; rfl)
  · exact (hbyte 1 (by omega)).trans (by rw [hword]; rfl)
  · exact (hbyte 2 (by omega)).trans (by rw [hword]; rfl)
  · exact (hbyte 3 (by omega)).trans (by rw [hword]; rfl)
  · rw [← hword]
    exact loadLE_storeLE hn

section Written

variable {strs before after : List Bytes} {str : Bytes}

variable (behind) in
theorem stringAt_written (hbytes : image.bytes = imageBytes strs)
    (hstrs : strs = before ++ str :: after) (htotal : totalSize strs < 2 ^ 31) :
    StringAt (image.memory behind) image.length before.length
      ((headerSize strs + (stringsBytes before).length : Nat) : Int)
      (headerSize strs + (stringsBytes before).length) str.length := by
  have hentries : imageBytes strs = (storeLE 4 strs.length ++
      entriesBytes before (headerSize strs)) ++
        (storeLE 4 (headerSize strs + (stringsBytes before).length) ++ (storeLE 4 str.length ++
          (entriesBytes after (headerSize strs + (stringsBytes before).length + (str.length + 1)) ++
            stringsBytes strs))) := by
    rw [imageBytes]
    conv_lhs => rw [hstrs, entriesBytes_append, entriesBytes]
    simp [hstrs]
  have hlength : image.length = totalSize strs := by
    rw [Image.length, hbytes, length_imageBytes]
  have hsize : totalSize strs = headerSize strs + ((stringsBytes before).length +
      (str.length + (1 + (stringsBytes after).length))) := by
    rw [totalSize, hstrs, stringsBytes_append, stringsBytes_cons]
    simp
    omega
  have hcount : headerSize strs = 4 * (1 + 2 * (before.length + (1 + after.length))) := by
    rw [headerSize, hstrs]
    simp
    omega
  refine ⟨by omega, ?_, ?_, le_rfl, by omega, by omega, by omega, ?_⟩
  · exact loadU32_of_append _ (hbytes.trans hentries) (by simp; omega) (by omega)
  · refine loadU32_of_append ((storeLE 4 strs.length ++
      entriesBytes before (headerSize strs)) ++
        storeLE 4 (headerSize strs + (stringsBytes before).length))
      ((hbytes.trans hentries).trans (List.append_assoc _ _ _).symm) (by simp; omega) (by omega)
  · have hstrings : imageBytes strs = (storeLE 4 strs.length ++
        (entriesBytes strs (headerSize strs) ++ (stringsBytes before ++ str))) ++
          0 :: stringsBytes after := by
      rw [imageBytes]
      simp [hstrs]
    rw [memory_of_lt (by omega), hbytes, hstrings, List.getElem?_append_right]
    · rw [show headerSize strs + (stringsBytes before).length + str.length - _ = 0 by
        simp only [headerSize, List.length_append, length_storeLE, length_entriesBytes]; omega]
      rfl
    · simp only [headerSize, List.length_append, length_storeLE, length_entriesBytes]
      omega

/-- **THE LOOP** accepts the strings that are left. -/
theorem verifyLoop_written (hbytes : image.bytes = imageBytes strs)
    (htotal : totalSize strs < 2 ^ 31) (hstrs : strs = before ++ after) :
    verifyLoop (image.memory behind) image.length after.length before.length
      ((headerSize strs + (stringsBytes before).length : Nat) : Int) = some true := by
  induction after generalizing before with
  | nil => rfl
  | cons str after ih =>
    have hstring := stringAt_written behind hbytes hstrs htotal
    have hrest := @ih (before ++ [str]) (by simp [hstrs])
    refine (verifyLoop_succ_iff image.size_lt).mpr ⟨_, _, hstring, ?_⟩
    have hend : ((headerSize strs + (stringsBytes before).length : Nat) : Int) + str.length + 1 =
        ((headerSize strs + (stringsBytes (before ++ [str])).length : Nat) : Int) := by
      simp
      omega
    rw [hend]
    rwa [List.length_append] at hrest

theorem dataAt_written (hbytes : image.bytes = imageBytes strs)
    (hstrs : strs = before ++ str :: after) (htotal : totalSize strs < 2 ^ 31) :
    dataAt image before.length = some str := by
  have hstring := stringAt_written (fun _ => none) hbytes hstrs htotal
  have hstrings : imageBytes strs = (storeLE 4 strs.length ++
      (entriesBytes strs (headerSize strs) ++ stringsBytes before)) ++
        (str ++ 0 :: stringsBytes after) := by
    rw [imageBytes]
    simp [hstrs]
  have hfront : headerSize strs + (stringsBytes before).length = (storeLE 4 strs.length ++
      (entriesBytes strs (headerSize strs) ++ stringsBytes before)).length := by
    simp only [headerSize, List.length_append, length_storeLE, length_entriesBytes]
    omega
  rw [dataAt, (offsetAt_eq image _).trans hstring.loadOffset,
    (lengthAt_eq image _).trans hstring.loadLen]
  simp only [bind, Option.bind_some]
  rw [if_pos hstring.within, hbytes, hstrings, hfront, List.drop_left, List.take_left]

end Written

/-- **THE ROUND TRIP** succeeds unless rounding the size up overflows. -/
theorem roundTrips_iff {strs : List Bytes} (h : totalSize strs < 2 ^ 31) :
    RoundTrips strs ↔ totalSize strs + 3 < 2 ^ 31 := by
  constructor
  · rintro ⟨image, hbytes, -⟩
    by_contra hover
    rw [serializeToBuffer_eq h, if_neg hover] at hbytes
    exact nomatch hbytes
  · intro hround
    have hlt : (imageBytes strs).length < 2 ^ 63 := by
      rw [length_imageBytes]
      omega
    have hheader : 4 + 8 * strs.length = headerSize strs := by
      rw [headerSize]
      omega
    have hsize : headerSize strs ≤ totalSize strs := Nat.le_add_right _ _
    have hload (behind : Memory) :
        loadU32 ((⟨imageBytes strs, hlt⟩ : Image).memory behind) 0 = some strs.length :=
      loadU32_of_append [] rfl rfl (by omega)
    have hlength : (⟨imageBytes strs, hlt⟩ : Image).length = totalSize strs :=
      length_imageBytes strs
    refine ⟨⟨imageBytes strs, hlt⟩, ?_, fun behind => ?_, hload _, fun i hi => ?_⟩
    · rw [serializeToBuffer_eq h, if_pos hround]
    · refine verifyData_eq_true.mpr ⟨by omega, strs.length, hload behind, ?_, ?_⟩
      · rw [hheader, Nat.mod_eq_of_lt (by omega), hlength]
        exact hsize
      · rw [hheader, Nat.mod_eq_of_lt (by omega), toInt32_of_lt (by omega)]
        exact @verifyLoop_written _ _ _ [] _ rfl h rfl
    · have hsplit : strs = strs.take i ++ strs[i] :: strs.drop (i + 1) := by
        rw [List.getElem_cons_drop, List.take_append_drop]
      have hdata := @dataAt_written ⟨imageBytes strs, hlt⟩ _ _ _ _ rfl hsplit h
      rw [List.length_take, Nat.min_eq_left hi.le] at hdata
      rw [hdata, List.getElem?_eq_getElem hi]

/-- **CHECKED AND FAITHFUL**: an accepted image is safe if its header fits and no string ends
    where it ends; strings are read as they were written unless rounding the size up overflows. -/
theorem checked_and_faithful_iff (image : Image) (behind : Memory) (strs : List Bytes) :
    (verifyData (image.memory behind) image.length = some true → (Safe image ↔ Fits image)) ∧
      (totalSize strs < 2 ^ 31 → (RoundTrips strs ↔ totalSize strs + 3 < 2 ^ 31)) :=
  ⟨safe_iff, roundTrips_iff⟩

/-- The image of one empty string. -/
def emptyString : Image := ⟨[1, 0, 0, 0, 12, 0, 0, 0, 0, 0, 0, 0, 0], by decide⟩

/-- An array with an empty string is read back. -/
theorem emptyString_safe :
    verifyData (emptyString.memory fun _ => none) emptyString.length = some true ∧
      Safe emptyString ∧ RoundTrips [[97], []] := by
  have haccepted :
      verifyData (emptyString.memory fun _ => none) emptyString.length = some true := by
    decide
  obtain ⟨hsafe, hfaithful⟩ := checked_and_faithful_iff emptyString (fun _ => none) [[97], []]
  refine ⟨haccepted, (hsafe haccepted).mpr ⟨?_, ?_⟩, (hfaithful (by decide)).mpr (by decide)⟩
  · rintro size h
    obtain rfl : 1 = size := Option.some.inj h
    decide
  · rintro size h i hi offset len hoffset hlen
    obtain rfl : 1 = size := Option.some.inj h
    obtain rfl : i = 0 := by omega
    obtain rfl : 12 = offset := Option.some.inj hoffset
    obtain rfl : 0 = len := Option.some.inj hlen
    decide

/-- The image of one empty string, without its NUL. -/
def missingNul : Image := ⟨[1, 0, 0, 0, 12, 0, 0, 0, 0, 0, 0, 0], by decide⟩

/-- An image that is one byte too short is accepted if there is a NUL behind it. -/
theorem missingNul_accepted :
    verifyData (missingNul.memory fun _ => some 0) missingNul.length = some true ∧
      verifyData missingNul.alone missingNul.length = none ∧ ¬ Safe missingNul := by
  have halone : verifyData missingNul.alone missingNul.length = none := by decide
  refine ⟨by decide, halone, fun hsafe => ?_⟩
  exact nomatch halone.symm.trans hsafe.reads

end MozkeyStringArray
