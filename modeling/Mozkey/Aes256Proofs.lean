import Mathlib

/-! # AES-256 — the transformation of a block and its inverse

    A block is sixteen bytes in four columns.  Each round substitutes the bytes, shifts the rows,
    mixes the columns and adds a round key; the inverse takes the same steps back, the round keys
    from the last to the first. -/

namespace UnverifiedAES256

/-! ## Tables -/

/-- The substitution box. -/
def kSBox : Array UInt8 := #[
  0x63, 0x7c, 0x77, 0x7b, 0xf2, 0x6b, 0x6f, 0xc5, 0x30, 0x01, 0x67, 0x2b, 0xfe, 0xd7, 0xab, 0x76,
  0xca, 0x82, 0xc9, 0x7d, 0xfa, 0x59, 0x47, 0xf0, 0xad, 0xd4, 0xa2, 0xaf, 0x9c, 0xa4, 0x72, 0xc0,
  0xb7, 0xfd, 0x93, 0x26, 0x36, 0x3f, 0xf7, 0xcc, 0x34, 0xa5, 0xe5, 0xf1, 0x71, 0xd8, 0x31, 0x15,
  0x04, 0xc7, 0x23, 0xc3, 0x18, 0x96, 0x05, 0x9a, 0x07, 0x12, 0x80, 0xe2, 0xeb, 0x27, 0xb2, 0x75,
  0x09, 0x83, 0x2c, 0x1a, 0x1b, 0x6e, 0x5a, 0xa0, 0x52, 0x3b, 0xd6, 0xb3, 0x29, 0xe3, 0x2f, 0x84,
  0x53, 0xd1, 0x00, 0xed, 0x20, 0xfc, 0xb1, 0x5b, 0x6a, 0xcb, 0xbe, 0x39, 0x4a, 0x4c, 0x58, 0xcf,
  0xd0, 0xef, 0xaa, 0xfb, 0x43, 0x4d, 0x33, 0x85, 0x45, 0xf9, 0x02, 0x7f, 0x50, 0x3c, 0x9f, 0xa8,
  0x51, 0xa3, 0x40, 0x8f, 0x92, 0x9d, 0x38, 0xf5, 0xbc, 0xb6, 0xda, 0x21, 0x10, 0xff, 0xf3, 0xd2,
  0xcd, 0x0c, 0x13, 0xec, 0x5f, 0x97, 0x44, 0x17, 0xc4, 0xa7, 0x7e, 0x3d, 0x64, 0x5d, 0x19, 0x73,
  0x60, 0x81, 0x4f, 0xdc, 0x22, 0x2a, 0x90, 0x88, 0x46, 0xee, 0xb8, 0x14, 0xde, 0x5e, 0x0b, 0xdb,
  0xe0, 0x32, 0x3a, 0x0a, 0x49, 0x06, 0x24, 0x5c, 0xc2, 0xd3, 0xac, 0x62, 0x91, 0x95, 0xe4, 0x79,
  0xe7, 0xc8, 0x37, 0x6d, 0x8d, 0xd5, 0x4e, 0xa9, 0x6c, 0x56, 0xf4, 0xea, 0x65, 0x7a, 0xae, 0x08,
  0xba, 0x78, 0x25, 0x2e, 0x1c, 0xa6, 0xb4, 0xc6, 0xe8, 0xdd, 0x74, 0x1f, 0x4b, 0xbd, 0x8b, 0x8a,
  0x70, 0x3e, 0xb5, 0x66, 0x48, 0x03, 0xf6, 0x0e, 0x61, 0x35, 0x57, 0xb9, 0x86, 0xc1, 0x1d, 0x9e,
  0xe1, 0xf8, 0x98, 0x11, 0x69, 0xd9, 0x8e, 0x94, 0x9b, 0x1e, 0x87, 0xe9, 0xce, 0x55, 0x28, 0xdf,
  0x8c, 0xa1, 0x89, 0x0d, 0xbf, 0xe6, 0x42, 0x68, 0x41, 0x99, 0x2d, 0x0f, 0xb0, 0x54, 0xbb, 0x16]

/-- The inverse of the substitution box. -/
def kInvSBox : Array UInt8 := #[
  0x52, 0x09, 0x6a, 0xd5, 0x30, 0x36, 0xa5, 0x38, 0xbf, 0x40, 0xa3, 0x9e, 0x81, 0xf3, 0xd7, 0xfb,
  0x7c, 0xe3, 0x39, 0x82, 0x9b, 0x2f, 0xff, 0x87, 0x34, 0x8e, 0x43, 0x44, 0xc4, 0xde, 0xe9, 0xcb,
  0x54, 0x7b, 0x94, 0x32, 0xa6, 0xc2, 0x23, 0x3d, 0xee, 0x4c, 0x95, 0x0b, 0x42, 0xfa, 0xc3, 0x4e,
  0x08, 0x2e, 0xa1, 0x66, 0x28, 0xd9, 0x24, 0xb2, 0x76, 0x5b, 0xa2, 0x49, 0x6d, 0x8b, 0xd1, 0x25,
  0x72, 0xf8, 0xf6, 0x64, 0x86, 0x68, 0x98, 0x16, 0xd4, 0xa4, 0x5c, 0xcc, 0x5d, 0x65, 0xb6, 0x92,
  0x6c, 0x70, 0x48, 0x50, 0xfd, 0xed, 0xb9, 0xda, 0x5e, 0x15, 0x46, 0x57, 0xa7, 0x8d, 0x9d, 0x84,
  0x90, 0xd8, 0xab, 0x00, 0x8c, 0xbc, 0xd3, 0x0a, 0xf7, 0xe4, 0x58, 0x05, 0xb8, 0xb3, 0x45, 0x06,
  0xd0, 0x2c, 0x1e, 0x8f, 0xca, 0x3f, 0x0f, 0x02, 0xc1, 0xaf, 0xbd, 0x03, 0x01, 0x13, 0x8a, 0x6b,
  0x3a, 0x91, 0x11, 0x41, 0x4f, 0x67, 0xdc, 0xea, 0x97, 0xf2, 0xcf, 0xce, 0xf0, 0xb4, 0xe6, 0x73,
  0x96, 0xac, 0x74, 0x22, 0xe7, 0xad, 0x35, 0x85, 0xe2, 0xf9, 0x37, 0xe8, 0x1c, 0x75, 0xdf, 0x6e,
  0x47, 0xf1, 0x1a, 0x71, 0x1d, 0x29, 0xc5, 0x89, 0x6f, 0xb7, 0x62, 0x0e, 0xaa, 0x18, 0xbe, 0x1b,
  0xfc, 0x56, 0x3e, 0x4b, 0xc6, 0xd2, 0x79, 0x20, 0x9a, 0xdb, 0xc0, 0xfe, 0x78, 0xcd, 0x5a, 0xf4,
  0x1f, 0xdd, 0xa8, 0x33, 0x88, 0x07, 0xc7, 0x31, 0xb1, 0x12, 0x10, 0x59, 0x27, 0x80, 0xec, 0x5f,
  0x60, 0x51, 0x7f, 0xa9, 0x19, 0xb5, 0x4a, 0x0d, 0x2d, 0xe5, 0x7a, 0x9f, 0x93, 0xc9, 0x9c, 0xef,
  0xa0, 0xe0, 0x3b, 0x4d, 0xae, 0x2a, 0xf5, 0xb0, 0xc8, 0xeb, 0xbb, 0x3c, 0x83, 0x53, 0x99, 0x61,
  0x17, 0x2b, 0x04, 0x7e, 0xba, 0x77, 0xd6, 0x26, 0xe1, 0x69, 0x14, 0x63, 0x55, 0x21, 0x0c, 0x7d]

/-- `kSBox[b]`. -/
def sBox (b : UInt8) : UInt8 := kSBox.getD b.toNat 0

/-- `kInvSBox[b]`. -/
def invSBox (b : UInt8) : UInt8 := kInvSBox.getD b.toNat 0

/-- The first table read in order, the second looked up at what it says: the bytes in order. -/
theorem kSBox_map_kInvSBox :
    kSBox.toList.map (fun b => kInvSBox.toList.getD b.toNat 0) =
      (List.range 256).map UInt8.ofNat := by
  decide +kernel

/-- **THE TABLES ARE INVERSE**. -/
theorem invSBox_sBox : ∀ b, invSBox (sBox b) = b := by
  intro b
  have hlength : kSBox.toList.length = 256 := by
    simpa using congrArg List.length kSBox_map_kInvSBox
  have hsize : b.toNat < kSBox.toList.length := hlength ▸ b.toNat_lt
  have hread := congrArg (fun table => table[b.toNat]?) kSBox_map_kInvSBox
  simp only [List.getElem?_map, List.getElem?_range b.toNat_lt, List.getElem?_eq_getElem hsize,
    Option.map_some, Option.some.injEq, UInt8.ofNat_toNat] at hread
  rw [invSBox, sBox, Array.getD_eq_getD_getElem?, Array.getD_eq_getD_getElem?,
    ← Array.getElem?_toList, ← Array.getElem?_toList, List.getElem?_eq_getElem hsize,
    Option.getD_some, ← List.getD_eq_getElem?_getD]
  exact hread

/-! ## Columns -/

/-- Twice the byte in GF(2^8). -/
def gfP8Mul3 (val : UInt8) : UInt8 := if 0x80 ≤ val then (val * 2) ^^^ 0x1b else val * 2

/-- One column of `MixColumns`. -/
def mixColumnsImpl (column : Fin 4 → UInt8) : Fin 4 → UInt8 :=
  let a1 := column
  let a2 := fun i => gfP8Mul3 (a1 i)
  let a3 := fun i => a2 i ^^^ a1 i
  ![a2 0 ^^^ a3 1 ^^^ a1 2 ^^^ a1 3, a1 0 ^^^ a2 1 ^^^ a3 2 ^^^ a1 3,
    a1 0 ^^^ a1 1 ^^^ a2 2 ^^^ a3 3, a3 0 ^^^ a1 1 ^^^ a1 2 ^^^ a2 3]

/-- `a9` of a byte. -/
def mul9 (a1 : UInt8) : UInt8 := gfP8Mul3 (gfP8Mul3 (gfP8Mul3 a1)) ^^^ a1

/-- `a11` of a byte. -/
def mul11 (a1 : UInt8) : UInt8 := gfP8Mul3 (gfP8Mul3 (gfP8Mul3 a1) ^^^ a1) ^^^ a1

/-- `a13` of a byte. -/
def mul13 (a1 : UInt8) : UInt8 := gfP8Mul3 (gfP8Mul3 (gfP8Mul3 a1 ^^^ a1)) ^^^ a1

/-- `a14` of a byte. -/
def mul14 (a1 : UInt8) : UInt8 := gfP8Mul3 (gfP8Mul3 (gfP8Mul3 a1 ^^^ a1) ^^^ a1)

/-- One column of `InvMixColumns`. -/
def invMixColumnsImpl (column : Fin 4 → UInt8) : Fin 4 → UInt8 :=
  let a9 := fun i => mul9 (column i)
  let a11 := fun i => mul11 (column i)
  let a13 := fun i => mul13 (column i)
  let a14 := fun i => mul14 (column i)
  ![a14 0 ^^^ a11 1 ^^^ a13 2 ^^^ a9 3, a9 0 ^^^ a14 1 ^^^ a11 2 ^^^ a13 3,
    a13 0 ^^^ a9 1 ^^^ a14 2 ^^^ a11 3, a11 0 ^^^ a13 1 ^^^ a9 2 ^^^ a14 3]

/-- Doubling in the field is a shift and, where the highest bit is lost, the addition of the
    rest. -/
theorem gfP8Mul3_eq : ∀ a, gfP8Mul3 a =
    (a <<< 1) ^^^ (if a.toBitVec.getLsbD 7 then 0x1b else 0) := by
  decide +kernel

/-- **DOUBLING IS LINEAR**. -/
theorem gfP8Mul3_xor (a b : UInt8) : gfP8Mul3 (a ^^^ b) = gfP8Mul3 a ^^^ gfP8Mul3 b := by
  rw [gfP8Mul3_eq, gfP8Mul3_eq a, gfP8Mul3_eq b, UInt8.shiftLeft_xor, UInt8.toBitVec_xor,
    BitVec.getLsbD_xor]
  have hreduced : (if (a.toBitVec.getLsbD 7 ^^ b.toBitVec.getLsbD 7) then (0x1b : UInt8) else 0) =
      (if a.toBitVec.getLsbD 7 then 0x1b else 0) ^^^
        (if b.toBitVec.getLsbD 7 then 0x1b else 0) := by
    cases a.toBitVec.getLsbD 7 <;> cases b.toBitVec.getLsbD 7 <;> rfl
  rw [hreduced]
  ac_rfl

theorem mul9_xor (a b : UInt8) : mul9 (a ^^^ b) = mul9 a ^^^ mul9 b := by
  simp only [mul9, gfP8Mul3_xor]
  ac_rfl

theorem mul11_xor (a b : UInt8) : mul11 (a ^^^ b) = mul11 a ^^^ mul11 b := by
  simp only [mul11, gfP8Mul3_xor]
  ac_rfl

theorem mul13_xor (a b : UInt8) : mul13 (a ^^^ b) = mul13 a ^^^ mul13 b := by
  simp only [mul13, gfP8Mul3_xor]
  ac_rfl

theorem mul14_xor (a b : UInt8) : mul14 (a ^^^ b) = mul14 a ^^^ mul14 b := by
  simp only [mul14, gfP8Mul3_xor]
  ac_rfl

theorem mixed_self : ∀ a, mul14 (gfP8Mul3 a) ^^^ mul11 a ^^^ mul13 a ^^^
    mul9 (gfP8Mul3 a ^^^ a) = a := by
  decide +kernel

/-- What comes back of a byte one place before, two places and three. -/
theorem mixed_others : ∀ a,
    mul14 (gfP8Mul3 a ^^^ a) ^^^ mul11 (gfP8Mul3 a) ^^^ mul13 a ^^^ mul9 a = 0 ∧
    mul14 a ^^^ mul11 (gfP8Mul3 a ^^^ a) ^^^ mul13 (gfP8Mul3 a) ^^^ mul9 a = 0 ∧
    mul14 a ^^^ mul11 a ^^^ mul13 (gfP8Mul3 a ^^^ a) ^^^ mul9 (gfP8Mul3 a) = 0 := by
  decide +kernel

/-- A byte of a column that has been mixed and is mixed back. -/
theorem mixed_back (a b c d : UInt8) :
    mul14 (gfP8Mul3 a ^^^ (gfP8Mul3 b ^^^ b) ^^^ c ^^^ d) ^^^
      mul11 (a ^^^ gfP8Mul3 b ^^^ (gfP8Mul3 c ^^^ c) ^^^ d) ^^^
      mul13 (a ^^^ b ^^^ gfP8Mul3 c ^^^ (gfP8Mul3 d ^^^ d)) ^^^
      mul9 ((gfP8Mul3 a ^^^ a) ^^^ b ^^^ c ^^^ gfP8Mul3 d) = a := by
  obtain ⟨hb, -, -⟩ := mixed_others b
  obtain ⟨-, hc, -⟩ := mixed_others c
  obtain ⟨-, -, hd⟩ := mixed_others d
  calc _ = (mul14 (gfP8Mul3 a) ^^^ mul11 a ^^^ mul13 a ^^^ mul9 (gfP8Mul3 a ^^^ a)) ^^^
        (mul14 (gfP8Mul3 b ^^^ b) ^^^ mul11 (gfP8Mul3 b) ^^^ mul13 b ^^^ mul9 b) ^^^
        (mul14 c ^^^ mul11 (gfP8Mul3 c ^^^ c) ^^^ mul13 (gfP8Mul3 c) ^^^ mul9 c) ^^^
        (mul14 d ^^^ mul11 d ^^^ mul13 (gfP8Mul3 d ^^^ d) ^^^ mul9 (gfP8Mul3 d)) := by
        simp only [mul14_xor, mul11_xor, mul13_xor, mul9_xor]
        ac_rfl
    _ = a := by rw [mixed_self, hb, hc, hd]; simp

/-- **A COLUMN IS MIXED BACK**: the same at each place, the places in turn. -/
theorem invMixColumnsImpl_mixColumnsImpl (column : Fin 4 → UInt8) :
    invMixColumnsImpl (mixColumnsImpl column) = column := by
  funext i
  fin_cases i
  · exact mixed_back (column 0) (column 1) (column 2) (column 3)
  · refine Eq.trans ?_ (mixed_back (column 1) (column 2) (column 3) (column 0))
    simp [invMixColumnsImpl, mixColumnsImpl, mul14_xor, mul11_xor, mul13_xor, mul9_xor]
    ac_rfl
  · refine Eq.trans ?_ (mixed_back (column 2) (column 3) (column 0) (column 1))
    simp [invMixColumnsImpl, mixColumnsImpl, mul14_xor, mul11_xor, mul13_xor, mul9_xor]
    ac_rfl
  · refine Eq.trans ?_ (mixed_back (column 3) (column 0) (column 1) (column 2))
    simp [invMixColumnsImpl, mixColumnsImpl, mul14_xor, mul11_xor, mul13_xor, mul9_xor]
    ac_rfl

/-! ## Blocks -/

/-- A block of `kBlockBytes`. -/
abbrev Block := Vector UInt8 16

/-- The round key is added. -/
def addRoundKey (block roundKey : Block) : Block := Vector.ofFn fun i => block[i] ^^^ roundKey[i]

/-- The S-box, byte by byte. -/
def subBytes (block : Block) : Block := block.map sBox

/-- `InvSubBytes`. -/
def invSubBytes (block : Block) : Block := block.map invSBox

/-- The column of a block with the byte at a place. -/
def columnAt (block : Block) (i : Fin 16) : Fin 4 → UInt8 :=
  fun j => block[4 * (i.val / 4) + j.val]

/-- The columns, one by one. -/
def mixColumns (block : Block) : Block :=
  Vector.ofFn fun i => mixColumnsImpl (columnAt block i) ⟨i % 4, by omega⟩

/-- `InvMixColumns`, over the four columns. -/
def invMixColumns (block : Block) : Block :=
  Vector.ofFn fun i => invMixColumnsImpl (columnAt block i) ⟨i % 4, by omega⟩

/-- Row `i` is rotated by `i`. -/
def shiftRows (b : Block) : Block :=
  #v[b[0], b[5], b[10], b[15], b[4], b[9], b[14], b[3], b[8], b[13], b[2], b[7], b[12], b[1], b[6],
    b[11]]

/-- Row `i` is rotated back by `i`. -/
def invShiftRows (b : Block) : Block :=
  #v[b[0], b[13], b[10], b[7], b[4], b[1], b[14], b[11], b[8], b[5], b[2], b[15], b[12], b[9], b[6],
    b[3]]

/-- A key schedule of `kKeyScheduleBytes`. -/
abbrev KeySchedule := List UInt8

/-- `&w[kBlockBytes * round]`. -/
def roundKey (w : KeySchedule) (round : Nat) : Block :=
  Vector.ofFn fun i => w.getD (16 * round + i) 0

/-- The loop of `TransformECB` over the rounds from 1 on. -/
def transformRounds (w : KeySchedule) : Nat → Block → Block
  | 0, block => block
  | round + 1, block =>
    addRoundKey (mixColumns (shiftRows (subBytes (transformRounds w round block))))
      (roundKey w (round + 1))

/-- The fourteen rounds on a block. -/
def transformECB (w : KeySchedule) (block : Block) : Block :=
  addRoundKey (shiftRows (subBytes (transformRounds w 13 (addRoundKey block (roundKey w 0)))))
    (roundKey w 14)

/-- The loop of `InverseTransformECB` over the rounds down to 1. -/
def inverseTransformRounds (w : KeySchedule) : Nat → Block → Block
  | 0, block => block
  | round + 1, block =>
    inverseTransformRounds w round
      (invSubBytes (invShiftRows (invMixColumns (addRoundKey block (roundKey w (round + 1))))))

/-- The rounds backwards. -/
def inverseTransformECB (w : KeySchedule) (block : Block) : Block :=
  addRoundKey (inverseTransformRounds w 13
    (invSubBytes (invShiftRows (addRoundKey block (roundKey w 14))))) (roundKey w 0)

/-! ## Each step is taken back -/

variable (block : Block)

@[simp] theorem addRoundKey_addRoundKey (key : Block) :
    addRoundKey (addRoundKey block key) key = block := by
  ext i hi
  simp [addRoundKey]

@[simp] theorem invSubBytes_subBytes : invSubBytes (subBytes block) = block := by
  ext i hi
  simp [invSubBytes, subBytes, invSBox_sBox]

@[simp] theorem invShiftRows_shiftRows : invShiftRows (shiftRows block) = block := by
  ext i hi
  interval_cases i <;> rfl

theorem columnAt_congr {i i' : Fin 16} (h : i.val / 4 = i'.val / 4) :
    columnAt block i = columnAt block i' := by
  funext j
  simp only [columnAt, h]

theorem columnAt_mixColumns (i : Fin 16) :
    columnAt (mixColumns block) i = mixColumnsImpl (columnAt block i) := by
  funext j
  have hdiv : (4 * (i.val / 4) + j.val) / 4 = i.val / 4 := by omega
  have hmod : (4 * (i.val / 4) + j.val) % 4 = j.val := by omega
  have hcolumn : columnAt block ⟨4 * (i.val / 4) + j.val, by omega⟩ = columnAt block i :=
    columnAt_congr block hdiv
  change (mixColumns block)[4 * (i.val / 4) + j.val] = _
  simp only [mixColumns, Vector.getElem_ofFn, hcolumn, hmod]

@[simp] theorem invMixColumns_mixColumns : invMixColumns (mixColumns block) = block := by
  ext i hi
  simp only [invMixColumns, Vector.getElem_ofFn, columnAt_mixColumns,
    invMixColumnsImpl_mixColumnsImpl, columnAt, Nat.div_add_mod]

theorem inverseTransformRounds_transformRounds (w : KeySchedule) (rounds : Nat) :
    inverseTransformRounds w rounds (transformRounds w rounds block) = block := by
  induction rounds with
  | zero => rfl
  | succ round ih => simp [transformRounds, inverseTransformRounds, ih]

/-- **A BLOCK IS TRANSFORMED BACK**. -/
@[simp] theorem inverseTransformECB_transformECB (w : KeySchedule) :
    inverseTransformECB w (transformECB w block) = block := by
  simp [transformECB, inverseTransformECB, inverseTransformRounds_transformRounds]

/-! ## The key schedule -/

/-- The next `count` bytes of the schedule, behind the 32 bytes of `prev`. -/
def nextKey (prev : List UInt8) (rcon : UInt8) (count : Nat) : List UInt8 :=
  let p (i : Nat) : UInt8 := prev.getD i 0
  (List.range' 4 (count - 4)).foldl
    (fun k i =>
      k ++ [p i ^^^ (if 16 ≤ i ∧ i < 20 then sBox (k.getD (i - 4) 0) else k.getD (i - 4) 0)])
    [p 0 ^^^ sBox (p 29) ^^^ rcon, p 1 ^^^ sBox (p 30), p 2 ^^^ sBox (p 31), p 3 ^^^ sBox (p 28)]

/-- `MakeKeySchedule`; the last of the seven rounds of its loop stops after sixteen bytes. -/
def makeKeySchedule (key : Vector UInt8 32) : KeySchedule :=
  (List.range' 1 7).foldl
    (fun w base => w ++ nextKey (w.drop ((base - 1) * 32)) (1 <<< UInt8.ofNat (base - 1))
      (if base = 7 then 16 else 32))
    key.toList

end UnverifiedAES256
