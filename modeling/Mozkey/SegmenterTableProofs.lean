import Mozkey.WordArrayProofs

/-! # Segmenter table — a boundary predicate compressed into bits

    `GenerateBitarray` tabulates the predicate in a flat array with one more row and one
    more column, merges equal rows and equal columns, and saves one bit for each pair of
    classes.  `Segmenter` finds the bit of a pair of ids through the two tables. -/

namespace MozkeySegmenter

open ByteString LittleEndian WordArray

/-! ## Bit arrays -/

/-- `BitArray`, of words. -/
structure BitArray where
  words : List (BitVec 32)
  size : Nat

namespace BitArray

/-- `BitArray(uint32_t size)`. -/
def ofSize (size : Nat) : BitArray where
  words := List.replicate (1 + size >>> 5) 0
  size := size

/-- `get`; `none` where the word is not in the array. -/
def get (b : BitArray) (index : Nat) : Option Bool :=
  b.words[index >>> 5]?.map (fun word : BitVec 32 => (word >>> (index &&& 0x1F)) &&& 1#32 != 0#32)

/-- `set`; `none` out of the words. -/
def set (b : BitArray) (index : Nat) : Option BitArray :=
  if index >>> 5 < b.words.length then
    some { b with words := b.words.modify (index >>> 5) (· ||| (1#32 <<< (index &&& 0x1F))) }
  else none

/-- `clear`; `none` out of the words. -/
def clear (b : BitArray) (index : Nat) : Option BitArray :=
  if index >>> 5 < b.words.length then
    some { b with words := b.words.modify (index >>> 5) (· &&& ~~~(1#32 <<< (index &&& 0x1F))) }
  else none

/-- `array`, with `array_size` bytes. -/
def array (b : BitArray) : Bytes := storeWords 4 (b.words.map BitVec.toNat)

/-- `GetValue` of a byte array. -/
def getValue (array : Bytes) (index : Nat) : Option Bool :=
  array[index >>> 3]?.map (fun byte : UInt8 => (byte.toNat >>> (index &&& 7)) &&& 1 != 0)

end BitArray

/-! ## The generator -/

/-- `StateTable`. -/
structure StateTable where
  idarray : List Bytes
  compressedTable : List Nat
  compressedSize : Nat

namespace StateTable

/-- `StateTable(size)`. -/
def ofSize (size : Nat) : StateTable where
  idarray := List.replicate size []
  compressedTable := []
  compressedSize := 0

/-- `Add`; the id is a `uint16_t`. -/
def add (t : StateTable) (id : Nat) (str : Bytes) : Option StateTable :=
  if id % 2 ^ 16 < t.idarray.length then
    some { t with idarray := t.idarray.set (id % 2 ^ 16) str }
  else none

/-- The locals of the loop of `Build`. -/
structure BuildState where
  table : List Nat
  id : Nat
  dup : List (Bytes × Nat)

/-- One round of the loop of `Build`; `id` is a `uint16_t`. -/
def buildStep (s : BuildState) (str : Bytes) : BuildState :=
  match s.dup.lookup str with
  | some id => { s with table := s.table ++ [id] }
  | none =>
    { table := s.table ++ [s.id]
      id := (s.id + 1) % 2 ^ 16
      dup := s.dup ++ [(str, s.id)] }

/-- `Build`, with its checks. -/
def build (t : StateTable) : Option StateTable :=
  let s := t.idarray.foldl buildStep { table := [], id := 0, dup := [] }
  let compressedSize := s.dup.length
  if (t.idarray.zip s.table).all (fun (str, id) =>
        id < compressedSize && s.dup.lookup str == some id)
      && compressedSize < t.idarray.length then
    some { t with compressedTable := s.table, compressedSize := compressedSize }
  else none

/-- `id`; the argument is a `uint16_t`. -/
def id (t : StateTable) (i : Nat) : Option Nat :=
  if i % 2 ^ 16 < t.idarray.length then t.compressedTable[i % 2 ^ 16]? else none

/-- `Output`. -/
def output (t : StateTable) : Bytes := storeWords 2 t.compressedTable

end StateTable

/-- The cells of both loops, in their order: `rid` outside, `lid` inside. -/
def cells (lsize rsize : Nat) : List (Nat × Nat) :=
  (List.range (lsize + 1)).flatMap fun rid =>
    (List.range (rsize + 1)).map fun lid => (rid, lid)

/-- `rid + lsize * lid`, as a `uint32_t`. -/
def cellIndex (lsize rid lid : Nat) : Nat := (rid + lsize * lid) % 2 ^ 32

/-- What is tabulated for a cell; the border is all boundaries. -/
def cellValue (lsize rsize : Nat) (isBoundary : UInt16 → UInt16 → Bool) (rid lid : Nat) : UInt8 :=
  if rid = lsize ∨ lid = rsize then 1
  else if isBoundary (UInt16.ofNat rid) (UInt16.ofNat lid) then 1
  else 0

/-- The first loop of `GenerateBitarray`: the matrix as a flat array. -/
def loadArray (lsize rsize : Nat) (isBoundary : UInt16 → UInt16 → Bool) : Option Bytes :=
  writeAll (List.replicate ((lsize + 1) * (rsize + 1)) 0)
    ((cells lsize rsize).map fun (rid, lid) =>
      (cellIndex lsize rid lid, cellValue lsize rsize isBoundary rid lid))

/-- The table of the rows: row `rid` is read over all `lid`. -/
def reduceLeft (lsize rsize : Nat) (array : Bytes) : Option StateTable :=
  (List.range (lsize + 1)).foldlM (fun t rid => do
    let buf ← (List.range (rsize + 1)).mapM fun lid => array[cellIndex lsize rid lid]?
    t.add rid buf) (StateTable.ofSize (lsize + 1))

/-- The table of the columns: column `lid` is read over all `rid`. -/
def reduceRight (lsize rsize : Nat) (array : Bytes) : Option StateTable :=
  (List.range (rsize + 1)).foldlM (fun t lid => do
    let buf ← (List.range (lsize + 1)).mapM fun rid => array[cellIndex lsize rid lid]?
    t.add lid buf) (StateTable.ofSize (rsize + 1))

/-- The bit of a pair of classes, as a `uint32_t`. -/
def classIndex (ltable rtable : StateTable) (rid lid : Nat) : Option Nat := do
  let l ← ltable.id rid
  let r ← rtable.id lid
  return (l + ltable.compressedSize * r) % 2 ^ 32

/-- The loop that makes the bit array. -/
def makeBitarray (lsize rsize : Nat) (array : Bytes) (ltable rtable : StateTable) :
    Option BitArray :=
  (cells lsize rsize).foldlM (fun barray (rid, lid) => do
    let cindex ← classIndex ltable rtable rid lid
    let value ← array[cellIndex lsize rid lid]?
    if value > 0 then barray.set cindex else barray.clear cindex)
    (BitArray.ofSize ((ltable.compressedSize * rtable.compressedSize) % 2 ^ 32))

/-- The comparison of one cell in the loop that verifies the table. -/
def verifyCell (lsize : Nat) (array : Bytes) (ltable rtable : StateTable) (barray : BitArray)
    (rid lid : Nat) : Bool :=
  match classIndex ltable rtable rid lid, array[cellIndex lsize rid lid]? with
  | some cindex, some value => barray.get cindex == some (value != 0)
  | _, _ => false

/-- What the generator writes: `SegmenterDataSizeInfo` and three files. -/
structure SegmenterData where
  compressedLsize : Nat
  compressedRsize : Nat
  ltable : Bytes
  rtable : Bytes
  bitarray : Bytes

/-- `GenerateBitarray`; `none` where a check fails.  The size of the flat array is computed
    in `int`. -/
def generateBitarray (lsize rsize : Nat) (isBoundary : UInt16 → UInt16 → Bool) :
    Option SegmenterData :=
  if (lsize + 1) * (rsize + 1) < 2 ^ 31 then do
    let array ← loadArray lsize rsize isBoundary
    let ltable ← reduceLeft lsize rsize array
    let rtable ← reduceRight lsize rsize array
    let rtable ← rtable.build
    let ltable ← ltable.build
    if ltable.compressedSize > 0 ∧ rtable.compressedSize > 0 then do
      let barray ← makeBitarray lsize rsize array ltable rtable
      if (cells lsize rsize).all (fun (rid, lid) =>
            verifyCell lsize array ltable rtable barray rid lid)
          && barray.size > 0 then
        some
          { compressedLsize := ltable.compressedSize
            compressedRsize := rtable.compressedSize
            ltable := ltable.output
            rtable := rtable.output
            bitarray := barray.array }
      else none
    else none
  else none

/-! ## The segmenter -/

/-- `MakeAlignedConstSpan<uint16_t>` of an aligned block. -/
def spanOfU16 (data : Bytes) : List Nat :=
  if data.length < 2 ∨ data.length % 2 ≠ 0 then [] else loadWords 2 (data.length / 2) data

/-- `Segmenter`. -/
structure Segmenter where
  lNumElements : Nat
  rNumElements : Nat
  lTable : List Nat
  rTable : List Nat
  bitarrayData : Bytes

namespace Segmenter

/-- `DataManager::GetSegmenterData` and the constructor, with its check. -/
def create (data : SegmenterData) : Option Segmenter :=
  if data.compressedLsize * data.compressedRsize ≤ data.bitarray.length * 8 then
    some
      { lNumElements := data.compressedLsize
        rNumElements := data.compressedRsize
        lTable := spanOfU16 data.ltable
        rTable := spanOfU16 data.rtable
        bitarrayData := data.bitarray }
  else none

/-- `IsBoundary(rid, lid)`; `none` where it reads behind a table. -/
def isBoundary (s : Segmenter) (rid lid : UInt16) : Option Bool := do
  let l ← s.lTable[rid.toNat]?
  let r ← s.rTable[lid.toNat]?
  BitArray.getValue s.bitarrayData ((l + s.lNumElements * r) % 2 ^ 32)

end Segmenter

/-! ## The bits that are saved -/

namespace BitArray

theorem bit_eq_testBit (word : BitVec 32) (k : Nat) :
    ((word >>> k) &&& 1#32 != 0#32) = word.toNat.testBit k := by
  have h : ((word >>> k) &&& 1#32).toNat = 1 &&& (word.toNat >>> k) := by
    rw [BitVec.toNat_and, BitVec.toNat_ushiftRight, Nat.and_comm]
    rfl
  rw [Nat.testBit, ← h, Bool.eq_iff_iff, bne_iff_ne, bne_iff_ne, Ne, Ne, ← BitVec.toNat_inj]
  rfl

/-- **THE SAVED ARRAY**: reading a bit of the image is reading it in memory. -/
theorem getValue_array (b : BitArray) (index : Nat) : getValue b.array index = b.get index := by
  have hbyte : index >>> 3 = 4 * (index >>> 5) + index / 8 % 4 := by
    rw [Nat.shiftRight_eq_div_pow, Nat.shiftRight_eq_div_pow]
    omega
  have hlow : index &&& 7 = index % 8 := Nat.and_two_pow_sub_one_eq_mod index 3
  have hhigh : index &&& 0x1F = index % 32 := Nat.and_two_pow_sub_one_eq_mod index 5
  rw [getValue, get, array, hbyte, hlow, hhigh,
    getElem?_storeWords _ _ (Nat.mod_lt _ (by decide)), List.getElem?_map, Option.map_map,
    Option.map_map]
  congr 1
  funext word
  rw [bit_eq_testBit]
  show ((UInt8.ofNat (word.toNat / 256 ^ (index / 8 % 4) % 256)).toNat >>> (index % 8) &&& 1 != 0)
    = _
  rw [UInt8.toNat_ofNat_of_lt' (Nat.mod_lt _ (by decide)), Nat.and_comm]
  show (word.toNat / 256 ^ (index / 8 % 4) % 256).testBit (index % 8) = _
  rw [show (256 : Nat) ^ (index / 8 % 4) = 2 ^ (8 * (index / 8 % 4)) from by
      rw [Nat.pow_mul], show (256 : Nat) = 2 ^ 8 from rfl, Nat.testBit_mod_two_pow,
    decide_eq_true (Nat.mod_lt _ (by decide)), Bool.true_and, Nat.testBit_div_two_pow]
  congr 1
  omega

theorem length_of_set {b b' : BitArray} {index : Nat} (h : b.set index = some b') :
    b'.words.length = b.words.length ∧ b'.size = b.size := by
  rw [set] at h
  split at h
  · obtain rfl := Option.some.inj h
    exact ⟨List.length_modify .., rfl⟩
  · cases h

theorem length_of_clear {b b' : BitArray} {index : Nat} (h : b.clear index = some b') :
    b'.words.length = b.words.length ∧ b'.size = b.size := by
  rw [clear] at h
  split at h
  · obtain rfl := Option.some.inj h
    exact ⟨List.length_modify .., rfl⟩
  · cases h

theorem length_array (b : BitArray) : b.array.length = 4 * b.words.length := by
  rw [array, length_storeWords, List.length_map]

end BitArray

/-! ## The tables -/

namespace StateTable

theorem length_of_add {t t' : StateTable} {i : Nat} {str : Bytes} (h : t.add i str = some t') :
    t'.idarray.length = t.idarray.length := by
  rw [add] at h
  split at h
  · obtain rfl := Option.some.inj h
    exact List.length_set
  · cases h

/-- What the loop of `Build` keeps: every id is a `uint16_t`. -/
structure Narrow (s : BuildState) : Prop where
  table_lt : ∀ id ∈ s.table, id < 2 ^ 16
  id_lt : s.id < 2 ^ 16
  dup_lt : ∀ entry ∈ s.dup, entry.2 < 2 ^ 16

theorem mem_of_lookup {str : Bytes} {id : Nat} : ∀ {dup : List (Bytes × Nat)},
    dup.lookup str = some id → (str, id) ∈ dup := by
  intro dup h
  obtain ⟨l₁, l₂, hsplit, -⟩ := List.lookup_eq_some_iff.mp h
  rw [hsplit]
  exact List.mem_append_right _ (List.mem_cons_self ..)

theorem narrow_buildStep {s : BuildState} (h : Narrow s) (str : Bytes) :
    Narrow (buildStep s str) := by
  rw [buildStep]
  cases hdup : s.dup.lookup str with
  | some id =>
    refine ⟨?_, h.id_lt, h.dup_lt⟩
    intro i hi
    rcases List.mem_append.mp hi with hi | hi
    · exact h.table_lt i hi
    · rw [List.mem_singleton.mp hi]
      exact h.dup_lt _ (mem_of_lookup hdup)
  | none =>
    refine ⟨?_, Nat.mod_lt _ (by decide), ?_⟩
    · intro i hi
      rcases List.mem_append.mp hi with hi | hi
      · exact h.table_lt i hi
      · rw [List.mem_singleton.mp hi]
        exact h.id_lt
    · intro entry hentry
      rcases List.mem_append.mp hentry with hentry | hentry
      · exact h.dup_lt entry hentry
      · rw [List.mem_singleton.mp hentry]
        exact h.id_lt

theorem narrow_foldl (strs : List Bytes) : ∀ {s : BuildState}, Narrow s →
    Narrow (strs.foldl buildStep s) := by
  induction strs with
  | nil => intro s h; exact h
  | cons str strs ih => intro s h; exact ih (narrow_buildStep h str)

/-- A table that was built: its ids fit their type, and some rows were equal. -/
theorem build_spec {t t' : StateTable} (h : t.build = some t') :
    (∀ id ∈ t'.compressedTable, id < 2 ^ 16) ∧ t'.compressedSize < t.idarray.length ∧
      t'.idarray = t.idarray := by
  rw [build] at h
  split at h
  · rename_i hcheck
    obtain rfl := Option.some.inj h
    rw [Bool.and_eq_true, decide_eq_true_eq] at hcheck
    have hstart : Narrow { table := [], id := 0, dup := [] } :=
      ⟨fun _ h => absurd h List.not_mem_nil, by decide, fun _ h => absurd h List.not_mem_nil⟩
    exact ⟨(narrow_foldl t.idarray hstart).table_lt, hcheck.2, rfl⟩
  · cases h

/-- The saved table is read back, at the id it is asked for. -/
theorem getElem?_spanOfU16_output {t : StateTable} (ht : ∀ id ∈ t.compressedTable, id < 2 ^ 16)
    {i id : Nat} (h : t.id i = some id) :
    (spanOfU16 t.output)[(UInt16.ofNat i).toNat]? = some id := by
  rw [StateTable.id] at h
  split at h
  · have hlen : t.output.length = 2 * t.compressedTable.length := length_storeWords 2 _
    have hpos : 0 < t.compressedTable.length :=
      Nat.lt_of_le_of_lt (Nat.zero_le _) (List.getElem?_eq_some_iff.mp h).1
    have hspan : spanOfU16 t.output = t.compressedTable := by
      rw [spanOfU16, if_neg (by rw [hlen]; omega), hlen, Nat.mul_div_cancel_left _ (by decide),
        output, ← List.append_nil (storeWords 2 t.compressedTable)]
      exact loadWords_storeWords [] (fun n hn => ht n hn)
    rw [hspan, UInt16.toNat_ofNat']
    exact h
  · cases h

end StateTable

/-! ## The generator's own check -/

theorem mem_cells {lsize rsize : Nat} {c : Nat × Nat} :
    c ∈ cells lsize rsize ↔ c.1 ≤ lsize ∧ c.2 ≤ rsize := by
  rw [cells, List.mem_flatMap]
  constructor
  · rintro ⟨rid, hrid, hc⟩
    obtain ⟨lid, hlid, rfl⟩ := List.mem_map.mp hc
    exact ⟨Nat.le_of_lt_succ (List.mem_range.mp hrid), Nat.le_of_lt_succ (List.mem_range.mp hlid)⟩
  · rintro ⟨hrid, hlid⟩
    exact ⟨c.1, List.mem_range.mpr (Nat.lt_succ_of_le hrid),
      List.mem_map.mpr ⟨c.2, List.mem_range.mpr (Nat.lt_succ_of_le hlid), rfl⟩⟩

theorem foldlM_keeps {α β : Type} {f : β → α → Option β} {P : β → Prop}
    (hf : ∀ b a b', f b a = some b' → P b → P b') : ∀ {l : List α} {b b' : β},
    l.foldlM f b = some b' → P b → P b' := by
  intro l
  induction l with
  | nil =>
    intro b b' h hb
    rw [← Option.some.inj h]
    exact hb
  | cons a l ih =>
    intro b b' h hb
    rw [List.foldlM_cons, Option.bind_eq_bind] at h
    obtain ⟨c, hc, hrest⟩ := Option.bind_eq_some_iff.mp h
    exact ih hrest (hf b a c hc hb)

theorem length_reduceLeft {lsize rsize : Nat} {array : Bytes} {t : StateTable}
    (h : reduceLeft lsize rsize array = some t) : t.idarray.length = lsize + 1 := by
  refine foldlM_keeps (P := fun t => t.idarray.length = lsize + 1) ?_ h List.length_replicate
  intro t rid t' hstep ht
  obtain ⟨buf, -, hadd⟩ := Option.bind_eq_some_iff.mp hstep
  rw [StateTable.length_of_add hadd, ht]

theorem length_reduceRight {lsize rsize : Nat} {array : Bytes} {t : StateTable}
    (h : reduceRight lsize rsize array = some t) : t.idarray.length = rsize + 1 := by
  refine foldlM_keeps (P := fun t => t.idarray.length = rsize + 1) ?_ h List.length_replicate
  intro t lid t' hstep ht
  obtain ⟨buf, -, hadd⟩ := Option.bind_eq_some_iff.mp hstep
  rw [StateTable.length_of_add hadd, ht]

theorem makeBitarray_spec {lsize rsize : Nat} {array : Bytes} {ltable rtable : StateTable}
    {barray : BitArray} (h : makeBitarray lsize rsize array ltable rtable = some barray) :
    barray.words.length
      = 1 + (ltable.compressedSize * rtable.compressedSize % 2 ^ 32) >>> 5 := by
  refine foldlM_keeps (P := fun b => b.words.length = _) ?_ h List.length_replicate
  rintro b ⟨rid, lid⟩ b' hstep hb
  obtain ⟨cindex, -, hstep⟩ := Option.bind_eq_some_iff.mp hstep
  obtain ⟨value, -, hstep⟩ := Option.bind_eq_some_iff.mp hstep
  split at hstep
  · rw [(BitArray.length_of_set hstep).1, hb]
  · rw [(BitArray.length_of_clear hstep).1, hb]

/-- **THE GENERATOR'S CHECK**: a table that was written out reads, for every pair of ids,
    what the flat array holds for it. -/
theorem generateBitarray_verified {lsize rsize : Nat} {isBoundary : UInt16 → UInt16 → Bool}
    {data : SegmenterData} (h : generateBitarray lsize rsize isBoundary = some data) :
    (lsize + 1) * (rsize + 1) < 2 ^ 31 ∧
      ∃ array segmenter, loadArray lsize rsize isBoundary = some array ∧
        Segmenter.create data = some segmenter ∧
        ∀ rid ≤ lsize, ∀ lid ≤ rsize, ∃ value,
          array[cellIndex lsize rid lid]? = some value ∧
          segmenter.isBoundary (UInt16.ofNat rid) (UInt16.ofNat lid) = some (value != 0) := by
  rw [generateBitarray] at h
  split at h
  case isFalse => cases h
  rename_i hsize
  obtain ⟨array, harray, h⟩ := Option.bind_eq_some_iff.mp h
  obtain ⟨lt₀, hlt₀, h⟩ := Option.bind_eq_some_iff.mp h
  obtain ⟨rt₀, hrt₀, h⟩ := Option.bind_eq_some_iff.mp h
  obtain ⟨rt, hrt, h⟩ := Option.bind_eq_some_iff.mp h
  obtain ⟨lt, hlt, h⟩ := Option.bind_eq_some_iff.mp h
  split at h
  case isFalse => cases h
  obtain ⟨barray, hbarray, h⟩ := Option.bind_eq_some_iff.mp h
  split at h
  case isFalse => cases h
  rename_i hverify
  obtain rfl := Option.some.inj h
  obtain ⟨hlids, hlsize, -⟩ := StateTable.build_spec hlt
  obtain ⟨hrids, hrsize, -⟩ := StateTable.build_spec hrt
  rw [length_reduceLeft hlt₀] at hlsize
  rw [length_reduceRight hrt₀] at hrsize
  -- the image has room for every pair of classes
  have hroom : lt.compressedSize * rt.compressedSize ≤ barray.array.length * 8 := by
    have hlt' : lt.compressedSize * rt.compressedSize < 2 ^ 32 := by
      have := Nat.mul_le_mul (Nat.le_of_lt hlsize) (Nat.le_of_lt hrsize)
      omega
    rw [BitArray.length_array, makeBitarray_spec hbarray, Nat.mod_eq_of_lt hlt',
      Nat.shiftRight_eq_div_pow]
    omega
  refine ⟨hsize, array, _, harray, if_pos hroom, ?_⟩
  intro rid hrid lid hlid
  have hcell := List.all_eq_true.mp (Bool.and_eq_true _ _ ▸ hverify).1 (rid, lid)
    (mem_cells.mpr ⟨hrid, hlid⟩)
  replace hcell : verifyCell lsize array lt rt barray rid lid = true := hcell
  rw [verifyCell] at hcell
  split at hcell
  case h_2 => cases hcell
  rename_i cindex value hcindex hvalue
  refine ⟨value, hvalue, ?_⟩
  obtain ⟨l, hl, hcindex⟩ := Option.bind_eq_some_iff.mp hcindex
  obtain ⟨r, hr, hcindex⟩ := Option.bind_eq_some_iff.mp hcindex
  obtain rfl := Option.some.inj hcindex
  rw [beq_iff_eq] at hcell
  rw [Segmenter.isBoundary, StateTable.getElem?_spanOfU16_output hlids hl,
    StateTable.getElem?_spanOfU16_output hrids hr]
  show BitArray.getValue barray.array ((l + lt.compressedSize * r) % 2 ^ 32) = _
  rw [BitArray.getValue_array, hcell]

/-! ## The flat array -/

section

variable {lsize rsize : Nat} {isBoundary : UInt16 → UInt16 → Bool}

theorem cellIndex_of_lt (hsize : (lsize + 1) * (rsize + 1) < 2 ^ 31) {rid lid : Nat}
    (hrid : rid ≤ lsize) (hlid : lid ≤ rsize) : cellIndex lsize rid lid = rid + lsize * lid := by
  refine Nat.mod_eq_of_lt ?_
  have hmul : lsize * lid ≤ lsize * rsize := Nat.mul_le_mul_left _ hlid
  have hexpand : (lsize + 1) * (rsize + 1) = lsize * rsize + rsize + lsize + 1 := by
    rw [Nat.add_mul, Nat.mul_add]
    omega
  omega

theorem eq_of_index_eq {rid lid rid' lid' : Nat} (hrid : rid < lsize) (hrid' : rid' < lsize)
    (h : rid + lsize * lid = rid' + lsize * lid') : rid = rid' ∧ lid = lid' := by
  have hmod := congrArg (· % lsize) h
  have hdiv := congrArg (· / lsize) h
  simp only [Nat.add_mul_mod_self_left, Nat.mod_eq_of_lt hrid, Nat.mod_eq_of_lt hrid'] at hmod
  simp only [Nat.add_mul_div_left _ _ (Nat.zero_lt_of_lt hrid), Nat.div_eq_of_lt hrid,
    Nat.div_eq_of_lt hrid', Nat.zero_add] at hdiv
  exact ⟨hmod, hdiv⟩

/-- The write of a cell. -/
def cellWrite (lsize rsize : Nat) (isBoundary : UInt16 → UInt16 → Bool) (c : Nat × Nat) :
    Nat × UInt8 :=
  (cellIndex lsize c.1 c.2, cellValue lsize rsize isBoundary c.1 c.2)

theorem cells_eq : cells lsize rsize
    = (List.range lsize) ×ˢ (List.range (rsize + 1))
      ++ (List.range (rsize + 1)).map (fun lid => (lsize, lid)) := by
  rw [cells, @List.range_succ lsize, List.flatMap_append, List.flatMap_singleton]
  rfl

/-- **THE FLAT ARRAY**: a cell holds its value, unless it is the first of a later column;
    that one was overwritten by the border. -/
theorem getElem?_loadArray (hsize : (lsize + 1) * (rsize + 1) < 2 ^ 31) {array : Bytes}
    (h : loadArray lsize rsize isBoundary = some array) {rid lid : Nat} (hrid : rid < lsize)
    (hlid : lid ≤ rsize) :
    array[cellIndex lsize rid lid]?
      = some (if rid = 0 ∧ 0 < lid then 1 else cellValue lsize rsize isBoundary rid lid) := by
  have hpos : 0 < lsize := Nat.zero_lt_of_lt hrid
  rw [loadArray, cells_eq, List.map_append] at h
  obtain ⟨inner, hinner, hborder⟩ := writeAll_append.mp h
  have hindex : cellIndex lsize rid lid = rid + lsize * lid :=
    cellIndex_of_lt hsize (Nat.le_of_lt hrid) hlid
  have hborderIndex : ∀ {lid'}, lid' < rsize + 1 →
      cellIndex lsize lsize lid' = lsize + lsize * lid' := fun hlid' =>
    cellIndex_of_lt hsize (Nat.le_refl _) (Nat.le_of_lt_succ hlid')
  by_cases hfirst : rid = 0 ∧ 0 < lid
  · -- the border cell behind the column before is written later, to the same index
    rw [if_pos hfirst]
    obtain ⟨rfl, hlidPos⟩ := hfirst
    have hmem : lid - 1 < rsize + 1 := by omega
    have hsame : cellIndex lsize 0 lid = cellIndex lsize lsize (lid - 1) := by
      rw [hindex, hborderIndex hmem, Nat.zero_add, Nat.add_comm, ← Nat.mul_succ]
      congr 1
      omega
    rw [hsame]
    refine getElem?_writeAll_of_nodup hborder ?_
      (w := (cellIndex lsize lsize (lid - 1), 1)) ?_
    · rw [List.map_map, List.map_map]
      refine List.Nodup.map_on ?_ List.nodup_range
      intro a ha b hb hab
      replace hab : cellIndex lsize lsize a = cellIndex lsize lsize b := hab
      rw [hborderIndex (List.mem_range.mp ha), hborderIndex (List.mem_range.mp hb)] at hab
      exact Nat.eq_of_mul_eq_mul_left hpos (Nat.add_left_cancel hab)
    · rw [List.map_map]
      refine List.mem_map.mpr ⟨lid - 1, List.mem_range.mpr hmem, ?_⟩
      show (_, cellValue lsize rsize isBoundary lsize (lid - 1)) = _
      rw [cellValue, if_pos (Or.inl rfl)]
  · rw [if_neg hfirst]
    have hunwritten : ∀ w ∈ ((List.range (rsize + 1)).map fun lid => (lsize, lid)).map
        (cellWrite lsize rsize isBoundary), w.1 ≠ cellIndex lsize rid lid := by
      intro w hw heq
      rw [List.map_map] at hw
      obtain ⟨lid', hlid', rfl⟩ := List.mem_map.mp hw
      replace heq : cellIndex lsize lsize lid' = cellIndex lsize rid lid := heq
      rw [hborderIndex (List.mem_range.mp hlid'), hindex, Nat.add_comm, ← Nat.mul_succ] at heq
      obtain ⟨rfl, rfl⟩ := eq_of_index_eq hpos hrid ((Nat.zero_add _).trans heq)
      exact hfirst ⟨rfl, Nat.succ_pos _⟩
    rw [getElem?_writeAll_of_unwritten hborder hunwritten]
    refine getElem?_writeAll_of_nodup hinner ?_
      (w := cellWrite lsize rsize isBoundary (rid, lid)) ?_
    · rw [List.map_map]
      refine List.Nodup.map_on ?_ (List.Nodup.product List.nodup_range List.nodup_range)
      rintro ⟨a, b⟩ hab ⟨c, d⟩ hcd heq
      obtain ⟨ha, hb⟩ := List.mem_product.mp hab
      obtain ⟨hc, hd⟩ := List.mem_product.mp hcd
      rw [List.mem_range] at ha hb hc hd
      replace heq : cellIndex lsize a b = cellIndex lsize c d := heq
      rw [cellIndex_of_lt hsize (Nat.le_of_lt ha) (Nat.le_of_lt_succ hb),
        cellIndex_of_lt hsize (Nat.le_of_lt hc) (Nat.le_of_lt_succ hd)] at heq
      obtain ⟨rfl, rfl⟩ := eq_of_index_eq ha hc heq
      rfl
    · exact List.mem_map_of_mem (List.mem_product.mpr
        ⟨List.mem_range.mpr hrid, List.mem_range.mpr (Nat.lt_succ_of_le hlid)⟩)

end

/-! ## The segmenter against the predicate -/

/-- The first row reads as all boundaries behind its first cell. -/
theorem isBoundary_of_generate {lsize rsize : Nat} {isBoundary : UInt16 → UInt16 → Bool}
    {data : SegmenterData} (h : generateBitarray lsize rsize isBoundary = some data) :
    ∃ segmenter, Segmenter.create data = some segmenter ∧
      ∀ rid < lsize, ∀ lid < rsize,
        segmenter.isBoundary (UInt16.ofNat rid) (UInt16.ofNat lid)
          = some ((rid = 0 ∧ 0 < lid) || isBoundary (UInt16.ofNat rid) (UInt16.ofNat lid)) := by
  obtain ⟨hsize, array, segmenter, harray, hcreate, hcells⟩ := generateBitarray_verified h
  refine ⟨segmenter, hcreate, ?_⟩
  intro rid hrid lid hlid
  obtain ⟨value, hvalue, hanswer⟩ := hcells rid (Nat.le_of_lt hrid) lid (Nat.le_of_lt hlid)
  rw [getElem?_loadArray hsize harray hrid (Nat.le_of_lt hlid)] at hvalue
  rw [hanswer, ← Option.some.inj hvalue]
  by_cases hfirst : rid = 0 ∧ 0 < lid
  · rw [if_pos hfirst, decide_eq_true hfirst, Bool.true_or]
    rfl
  · rw [if_neg hfirst, decide_eq_false hfirst, Bool.false_or, cellValue,
      if_neg (by rintro (h | h) <;> omega)]
    cases isBoundary (UInt16.ofNat rid) (UInt16.ofNat lid) <;> rfl

/-- **THE COMPRESSED TABLE AGREES WITH THE PREDICATE** exactly when the predicate is true on
    its first row, behind the first cell. -/
theorem segmenter_faithful_iff (lsize rsize : Nat) (isBoundary : UInt16 → UInt16 → Bool)
    (hl : 1 ≤ lsize) (_hr : 1 ≤ rsize) (data : SegmenterData)
    (h : generateBitarray lsize rsize isBoundary = some data) :
    ∃ segmenter, Segmenter.create data = some segmenter ∧
      ((∀ rid < lsize, ∀ lid < rsize,
          segmenter.isBoundary (UInt16.ofNat rid) (UInt16.ofNat lid)
            = some (isBoundary (UInt16.ofNat rid) (UInt16.ofNat lid))) ↔
        ∀ lid < rsize, 0 < lid → isBoundary 0 (UInt16.ofNat lid) = true) := by
  obtain ⟨segmenter, hcreate, hanswer⟩ := isBoundary_of_generate h
  refine ⟨segmenter, hcreate, ?_⟩
  constructor
  · intro hfaithful lid hlid hpos
    have hrow := hfaithful 0 hl lid hlid
    rw [hanswer 0 hl lid hlid, decide_eq_true ⟨rfl, hpos⟩, Bool.true_or] at hrow
    exact (Option.some.inj hrow).symm
  · intro htrue rid hrid lid hlid
    rw [hanswer rid hrid lid hlid]
    by_cases hfirst : rid = 0 ∧ 0 < lid
    · obtain ⟨rfl, hpos⟩ := hfirst
      show some (_ || isBoundary 0 (UInt16.ofNat lid)) = some (isBoundary 0 (UInt16.ofNat lid))
      rw [htrue lid hlid hpos, Bool.or_true]
    · rw [decide_eq_false hfirst, Bool.false_or]

/-- A predicate that is true on the first row is kept. -/
theorem segmenter_faithful_equal :
    ∃ data, generateBitarray 2 2 (fun rid _ => rid == 0) = some data ∧
      ∃ segmenter, Segmenter.create data = some segmenter ∧
        ∀ rid < 2, ∀ lid < 2,
          segmenter.isBoundary (UInt16.ofNat rid) (UInt16.ofNat lid)
            = some (UInt16.ofNat rid == 0) := by
  have h : (generateBitarray 2 2 (fun rid _ => rid == 0)).isSome = true := by decide +kernel
  obtain ⟨data, hdata⟩ := Option.isSome_iff_exists.mp h
  obtain ⟨segmenter, hcreate, hiff⟩ :=
    segmenter_faithful_iff 2 2 (fun rid _ => rid == 0) (by decide) (by decide) data hdata
  exact ⟨data, hdata, segmenter, hcreate, hiff.mpr fun _ _ _ => rfl⟩

/-- A predicate that is true for the first pair of ids alone: the segmenter also puts a
    boundary behind id 0 in front of id 1. -/
theorem segmenter_not_faithful :
    ¬ ∀ (lsize rsize : Nat) (isBoundary : UInt16 → UInt16 → Bool), 1 ≤ lsize → 1 ≤ rsize →
      ∀ data, generateBitarray lsize rsize isBoundary = some data →
        ∃ segmenter, Segmenter.create data = some segmenter ∧
          ∀ rid < lsize, ∀ lid < rsize,
            segmenter.isBoundary (UInt16.ofNat rid) (UInt16.ofNat lid)
              = some (isBoundary (UInt16.ofNat rid) (UInt16.ofNat lid)) := by
  intro hall
  have h : ((generateBitarray 2 2 (fun rid lid => rid == 0 && lid == 0)).bind
      fun data => (Segmenter.create data).bind fun segmenter => segmenter.isBoundary 0 1)
      = some true := by decide +kernel
  obtain ⟨data, hdata, h⟩ := Option.bind_eq_some_iff.mp h
  obtain ⟨segmenter, hcreate, h⟩ := Option.bind_eq_some_iff.mp h
  obtain ⟨segmenter', hcreate', hfaithful⟩ :=
    hall 2 2 (fun rid lid => rid == 0 && lid == 0) (by decide) (by decide) data hdata
  rw [hcreate] at hcreate'
  obtain rfl := Option.some.inj hcreate'
  have hcell := hfaithful 0 (by decide) 1 (by decide)
  replace hcell : segmenter.isBoundary 0 1 = some false := hcell
  rw [h] at hcell
  cases hcell

end MozkeySegmenter
