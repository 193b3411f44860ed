import Mozkey.SegmenterTableProofs

/-! # ExistenceFilter — a Bloom filter in blocks, saved and read back

    The bits of a filter lie in blocks of 2^21, the last one rounded up to whole words.  The
    builder allocates the blocks, the reader cuts them out of the words of a file; both take
    their number and the size of the last from `BlockDimensions`. -/

namespace MozkeyExistenceFilter

open ByteString LittleEndian WordArray

/-! ## Blocks -/

/-- A block has `2 ^ 21` bits. -/
def kBlockShift : Nat := 21
def kBlockMask : BitVec 32 := 2097151#32

/-- The words of a block. -/
def kBlockWords : Nat := 65536

/-- How many blocks there are, and how long the last one is. -/
structure BlockDimensions where
  count : BitVec 32
  lastSize : BitVec 32

/-- `BlockDimensions(uint32_t bits)`. -/
def BlockDimensions.ofBits (bits : BitVec 32) : BlockDimensions :=
  if bits &&& kBlockMask ≠ 0#32 then
    ⟨(bits >>> kBlockShift) + 1#32, ((bits &&& kBlockMask) + 31#32) / 32#32⟩
  else ⟨bits >>> kBlockShift, BitVec.ofNat 32 kBlockWords⟩

/-- The blocks, of words. -/
abbrev Blocks := List (List (BitVec 32))

/-- The loop of `BlockBitmap`: the full blocks and the rest of the buffer, `none` where
    `remove_prefix` would remove more than there is. -/
def takeBlocks : Nat → List (BitVec 32) → Option (Blocks × List (BitVec 32))
  | 0, buf => some ([], buf)
  | n + 1, buf =>
    if buf.length < kBlockWords then none
    else (takeBlocks n (buf.drop kBlockWords)).map
      (fun taken => (buf.take kBlockWords :: taken.1, taken.2))

/-- `BlockBitmap(size, buf)`; `count - 1` is unsigned. -/
def blockBitmap (size : BitVec 32) (buf : List (BitVec 32)) : Option Blocks :=
  let dimensions := BlockDimensions.ofBits size
  (takeBlocks (dimensions.count - 1#32).toNat buf).map
    (fun taken => taken.1 ++ [taken.2.take dimensions.lastSize.toNat])

/-- `BlockBitmapBuilder(size)`, `none` where a `CHECK` fails. -/
def blockBitmapBuilder (size : BitVec 32) : Option Blocks :=
  let dimensions := BlockDimensions.ofBits size
  if size = 0#32 then none
  else if dimensions.count = 0#32 then none
  else some (List.replicate (dimensions.count - 1#32).toNat (List.replicate kBlockWords 0#32) ++
    [List.replicate dimensions.lastSize.toNat 0#32])

/-- `Get`; `none` where a block or a word is not there. -/
def get (blocks : Blocks) (index : BitVec 32) : Option Bool :=
  let bindex := index >>> kBlockShift
  let windex := (index &&& kBlockMask) >>> 5
  let bitpos := index &&& 31#32
  match blocks[bindex.toNat]? with
  | none => none
  | some block =>
    block[windex.toNat]?.map (fun word : BitVec 32 => (word >>> bitpos.toNat) &&& 1#32 != 0#32)

/-- A bit is set. -/
def set (blocks : Blocks) (index : BitVec 32) : Option Blocks :=
  let bindex := index >>> kBlockShift
  let windex := (index &&& kBlockMask) >>> 5
  let bitpos := index &&& 31#32
  match blocks[bindex.toNat]? with
  | none => none
  | some block =>
    if windex.toNat < block.length then
      some (blocks.set bindex.toNat (block.modify windex.toNat (· ||| (1#32 <<< bitpos.toNat))))
    else none

/-! ## The filter -/

/-- `ExistenceFilterParams`. -/
structure ExistenceFilterParams where
  size : BitVec 32
  expectedNelts : BitVec 32
  numHashes : BitVec 16
  fpType : BitVec 16

/-- The only type of fingerprints there is. -/
abbrev fpTypeSize : Nat := 2

/-- The words of the header. -/
def kHeaderSize : BitVec 32 := 3#32

/-- The sizes and the parameters in front of the words. -/
def readHeader (buf : List (BitVec 32)) : Except String ExistenceFilterParams :=
  match buf with
  | size :: expectedNelts :: v :: _ =>
    let params : ExistenceFilterParams :=
      ⟨size, expectedNelts, (v &&& 0xFFFF#32).setWidth 16, (v >>> 16).setWidth 16⟩
    if params.numHashes.toNat ≥ 8 ∨ params.numHashes.toNat ≤ 0 then
      .error "Bad number of hashes (header.k)"
    else if params.fpType.toNat ≥ fpTypeSize then .error "unsupported fp type"
    else .ok params
  | _ => .error "Not enough bufsize: could not read header"

/-- Words of 32 bits for so many bits. -/
def bitsToWords (bits : BitVec 32) : BitVec 32 :=
  let words := (bits + 31#32) >>> 5
  if bits ≠ 0#32 ∧ words = 0#32 then 1#32 <<< (32 - 5) else words

/-- The parameters and the bits. -/
structure ExistenceFilter where
  params : ExistenceFilterParams
  rep : Blocks

/-- `Read` of a buffer of words. -/
def read (buf : List (BitVec 32)) : Option (Except String ExistenceFilter) :=
  match readHeader buf with
  | .error _ => some (.error "Invalid format: could not read header")
  | .ok params =>
    let buf := buf.drop kHeaderSize.toNat
    if buf.length < (bitsToWords params.size).toNat then
      some (.error "Not enough bufsize: could not read")
    else (blockBitmap params.size buf).map (fun rep => .ok ⟨params, rep⟩)

/-- The index of a rotated hash, `none` for a modulus of zero. -/
def indexOf (size : BitVec 32) (hash : BitVec 64) : Option (BitVec 32) :=
  if size = 0#32 then none else some ((hash % size.setWidth 64).setWidth 32)

/-- The loop of `Exists` with `n` rounds to go. -/
def existsFrom (filter : ExistenceFilter) : Nat → BitVec 64 → Option Bool
  | 0, _ => some true
  | n + 1, hash =>
    match (indexOf filter.params.size (hash.rotateLeft 8)).bind (get filter.rep) with
    | none => none
    | some false => some false
    | some true => existsFrom filter n (hash.rotateLeft 8)

/-- `Exists(uint64_t hash)`. -/
def ExistenceFilter.existsHash (filter : ExistenceFilter) (hash : BitVec 64) : Option Bool :=
  existsFrom filter filter.params.numHashes.toNat hash

/-! ## The builder -/

/-- The parameters and the bits that are being set. -/
structure ExistenceFilterBuilder where
  params : ExistenceFilterParams
  rep : Blocks

/-- `ExistenceFilterBuilder(params)`. -/
def ExistenceFilterBuilder.ofParams (params : ExistenceFilterParams) :
    Option ExistenceFilterBuilder :=
  (blockBitmapBuilder params.size).map (fun rep => ⟨params, rep⟩)

/-- The loop of `Insert` with `n` rounds to go. -/
def insertFrom (size : BitVec 32) : Nat → BitVec 64 → Blocks → Option Blocks
  | 0, _, blocks => some blocks
  | n + 1, hash, blocks =>
    ((indexOf size (hash.rotateLeft 8)).bind (set blocks)).bind
      (insertFrom size n (hash.rotateLeft 8))

/-- `Insert(uint64_t hash)`. -/
def ExistenceFilterBuilder.insert (builder : ExistenceFilterBuilder) (hash : BitVec 64) :
    Option ExistenceFilterBuilder :=
  (insertFrom builder.params.size builder.params.numHashes.toNat hash builder.rep).map
    (fun rep => { builder with rep := rep })

/-- The hashes are inserted one by one. -/
def ExistenceFilterBuilder.insertAll (builder : ExistenceFilterBuilder)
    (hashes : List (BitVec 64)) : Option ExistenceFilterBuilder :=
  hashes.foldlM ExistenceFilterBuilder.insert builder

/-- The bytes that are written. -/
def requiredBytes (params : ExistenceFilterParams) : Nat :=
  (kHeaderSize + bitsToWords params.size).toNat * 4

/-- What `SerializeAsString` writes. -/
def ExistenceFilterBuilder.written (builder : ExistenceFilterBuilder) : Bytes :=
  storeLE 4 builder.params.size.toNat ++ storeLE 4 builder.params.expectedNelts.toNat ++
    storeLE 2 builder.params.numHashes.toNat ++ storeLE 2 builder.params.fpType.toNat ++
      storeWords 4 (builder.rep.flatten.map BitVec.toNat)

/-- `SerializeAsString`: the buffer has its computed size, `none` where more is written. -/
def ExistenceFilterBuilder.serializeAsString (builder : ExistenceFilterBuilder) : Option Bytes :=
  if requiredBytes builder.params < builder.written.length then none
  else some (builder.written ++
    List.replicate (requiredBytes builder.params - builder.written.length) 0)

/-- `Build`. -/
def ExistenceFilterBuilder.build (builder : ExistenceFilterBuilder) : ExistenceFilter :=
  ⟨builder.params, builder.rep⟩

/-- The words of a string, on a little-endian machine. -/
def wordsOf (bytes : Bytes) : List (BitVec 32) :=
  (loadWords 4 (bytes.length / 4) bytes).map (BitVec.ofNat 32)

/-! ## Dimensions -/

theorem toNat_and_blockMask (bits : BitVec 32) :
    (bits &&& kBlockMask).toNat = bits.toNat % 2097152 := by
  rw [BitVec.toNat_and]
  exact Nat.and_two_pow_sub_one_eq_mod bits.toNat 21

theorem toNat_shiftRight_blockShift (bits : BitVec 32) :
    (bits >>> kBlockShift).toNat = bits.toNat / 2097152 := by
  rw [BitVec.toNat_ushiftRight, Nat.shiftRight_eq_div_pow]
  rfl

/-- **THE DIMENSIONS** of a size that is not zero: the blocks before the last, and the
    last. -/
theorem ofBits_spec {bits : BitVec 32} (h : bits ≠ 0#32) :
    (BlockDimensions.ofBits bits).count ≠ 0#32 ∧
      ((BlockDimensions.ofBits bits).count - 1#32).toNat = (bits.toNat - 1) / 2097152 ∧
        (BlockDimensions.ofBits bits).lastSize.toNat = (bits.toNat - 1) % 2097152 / 32 + 1 := by
  have hlt := bits.isLt
  have hpos : bits.toNat ≠ 0 := fun hzero => h (BitVec.eq_of_toNat_eq hzero)
  have hmask := toNat_and_blockMask bits
  have hshift := toNat_shiftRight_blockShift bits
  rw [BlockDimensions.ofBits]
  split_ifs with hrest
  · -- the last block is not full
    have hne : bits.toNat % 2097152 ≠ 0 := by
      rw [← hmask]
      exact fun hzero => hrest (BitVec.eq_of_toNat_eq hzero)
    have hcount : ((bits >>> kBlockShift) + 1#32).toNat = bits.toNat / 2097152 + 1 := by
      rw [BitVec.toNat_add, hshift]
      simp
      omega
    have hlast : ((bits &&& kBlockMask) + 31#32).toNat = bits.toNat % 2097152 + 31 := by
      rw [BitVec.toNat_add, hmask]
      simp
      omega
    refine ⟨?_, ?_, ?_⟩
    · intro hzero
      have hzero := congrArg BitVec.toNat hzero
      dsimp only at hzero
      rw [hcount] at hzero
      simp at hzero
    · rw [BitVec.toNat_sub, hcount]
      simp
      omega
    · rw [BitVec.toNat_udiv, hlast]
      simp
      omega
  · have hzero : bits.toNat % 2097152 = 0 := by
      rw [← hmask, not_not.mp hrest]
      rfl
    refine ⟨?_, ?_, ?_⟩
    · intro hcount
      have hcount := congrArg BitVec.toNat hcount
      dsimp only at hcount
      rw [hshift] at hcount
      simp at hcount
      omega
    · rw [BitVec.toNat_sub, hshift]
      simp
      omega
    · simp [kBlockWords]
      omega

theorem toNat_bitsToWords (bits : BitVec 32) :
    (bitsToWords bits).toNat = (bits.toNat + 31) / 32 := by
  have hlt := bits.isLt
  have hwords : ((bits + 31#32) >>> 5).toNat = (bits.toNat + 31) % 4294967296 / 32 := by
    rw [BitVec.toNat_ushiftRight, Nat.shiftRight_eq_div_pow, BitVec.toNat_add]
    rfl
  rw [bitsToWords]
  split_ifs with hwrap
  · -- the sum has wrapped
    obtain ⟨hpos, hzero⟩ := hwrap
    have hne : bits.toNat ≠ 0 := fun hz => hpos (BitVec.eq_of_toNat_eq hz)
    rw [hzero] at hwords
    simp at hwords
    simp
    omega
  · rw [hwords]
    rw [not_and_or, not_not] at hwrap
    rcases hwrap with rfl | hne
    · rfl
    · have hne : (bits.toNat + 31) % 4294967296 / 32 ≠ 0 := by
        rw [← hwords]
        exact fun hz => hne (BitVec.eq_of_toNat_eq hz)
      omega

/-! ## The shape of the blocks -/

/-- The lengths of the blocks of a size. -/
def blockLengths (size : BitVec 32) : List Nat :=
  List.replicate ((size.toNat - 1) / 2097152) kBlockWords ++
    [(size.toNat - 1) % 2097152 / 32 + 1]

/-- Blocks as the dimensions of a size ask for. -/
def Shape (size : BitVec 32) (blocks : Blocks) : Prop :=
  blocks.map List.length = blockLengths size

variable {size index : BitVec 32}

theorem getElem?_blockLengths (h : index.toNat < size.toNat) :
    ∃ n, (blockLengths size)[index.toNat / 2097152]? = some n ∧
      index.toNat % 2097152 / 32 < n := by
  rw [blockLengths]
  by_cases hfull : index.toNat / 2097152 < (size.toNat - 1) / 2097152
  · refine ⟨kBlockWords, ?_, ?_⟩
    · rw [List.getElem?_append_left (by rw [List.length_replicate]; exact hfull),
        List.getElem?_replicate, if_pos hfull]
    · rw [kBlockWords]
      omega
  · have hlast : index.toNat / 2097152 = (size.toNat - 1) / 2097152 := by omega
    refine ⟨(size.toNat - 1) % 2097152 / 32 + 1, ?_, ?_⟩
    · rw [List.getElem?_append_right (by rw [List.length_replicate]; omega),
        List.length_replicate, hlast, Nat.sub_self, List.getElem?_cons_zero]
    · omega

variable {blocks : Blocks}

theorem exists_word (hshape : Shape size blocks) (h : index.toNat < size.toNat) :
    ∃ block word, blocks[index.toNat / 2097152]? = some block ∧
      block[index.toNat % 2097152 / 32]? = some word := by
  obtain ⟨n, hn, hlt⟩ := getElem?_blockLengths h
  rw [← show blocks.map List.length = blockLengths size from hshape, List.getElem?_map] at hn
  obtain ⟨block, hblock, rfl⟩ := Option.map_eq_some_iff.mp hn
  exact ⟨block, _, hblock, List.getElem?_eq_getElem hlt⟩

theorem length_flatten_of_shape (hsize : size ≠ 0#32) (hshape : Shape size blocks) :
    blocks.flatten.length = (bitsToWords size).toNat := by
  have hpos : size.toNat ≠ 0 := fun hzero => hsize (BitVec.eq_of_toNat_eq hzero)
  rw [List.length_flatten, show blocks.map List.length = blockLengths size from hshape,
    blockLengths, List.sum_append, List.sum_replicate, toNat_bitsToWords, kBlockWords,
    List.sum_singleton, smul_eq_mul]
  omega

/-! ## Cutting blocks out of a buffer -/

theorem takeBlocks_spec : ∀ (n : Nat) (buf : List (BitVec 32)), n * kBlockWords ≤ buf.length →
    ∃ blocks rest, takeBlocks n buf = some (blocks, rest) ∧
      blocks.map List.length = List.replicate n kBlockWords ∧
        rest.length = buf.length - n * kBlockWords ∧ blocks.flatten ++ rest = buf := by
  intro n
  induction n with
  | zero =>
    intro buf _
    exact ⟨[], buf, rfl, rfl, by rw [Nat.zero_mul, Nat.sub_zero], rfl⟩
  | succ n ih =>
    intro buf h
    rw [Nat.succ_mul] at h
    obtain ⟨blocks, rest, htake, hlengths, hrest, hall⟩ := ih (buf.drop kBlockWords)
      (by rw [List.length_drop]; omega)
    refine ⟨buf.take kBlockWords :: blocks, rest, ?_, ?_, ?_, ?_⟩
    · rw [takeBlocks, if_neg (by omega), htake]
      rfl
    · rw [List.map_cons, hlengths, List.length_take, Nat.min_eq_left (by omega),
        List.replicate_succ]
    · rw [hrest, List.length_drop, Nat.succ_mul]
      omega
    · rw [List.flatten_cons, List.append_assoc, hall, List.take_append_drop]

theorem takeBlocks_flatten : ∀ {n : Nat} {blocks : Blocks} (rest : List (BitVec 32)),
    blocks.map List.length = List.replicate n kBlockWords →
      takeBlocks n (blocks.flatten ++ rest) = some (blocks, rest) := by
  intro n
  induction n with
  | zero =>
    intro blocks rest h
    obtain rfl := List.map_eq_nil_iff.mp h
    rfl
  | succ n ih =>
    intro blocks rest h
    cases blocks with
    | nil =>
      rw [List.replicate_succ] at h
      exact absurd h.symm (List.cons_ne_nil _ _)
    | cons block blocks =>
      rw [List.map_cons, List.replicate_succ] at h
      obtain ⟨hblock, hblocks⟩ := List.cons.inj h
      rw [takeBlocks, List.flatten_cons, List.append_assoc, List.drop_left' hblock,
        List.take_left' hblock, ih rest hblocks, if_neg]
      · rfl
      · rw [List.length_append]
        omega

variable {buf : List (BitVec 32)}

/-- **READING**: a buffer with enough words gives blocks of the right shape. -/
theorem shape_blockBitmap (hsize : size ≠ 0#32) (hlen : (bitsToWords size).toNat ≤ buf.length) :
    ∃ blocks, blockBitmap size buf = some blocks ∧ Shape size blocks ∧
      blocks.flatten <+: buf := by
  obtain ⟨-, hcount, hlast⟩ := ofBits_spec hsize
  have hpos : size.toNat ≠ 0 := fun hzero => hsize (BitVec.eq_of_toNat_eq hzero)
  rw [toNat_bitsToWords] at hlen
  obtain ⟨blocks, rest, htake, hlengths, hrest, hall⟩ :=
    takeBlocks_spec ((size.toNat - 1) / 2097152) buf (by rw [kBlockWords]; omega)
  rw [kBlockWords] at hrest
  refine ⟨blocks ++ [rest.take ((size.toNat - 1) % 2097152 / 32 + 1)], ?_, ?_, ?_⟩
  · rw [blockBitmap, hcount, hlast, htake]
    rfl
  · rw [Shape, List.map_append, hlengths, List.map_singleton, List.length_take,
      Nat.min_eq_left (by omega), blockLengths]
  · rw [← hall, List.flatten_append, List.flatten_singleton]
    refine (List.prefix_append_right_inj _).mpr ?_
    exact List.take_prefix _ _

/-- **CUTTING THE BLOCKS OUT AGAIN**: the words of the blocks give the blocks. -/
theorem blockBitmap_flatten (hsize : size ≠ 0#32) (hshape : Shape size blocks) :
    blockBitmap size blocks.flatten = some blocks := by
  obtain ⟨-, hcount, hlast⟩ := ofBits_spec hsize
  rw [Shape, blockLengths] at hshape
  obtain ⟨full, last, rfl, hfull, hlength⟩ := List.map_eq_append_iff.mp hshape
  obtain ⟨block, rfl, hblock⟩ := List.map_eq_singleton_iff.mp hlength
  rw [blockBitmap, hcount, hlast, List.flatten_append, List.flatten_singleton,
    takeBlocks_flatten _ hfull, Option.map_some, ← hblock, List.take_length]

/-- **ALLOCATING** the blocks of a size. -/
theorem shape_blockBitmapBuilder (hsize : size ≠ 0#32) :
    ∃ blocks, blockBitmapBuilder size = some blocks ∧ Shape size blocks ∧
      ∀ block ∈ blocks, ∀ word ∈ block, word = 0#32 := by
  obtain ⟨hpos, hcount, hlast⟩ := ofBits_spec hsize
  refine ⟨_, by rw [blockBitmapBuilder, if_neg hsize, if_neg hpos], ?_, ?_⟩
  · rw [Shape, List.map_append, List.map_replicate, List.map_singleton, List.length_replicate,
      List.length_replicate, hcount, hlast, blockLengths]
  · intro block hblock word hword
    rcases List.mem_append.mp hblock with hfull | hlastblock
    · rw [List.eq_of_mem_replicate hfull] at hword
      exact List.eq_of_mem_replicate hword
    · rw [List.mem_singleton.mp hlastblock] at hword
      exact List.eq_of_mem_replicate hword

/-! ## Probes -/

/-- The indices that a hash touches. -/
def probes (size : BitVec 32) : Nat → BitVec 64 → List (BitVec 32)
  | 0, _ => []
  | n + 1, hash =>
    (hash.rotateLeft 8 % size.setWidth 64).setWidth 32 :: probes size n (hash.rotateLeft 8)

theorem toNat_index_lt (hsize : size ≠ 0#32) (hash : BitVec 64) :
    ((hash % size.setWidth 64).setWidth 32).toNat < size.toNat := by
  have hlt := size.isLt
  have hpos : size.toNat ≠ 0 := fun hzero => hsize (BitVec.eq_of_toNat_eq hzero)
  have hmod : hash.toNat % size.toNat < size.toNat := Nat.mod_lt _ (Nat.pos_of_ne_zero hpos)
  rw [BitVec.toNat_setWidth, BitVec.toNat_umod, BitVec.toNat_setWidth,
    Nat.mod_eq_of_lt (show size.toNat < 2 ^ 64 by omega)]
  omega

theorem toNat_lt_of_mem_probes (hsize : size ≠ 0#32) : ∀ {n : Nat}
    {hash : BitVec 64} {index : BitVec 32}, index ∈ probes size n hash →
      index.toNat < size.toNat := by
  intro n
  induction n with
  | zero =>
    intro hash index h
    exact absurd h List.not_mem_nil
  | succ n ih =>
    intro hash index h
    rcases List.mem_cons.mp h with rfl | h
    · exact toNat_index_lt hsize _
    · exact ih h

theorem get_eq (blocks : Blocks) (index : BitVec 32) :
    get blocks index = (blocks[index.toNat / 2097152]?).bind (fun block =>
      (block[index.toNat % 2097152 / 32]?).map (fun word : BitVec 32 =>
        word.toNat.testBit (index.toNat % 32))) := by
  have hwindex : ((index &&& kBlockMask) >>> 5).toNat = index.toNat % 2097152 / 32 := by
    rw [BitVec.toNat_ushiftRight, toNat_and_blockMask, Nat.shiftRight_eq_div_pow]
  have hbitpos : (index &&& 31#32).toNat = index.toNat % 32 := by
    rw [BitVec.toNat_and]
    exact Nat.and_two_pow_sub_one_eq_mod index.toNat 5
  rw [get, toNat_shiftRight_blockShift, hwindex, hbitpos]
  cases blocks[index.toNat / 2097152]? with
  | none => rfl
  | some block =>
    dsimp only
    rw [Option.bind_some]
    simp only [MozkeySegmenter.BitArray.bit_eq_testBit]

theorem exists_get (hshape : Shape size blocks) (h : index.toNat < size.toNat) :
    ∃ bit, get blocks index = some bit := by
  obtain ⟨block, word, hblock, hword⟩ := exists_word hshape h
  refine ⟨word.toNat.testBit (index.toNat % 32), ?_⟩
  rw [get_eq, hblock, Option.bind_some, hword, Option.map_some]

/-- **LOOKING UP**: every bit that the hash touches. -/
theorem existsFrom_eq {filter : ExistenceFilter} (hsize : filter.params.size ≠ 0#32)
    (hshape : Shape filter.params.size filter.rep) : ∀ (n : Nat) (hash : BitVec 64),
    existsFrom filter n hash = some ((probes filter.params.size n hash).all
      (fun index => get filter.rep index == some true)) := by
  intro n
  induction n with
  | zero => intro hash; rfl
  | succ n ih =>
    intro hash
    obtain ⟨bit, hbit⟩ := exists_get hshape (toNat_index_lt hsize (hash.rotateLeft 8))
    rw [existsFrom, indexOf, if_neg hsize, Option.bind_some, hbit, probes, List.all_cons, hbit]
    cases bit with
    | true =>
      dsimp only
      rw [ih, beq_self_eq_true, Bool.true_and]
    | false =>
      dsimp only
      rw [show (some false == some true) = false from rfl, Bool.false_and]

/-! ## What `Read` accepts -/

/-- A filter on which every operation is defined: the modulus is not zero, the indices below
    the size have their blocks and words, and `Exists` gives an answer for every hash. -/
structure Usable (filter : ExistenceFilter) : Prop where
  modulus : filter.params.size ≠ 0#32
  inRange : ∀ index : BitVec 32, index.toNat < filter.params.size.toNat →
    ∃ bit, get filter.rep index = some bit
  answers : ∀ hash, ∃ answer, filter.existsHash hash = some answer

theorem usable_of_shape {filter : ExistenceFilter} (hsize : filter.params.size ≠ 0#32)
    (hshape : Shape filter.params.size filter.rep) : Usable filter where
  modulus := hsize
  inRange _ h := exists_get hshape h
  answers hash := ⟨_, existsFrom_eq hsize hshape _ hash⟩

/-- `Read` ends, with an error or with a usable filter whose blocks lie in the buffer. -/
def ReadSafe (buf : List (BitVec 32)) : Prop :=
  ∃ result, read buf = some result ∧ ∀ filter, result = .ok filter →
    Usable filter ∧ filter.rep.flatten <+: buf.drop kHeaderSize.toNat

/-- A header that passes its checks with a size of zero. -/
def AcceptsZeroSize (buf : List (BitVec 32)) : Prop :=
  ∃ expectedNelts v rest, buf = 0#32 :: expectedNelts :: v :: rest ∧
    0 < (v &&& 0xFFFF#32).toNat ∧ (v &&& 0xFFFF#32).toNat < 8 ∧ (v >>> 16).toNat < fpTypeSize

variable {params : ExistenceFilterParams}

theorem readHeader_eq_ok :
    readHeader buf = .ok params ↔ ∃ size expectedNelts v rest,
      buf = size :: expectedNelts :: v :: rest ∧
        params = ⟨size, expectedNelts, (v &&& 0xFFFF#32).setWidth 16, (v >>> 16).setWidth 16⟩ ∧
          0 < params.numHashes.toNat ∧ params.numHashes.toNat < 8 ∧
            params.fpType.toNat < fpTypeSize := by
  constructor
  · intro h
    rw [readHeader.eq_def] at h
    split at h
    · rename_i size expectedNelts v rest
      dsimp only at h
      split_ifs at h with hhashes hfp
      obtain rfl := Except.ok.inj h
      refine ⟨size, expectedNelts, v, rest, rfl, rfl, ?_, ?_, ?_⟩
      · dsimp only
        omega
      · dsimp only
        omega
      · dsimp only
        omega
    · exact absurd h (by simp)
  · rintro ⟨size, expectedNelts, v, rest, rfl, rfl, hpos, hlt, hfp⟩
    rw [readHeader]
    dsimp only at hpos hlt hfp ⊢
    rw [if_neg (by omega), if_neg (by omega)]

theorem toNat_fields (v : BitVec 32) :
    ((v &&& 0xFFFF#32).setWidth 16).toNat = (v &&& 0xFFFF#32).toNat ∧
      ((v >>> 16).setWidth 16).toNat = (v >>> 16).toNat := by
  have hlt := v.isLt
  have hlow : (v &&& 0xFFFF#32).toNat = v.toNat % 65536 := by
    rw [BitVec.toNat_and]
    exact Nat.and_two_pow_sub_one_eq_mod v.toNat 16
  have hhigh : (v >>> 16).toNat = v.toNat / 65536 := by
    rw [BitVec.toNat_ushiftRight, Nat.shiftRight_eq_div_pow]
  constructor
  · rw [BitVec.toNat_setWidth, hlow]
    omega
  · rw [BitVec.toNat_setWidth, hhigh]
    omega

theorem not_readSafe_of_zero (h : AcceptsZeroSize buf) :
    ¬ ReadSafe buf := by
  obtain ⟨expectedNelts, v, rest, rfl, hpos, hlt, hfp⟩ := h
  obtain ⟨hlow, hhigh⟩ := toNat_fields v
  have hheader := readHeader_eq_ok.mpr ⟨0#32, expectedNelts, v, rest, rfl, rfl, by
    dsimp only
    omega, by
    dsimp only
    omega, by
    dsimp only
    omega⟩
  rintro ⟨result, hread, hsafe⟩
  rw [read, hheader] at hread
  dsimp only at hread
  rw [if_neg (by rw [toNat_bitsToWords]; simp)] at hread
  obtain ⟨rep, -, rfl⟩ := Option.map_eq_some_iff.mp hread
  exact (hsafe _ rfl).1.modulus rfl

/-- **READING A FILE**: it is safe unless the header passes with a size of zero. -/
theorem read_safe_iff (buf : List (BitVec 32)) : ReadSafe buf ↔ ¬ AcceptsZeroSize buf := by
  constructor
  · exact fun hsafe hzero => not_readSafe_of_zero hzero hsafe
  · intro hno
    rw [ReadSafe, read]
    cases hheader : readHeader buf with
    | error message => exact ⟨_, rfl, fun filter h => absurd h (by simp)⟩
    | ok params =>
      obtain ⟨size, expectedNelts, v, rest, rfl, rfl, hpos, hlt, hfp⟩ :=
        readHeader_eq_ok.mp hheader
      have hsize : size ≠ 0#32 := by
        rintro rfl
        obtain ⟨hlow, hhigh⟩ := toNat_fields v
        exact hno ⟨expectedNelts, v, rest, rfl, by rw [← hlow]; exact hpos,
          by rw [← hlow]; exact hlt, by rw [← hhigh]; exact hfp⟩
      dsimp only
      split_ifs with hlen
      · exact ⟨_, rfl, fun filter h => absurd h (by simp)⟩
      · obtain ⟨blocks, hblocks, hshape, hwords⟩ :=
          shape_blockBitmap hsize (Nat.le_of_not_lt hlen)
        refine ⟨_, by rw [hblocks]; rfl, fun filter h => ?_⟩
        obtain rfl := Except.ok.inj h
        exact ⟨usable_of_shape hsize hshape, hwords⟩

/-- A header with a size of zero. -/
theorem read_size_zero : ¬ ReadSafe [0#32, 0#32, 1#32] := by
  refine not_readSafe_of_zero ⟨0#32, 1#32, [], rfl, ?_⟩
  decide

/-! ## Inserting -/

theorem testBit_setBit (word : BitVec 32) {p : Nat} (hp : p < 32) (q : Nat) :
    (word ||| (1#32 <<< p)).toNat.testBit q = (word.toNat.testBit q || decide (p = q)) := by
  have hpow : (2 : Nat) ^ p < 2 ^ 32 := Nat.pow_lt_pow_right (by decide) hp
  have hone : (1#32 <<< p).toNat = 2 ^ p := by
    rw [BitVec.toNat_shiftLeft, Nat.shiftLeft_eq]
    show 1 * 2 ^ p % 2 ^ 32 = 2 ^ p
    rw [Nat.one_mul, Nat.mod_eq_of_lt hpow]
  rw [BitVec.toNat_or, Nat.testBit_or, hone, Nat.testBit_two_pow]

/-- **SETTING ONE BIT** adds that bit, and keeps the shape. -/
theorem set_spec (hshape : Shape size blocks) (h : index.toNat < size.toNat) :
    ∃ blocks', set blocks index = some blocks' ∧ Shape size blocks' ∧
      ∀ other, get blocks' other = (get blocks other).map (· || other == index) := by
  obtain ⟨block, word, hblock, hword⟩ := exists_word hshape h
  obtain ⟨hbindex, rfl⟩ := List.getElem?_eq_some_iff.mp hblock
  have hwindex : index.toNat % 2097152 / 32 < blocks[index.toNat / 2097152].length :=
    (List.getElem?_eq_some_iff.mp hword).1
  have hcoordinate : ((index &&& kBlockMask) >>> 5).toNat = index.toNat % 2097152 / 32 := by
    rw [BitVec.toNat_ushiftRight, toNat_and_blockMask, Nat.shiftRight_eq_div_pow]
  have hbitpos : (index &&& 31#32).toNat = index.toNat % 32 := by
    rw [BitVec.toNat_and]
    exact Nat.and_two_pow_sub_one_eq_mod index.toNat 5
  refine ⟨blocks.set (index.toNat / 2097152)
    (blocks[index.toNat / 2097152].modify (index.toNat % 2097152 / 32)
      (· ||| (1#32 <<< (index.toNat % 32)))), ?_, ?_, ?_⟩
  · rw [set, toNat_shiftRight_blockShift, hcoordinate, hbitpos, hblock]
    dsimp only
    rw [if_pos hwindex]
  · rw [Shape, List.map_set, List.length_modify, ← hshape,
      ← List.getElem_map List.length (h := by rw [List.length_map]; exact hbindex),
      List.set_getElem_self]
  · intro other
    rw [get_eq, get_eq, List.getElem?_set]
    split_ifs with hsame
    · -- the block of the bit
      rw [← hsame, hblock, Option.bind_some, Option.bind_some, List.getElem?_modify]
      cases hother : blocks[index.toNat / 2097152][other.toNat % 2097152 / 32]? with
      | none => rfl
      | some word' =>
        simp only [Option.map_eq_map, Option.map_some]
        congr 1
        have heq : other == index ↔ index.toNat % 2097152 / 32 = other.toNat % 2097152 / 32 ∧
            index.toNat % 32 = other.toNat % 32 := by
          rw [beq_iff_eq, ← BitVec.toNat_inj]
          omega
        split_ifs with hwords
        · rw [testBit_setBit word' (Nat.mod_lt _ (by decide))]
          congr 1
          rw [Bool.eq_iff_iff, decide_eq_true_iff, heq]
          exact ⟨fun hb => ⟨hwords, hb⟩, fun hb => hb.2⟩
        · have hne : (other == index) = false := by
            rw [← Bool.not_eq_true, heq]
            exact fun hb => hwords hb.1
          rw [hne, Bool.or_false]
    · have hne : (other == index) = false := by
        rw [beq_eq_false_iff_ne]
        rintro rfl
        exact hsame rfl
      rw [hne]
      simp

/-- **INSERTING** a hash adds the bits that it touches. -/
theorem insertFrom_spec (hsize : size ≠ 0#32) : ∀ (n : Nat)
    (hash : BitVec 64) {blocks : Blocks}, Shape size blocks →
      ∃ blocks', insertFrom size n hash blocks = some blocks' ∧ Shape size blocks' ∧
        ∀ index, get blocks' index
          = (get blocks index).map (· || (probes size n hash).contains index) := by
  intro n
  induction n with
  | zero =>
    intro hash blocks hshape
    refine ⟨blocks, rfl, hshape, fun index => ?_⟩
    simp [probes]
  | succ n ih =>
    intro hash blocks hshape
    obtain ⟨middle, hset, hmiddle, hbit⟩ :=
      set_spec hshape (toNat_index_lt hsize (hash.rotateLeft 8))
    obtain ⟨blocks', hinsert, hshape', hbits⟩ := ih (hash.rotateLeft 8) hmiddle
    refine ⟨blocks', ?_, hshape', fun index => ?_⟩
    · rw [insertFrom, indexOf, if_neg hsize, Option.bind_some, hset, Option.bind_some, hinsert]
    · rw [hbits, hbit, Option.map_map, probes]
      congr 1
      funext bit
      rw [List.contains_cons]
      exact Bool.or_assoc _ _ _

/-- The bits are those that the hashes touch. -/
theorem insertAll_spec : ∀ (hashes : List (BitVec 64)) {builder : ExistenceFilterBuilder},
    builder.params.size ≠ 0#32 → Shape builder.params.size builder.rep →
      ∃ builder', builder.insertAll hashes = some builder' ∧ builder'.params = builder.params ∧
        Shape builder.params.size builder'.rep ∧
          ∀ index, get builder'.rep index = (get builder.rep index).map (· || hashes.any
            (fun hash => (probes builder.params.size builder.params.numHashes.toNat hash).contains
              index)) := by
  intro hashes
  induction hashes with
  | nil =>
    intro builder _ hshape
    refine ⟨builder, rfl, rfl, hshape, fun index => ?_⟩
    simp
  | cons hash hashes ih =>
    intro builder hsize hshape
    obtain ⟨rep, hinsert, hrep, hbits⟩ :=
      insertFrom_spec hsize builder.params.numHashes.toNat hash hshape
    obtain ⟨builder', hall, hparams, hshape', hbits'⟩ :=
      @ih { builder with rep := rep } hsize hrep
    refine ⟨builder', ?_, hparams, hshape', fun index => ?_⟩
    · rw [ExistenceFilterBuilder.insertAll, List.foldlM_cons, ExistenceFilterBuilder.insert,
        hinsert, Option.map_some]
      exact hall
    · rw [hbits', hbits, Option.map_map, List.any_cons]
      congr 1
      funext bit
      exact Bool.or_assoc _ _ _

theorem ofParams_spec (hsize : params.size ≠ 0#32) :
    ∃ builder, ExistenceFilterBuilder.ofParams params = some builder ∧ builder.params = params ∧
      Shape params.size builder.rep ∧
        ∀ index, index.toNat < params.size.toNat → get builder.rep index = some false := by
  obtain ⟨blocks, hblocks, hshape, hzero⟩ := shape_blockBitmapBuilder hsize
  refine ⟨⟨params, blocks⟩, by rw [ExistenceFilterBuilder.ofParams, hblocks]; rfl, rfl, hshape, ?_⟩
  intro index h
  obtain ⟨block, word, hblock, hword⟩ := exists_word hshape h
  obtain rfl := hzero block (List.mem_of_getElem? hblock) word (List.mem_of_getElem? hword)
  rw [get_eq, hblock, Option.bind_some, hword]
  simp

/-- The filter as a set of bits: a hash is in it when all its bits were touched. -/
def bloom (params : ExistenceFilterParams) (hashes : List (BitVec 64)) (hash : BitVec 64) : Bool :=
  (probes params.size params.numHashes.toNat hash).all (fun index =>
    hashes.any (fun other => (probes params.size params.numHashes.toNat other).contains index))

/-- **NO FALSE NEGATIVES.** -/
theorem bloom_of_mem {hashes : List (BitVec 64)} {hash : BitVec 64} (h : hash ∈ hashes) :
    bloom params hashes hash = true := by
  rw [bloom, List.all_eq_true]
  intro index hindex
  exact List.any_eq_true.mpr ⟨hash, h, List.contains_iff_mem.mpr hindex⟩

/-- **THE FILTER THAT IS BUILT** answers as the set of bits does. -/
theorem existsHash_build (hsize : params.size ≠ 0#32) (hashes : List (BitVec 64)) :
    ∃ new builder, ExistenceFilterBuilder.ofParams params = some new ∧
      new.insertAll hashes = some builder ∧ builder.params = params ∧
        Shape params.size builder.rep ∧
          ∀ hash, builder.build.existsHash hash = some (bloom params hashes hash) := by
  obtain ⟨new, hnew, hparams, hshape, hzero⟩ := ofParams_spec hsize
  obtain ⟨builder, hall, hparams', hshape', hbits⟩ := insertAll_spec hashes
    (by rw [hparams]; exact hsize) (by rw [hparams]; exact hshape)
  rw [hparams] at hparams' hshape' hbits
  refine ⟨new, builder, hnew, hall, hparams', hshape', fun hash => ?_⟩
  rw [ExistenceFilter.existsHash, existsFrom_eq]
  · rw [ExistenceFilterBuilder.build, hparams', Option.some_inj, bloom, Bool.eq_iff_iff,
      List.all_eq_true, List.all_eq_true]
    refine forall_congr' fun index => forall_congr' fun hindex => ?_
    rw [hbits, hzero index (toNat_lt_of_mem_probes hsize hindex), Option.map_some, Bool.false_or,
      beq_iff_eq, Option.some_inj]
  · rw [ExistenceFilterBuilder.build, hparams']
    exact hsize
  · rw [ExistenceFilterBuilder.build, hparams']
    exact hshape'

/-! ## Saving and reading back -/

theorem storeLE_two_two {a : Nat} (b : Nat) (ha : a < 65536) :
    storeLE 2 a ++ storeLE 2 b = storeLE 4 (a + 65536 * b) := by
  have h0 : (a + 65536 * b) % 256 = a % 256 := by omega
  have h1 : (a + 65536 * b) / 256 % 256 = a / 256 % 256 := by omega
  have h2 : (a + 65536 * b) / 256 / 256 % 256 = b % 256 := by omega
  have h3 : (a + 65536 * b) / 256 / 256 / 256 % 256 = b / 256 % 256 := by omega
  simp only [storeLE, h0, h1, h2, h3, List.cons_append, List.nil_append]

/-- The third word of the header. -/
def packed (params : ExistenceFilterParams) : BitVec 32 :=
  BitVec.ofNat 32 (params.numHashes.toNat + 65536 * params.fpType.toNat)

theorem toNat_packed (params : ExistenceFilterParams) :
    (packed params).toNat = params.numHashes.toNat + 65536 * params.fpType.toNat := by
  have hhashes := params.numHashes.isLt
  have hfp := params.fpType.isLt
  rw [packed, BitVec.toNat_ofNat, Nat.mod_eq_of_lt (by omega)]

/-- **THE PACKED FIELDS** come apart again. -/
theorem fields_packed (params : ExistenceFilterParams) :
    (packed params &&& 0xFFFF#32).setWidth 16 = params.numHashes ∧
      (packed params >>> 16).setWidth 16 = params.fpType := by
  have hhashes := params.numHashes.isLt
  have hfp := params.fpType.isLt
  have htoNat := toNat_packed params
  constructor
  · apply BitVec.eq_of_toNat_eq
    have hlow : (packed params &&& 0xFFFF#32).toNat = (packed params).toNat % 65536 := by
      rw [BitVec.toNat_and]
      exact Nat.and_two_pow_sub_one_eq_mod (packed params).toNat 16
    rw [BitVec.toNat_setWidth, hlow, htoNat]
    omega
  · apply BitVec.eq_of_toNat_eq
    rw [BitVec.toNat_setWidth, BitVec.toNat_ushiftRight, Nat.shiftRight_eq_div_pow, htoNat]
    omega

/-- The words that are written. -/
def headerWords (params : ExistenceFilterParams) : List (BitVec 32) :=
  [params.size, params.expectedNelts, packed params]

theorem written_eq (builder : ExistenceFilterBuilder) :
    builder.written
      = storeWords 4 ((headerWords builder.params ++ builder.rep.flatten).map BitVec.toNat) := by
  rw [ExistenceFilterBuilder.written, headerWords, List.append_assoc _ (storeLE 2 _) (storeLE 2 _),
    storeLE_two_two _ builder.params.numHashes.isLt, ← toNat_packed]
  simp only [storeWords, List.map_append, List.map_cons, List.map_nil, List.flatMap_append,
    List.flatMap_cons, List.flatMap_nil, List.append_nil, List.append_assoc]

theorem wordsOf_storeWords (words : List (BitVec 32)) :
    wordsOf (storeWords 4 (words.map BitVec.toNat)) = words := by
  have hfit : ∀ n ∈ words.map BitVec.toNat, n < 256 ^ 4 := by
    intro n hn
    obtain ⟨word, -, rfl⟩ := List.mem_map.mp hn
    exact word.isLt
  have hload := loadWords_storeWords [] hfit
  rw [List.append_nil] at hload
  rw [wordsOf, length_storeWords, Nat.mul_div_cancel_left _ (by decide), hload, List.map_map]
  simp [Function.comp_def]

/-- **THE LENGTH**: the blocks fill the buffer. -/
theorem length_written {builder : ExistenceFilterBuilder} (hsize : builder.params.size ≠ 0#32)
    (hshape : Shape builder.params.size builder.rep) :
    builder.written.length = requiredBytes builder.params := by
  have hlt := builder.params.size.isLt
  have hwords := toNat_bitsToWords builder.params.size
  rw [written_eq, length_storeWords, List.length_map, List.length_append,
    length_flatten_of_shape hsize hshape, headerWords, requiredBytes, kHeaderSize,
    BitVec.toNat_add, hwords]
  simp
  omega

theorem read_words {builder : ExistenceFilterBuilder} (hsize : builder.params.size ≠ 0#32)
    (hpos : 0 < builder.params.numHashes.toNat) (hlt : builder.params.numHashes.toNat < 8)
    (hfp : builder.params.fpType.toNat < fpTypeSize)
    (hshape : Shape builder.params.size builder.rep) :
    read (headerWords builder.params ++ builder.rep.flatten) = some (.ok builder.build) := by
  obtain ⟨hlow, hhigh⟩ := fields_packed builder.params
  have hheader : readHeader (headerWords builder.params ++ builder.rep.flatten)
      = .ok builder.params := by
    refine readHeader_eq_ok.mpr ⟨_, _, _, builder.rep.flatten, rfl, ?_, hpos, hlt, hfp⟩
    rw [hlow, hhigh]
  have hdrop : (headerWords builder.params ++ builder.rep.flatten).drop kHeaderSize.toNat
      = builder.rep.flatten := rfl
  rw [read, hheader]
  dsimp only
  rw [hdrop, length_flatten_of_shape hsize hshape, if_neg (Nat.lt_irrefl _),
    blockBitmap_flatten hsize hshape]
  rfl

/-- **SAVING AND READING BACK**: the string has its computed length, all of it written; the
    filter that is read from it has every hash that was inserted, and answers as the filter
    that `Build` gives. -/
theorem read_serializeAsString (params : ExistenceFilterParams) (hashes : List (BitVec 64))
    (hsize : params.size ≠ 0#32) (hpos : 0 < params.numHashes.toNat)
    (hlt : params.numHashes.toNat < 8) (hfp : params.fpType.toNat < fpTypeSize) :
    ∃ new builder bytes filter, ExistenceFilterBuilder.ofParams params = some new ∧
      new.insertAll hashes = some builder ∧ builder.serializeAsString = some bytes ∧
        bytes = builder.written ∧ bytes.length = requiredBytes params ∧
          read (wordsOf bytes) = some (.ok filter) ∧
            (∀ hash ∈ hashes, filter.existsHash hash = some true) ∧
              ∀ hash, ∃ answer, filter.existsHash hash = some answer ∧
                builder.build.existsHash hash = some answer := by
  obtain ⟨new, builder, hnew, hall, rfl, hshape, hexists⟩ := existsHash_build hsize hashes
  have hlength := length_written hsize hshape
  refine ⟨new, builder, builder.written, builder.build, hnew, hall, ?_, rfl, hlength, ?_, ?_, ?_⟩
  · rw [ExistenceFilterBuilder.serializeAsString, hlength, if_neg (Nat.lt_irrefl _), Nat.sub_self,
      List.replicate_zero, List.append_nil]
  · rw [written_eq, wordsOf_storeWords]
    exact read_words hsize hpos hlt hfp hshape
  · intro hash hmem
    rw [hexists, bloom_of_mem hmem]
  · exact fun hash => ⟨_, hexists hash, hexists hash⟩

/-- A filter of 40 bits with one hash. -/
theorem read_serializeAsString_forty :
    ∃ new builder bytes filter,
      ExistenceFilterBuilder.ofParams ⟨40#32, 1#32, 7#16, 1#16⟩ = some new ∧
      new.insertAll [0x0123456789ABCDEF#64] = some builder ∧
        builder.serializeAsString = some bytes ∧ bytes = builder.written ∧ bytes.length = 20 ∧
          read (wordsOf bytes) = some (.ok filter) ∧
            (∀ hash ∈ [0x0123456789ABCDEF#64], filter.existsHash hash = some true) ∧
              ∀ hash, ∃ answer, filter.existsHash hash = some answer ∧
                builder.build.existsHash hash = some answer :=
  read_serializeAsString ⟨40#32, 1#32, 7#16, 1#16⟩ [0x0123456789ABCDEF#64] (by decide) (by decide)
    (by decide) (by decide)

/-- A fingerprint type that is not in the enumeration is saved, and not read. -/
theorem read_unsupported :
    ∃ builder bytes, ExistenceFilterBuilder.ofParams ⟨1#32, 0#32, 1#16, 2#16⟩ = some builder ∧
      builder.insertAll [] = some builder ∧ builder.serializeAsString = some bytes ∧
        read (wordsOf bytes) = some (.error "Invalid format: could not read header") :=
  ⟨⟨⟨1#32, 0#32, 1#16, 2#16⟩, [[0#32]]⟩, _, rfl, rfl, rfl, rfl⟩

end MozkeyExistenceFilter
