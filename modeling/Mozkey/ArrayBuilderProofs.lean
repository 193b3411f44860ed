import Mozkey.BitVectorArrayProofs
import Mozkey.ChunkIndexProofs
import Mozkey.SuccinctIndexProofs

/-! # BitVectorBasedArray — sizes set by the caller, in the integers of the machine

    `SetSize` sets any sizes: the steps of an element are counted by a loop on a `size_t`,
    `Open` keeps the sizes in an `int`, `Get` finds an element by `Select0` and `Rank1` of the
    steps, and converts the offset of its data to an `int`.  `none` is what the language does
    not define, a `CHECK` that fails, and a view outside the image. -/

namespace MozkeySuccinct

open ByteString LittleEndian RankSelect UnaryTree
open MozkeyLouds (BitStream BitVectorBasedArrayBuilder Holds Steps bitsOf headerField withHeader
  stepBits padded cacheIncrement length_bitsOf)

/-! ## The array -/

/-- An `int` that is converted to `size_t`. -/
def sizeT (x : Int) : Nat := (x % 18446744073709551616).toNat

/-- The elements of a builder that `SetSize` and `Add` were called on. -/
def filled (elements : List Bytes) (baseLength stepLength : Nat) :
    Option BitVectorBasedArrayBuilder :=
  (({} : BitVectorBasedArrayBuilder).setSize baseLength stepLength).bind
    (fun b => elements.foldlM BitVectorBasedArrayBuilder.add b)

/-- `BitVectorBasedArray`; `data_` is an offset into the image. -/
structure BitVectorBasedArray where
  index : SimpleSuccinctBitVectorIndex
  baseLength : Nat
  stepLength : Nat
  image : Bytes
  data : Nat

namespace BitVectorBasedArray

/-- The cache sizes with which an array is opened. -/
def kLb0CacheSize : Nat := 1024
def kLb1CacheSize : Nat := 0

/-- `Open`; `none` where the `CHECK` fails, the length of the index is negative as an `int`,
    or the index is not in the image. -/
def openArray (image : Bytes) : Option BitVectorBasedArray :=
  let indexLength := headerField image 0
  let baseLength := toInt (headerField image 1)
  let stepLength := toInt (headerField image 2)
  if headerField image 3 ≠ 0 then none
  else if intLimit ≤ indexLength ∨ image.length < 16 + indexLength then none
  else
    -- 32 is the chunk size of the constructor
    (init 32 ((image.drop 16).take indexLength) kLb0CacheSize kLb1CacheSize).map (fun index =>
      { index := index
        baseLength := sizeT baseLength
        stepLength := sizeT stepLength
        image := image
        data := 16 + indexLength })

/-- `index_.Get`. -/
def getBit (data : Bytes) (index : Nat) : Option Bool :=
  data[index / 8]?.map (fun c => c.toNat.testBit (index % 8))

/-- The linear search of `Get`; the image has no more bits than the fuel. -/
def linearSearch (data : Bytes) : Nat → Nat → Option Nat
  | 0, _ => none
  | fuel + 1, i =>
    (getBit data i).bind (fun bit => if bit then linearSearch data fuel (i + 1) else some i)

/-- The view of a length from a place on. -/
def readAt (image : Bytes) (start : Int) (length : Nat) : Option Bytes :=
  if 0 ≤ start ∧ start.toNat + length ≤ image.length then
    some ((image.drop start.toNat).take length)
  else none

/-- The pointer of `Get`, as an offset into the image, and the length. -/
def locate (a : BitVectorBasedArray) (index : Nat) : Option (Int × Nat) :=
  if index + 1 < intLimit then
    (a.index.select0 (index + 1)).bind (fun bitIndex =>
      (a.index.rank1 bitIndex).bind (fun rank =>
        let dataIndex := toInt ((a.baseLength * index + a.stepLength * rank) % 2 ^ 64 : Nat)
        (linearSearch (a.image.drop 16) (8 * a.image.length) (bitIndex + 1)).map (fun i =>
          (a.data + dataIndex, (a.baseLength + a.stepLength * (i - bitIndex - 1)) % 2 ^ 64))))
  else none

/-- `Get`: the view of the element. -/
def get (a : BitVectorBasedArray) (index : Nat) : Option Bytes :=
  (a.locate index).bind (fun place => readAt a.image place.1 place.2)

/-- The bytes from the pointer of `Get` on, for a reader that does not ask for the length;
    a pointer before the image has none. -/
def bytesFrom (a : BitVectorBasedArray) (index : Nat) : Bytes :=
  ((a.locate index).bind (fun place =>
    if 0 ≤ place.1 then some (a.image.drop place.1.toNat) else none)).getD []

end BitVectorBasedArray

/-! ## What is to be read -/

section Layout

variable (b : BitVectorBasedArrayBuilder)

/-- The steps that an element needs: the rest of its length, rounded up. -/
def paddingSteps (element : Bytes) : Nat :=
  (element.length - b.baseLength + b.stepLength - 1) / b.stepLength

/-- The length of an element with its padding. -/
def paddedLength (element : Bytes) : Nat := b.baseLength + b.stepLength * paddingSteps b element

/-- An element that is followed by zero bytes. -/
def paddedElement (element : Bytes) : Bytes :=
  element ++ List.replicate (paddedLength b element - element.length) 0

/-- The steps of all elements. -/
def allSteps : List Nat := b.elements.map (paddingSteps b)

/-- The bytes of the stream: a bit for each element, for each step and for the sentinel. -/
def streamLength : Nat := 4 * ((b.elements.length + (allSteps b).sum + 1 + 31) / 32)

/-- Where the data of an element starts. -/
def offset (i : Nat) : Nat := b.baseLength * i + b.stepLength * ((allSteps b).take i).sum

/-- The stream of the steps. -/
def stream : BitStream :=
  ((unary (0 :: allSteps b)).foldl BitStream.pushBit BitStream.empty).fillPadding32

/-- The header, the stream and the elements. -/
def layout : Bytes :=
  withHeader (stream b).image.length b.baseLength b.stepLength 0
    ((stream b).image ++ (b.elements.map (paddedElement b)).flatten)

/-- `Build` counts the steps that the elements need, and `Get` reads the elements. -/
structure ReadsBack : Prop where
  steps : ∀ element ∈ b.elements, b.numSteps element = some (paddingSteps b element)
  reads : ∃ built array, b.build = some built ∧
    BitVectorBasedArray.openArray built.image = some array ∧
      ∀ i element, b.elements[i]? = some element → array.get i = some (paddedElement b element)

/-- No subtraction of the loop wraps around: the last step is not longer than what is left. -/
def NoWrap (element : Bytes) : Prop :=
  element.length ≤ b.baseLength ∨
    b.stepLength ≤ b.baseLength + 1 + (element.length - b.baseLength - 1) % b.stepLength

/-- The bytes that are at an offset as an `int` are those of the element. -/
def Repeats (i : Nat) (element : Bytes) : Prop :=
  BitVectorBasedArray.readAt (layout b) ((16 + streamLength b : Nat) + toInt (offset b i))
    (paddedLength b element) = some (paddedElement b element)

/-- The sizes and elements that are read back. -/
structure Suitable : Prop where
  /-- The base length fits into its word, and into an `int` that is read. -/
  base : b.baseLength < 2 ^ 32 ∧ (b.elements ≠ [] → b.baseLength < intLimit)
  /-- The step length fits into its word, and into an `int` that is read. -/
  step : b.stepLength < 2 ^ 32 ∧
    ((∃ element ∈ b.elements, b.baseLength < element.length) → b.stepLength < intLimit)
  noWrap : ∀ element ∈ b.elements, NoWrap b element
  /-- The bits of the stream are counted by an `int`. -/
  bits : 8 * streamLength b < intLimit
  /-- So are the 0-bits up to the end of the last chunk. -/
  sentinel : 256 * ((streamLength b + 31) / 32) < intLimit + (allSteps b).sum
  /-- An offset is an `int`.  Otherwise it wraps around, and only an element of a gigabyte
      takes it back into the image, where the same bytes may happen to be. -/
  offsets : ∀ i element, b.elements[i]? = some element →
    offset b i < intLimit ∨
      ((∃ long ∈ b.elements, 2 ^ 30 ≤ paddedLength b long) ∧ Repeats b i element)

end Layout

/-- Whether a filled builder reads its elements back. -/
def RoundTrips (elements : List Bytes) (baseLength stepLength : Nat) : Prop :=
  ∃ b, filled elements baseLength stepLength = some b ∧ ReadsBack b

/-! ## The steps -/

open MozkeyLouds.BitVectorBasedArrayBuilder (numStepsLoop)

/-- The rounds of the loop that do not end it and do not wrap around. -/
theorem numStepsLoop_add {baseLength stepLength : Nat} (fuel rest : Nat) : ∀ q : Nat,
    numStepsLoop baseLength stepLength (fuel + q) (baseLength + 1 + rest + stepLength * q)
      = (numStepsLoop baseLength stepLength fuel (baseLength + 1 + rest)).map (· + q) := by
  intro q
  induction q with
  | zero =>
    rw [Nat.mul_zero, Nat.add_zero, Nat.add_zero]
    exact (Option.map_id' (x := _)).symm
  | succ q ih =>
    rw [← Nat.add_assoc, numStepsLoop, if_pos (by omega)]
    dsimp only
    rw [Nat.mul_succ, if_neg (by omega), ← Nat.add_assoc, Nat.add_sub_cancel, ih,
      Option.map_map]
    rfl

/-- The last round: it ends the loop if the step is not longer than what is left. -/
theorem numStepsLoop_last {baseLength stepLength rest : Nat} (fuel : Nat)
    (hrest : rest < stepLength) (hstep : stepLength < 2 ^ 64) :
    numStepsLoop baseLength stepLength (fuel + 2) (baseLength + 1 + rest) = some 1
      ↔ stepLength ≤ baseLength + 1 + rest := by
  rw [numStepsLoop, if_pos (by omega)]
  dsimp only
  rw [numStepsLoop]
  by_cases hwrap : baseLength + 1 + rest < stepLength
  · rw [if_pos hwrap, if_pos (by omega), Option.map_map]
    refine ⟨fun h => ?_, fun h => absurd hwrap (Nat.not_lt.mpr h)⟩
    -- a second round makes it two steps at least
    obtain ⟨steps, -, hsteps⟩ := Option.map_eq_some_iff.mp h
    exact absurd hsteps (by simp)
  · rw [if_neg hwrap, if_neg (by omega)]
    exact ⟨fun _ => by omega, fun _ => rfl⟩

/-- **THE STEPS ARE THOSE THAT ARE NEEDED** exactly where no subtraction wraps around. -/
theorem numSteps_eq_iff {b : BitVectorBasedArrayBuilder} (hpos : 1 ≤ b.stepLength)
    (hstep : b.stepLength < 2 ^ 64) (element : Bytes) :
    b.numSteps element = some (paddingSteps b element) ↔ NoWrap b element := by
  rw [BitVectorBasedArrayBuilder.numSteps, paddingSteps, NoWrap]
  by_cases hle : element.length ≤ b.baseLength
  · rw [Nat.sub_eq_zero_of_le hle, Nat.zero_add, Nat.div_eq_of_lt (by omega)]
    obtain ⟨fuel, hfuel⟩ : ∃ fuel, 2 ^ 64 + element.length = fuel + 1 :=
      ⟨2 ^ 64 + element.length - 1, by omega⟩
    rw [hfuel, numStepsLoop, if_neg (by omega)]
    exact ⟨fun _ => Or.inl hle, fun _ => rfl⟩
  · -- what is left is a number of whole steps, and a rest that takes one more
    obtain ⟨left, hleft⟩ : ∃ left, element.length = b.baseLength + 1 + left :=
      ⟨element.length - b.baseLength - 1, by omega⟩
    have hdiv := Nat.mod_add_div left b.stepLength
    have hmod := Nat.mod_lt left hpos
    have hq : left / b.stepLength ≤ left := Nat.div_le_self _ _
    have hplace : element.length
        = b.baseLength + 1 + left % b.stepLength + b.stepLength * (left / b.stepLength) := by
      omega
    obtain ⟨fuel, hfuel⟩ : ∃ fuel, 2 ^ 64 + element.length = fuel + 2 + left / b.stepLength :=
      ⟨2 ^ 64 + element.length - 2 - left / b.stepLength, by omega⟩
    have hsteps : (element.length - b.baseLength + b.stepLength - 1) / b.stepLength
        = left / b.stepLength + 1 := by
      rw [show element.length - b.baseLength + b.stepLength - 1 = left + b.stepLength from by omega,
        Nat.add_div_right _ hpos]
    rw [hsteps, show element.length - b.baseLength - 1 = left from by omega,
      or_iff_right hle, ← numStepsLoop_last fuel hmod hstep, hfuel]
    conv_lhs => rw [hplace, numStepsLoop_add]
    rw [Option.map_eq_some_iff]
    constructor
    · rintro ⟨steps, hloop, hsum⟩
      rw [hloop, show steps = 1 from by omega]
    · intro hloop
      exact ⟨1, hloop, Nat.add_comm _ _⟩

theorem length_le_paddedLength {b : BitVectorBasedArrayBuilder} (hpos : 1 ≤ b.stepLength)
    (element : Bytes) : element.length ≤ paddedLength b element := by
  have hdiv := Nat.lt_mul_div_succ (element.length - b.baseLength + b.stepLength - 1) hpos
  rw [Nat.mul_succ] at hdiv
  rw [paddedLength, paddingSteps]
  omega

theorem length_paddedElement {b : BitVectorBasedArrayBuilder} (hpos : 1 ≤ b.stepLength)
    (element : Bytes) : (paddedElement b element).length = paddedLength b element := by
  have hle := length_le_paddedLength hpos element
  rw [paddedElement, List.length_append, List.length_replicate]
  omega

theorem paddingSteps_pos_iff {b : BitVectorBasedArrayBuilder} (hpos : 1 ≤ b.stepLength)
    (element : Bytes) : 0 < paddingSteps b element ↔ b.baseLength < element.length := by
  rw [paddingSteps, Nat.div_pos_iff]
  omega

/-! ## The image -/

theorem foldlM_add : ∀ (elements : List Bytes) {b : BitVectorBasedArrayBuilder},
    b.built = false → elements.foldlM BitVectorBasedArrayBuilder.add b
      = some { b with elements := b.elements ++ elements } := by
  intro elements
  induction elements with
  | nil =>
    intro b _
    rw [List.append_nil]
    rfl
  | cons element rest ih =>
    intro b hnew
    have hadd : b.add element = some { b with elements := b.elements ++ [element] } := by
      rw [BitVectorBasedArrayBuilder.add, if_neg (by rw [hnew]; exact Bool.false_ne_true)]
    have hrest := @ih { b with elements := b.elements ++ [element] } hnew
    rw [List.append_assoc] at hrest
    rw [List.foldlM_cons, hadd]
    exact hrest

theorem filled_eq (elements : List Bytes) (baseLength stepLength : Nat) :
    filled elements baseLength stepLength = some
      { elements := elements, baseLength := baseLength, stepLength := stepLength } := by
  rw [filled, BitVectorBasedArrayBuilder.setSize, if_neg Bool.false_ne_true, Option.bind_some,
    foldlM_add elements rfl]
  rfl

theorem holds_stream (b : BitVectorBasedArrayBuilder) :
    Holds ((unary (0 :: allSteps b)).foldl BitStream.pushBit BitStream.empty)
      (unary (0 :: allSteps b)) := by
  have h := MozkeyLouds.holds_foldl_pushBit (unary (0 :: allSteps b)) MozkeyLouds.holds_empty
  rwa [List.nil_append] at h

theorem length_stream (b : BitVectorBasedArrayBuilder) :
    (stream b).image.length = streamLength b := by
  rw [stream, MozkeyLouds.length_fillPadding32 (holds_stream b), length_unary, List.sum_cons,
    List.length_cons, allSteps, List.length_map, streamLength, allSteps]
  congr 2
  omega

theorem bitsOf_stream (b : BitVectorBasedArrayBuilder) :
    (stream b).image.length % 4 = 0 ∧
      ∃ k, bitsOf (stream b).image = unary (0 :: allSteps b) ++ List.replicate k false :=
  MozkeyLouds.fillPadding32_spec (holds_stream b)

variable {element : Bytes}

theorem padded_eq {b : BitVectorBasedArrayBuilder} (hfit : paddedLength b element < 2 ^ 64) :
    padded b element (paddingSteps b element) = paddedElement b element := by
  rw [padded, BitVectorBasedArrayBuilder.outputLength, Nat.mul_comm, ← paddedLength,
    Nat.mod_eq_of_lt hfit, paddedElement]

/-- The elements are taken with the steps that they need. -/
structure Taken (b : BitVectorBasedArrayBuilder) (element : Bytes) : Prop where
  numSteps_eq : b.numSteps element = some (paddingSteps b element)
  length_lt : paddedLength b element < 2 ^ 64

/-- **THE LOOP OF `Build`**, where every element is taken. -/
theorem foldlM_appendElement_eq {b : BitVectorBasedArrayBuilder} (hpos : 1 ≤ b.stepLength) :
    ∀ (elements : List Bytes) (out : BitStream × Bytes), (∀ element ∈ elements, Taken b element) →
      elements.foldlM b.appendElement out
        = some ((stepBits (elements.map (paddingSteps b))).foldl BitStream.pushBit out.1,
          out.2 ++ (elements.map (paddedElement b)).flatten) := by
  intro elements
  induction elements with
  | nil =>
    intro out _
    rw [List.map_nil, List.map_nil, List.flatten_nil, List.append_nil]
    rfl
  | cons element rest ih =>
    intro out htaken
    obtain ⟨hsteps, hfit⟩ := htaken element List.mem_cons_self
    have hlength := length_le_paddedLength hpos element
    have hone : Steps b element (paddingSteps b element) := by
      refine ⟨hsteps, ?_⟩
      rw [BitVectorBasedArrayBuilder.outputLength, Nat.mul_comm, ← paddedLength,
        Nat.mod_eq_of_lt hfit]
      exact hlength
    rw [List.foldlM_cons, MozkeyLouds.appendElement_eq_some.mpr ⟨_, hone, rfl⟩]
    have hrest := ih ((List.replicate (paddingSteps b element) true).foldl BitStream.pushBit
      (out.1.pushBit false), out.2 ++ padded b element (paddingSteps b element))
      (fun e he => htaken e (List.mem_cons_of_mem _ he))
    rw [Option.bind_eq_bind, Option.bind_some, hrest, padded_eq hfit, List.append_assoc,
      List.map_cons, List.map_cons, List.flatten_cons, stepBits, stepBits, List.flatMap_cons,
      List.foldl_append]
    rfl

/-- **`Build`**: the image is the layout, as long as the header holds the sizes. -/
theorem build_eq_some {b built : BitVectorBasedArrayBuilder} (hpos : 1 ≤ b.stepLength)
    (hnew : b.built = false) (himage : b.image = [])
    (htaken : ∀ element ∈ b.elements, Taken b element) :
    b.build = some built ↔ (streamLength b < 2 ^ 32 ∧ b.baseLength < 2 ^ 32 ∧
      b.stepLength < 2 ^ 32) ∧ built = { b with built := true, image := layout b } := by
  have hfold := foldlM_appendElement_eq hpos b.elements (BitStream.empty, []) htaken
  rw [List.nil_append] at hfold
  have hstream : (((stepBits (b.elements.map (paddingSteps b))).foldl BitStream.pushBit
      BitStream.empty).pushBit false).fillPadding32 = stream b := by
    rw [stream, ← MozkeyLouds.stepBits_concat, List.foldl_append, allSteps]
    rfl
  have hsize : (stream b).byteSize = streamLength b := length_stream b
  have hlayout : [] ++ storeLE 4 (streamLength b) ++ storeLE 4 b.baseLength
      ++ storeLE 4 b.stepLength ++ storeLE 4 0 ++ (stream b).image
      ++ (b.elements.map (paddedElement b)).flatten = layout b := by
    simp only [layout, withHeader, length_stream, List.nil_append, List.append_assoc]
  rw [BitVectorBasedArrayBuilder.build, if_neg (by rw [hnew]; exact Bool.false_ne_true), hfold,
    Option.bind_eq_bind, Option.bind_some]
  dsimp only
  rw [hstream, hsize, himage]
  simp only [Option.bind_eq_bind, Option.bind_eq_some_iff, MozkeyLouds.pushInt32_eq_some]
  constructor
  · rintro ⟨_, ⟨hstream, rfl⟩, _, ⟨hbase, rfl⟩, _, ⟨hstep, rfl⟩, _, ⟨-, rfl⟩, hbuilt⟩
    rw [hlayout] at hbuilt
    exact ⟨⟨by omega, by omega, by omega⟩, (Option.some.inj hbuilt).symm⟩
  · rintro ⟨⟨hstream, hbase, hstep⟩, rfl⟩
    refine ⟨_, ⟨by omega, rfl⟩, _, ⟨by omega, rfl⟩, _, ⟨by omega, rfl⟩, _, ⟨Nat.zero_le _, rfl⟩, ?_⟩
    rw [hlayout]

/-! ## The index of the stream -/

open BitVectorBasedArray (openArray kLb0CacheSize kLb1CacheSize linearSearch getBit readAt)

theorem count_stream (b : BitVectorBasedArrayBuilder) :
    (bitsOf (stream b).image).count true = (allSteps b).sum := by
  obtain ⟨-, k, hbits⟩ := bitsOf_stream b
  rw [hbits, List.count_append, count_true_unary, List.sum_cons, List.count_replicate,
    if_neg (by decide)]
  omega

theorem sentinel_stream (b : BitVectorBasedArrayBuilder) :
    sentinel (stream b).image 32 = 256 * ((streamLength b + 31) / 32) - (allSteps b).sum := by
  have hchunks : chunkLength 32 (stream b).image.length = (streamLength b + 31) / 32 := by
    rw [length_stream, chunkLength]
    rfl
  rw [sentinel, hchunks, chunkRank, if_neg Bool.false_ne_true, rank_of_length_le, count_stream]
  rw [length_bitsOf, length_stream]
  omega

theorem init_eq_none {data : Bytes} {index : List Nat} {values : List Int} {num0Bits size0 : Nat}
    (hindex : initIndex data 32 = some index)
    (hnum0Bits : getNum0Bits data.length index = some num0Bits)
    (hvalues : valuesOf false 32 index = some values) (hsize : 0 < size0)
    (hnone : lowerBound values 0 index.length
      (toInt (cacheIncrement num0Bits size0 * (0 + 1) : Nat)) = none) (size1 : Nat) :
    init 32 data size0 size1 = none := by
  have hcache : initLowerBoundCache false 32 index (cacheIncrement num0Bits size0) size0
      = none := by
    rw [initLowerBoundCache]
    split_ifs
    · rw [Option.map_eq_none_iff]
      by_contra hsome
      obtain ⟨pointers, hpointers⟩ := Option.ne_none_iff_exists'.mp hsome
      obtain ⟨pointer, hpointer, -⟩ := OptionList.getElem?_mapM hpointers
        (List.getElem?_range hsize)
      rw [hvalues, Option.bind_some, hnone] at hpointer
      cases hpointer
    · rfl
  rw [init, hindex, Option.bind_some, hnum0Bits, Option.bind_some]
  dsimp only
  rw [hcache, Option.bind_none]

theorem cacheIncrement_le {num0Bits : Nat} (h : num0Bits < intLimit) :
    cacheIncrement num0Bits kLb0CacheSize * (0 + 1) ≤ 2097152 := by
  change (if num0Bits / 1024 = 0 then 1 else num0Bits / 1024) * (0 + 1) ≤ 2097152
  rw [intLimit] at h
  split_ifs <;> omega

theorem sentinel_lt {data : Bytes} {s : SimpleSuccinctBitVectorIndex}
    (haligned : data.length % 4 = 0)
    (hinit : init 32 data kLb0CacheSize kLb1CacheSize = some s) :
    8 * data.length < intLimit ∧ sentinel data 32 < intLimit := by
  have hfit : 8 * data.length < intLimit := by
    by_contra hlong
    rw [init] at hinit
    obtain ⟨index, -, hinit⟩ := Option.bind_eq_some_iff.mp hinit
    rw [getNum0Bits, if_neg hlong] at hinit
    cases hinit
  refine ⟨hfit, ?_⟩
  by_contra hlong
  have hsum : data.length + 32 < intLimit := by
    rw [intLimit] at hfit ⊢
    omega
  obtain ⟨index, hindex, hindexLength, hindexGet⟩ :=
    initIndex_spec (show 4 ∣ 32 by decide) (show 0 < 32 by decide) haligned hfit hsum
  have hindexed : Indexed data 32 index := ⟨hindexLength, hindexGet⟩
  obtain ⟨values, hvalues, hvaluesLength, hget, y, hlast, hy⟩ := valuesOf_overflow
    (show 0 < 32 by decide) hindexed (show 32 * 8 < intLimit by decide) hfit (by omega)
  have hnum0Bits := getNum0Bits_eq (show 0 < 32 by decide) hindexed hfit
  -- the chunks have no more bits than the sentinel, so none of them is a 1-bit
  have hrank := rank_le_length true (bitsOf data) (8 * 32 * chunkLength 32 data.length)
  have hlength : chunkLength 32 data.length = 8388608 := by
    rw [sentinel, chunkRank, if_neg Bool.false_ne_true] at hlong
    rw [chunkLength] at hlong ⊢
    rw [intLimit] at hlong hfit
    omega
  have hzero : rank true (bitsOf data) (8 * 32 * 8388608) = 0 := by
    rw [sentinel, chunkRank, if_neg Bool.false_ne_true, hlength] at hlong
    rw [intLimit] at hlong
    omega
  have hmiddle : rank true (bitsOf data) (8 * 32 * 8192) = 0 :=
    Nat.le_zero.mp (hzero ▸ rank_mono (by decide))
  have hplace := hget 8192 (by omega)
  rw [chunkRank, if_neg Bool.false_ne_true, hmiddle] at hplace
  have hcount : (bitsOf data).count false ≤ 8 * data.length := by
    rw [← length_bitsOf]
    exact List.count_le_length
  have htarget := cacheIncrement_le (show (bitsOf data).count false < intLimit by omega)
  have hnone := init_eq_none hindex hnum0Bits hvalues (show 0 < kLb0CacheSize by decide)
    (lowerBound_eq_none (Nat.zero_le 8192) (show 8192 < 8388608 by decide) (by omega) hplace
      (by rw [toInt_of_lt (by rw [intLimit]; omega)]; exact_mod_cast htarget)
      (hlength ▸ hlast)
      (by rw [toInt_of_lt (by rw [intLimit]; omega)]; omega)) kLb1CacheSize
  rw [hinit] at hnone
  cases hnone

/-- The sizes fit into the header. -/
structure HeaderFits (b : BitVectorBasedArrayBuilder) : Prop where
  stream : streamLength b < 2 ^ 32
  base : b.baseLength < 2 ^ 32
  step : b.stepLength < 2 ^ 32

theorem drop_layout (b : BitVectorBasedArrayBuilder) :
    (layout b).drop 16 = (stream b).image ++ (b.elements.map (paddedElement b)).flatten ∧
      (layout b).length = 16 + streamLength b
        + (b.elements.map (paddedElement b)).flatten.length := by
  have hparts : layout b = (storeLE 4 (stream b).image.length ++ (storeLE 4 b.baseLength
      ++ (storeLE 4 b.stepLength ++ storeLE 4 0)))
        ++ ((stream b).image ++ (b.elements.map (paddedElement b)).flatten) := by
    simp only [layout, withHeader, List.append_assoc]
  have hheader : (storeLE 4 (stream b).image.length ++ (storeLE 4 b.baseLength
      ++ (storeLE 4 b.stepLength ++ storeLE 4 0))).length = 16 := by
    simp only [List.length_append, length_storeLE]
  refine ⟨by rw [hparts, List.drop_left' hheader], ?_⟩
  rw [hparts, List.length_append, hheader, List.length_append, length_stream]
  omega

/-- The array of a layout, with its index. -/
def arrayOf (b : BitVectorBasedArrayBuilder) (index : SimpleSuccinctBitVectorIndex) :
    BitVectorBasedArray where
  index := index
  baseLength := sizeT (toInt b.baseLength)
  stepLength := sizeT (toInt b.stepLength)
  image := layout b
  data := 16 + streamLength b

/-- **`Open`** on the image that is written. -/
theorem openArray_layout {b : BitVectorBasedArrayBuilder} (hfits : HeaderFits b)
    {array : BitVectorBasedArray} :
    openArray (layout b) = some array ↔ streamLength b < intLimit ∧ ∃ index,
      init 32 (stream b).image kLb0CacheSize kLb1CacheSize = some index ∧
        array = arrayOf b index := by
  obtain ⟨hstream, hbase, hstep⟩ := hfits
  obtain ⟨hzero, hone, htwo, hthree, -⟩ := MozkeyLouds.headerField_withHeader
    (show (stream b).image.length ≤ 0xFFFFFFFF by rw [length_stream]; omega)
    (show b.baseLength ≤ 0xFFFFFFFF by omega) (show b.stepLength ≤ 0xFFFFFFFF by omega)
    (Nat.zero_le _) ((stream b).image ++ (b.elements.map (paddedElement b)).flatten)
  obtain ⟨hdrop, hlength⟩ := drop_layout b
  rw [← layout] at hzero hone htwo hthree
  rw [openArray]
  rw [hzero, hone, htwo, hthree, if_neg (fun hc => hc rfl), hdrop, List.take_left, length_stream]
  by_cases hneg : intLimit ≤ streamLength b
  · rw [if_pos (Or.inl hneg)]
    exact ⟨fun h => (nomatch h), fun h => absurd h.1 (Nat.not_lt.mpr hneg)⟩
  · rw [if_neg (by omega), Option.map_eq_some_iff]
    constructor
    · rintro ⟨index, hindex, rfl⟩
      exact ⟨by omega, index, hindex, rfl⟩
    · rintro ⟨-, index, hindex, rfl⟩
      exact ⟨index, hindex, rfl⟩

/-- **THE INDEX OF THE STREAM** is built exactly where its numbers are of type `int`. -/
theorem init_stream_iff {b : BitVectorBasedArrayBuilder} :
    (∃ index, init 32 (stream b).image kLb0CacheSize kLb1CacheSize = some index)
      ↔ 8 * streamLength b < intLimit ∧
        256 * ((streamLength b + 31) / 32) < intLimit + (allSteps b).sum := by
  have haligned := (bitsOf_stream b).1
  have hsum : (allSteps b).sum ≤ 256 * ((streamLength b + 31) / 32) := by
    have hcount : (bitsOf (stream b).image).count true ≤ (bitsOf (stream b).image).length :=
      List.count_le_length
    rw [count_stream, length_bitsOf, length_stream] at hcount
    omega
  rw [← length_stream b] at hsum ⊢
  constructor
  · rintro ⟨index, hindex⟩
    obtain ⟨hfit, hsentinel⟩ := sentinel_lt haligned hindex
    rw [sentinel_stream, ← length_stream b] at hsentinel
    exact ⟨hfit, by omega⟩
  · rintro ⟨hfit, hsentinel⟩
    obtain ⟨index, hindex, -⟩ := @exists_answers (stream b).image 32 kLb0CacheSize kLb1CacheSize
      (by decide) (by decide) haligned
      ⟨by decide, hfit, by rw [sentinel_stream, ← length_stream b]; omega, by decide, by decide⟩
    exact ⟨index, hindex⟩

/-! ## Where `Get` reads -/

theorem answers_of_init {b : BitVectorBasedArrayBuilder} {index : SimpleSuccinctBitVectorIndex}
    (hinit : init 32 (stream b).image kLb0CacheSize kLb1CacheSize = some index) :
    Answers (stream b).image index := by
  have haligned := (bitsOf_stream b).1
  obtain ⟨hfit, hsentinel⟩ := sentinel_lt haligned hinit
  obtain ⟨index', hindex', -, hanswers⟩ := @exists_answers (stream b).image 32 kLb0CacheSize
    kLb1CacheSize (by decide) (by decide) haligned
    ⟨by decide, hfit, hsentinel, by decide, by decide⟩
  rw [hinit] at hindex'
  rw [Option.some.inj hindex']
  exact hanswers

theorem linearSearch_eq {data : Bytes} : ∀ (d fuel start : Nat), d < fuel →
    (∀ j < d, getBit data (start + j) = some true) → getBit data (start + d) = some false →
    linearSearch data fuel start = some (start + d) := by
  intro d
  induction d with
  | zero =>
    intro fuel start hfuel _ hend
    obtain ⟨fuel, rfl⟩ := Nat.exists_eq_succ_of_ne_zero (Nat.ne_of_gt hfuel)
    rw [Nat.add_zero] at hend ⊢
    rw [linearSearch, hend, Option.bind_some, if_neg Bool.false_ne_true]
  | succ d ih =>
    intro fuel start hfuel hones hend
    obtain ⟨fuel, rfl⟩ := Nat.exists_eq_succ_of_ne_zero (Nat.ne_of_gt (Nat.zero_lt_of_lt hfuel))
    have hnext := ih fuel (start + 1) (Nat.lt_of_succ_lt_succ hfuel)
      (fun j hj => by
        have hone := hones (j + 1) (Nat.succ_lt_succ hj)
        rwa [Nat.add_comm j, ← Nat.add_assoc] at hone)
      (by rwa [Nat.add_comm d, ← Nat.add_assoc] at hend)
    have hone := hones 0 (Nat.succ_pos d)
    rw [Nat.add_zero] at hone
    rw [linearSearch, hone, Option.bind_some, if_pos rfl, hnext, Nat.add_assoc, Nat.add_comm 1]

variable {n : Nat}

theorem getBit_layout {b : BitVectorBasedArrayBuilder} {bit : Bool}
    (hbit : (unary (0 :: allSteps b))[n]? = some bit) :
    getBit ((layout b).drop 16) n = some bit := by
  obtain ⟨-, k, hbits⟩ := bitsOf_stream b
  have hget : (bitsOf ((layout b).drop 16))[n]? = some bit := by
    rw [(drop_layout b).1, MozkeyLouds.bitsOf_append, hbits, List.append_assoc,
      List.getElem?_append_left (List.getElem?_eq_some_iff.mp hbit).1]
    exact hbit
  rw [MozkeyLouds.getElem?_bitsOf] at hget
  exact hget

variable {i : Nat}

/-- **`Get` BY THE STEPS**: the place of the element, in the integers of the machine. -/
theorem locate_arrayOf {b : BitVectorBasedArrayBuilder} {index : SimpleSuccinctBitVectorIndex}
    (hinit : init 32 (stream b).image kLb0CacheSize kLb1CacheSize = some index) {d : Nat}
    (hd : (allSteps b)[i]? = some d) :
    (arrayOf b index).locate i = some ((16 + streamLength b : Nat)
      + toInt ((sizeT (toInt b.baseLength) * i
        + sizeT (toInt b.stepLength) * ((allSteps b).take i).sum) % 2 ^ 64 : Nat),
      (sizeT (toInt b.baseLength) + sizeT (toInt b.stepLength) * d) % 2 ^ 64) := by
  have hanswers := answers_of_init hinit
  obtain ⟨haligned, k, hbits⟩ := bitsOf_stream b
  have hfit := (sentinel_lt haligned hinit).1
  have hi : i < (allSteps b).length := (List.getElem?_eq_some_iff.mp hd).1
  have hd' : (0 :: allSteps b)[i + 1]? = some d := hd
  have hstart : blockStart (0 :: allSteps b) (i + 1) = ((allSteps b).take i).sum + i + 1 := by
    rw [blockStart, List.take_succ_cons, List.sum_cons]
    omega
  have hend := getElem?_blockEnd hd'
  rw [hstart] at hend
  have hlength := congrArg List.length hbits
  rw [length_bitsOf, List.length_append] at hlength
  have hlt := (List.getElem?_eq_some_iff.mp hend).1
  have himage : 8 * (stream b).image.length ≤ 8 * (layout b).length := by
    rw [(drop_layout b).2, length_stream]
    omega
  have hselect : IsSelect false (bitsOf (stream b).image) (i + 1)
      (((allSteps b).take i).sum + i) := by
    have hblock := isSelect_false_blockStart (show i < (0 :: allSteps b).length by
      rw [List.length_cons]
      omega)
    rw [hstart, Nat.add_sub_cancel] at hblock
    rw [hbits]
    exact hblock.append _
  have hselect0 : index.select0 (i + 1) = some (((allSteps b).take i).sum + i) := by
    obtain ⟨p, hp, hisSelect⟩ := hanswers.select0 (i + 1) (by omega) hselect.le_count
    rw [hp, hisSelect.unique hselect]
  have hrank1 : index.rank1 (((allSteps b).take i).sum + i)
      = some ((allSteps b).take i).sum := by
    have hcount := rank_not (b := false) (Nat.le_of_lt hselect.lt_length)
    rw [hselect.rank_eq, Bool.not_false] at hcount
    rw [hanswers.rank1 _ (by omega)]
    congr 1
    omega
  have hrun : linearSearch ((layout b).drop 16) (8 * (layout b).length)
      (((allSteps b).take i).sum + i + 1) = some (((allSteps b).take i).sum + i + 1 + d) := by
    refine linearSearch_eq d _ _ (by omega) ?_ (getBit_layout hend)
    intro j hj
    have hone := (isSelect_true_child hd' hj).1
    rw [hstart] at hone
    exact getBit_layout hone
  rw [BitVectorBasedArray.locate, if_pos (by omega)]
  simp only [arrayOf]
  rw [hselect0, Option.bind_some, hrank1, Option.bind_some, hrun, Option.map_some,
    show ((allSteps b).take i).sum + i + 1 + d - (((allSteps b).take i).sum + i) - 1 = d
      from by omega]

/-! ## Where the elements are -/

theorem length_flatten_take {b : BitVectorBasedArrayBuilder} (hpos : 1 ≤ b.stepLength) :
    ∀ (elements : List Bytes), ∀ i ≤ elements.length,
      ((elements.map (paddedElement b)).take i).flatten.length
        = b.baseLength * i + b.stepLength * ((elements.map (paddingSteps b)).take i).sum := by
  intro elements
  induction elements with
  | nil =>
    intro i hi
    rw [List.length_nil] at hi
    rw [Nat.le_zero.mp hi]
    rfl
  | cons element rest ih =>
    intro i hi
    cases i with
    | zero => rfl
    | succ i =>
      rw [List.map_cons, List.map_cons, List.take_succ_cons, List.take_succ_cons,
        List.flatten_cons, List.length_append, List.sum_cons, length_paddedElement hpos,
        ih i (Nat.le_of_succ_le_succ hi), paddedLength, Nat.mul_succ, Nat.mul_add b.stepLength]
      omega

/-- **FROM AN ELEMENT ON** the elements stand behind each other, with their padding. -/
theorem drop_layout_offset {b : BitVectorBasedArrayBuilder} (hpos : 1 ≤ b.stepLength)
    (hi : i ≤ b.elements.length) :
    (layout b).drop (16 + streamLength b + offset b i)
        = ((b.elements.map (paddedElement b)).drop i).flatten ∧
      16 + streamLength b + offset b i ≤ (layout b).length := by
  obtain ⟨hdrop, hlength⟩ := drop_layout b
  have hstart := length_flatten_take hpos b.elements i hi
  rw [← allSteps, ← offset] at hstart
  have hsplit : (b.elements.map (paddedElement b)).flatten
      = ((b.elements.map (paddedElement b)).take i).flatten
        ++ ((b.elements.map (paddedElement b)).drop i).flatten := by
    rw [← List.flatten_append, List.take_append_drop]
  refine ⟨?_, ?_⟩
  · rw [← List.drop_drop, ← List.drop_drop, hdrop, List.drop_left' (length_stream b), hsplit,
      List.drop_left' hstart]
  · rw [hlength, hsplit, List.length_append, hstart]
    omega

theorem readAt_layout {b : BitVectorBasedArrayBuilder} (hpos : 1 ≤ b.stepLength)
    (helement : b.elements[i]? = some element) :
    readAt (layout b) (16 + streamLength b + offset b i : Nat) (paddedLength b element)
      = some (paddedElement b element) := by
  obtain ⟨hi, hget⟩ := List.getElem?_eq_some_iff.mp helement
  obtain ⟨hbehind, hend⟩ := drop_layout_offset hpos (Nat.le_of_lt hi)
  have hi' : i < (b.elements.map (paddedElement b)).length := by
    rw [List.length_map]
    exact hi
  rw [List.drop_eq_getElem_cons hi', List.getElem_map, hget, List.flatten_cons] at hbehind
  have hlength := congrArg List.length hbehind
  rw [List.length_drop, List.length_append, length_paddedElement hpos] at hlength
  rw [readAt, if_pos ⟨Int.natCast_nonneg _, by rw [Int.toNat_natCast]; omega⟩,
    Int.toNat_natCast, hbehind, List.take_left' (length_paddedElement hpos element)]

/-! ## The integers of the machine -/

theorem sizeT_toInt_of_lt (h : n < intLimit) : sizeT (toInt n) = n := by
  rw [toInt_of_lt h, sizeT]
  rw [intLimit] at h
  omega

theorem sizeT_toInt_of_ge (hge : intLimit ≤ n) (hlt : n < 2 ^ 32) :
    sizeT (toInt n) = n + (2 ^ 64 - 2 ^ 32) := by
  rw [toInt_of_ge hge (by rw [intLimit]; omega), sizeT]
  rw [intLimit] at hge ⊢
  omega

theorem toInt_mod (n : Nat) : toInt (n % 2 ^ 64 : Nat) = toInt n := by
  rw [toInt, toInt, Int.bmod_def, Int.bmod_def]
  omega

theorem add_wraps_iff {m : Nat} (hn : n < 2 ^ 64) (hm : m < 2 ^ 32) :
    (n + (2 ^ 64 - 2 ^ 32) * m) % 2 ^ 64 = n ↔ m = 0 := by
  constructor
  · intro h
    have hdiv := Nat.div_add_mod (n + (2 ^ 64 - 2 ^ 32) * m) (2 ^ 64)
    rw [h] at hdiv
    generalize (n + (2 ^ 64 - 2 ^ 32) * m) / 2 ^ 64 = q at hdiv
    omega
  · rintro rfl
    rw [Nat.mul_zero, Nat.add_zero, Nat.mod_eq_of_lt hn]

/-- **A LENGTH THAT IS READ BACK**: the sizes are of type `int`, as far as they are used. -/
theorem length_wraps_iff {base step d : Nat} (hbase : base < 2 ^ 32) (hstep : step < 2 ^ 32)
    (hd : d < intLimit) :
    (sizeT (toInt base) + sizeT (toInt step) * d) % 2 ^ 64 = base + step * d
      ↔ base < intLimit ∧ (0 < d → step < intLimit) := by
  have hprod : step * d < 2 ^ 32 * intLimit := Nat.mul_lt_mul'' hstep hd
  rw [intLimit] at hprod hd
  have hwraps : ∀ m, m < 2 ^ 32 →
      sizeT (toInt base) + sizeT (toInt step) * d = base + step * d + (2 ^ 64 - 2 ^ 32) * m →
      ((sizeT (toInt base) + sizeT (toInt step) * d) % 2 ^ 64 = base + step * d ↔ m = 0) := by
    intro m hm heq
    rw [heq]
    exact add_wraps_iff (by omega) hm
  by_cases hbaseInt : base < intLimit
  · by_cases hstepInt : step < intLimit
    · rw [hwraps 0 (by decide) (by
        rw [sizeT_toInt_of_lt hbaseInt, sizeT_toInt_of_lt hstepInt]
        rfl)]
      exact ⟨fun _ => ⟨hbaseInt, fun _ => hstepInt⟩, fun _ => rfl⟩
    · rw [hwraps d (by omega) (by
        rw [sizeT_toInt_of_lt hbaseInt, sizeT_toInt_of_ge (Nat.not_lt.mp hstepInt) hstep,
          Nat.add_mul, Nat.add_assoc])]
      constructor
      · intro hzero
        exact ⟨hbaseInt, fun hpos => absurd hzero (Nat.ne_of_gt hpos)⟩
      · rintro ⟨-, hzero⟩
        by_contra hne
        exact hstepInt (hzero (Nat.pos_of_ne_zero hne))
  · -- the base is in the length of every element
    refine ⟨fun h => ?_, fun h => absurd h.1 hbaseInt⟩
    exfalso
    by_cases hstepInt : step < intLimit
    · have hone := (hwraps 1 (by decide) (by
        rw [sizeT_toInt_of_ge (Nat.not_lt.mp hbaseInt) hbase, sizeT_toInt_of_lt hstepInt]
        omega)).mp h
      omega
    · have hmany := (hwraps (1 + d) (by omega) (by
        rw [sizeT_toInt_of_ge (Nat.not_lt.mp hbaseInt) hbase,
          sizeT_toInt_of_ge (Nat.not_lt.mp hstepInt) hstep, Nat.add_mul]
        omega)).mp h
      omega

/-! ## The elements that are read back -/

theorem readAt_length {image bytes : Bytes} {start : Int} {length : Nat}
    (h : readAt image start length = some bytes) : bytes.length = length := by
  rw [readAt] at h
  split_ifs at h with hin
  cases h
  rw [List.length_take, List.length_drop]
  omega

theorem paddedLength_lt {b : BitVectorBasedArrayBuilder} (hpos : 1 ≤ b.stepLength)
    (element : Bytes) :
    paddedLength b element < max (b.baseLength + 1) (element.length + b.stepLength) := by
  have hdiv := Nat.div_mul_le_self (element.length - b.baseLength + b.stepLength - 1) b.stepLength
  rw [Nat.mul_comm] at hdiv
  rw [paddedLength, paddingSteps]
  by_cases hle : element.length ≤ b.baseLength
  · rw [Nat.sub_eq_zero_of_le hle, Nat.zero_add, Nat.div_eq_of_lt (by omega)]
    omega
  · omega

theorem paddingSteps_lt {b : BitVectorBasedArrayBuilder} (hmem : element ∈ b.elements)
    (hbits : 8 * streamLength b < intLimit) :
    paddingSteps b element < intLimit := by
  have hle : paddingSteps b element ≤ (allSteps b).sum :=
    List.single_le_sum (fun _ _ => Nat.zero_le _) _ (List.mem_map_of_mem hmem)
  rw [streamLength] at hbits
  omega

section Iff

variable {b : BitVectorBasedArrayBuilder}

/-- **`Get` POINTS** to the offset of the element, which is converted to `int`. -/
theorem locate_eq {index : SimpleSuccinctBitVectorIndex}
    (hinit : init 32 (stream b).image kLb0CacheSize kLb1CacheSize = some index)
    (hbase : b.baseLength < intLimit)
    (hstep : ∀ element ∈ b.elements, 0 < paddingSteps b element → b.stepLength < intLimit)
    (helement : b.elements[i]? = some element) (hlength : paddedLength b element < 2 ^ 64) :
    (arrayOf b index).locate i
      = some ((16 + streamLength b : Nat) + toInt (offset b i), paddedLength b element) := by
  -- where a step is taken its length is an `int`, and else it does not matter
  have hmul : ∀ n, (0 < n → b.stepLength < intLimit) →
      sizeT (toInt b.stepLength) * n = b.stepLength * n := by
    intro n hn
    rcases Nat.eq_zero_or_pos n with rfl | hpositive
    · rw [Nat.mul_zero, Nat.mul_zero]
    · rw [sizeT_toInt_of_lt (hn hpositive)]
  have hsum : 0 < ((allSteps b).take i).sum → b.stepLength < intLimit := by
    intro hpositive
    obtain ⟨d, hd, hdpos⟩ : ∃ d ∈ (allSteps b).take i, 0 < d := by
      by_contra hnone
      have hzero : ((allSteps b).take i).sum = 0 :=
        List.sum_eq_zero (fun d hd => Nat.eq_zero_of_not_pos (fun h => hnone ⟨d, hd, h⟩))
      omega
    obtain ⟨element, hmem, rfl⟩ := List.mem_map.mp (List.mem_of_mem_take hd)
    exact hstep element hmem hdpos
  have hd : (allSteps b)[i]? = some (paddingSteps b element) := by
    rw [allSteps, List.getElem?_map, helement, Option.map_some]
  rw [locate_arrayOf hinit hd, sizeT_toInt_of_lt hbase, hmul _ hsum,
    hmul _ (hstep element (List.mem_of_getElem? helement)), toInt_mod, ← offset, ← paddedLength,
    Nat.mod_eq_of_lt hlength]

/-- Where no element takes a gigabyte, an offset that wraps around leaves the image. -/
theorem offset_lt_of_repeats (hbits : 8 * streamLength b < intLimit)
    (hshort : ∀ element ∈ b.elements, paddedLength b element < 2 ^ 30)
    (hrepeats : ∀ i element, b.elements[i]? = some element → Repeats b i element) :
    ∀ i < b.elements.length, offset b i < intLimit := by
  intro i
  induction i with
  | zero =>
    intro _
    rw [offset, Nat.mul_zero, List.take_zero, List.sum_nil, Nat.mul_zero]
    decide
  | succ i ih =>
    intro hi
    have hprevious := ih (by omega)
    have hnext : offset b (i + 1) = offset b i + paddedLength b b.elements[i] := by
      have hd : (allSteps b)[i]? = some (paddingSteps b b.elements[i]) := by
        rw [allSteps, List.getElem?_map, List.getElem?_eq_getElem, Option.map_some]
      rw [offset, List.take_add_one, hd, Option.toList_some, List.sum_append, List.sum_singleton,
        offset, paddedLength, Nat.mul_succ, Nat.mul_add b.stepLength]
      omega
    have hpadded := hshort _ (List.getElem_mem (show i < b.elements.length by omega))
    by_contra hge
    have hread := hrepeats (i + 1) _ (List.getElem?_eq_getElem hi)
    rw [intLimit] at hprevious hbits
    rw [Repeats, toInt_of_ge (Nat.not_lt.mp hge) (by rw [intLimit]; omega), readAt,
      if_neg (by rw [intLimit]; omega)] at hread
    cases hread

variable (hpos : 1 ≤ b.stepLength)
include hpos

theorem taken_of_steps (hbase : b.baseLength < 2 ^ 32) (hstep : b.stepLength < 2 ^ 32)
    (hneeded : b.numSteps element = some (paddingSteps b element))
    (hsteps : Steps b element (paddingSteps b element)) : Taken b element := by
  refine ⟨hneeded, ?_⟩
  have hlength := hsteps.length_le
  have hlt := paddedLength_lt hpos element
  rw [BitVectorBasedArrayBuilder.outputLength, Nat.mul_comm, ← paddedLength] at hlength
  omega

/-- **WHAT IS READ BACK IS SUITABLE.** -/
theorem ReadsBack.suitable (hnew : b.built = false) (himage : b.image = []) (h : ReadsBack b) :
    Suitable b := by
  obtain ⟨hneeded, built, array, hbuild, hopen, hget⟩ := h
  obtain ⟨bitStream, data, hfold, -, hbase, hstep, -⟩ :=
    MozkeyLouds.build_eq_some_array himage hbuild
  obtain ⟨steps, hsteps, -⟩ := MozkeyLouds.foldlM_appendElement MozkeyLouds.holds_empty hfold
  -- the loop has taken every element, with the steps that it needs
  have htaken : ∀ element ∈ b.elements, Taken b element := by
    intro element hmem
    obtain ⟨i, hi, rfl⟩ := List.mem_iff_getElem.mp hmem
    have hone := hsteps.get hi (hsteps.length_eq ▸ hi)
    have hsame := Option.some.inj (hone.numSteps_eq.symm.trans (hneeded _ hmem))
    exact taken_of_steps hpos (by omega) (by omega) (hneeded _ hmem) (hsame ▸ hone)
  obtain ⟨⟨hstream, hbase, hstep⟩, rfl⟩ := (build_eq_some hpos hnew himage htaken).mp hbuild
  obtain ⟨-, index, hinit, rfl⟩ := (openArray_layout ⟨hstream, hbase, hstep⟩).mp hopen
  obtain ⟨hbits, hsentinel⟩ := init_stream_iff.mp ⟨index, hinit⟩
  have hsizes : ∀ element ∈ b.elements,
      b.baseLength < intLimit ∧ (0 < paddingSteps b element → b.stepLength < intLimit) := by
    intro element hmem
    obtain ⟨i, helement⟩ := List.getElem?_of_mem hmem
    have hd : (allSteps b)[i]? = some (paddingSteps b element) := by
      rw [allSteps, List.getElem?_map, helement, Option.map_some]
    have hread := hget i element helement
    rw [BitVectorBasedArray.get, locate_arrayOf hinit hd, Option.bind_some] at hread
    have hlength := readAt_length hread
    rw [length_paddedElement hpos, paddedLength] at hlength
    exact (length_wraps_iff hbase hstep (paddingSteps_lt hmem hbits)).mp hlength.symm
  refine ⟨⟨hbase, ?_⟩, ⟨hstep, ?_⟩, ?_, hbits, hsentinel, ?_⟩
  · intro hne
    obtain ⟨element, hmem⟩ := List.exists_mem_of_ne_nil _ hne
    exact (hsizes element hmem).1
  · rintro ⟨element, hmem, hlonger⟩
    exact (hsizes element hmem).2 ((paddingSteps_pos_iff hpos element).mpr hlonger)
  · intro element hmem
    exact (numSteps_eq_iff hpos (by omega) element).mp (hneeded element hmem)
  · have hrepeats : ∀ i element, b.elements[i]? = some element → Repeats b i element := by
      intro i element helement
      have hmem := List.mem_of_getElem? helement
      have hread := hget i element helement
      rw [BitVectorBasedArray.get, locate_eq hinit (hsizes element hmem).1
        (fun element hmem => (hsizes element hmem).2) helement (htaken element hmem).length_lt,
        Option.bind_some] at hread
      exact hread
    intro i element helement
    by_cases hlong : ∃ long ∈ b.elements, 2 ^ 30 ≤ paddedLength b long
    · exact Or.inr ⟨hlong, hrepeats i element helement⟩
    · have hshort : ∀ element ∈ b.elements, paddedLength b element < 2 ^ 30 :=
        fun element hmem => Nat.lt_of_not_le (fun hle => hlong ⟨element, hmem, hle⟩)
      exact Or.inl (offset_lt_of_repeats hbits hshort hrepeats i
        (List.getElem?_eq_some_iff.mp helement).1)

/-- **WHAT IS SUITABLE IS READ BACK.** -/
theorem Suitable.readsBack (hnew : b.built = false) (himage : b.image = []) (h : Suitable b) :
    ReadsBack b := by
  obtain ⟨⟨hbase, hbaseInt⟩, ⟨hstep, hstepInt⟩, hwrap, hbits, hsentinel, hoffsets⟩ := h
  have hneeded : ∀ element ∈ b.elements, b.numSteps element = some (paddingSteps b element) :=
    fun element hmem => (numSteps_eq_iff hpos (by omega) element).mpr (hwrap element hmem)
  have htaken : ∀ element ∈ b.elements, Taken b element := by
    intro element hmem
    refine ⟨hneeded element hmem, ?_⟩
    have hprod := Nat.mul_lt_mul'' hstep (paddingSteps_lt hmem hbits)
    rw [paddedLength]
    rw [intLimit] at hprod
    omega
  have hstream : streamLength b < 2 ^ 32 := by
    rw [intLimit] at hbits
    omega
  obtain ⟨index, hinit⟩ := init_stream_iff.mpr ⟨hbits, hsentinel⟩
  refine ⟨hneeded, _, arrayOf b index,
    (build_eq_some hpos hnew himage htaken).mpr ⟨⟨hstream, hbase, hstep⟩, rfl⟩,
    (openArray_layout ⟨hstream, hbase, hstep⟩).mpr ⟨by omega, index, hinit, rfl⟩, ?_⟩
  intro i element helement
  have hmem := List.mem_of_getElem? helement
  rw [BitVectorBasedArray.get, locate_eq hinit (hbaseInt (List.ne_nil_of_mem hmem))
    (fun element hmem hsteps =>
      hstepInt ⟨element, hmem, (paddingSteps_pos_iff hpos element).mp hsteps⟩)
    helement (htaken element hmem).length_lt, Option.bind_some]
  rcases hoffsets i element helement with hoffset | ⟨-, hrepeats⟩
  · rw [toInt_of_lt hoffset, ← Int.natCast_add]
    exact readAt_layout hpos helement
  · exact hrepeats

end Iff

/-! ## With the sizes of the constructor -/

section Default

open MozkeyLouds (padded4)

variable {b built : BitVectorBasedArrayBuilder} (hbase : b.baseLength = 4)
  (hstep : b.stepLength = 1)
include hbase hstep

theorem paddingSteps_default (element : Bytes) :
    paddingSteps b element = element.length - 4 := by
  rw [paddingSteps, hbase, hstep, Nat.add_sub_cancel, Nat.div_one]

theorem paddedElement_default (element : Bytes) : paddedElement b element = padded4 element := by
  rw [paddedElement, paddedLength, paddingSteps_default hbase hstep, hbase, hstep, padded4]
  congr 2
  omega

theorem sum_allSteps_le : (allSteps b).sum ≤ b.elements.flatten.length := by
  rw [allSteps, List.length_flatten]
  refine List.sum_le_sum ?_
  intro element _
  rw [paddingSteps_default hbase hstep]
  exact Nat.sub_le _ _

/-- The image takes a few bytes more for each element. -/
theorem length_layout_le :
    (layout b).length ≤ 5 * b.elements.length + 2 * b.elements.flatten.length + 64 := by
  have hdata : (b.elements.map (paddedElement b)).flatten.length
      ≤ 4 * b.elements.length + b.elements.flatten.length := by
    generalize b.elements = elements
    induction elements with
    | nil => exact Nat.zero_le _
    | cons element rest ih =>
      rw [List.map_cons, List.flatten_cons, List.length_append,
        paddedElement_default hbase hstep, padded4, List.length_append, List.length_replicate,
        List.length_cons, List.flatten_cons, List.length_append]
      omega
  have hsum := sum_allSteps_le hbase hstep
  rw [(drop_layout b).2, streamLength]
  omega

variable (hnew : b.built = false) (himage : b.image = []) (hbuild : b.build = some built)
include hnew himage hbuild

theorem layout_of_build : (∀ element ∈ b.elements, Taken b element) ∧ HeaderFits b ∧
    built = { b with built := true, image := layout b } := by
  obtain ⟨_, _, hfold, -⟩ := MozkeyLouds.build_eq_some_array himage hbuild
  obtain ⟨steps, hsteps, -⟩ := MozkeyLouds.foldlM_appendElement MozkeyLouds.holds_empty hfold
  have htaken : ∀ element ∈ b.elements, Taken b element := by
    intro element hmem
    obtain ⟨i, hi, rfl⟩ := List.mem_iff_getElem.mp hmem
    have hneeded := (numSteps_eq_iff (b := b) (by omega) (by omega) b.elements[i]).mpr
      (Or.inr (by omega))
    have hone := hsteps.get hi (hsteps.length_eq ▸ hi)
    have hsame := Option.some.inj (hone.numSteps_eq.symm.trans hneeded)
    exact taken_of_steps (by omega) (by omega) (by omega) hneeded (hsame ▸ hone)
  obtain ⟨⟨hstream, hbase', hstep'⟩, hbuilt⟩ :=
    (build_eq_some (by omega) hnew himage htaken).mp hbuild
  exact ⟨htaken, ⟨hstream, hbase', hstep'⟩, hbuilt⟩

/-- **A BUILT ARRAY OPENS** as long as its bits are counted by an `int`. -/
theorem exists_openArray
    (hsize : b.elements.length + b.elements.flatten.length + 512 < intLimit) :
    ∃ array, openArray built.image = some array := by
  obtain ⟨-, hfits, rfl⟩ := layout_of_build hbase hstep hnew himage hbuild
  have hsum := sum_allSteps_le hbase hstep
  have hlimit : intLimit = 2147483648 := rfl
  have hstream : 8 * streamLength b ≤ b.elements.length + (allSteps b).sum + 32 := by
    rw [streamLength]
    omega
  obtain ⟨index, hinit⟩ := (init_stream_iff (b := b)).mpr ⟨by omega, by omega⟩
  exact ⟨arrayOf b index, (openArray_layout hfits).mpr ⟨by omega, index, hinit, rfl⟩⟩

/-- **THE LAYOUT OF A BUILT ARRAY**: from an element on, all elements stand behind each
    other, each padded to four bytes. -/
theorem bytesFrom_of_build (hsize : built.image.length < intLimit) {array : BitVectorBasedArray}
    (hopen : openArray built.image = some array) (hi : i < b.elements.length) :
    array.bytesFrom i = (b.elements.drop i).flatMap padded4 := by
  obtain ⟨htaken, hfits, rfl⟩ := layout_of_build hbase hstep hnew himage hbuild
  obtain ⟨-, index, hinit, rfl⟩ := (openArray_layout hfits).mp hopen
  obtain ⟨hbehind, hend⟩ := drop_layout_offset (b := b) (by omega) (Nat.le_of_lt hi)
  change (layout b).length < intLimit at hsize
  have hlimit : intLimit = 2147483648 := rfl
  have hlocate := locate_eq hinit (by omega) (fun _ _ _ => by omega)
    (List.getElem?_eq_getElem hi) (htaken _ (List.getElem_mem hi)).length_lt
  rw [toInt_of_lt (show offset b i < intLimit by omega), ← Int.natCast_add] at hlocate
  rw [BitVectorBasedArray.bytesFrom, hlocate, Option.bind_some, if_pos (Int.natCast_nonneg _),
    Option.getD_some, Int.toNat_natCast]
  show (layout b).drop (16 + streamLength b + offset b i) = _
  rw [hbehind, ← List.map_drop, ← List.flatMap_def]
  exact List.flatMap_congr (fun element _ => paddedElement_default hbase hstep element)

end Default

/-- **THE ARRAY READS ITS ELEMENTS BACK** exactly where the sizes and the elements are
    suitable. -/
theorem array_roundTrips_iff (elements : List Bytes) (baseLength stepLength : Nat)
    (hstep : 1 ≤ stepLength) :
    RoundTrips elements baseLength stepLength ↔ Suitable
      { elements := elements, baseLength := baseLength, stepLength := stepLength } := by
  rw [RoundTrips, filled_eq]
  constructor
  · rintro ⟨b, hb, hreads⟩
    cases hb
    exact hreads.suitable hstep rfl rfl
  · intro hsuitable
    exact ⟨_, rfl, hsuitable.readsBack hstep rfl rfl⟩

/-- Two elements with steps of two bytes. -/
theorem roundTrips_two : RoundTrips [[97], [97, 98, 99, 100, 101]] 4 2 := by
  refine (array_roundTrips_iff _ 4 2 (by decide)).mpr
    ⟨⟨by decide, fun _ => by decide⟩, ⟨by decide, fun _ => by decide⟩, ?_, by decide, by decide, ?_⟩
  · intro element hmem
    rcases List.mem_pair.mp hmem with rfl | rfl
    · exact Or.inl (by decide)
    · exact Or.inr (by decide)
  · intro i element helement
    have hi : i < 2 := (List.getElem?_eq_some_iff.mp helement).1
    refine Or.inl ?_
    interval_cases i <;> decide

theorem numStepsLoop_odd : ∀ (fuel length : Nat), length % 2 = 1 → length < 2 ^ 64 →
    numStepsLoop 0 2 fuel length = none := by
  intro fuel
  induction fuel with
  | zero => intro length _ _; rfl
  | succ fuel ih =>
    intro length hodd hlt
    rw [numStepsLoop, if_pos (by omega)]
    dsimp only
    rw [ih _ (by split_ifs <;> omega) (by split_ifs <;> omega), Option.map_none]

/-- A single byte, with nothing for the base and a step of two bytes: the loop does not
    end. -/
theorem roundTrips_small_base :
    numStepsLoop 0 2 (2 ^ 64 + 1) 1 = none ∧ ¬ RoundTrips [[97]] 0 2 := by
  refine ⟨numStepsLoop_odd _ 1 rfl (by decide), ?_⟩
  rintro ⟨b, hb, hreads⟩
  rw [filled_eq] at hb
  cases hb
  have hwrap := (numSteps_eq_iff (by decide) (by decide) [97]).mp
    (hreads.steps [97] List.mem_cons_self)
  rcases hwrap with hle | hlast
  · exact absurd hle (by decide)
  · exact absurd hlast (by decide)

end MozkeySuccinct
