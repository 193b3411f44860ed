import Mozkey.BitStreamProofs
import Mozkey.UnaryTreeProofs

/-! # BitVectorBasedArrayBuilder — writing padded elements

    An element is padded to the base length and as many steps as it needs.  The numbers of
    steps are written in unary behind a 0-bit. -/

namespace MozkeyLouds

open ByteString LittleEndian UnaryTree RankSelect

/-! ## The array of the source -/

/-- `BitVectorBasedArrayBuilder`, with the sizes that the constructor sets. -/
structure BitVectorBasedArrayBuilder where
  built : Bool := false
  elements : List Bytes := []
  baseLength : Nat := 4
  stepLength : Nat := 1
  image : Bytes := []

namespace BitVectorBasedArrayBuilder

/-- `Add`; `none` where the `CHECK` fails. -/
def add (b : BitVectorBasedArrayBuilder) (element : Bytes) : Option BitVectorBasedArrayBuilder :=
  if b.built then none else some { b with elements := b.elements ++ [element] }

/-- `SetSize`; `none` where the `CHECK` fails. -/
def setSize (b : BitVectorBasedArrayBuilder) (baseLength stepLength : Nat) :
    Option BitVectorBasedArrayBuilder :=
  if b.built then none else some { b with baseLength := baseLength, stepLength := stepLength }

/-- The loop that counts the steps; `none` where it does not end. -/
def numStepsLoop (baseLength stepLength : Nat) : Nat → Nat → Option Nat
  | 0, _ => none
  | fuel + 1, length =>
    if length > baseLength then
      -- the subtraction of `size_t`
      let length :=
        if length < stepLength then length + 2 ^ 64 - stepLength else length - stepLength
      (numStepsLoop baseLength stepLength fuel length).map (· + 1)
    else some 0

variable (b : BitVectorBasedArrayBuilder)

/-- The steps of an element; a loop that goes on for longer has met a length twice. -/
def numSteps (element : Bytes) : Option Nat :=
  numStepsLoop b.baseLength b.stepLength (2 ^ 64 + element.length) element.length

/-- The length of an element with its padding. -/
def outputLength (steps : Nat) : Nat := (b.baseLength + steps * b.stepLength) % 2 ^ 64

/-- The body of the loop of `Build`; `none` where the loop does not end, or the padding
    would be longer than any string. -/
def appendElement (out : BitStream × Bytes) (element : Bytes) : Option (BitStream × Bytes) :=
  match b.numSteps element with
  | none => none
  | some steps =>
    if b.outputLength steps < element.length then none
    else some
      ((List.replicate steps true).foldl BitStream.pushBit (out.1.pushBit false),
        out.2 ++ (element ++ List.replicate (b.outputLength steps - element.length) 0))

/-- `Build`; `none` where it fails. -/
def build : Option BitVectorBasedArrayBuilder :=
  if b.built then none
  else do
    let (bitStream, data) ← b.elements.foldlM b.appendElement (BitStream.empty, [])
    let bitStream := (bitStream.pushBit false).fillPadding32
    let image ← pushInt32 bitStream.byteSize b.image
    let image ← pushInt32 b.baseLength image
    let image ← pushInt32 b.stepLength image
    let image ← pushInt32 0 image
    some { b with built := true, image := image ++ bitStream.image ++ data }

end BitVectorBasedArrayBuilder

/-! ## The steps -/

open BitVectorBasedArrayBuilder

theorem numStepsLoop_eq {baseLength stepLength : Nat} (hpos : 0 < stepLength)
    (hstep : stepLength ≤ baseLength + 1) : ∀ (fuel length : Nat), length < fuel →
    numStepsLoop baseLength stepLength fuel length
      = some ((length - baseLength + stepLength - 1) / stepLength) := by
  intro fuel
  induction fuel with
  | zero => intro length h; exact absurd h (Nat.not_lt_zero _)
  | succ fuel ih =>
    intro length h
    rw [numStepsLoop]
    by_cases hlt : length > baseLength
    · rw [if_pos hlt]
      dsimp only
      rw [if_neg (by omega), ih _ (by omega), Option.map_some,
        show length - baseLength + stepLength - 1 = length - baseLength - 1 + stepLength
          from by omega, Nat.add_div_right _ hpos]
      by_cases hle : baseLength ≤ length - stepLength
      · rw [show length - stepLength - baseLength + stepLength - 1 = length - baseLength - 1
          from by omega]
      · rw [Nat.div_eq_of_lt (by omega), Nat.div_eq_of_lt (by omega)]
    · rw [if_neg hlt, Nat.div_eq_of_lt (by omega)]

/-- **THE NUMBER OF STEPS** rounds the rest of the length up, where a step is at most one
    more than the base length. -/
theorem numSteps_eq_some {b : BitVectorBasedArrayBuilder} (hpos : 0 < b.stepLength)
    (hstep : b.stepLength ≤ b.baseLength + 1) (element : Bytes) :
    b.numSteps element
      = some ((element.length - b.baseLength + b.stepLength - 1) / b.stepLength) :=
  numStepsLoop_eq hpos hstep _ _ (by omega)

/-! ## What is written -/

/-- An element with its padding. -/
def padded (b : BitVectorBasedArrayBuilder) (element : Bytes) (steps : Nat) : Bytes :=
  element ++ List.replicate (b.outputLength steps - element.length) 0

/-- The steps of an element that is taken. -/
structure Steps (b : BitVectorBasedArrayBuilder) (element : Bytes) (steps : Nat) : Prop where
  numSteps_eq : b.numSteps element = some steps
  length_le : element.length ≤ b.outputLength steps

theorem length_padded {b : BitVectorBasedArrayBuilder} {element : Bytes} {steps : Nat}
    (h : Steps b element steps) : (padded b element steps).length = b.outputLength steps := by
  have := h.length_le
  rw [padded, List.length_append, List.length_replicate]
  omega

theorem appendElement_eq_some {b : BitVectorBasedArrayBuilder} {out out' : BitStream × Bytes}
    {element : Bytes} :
    b.appendElement out element = some out' ↔ ∃ steps, Steps b element steps ∧
      out' = ((List.replicate steps true).foldl BitStream.pushBit (out.1.pushBit false),
        out.2 ++ padded b element steps) := by
  rw [appendElement]
  cases hsteps : b.numSteps element with
  | none => exact ⟨fun h => (nomatch h), fun ⟨_, h, _⟩ => (nomatch hsteps.symm.trans h.numSteps_eq)⟩
  | some steps =>
    dsimp only
    by_cases hlt : b.outputLength steps < element.length
    · rw [if_pos hlt]
      refine ⟨fun h => (nomatch h), fun ⟨steps', h, _⟩ => ?_⟩
      have heq := Option.some.inj (hsteps.symm.trans h.numSteps_eq)
      exact absurd (heq ▸ h.length_le) (Nat.not_le.mpr hlt)
    · rw [if_neg hlt]
      refine ⟨fun h => ⟨steps, ⟨hsteps, Nat.not_lt.mp hlt⟩, (Option.some.inj h).symm⟩, ?_⟩
      rintro ⟨steps', h, rfl⟩
      rw [Option.some.inj (hsteps.symm.trans h.numSteps_eq)]
      rfl

theorem holds_foldl_pushBit : ∀ (l : List Bool) {s : BitStream} {bits : List Bool}, Holds s bits →
    Holds (l.foldl BitStream.pushBit s) (bits ++ l) := by
  intro l
  induction l with
  | nil => intro s bits h; rw [List.append_nil]; exact h
  | cons bit rest ih =>
    intro s bits h
    have := ih (holds_pushBit h bit)
    rw [List.append_assoc] at this
    exact this

/-- The bits of the steps. -/
def stepBits (steps : List Nat) : List Bool :=
  steps.flatMap (fun d => false :: List.replicate d true)

/-- **THE LOOP OF `Build`** writes the steps and the padded elements. -/
theorem foldlM_appendElement {b : BitVectorBasedArrayBuilder} : ∀ {elements : List Bytes}
    {out out' : BitStream × Bytes} {bits : List Bool}, Holds out.1 bits →
    elements.foldlM b.appendElement out = some out' →
    ∃ steps, List.Forall₂ (Steps b) elements steps ∧ Holds out'.1 (bits ++ stepBits steps) ∧
      out'.2 = out.2 ++ (List.zipWith (padded b) elements steps).flatten := by
  intro elements
  induction elements with
  | nil =>
    intro out out' bits hbits h
    rw [List.foldlM_nil] at h
    obtain rfl := Option.some.inj h
    exact ⟨[], .nil, by rw [stepBits, List.flatMap_nil, List.append_nil]; exact hbits,
      (List.append_nil _).symm⟩
  | cons element rest ih =>
    intro out out' bits hbits h
    rw [List.foldlM_cons] at h
    obtain ⟨mid, hmid, hrest⟩ := Option.bind_eq_some_iff.mp h
    obtain ⟨d, hd, rfl⟩ := appendElement_eq_some.mp hmid
    have hnext := holds_foldl_pushBit (List.replicate d true) (holds_pushBit hbits false)
    obtain ⟨steps, hsteps, hholds, hdata⟩ := ih hnext hrest
    refine ⟨d :: steps, .cons hd hsteps, ?_, ?_⟩
    · rw [stepBits, List.flatMap_cons]
      rw [stepBits] at hholds
      simpa only [List.append_assoc, List.cons_append, List.nil_append] using hholds
    · rw [hdata, List.zipWith_cons_cons, List.flatten_cons, List.append_assoc]

/-- The 0-bits in front of the steps and the sentinel end the blocks of a unary sequence. -/
theorem stepBits_concat (steps : List Nat) : stepBits steps ++ [false] = unary (0 :: steps) := by
  induction steps with
  | nil => rfl
  | cons d steps ih =>
    rw [stepBits, List.flatMap_cons, List.append_assoc]
    rw [stepBits] at ih
    rw [ih]
    show false :: (List.replicate d true ++ false :: unary steps)
      = false :: ((List.replicate d true ++ [false]) ++ unary steps)
    rw [List.append_assoc]
    rfl

theorem build_eq_some_array {b built : BitVectorBasedArrayBuilder} (himage : b.image = [])
    (h : b.build = some built) :
    ∃ bitStream data, b.elements.foldlM b.appendElement (BitStream.empty, [])
        = some (bitStream, data) ∧
      (bitStream.pushBit false).fillPadding32.image.length ≤ 0xFFFFFFFF ∧
      b.baseLength ≤ 0xFFFFFFFF ∧ b.stepLength ≤ 0xFFFFFFFF ∧
      built.image = withHeader (bitStream.pushBit false).fillPadding32.image.length b.baseLength
        b.stepLength 0 ((bitStream.pushBit false).fillPadding32.image ++ data) := by
  rw [BitVectorBasedArrayBuilder.build] at h
  by_cases hb : b.built = true
  · rw [if_pos hb] at h
    exact nomatch h
  · rw [if_neg hb, himage] at h
    obtain ⟨⟨bitStream, data⟩, hfold, h⟩ := Option.bind_eq_some_iff.mp h
    obtain ⟨image0, h0, h⟩ := Option.bind_eq_some_iff.mp h
    obtain ⟨image1, h1, h⟩ := Option.bind_eq_some_iff.mp h
    obtain ⟨image2, h2, h⟩ := Option.bind_eq_some_iff.mp h
    obtain ⟨image3, h3, h⟩ := Option.bind_eq_some_iff.mp h
    obtain ⟨hle0, rfl⟩ := pushInt32_eq_some.mp h0
    obtain ⟨hle1, rfl⟩ := pushInt32_eq_some.mp h1
    obtain ⟨hle2, rfl⟩ := pushInt32_eq_some.mp h2
    obtain ⟨-, rfl⟩ := pushInt32_eq_some.mp h3
    rw [← Option.some.inj h]
    refine ⟨bitStream, data, hfold, hle0, hle1, hle2, ?_⟩
    simp only [withHeader, BitStream.byteSize, List.nil_append, List.append_assoc]

/-! ## With the sizes of the constructor -/

section Default

variable {b : BitVectorBasedArrayBuilder} (hbase : b.baseLength = 4) (hstep : b.stepLength = 1)
include hbase hstep

theorem Steps.of_default {element : Bytes} {d : Nat} (h : Steps b element d) :
    d = element.length - 4 ∧ b.baseLength + d * b.stepLength < 2 ^ 64 := by
  have hd := h.numSteps_eq
  rw [numSteps_eq_some (by omega) (by omega), hbase, hstep, Nat.add_sub_cancel, Nat.div_one] at hd
  have hd' := Option.some.inj hd
  have hle := h.length_le
  rw [outputLength, hbase, hstep] at hle
  rw [hbase, hstep]
  omega

theorem steps_default {element : Bytes} (h : element.length < 2 ^ 64) :
    Steps b element (element.length - 4) := by
  refine ⟨?_, ?_⟩
  · rw [numSteps_eq_some (by omega) (by omega), hbase, hstep, Nat.add_sub_cancel, Nat.div_one]
  · rw [outputLength, hbase, hstep]
    omega

/-- An element with the padding to four bytes. -/
def padded4 (element : Bytes) : Bytes := element ++ List.replicate (4 - element.length) 0

/-- The loop of `Build` takes elements of any length that a string can have. -/
theorem foldlM_appendElement_isSome : ∀ {elements : List Bytes} (out : BitStream × Bytes),
    (∀ element ∈ elements, element.length < 2 ^ 64) →
    (elements.foldlM b.appendElement out).isSome = true := by
  intro elements
  induction elements with
  | nil => intro out _; rfl
  | cons element rest ih =>
    intro out hlen
    rw [List.foldlM_cons, appendElement_eq_some.mpr
      ⟨_, steps_default hbase hstep (hlen element List.mem_cons_self), rfl⟩]
    exact ih _ (fun e he => hlen e (List.mem_cons_of_mem _ he))

/-- The steps take a bit for an element and for some of the bytes. -/
theorem length_stepBits_le {elements : List Bytes} {steps : List Nat}
    (h : List.Forall₂ (Steps b) elements steps) :
    (stepBits steps).length ≤ elements.length + elements.flatten.length := by
  induction h with
  | nil => exact Nat.zero_le _
  | cons hd _ ih =>
    have := (hd.of_default hbase hstep).1
    rw [stepBits, List.flatMap_cons, List.length_append, List.length_cons,
      List.length_replicate, List.length_cons, List.flatten_cons, List.length_append]
    rw [stepBits] at ih
    omega

/-- **BUILDING SUCCEEDS** as long as the sizes fit the header. -/
theorem build_isSome (hnew : b.built = false)
    (hsize : b.elements.length + b.elements.flatten.length < 2 ^ 32) :
    b.build.isSome = true := by
  have hlen : ∀ element ∈ b.elements, element.length ≤ b.elements.flatten.length :=
    fun element helement => (List.sublist_flatten_of_mem helement).length_le
  obtain ⟨out, hfold⟩ := Option.isSome_iff_exists.mp
    (foldlM_appendElement_isSome hbase hstep (BitStream.empty, [])
      (fun element helement => by have := hlen element helement; omega))
  obtain ⟨steps, hsteps, hholds, -⟩ := foldlM_appendElement holds_empty hfold
  have hcount := length_stepBits_le hbase hstep hsteps
  have hbytes := byteSize_fillPadding32_le (holds_pushBit hholds false)
  rw [List.nil_append, List.length_append, List.length_singleton] at hbytes
  have hsome : ∀ value image, value ≤ 0xFFFFFFFF →
      pushInt32 value image = some (image ++ storeLE 4 value) :=
    fun value image h => pushInt32_eq_some.mpr ⟨h, rfl⟩
  rw [BitVectorBasedArrayBuilder.build, if_neg (by rw [hnew]; exact Bool.false_ne_true), hfold,
    hbase, hstep]
  simp only [Option.bind_eq_bind, Option.bind_some, Option.isSome_some,
    hsome _ _ (show (out.1.pushBit false).fillPadding32.byteSize ≤ 0xFFFFFFFF by omega),
    hsome _ _ (show 4 ≤ 0xFFFFFFFF by decide), hsome _ _ (show 1 ≤ 0xFFFFFFFF by decide),
    hsome _ _ (show 0 ≤ 0xFFFFFFFF by decide)]

end Default

end MozkeyLouds
