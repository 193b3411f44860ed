import Mozkey.LittleEndianProofs

/-! # DictionaryFileCodec — the sections of a dictionary file

    A file is a magic, a seed, the sections, and a zero.  A section is its size, the
    fingerprint of its name and its image, padded to four bytes.  The reader walks from
    header to header by the sizes it finds; the only check is on the end of a section, so
    a negative size takes it back. -/

namespace MozkeyDictionaryFile

open ByteString LittleEndian

/-! ## The codec of the source -/

/-- `DictionaryFileCodec`. -/
structure DictionaryFileCodec where
  seed : Int32 := 2135654146
  filemagic : Int32 := 20110701

/-- An `absl::string_view` into the image: where it starts, and its `size_t`. -/
structure View where
  offset : Int
  length : Nat
deriving DecidableEq

/-- The end of a view. -/
def View.finish (view : View) : Int := view.offset + (view.length : Int)

/-- `DictionaryFileSection`; the image is a string to write, and a view that was read. -/
structure DictionaryFileSection (Image : Type) where
  image : Image
  name : Bytes
deriving DecidableEq

/-- `absl::Status`, as far as it is used. -/
inductive Status where
  | ok
  | failedPrecondition (message : Bytes)
  | outOfRange (message : Bytes)
deriving DecidableEq

/-- `filecodec_util::WriteInt32`. -/
def writeInt32 (value : Int32) : Bytes := storeLE 4 value.toUInt32.toNat

/-- `RoundUp4`; `none` where the `int` overflows. -/
def roundUp4 (length : Int) : Option Int :=
  let rem := length.tmod 4
  let rounded := length + (4 - rem).tmod 4
  if rounded < 2 ^ 31 then some rounded else none

/-- `Pad4`; at most three bytes are written. -/
def pad4 (length : Int) : Bytes :=
  if length.tmod 4 = 0 then []
  else if (length + 1).tmod 4 = 0 then [0]
  else if (length + 2).tmod 4 = 0 then [0, 0]
  else [0, 0, 0]

/-- `WriteHeader`. -/
def writeHeader (codec : DictionaryFileCodec) : Bytes :=
  writeInt32 codec.filemagic ++ writeInt32 codec.seed

/-- `WriteSection`; the size of the image becomes an `int`. -/
def writeSection (s : DictionaryFileSection Bytes) : Bytes :=
  let size := Int32.ofNat s.image.length
  writeInt32 size ++ s.name ++ s.image ++ pad4 size.toInt

/-- The order in which `WriteSections` writes. -/
def writeOrder {α : Type} (sections : List α) : List α :=
  if sections.length = 4 then [0, 2, 1, 3].filterMap (fun i => sections[i]?) else sections

/-- `WriteSections`. -/
def writeSections (codec : DictionaryFileCodec) (sections : List (DictionaryFileSection Bytes)) :
    Bytes :=
  writeHeader codec ++ (writeOrder sections).flatMap writeSection ++ writeInt32 0

/-- The bytes at a pointer into the image; `none` where they are not in the image. -/
def loadBytes (image : Bytes) (ptr : Int) (n : Nat) : Option Bytes :=
  if 0 ≤ ptr ∧ ptr + n ≤ image.length then some ((image.drop ptr.toNat).take n) else none

/-- `LoadUnalignedAdvance<int32_t>`, without the advance. -/
def loadInt32 (image : Bytes) (ptr : Int) : Option Int32 :=
  (loadBytes image ptr 4).map (fun bytes => (UInt32.ofNat (loadLE bytes)).toInt32)

/-- The loop of `ReadSections`; pointers are offsets.  `none` where it reads what is not in
    the image, an `int` overflows, or it does not end. -/
def readLoop (image : Bytes) : Nat → Nat → Int → List (DictionaryFileSection View) →
    Option (Status × List (DictionaryFileSection View))
  | 0, _, _, _ => none
  | fuel + 1, sectionIndex, ptr, sections =>
    let imageEnd : Int := image.length
    if imageEnd - ptr < 4 then
      some (.outOfRange (ascii "codec.cc: Section " ++ decimal sectionIndex ++
        ascii ": Insufficient image to read data_size(4 bytes), available size = " ++
        decimalInt (imageEnd - ptr)), sections)
    else
      (loadInt32 image ptr).bind (fun dataSize =>
        let ptr := ptr + 4
        if dataSize.toInt = 0 then
          if ptr ≠ imageEnd then
            some (.failedPrecondition (ascii "codec.cc: " ++ decimalInt (imageEnd - ptr) ++
              ascii " bytes remaining out of " ++ decimal image.length), sections)
          else some (.ok, sections)
        else
          (roundUp4 dataSize.toInt).bind (fun paddedDataSize =>
            let sectionEnd := ptr + 8 + paddedDataSize
            if sectionEnd > imageEnd then
              some (.outOfRange (ascii "codec.cc: Section " ++ decimal sectionIndex ++
                ascii ": Read pointer will pass the end: offset=" ++ decimalInt sectionEnd ++
                ascii ", image_size=" ++ decimal image.length), sections)
            else
              (loadBytes image ptr 8).bind (fun fingerprint =>
                let ptr := ptr + 8
                -- the `int32_t` becomes a `size_t`
                let view : View := ⟨ptr, (dataSize.toInt % 2 ^ 64).toNat⟩
                readLoop image fuel (sectionIndex + 1) (ptr + paddedDataSize)
                  (sections ++ [{ image := view, name := fingerprint }]))))

/-- `ReadSections` of an image at an address: the status, the codec with the seed that was
    read, and the sections; `none` where the loop goes wrong or does not end. -/
def readSections (codec : DictionaryFileCodec) (fuel address : Nat) (image : Bytes)
    (sections : List (DictionaryFileSection View)) :
    Option (Status × DictionaryFileCodec × List (DictionaryFileSection View)) :=
  if image.length < 12 then
    some (.failedPrecondition (ascii "codec.cc: Insufficient data size: " ++
      decimal image.length ++ ascii " bytes"), codec, sections)
  else if address % 4 ≠ 0 then
    some (.failedPrecondition (ascii "codec.cc: memory block of size " ++ decimal image.length ++
      ascii " is not aligned at 32-bit boundary"), codec, sections)
  else
    (loadInt32 image 0).bind (fun filemagic =>
      if filemagic ≠ codec.filemagic then
        some (.failedPrecondition
          (ascii "codec.cc: Invalid dictionary file magic. Expected: " ++
            decimalInt codec.filemagic.toInt ++ ascii " Actual: " ++ decimalInt filemagic.toInt),
          codec, sections)
      else
        (loadInt32 image 4).bind (fun seed =>
          (readLoop image fuel 0 8 sections).map (fun read =>
            (read.1, { codec with seed := seed }, read.2))))

/-! ## The walk over the headers -/

section

variable (image : Bytes)

/-- The header at an offset has a section, and the next header stands behind it. -/
inductive Step : Int → Int → Prop
  | mk {ptr padded : Int} {dataSize : Int32} (hsize : loadInt32 image ptr = some dataSize)
      (hne : dataSize.toInt ≠ 0) (hpadded : roundUp4 dataSize.toInt = some padded)
      (hend : ptr + 12 + padded ≤ image.length) (hname : ptr + 12 ≤ image.length) :
      Step ptr (ptr + 12 + padded)

/-- The header at an offset is that of a section with a positive size, or it is rejected. -/
def Sized (ptr : Int) : Prop :=
  ∀ dataSize, loadInt32 image ptr = some dataSize → ∃ padded,
    roundUp4 dataSize.toInt = some padded ∧
      (dataSize.toInt < 0 → (image.length : Int) < ptr + 12 + padded)

/-- The header at an offset is rejected: it is cut off, it ends the sections before the
    image ends, or its section passes the end. -/
def Rejected (ptr : Int) : Prop :=
  (image.length : Int) - ptr < 4 ∨ ∃ dataSize, loadInt32 image ptr = some dataSize ∧
    ((dataSize.toInt = 0 ∧ ptr + 4 ≠ image.length) ∨
      (dataSize.toInt ≠ 0 ∧ ∃ padded, roundUp4 dataSize.toInt = some padded ∧
        (image.length : Int) < ptr + 12 + padded))

/-- All headers that a walk from an offset comes to have positive sizes, or are rejected. -/
def WellSized (ptr : Int) : Prop :=
  ∀ ptr', Relation.ReflTransGen (Step image) ptr ptr' → Sized image ptr'

/-- A walk from an offset comes to a header that is rejected. -/
def BreaksOff (ptr : Int) : Prop :=
  ∃ ptr', Relation.ReflTransGen (Step image) ptr ptr' ∧ Rejected image ptr'

/-- The views lie behind each other, between an offset and the end of the image. -/
structure InOrder (ptr : Int) (sections : List (DictionaryFileSection View)) : Prop where
  start : ∀ s ∈ sections, ptr ≤ s.image.offset
  finish : ∀ s ∈ sections, s.image.finish ≤ image.length
  pairwise : sections.Pairwise (fun s t => s.image.finish ≤ t.image.offset)

end

/-! ## One header -/

theorem toNat_size {size : Int} (h0 : 0 ≤ size) (h1 : size < 2 ^ 31) :
    ((size % 2 ^ 64).toNat : Int) = size := by
  rw [Int.emod_eq_of_lt h0 (by omega)]
  exact Int.toNat_of_nonneg h0

theorem roundUp4_of_nonneg {size padded : Int} (h0 : 0 ≤ size) (h : roundUp4 size = some padded) :
    padded = size + (4 - size % 4) % 4 := by
  rw [roundUp4] at h
  rw [Int.tmod_eq_emod_of_nonneg h0, Int.tmod_eq_emod_of_nonneg (by omega)] at h
  by_cases hlt : size + (4 - size % 4) % 4 < 2 ^ 31
  · rw [if_pos hlt] at h
    exact (Option.some.inj h).symm
  · rw [if_neg hlt] at h
    exact nomatch h

theorem loadInt32_bounds {image : Bytes} {ptr : Int} {value : Int32}
    (h : loadInt32 image ptr = some value) : 0 ≤ ptr ∧ ptr + 4 ≤ image.length := by
  obtain ⟨bytes, hbytes, -⟩ := Option.map_eq_some_iff.mp h
  rw [loadBytes] at hbytes
  by_cases hin : 0 ≤ ptr ∧ ptr + (4 : Nat) ≤ image.length
  · exact hin
  · rw [if_neg hin] at hbytes
    exact nomatch hbytes

theorem exists_loadInt32 (image : Bytes) (ptr : Int) (h0 : 0 ≤ ptr)
    (h1 : ptr + 4 ≤ image.length) : ∃ value, loadInt32 image ptr = some value := by
  rw [loadInt32, loadBytes, if_pos ⟨h0, h1⟩]
  exact ⟨_, rfl⟩

section

variable {image : Bytes} {ptr : Int} (fuel sectionIndex : Nat)
  (sections : List (DictionaryFileSection View))

theorem readLoop_of_rejected (h : Rejected image ptr) : ∃ status, status ≠ .ok ∧
    readLoop image (fuel + 1) sectionIndex ptr sections = some (status, sections) := by
  rw [readLoop]
  by_cases hcut : (image.length : Int) - ptr < 4
  · dsimp only
    rw [if_pos hcut]
    refine ⟨_, ?_, rfl⟩
    exact fun hc => nomatch hc
  · dsimp only
    rw [if_neg hcut]
    rcases h with h | ⟨dataSize, hsize, ⟨hzero, hmore⟩ | ⟨hne, padded, hpadded, hpass⟩⟩
    · exact absurd h hcut
    · rw [hsize, Option.bind_some, if_pos hzero, if_pos hmore]
      refine ⟨_, ?_, rfl⟩
      exact fun hc => nomatch hc
    · rw [hsize, Option.bind_some, if_neg hne, hpadded, Option.bind_some, if_pos (by omega)]
      refine ⟨_, ?_, rfl⟩
      exact fun hc => nomatch hc

theorem readLoop_of_end {dataSize : Int32} (hsize : loadInt32 image ptr = some dataSize)
    (hzero : dataSize.toInt = 0) (hend : ptr + 4 = image.length) :
    readLoop image (fuel + 1) sectionIndex ptr sections = some (.ok, sections) := by
  rw [readLoop]
  dsimp only
  rw [if_neg (by omega), hsize, Option.bind_some, if_pos hzero, if_neg (not_not.mpr hend)]

/-- A section is added, and the loop goes on at the next header. -/
theorem readLoop_of_step {dataSize : Int32} {padded : Int} {fingerprint : Bytes}
    (hsize : loadInt32 image ptr = some dataSize) (hne : dataSize.toInt ≠ 0)
    (hpadded : roundUp4 dataSize.toInt = some padded)
    (hend : ptr + 12 + padded ≤ image.length)
    (hname : loadBytes image (ptr + 4) 8 = some fingerprint) :
    readLoop image (fuel + 1) sectionIndex ptr sections
      = readLoop image fuel (sectionIndex + 1) (ptr + 12 + padded)
          (sections ++ [⟨⟨ptr + 12, (dataSize.toInt % 2 ^ 64).toNat⟩, fingerprint⟩]) := by
  have hbounds := loadInt32_bounds hsize
  rw [readLoop]
  dsimp only
  rw [if_neg (by omega), hsize, Option.bind_some, if_neg hne, hpadded, Option.bind_some,
    if_neg (by omega), hname, Option.bind_some, show ptr + 4 + 8 = ptr + 12 by omega]

/-- **WHAT ONE TURN OF THE LOOP DOES.** -/
theorem readLoop_cases {result : Status × List (DictionaryFileSection View)}
    (h : readLoop image (fuel + 1) sectionIndex ptr sections = some result) :
    (Rejected image ptr ∧ result.1 ≠ .ok ∧ result.2 = sections) ∨
    ((∃ dataSize, loadInt32 image ptr = some dataSize ∧ dataSize.toInt = 0) ∧
      result = (.ok, sections)) ∨
    ∃ dataSize padded fingerprint, loadInt32 image ptr = some dataSize ∧ dataSize.toInt ≠ 0 ∧
      roundUp4 dataSize.toInt = some padded ∧ ptr + 12 + padded ≤ image.length ∧
      loadBytes image (ptr + 4) 8 = some fingerprint ∧
      readLoop image fuel (sectionIndex + 1) (ptr + 12 + padded)
        (sections ++ [⟨⟨ptr + 12, (dataSize.toInt % 2 ^ 64).toNat⟩, fingerprint⟩])
          = some result := by
  by_cases hrejected : Rejected image ptr
  · obtain ⟨status, hne, heq⟩ := readLoop_of_rejected fuel sectionIndex sections hrejected
    have hresult := Option.some.inj (heq.symm.trans h)
    rw [← hresult]
    exact Or.inl ⟨hrejected, hne, rfl⟩
  have hcopy := h
  rw [readLoop] at h
  dsimp only at h
  rw [if_neg (fun hc => hrejected (Or.inl hc))] at h
  obtain ⟨dataSize, hsize, h⟩ := Option.bind_eq_some_iff.mp h
  by_cases hzero : dataSize.toInt = 0
  · rw [if_pos hzero] at h
    by_cases hmore : ptr + 4 ≠ image.length
    · exact absurd (Or.inr ⟨dataSize, hsize, Or.inl ⟨hzero, hmore⟩⟩) hrejected
    · rw [if_neg hmore] at h
      exact Or.inr (Or.inl ⟨⟨dataSize, hsize, hzero⟩, (Option.some.inj h).symm⟩)
  · rw [if_neg hzero] at h
    obtain ⟨padded, hpadded, h⟩ := Option.bind_eq_some_iff.mp h
    by_cases hpass : ptr + 4 + 8 + padded > image.length
    · exact absurd (Or.inr ⟨dataSize, hsize, Or.inr ⟨hzero, padded, hpadded, by omega⟩⟩) hrejected
    · rw [if_neg hpass] at h
      obtain ⟨fingerprint, hname, -⟩ := Option.bind_eq_some_iff.mp h
      refine Or.inr (Or.inr
        ⟨dataSize, padded, fingerprint, hsize, hzero, hpadded, by omega, hname, ?_⟩)
      rw [← readLoop_of_step fuel sectionIndex sections hsize hzero hpadded (by omega) hname]
      exact hcopy

end

/-! ## The whole walk -/

section

variable {image : Bytes}

theorem exists_loadBytes {ptr : Int} {n : Nat} (h0 : 0 ≤ ptr) (h1 : ptr + n ≤ image.length) :
    loadBytes image ptr n = some ((image.drop ptr.toNat).take n) := if_pos ⟨h0, h1⟩

theorem WellSized.sized {ptr : Int} (h : WellSized image ptr) : Sized image ptr :=
  h ptr .refl

theorem WellSized.next {ptr ptr' : Int} (h : WellSized image ptr) (hstep : Step image ptr ptr') :
    WellSized image ptr' := fun ptr'' hwalk => h ptr'' (.head hstep hwalk)

theorem InOrder.nil (ptr : Int) : InOrder image ptr [] :=
  ⟨fun _ h => absurd h List.not_mem_nil, fun _ h => absurd h List.not_mem_nil, .nil⟩

theorem InOrder.cons {ptr ptr' : Int} {s : DictionaryFileSection View}
    {sections : List (DictionaryFileSection View)} (h : InOrder image ptr' sections)
    (hstart : ptr ≤ s.image.offset) (hfinish : s.image.finish ≤ ptr')
    (hnext : ptr' ≤ image.length) : InOrder image ptr (s :: sections) := by
  have hle : s.image.offset ≤ s.image.finish := by
    rw [View.finish]
    omega
  refine ⟨?_, ?_, List.pairwise_cons.mpr ⟨?_, h.pairwise⟩⟩
  · intro t ht
    rcases List.mem_cons.mp ht with rfl | ht
    · exact hstart
    · exact Int.le_trans (Int.le_trans hstart hle) (Int.le_trans hfinish (h.start t ht))
  · intro t ht
    rcases List.mem_cons.mp ht with rfl | ht
    · exact Int.le_trans hfinish hnext
    · exact h.finish t ht
  · intro t ht
    exact Int.le_trans hfinish (h.start t ht)

/-- **THE WALK OVER POSITIVE SIZES ENDS**, and its sections lie behind each other; what is
    left of the image gets shorter. -/
theorem readLoop_of_wellSized : ∀ (left : Nat) {ptr : Int}, 0 ≤ ptr →
    ((image.length : Int) - ptr).toNat < left → WellSized image ptr →
    ∀ (sectionIndex : Nat) (sections : List (DictionaryFileSection View)),
      ∃ fuel status added, readLoop image fuel sectionIndex ptr sections
          = some (status, sections ++ added) ∧ InOrder image ptr added := by
  intro left
  induction left with
  | zero => intro ptr _ hleft; omega
  | succ left ih =>
    intro ptr h0 hleft hsized sectionIndex sections
    by_cases hrejected : Rejected image ptr
    · obtain ⟨status, -, heq⟩ := readLoop_of_rejected 0 sectionIndex sections hrejected
      exact ⟨1, status, [], by rw [List.append_nil]; exact heq, .nil ptr⟩
    obtain ⟨dataSize, hsize⟩ := exists_loadInt32 image ptr h0
      (by have := not_or.mp hrejected; omega)
    by_cases hzero : dataSize.toInt = 0
    · have hend : ptr + 4 = image.length :=
        by_contra fun hmore => hrejected (Or.inr ⟨dataSize, hsize, Or.inl ⟨hzero, hmore⟩⟩)
      exact ⟨1, .ok, [], by
        rw [List.append_nil]
        exact readLoop_of_end 0 sectionIndex sections hsize hzero hend, .nil ptr⟩
    obtain ⟨padded, hpadded, hneg⟩ := hsized.sized dataSize hsize
    have hend : ptr + 12 + padded ≤ image.length := by
      by_contra hpass
      exact hrejected (Or.inr ⟨dataSize, hsize, Or.inr ⟨hzero, padded, hpadded, by omega⟩⟩)
    have hpos : 0 < dataSize.toInt := by
      by_contra hle
      have := hneg (by omega)
      omega
    have hround := roundUp4_of_nonneg (by omega) hpadded
    have hname : loadBytes image (ptr + 4) 8 = _ := exists_loadBytes (by omega) (by omega)
    have hstep : Step image ptr (ptr + 12 + padded) :=
      .mk hsize hzero hpadded hend (by omega)
    obtain ⟨fuel, status, added, heq, hinOrder⟩ := ih (by omega)
      (by omega) (hsized.next hstep) (sectionIndex + 1) (sections ++
        [⟨⟨ptr + 12, (dataSize.toInt % 2 ^ 64).toNat⟩, (image.drop (ptr + 4).toNat).take 8⟩])
    refine ⟨fuel + 1, status, ⟨⟨ptr + 12, (dataSize.toInt % 2 ^ 64).toNat⟩,
      (image.drop (ptr + 4).toNat).take 8⟩ :: added, ?_, ?_⟩
    · rw [readLoop_of_step fuel sectionIndex sections hsize hzero hpadded hend hname, heq,
        List.append_assoc]
      rfl
    · refine hinOrder.cons ?_ ?_ hend
      · show ptr ≤ ptr + 12
        omega
      · have hnat := toNat_size (by omega) dataSize.toInt_lt
        show ptr + 12 + ((dataSize.toInt % 2 ^ 64).toNat : Int) ≤ ptr + 12 + padded
        omega

/-- **A WALK THAT BREAKS OFF IS AN ERROR**; the induction is on the walk. -/
theorem readLoop_of_breaksOff {ptr : Int} (h : BreaksOff image ptr) :
    ∀ (sectionIndex : Nat) (sections : List (DictionaryFileSection View)),
      ∃ fuel status sections', status ≠ .ok ∧
        readLoop image fuel sectionIndex ptr sections = some (status, sections') := by
  obtain ⟨ptr', hwalk, hrejected⟩ := h
  induction hwalk using Relation.ReflTransGen.head_induction_on with
  | refl =>
    intro sectionIndex sections
    obtain ⟨status, hne, heq⟩ := readLoop_of_rejected 0 sectionIndex sections hrejected
    exact ⟨1, status, sections, hne, heq⟩
  | head hstep _ ih =>
    intro sectionIndex sections
    obtain ⟨hsize, hne, hpadded, hend, hname⟩ := hstep
    have hbounds := loadInt32_bounds hsize
    obtain ⟨fuel, status, sections', hstatus, heq⟩ := ih (sectionIndex + 1) _
    refine ⟨fuel + 1, status, sections', hstatus, ?_⟩
    rw [readLoop_of_step fuel sectionIndex sections hsize hne hpadded hend
      (exists_loadBytes (by omega) (by omega))]
    exact heq

theorem Step.next_eq {ptr ptr' padded : Int} {dataSize : Int32} (h : Step image ptr ptr')
    (hsize : loadInt32 image ptr = some dataSize)
    (hpadded : roundUp4 dataSize.toInt = some padded) : ptr' = ptr + 12 + padded := by
  obtain ⟨hsize', hne, hpadded', hend, hname⟩ := h
  rw [← Option.some.inj (hsize.symm.trans hsize'), hpadded] at hpadded'
  rw [Option.some.inj hpadded']

/-- **WHAT A RUN SAYS ABOUT THE WALK**: an error breaks it off, and without one the sizes
    are positive if the views end in the image; the induction is on the fuel. -/
theorem walk_of_readLoop (himage : image.length < 2 ^ 63) : ∀ (fuel : Nat) {ptr : Int}
    {sectionIndex : Nat} {sections : List (DictionaryFileSection View)}
    {result : Status × List (DictionaryFileSection View)},
    readLoop image fuel sectionIndex ptr sections = some result →
    ∃ added, result.2 = sections ++ added ∧ (result.1 ≠ .ok → BreaksOff image ptr) ∧
      (result.1 = .ok → (∀ s ∈ added, s.image.finish ≤ image.length) → WellSized image ptr) := by
  intro fuel
  induction fuel with
  | zero => intro ptr sectionIndex sections result h; exact nomatch h
  | succ fuel ih =>
    intro ptr sectionIndex sections result h
    rcases readLoop_cases fuel sectionIndex sections h with ⟨hrejected, hne, heq⟩ |
      ⟨⟨dataSize, hsize, hzero⟩, rfl⟩ |
      ⟨dataSize, padded, fingerprint, hsize, hne, hpadded, hend, hname, heq⟩
    · exact ⟨[], by rw [List.append_nil, heq], fun _ => ⟨ptr, .refl, hrejected⟩,
        fun hok => absurd hok hne⟩
    · refine ⟨[], (List.append_nil _).symm, fun hne => absurd rfl hne, ?_⟩
      intro _ _ ptr' hwalk
      rcases hwalk.cases_head with rfl | ⟨next, hstep, -⟩
      · intro dataSize' hsize'
        rw [← Option.some.inj (hsize.symm.trans hsize'), hzero]
        exact ⟨0, rfl, fun hneg => absurd hneg (by decide)⟩
      · obtain ⟨hsize', hne', -, -, -⟩ := hstep
        rw [← Option.some.inj (hsize.symm.trans hsize')] at hne'
        exact absurd hzero hne'
    · obtain ⟨added, hadded, hbreaks, hsized⟩ := ih heq
      have hbounds := loadInt32_bounds hsize
      have hname' : ptr + 12 ≤ image.length := by
        rw [loadBytes] at hname
        by_cases hin : 0 ≤ ptr + 4 ∧ ptr + 4 + (8 : Nat) ≤ image.length
        · omega
        · rw [if_neg hin] at hname
          exact nomatch hname
      have hstep : Step image ptr (ptr + 12 + padded) := .mk hsize hne hpadded hend hname'
      refine ⟨⟨⟨ptr + 12, (dataSize.toInt % 2 ^ 64).toNat⟩, fingerprint⟩ :: added, ?_, ?_, ?_⟩
      · rw [hadded, List.append_assoc]
        rfl
      · intro hok
        obtain ⟨ptr', hwalk, hrejected⟩ := hbreaks hok
        exact ⟨ptr', .head hstep hwalk, hrejected⟩
      · intro hok hfinish ptr' hwalk
        rcases hwalk.cases_head with rfl | ⟨next, hfirst, hrest⟩
        · intro dataSize' hsize'
          rw [← Option.some.inj (hsize.symm.trans hsize')]
          refine ⟨padded, hpadded, fun hneg => ?_⟩
          -- a negative size is a `size_t` that passes every image
          have hview : ptr + 12 + ((dataSize.toInt % 2 ^ 64).toNat : Int) ≤ image.length :=
            hfinish _ List.mem_cons_self
          have hle := dataSize.le_toInt
          have hmod : dataSize.toInt % 2 ^ 64 = dataSize.toInt + 2 ^ 64 := by omega
          rw [hmod] at hview
          omega
        · rw [hfirst.next_eq hsize hpadded] at hrest
          exact hsized hok (fun s hs => hfinish s (List.mem_cons_of_mem _ hs)) ptr' hrest

end

/-! ## Reading within the image -/

/-- The file is rejected before its first section. -/
def HeaderRejected (codec : DictionaryFileCodec) (address : Nat) (image : Bytes) : Prop :=
  image.length < 12 ∨ address % 4 ≠ 0 ∨ loadInt32 image 0 ≠ some codec.filemagic

/-- `ReadSections` ends, reads nothing outside of the image, and returns an error or sections
    whose views lie behind each other in the image. -/
def ReadsInBounds (codec : DictionaryFileCodec) (address : Nat) (image : Bytes) : Prop :=
  ∃ fuel status codec' sections,
    readSections codec fuel address image [] = some (status, codec', sections) ∧
      (status = .ok → InOrder image 0 sections)

theorem readSections_of_headerRejected {codec : DictionaryFileCodec} {address : Nat}
    {image : Bytes} (h : HeaderRejected codec address image) (fuel : Nat) :
    ∃ status, status ≠ .ok ∧
      readSections codec fuel address image [] = some (status, codec, []) := by
  rw [readSections]
  by_cases hshort : image.length < 12
  · rw [if_pos hshort]
    refine ⟨_, ?_, rfl⟩
    exact fun hc => nomatch hc
  rw [if_neg hshort]
  by_cases haligned : address % 4 ≠ 0
  · rw [if_pos haligned]
    refine ⟨_, ?_, rfl⟩
    exact fun hc => nomatch hc
  rw [if_neg haligned]
  obtain ⟨filemagic, hmagic⟩ := exists_loadInt32 image 0 (by omega) (by omega)
  have hne : filemagic ≠ codec.filemagic := by
    rintro rfl
    exact (h.resolve_left hshort).resolve_left haligned hmagic
  rw [hmagic, Option.bind_some, if_pos hne]
  refine ⟨_, ?_, rfl⟩
  exact fun hc => nomatch hc

theorem readSections_of_header {codec : DictionaryFileCodec} {address : Nat}
    {image : Bytes} (h : ¬ HeaderRejected codec address image) :
    ∃ seed, loadInt32 image 4 = some seed ∧ ∀ fuel sections,
      readSections codec fuel address image sections
        = (readLoop image fuel 0 8 sections).map (fun read =>
            (read.1, { codec with seed := seed }, read.2)) := by
  obtain ⟨hshort, h⟩ := not_or.mp h
  obtain ⟨haligned, hmagic⟩ := not_or.mp h
  obtain ⟨seed, hseed⟩ := exists_loadInt32 image 4 (by omega) (by omega)
  refine ⟨seed, hseed, ?_⟩
  intro fuel sections
  rw [readSections, if_neg hshort, if_neg haligned, not_not.mp hmagic, Option.bind_some,
    if_neg (fun hc => hc rfl), hseed, Option.bind_some]

theorem InOrder.mono {image : Bytes} {ptr ptr' : Int}
    {sections : List (DictionaryFileSection View)} (h : InOrder image ptr' sections)
    (hle : ptr ≤ ptr') : InOrder image ptr sections :=
  ⟨fun s hs => Int.le_trans hle (h.start s hs), h.finish, h.pairwise⟩

/-- **WHEN THE READER STAYS WITHIN THE IMAGE**: the file is rejected at once, or the sizes
    that the walk over the headers comes to are positive, or the walk breaks off. -/
theorem readsInBounds_iff (codec : DictionaryFileCodec) (address : Nat) (image : Bytes)
    (himage : image.length < 2 ^ 63) :
    ReadsInBounds codec address image ↔
      HeaderRejected codec address image ∨ WellSized image 8 ∨ BreaksOff image 8 := by
  by_cases hheader : HeaderRejected codec address image
  · obtain ⟨status, hne, heq⟩ := readSections_of_headerRejected hheader 0
    exact ⟨fun _ => Or.inl hheader, fun _ => ⟨0, status, codec, [], heq, fun hok => absurd hok hne⟩⟩
  obtain ⟨seed, -, hread⟩ := readSections_of_header hheader
  constructor
  · rintro ⟨fuel, status, codec', sections, heq, hinOrder⟩
    rw [hread, Option.map_eq_some_iff] at heq
    obtain ⟨result, hloop, heq⟩ := heq
    obtain ⟨rfl, hrest⟩ := Prod.mk.inj heq
    obtain ⟨-, rfl⟩ := Prod.mk.inj hrest
    obtain ⟨added, hadded, hbreaks, hsized⟩ := walk_of_readLoop himage fuel hloop
    by_cases hok : result.1 = .ok
    · refine Or.inr (Or.inl (hsized hok ?_))
      intro s hs
      refine (hinOrder hok).finish s ?_
      rw [hadded]
      exact hs
    · exact Or.inr (Or.inr (hbreaks hok))
  · intro h
    rcases h.resolve_left hheader with hsized | hbreaks
    · obtain ⟨fuel, status, added, heq, hinOrder⟩ :=
        readLoop_of_wellSized _ (by decide) (Nat.lt_succ_self _) hsized 0 []
      refine ⟨fuel, status, { codec with seed := seed }, added, ?_,
        fun _ => hinOrder.mono (by decide)⟩
      rw [hread, heq]
      rfl
    · obtain ⟨fuel, status, sections, hne, heq⟩ := readLoop_of_breaksOff hbreaks 0 []
      refine ⟨fuel, status, { codec with seed := seed }, sections, ?_, fun hok => absurd hok hne⟩
      rw [hread, heq]
      rfl

/-- A file of one section of five bytes, the header of which stands at 8. -/
def fiveImage : Bytes :=
  writeSections {} [{ image := [1, 2, 3, 4, 5], name := List.replicate 8 0 }]

/-- The walk goes from 8 to 28, where the sections end. -/
theorem readsInBounds_fiveImage : ReadsInBounds {} 0 fiveImage := by
  refine (readsInBounds_iff {} 0 fiveImage (by decide)).mpr (Or.inr (Or.inl ?_))
  have hfive : loadInt32 fiveImage 8 = some 5 := by decide
  have hzero : loadInt32 fiveImage 28 = some 0 := by decide
  intro ptr hwalk
  rcases hwalk.cases_head with rfl | ⟨next, hstep, hwalk⟩
  · intro dataSize hsize
    rw [← Option.some.inj (hfive.symm.trans hsize)]
    exact ⟨8, by decide, fun hneg => absurd hneg (by decide)⟩
  obtain rfl := hstep.next_eq hfive (show _ = some 8 by decide)
  rcases hwalk.cases_head with rfl | ⟨next, ⟨hsize, hne, -, -, -⟩, -⟩
  · intro dataSize hsize
    rw [← Option.some.inj (hzero.symm.trans hsize)]
    exact ⟨0, by decide, fun hneg => absurd hneg (by decide)⟩
  · rw [← Option.some.inj (hzero.symm.trans hsize)] at hne
    exact absurd rfl hne

/-- A file whose first section has the size -12. -/
def negativeImage : Bytes :=
  writeHeader {} ++ writeInt32 (-12) ++ List.replicate 8 0

/-- **A SIZE OF -12** takes the reader back to the same header, for ever. -/
theorem not_readsInBounds_negative : ¬ ReadsInBounds {} 0 negativeImage := by
  have hloop : ∀ fuel sectionIndex sections,
      readLoop negativeImage fuel sectionIndex 8 sections = none := by
    have hsize : loadInt32 negativeImage 8 = some (-12) := by decide
    have hpadded : roundUp4 (Int32.toInt (-12)) = some (-12) := by decide
    have hname : loadBytes negativeImage (8 + 4) 8 = some (List.replicate 8 0) := by decide
    intro fuel
    induction fuel with
    | zero => intro _ _; rfl
    | succ fuel ih =>
      intro sectionIndex sections
      rw [readLoop_of_step fuel sectionIndex sections hsize (by decide) hpadded (by decide)
        hname]
      exact ih _ _
  rintro ⟨fuel, status, codec, sections, heq, -⟩
  have hheader : ¬ HeaderRejected {} 0 negativeImage := by
    rintro (hshort | haligned | hmagic)
    · exact absurd hshort (by decide)
    · exact haligned rfl
    · exact hmagic (by decide)
  obtain ⟨seed, -, hread⟩ := readSections_of_header hheader
  rw [hread, hloop] at heq
  exact nomatch heq

/-! ## Reading what was written -/

/-- The bytes of a view. -/
def View.bytes (image : Bytes) (view : View) : Bytes :=
  (image.drop view.offset.toNat).take view.length

/-- A section that was read, with the bytes of its view. -/
def DictionaryFileSection.withBytes (image : Bytes) (s : DictionaryFileSection View) :
    DictionaryFileSection Bytes :=
  { image := s.image.bytes image, name := s.name }

/-- A section that can be written. -/
structure Writable (s : DictionaryFileSection Bytes) : Prop where
  name : s.name.length = 8
  pos : 1 ≤ s.image.length
  le : s.image.length ≤ 2 ^ 31 - 8

theorem loadBytes_append (front bytes rest : Bytes) :
    loadBytes (front ++ (bytes ++ rest)) front.length bytes.length = some bytes := by
  rw [exists_loadBytes (by omega) (by
    rw [List.length_append, List.length_append]
    omega), Int.toNat_natCast, List.drop_left, List.take_left]

@[simp] theorem length_writeInt32 (value : Int32) : (writeInt32 value).length = 4 :=
  length_storeLE 4 _

/-- **LOAD INVERTS WRITE** for an `int32_t`. -/
theorem loadInt32_writeInt32 (front rest : Bytes) (value : Int32) :
    loadInt32 (front ++ (writeInt32 value ++ rest)) front.length = some value := by
  have hload := loadBytes_append front (writeInt32 value) rest
  rw [length_writeInt32] at hload
  rw [loadInt32, hload, Option.map_some, writeInt32,
    loadLE_storeLE (show value.toUInt32.toNat < 256 ^ 4 from value.toUInt32.toNat_lt),
    UInt32.ofNat_toNat]
  rfl

theorem roundUp4_pad4 {n : Nat} (h : n ≤ 2 ^ 31 - 8) :
    roundUp4 n = some ((n + (pad4 n).length : Nat) : Int) := by
  have hpad : ((pad4 n).length : Int) = (4 - (n : Int) % 4) % 4 := by
    rw [pad4, Int.tmod_eq_emod_of_nonneg (by omega), Int.tmod_eq_emod_of_nonneg (by omega),
      Int.tmod_eq_emod_of_nonneg (by omega)]
    split_ifs
    · show ((0 : Nat) : Int) = _
      omega
    · show ((1 : Nat) : Int) = _
      omega
    · show ((2 : Nat) : Int) = _
      omega
    · show ((3 : Nat) : Int) = _
      omega
  have hrem : (n : Int).tmod 4 = (n : Int) % 4 := Int.tmod_eq_emod_of_nonneg (by omega)
  rw [roundUp4, hrem, Int.tmod_eq_emod_of_nonneg (by omega), if_pos (by omega), Int.natCast_add,
    hpad]

/-- The views of sections that stand behind an offset. -/
def viewsFrom : Nat → List (DictionaryFileSection Bytes) → List (DictionaryFileSection View)
  | _, [] => []
  | ptr, s :: rest =>
    ⟨⟨(ptr : Int) + 12, s.image.length⟩, s.name⟩ :: viewsFrom (ptr + (writeSection s).length) rest

section

variable {s : DictionaryFileSection Bytes} (h : Writable s)
include h

theorem Writable.toInt_size : (Int32.ofNat s.image.length).toInt = s.image.length :=
  Int32.toInt_ofNat_of_lt (by have := h.le; omega)

theorem Writable.writeSection_eq : writeSection s
    = writeInt32 (Int32.ofNat s.image.length) ++ (s.name ++ (s.image ++ pad4 s.image.length)) := by
  rw [writeSection, h.toInt_size, List.append_assoc, List.append_assoc]

theorem Writable.length_writeSection :
    (writeSection s).length = 12 + (s.image.length + (pad4 s.image.length).length) := by
  rw [h.writeSection_eq, List.length_append, List.length_append, List.length_append,
    length_writeInt32, h.name]
  omega

/-- **A SECTION IS READ BACK** where it was written. -/
theorem Writable.readLoop_writeSection (front rest : Bytes) (fuel sectionIndex : Nat)
    (sections : List (DictionaryFileSection View)) :
    readLoop (front ++ (writeSection s ++ rest)) (fuel + 1) sectionIndex front.length sections
      = readLoop (front ++ (writeSection s ++ rest)) fuel (sectionIndex + 1)
          ((front.length + (writeSection s).length : Nat) : Int)
          (sections ++ [⟨⟨(front.length : Int) + 12, s.image.length⟩, s.name⟩]) := by
  have hlen := h.length_writeSection
  have hsize := loadInt32_writeInt32 front (s.name ++ (s.image ++ pad4 s.image.length) ++ rest)
    (Int32.ofNat s.image.length)
  have hname := loadBytes_append (front ++ writeInt32 (Int32.ofNat s.image.length)) s.name
    ((s.image ++ pad4 s.image.length) ++ rest)
  rw [List.length_append, length_writeInt32, h.name, List.append_assoc, ← List.append_assoc s.name,
    ← List.append_assoc (writeInt32 _), ← h.writeSection_eq] at hname
  rw [← List.append_assoc (writeInt32 _), ← h.writeSection_eq] at hsize
  have hpadded : roundUp4 (Int32.ofNat s.image.length).toInt
      = some ((s.image.length + (pad4 s.image.length).length : Nat) : Int) := by
    rw [h.toInt_size]
    exact roundUp4_pad4 h.le
  have hpos := h.pos
  rw [readLoop_of_step fuel sectionIndex sections hsize (by rw [h.toInt_size]; omega) hpadded (by
      rw [List.length_append, List.length_append]
      omega) hname, h.toInt_size, Int.emod_eq_of_lt (by omega) (by have := h.le; omega),
    Int.toNat_natCast, hlen]
  refine congrArg (fun ptr => readLoop _ fuel (sectionIndex + 1) ptr _) ?_
  omega

theorem Writable.bytes_view (front rest : Bytes) :
    (View.mk ((front.length : Int) + 12) s.image.length).bytes (front ++ (writeSection s ++ rest))
      = s.image := by
  have hfront : (front ++ writeInt32 (Int32.ofNat s.image.length) ++ s.name).length
      = front.length + 12 := by
    rw [List.length_append, List.length_append, length_writeInt32, h.name]
  have himage : front ++ (writeSection s ++ rest)
      = (front ++ writeInt32 (Int32.ofNat s.image.length) ++ s.name) ++
          (s.image ++ (pad4 s.image.length ++ rest)) := by
    rw [h.writeSection_eq]
    simp only [List.append_assoc]
  rw [View.bytes, himage, show ((front.length : Int) + 12).toNat
    = (front ++ writeInt32 (Int32.ofNat s.image.length) ++ s.name).length by omega,
    List.drop_left, List.take_left]

end

/-- **ALL SECTIONS ARE READ BACK**; the induction is on the sections, behind those that are
    read. -/
theorem readLoop_writeSections : ∀ {sections : List (DictionaryFileSection Bytes)}
    (front : Bytes) {fuel sectionIndex : Nat} {read : List (DictionaryFileSection View)},
    (∀ s ∈ sections, Writable s) → sections.length < fuel →
    readLoop (front ++ (sections.flatMap writeSection ++ writeInt32 0)) fuel sectionIndex
        front.length read
      = some (.ok, read ++ viewsFrom front.length sections) ∧
    (viewsFrom front.length sections).map
        (DictionaryFileSection.withBytes (front ++ (sections.flatMap writeSection ++ writeInt32 0)))
      = sections := by
  intro sections
  induction sections with
  | nil =>
    intro front fuel sectionIndex read _ hfuel
    obtain ⟨fuel, rfl⟩ := Nat.exists_eq_succ_of_ne_zero (Nat.ne_of_gt hfuel)
    refine ⟨?_, rfl⟩
    have hzero := loadInt32_writeInt32 front [] 0
    rw [List.append_nil] at hzero
    rw [List.flatMap_nil, List.nil_append, viewsFrom, List.append_nil]
    refine readLoop_of_end fuel sectionIndex read hzero rfl ?_
    rw [List.length_append, length_writeInt32]
    omega
  | cons s rest ih =>
    intro front fuel sectionIndex read hall hfuel
    obtain ⟨fuel, rfl⟩ := Nat.exists_eq_succ_of_ne_zero (Nat.ne_of_gt (Nat.zero_lt_of_lt hfuel))
    have hs := hall s List.mem_cons_self
    have himage : front ++ ((s :: rest).flatMap writeSection ++ writeInt32 0)
        = front ++ (writeSection s ++ (rest.flatMap writeSection ++ writeInt32 0)) := by
      rw [List.flatMap_cons, List.append_assoc]
    obtain ⟨hread, hviews⟩ := ih (front ++ writeSection s)

      (fun t ht => hall t (List.mem_cons_of_mem _ ht)) (Nat.lt_of_succ_lt_succ hfuel)
    rw [List.length_append, List.append_assoc] at hread hviews
    rw [himage, viewsFrom]
    refine ⟨?_, ?_⟩
    · rw [hs.readLoop_writeSection, hread, List.append_assoc]
      rfl
    · rw [List.map_cons, hviews, DictionaryFileSection.withBytes, hs.bytes_view]

theorem mem_of_mem_writeOrder {α : Type} {sections : List α} {s : α}
    (h : s ∈ writeOrder sections) : s ∈ sections := by
  rw [writeOrder] at h
  by_cases hfour : sections.length = 4
  · rw [if_pos hfour] at h
    obtain ⟨i, -, hget⟩ := List.mem_filterMap.mp h
    exact List.mem_of_getElem? hget
  · rw [if_neg hfour] at h
    exact h

theorem length_writeOrder_le {α : Type} (sections : List α) :
    (writeOrder sections).length ≤ sections.length := by
  rw [writeOrder]
  by_cases hfour : sections.length = 4
  · rw [if_pos hfour, hfour]
    exact List.length_filterMap_le _ _
  · rw [if_neg hfour]

/-- **WHAT IS WRITTEN IS READ BACK**, whatever the seed of the reader: the sections in their
    order, or in the order of four. -/
theorem readSections_writeSections (writer reader : DictionaryFileCodec)
    (hmagic : writer.filemagic = reader.filemagic) (address : Nat) (haddress : address % 4 = 0)
    (sections : List (DictionaryFileSection Bytes)) (hsections : ∀ s ∈ sections, Writable s)
    (fuel : Nat) (hfuel : sections.length < fuel) :
    ∃ read, readSections reader fuel address (writeSections writer sections) []
        = some (.ok, { reader with seed := writer.seed }, read) ∧
      (sections.length ≠ 4 → read.map
        (DictionaryFileSection.withBytes (writeSections writer sections)) = sections) ∧
      ∀ s0 s1 s2 s3, sections = [s0, s1, s2, s3] → read.map
        (DictionaryFileSection.withBytes (writeSections writer sections)) = [s0, s2, s1, s3] := by
  have himage : writeSections writer sections
      = writeHeader writer ++ ((writeOrder sections).flatMap writeSection ++ writeInt32 0) :=
    List.append_assoc _ _ _
  have hlength : (writeHeader writer).length = 8 := rfl
  obtain ⟨hloop, hviews⟩ := readLoop_writeSections (writeHeader writer)
    (fun s hs => hsections s (mem_of_mem_writeOrder hs))
    (Nat.lt_of_le_of_lt (length_writeOrder_le sections) hfuel)
  rw [← himage, hlength] at hloop hviews
  have hmagic' : loadInt32 (writeSections writer sections) 0 = some reader.filemagic := by
    rw [himage, writeHeader, List.append_assoc, ← hmagic]
    exact loadInt32_writeInt32 [] _ _
  have hseed : loadInt32 (writeSections writer sections) 4 = some writer.seed := by
    rw [himage, writeHeader, List.append_assoc]
    exact loadInt32_writeInt32 (writeInt32 writer.filemagic) _ _
  have hlong : 12 ≤ (writeSections writer sections).length := by
    rw [himage, List.length_append, List.length_append, hlength, length_writeInt32]
    omega
  have hheader : ¬ HeaderRejected reader address (writeSections writer sections) := by
    rintro (hshort | haligned | hne)
    · omega
    · exact haligned haddress
    · exact hne hmagic'
  obtain ⟨seed, hseed', hread⟩ := readSections_of_header hheader
  rw [Option.some.inj (hseed'.symm.trans hseed)] at hread
  refine ⟨viewsFrom 8 (writeOrder sections), ?_, ?_, ?_⟩
  · rw [hread]
    exact congrArg (Option.map _) hloop
  · intro hne
    rw [hviews, writeOrder, if_neg hne]
  · rintro s0 s1 s2 s3 rfl
    rw [hviews]
    rfl

/-- Four sections, with all paddings. -/
theorem readSections_writeSections_four : ∃ read,
    readSections {} 5 0 (writeSections {}
        [⟨[1], ascii "first---"⟩, ⟨[1, 2], ascii "second--"⟩, ⟨[1, 2, 3], ascii "third---"⟩,
          ⟨[1, 2, 3, 4], ascii "fourth--"⟩]) []
      = some (.ok, {}, read) := by
  obtain ⟨read, heq, -⟩ := readSections_writeSections {} {} rfl 0 rfl
    [⟨[1], ascii "first---"⟩, ⟨[1, 2], ascii "second--"⟩, ⟨[1, 2, 3], ascii "third---"⟩,
      ⟨[1, 2, 3, 4], ascii "fourth--"⟩] (by
        intro s hs
        have hall : ∀ s ∈ ([⟨[1], ascii "first---"⟩, ⟨[1, 2], ascii "second--"⟩,
            ⟨[1, 2, 3], ascii "third---"⟩, ⟨[1, 2, 3, 4], ascii "fourth--"⟩] :
              List (DictionaryFileSection Bytes)),
            s.name.length = 8 ∧ 1 ≤ s.image.length ∧ s.image.length ≤ 2 ^ 31 - 8 := by decide
        exact ⟨(hall s hs).1, (hall s hs).2.1, (hall s hs).2.2⟩) 5 (by decide)
  exact ⟨read, heq⟩

end MozkeyDictionaryFile
