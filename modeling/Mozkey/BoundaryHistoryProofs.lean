import Mozkey.LruLookupProofs
import Mozkey.SegmentsResizeProofs

/-! # UserBoundaryHistoryRewriter — boundaries that come back

    `Insert` stores the lengths of every run of at most five segments under the key of the
    run.  `CheckResizeSegmentsRequest` looks up the runs of other segments, longer ones first,
    and asks for the lengths that it finds.  A stored length is a field of four bits, and a
    key is known by its fingerprint. -/

namespace MozkeyRewriter

open ByteString MozkeyUtil MozkeyConverter MozkeyLru

variable {α : Type}

/-! ## Lengths -/

/-- The sizes and the seed of the storage. -/
def kValueSize : Nat := 4
def kLruSize : Nat := 5000
def kSeedValue : UInt32 := 0x761fea81

/-- `LengthArray`: eight fields of four bits. -/
abbrev LengthArray := Fin 8 → Fin 16

/-- The constructor of `LengthArray` from eight bytes; a field keeps four bits of each. -/
def LengthArray.ofArray (array : List UInt8) : LengthArray :=
  fun i => ⟨(array.getD i 0).toNat % 16, Nat.mod_lt _ (by decide)⟩

/-- `ToUint8Array`. -/
def LengthArray.toUint8Array (lengths : LengthArray) : List UInt8 :=
  List.ofFn fun i => UInt8.ofNat (lengths i)

/-- A field of a `LengthArray`, by its position in memory. -/
def LengthArray.field (lengths : LengthArray) (i : Nat) : Nat :=
  if h : i < 8 then lengths ⟨i, h⟩ else 0

/-- The bytes of a `LengthArray`: two fields in a byte, the first one in its low bits. -/
def LengthArray.toBytes (lengths : LengthArray) (k : Nat) : UInt8 :=
  UInt8.ofNat (lengths.field (2 * k) + 16 * lengths.field (2 * k + 1))

/-- The `LengthArray` at a pointer to bytes. -/
def LengthArray.ofBytes (bytes : Bytes) : LengthArray := fun i =>
  let byte := (bytes.getD (i / 2) 0).toNat
  ⟨(if i.val % 2 = 0 then byte else byte / 16) % 16, Nat.mod_lt _ (by decide)⟩

/-! ## Keys of segments -/

/-- `SegmentsKey`, with the offsets of the segments' keys. -/
structure SegmentsKey where
  wholeKey : Bytes
  byteIndexs : List Nat
  charSizes : List UInt8

/-- The loop of `SegmentsKey::Create`. -/
def SegmentsKey.createLoop :
    List (CandidateSegment α) → Bytes → Nat → List Nat → List UInt8 → Option SegmentsKey
  | [], wholeKey, byteIndex, byteIndexs, charSizes =>
    some ⟨wholeKey, byteIndexs ++ [byteIndex], charSizes⟩
  | segment :: segments, wholeKey, byteIndex, byteIndexs, charSizes =>
    if 255 < segment.keyLen then none
    else
      createLoop segments (wholeKey ++ segment.key) (byteIndex + segment.key.length)
        (byteIndexs ++ [byteIndex]) (charSizes ++ [UInt8.ofNat segment.keyLen])

/-- `SegmentsKey::Create`. -/
def SegmentsKey.create (segments : List (CandidateSegment α)) : Option SegmentsKey :=
  createLoop segments [] 0 [] []

/-- The key of a run of segments. -/
def SegmentsKey.getKey (key : SegmentsKey) (segmentIndex segmentSize : Nat) : Bytes :=
  let startIndex := key.byteIndexs.getD segmentIndex 0
  let endIndex := key.byteIndexs.getD (segmentIndex + segmentSize) 0
  (key.wholeKey.drop startIndex).take (endIndex - startIndex)

/-- The lengths of a run of at most eight segments. -/
def SegmentsKey.getLengthArray (key : SegmentsKey) (segmentIndex segmentSize : Nat) :
    LengthArray :=
  let size := min segmentSize 8
  .ofArray ((List.range 8).map fun i =>
    if i < size then key.charSizes.getD (segmentIndex + i) 0 else 0)

/-! ## The rewriter -/

/-- The number of segments of a run, `kMaxKeysSize` at most. -/
def keysSize (targetSegmentsSize segIdx : Nat) : Nat := min (targetSegmentsSize - segIdx) 5

/-- The runs that the loops of `Insert` go over: an index and a size, longer ones first. -/
def runs (targetSegmentsSize : Nat) : List (Nat × Nat) :=
  (List.range targetSegmentsSize).flatMap fun segIdx =>
    (List.range (keysSize targetSegmentsSize segIdx)).reverse.map fun k => (segIdx, k + 1)

variable (fingerprint : Bytes → UInt64)

/-- `Insert`, with the clock at each insertion into the storage; the fingerprint is that of a
    key with the seed of the storage. -/
def insert (clock : Nat × Nat → UInt32) (segments : List (CandidateSegment α))
    (storage : LruStorage) : Option (Bool × LruStorage) :=
  let targetSegmentsSize := (segments.filter (·.segmentType = .fixedValue)).length
  if targetSegmentsSize = 0 then some (false, storage)
  else
    match SegmentsKey.create segments with
    | none => some (false, storage)
    | some key =>
      (storage.inserts ((runs targetSegmentsSize).map fun run =>
        (clock run, fingerprint (key.getKey run.1 run.2),
          (key.getLengthArray run.1 run.2).toBytes))).map fun storage => (true, storage)

/-- `Config::HistoryLearningLevel`. -/
inductive HistoryLearningLevel
  | defaultHistory
  | readOnly
  | noHistory
  deriving DecidableEq

/-- What `CheckResizeSegmentsRequest` asks of a `ConversionRequest`. -/
structure LearningOptions where
  incognitoMode : Bool
  historyLearningLevel : HistoryLearningLevel
  enableUserHistoryForConversion : Bool
  skipSlowRewriters : Bool
  mixedConversion : Bool
  disableLegacyRewriterMode : Nat

/-- `DisableLaegacyRewriterInMixedConversion`. -/
def LearningOptions.disableLegacyRewriter (options : LearningOptions) (mode : Nat) : Bool :=
  options.mixedConversion && options.disableLegacyRewriterMode &&& mode != 0

/-- The bit by which a request disables this rewriter. -/
def kDisableUserBoundaryHistory : Nat := 2

/-- Learning is enabled: `CheckResizeSegmentsRequest` does not return at once. -/
def LearningOptions.Enabled (options : LearningOptions) : Prop :=
  options.incognitoMode = false ∧ options.historyLearningLevel ≠ .noHistory ∧
    options.enableUserHistoryForConversion = true ∧ options.skipSlowRewriters = false ∧
    options.disableLegacyRewriter kDisableUserBoundaryHistory = false

instance (options : LearningOptions) : Decidable options.Enabled :=
  inferInstanceAs (Decidable (_ ∧ _))

/-- `ResizeSegmentsRequest`: an index and the sizes from it on. -/
abbrev ResizeSegmentsRequest := Nat × List UInt8

/-- The inner loop of `CheckResizeSegmentsRequest`, from a size down: a request, or the index
    to go on with. -/
def checkSizes (key : SegmentsKey) (storage : LruStorage) (segIdx : Nat) :
    Nat → Option (Nat ⊕ ResizeSegmentsRequest)
  | 0 => some (.inl (segIdx + 1))
  | k + 1 =>
    match storage.lookup (fingerprint (key.getKey segIdx (k + 1))) with
    | none => none
    | some none => checkSizes key storage segIdx k
    | some (some slot) =>
      let value := LengthArray.ofBytes slot.value
      if value = key.getLengthArray segIdx (k + 1) then some (.inl (segIdx + (k + 1)))
      else some (.inr (segIdx, value.toUint8Array))

/-- The outer loop of `CheckResizeSegmentsRequest`; the index goes up in every pass. -/
def checkLoop (key : SegmentsKey) (storage : LruStorage) (targetSegmentsSize : Nat) :
    Nat → Nat → Option (Option ResizeSegmentsRequest)
  | 0, _ => some none
  | fuel + 1, segIdx =>
    if segIdx < targetSegmentsSize then
      match checkSizes fingerprint key storage segIdx (keysSize targetSegmentsSize segIdx) with
      | none => none
      | some (.inl segIdx) => checkLoop key storage targetSegmentsSize fuel segIdx
      | some (.inr request) => some (some request)
    else some none

/-- `CheckResizeSegmentsRequest`, on the conversion segments; `none` where a lookup has no
    result. -/
def checkResizeSegmentsRequest (options : LearningOptions) (resized : Bool)
    (segments : List (CandidateSegment α)) (storage : LruStorage) :
    Option (Option ResizeSegmentsRequest) :=
  if resized then some none
  else if ¬ options.Enabled then some none
  else if segments.length = 0 then some none
  else
    match SegmentsKey.create segments with
    | none => some none
    | some key => checkLoop fingerprint key storage segments.length segments.length 0

/-! ## The lengths in memory -/

theorem ofBytes_readValue (lengths : LengthArray) :
    LengthArray.ofBytes (readValue lengths.toBytes kValueSize) = lengths := by
  funext i
  have hi := i.isLt
  have hbyte : (readValue lengths.toBytes kValueSize).getD (i / 2) 0 = lengths.toBytes (i / 2) := by
    have hlt : i.val / 2 < (readValue lengths.toBytes kValueSize).length := by
      rw [length_readValue, kValueSize]
      omega
    rw [List.getD_eq_getElem _ _ hlt]
    simp [readValue]
  have hfield : ∀ k, lengths.field k < 16 := by
    intro k
    unfold LengthArray.field
    split
    · exact (lengths _).isLt
    · decide
  have hlow := hfield (2 * (i / 2))
  have hhigh := hfield (2 * (i / 2) + 1)
  have hi' : lengths.field i = lengths i := dif_pos hi
  refine Fin.ext ?_
  simp only [LengthArray.ofBytes, hbyte]
  rw [LengthArray.toBytes, UInt8.toNat_ofNat', ← hi']
  by_cases heven : i.val % 2 = 0
  · rw [if_pos heven, show lengths.field i = lengths.field (2 * (i / 2)) by congr 1; omega]
    omega
  · rw [if_neg heven, show lengths.field i = lengths.field (2 * (i / 2) + 1) by congr 1; omega]
    omega

/-! ## The key and the lengths of a run -/

/-- The lengths of segments, as bytes. -/
def lengthsOf (segments : List (CandidateSegment α)) : List UInt8 :=
  segments.map fun segment => UInt8.ofNat segment.keyLen

theorem createLoop_spec (segments : List (CandidateSegment α)) :
    ∀ (before : List (CandidateSegment α)) {byteIndexs : List Nat} {charSizes : List UInt8},
      (∀ segment ∈ segments, segment.keyLen ≤ 255) →
      byteIndexs = (List.range before.length).map (fun i => (keysOf (before.take i)).length) →
      charSizes = lengthsOf before →
      SegmentsKey.createLoop segments (keysOf before) (keysOf before).length byteIndexs charSizes
        = some ⟨keysOf (before ++ segments),
            (List.range ((before ++ segments).length + 1)).map
              (fun i => (keysOf ((before ++ segments).take i)).length),
            lengthsOf (before ++ segments)⟩ := by
  induction segments with
  | nil =>
    intro before byteIndexs charSizes _ hindexs hsizes
    rw [SegmentsKey.createLoop, List.append_nil, List.range_succ, List.map_append, hindexs,
      hsizes, List.map_singleton, List.take_length]
  | cons segment segments ih =>
    intro before byteIndexs charSizes hlen hindexs hsizes
    obtain ⟨hfirst, hlen⟩ := List.forall_mem_cons.mp hlen
    have hnext := @ih (before ++ [segment]) (byteIndexs ++ [(keysOf before).length])
      (charSizes ++ [UInt8.ofNat segment.keyLen]) hlen ?_ ?_
    · rw [keysOf_append, keysOf_cons, keysOf_nil, List.append_nil, List.length_append,
        List.append_assoc, List.singleton_append] at hnext
      rw [SegmentsKey.createLoop, if_neg (by omega)]
      exact hnext
    · rw [List.length_append, List.length_singleton, List.range_succ, List.map_append, hindexs,
        List.map_singleton, List.take_left]
      congr 1
      refine List.map_congr_left ?_
      intro i hi
      rw [List.take_append_of_le_length (List.mem_range.mp hi).le]
    · rw [hsizes, lengthsOf, lengthsOf, List.map_append, List.map_singleton]

theorem create_eq {segments : List (CandidateSegment α)}
    (hlen : ∀ segment ∈ segments, segment.keyLen ≤ 255) :
    SegmentsKey.create segments = some ⟨keysOf segments,
      (List.range (segments.length + 1)).map (fun i => (keysOf (segments.take i)).length),
      lengthsOf segments⟩ :=
  createLoop_spec segments [] hlen rfl rfl

/-- A run of segments. -/
def runOf (segments : List (CandidateSegment α)) (segIdx segSize : Nat) :
    List (CandidateSegment α) :=
  (segments.drop segIdx).take segSize

/-- **THE KEY OF A RUN** is the keys of its segments. -/
theorem getKey_eq {segments : List (CandidateSegment α)} {key : SegmentsKey}
    (hkey : SegmentsKey.create segments = some key)
    (hlen : ∀ segment ∈ segments, segment.keyLen ≤ 255) {segIdx segSize : Nat}
    (hsize : segIdx + segSize ≤ segments.length) :
    key.getKey segIdx segSize = keysOf (runOf segments segIdx segSize) := by
  rw [create_eq hlen] at hkey
  cases hkey
  have hindex : ∀ i ≤ segments.length, ((List.range (segments.length + 1)).map
      (fun i => (keysOf (segments.take i)).length)).getD i 0
        = (keysOf (segments.take i)).length := by
    intro i hi
    rw [List.getD_eq_getElem _ _ (by rw [List.length_map, List.length_range]; omega),
      List.getElem_map, List.getElem_range]
  have hsplit : keysOf segments = keysOf (segments.take segIdx)
      ++ (keysOf (runOf segments segIdx segSize)
        ++ keysOf ((segments.drop segIdx).drop segSize)) := by
    rw [runOf, ← keysOf_append, List.take_append_drop, ← keysOf_append, List.take_append_drop]
  have hend : (keysOf (segments.take (segIdx + segSize))).length
      - (keysOf (segments.take segIdx)).length =
        (keysOf (runOf segments segIdx segSize)).length := by
    rw [List.take_add, keysOf_append, List.length_append, Nat.add_sub_cancel_left]
    rfl
  simp only [SegmentsKey.getKey, hindex segIdx (by omega), hindex _ hsize, hend]
  rw [hsplit, List.drop_left, List.take_left]

/-- **THE LENGTHS OF A RUN** are those of its segments, four bits of each. -/
theorem getLengthArray_eq {segments : List (CandidateSegment α)} {key : SegmentsKey}
    (hkey : SegmentsKey.create segments = some key)
    (hlen : ∀ segment ∈ segments, segment.keyLen ≤ 255) (segIdx segSize : Nat) :
    key.getLengthArray segIdx segSize = .ofArray (lengthsOf (runOf segments segIdx segSize)) := by
  rw [create_eq hlen] at hkey
  cases hkey
  funext i
  have hi := i.isLt
  have hget : ((List.range 8).map fun i => if i < min segSize 8 then
      (lengthsOf segments).getD (segIdx + i) 0 else 0).getD i 0
        = (lengthsOf (runOf segments segIdx segSize)).getD i 0 := by
    rw [List.getD_eq_getElem _ _ (by rw [List.length_map, List.length_range]; exact hi),
      List.getElem_map, List.getElem_range]
    simp only [lengthsOf, runOf, List.map_take, List.map_drop, List.getD_eq_getElem?_getD,
      List.getElem?_take, List.getElem?_drop]
    by_cases hsize : i.val < segSize
    · rw [if_pos (by omega), if_pos hsize]
    · rw [if_neg (by omega), if_neg hsize]
      rfl
  refine Fin.ext ?_
  simp only [SegmentsKey.getLengthArray, LengthArray.ofArray, hget]

/-! ## Segmentations of a key -/

/-- Segments that a key is cut into: at most five, each with a key of up to 255 characters. -/
structure Segmentation (segments : List (CandidateSegment α)) : Prop where
  count : segments.length ≤ 5
  nonempty : ∀ segment ∈ segments, segment.key ≠ []
  valid : ∀ segment ∈ segments, ValidUtf8 segment.key
  keyLen_le : ∀ segment ∈ segments, segment.keyLen ≤ 255

/-- The sizes of a request for lengths. -/
def padded (lengths : List UInt8) : List UInt8 := List.ofFn fun i : Fin 8 => lengths.getD i 0

theorem padded_eq {lengths : List UInt8} (h : lengths.length ≤ 8) :
    padded lengths = lengths ++ List.replicate (8 - lengths.length) 0 := by
  refine List.ext_getElem ?_ ?_
  · rw [padded, List.length_ofFn, List.length_append, List.length_replicate]
    omega
  · intro i hi hi'
    have hget : (padded lengths)[i] = lengths.getD i 0 := List.getElem_ofFn ..
    rw [hget]
    by_cases hlt : i < lengths.length
    · rw [List.getElem_append_left hlt, List.getD_eq_getElem _ _ hlt]
    · rw [List.getElem_append_right (by omega), List.getElem_replicate,
        List.getD_eq_default _ _ (by omega)]

/-- A request has the lengths of an array exactly if they fit into their fields. -/
theorem toUint8Array_eq_iff (value : LengthArray) (lengths : List UInt8) :
    value.toUint8Array = padded lengths ↔
      value = .ofArray lengths ∧ ∀ i : Fin 8, (lengths.getD i 0).toNat < 16 := by
  have hfield : ∀ i : Fin 8, UInt8.ofNat (value i) = lengths.getD i 0 ↔
      (value i).val = (lengths.getD i 0).toNat := by
    intro i
    have hlt := (value i).isLt
    rw [← UInt8.toNat_inj, UInt8.toNat_ofNat', Nat.mod_eq_of_lt (by omega)]
  rw [LengthArray.toUint8Array, padded, List.ofFn_inj, funext_iff, funext_iff]
  simp only [hfield]
  constructor
  · intro h
    have hlt : ∀ i : Fin 8, (lengths.getD i 0).toNat < 16 := fun i => h i ▸ (value i).isLt
    exact ⟨fun i => Fin.ext ((h i).trans (Nat.mod_eq_of_lt (hlt i)).symm), hlt⟩
  · rintro ⟨h, hlt⟩ i
    rw [h i]
    exact Nat.mod_eq_of_lt (hlt i)

section Lengths

variable {segments segments' : List (CandidateSegment α)}

theorem exists_texts (hvalid : ∀ segment ∈ segments, ValidUtf8 segment.key) :
    ∃ texts : List (List Nat), (∀ c ∈ texts.flatten, IsScalar c) ∧
      segments.map CandidateSegment.key = texts.map (List.flatMap utf8) ∧
      keysOf segments = texts.flatten.flatMap utf8 ∧
      segments.map CandidateSegment.keyLen = texts.map List.length := by
  induction segments with
  | nil => exact ⟨[], by simp, rfl, rfl, rfl⟩
  | cons segment segments ih =>
    obtain ⟨hfirst, hvalid⟩ := List.forall_mem_cons.mp hvalid
    obtain ⟨cs, hcs, hkey⟩ := hfirst
    obtain ⟨texts, htexts, hkeys, hwhole, hlengths⟩ := ih hvalid
    refine ⟨cs :: texts, ?_, ?_, ?_, ?_⟩
    · intro c hc
      exact (List.mem_append.mp hc).elim (hcs c) (htexts c)
    · rw [List.map_cons, List.map_cons, hkey, hkeys]
    · rw [keysOf_cons, List.flatten_cons, List.flatMap_append, hkey, hwhole]
    · rw [List.map_cons, List.map_cons, hlengths, CandidateSegment.keyLen, hkey,
        MozkeyStrings.charsLen_flatMap hcs]

/-- **A KEY AND LENGTHS** determine the segments. -/
theorem keys_eq (hvalid : ∀ segment ∈ segments, ValidUtf8 segment.key)
    (hvalid' : ∀ segment ∈ segments', ValidUtf8 segment.key)
    (hkeys : keysOf segments = keysOf segments')
    (hlengths : segments.map CandidateSegment.keyLen = segments'.map CandidateSegment.keyLen) :
    segments.map CandidateSegment.key = segments'.map CandidateSegment.key := by
  obtain ⟨texts, htexts, hmap, hwhole, hlen⟩ := exists_texts hvalid
  obtain ⟨texts', htexts', hmap', hwhole', hlen'⟩ := exists_texts hvalid'
  have hflatten : texts.flatten = texts'.flatten := by
    rw [hwhole, hwhole'] at hkeys
    rw [← chars32_flatMap_utf8 (fun c hc => (htexts c hc).lt), hkeys,
      chars32_flatMap_utf8 (fun c hc => (htexts' c hc).lt)]
  have htexts_eq : texts = texts' := by
    rw [List.eq_iff_flatten_eq]
    exact ⟨hflatten, by rw [← hlen, ← hlen', hlengths]⟩
  rw [hmap, hmap', htexts_eq]

theorem Segmentation.keyLen_pos (h : Segmentation segments) {segment : CandidateSegment α}
    (hs : segment ∈ segments) : 0 < segment.keyLen := by
  obtain ⟨cs, hcs, hkey⟩ := h.valid segment hs
  rw [CandidateSegment.keyLen, hkey, MozkeyStrings.charsLen_flatMap hcs, List.length_pos_iff]
  rintro rfl
  exact h.nonempty segment hs hkey

theorem Segmentation.lengthsOf_toNat (h : Segmentation segments) :
    (lengthsOf segments).map UInt8.toNat = segments.map CandidateSegment.keyLen := by
  rw [lengthsOf, List.map_map]
  refine List.map_congr_left ?_
  intro segment hs
  have hle := h.keyLen_le segment hs
  exact (UInt8.toNat_ofNat' ..).trans (Nat.mod_eq_of_lt (by omega))

theorem Segmentation.length_lengthsOf (h : Segmentation segments) :
    (lengthsOf segments).length ≤ 8 := by
  rw [lengthsOf, List.length_map]
  exact h.count.trans (by decide)

theorem Segmentation.filter_padded (h : Segmentation segments) :
    (padded (lengthsOf segments)).filter (· ≠ 0) = lengthsOf segments := by
  have hne : ∀ l ∈ lengthsOf segments, l ≠ 0 := by
    rintro l hl rfl
    have hmem := List.mem_map_of_mem (f := UInt8.toNat) hl
    rw [h.lengthsOf_toNat] at hmem
    obtain ⟨segment, hs, hzero⟩ := List.mem_map.mp hmem
    exact absurd hzero (Nat.ne_of_gt (h.keyLen_pos hs))
  rw [padded_eq h.length_lengthsOf, List.filter_append,
    List.filter_eq_self.mpr (fun l hl => decide_eq_true (hne l hl)),
    List.filter_eq_nil_iff.mpr (by
      intro l hl
      rw [List.eq_of_mem_replicate hl]
      decide), List.append_nil]

theorem Segmentation.sizesSum_padded (h : Segmentation segments) :
    sizesSum (padded (lengthsOf segments)) = lengthOf segments := by
  rw [sizesSum, padded_eq h.length_lengthsOf, List.map_append, List.sum_append, h.lengthsOf_toNat,
    List.map_replicate, List.sum_replicate]
  rfl

theorem Segmentation.lengthOf_eq (h : Segmentation segments) (h' : Segmentation segments')
    (hkeys : keysOf segments = keysOf segments') : lengthOf segments = lengthOf segments' := by
  obtain ⟨cs, hcs, hwhole, hlength⟩ := keysOf_valid h.valid
  obtain ⟨cs', hcs', hwhole', hlength'⟩ := keysOf_valid h'.valid
  rw [hlength, hlength', ← MozkeyStrings.charsLen_flatMap hcs, ← hwhole, hkeys, hwhole',
    MozkeyStrings.charsLen_flatMap hcs']

/-- **LENGTHS THAT FIT** are told from those of any other segmentation of the key, also when
    these do not fit. -/
theorem keys_eq_of_ofArray (h : Segmentation segments) (h' : Segmentation segments')
    (hkeys : keysOf segments = keysOf segments')
    (hfit : ∀ i : Fin 8, ((lengthsOf segments).getD i 0).toNat < 16)
    (heq : LengthArray.ofArray (lengthsOf segments) = .ofArray (lengthsOf segments')) :
    segments'.map CandidateSegment.key = segments.map CandidateSegment.key := by
  have hsum : ∀ {l : List UInt8}, sizesSum (padded l) = ∑ i : Fin 8, (l.getD i 0).toNat := by
    intro l
    rw [sizesSum, padded, List.map_ofFn, List.sum_ofFn]
    rfl
  have hmod : ∀ i : Fin 8, ((lengthsOf segments).getD i 0).toNat
      = ((lengthsOf segments').getD i 0).toNat % 16 := by
    intro i
    have hfield := congrArg Fin.val (congrFun heq i)
    exact (Nat.mod_eq_of_lt (hfit i)).symm.trans hfield
  -- no length of the other loses a bit, since the sums are the same
  have htotal : ∑ i : Fin 8, ((lengthsOf segments).getD i 0).toNat
      = ∑ i : Fin 8, ((lengthsOf segments').getD i 0).toNat := by
    rw [← hsum, ← hsum, h.sizesSum_padded, h'.sizesSum_padded, h.lengthOf_eq h' hkeys]
  have hall := (Finset.sum_eq_sum_iff_of_le fun i _ => by
    rw [hmod i]
    exact Nat.mod_le _ _).mp htotal
  have hpadded : padded (lengthsOf segments) = padded (lengthsOf segments') := by
    rw [padded, padded, List.ofFn_inj]
    funext i
    exact UInt8.toNat_inj.mp (hall i (Finset.mem_univ i))
  have hlengths : lengthsOf segments = lengthsOf segments' := by
    rw [← h.filter_padded, hpadded, h'.filter_padded]
  refine keys_eq h'.valid h.valid hkeys.symm ?_
  rw [← h.lengthsOf_toNat, ← h'.lengthsOf_toNat, hlengths]

/-- **A RESIZE RESTORES** segments from their lengths. -/
theorem resize_restores (cleared : α) (history : List (CandidateSegment α))
    (hhistory : history.length < 2 ^ 63)
    (hvalid : ∀ segment ∈ history, ValidUtf8 segment.key) (h : Segmentation segments)
    (h' : Segmentation segments') (hkeys : keysOf segments = keysOf segments')
    (hne : segments ≠ []) :
    ∃ restored, resize cleared history.length (padded (lengthsOf segments))
        ⟨history ++ segments', false⟩ = some (true, ⟨history ++ restored, true⟩) ∧
      restored.map CandidateSegment.key = segments.map CandidateSegment.key := by
  have hlength := h.lengthOf_eq h' hkeys
  have hpos : 0 < lengthOf segments := by
    obtain ⟨segment, rest, rfl⟩ := List.exists_cons_of_ne_nil hne
    have hfirst := h.keyLen_pos List.mem_cons_self
    rw [lengthOf_cons]
    omega
  have hsum : sizesSum (padded (lengthsOf segments)) < 2 ^ 31 := by
    have hle : ∀ n ∈ segments.map CandidateSegment.keyLen, n ≤ 255 := by
      intro n hn
      obtain ⟨segment, hs, rfl⟩ := List.mem_map.mp hn
      exact h.keyLen_le segment hs
    have hbound := List.sum_le_card_nsmul _ 255 hle
    have hcount := h.count
    rw [List.length_map, smul_eq_mul] at hbound
    rw [h.sizesSum_padded, lengthOf]
    omega
  obtain ⟨all, touched, rest, fixed, remains, hresize, hresized, hfixed, hcover, hremains⟩ :=
    @resize_of_cover α cleared history.length (padded (lengthsOf segments))
      ⟨history ++ segments', false⟩ hhistory (by rw [h.sizesSum_padded]; omega) hsum
      (fun segment hs => (List.mem_append.mp hs).elim (hvalid segment) (h'.valid segment))
      (by rw [List.drop_left, h.sizesSum_padded, hlength])
  have hsplit := hresized.split
  have hresult := hresized.result
  dsimp only at hsplit hresult
  rw [List.take_left, List.append_assoc, List.append_cancel_left_eq] at hsplit
  rw [List.take_left] at hresult
  have hsizes : fixed.map CandidateSegment.keyLen = segments.map CandidateSegment.keyLen := by
    rw [hresized.sizes, h.filter_padded, h.lengthsOf_toNat]
  rw [h.sizesSum_padded, hlength] at hcover hremains
  have hlengths : lengthOf segments' = lengthOf touched + lengthOf rest := by
    rw [hsplit, lengthOf, lengthOf, lengthOf, List.map_append, List.sum_append]
  have hrest : rest = [] := by
    cases rest with
    | nil => rfl
    | cons segment rest =>
      have hfirst := h'.keyLen_pos
        (by rw [hsplit]; exact List.mem_append_right _ List.mem_cons_self)
      rw [lengthOf_cons] at hlengths
      omega
  have htext := hresized.text
  rw [hremains (by omega), List.append_nil] at htext
  rw [hrest, List.append_nil] at hsplit
  refine ⟨fixed, ?_, keys_eq hfixed h.valid ?_ hsizes⟩
  · rw [hresize, hresult, hremains (by omega), hrest, withRemaining, List.append_nil]
  · rw [← htext, ← hsplit, hkeys]

end Lengths

/-! ## What comes back -/

/-- The storage in a new file. -/
def newStorage : Option LruStorage :=
  (createStorageFile kValueSize kLruSize kSeedValue).bind openImage

theorem open_created {valueSize size : Nat} {seed : UInt32}
    (hf : Formatted valueSize size (List.replicate size (zeroSlot valueSize))) :
    (createStorageFile valueSize size seed).bind openImage
      = some (openSlots valueSize size seed (List.replicate size (zeroSlot valueSize))) := by
  have hpos := hf.valueSize_pos
  have hle := hf.valueSize_le
  have hpos' := hf.size_pos
  have hle' := hf.size_le
  rw [createStorageFile, if_neg (by omega), if_neg (by omega),
    if_neg (not_not_intro hf.valueSize_mod), Option.bind_some, openImage_encodeImage hf]

theorem lruList_zero (valueSize size : Nat) (seed : UInt32) :
    (openSlots valueSize size seed (List.replicate size (zeroSlot valueSize))).lruList = [] := by
  have hzero : ∀ i, (slotAt (List.replicate size (zeroSlot valueSize)) i).timestamp = 0 := by
    intro i
    rw [slotAt, List.getD_eq_getElem?_getD, List.getElem?_replicate]
    split <;> rfl
  simp only [openSlots, hzero, ne_eq, not_true_eq_false, decide_false, List.filter_false,
    List.map_nil]

theorem newStorage_spec : ∃ storage, newStorage = some storage ∧ Linked storage storage.size ∧
    storage.lruList = [] ∧ storage.valueSize = kValueSize ∧ storage.size = kLruSize := by
  have hf : Formatted kValueSize kLruSize (List.replicate kLruSize (zeroSlot kValueSize)) :=
    formatted_zero (by decide) (by decide) (by decide) (by decide) (by decide)
  have hlinked := (@sound_zero 0 kValueSize kLruSize kSeedValue hf).linked
  exact ⟨_, open_created hf, hlinked, lruList_zero .., rfl, rfl⟩

variable {fingerprint : Bytes → UInt64} {segments : List (CandidateSegment α)}

theorem mem_runs {n : Nat} {run : Nat × Nat} :
    run ∈ runs n ↔ 0 < run.2 ∧ run.1 + run.2 ≤ n ∧ run.2 ≤ 5 := by
  obtain ⟨segIdx, segSize⟩ := run
  simp only [runs, keysSize, List.mem_flatMap, List.mem_range, List.mem_map, List.mem_reverse,
    Prod.mk.injEq]
  constructor
  · rintro ⟨i, hi, k, hk, rfl, rfl⟩
    omega
  · rintro ⟨hpos, hle, hsize⟩
    exact ⟨segIdx, by omega, segSize - 1, by omega, rfl, by omega⟩

theorem length_runs {n : Nat} (hn : n ≤ 5) : (runs n).length ≤ 15 := by
  interval_cases n <;> decide

/-- The last run that is stored under the fingerprint of the whole key. -/
def lastRun (fingerprint : Bytes → UInt64) (segments : List (CandidateSegment α)) :
    Option (Nat × Nat) :=
  ((runs segments.length).filter fun run =>
    fingerprint (keysOf (runOf segments run.1 run.2)) = fingerprint (keysOf segments)).getLast?

theorem runOf_whole (segments : List (CandidateSegment α)) :
    runOf segments 0 segments.length = segments := List.take_length

theorem exists_lastRun (h : Segmentation segments) (hne : segments ≠ []) :
    ∃ run, lastRun fingerprint segments = some run ∧ run ∈ runs segments.length := by
  have hpos := List.length_pos_iff.mpr hne
  have hcount := h.count
  have hmem : (0, segments.length) ∈ (runs segments.length).filter fun run =>
      fingerprint (keysOf (runOf segments run.1 run.2)) = fingerprint (keysOf segments) := by
    refine List.mem_filter.mpr ⟨mem_runs.mpr ⟨hpos, by omega, hcount⟩, ?_⟩
    rw [runOf_whole]
    exact decide_eq_true rfl
  obtain ⟨run, hrun⟩ := Option.isSome_iff_exists.mp
    (List.getLast?_isSome.mpr (List.ne_nil_of_mem hmem))
  exact ⟨run, hrun, (List.mem_filter.mp (List.mem_of_getLast? hrun)).1⟩

/-- **AN INSERTION** leaves the lengths of the last run under the fingerprint of the whole key. -/
theorem insert_lookup (clock : Nat × Nat → UInt32) (h : Segmentation segments)
    (hne : segments ≠ [])
    (hfixed : ∀ segment ∈ segments, segment.segmentType = .fixedValue)
    {storage : LruStorage} (hlinked : Linked storage storage.size) (hempty : storage.lruList = [])
    (hvalue : storage.valueSize = kValueSize) (hsize : storage.size = kLruSize) :
    ∃ storage' run slot, insert fingerprint clock segments storage = some (true, storage') ∧
      lastRun fingerprint segments = some run ∧
      storage'.lookup (fingerprint (keysOf segments)) = some (some slot) ∧
      LengthArray.ofBytes slot.value = .ofArray (lengthsOf (runOf segments run.1 run.2)) := by
  have hcount : (segments.filter (·.segmentType = .fixedValue)).length = segments.length := by
    rw [List.filter_eq_self.mpr fun segment hs => decide_eq_true (hfixed segment hs)]
  obtain ⟨key, hkey⟩ : ∃ key, SegmentsKey.create segments = some key :=
    ⟨_, create_eq h.keyLen_le⟩
  obtain ⟨run, hrun, hmem⟩ := @exists_lastRun _ fingerprint _ h hne
  have hlength := length_runs h.count
  obtain ⟨storage', hinserts, -, hlookup⟩ := inserts_spec
    ((runs segments.length).map fun run => (clock run, fingerprint (key.getKey run.1 run.2),
      (key.getLengthArray run.1 run.2).toBytes)) hlinked
    (by rw [hempty, hsize, List.length_map, List.length_nil, kLruSize]; omega)
  have hlast := hlookup (fingerprint (keysOf segments))
  rw [List.filter_map, List.getLast?_map] at hlast
  have hkeys : (runs segments.length).filter ((fun item : UInt32 × UInt64 × (Nat → UInt8) =>
      decide (item.2.1 = fingerprint (keysOf segments))) ∘ fun run => (clock run,
        fingerprint (key.getKey run.1 run.2), (key.getLengthArray run.1 run.2).toBytes))
      = (runs segments.length).filter fun run =>
        fingerprint (keysOf (runOf segments run.1 run.2)) = fingerprint (keysOf segments) := by
    refine List.filter_congr ?_
    intro run hrun
    have hbounds := (mem_runs.mp hrun).2.1
    simp only [Function.comp_apply, getKey_eq hkey h.keyLen_le hbounds]
  have hlastRun : ((runs segments.length).filter fun run =>
      fingerprint (keysOf (runOf segments run.1 run.2)) = fingerprint (keysOf segments)).getLast?
        = some run := hrun
  rw [hkeys, hlastRun] at hlast
  refine ⟨storage', run, _, ?_, hrun, hlast, ?_⟩
  · rw [insert, hcount, if_neg (List.length_pos_iff.mpr hne).ne', hkey]
    dsimp only
    rw [hinserts]
    rfl
  · rw [hvalue, ofBytes_readValue, getLengthArray_eq hkey h.keyLen_le]

/-- **WHAT IS FOUND FOR THE WHOLE KEY** decides: its lengths are asked for, if the segments do
    not have them. -/
theorem check_spec {options : LearningOptions} (hoptions : options.Enabled)
    (h : Segmentation segments) (hne : segments ≠ []) {storage : LruStorage} {slot : Slot}
    (hlookup : storage.lookup (fingerprint (keysOf segments)) = some (some slot)) :
    checkResizeSegmentsRequest fingerprint options false segments storage
      = some (if LengthArray.ofBytes slot.value = .ofArray (lengthsOf segments) then none
        else some (0, (LengthArray.ofBytes slot.value).toUint8Array)) := by
  have hpos := List.length_pos_iff.mpr hne
  have hcount := h.count
  obtain ⟨key, hkey⟩ : ∃ key, SegmentsKey.create segments = some key :=
    ⟨_, create_eq h.keyLen_le⟩
  obtain ⟨k, hk⟩ := Nat.exists_eq_succ_of_ne_zero hpos.ne'
  have hsize : keysSize segments.length 0 = k + 1 := by
    rw [keysSize, Nat.sub_zero, hk]
    omega
  have hwhole : key.getKey 0 (k + 1) = keysOf segments := by
    rw [getKey_eq hkey h.keyLen_le (by omega), ← Nat.succ_eq_add_one, ← hk, runOf_whole]
  have hlengths : key.getLengthArray 0 (k + 1) = .ofArray (lengthsOf segments) := by
    rw [getLengthArray_eq hkey h.keyLen_le, ← Nat.succ_eq_add_one, ← hk, runOf_whole]
  rw [checkResizeSegmentsRequest, if_neg Bool.false_ne_true, if_neg (not_not_intro hoptions),
    if_neg hpos.ne', hkey]
  dsimp only
  by_cases heq : LengthArray.ofBytes slot.value = .ofArray (lengthsOf segments)
  · have hsizes : checkSizes fingerprint key storage 0 (k + 1) = some (.inl segments.length) := by
      rw [checkSizes, hwhole, hlookup, hlengths, hk, Nat.zero_add]
      exact if_pos heq
    rw [if_pos heq, hk, checkLoop, if_pos (Nat.succ_pos k), ← hk, hsize, hsizes]
    cases k with
    | zero => rfl
    | succ k => exact (checkLoop.eq_2 ..).trans (if_neg (Nat.lt_irrefl _))
  · have hsizes : checkSizes fingerprint key storage 0 (k + 1)
        = some (.inr (0, (LengthArray.ofBytes slot.value).toUint8Array)) := by
      rw [checkSizes, hwhole, hlookup, hlengths]
      exact if_neg heq
    rw [if_neg heq, hk, checkLoop, if_pos (Nat.succ_pos k), ← hk, hsize, hsizes]

theorem Segmentation.fits_iff (h : Segmentation segments) :
    (∀ i : Fin 8, ((lengthsOf segments).getD i 0).toNat < 16) ↔
      ∀ segment ∈ segments, segment.keyLen ≤ 15 := by
  have hlengths : ∀ n, (∀ l ∈ lengthsOf segments, l.toNat < n) ↔
      ∀ segment ∈ segments, segment.keyLen < n := by
    intro n
    have hmap := h.lengthsOf_toNat
    constructor
    · intro hlt segment hs
      obtain ⟨l, hl, heq⟩ := List.mem_map.mp
        (hmap ▸ List.mem_map_of_mem hs : segment.keyLen ∈ (lengthsOf segments).map UInt8.toNat)
      rw [← heq]
      exact hlt l hl
    · intro hlt l hl
      obtain ⟨segment, hs, heq⟩ := List.mem_map.mp
        (hmap ▸ List.mem_map_of_mem hl : l.toNat ∈ segments.map CandidateSegment.keyLen)
      rw [← heq]
      exact hlt segment hs
  have hcount := h.length_lengthsOf
  constructor
  · intro hlt segment hs
    refine Nat.le_of_lt_succ ((hlengths 16).mp ?_ segment hs)
    intro l hl
    obtain ⟨i, hi, rfl⟩ := List.getElem_of_mem hl
    have hfield := hlt ⟨i, by omega⟩
    rwa [List.getD_eq_getElem _ _ hi] at hfield
  · intro hle i
    by_cases hi : i.val < (lengthsOf segments).length
    · rw [List.getD_eq_getElem _ _ hi]
      exact (hlengths 16).mpr (fun segment hs => Nat.lt_succ_of_le (hle segment hs)) _
        (List.getElem_mem hi)
    · rw [List.getD_eq_default _ _ (Nat.le_of_not_lt hi)]
      decide

/-- Segments, behind a history, are resized to those that sizes belong to. -/
def RestoredBy (sizes : List UInt8) (segments segments' : List (CandidateSegment α)) : Prop :=
  ∀ (cleared : α) (history : List (CandidateSegment α)), history.length < 2 ^ 63 →
    (∀ segment ∈ history, ValidUtf8 segment.key) →
    ∃ restored, resize cleared history.length sizes ⟨history ++ segments', false⟩
        = some (true, ⟨history ++ restored, true⟩) ∧
      restored.map CandidateSegment.key = segments.map CandidateSegment.key

/-- Segments are inserted into a new storage, and others are checked: the boundaries come
    back. -/
def ComesBack (fingerprint : Bytes → UInt64) (clock : Nat × Nat → UInt32)
    (options : LearningOptions) (segments segments' : List (CandidateSegment α)) : Prop :=
  ∃ storage answer,
    (newStorage.bind fun storage => (insert fingerprint clock segments storage).map Prod.snd)
      = some storage ∧
    checkResizeSegmentsRequest fingerprint options false segments' storage = some answer ∧
    (segments'.map CandidateSegment.key = segments.map CandidateSegment.key → answer = none) ∧
    (segments'.map CandidateSegment.key ≠ segments.map CandidateSegment.key →
      answer = some (0, padded (lengthsOf segments)) ∧
        RestoredBy (padded (lengthsOf segments)) segments segments')

/-- The last run with the fingerprint of the whole key has the lengths of the whole, four bits
    of each. -/
def KnownByKey (fingerprint : Bytes → UInt64) (segments : List (CandidateSegment α)) : Prop :=
  ∀ run ∈ lastRun fingerprint segments,
    LengthArray.ofArray (lengthsOf (runOf segments run.1 run.2)) = .ofArray (lengthsOf segments)

/-- **THE BOUNDARIES COME BACK** exactly if the whole key is not taken for that of a later run,
    and the lengths fit into four bits or nothing is to be resized. -/
theorem comesBack_iff (fingerprint : Bytes → UInt64) (clock : Nat × Nat → UInt32)
    (options : LearningOptions) (hoptions : options.Enabled)
    (segments segments' : List (CandidateSegment α)) (h : Segmentation segments)
    (h' : Segmentation segments') (hkeys : keysOf segments = keysOf segments')
    (hfixed : ∀ segment ∈ segments, segment.segmentType = .fixedValue) :
    ComesBack fingerprint clock options segments segments' ↔
      KnownByKey fingerprint segments ∧
        (segments'.map CandidateSegment.key = segments.map CandidateSegment.key ∨
          ∀ segment ∈ segments, segment.keyLen ≤ 15) := by
  obtain ⟨storage, hnew, hlinked, hempty, hvalue, hsize⟩ := newStorage_spec
  have hnil : ∀ {l : List (CandidateSegment α)}, Segmentation l → (keysOf l = [] ↔ l = []) := by
    intro l hl
    constructor
    · intro hnil
      cases l with
      | nil => rfl
      | cons segment rest =>
        exact absurd (List.append_eq_nil_iff.mp hnil).1 (hl.nonempty _ List.mem_cons_self)
    · rintro rfl
      rfl
  by_cases hne : segments = []
  · subst hne
    have hnil' : segments' = [] := (hnil h').mp (hkeys.symm.trans rfl)
    subst hnil'
    refine iff_of_true ⟨storage, none, ?_, ?_, fun _ => rfl, fun hdiff => absurd rfl hdiff⟩
      ⟨fun run hrun => ?_, Or.inl rfl⟩
    · rw [hnew]
      rfl
    · rw [checkResizeSegmentsRequest, if_neg Bool.false_ne_true, if_neg (not_not_intro hoptions),
        if_pos List.length_nil]
    · cases hrun
  have hne' : segments' ≠ [] := by
    rintro rfl
    exact hne ((hnil h).mp hkeys)
  obtain ⟨storage', run, slot, hinsert, hrun, hlookup, hslot⟩ :=
    @insert_lookup _ fingerprint _ clock h hne hfixed storage hlinked hempty hvalue hsize
  have hcheck := check_spec hoptions h' hne' (hkeys ▸ hlookup)
  rw [hslot] at hcheck
  have hknown : KnownByKey fingerprint segments ↔
      LengthArray.ofArray (lengthsOf (runOf segments run.1 run.2))
        = .ofArray (lengthsOf segments) := by
    constructor
    · exact fun hall => hall run hrun
    · intro heq run' hrun'
      rw [hrun] at hrun'
      cases hrun'
      exact heq
  obtain ⟨value, hvalue⟩ : ∃ value,
      LengthArray.ofArray (lengthsOf (runOf segments run.1 run.2)) = value := ⟨_, rfl⟩
  rw [hvalue] at hcheck hknown
  have hstored : (newStorage.bind fun storage =>
      (insert fingerprint clock segments storage).map Prod.snd) = some storage' := by
    rw [hnew, Option.bind_some, hinsert]
    rfl
  rw [hknown]
  by_cases hsame : segments'.map CandidateSegment.key = segments.map CandidateSegment.key
  · have hlengths : lengthsOf segments' = lengthsOf segments := by
      have hmap := congrArg (List.map fun key => UInt8.ofNat (charsLen key)) hsame
      rwa [List.map_map, List.map_map] at hmap
    rw [and_iff_left (Or.inl hsame)]
    rw [hlengths] at hcheck
    constructor
    · rintro ⟨storage'', answer, hstorage, hanswer, hnone, -⟩
      rw [hstored, Option.some.injEq] at hstorage
      rw [← hstorage, hcheck, Option.some.injEq, hnone hsame] at hanswer
      by_contra hother
      rw [if_neg hother] at hanswer
      cases hanswer
    · intro heq
      rw [if_pos heq] at hcheck
      exact ⟨storage', none, hstored, hcheck, fun _ => rfl, fun hdiff => absurd hsame hdiff⟩
  · rw [or_iff_right hsame, ← h.fits_iff, ← toUint8Array_eq_iff]
    constructor
    · rintro ⟨storage'', answer, hstorage, hanswer, -, hrequest⟩
      rw [hstored, Option.some.injEq] at hstorage
      rw [← hstorage, hcheck, Option.some.injEq, (hrequest hsame).1] at hanswer
      split at hanswer
      · cases hanswer
      · exact (Prod.mk.inj (Option.some.inj hanswer)).2
    · intro hsizes
      obtain ⟨heq, hfit⟩ := (toUint8Array_eq_iff value _).mp hsizes
      rw [if_neg, hsizes] at hcheck
      · refine ⟨storage', _, hstored, hcheck, fun hsame' => absurd hsame' hsame, fun _ => ⟨rfl, ?_⟩⟩
        intro cleared history hhistory hvalid
        exact resize_restores cleared history hhistory hvalid h h' hkeys hne
      · -- lengths that are found are those of no other segmentation
        intro hother
        exact hsame (keys_eq_of_ofArray h h' hkeys hfit (heq.symm.trans hother))

/-! ## Two segmentations -/

/-- A segment with a value that the user has fixed. -/
def fixedSegment (key : Bytes) : CandidateSegment Unit := ⟨.fixedValue, key, ()⟩

/-- A request that learns and resizes. -/
def learningOptions : LearningOptions := ⟨false, .defaultHistory, true, false, false, 0⟩

/-- The boundary of a and b comes back. -/
theorem comesBack_ab : ComesBack (fun key => UInt64.ofNat key.length) (fun _ => 1) learningOptions
    [fixedSegment [0x61], fixedSegment [0x62]] [fixedSegment [0x61, 0x62]] := by
  have hvalid : ∀ cs : List Nat, (∀ c ∈ cs, IsScalar c) → ValidUtf8 (cs.flatMap utf8) :=
    fun cs hcs => ⟨cs, hcs, rfl⟩
  refine (comesBack_iff _ _ learningOptions (by decide) _ _ ⟨by decide, by decide, ?_, by decide⟩
    ⟨by decide, by decide, ?_, by decide⟩ (by decide) (by decide)).mpr ⟨?_, Or.inr (by decide)⟩
  · intro segment hs
    rcases List.mem_cons.mp hs with rfl | hs
    · exact hvalid [0x61] (by decide)
    · rw [List.mem_singleton.mp hs]
      exact hvalid [0x62] (by decide)
  · intro segment hs
    rw [List.mem_singleton.mp hs]
    exact hvalid [0x61, 0x62] (by decide)
  · intro run hrun
    cases (show some (0, 2) = some run from hrun)
    rfl

theorem checkLoop_lt {key : SegmentsKey} {storage : LruStorage} {n : Nat}
    {request : ResizeSegmentsRequest} (fuel : Nat) : ∀ {segIdx : Nat},
      checkLoop fingerprint key storage n fuel segIdx = some (some request) →
      ∀ size ∈ request.2, size.toNat < 16 := by
  have hsizes : ∀ (k : Nat) {segIdx : Nat} {request : ResizeSegmentsRequest},
      checkSizes fingerprint key storage segIdx k = some (.inr request) →
      ∀ size ∈ request.2, size.toNat < 16 := by
    intro k
    induction k with
    | zero =>
      intro segIdx request h
      cases h
    | succ k ih =>
      intro segIdx request h
      rw [checkSizes] at h
      split at h
      · cases h
      · exact ih h
      · dsimp only at h
        split at h
        · cases h
        · cases h
          intro size hsize
          obtain ⟨i, rfl⟩ := List.mem_ofFn.mp hsize
          rw [UInt8.toNat_ofNat', Nat.mod_eq_of_lt (by omega)]
          exact Fin.isLt _
  induction fuel with
  | zero =>
    intro segIdx h
    cases h
  | succ fuel ih =>
    intro segIdx h
    rw [checkLoop] at h
    split at h
    · split at h
      · cases h
      · exact ih h
      · rename_i hrequest
        cases h
        exact hsizes _ hrequest
    · cases h

/-- A boundary behind 16 characters does not come back. -/
theorem long_segment_lost :
    keysOf [fixedSegment (List.replicate 16 0x61), fixedSegment [0x61]]
        = keysOf [fixedSegment (List.replicate 17 0x61)] ∧
      (∀ segment ∈ [fixedSegment (List.replicate 16 0x61), fixedSegment [0x61]],
        segment.keyLen ≤ 255) ∧
      ¬ ComesBack (fun key => UInt64.ofNat key.length) (fun _ => 1) learningOptions
        [fixedSegment (List.replicate 16 0x61), fixedSegment [0x61]]
        [fixedSegment (List.replicate 17 0x61)] := by
  refine ⟨by decide, by decide, ?_⟩
  rintro ⟨storage, answer, -, hcheck, -, hrequest⟩
  obtain ⟨rfl, -⟩ := hrequest (by decide)
  have hloop : ∀ size ∈ padded (lengthsOf [fixedSegment (List.replicate 16 0x61),
      fixedSegment [0x61]]), size.toNat < 16 := by
    rw [checkResizeSegmentsRequest, if_neg Bool.false_ne_true, if_neg (by decide),
      if_neg (by decide)] at hcheck
    split at hcheck
    · cases hcheck
    · exact checkLoop_lt _ hcheck
  exact absurd (hloop 16 (by decide)) (by decide)

end MozkeyRewriter
