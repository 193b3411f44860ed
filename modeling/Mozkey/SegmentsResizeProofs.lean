import Mozkey.SegmentsProofs
import Mozkey.TransliteratorsProofs

/-! # Resize — new boundaries for the segments of a conversion

    A user moves the boundary of a segment.  The segments from an index on are collected until
    they cover the new sizes; their text is cut along the sizes, and what remains goes to the
    segment that follows. -/

namespace MozkeyConverter

open ByteString MozkeyUtil MozkeyComposer

variable {α : Type}

/-- `Segment`, with the candidates and the meta candidates as `candidates`. -/
structure CandidateSegment (α : Type) where
  segmentType : SegmentType
  key : Bytes
  candidates : α
  deriving DecidableEq

/-- `key_len`, which is set with the key. -/
def CandidateSegment.keyLen (segment : CandidateSegment α) : Nat := charsLen segment.key

/-- A segment after `Clear`, with its type and its key set. -/
def clearedSegment (cleared : α) (segmentType : SegmentType) (key : Bytes) : CandidateSegment α :=
  ⟨segmentType, key, cleared⟩

/-- `Segments`, as far as `Resize` reads and sets it. -/
structure Segments (α : Type) where
  segments : List (CandidateSegment α)
  resized : Bool
  deriving DecidableEq

/-- The keys of segments, one after the other. -/
def keysOf (segments : List (CandidateSegment α)) : Bytes :=
  segments.flatMap CandidateSegment.key

@[simp] theorem keysOf_nil : keysOf ([] : List (CandidateSegment α)) = [] := rfl

@[simp] theorem keysOf_cons (segment : CandidateSegment α)
    (segments : List (CandidateSegment α)) :
    keysOf (segment :: segments) = segment.key ++ keysOf segments := rfl

@[simp] theorem keysOf_append (segments segments' : List (CandidateSegment α)) :
    keysOf (segments ++ segments') = keysOf segments ++ keysOf segments' :=
  List.flatMap_append

/-! ## The source -/

/-- `insert_segment`. -/
def insertSegment (i : Nat) (segment : CandidateSegment α)
    (segments : List (CandidateSegment α)) : List (CandidateSegment α) :=
  segments.take i ++ segment :: segments.drop i

/-- `erase_segment`. -/
def eraseSegment (i : Nat) (segments : List (CandidateSegment α)) : List (CandidateSegment α) :=
  if segments.length ≤ i then segments else segments.eraseIdx i

/-- `erase_segments`; its end is an index and a count of segments, which do not wrap around. -/
def eraseSegments (i size : Nat) (segments : List (CandidateSegment α)) :
    List (CandidateSegment α) :=
  let stop := i + size
  if segments.length ≤ i ∨ segments.length < stop then segments
  else segments.take i ++ segments.drop stop

/-- `Range::drop`; `none` where its `CHECK_GE` fails: the count is a difference and has a sign. -/
def dropSegments (count : Nat) (segments : List (CandidateSegment α)) :
    Option (List (CandidateSegment α)) :=
  if 2 ^ 63 ≤ count then none else some (segments.drop count)

/-- `std::accumulate` into an `int`; `none` where the sum overflows. -/
def accumulateSizes : Nat → List UInt8 → Option Nat
  | sum, [] => some sum
  | sum, size :: sizes =>
    if 2 ^ 31 ≤ sum + size.toNat then none else accumulateSizes (sum + size.toNat) sizes

/-- The first loop of `Resize`: the key, its length and the number of segments. -/
def collectSegments (totalSize : Nat) :
    List (CandidateSegment α) → Bytes → Nat → Nat → Bytes × Nat × Nat
  | [], key, keyLen, modified => (key, keyLen, modified)
  | segment :: segments, key, keyLen, modified =>
    let key := key ++ segment.key
    let keyLen := keyLen + segment.keyLen
    if totalSize ≤ keyLen then (key, keyLen, modified + 1)
    else collectSegments totalSize segments key keyLen (modified + 1)

/-- The second loop of `Resize`: the new keys and what they consume. -/
def cutKeys (key : Bytes) (keyLen : Nat) : List UInt8 → Nat → Option (List Bytes × Nat)
  | [], consumed => some ([], consumed)
  | newSize :: newSizes, consumed =>
    if newSize ≠ 0 ∧ consumed < keyLen then
      match utf8SubStringOf key consumed newSize.toNat,
          cutKeys key keyLen newSizes (consumed + newSize.toNat) with
      | some newKey, some (newKeys, consumed) => some (newKey :: newKeys, consumed)
      | _, _ => none
    else cutKeys key keyLen newSizes consumed

/-- The third loop of `Resize`. -/
def insertKeys (cleared : α) :
    Nat → List Bytes → List (CandidateSegment α) → List (CandidateSegment α)
  | _, [], segments => segments
  | i, newKey :: newKeys, segments =>
    insertKeys cleared (i + 1) newKeys
      (insertSegment i (clearedSegment cleared .fixedBoundary newKey) segments)

/-- The end of `Resize`: the key that remains goes to the segment at the index. -/
def insertRemaining (cleared : α) (i : Nat) (remaining : Bytes)
    (segments : List (CandidateSegment α)) : List (CandidateSegment α) :=
  match segments[i]? with
  | some next =>
    insertSegment i (clearedSegment cleared .free (remaining ++ next.key))
      (eraseSegment i segments)
  | none => insertSegment i (clearedSegment cleared .free remaining) segments

/-- `Resize`; `none` where it does not return. -/
def resize (cleared : α) (startIndex : Nat) (newSizes : List UInt8) (s : Segments α) :
    Option (Bool × Segments α) := do
  let totalSize ← accumulateSizes 0 newSizes
  if totalSize = 0 then return (false, s)
  let range ← dropSegments startIndex s.segments
  let (key, keyLen, modified) := collectSegments totalSize range [] 0 0
  if keyLen = 0 ∨ keyLen < totalSize then return (false, s)
  let (newKeys, consumed) ← cutKeys key keyLen newSizes 0
  let segments :=
    insertKeys cleared startIndex newKeys (eraseSegments startIndex modified s.segments)
  if consumed < keyLen then
    let remaining ← utf8SubStringOf key consumed (keyLen - consumed)
    return (true,
      ⟨insertRemaining cleared (startIndex + newKeys.length) remaining segments, true⟩)
  return (true, ⟨segments, true⟩)

/-! ## What a resize gives -/

/-- The sum of the sizes. -/
def sizesSum (newSizes : List UInt8) : Nat := (newSizes.map UInt8.toNat).sum

/-- The lengths of the keys of segments, taken together. -/
def lengthOf (segments : List (CandidateSegment α)) : Nat :=
  (segments.map CandidateSegment.keyLen).sum

@[simp] theorem lengthOf_nil : lengthOf ([] : List (CandidateSegment α)) = 0 := rfl

@[simp] theorem lengthOf_cons (segment : CandidateSegment α)
    (segments : List (CandidateSegment α)) :
    lengthOf (segment :: segments) = segment.keyLen + lengthOf segments := rfl

/-- The segments after those that are resized, with the text that remains. -/
def withRemaining (cleared : α) : Bytes → List (CandidateSegment α) → List (CandidateSegment α)
  | [], rest => rest
  | b :: bs, [] => [clearedSegment cleared .free (b :: bs)]
  | b :: bs, next :: rest => clearedSegment cleared .free (b :: bs ++ next.key) :: rest

/-- What a resize gives: `touched` are the fewest segments that cover the sizes, `fixed` are in
    their place, and their text is that of `fixed` and what `remains`. -/
structure ResizedTo (cleared : α) (startIndex : Nat) (newSizes : List UInt8)
    (segments segments' touched rest fixed : List (CandidateSegment α)) (remains : Bytes) :
    Prop where
  keys : keysOf segments' = keysOf segments
  split : segments = segments.take startIndex ++ touched ++ rest
  fewest : lengthOf touched.dropLast < sizesSum newSizes
  result : segments' = segments.take startIndex ++ fixed ++ withRemaining cleared remains rest
  text : keysOf touched = keysOf fixed ++ remains
  boundary : ∀ segment ∈ fixed, segment.segmentType = .fixedBoundary
  sizes : fixed.map CandidateSegment.keyLen = (newSizes.filter (· ≠ 0)).map UInt8.toNat

/-! ## The lists -/

theorem insertSegment_append (before : List (CandidateSegment α)) (segment : CandidateSegment α)
    (after : List (CandidateSegment α)) :
    insertSegment before.length segment (before ++ after) = before ++ segment :: after := by
  rw [insertSegment, List.take_left, List.drop_left]

theorem insertKeys_append (cleared : α) (newKeys : List Bytes) :
    ∀ (before after : List (CandidateSegment α)),
      insertKeys cleared before.length newKeys (before ++ after)
        = before ++ newKeys.map (clearedSegment cleared .fixedBoundary) ++ after := by
  induction newKeys with
  | nil =>
    intro before after
    simp [insertKeys]
  | cons newKey newKeys ih =>
    intro before after
    have hnext := ih (before ++ [clearedSegment cleared .fixedBoundary newKey]) after
    rw [List.length_append, List.length_singleton] at hnext
    rw [insertKeys, insertSegment_append, List.append_cons, hnext]
    simp

theorem insertRemaining_append (cleared : α) {remaining : Bytes} (hremaining : remaining ≠ [])
    (before after : List (CandidateSegment α)) :
    insertRemaining cleared before.length remaining (before ++ after)
      = before ++ withRemaining cleared remaining after := by
  obtain ⟨b, bs, rfl⟩ := List.exists_cons_of_ne_nil hremaining
  cases after with
  | nil =>
    rw [insertRemaining, List.append_nil, List.getElem?_eq_none le_rfl]
    have hinsert := insertSegment_append before (clearedSegment cleared .free (b :: bs)) []
    rw [List.append_nil] at hinsert
    exact hinsert
  | cons next rest =>
    have herase : eraseSegment before.length (before ++ next :: rest) = before ++ rest := by
      rw [eraseSegment, if_neg (by simp), List.eraseIdx_append_of_length_le le_rfl]
      simp
    have hnext : (before ++ next :: rest)[before.length]? = some next := by simp
    rw [insertRemaining, hnext]
    dsimp only
    rw [herase, insertSegment_append]
    rfl

theorem keysOf_withRemaining (cleared : α) (remaining : Bytes)
    (rest : List (CandidateSegment α)) :
    keysOf (withRemaining cleared remaining rest) = remaining ++ keysOf rest := by
  cases remaining with
  | nil => rfl
  | cons b bs =>
    cases rest with
    | nil => simp [withRemaining, clearedSegment]
    | cons next rest => simp [withRemaining, clearedSegment]

theorem keysOf_fixed (cleared : α) (newKeys : List Bytes) :
    keysOf (newKeys.map (clearedSegment cleared .fixedBoundary)) = newKeys.flatten := by
  induction newKeys with
  | nil => rfl
  | cons newKey newKeys ih =>
    rw [List.map_cons, keysOf_cons, ih, List.flatten_cons]
    rfl

/-! ## The sum of the sizes -/

@[simp] theorem sizesSum_nil : sizesSum [] = 0 := rfl

@[simp] theorem sizesSum_cons (size : UInt8) (sizes : List UInt8) :
    sizesSum (size :: sizes) = size.toNat + sizesSum sizes := rfl

theorem accumulateSizes_eq {newSizes : List UInt8} :
    ∀ {sum : Nat}, sum + sizesSum newSizes < 2 ^ 31 →
      accumulateSizes sum newSizes = some (sum + sizesSum newSizes) := by
  induction newSizes with
  | nil =>
    intro sum _
    rfl
  | cons size sizes ih =>
    intro sum h
    rw [sizesSum_cons] at h
    rw [accumulateSizes, if_neg (by omega), ih (by omega), sizesSum_cons, Nat.add_assoc]

/-! ## The text -/

/-- The text of valid segments is valid, and its length is that of the segments. -/
theorem keysOf_valid {segments : List (CandidateSegment α)} :
    (∀ segment ∈ segments, ValidUtf8 segment.key) →
      ∃ cs : List Nat, (∀ c ∈ cs, IsScalar c) ∧ keysOf segments = cs.flatMap utf8 ∧
        lengthOf segments = cs.length := by
  induction segments with
  | nil =>
    intro _
    exact ⟨[], by simp, rfl, rfl⟩
  | cons segment segments ih =>
    intro hvalid
    obtain ⟨cs, hcs, hkey⟩ := hvalid segment List.mem_cons_self
    obtain ⟨cs', hcs', hkeys, hlength⟩ :=
      ih fun s hs => hvalid s (List.mem_cons_of_mem segment hs)
    refine ⟨cs ++ cs', ?_, ?_, ?_⟩
    · intro c hc
      exact (List.mem_append.mp hc).elim (hcs c) (hcs' c)
    · rw [keysOf_cons, hkey, hkeys, List.flatMap_append]
    · rw [lengthOf_cons, hlength, CandidateSegment.keyLen, hkey,
        MozkeyStrings.charsLen_flatMap hcs, List.length_append]

theorem collectSegments_spec {totalSize : Nat} {segments : List (CandidateSegment α)} :
    ∀ {key : Bytes} {keyLen modified : Nat}, keyLen < totalSize →
      ∃ touched rest, segments = touched ++ rest ∧
        collectSegments totalSize segments key keyLen modified
          = (key ++ keysOf touched, keyLen + lengthOf touched, modified + touched.length) ∧
        (totalSize ≤ keyLen + lengthOf touched →
          keyLen + lengthOf touched.dropLast < totalSize) ∧
        (keyLen + lengthOf touched < totalSize → rest = []) := by
  induction segments with
  | nil =>
    intro key keyLen modified hlt
    exact ⟨[], [], rfl, by simp [collectSegments], fun _ => hlt, fun _ => rfl⟩
  | cons segment segments ih =>
    intro key keyLen modified hlt
    by_cases hcover : totalSize ≤ keyLen + segment.keyLen
    · refine ⟨[segment], segments, rfl, ?_, fun _ => hlt, ?_⟩
      · rw [collectSegments, if_pos hcover]
        simp
      · intro hshort
        rw [lengthOf_cons, lengthOf_nil] at hshort
        omega
    · obtain ⟨touched, rest, rfl, hcollect, hfewest, hall⟩ :=
        @ih (key ++ segment.key) _ (modified + 1) (Nat.lt_of_not_le hcover)
      refine ⟨segment :: touched, rest, rfl, ?_, ?_, ?_⟩
      · rw [collectSegments, if_neg hcover, hcollect]
        simp [Nat.add_assoc, Nat.add_comm 1]
      · intro hle
        rw [lengthOf_cons, ← Nat.add_assoc] at hle
        have hlast := hfewest hle
        cases touched with
        | nil => exact absurd hle hcover
        | cons second touched =>
          rw [List.dropLast_cons_cons, lengthOf_cons, ← Nat.add_assoc]
          exact hlast
      · intro hshort
        rw [lengthOf_cons, ← Nat.add_assoc] at hshort
        exact hall hshort

/-- The text is cut into the sizes that are not 0, one after the other. -/
theorem cutKeys_flatMap {cs : List Nat} (hcs : ∀ c ∈ cs, IsScalar c) {newSizes : List UInt8} :
    ∀ {consumed : Nat}, consumed + sizesSum newSizes ≤ cs.length →
      ∃ newKeys, cutKeys (cs.flatMap utf8) cs.length newSizes consumed
          = some (newKeys, consumed + sizesSum newSizes) ∧
        newKeys.flatten = ((cs.drop consumed).take (sizesSum newSizes)).flatMap utf8 ∧
        newKeys.map charsLen = (newSizes.filter (· ≠ 0)).map UInt8.toNat ∧
        ∀ newKey ∈ newKeys, ValidUtf8 newKey := by
  induction newSizes with
  | nil =>
    intro consumed _
    exact ⟨[], rfl, by simp, rfl, by simp⟩
  | cons size sizes ih =>
    intro consumed hle
    rw [sizesSum_cons] at hle
    by_cases hzero : size = 0
    · subst hzero
      obtain ⟨newKeys, hcut, hflatten, hlengths, hkeys⟩ := @ih consumed (by simpa using hle)
      refine ⟨newKeys, ?_, ?_, ?_, hkeys⟩
      · rw [cutKeys, if_neg (by simp), hcut]
        simp
      · simpa using hflatten
      · simpa using hlengths
    · have hpos : 0 < size.toNat := by
        have hne : size.toNat ≠ 0 := fun h => hzero (UInt8.toNat_inj.mp h)
        omega
      obtain ⟨newKeys, hcut, hflatten, hlengths, hkeys⟩ :=
        @ih (consumed + size.toNat) (by omega)
      have hscalars : ∀ c ∈ (cs.drop consumed).take size.toNat, IsScalar c :=
        fun c hc => hcs c (List.mem_of_mem_drop (List.mem_of_mem_take hc))
      refine ⟨((cs.drop consumed).take size.toNat).flatMap utf8 :: newKeys, ?_, ?_, ?_,
        List.forall_mem_cons.mpr ⟨⟨_, hscalars, rfl⟩, hkeys⟩⟩
      · rw [cutKeys, if_pos ⟨hzero, by omega⟩, utf8SubStringOf_flatMap hcs, hcut,
          sizesSum_cons, Nat.add_assoc]
      · rw [List.flatten_cons, hflatten, ← List.flatMap_append, sizesSum_cons, List.take_add,
          List.drop_drop]
      · have hpiece : charsLen (((cs.drop consumed).take size.toNat).flatMap utf8)
            = size.toNat := by
          rw [MozkeyStrings.charsLen_flatMap hscalars, List.length_take, List.length_drop]
          omega
        rw [List.map_cons, hpiece, hlengths, List.filter_cons_of_pos (by simpa using hzero),
          List.map_cons]

/-! ## Resizing -/

theorem eraseSegments_append (before touched rest : List (CandidateSegment α))
    (htouched : touched ≠ []) :
    eraseSegments before.length touched.length (before ++ (touched ++ rest)) = before ++ rest := by
  have hpos := List.length_pos_iff.mpr htouched
  rw [eraseSegments, if_neg (by simp only [List.length_append]; omega), List.take_left,
    ← List.append_assoc,
    ← List.length_append, List.drop_left]

theorem flatMap_drop_ne_nil {cs : List Nat} {n : Nat} (h : n < cs.length) :
    (cs.drop n).flatMap utf8 ≠ [] := by
  rw [List.drop_eq_getElem_cons h, List.flatMap_cons]
  exact List.append_ne_nil_of_left_ne_nil (utf8_ne_nil _) _

/-- Segments that cover the sizes are resized; their new keys are valid, and nothing remains of
    segments that are just as long. -/
theorem resize_of_cover (cleared : α) {startIndex : Nat} {newSizes : List UInt8}
    {s : Segments α} (hindex : startIndex < 2 ^ 63) (htotal : sizesSum newSizes ≠ 0)
    (hsum : sizesSum newSizes < 2 ^ 31)
    (hvalid : ∀ segment ∈ s.segments, ValidUtf8 segment.key)
    (hcovers : sizesSum newSizes ≤ lengthOf (s.segments.drop startIndex)) :
    ∃ segments' touched rest fixed remains,
      resize cleared startIndex newSizes s = some (true, ⟨segments', true⟩) ∧
        ResizedTo cleared startIndex newSizes s.segments segments' touched rest fixed remains ∧
        (∀ segment ∈ fixed, ValidUtf8 segment.key) ∧ sizesSum newSizes ≤ lengthOf touched ∧
        (lengthOf touched ≤ sizesSum newSizes → remains = []) := by
  have haccumulate := @accumulateSizes_eq newSizes 0 (by simpa using hsum)
  rw [Nat.zero_add] at haccumulate
  have hdrop : dropSegments startIndex s.segments = some (s.segments.drop startIndex) :=
    if_neg (Nat.not_le.mpr hindex)
  obtain ⟨touched, rest, hsplit, hcollect, hfewest, hall⟩ :=
    @collectSegments_spec _ _ (s.segments.drop startIndex) [] 0 0 (Nat.pos_of_ne_zero htotal)
  rw [List.nil_append, Nat.zero_add, Nat.zero_add] at hcollect
  rw [Nat.zero_add, Nat.zero_add] at hfewest
  rw [Nat.zero_add] at hall
  have hcover : sizesSum newSizes ≤ lengthOf touched := by
    by_contra hshort
    rw [hsplit, hall (Nat.lt_of_not_le hshort), List.append_nil] at hcovers
    exact hshort hcovers
  have htouched : touched ≠ [] := by
    rintro rfl
    exact htotal (Nat.le_zero.mp hcover)
  -- The index is that of a segment: there is one to resize.
  have hbefore : (s.segments.take startIndex).length = startIndex := by
    have hpos := List.length_pos_iff.mpr htouched
    have hlength := congrArg List.length hsplit
    rw [List.length_drop, List.length_append] at hlength
    rw [List.length_take]
    omega
  have hsegments : s.segments = s.segments.take startIndex ++ (touched ++ rest) := by
    rw [← hsplit, List.take_append_drop]
  have herase := eraseSegments_append (s.segments.take startIndex) touched rest htouched
  rw [hbefore, ← hsegments] at herase
  obtain ⟨cs, hcs, hkeys, hlength⟩ := @keysOf_valid _ touched fun segment hs =>
    hvalid segment (List.mem_of_mem_drop (by rw [hsplit]; exact List.mem_append_left rest hs))
  rw [hlength] at hcover
  obtain ⟨newKeys, hcut, hflatten, hlengths, hvalidKeys⟩ :=
    @cutKeys_flatMap _ hcs newSizes 0 (by simpa using hcover)
  rw [Nat.zero_add] at hcut
  rw [List.drop_zero] at hflatten
  have hne : cs ≠ [] := by
    rintro rfl
    exact htotal (Nat.le_zero.mp hcover)
  let fixed := newKeys.map (clearedSegment cleared .fixedBoundary)
  let remains := (cs.drop (sizesSum newSizes)).flatMap utf8
  have htext : keysOf touched = keysOf fixed ++ remains := by
    rw [hkeys, keysOf_fixed, hflatten, ← List.flatMap_append, List.take_append_drop]
  have hinsert := insertKeys_append cleared newKeys (s.segments.take startIndex) rest
  rw [hbefore] at hinsert
  refine ⟨s.segments.take startIndex ++ fixed ++ withRemaining cleared remains rest, touched,
    rest, fixed, remains, ?_, ⟨?_, ?_, hfewest (hlength ▸ hcover), rfl, htext, ?_, ?_⟩, ?_,
    hlength ▸ hcover, ?_⟩
  · by_cases hrest : sizesSum newSizes < cs.length
    · have hremaining := utf8SubStringOf_flatMap hcs (sizesSum newSizes)
        (cs.length - sizesSum newSizes)
      rw [List.take_of_length_le (by rw [List.length_drop])] at hremaining
      have hplace := insertRemaining_append cleared (flatMap_drop_ne_nil hrest)
        (s.segments.take startIndex ++ fixed) rest
      rw [List.length_append, hbefore, List.length_map] at hplace
      simp [resize, haccumulate, htotal, hdrop, hcollect, hlength, hne,
        Nat.not_lt.mpr hcover, hkeys, hcut, herase, hinsert, hremaining, hrest, remains,
        fixed] at hplace ⊢
      exact hplace
    · have hnil : remains = [] := by
        show (cs.drop (sizesSum newSizes)).flatMap utf8 = []
        rw [List.drop_of_length_le (Nat.le_of_not_lt hrest), List.flatMap_nil]
      rw [hnil]
      simp [resize, haccumulate, htotal, hdrop, hcollect, hlength, hne,
        Nat.not_lt.mpr hcover, hkeys, hcut, herase, hinsert, hrest, fixed, withRemaining]
  · rw [keysOf_append, keysOf_append, keysOf_withRemaining, ← List.append_assoc,
      List.append_assoc (keysOf (s.segments.take startIndex)), ← htext, ← keysOf_append,
      ← keysOf_append, List.append_assoc, ← hsegments]
  · rw [List.append_assoc, ← hsegments]
  · intro segment hs
    obtain ⟨newKey, -, rfl⟩ := List.mem_map.mp hs
    rfl
  · rw [← hlengths, List.map_map]
    rfl
  · intro segment hs
    obtain ⟨newKey, hkey, rfl⟩ := List.mem_map.mp hs
    exact hvalidKeys newKey hkey
  · intro hle
    show (cs.drop (sizesSum newSizes)).flatMap utf8 = []
    rw [List.drop_of_length_le (hlength ▸ hle), List.flatMap_nil]

/-- **THE TEXT STAYS**: a resize gives up and changes nothing, or it sets the boundaries and
    keeps the text and the segments around them. -/
theorem resize_keepsText (cleared : α) {startIndex : Nat} {newSizes : List UInt8}
    {s : Segments α} (hindex : startIndex < 2 ^ 63 ∨ sizesSum newSizes = 0)
    (hsum : sizesSum newSizes < 2 ^ 31)
    (hvalid : ∀ segment ∈ s.segments, ValidUtf8 segment.key) :
    resize cleared startIndex newSizes s = some (false, s) ∨
      ∃ segments' touched rest fixed remains,
        resize cleared startIndex newSizes s = some (true, ⟨segments', true⟩) ∧
          ResizedTo cleared startIndex newSizes s.segments segments' touched rest fixed
            remains := by
  by_cases htotal : sizesSum newSizes = 0
  · left
    have haccumulate := @accumulateSizes_eq newSizes 0 (by simpa using hsum)
    simp [resize, haccumulate, htotal]
  have hindex := hindex.resolve_right htotal
  by_cases hcovers : sizesSum newSizes ≤ lengthOf (s.segments.drop startIndex)
  · right
    obtain ⟨segments', touched, rest, fixed, remains, hresize, hresized, -⟩ :=
      resize_of_cover cleared hindex htotal hsum hvalid hcovers
    exact ⟨segments', touched, rest, fixed, remains, hresize, hresized⟩
  · left
    have haccumulate := @accumulateSizes_eq newSizes 0 (by simpa using hsum)
    have hdrop : dropSegments startIndex s.segments = some (s.segments.drop startIndex) :=
      if_neg (Nat.not_le.mpr hindex)
    obtain ⟨touched, rest, hsplit, hcollect, -, -⟩ :=
      @collectSegments_spec _ _ (s.segments.drop startIndex) [] 0 0 (Nat.pos_of_ne_zero htotal)
    rw [List.nil_append, Nat.zero_add, Nat.zero_add] at hcollect
    have hshort : lengthOf touched < sizesSum newSizes := by
      have hle : lengthOf touched ≤ lengthOf (s.segments.drop startIndex) := by
        rw [hsplit, lengthOf, lengthOf, List.map_append, List.sum_append]
        exact Nat.le_add_right _ _
      omega
    simp [resize, haccumulate, htotal, hdrop, hcollect, hshort]

/-- The first of two characters becomes a segment of its own, the second goes to the next. -/
theorem resize_keepsText_at_first :
    resize () 0 [1] ⟨[⟨.free, [0x61, 0x62], ()⟩, ⟨.fixedValue, [0x63], ()⟩], false⟩
        = some (false, ⟨[⟨.free, [0x61, 0x62], ()⟩, ⟨.fixedValue, [0x63], ()⟩], false⟩) ∨
      ∃ segments' touched rest fixed remains,
        resize () 0 [1] ⟨[⟨.free, [0x61, 0x62], ()⟩, ⟨.fixedValue, [0x63], ()⟩], false⟩
            = some (true, ⟨segments', true⟩) ∧
          ResizedTo () 0 [1] [⟨.free, [0x61, 0x62], ()⟩, ⟨.fixedValue, [0x63], ()⟩] segments'
            touched rest fixed remains :=
  resize_keepsText () (.inl (by decide)) (by decide) (by
    intro segment hs
    simp only [List.mem_cons, List.not_mem_nil, or_false] at hs
    rcases hs with rfl | rfl
    · exact ⟨[0x61, 0x62], by decide, by decide⟩
    · exact ⟨[0x63], by decide, by decide⟩)

example : resize () 0 [1] ⟨[⟨.free, [0x61, 0x62], ()⟩, ⟨.fixedValue, [0x63], ()⟩], false⟩
    = some (true, ⟨[⟨.fixedBoundary, [0x61], ()⟩, ⟨.free, [0x62, 0x63], ()⟩], true⟩) := by
  decide

/-- **AN INDEX OUT OF RANGE**: from 2 ^ 63 on the index is negative as a difference and is
    refused before anything is compared: the call does not return. -/
theorem resize_index_out_of_range :
    (2 ^ 63 < 2 ^ 64 ∧
      ∀ segment ∈ [(⟨.free, [0x61], ()⟩ : CandidateSegment Unit)], ValidUtf8 segment.key) ∧
    ¬ (resize () (2 ^ 63) [1] ⟨[⟨.free, [0x61], ()⟩], false⟩
          = some (false, ⟨[⟨.free, [0x61], ()⟩], false⟩) ∨
        ∃ s', resize () (2 ^ 63) [1] ⟨[⟨.free, [0x61], ()⟩], false⟩ = some (true, s')) := by
  have hnone : resize () (2 ^ 63) [1] ⟨[⟨.free, [0x61], ()⟩], false⟩ = none := by
    decide
  refine ⟨⟨by decide, ?_⟩, ?_⟩
  · intro segment hs
    cases List.mem_singleton.mp hs
    exact ⟨[0x61], by decide, by decide⟩
  · rintro (h | ⟨s', h⟩)
    · rw [hnone] at h
      cases h
    · rw [hnone] at h
      cases h

end MozkeyConverter
