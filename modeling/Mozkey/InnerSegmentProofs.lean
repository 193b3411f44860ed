import Mozkey.ByteStringProofs

/-! # InnerSegments — the segments within a value

    A candidate keeps the boundaries of its inner segments as packed numbers, one for each
    segment: the lengths of the key, the value and their contents, in eight bits each.  The
    builder packs them and checks in the end that they are those of the key and the value; the
    iterator cuts both along the numbers.  The builder counts in 32 bits without a sign, the
    prefixes are counted in 32 bits with one. -/

namespace MozkeyInnerSegment

open ByteString

/-! ## Packed lengths -/

/-- `LengthData`, and the arguments of `EncodeLengths`. -/
structure LengthData where
  keyLen : Nat
  valueLen : Nat
  contentKeyLen : Nat
  contentValueLen : Nat
  deriving DecidableEq

/-- A content length of 0 stands for the whole. -/
def fixContentLen (len fullLen : Nat) : Nat := if len = 0 ∨ fullLen < len then fullLen else len

/-- The lengths with those of the contents as `EncodeLengths` takes them. -/
def LengthData.fixed (d : LengthData) : LengthData :=
  { d with
    contentKeyLen := fixContentLen d.contentKeyLen d.keyLen
    contentValueLen := fixContentLen d.contentValueLen d.valueLen }

/-- The bits of a `LengthData`, the first field in the lowest. -/
def LengthData.bits (d : LengthData) : Nat :=
  d.keyLen + 0x100 * (d.valueLen + 0x100 * (d.contentKeyLen + 0x100 * d.contentValueLen))

/-- Four lengths in 32 bits, if they fit. -/
def encodeLengths (d : LengthData) : Option Nat :=
  let d := d.fixed
  if d.keyLen = 0 ∨ d.valueLen = 0 ∨ d.contentKeyLen = 0 ∨ d.contentValueLen = 0
      ∨ 255 < d.keyLen ∨ 255 < d.valueLen ∨ 255 < d.contentKeyLen ∨ 255 < d.contentValueLen then
    none
  else some d.bits

/-- The four lengths. -/
def decodeLengths (encoded : Nat) : LengthData where
  keyLen := encoded % 0x100
  valueLen := encoded / 0x100 % 0x100
  contentKeyLen := encoded / 0x10000 % 0x100
  contentValueLen := encoded / 0x1000000 % 0x100

variable {d : LengthData}

theorem decodeLengths_of_encode {encoded : Nat} (h : encodeLengths d = some encoded) :
    decodeLengths encoded = d.fixed ∧ 0 < d.keyLen ∧ 0 < d.valueLen ∧ d.keyLen ≤ 255 ∧
      d.valueLen ≤ 255 := by
  rw [encodeLengths] at h
  split at h
  · exact absurd h (Option.some_ne_none _).symm
  · rename_i hrange
    have hkey : d.fixed.keyLen = d.keyLen := rfl
    have hvalue : d.fixed.valueLen = d.valueLen := rfl
    rw [← Option.some.inj h, LengthData.bits]
    generalize hd : d.fixed = fixed at hrange hkey hvalue ⊢
    obtain ⟨k, v, ck, cv⟩ := fixed
    simp only at hrange hkey hvalue ⊢
    refine ⟨?_, by omega, by omega, by omega, by omega⟩
    rw [decodeLengths, LengthData.mk.injEq]
    refine ⟨?_, ?_, ?_, ?_⟩
    · omega
    · omega
    · omega
    · omega

/-! ## The iterator -/

/-- Where an iterator over inner segments stands. -/
structure IteratorData where
  key : Bytes
  value : Bytes
  encodedLengths : List Nat

/-- A length of the current segment, for one of both strings: that of the whole string where
    no length is left. -/
def IteratorData.len (d : IteratorData) (s : Bytes) (field : LengthData → Nat) : Nat :=
  min s.length
    (match d.encodedLengths with
      | [] => s.length
      | encoded :: _ => field (decodeLengths encoded))

/-- `key_len`: the encoded length, or what is left of the key. -/
def IteratorData.keyLen (d : IteratorData) : Nat := d.len d.key LengthData.keyLen

/-- `value_len`. -/
def IteratorData.valueLen (d : IteratorData) : Nat := d.len d.value LengthData.valueLen

/-- `content_key_len`. -/
def IteratorData.contentKeyLen (d : IteratorData) : Nat := d.len d.key LengthData.contentKeyLen

/-- `content_value_len`. -/
def IteratorData.contentValueLen (d : IteratorData) : Nat :=
  d.len d.value LengthData.contentValueLen

/-- `GetKey`. -/
def IteratorData.getKey (d : IteratorData) : Bytes := d.key.take d.keyLen

/-- `GetValue`. -/
def IteratorData.getValue (d : IteratorData) : Bytes := d.value.take d.valueLen

/-- `GetContentKey`. -/
def IteratorData.getContentKey (d : IteratorData) : Bytes := d.key.take d.contentKeyLen

/-- `GetContentValue`. -/
def IteratorData.getContentValue (d : IteratorData) : Bytes := d.value.take d.contentValueLen

/-- `substr` from a position on; `none` where the position is out of range. -/
def substr (s : Bytes) (pos : Nat) : Option Bytes :=
  if s.length < pos then none else some (s.drop pos)

/-- `GetFunctionalKey`. -/
def IteratorData.getFunctionalKey (d : IteratorData) : Option Bytes :=
  substr d.getKey d.getContentKey.length

/-- `GetFunctionalValue`. -/
def IteratorData.getFunctionalValue (d : IteratorData) : Option Bytes :=
  substr d.getValue d.getContentValue.length

/-- `Next`. -/
def IteratorData.next (d : IteratorData) : IteratorData where
  key := d.key.drop d.keyLen
  value := d.value.drop d.valueLen
  encodedLengths := d.encodedLengths.tail

/-- The comparison with `end()`, by the sizes of what is left. -/
def IteratorData.atEnd (d : IteratorData) : Bool := d.key.isEmpty && d.value.isEmpty

/-- The segments that a loop over the iterator visits; a step takes one length, or without
    lengths all that is left. -/
def visitsLoop : List Nat → IteratorData → List IteratorData
  | [], d => if d.atEnd then [] else [d]
  | _ :: lengths, d => if d.atEnd then [] else d :: visitsLoop lengths d.next

/-- The segments that a loop over the iterator visits. -/
def IteratorData.visits (d : IteratorData) : List IteratorData := visitsLoop d.encodedLengths d

theorem visits_eq (d : IteratorData) : d.visits = if d.atEnd then [] else d :: d.next.visits := by
  obtain ⟨key, value, lengths⟩ := d
  cases lengths with
  | nil =>
    have hnext : (IteratorData.mk key value []).next = ⟨[], [], []⟩ := by
      simp [IteratorData.next, IteratorData.keyLen, IteratorData.valueLen, IteratorData.len]
    rw [hnext]
    rfl
  | cons encoded lengths => rfl

/-! ## Prefixes and suffixes -/

/-- A number as an `int`. -/
def intOf (n : Int) : Int := (n + 0x80000000) % 0x100000000 - 0x80000000

/-- An `int` as a `size_t`. -/
def sizeOfInt (n : Int) : Nat := (n % 0x10000000000000000).toNat

/-- `InnerSegments`, by the iterator at its beginning. -/
structure InnerSegments where
  start : IteratorData

/-- The segments that a loop over the inner segments visits. -/
abbrev InnerSegments.visits (segments : InnerSegments) : List IteratorData := segments.start.visits

/-- `InnerSegments::size`. -/
def InnerSegments.size (segments : InnerSegments) : Nat :=
  if segments.start.key.isEmpty && segments.start.value.isEmpty then 0
  else max 1 segments.start.encodedLengths.length

/-- The loop of `GetPrefixKeyAndValue`. -/
def prefixLoop (key value : Bytes) : List IteratorData → Int → Int → Int → Bytes × Bytes
  | [], _, _, _ => (key, value)
  | d :: ds, size, keyLen, valueLen =>
    if size = 0 ∨ key.length ≤ sizeOfInt keyLen ∨ value.length ≤ sizeOfInt valueLen then
      (key.take (sizeOfInt keyLen), value.take (sizeOfInt valueLen))
    else
      prefixLoop key value ds (size - 1) (intOf (sizeOfInt keyLen + d.getKey.length))
        (intOf (sizeOfInt valueLen + d.getValue.length))

/-- `GetPrefixKeyAndValue`; the argument is an `int`. -/
def InnerSegments.getPrefixKeyAndValue (segments : InnerSegments) (size : Int) : Bytes × Bytes :=
  if size < 0 then (segments.start.key, segments.start.value)
  else prefixLoop segments.start.key segments.start.value segments.visits size 0 0

/-- The loop of `GetSuffixKeyAndValue`. -/
def suffixLoop : List IteratorData → Int → Bytes → Bytes → Bytes × Bytes
  | [], _, key, value => (key, value)
  | d :: ds, index, key, value =>
    let key := key.drop d.getKey.length
    let value := value.drop d.getValue.length
    if index = 0 then (key, value) else suffixLoop ds (index - 1) key value

/-- `GetSuffixKeyAndValue`; the argument is an `int`. -/
def InnerSegments.getSuffixKeyAndValue (segments : InnerSegments) (size : Int) : Bytes × Bytes :=
  if size = 0 then ([], [])
  else
    let index := intOf (segments.size - size - 1)
    if size < 0 ∨ index < 0 then (segments.start.key, segments.start.value)
    else suffixLoop segments.visits index segments.start.key segments.start.value

/-- The loop of `GetMergedContentKeyAndValue`: the lengths of the last functional key and value;
    `none` where one is out of range. -/
def mergedLoop : List IteratorData → Nat → Nat → Option (Nat × Nat)
  | [], keyLen, valueLen => some (keyLen, valueLen)
  | d :: ds, _, _ =>
    match d.getFunctionalKey, d.getFunctionalValue with
    | some functionalKey, some functionalValue =>
      mergedLoop ds functionalKey.length functionalValue.length
    | _, _ => none

/-- `GetMergedContentKeyAndValue`; `none` also where more is to be removed than there is. -/
def InnerSegments.getMergedContentKeyAndValue (segments : InnerSegments) :
    Option (Bytes × Bytes) :=
  match mergedLoop segments.visits 0 0 with
  | none => none
  | some (keyLen, valueLen) =>
    if segments.start.key.length < keyLen ∨ segments.start.value.length < valueLen then none
    else
      some (segments.start.key.take (segments.start.key.length - keyLen),
        segments.start.value.take (segments.start.value.length - valueLen))

/-! ## The builder -/

/-- The boundaries of the segments that were added. -/
structure InnerSegmentBoundaryBuilder where
  error : Bool
  boundary : List Nat
  keyConsumed : Nat
  valueConsumed : Nat

/-- The builder at the beginning. -/
def InnerSegmentBoundaryBuilder.new : InnerSegmentBoundaryBuilder := ⟨false, [], 0, 0⟩

/-- `InnerSegmentBoundaryBuilder::Add`; the counters have 32 bits. -/
def InnerSegmentBoundaryBuilder.add (builder : InnerSegmentBoundaryBuilder) (d : LengthData) :
    InnerSegmentBoundaryBuilder :=
  if builder.error then builder
  else
    match encodeLengths d with
    | some encoded =>
      { builder with
        keyConsumed := (builder.keyConsumed + d.keyLen) % 0x100000000
        valueConsumed := (builder.valueConsumed + d.valueLen) % 0x100000000
        boundary := builder.boundary ++ [encoded] }
    | none => { builder with error := true }

/-- `InnerSegmentBoundaryBuilder::Build`. -/
def InnerSegmentBoundaryBuilder.build (builder : InnerSegmentBoundaryBuilder)
    (key value : Bytes) : List Nat :=
  if builder.error || builder.keyConsumed != key.length || builder.valueConsumed != value.length
  then []
  else builder.boundary

/-- `BuildInnerSegmentBoundary`. -/
def buildBoundary (tuples : List LengthData) (key value : Bytes) : List Nat :=
  (tuples.foldl InnerSegmentBoundaryBuilder.add .new).build key value

variable {key value : Bytes} {ts : List LengthData} {es : List Nat}

/-! ## What the builder accepts -/

/-- The sum of one of the lengths. -/
def sumOf (field : LengthData → Nat) (ts : List LengthData) : Nat := (ts.map field).sum

@[simp] theorem sumOf_nil (field : LengthData → Nat) : sumOf field [] = 0 := rfl

@[simp] theorem sumOf_cons (field : LengthData → Nat) (d : LengthData) (ts : List LengthData) :
    sumOf field (d :: ts) = field d + sumOf field ts := rfl

/-- The numbers that lengths are packed into. -/
def Packed (ts : List LengthData) (es : List Nat) : Prop :=
  List.Forall₂ (fun d encoded => encodeLengths d = some encoded) ts es

theorem foldl_add_of_error {builder : InnerSegmentBoundaryBuilder} (h : builder.error = true) :
    ts.foldl InnerSegmentBoundaryBuilder.add builder = builder := by
  induction ts with
  | nil => rfl
  | cons d ts ih => rw [List.foldl_cons, InnerSegmentBoundaryBuilder.add, if_pos h, ih]

theorem foldl_add_of_packed (h : Packed ts es) {builder : InnerSegmentBoundaryBuilder}
    (herror : builder.error = false) (hkey : builder.keyConsumed < 0x100000000)
    (hvalue : builder.valueConsumed < 0x100000000) :
    ts.foldl InnerSegmentBoundaryBuilder.add builder
      = ⟨false, builder.boundary ++ es,
        (builder.keyConsumed + sumOf LengthData.keyLen ts) % 0x100000000,
        (builder.valueConsumed + sumOf LengthData.valueLen ts) % 0x100000000⟩ := by
  induction h generalizing builder with
  | nil =>
    obtain ⟨error, boundary, keyConsumed, valueConsumed⟩ := builder
    simp only at herror hkey hvalue
    rw [List.foldl_nil, List.append_nil, herror, sumOf_nil, sumOf_nil, Nat.add_zero,
      Nat.add_zero, Nat.mod_eq_of_lt hkey, Nat.mod_eq_of_lt hvalue]
  | @cons d encoded ts es hd _ ih =>
    have hstep : builder.add d
        = ⟨false, builder.boundary ++ [encoded], (builder.keyConsumed + d.keyLen) % 0x100000000,
          (builder.valueConsumed + d.valueLen) % 0x100000000⟩ := by
      rw [InnerSegmentBoundaryBuilder.add, herror, if_neg Bool.false_ne_true, hd]
    rw [List.foldl_cons, hstep, ih rfl (Nat.mod_lt _ (by decide)) (Nat.mod_lt _ (by decide))]
    simp only [List.append_assoc, List.singleton_append, Nat.mod_add_mod, sumOf_cons,
      Nat.add_assoc]

theorem packed_or_error (ts : List LengthData) (builder : InnerSegmentBoundaryBuilder) :
    (∃ es, Packed ts es) ∨ (ts.foldl InnerSegmentBoundaryBuilder.add builder).error = true := by
  induction ts generalizing builder with
  | nil => exact .inl ⟨[], .nil⟩
  | cons d ts ih =>
    rw [List.foldl_cons]
    rcases ih (builder.add d) with ⟨es, hes⟩ | herror
    · cases hd : encodeLengths d with
      | some encoded => exact .inl ⟨encoded :: es, .cons hd hes⟩
      | none =>
        have hadd : (builder.add d).error = true := by
          rw [InnerSegmentBoundaryBuilder.add]
          split
          · assumption
          · rw [hd]
        rw [foldl_add_of_error hadd]
        exact .inr hadd
    · exact .inr herror

/-- What the builder is to be given for a boundary: lengths that can be packed, with the sums
    that it counts for the key and the value. -/
structure Accepted (ts : List LengthData) (es : List Nat) (key value : Bytes) : Prop where
  packed : Packed ts es
  keySum : sumOf LengthData.keyLen ts % 0x100000000 = key.length
  valueSum : sumOf LengthData.valueLen ts % 0x100000000 = value.length

/-- **WHAT THE BUILDER ACCEPTS** is packed as it is. -/
theorem buildBoundary_eq (h : Accepted ts es key value) : buildBoundary ts key value = es := by
  rw [buildBoundary, foldl_add_of_packed h.packed rfl (by decide) (by decide),
    InnerSegmentBoundaryBuilder.build]
  simp only [InnerSegmentBoundaryBuilder.new, Nat.zero_add, List.nil_append, h.keySum,
    h.valueSum, bne_self_eq_false, Bool.or_self]
  exact if_neg Bool.false_ne_true

theorem accepted_of_ne_nil (h : buildBoundary ts key value ≠ []) :
    Accepted ts (buildBoundary ts key value) key value := by
  rcases packed_or_error ts .new with ⟨es, hes⟩ | herror
  · have hfold := @foldl_add_of_packed ts es hes .new rfl (by decide) (by decide)
    rw [buildBoundary, hfold, InnerSegmentBoundaryBuilder.build] at h ⊢
    simp only [InnerSegmentBoundaryBuilder.new, Nat.zero_add, List.nil_append, Bool.false_or,
      Bool.or_eq_true, bne_iff_ne] at h ⊢
    by_cases hsum : sumOf LengthData.keyLen ts % 0x100000000 ≠ key.length
        ∨ sumOf LengthData.valueLen ts % 0x100000000 ≠ value.length
    · rw [if_pos hsum] at h
      exact absurd rfl h
    · obtain ⟨hkey, hvalue⟩ := not_or.mp hsum
      rw [if_neg hsum]
      exact ⟨hes, not_not.mp hkey, not_not.mp hvalue⟩
  · refine absurd ?_ h
    rw [buildBoundary, InnerSegmentBoundaryBuilder.build, herror]
    rfl

/-! ## What is visited -/

/-- A segment that is visited for a tuple of lengths. -/
structure VisitedAs (d : LengthData) (x : IteratorData) : Prop where
  key : x.getKey.length = d.keyLen
  value : x.getValue.length = d.valueLen
  contentKey : x.getContentKey.length = fixContentLen d.contentKeyLen d.keyLen
  contentValue : x.getContentValue.length = fixContentLen d.contentValueLen d.valueLen

theorem fixContentLen_le (len fullLen : Nat) : fixContentLen len fullLen ≤ fullLen := by
  rw [fixContentLen]
  split <;> omega

/-- A segment is visited as its lengths say where both strings have as much left. -/
theorem visitedAs_of_le {encoded : Nat} (h : encodeLengths d = some encoded)
    (hkey : d.keyLen ≤ key.length) (hvalue : d.valueLen ≤ value.length) (lengths : List Nat) :
    VisitedAs d ⟨key, value, encoded :: lengths⟩ := by
  obtain ⟨hdecode, -⟩ := decodeLengths_of_encode h
  have hfixed : decodeLengths encoded = ⟨d.keyLen, d.valueLen,
      fixContentLen d.contentKeyLen d.keyLen, fixContentLen d.contentValueLen d.valueLen⟩ := hdecode
  have hck := fixContentLen_le d.contentKeyLen d.keyLen
  have hcv := fixContentLen_le d.contentValueLen d.valueLen
  constructor
  · simp only [IteratorData.getKey, IteratorData.keyLen, IteratorData.len, hfixed,
      List.length_take]
    omega
  · simp only [IteratorData.getValue, IteratorData.valueLen, IteratorData.len, hfixed,
      List.length_take]
    omega
  · simp only [IteratorData.getContentKey, IteratorData.contentKeyLen, IteratorData.len, hfixed,
      List.length_take]
    omega
  · simp only [IteratorData.getContentValue, IteratorData.contentValueLen, IteratorData.len,
      hfixed, List.length_take]
    omega

/-- What a loop over the iterator visits, one segment for each tuple. -/
structure VisitsAll (ts : List LengthData) (xs : List IteratorData) (key value : Bytes) : Prop where
  visited : List.Forall₂ VisitedAs ts xs
  joinedKey : xs.flatMap IteratorData.getKey = key
  joinedValue : xs.flatMap IteratorData.getValue = value

/-- **LENGTHS WITH THE RIGHT SUMS** are visited one by one, and nothing is left. -/
theorem visits_of_sums (h : Packed ts es) (hkey : sumOf LengthData.keyLen ts = key.length)
    (hvalue : sumOf LengthData.valueLen ts = value.length) :
    VisitsAll ts (IteratorData.visits ⟨key, value, es⟩) key value := by
  induction h generalizing key value with
  | nil =>
    rw [List.eq_nil_of_length_eq_zero hkey.symm, List.eq_nil_of_length_eq_zero hvalue.symm]
    exact ⟨.nil, rfl, rfl⟩
  | @cons d encoded ts es hd _ ih =>
    obtain ⟨-, hpos, -⟩ := decodeLengths_of_encode hd
    rw [sumOf_cons] at hkey hvalue
    have hvisited := visitedAs_of_le hd (hkey ▸ Nat.le_add_right _ _)
      (hvalue ▸ Nat.le_add_right _ _) es
    generalize hx : (⟨key, value, encoded :: es⟩ : IteratorData) = x at hvisited ⊢
    have hlenKey : x.keyLen = d.keyLen := by
      have hlen := hvisited.key
      rw [IteratorData.getKey, List.length_take] at hlen
      have hle : x.keyLen ≤ x.key.length := Nat.min_le_left _ _
      omega
    have hlenValue : x.valueLen = d.valueLen := by
      have hlen := hvisited.value
      rw [IteratorData.getValue, List.length_take] at hlen
      have hle : x.valueLen ≤ x.value.length := Nat.min_le_left _ _
      omega
    have hend : x.atEnd = false := by
      rw [IteratorData.atEnd, ← hx]
      cases key with
      | nil =>
        rw [List.length_nil] at hkey
        omega
      | cons b key => rfl
    have hxkey : x.key = key := by rw [← hx]
    have hxvalue : x.value = value := by rw [← hx]
    have hnext : x.next = ⟨key.drop d.keyLen, value.drop d.valueLen, es⟩ := by
      rw [IteratorData.next, hlenKey, hlenValue, ← hx]
      rfl
    rw [visits_eq, hend, if_neg Bool.false_ne_true, hnext]
    obtain ⟨hall, hjoinKey, hjoinValue⟩ := @ih (key.drop d.keyLen) (value.drop d.valueLen)
      (by rw [List.length_drop]; omega) (by rw [List.length_drop]; omega)
    refine ⟨.cons hvisited hall, ?_, ?_⟩
    · rw [List.flatMap_cons, hjoinKey, IteratorData.getKey, hlenKey, hxkey,
        List.take_append_drop]
    · rw [List.flatMap_cons, hjoinValue, IteratorData.getValue, hlenValue, hxvalue,
        List.take_append_drop]

variable {key value : Bytes} {xs : List IteratorData}

/-! ## Counting prefixes and suffixes -/

/-- The bytes of the keys of segments. -/
def keysLen (xs : List IteratorData) : Nat := (xs.flatMap IteratorData.getKey).length

/-- The bytes of the values of segments. -/
def valuesLen (xs : List IteratorData) : Nat := (xs.flatMap IteratorData.getValue).length

@[simp] theorem keysLen_nil : keysLen [] = 0 := rfl

@[simp] theorem valuesLen_nil : valuesLen [] = 0 := rfl

@[simp] theorem keysLen_cons (x : IteratorData) (xs : List IteratorData) :
    keysLen (x :: xs) = x.getKey.length + keysLen xs := by
  rw [keysLen, List.flatMap_cons, List.length_append, keysLen]

@[simp] theorem valuesLen_cons (x : IteratorData) (xs : List IteratorData) :
    valuesLen (x :: xs) = x.getValue.length + valuesLen xs := by
  rw [valuesLen, List.flatMap_cons, List.length_append, valuesLen]

variable {n : Nat}

theorem sizeOfInt_intOf (h : n < 0x80000000) : sizeOfInt (intOf n) = n := by
  rw [sizeOfInt, intOf]
  omega

theorem intOf_sizeOfInt_add (n len : Nat) :
    intOf (sizeOfInt (intOf n) + len : Nat) = intOf (n + len : Nat) := by
  rw [intOf, intOf, sizeOfInt, intOf]
  omega

theorem le_sizeOfInt_intOf (h : 0x80000000 ≤ n) (hlt : n < 0x100000000) {len : Nat}
    (hlen : len < 0x100000000) : len ≤ sizeOfInt (intOf n) := by
  rw [sizeOfInt, intOf]
  omega

/-- Both counters are in range, with something left of both strings, before a segment. -/
def InRange (key value : Bytes) (keyLen valueLen : Nat) : Prop :=
  (keyLen < key.length ∧ keyLen < 0x80000000) ∧ valueLen < value.length ∧ valueLen < 0x80000000

variable {k : Nat}

theorem prefixLoop_step {keyLen valueLen : Nat} (x : IteratorData)
    (h : InRange key value keyLen valueLen) :
    prefixLoop key value (x :: xs) (k + 1 : Nat) (intOf keyLen) (intOf valueLen)
      = prefixLoop key value xs k (intOf (keyLen + x.getKey.length : Nat))
        (intOf (valueLen + x.getValue.length : Nat)) := by
  obtain ⟨⟨hkey, hkeyInt⟩, hvalue, hvalueInt⟩ := h
  rw [prefixLoop, if_neg]
  · rw [← intOf_sizeOfInt_add keyLen, ← intOf_sizeOfInt_add valueLen]
    congr 1
    omega
  · rw [sizeOfInt_intOf hkeyInt, sizeOfInt_intOf hvalueInt]
    omega

/-- **A PREFIX HAS THE LENGTHS OF ITS SEGMENTS**, as the `int`s of the loop count them. -/
theorem prefixLoop_eq {k keyLen valueLen : Nat} (hk : k < xs.length)
    (hrange : ∀ i < k, InRange key value (keyLen + keysLen (xs.take i))
      (valueLen + valuesLen (xs.take i))) :
    prefixLoop key value xs k (intOf keyLen) (intOf valueLen)
      = (key.take (sizeOfInt (intOf (keyLen + keysLen (xs.take k) : Nat))),
        value.take (sizeOfInt (intOf (valueLen + valuesLen (xs.take k) : Nat)))) := by
  induction xs generalizing k keyLen valueLen with
  | nil => exact absurd hk (Nat.not_lt_zero k)
  | cons x xs ih =>
    cases k with
    | zero =>
      rw [prefixLoop, if_pos (.inl rfl)]
      rfl
    | succ k =>
      have hfirst : InRange key value keyLen valueLen := hrange 0 (Nat.succ_pos k)
      rw [prefixLoop_step x hfirst, ih (Nat.lt_of_succ_lt_succ hk) fun i hi => ?_]
      · rw [List.take_succ_cons, keysLen_cons, valuesLen_cons, Nat.add_assoc, Nat.add_assoc]
      · have hnext := hrange (i + 1) (Nat.succ_lt_succ hi)
        rwa [List.take_succ_cons, keysLen_cons, valuesLen_cons, ← Nat.add_assoc,
          ← Nat.add_assoc] at hnext

theorem prefixLoop_all {k keyLen valueLen : Nat} (hk : xs.length ≤ k)
    (hrange : ∀ i < xs.length, InRange key value (keyLen + keysLen (xs.take i))
      (valueLen + valuesLen (xs.take i))) :
    prefixLoop key value xs k (intOf keyLen) (intOf valueLen) = (key, value) := by
  induction xs generalizing k keyLen valueLen with
  | nil => rfl
  | cons x xs ih =>
    obtain ⟨k, rfl⟩ : ∃ n, k = n + 1 := ⟨k - 1, by rw [List.length_cons] at hk; omega⟩
    have hfirst : InRange key value keyLen valueLen := hrange 0 (Nat.succ_pos _)
    rw [prefixLoop_step x hfirst]
    refine ih (Nat.le_of_succ_le_succ hk) fun i hi => ?_
    have hnext := hrange (i + 1) (Nat.succ_lt_succ hi)
    rwa [List.take_succ_cons, keysLen_cons, valuesLen_cons, ← Nat.add_assoc,
      ← Nat.add_assoc] at hnext

variable {i : Nat}

theorem suffixLoop_eq (hi : i < xs.length) :
    suffixLoop xs i key value
      = (key.drop (keysLen (xs.take (i + 1))), value.drop (valuesLen (xs.take (i + 1)))) := by
  induction xs generalizing i key value with
  | nil => exact absurd hi (Nat.not_lt_zero i)
  | cons x xs ih =>
    rw [suffixLoop]
    cases i with
    | zero =>
      rw [if_pos Int.ofNat_zero, List.take_succ_cons, List.take_zero, keysLen_cons,
        valuesLen_cons]
      rfl
    | succ i =>
      rw [if_neg (by omega), show ((i + 1 : Nat) : Int) - 1 = (i : Nat) by omega,
        ih (Nat.lt_of_succ_lt_succ hi), List.take_succ_cons, keysLen_cons, valuesLen_cons,
        List.drop_drop, List.drop_drop]

variable {key value : Bytes} {ts : List LengthData} {es : List Nat} {xs : List IteratorData}

/-! ## The main result -/

/-- What the boundaries are to give. -/
structure RoundTrips (ts : List LengthData) (key value : Bytes) (segments : InnerSegments) :
    Prop where
  size : segments.visits.length = segments.size
  visited : VisitsAll ts segments.visits key value
  functional : ∀ x ∈ segments.visits,
    x.getFunctionalKey.isSome ∧ x.getFunctionalValue.isSome
  merged : segments.getMergedContentKeyAndValue.isSome
  affixes : ∀ k ≤ segments.size,
    (segments.getPrefixKeyAndValue (intOf k)).1
        ++ (segments.getSuffixKeyAndValue (intOf (segments.size - k))).1 = key ∧
      (segments.getPrefixKeyAndValue (intOf k)).2
        ++ (segments.getSuffixKeyAndValue (intOf (segments.size - k))).2 = value

/-- Every boundary that the builder gives for the lengths round trips. -/
def BoundaryRoundTrips (ts : List LengthData) (key value : Bytes) : Prop :=
  buildBoundary ts key value ≠ [] →
    RoundTrips ts key value ⟨⟨key, value, buildBoundary ts key value⟩⟩

/-- The lengths have the sizes of the key and the value as their sums, and all but the last have
    sums that an `int` holds. -/
structure CountedRight (ts : List LengthData) (key value : Bytes) : Prop where
  keySum : sumOf LengthData.keyLen ts = key.length
  valueSum : sumOf LengthData.valueLen ts = value.length
  keyInt : sumOf LengthData.keyLen ts.dropLast < 0x80000000
  valueInt : sumOf LengthData.valueLen ts.dropLast < 0x80000000

/-- The segments that are visited have the lengths of the tuples, also in part. -/
theorem VisitsAll.keysLen_take (h : VisitsAll ts xs key value) (k : Nat) :
    keysLen (xs.take k) = sumOf LengthData.keyLen (ts.take k) ∧
      valuesLen (xs.take k) = sumOf LengthData.valueLen (ts.take k) := by
  have hall := h.visited
  clear h
  induction hall generalizing k with
  | nil => simp
  | cons hx _ ih =>
    cases k with
    | zero => exact ⟨rfl, rfl⟩
    | succ k =>
      obtain ⟨hkey, hvalue⟩ := ih k
      simp only [List.take_succ_cons, keysLen_cons, valuesLen_cons, sumOf_cons, hkey, hvalue,
        hx.key, hx.value]
      exact ⟨trivial, trivial⟩

theorem VisitsAll.take_key (h : VisitsAll ts xs key value) (k : Nat) :
    key.take (keysLen (xs.take k)) ++ key.drop (keysLen (xs.take k)) = key ∧
      keysLen (xs.take k) + keysLen (xs.drop k) = key.length := by
  refine ⟨List.take_append_drop _ _, ?_⟩
  rw [← h.joinedKey, keysLen, keysLen, ← List.length_append, ← List.flatMap_append,
    List.take_append_drop]

theorem VisitsAll.take_value (h : VisitsAll ts xs key value) (k : Nat) :
    value.take (valuesLen (xs.take k)) ++ value.drop (valuesLen (xs.take k)) = value ∧
      valuesLen (xs.take k) + valuesLen (xs.drop k) = value.length := by
  refine ⟨List.take_append_drop _ _, ?_⟩
  rw [← h.joinedValue, valuesLen, valuesLen, ← List.length_append, ← List.flatMap_append,
    List.take_append_drop]

theorem VisitsAll.lt_length (h : VisitsAll ts xs key value) (hpacked : Packed ts es)
    (hk : k < xs.length) :
    keysLen (xs.take k) < key.length ∧ valuesLen (xs.take k) < value.length := by
  have hlen := h.visited.length_eq
  have hpos : 0 < xs[k].getKey.length ∧ 0 < xs[k].getValue.length := by
    have hd := List.forall₂_iff_get.mp hpacked
    have hx := (List.forall₂_iff_get.mp h.visited).2 k (by omega) hk
    obtain ⟨-, hkey, hvalue, -⟩ := decodeLengths_of_encode (hd.2 k (by omega) (by omega))
    rw [List.get_eq_getElem, List.get_eq_getElem] at hx
    rw [hx.key, hx.value]
    exact ⟨hkey, hvalue⟩
  have hkeys := (h.take_key k).2
  have hvalues := (h.take_value k).2
  rw [List.drop_eq_getElem_cons hk, keysLen_cons] at hkeys
  rw [List.drop_eq_getElem_cons hk, valuesLen_cons] at hvalues
  omega

theorem length_le_sumOf (hpacked : Packed ts es) : ts.length ≤ sumOf LengthData.keyLen ts := by
  induction hpacked with
  | nil => exact Nat.zero_le _
  | cons hd _ ih =>
    obtain ⟨-, hpos, -⟩ := decodeLengths_of_encode hd
    rw [List.length_cons, sumOf_cons]
    omega

theorem sumOf_take_le (field : LengthData → Nat) (ts : List LengthData) {j : Nat} (hij : i ≤ j) :
    sumOf field (ts.take i) ≤ sumOf field (ts.take j) := by
  have hsplit : ts.take j = ts.take i ++ (ts.drop i).take (j - i) := by
    rw [← List.take_add, Nat.add_sub_cancel' hij]
  rw [hsplit, sumOf, sumOf, List.map_append, List.sum_append]
  exact Nat.le_add_right _ _

theorem VisitedAs.functional {x : IteratorData} (h : VisitedAs d x) :
    x.getFunctionalKey.isSome ∧ x.getFunctionalValue.isSome := by
  have hkey := fixContentLen_le d.contentKeyLen d.keyLen
  have hvalue := fixContentLen_le d.contentValueLen d.valueLen
  rw [IteratorData.getFunctionalKey, IteratorData.getFunctionalValue, substr, substr,
    if_neg (by rw [h.key, h.contentKey]; omega), if_neg (by rw [h.value, h.contentValue]; omega)]
  exact ⟨rfl, rfl⟩

theorem VisitsAll.functional (h : VisitsAll ts xs key value) :
    ∀ x ∈ xs, x.getFunctionalKey.isSome ∧ x.getFunctionalValue.isSome := by
  intro x hx
  obtain ⟨i, hi, rfl⟩ := List.mem_iff_getElem.mp hx
  obtain ⟨hlen, hall⟩ := List.forall₂_iff_get.mp h.visited
  exact (hall i (by omega) hi).functional

theorem length_substr_le {s rest : Bytes} {pos : Nat} (h : substr s pos = some rest) :
    rest.length ≤ s.length := by
  rw [substr] at h
  split at h
  · exact absurd h (Option.some_ne_none _).symm
  · rw [← Option.some.inj h, List.length_drop]
    omega

/-- What is removed for the last functional key and value is not more than there is. -/
theorem exists_mergedLoop (hfunctional : ∀ x ∈ xs, x.getFunctionalKey.isSome ∧
    x.getFunctionalValue.isSome) (keyLen valueLen : Nat) :
    ∃ k v, mergedLoop xs keyLen valueLen = some (k, v) ∧ k ≤ max keyLen (keysLen xs) ∧
      v ≤ max valueLen (valuesLen xs) := by
  induction xs generalizing keyLen valueLen with
  | nil => exact ⟨keyLen, valueLen, rfl, Nat.le_max_left _ _, Nat.le_max_left _ _⟩
  | cons x xs ih =>
    obtain ⟨hx, hxs⟩ := List.forall_mem_cons.mp hfunctional
    obtain ⟨fk, hfk⟩ := Option.isSome_iff_exists.mp hx.1
    obtain ⟨fv, hfv⟩ := Option.isSome_iff_exists.mp hx.2
    obtain ⟨k, v, hloop, hk, hv⟩ := ih hxs fk.length fv.length
    have hkey := length_substr_le hfk
    have hvalue := length_substr_le hfv
    refine ⟨k, v, ?_, ?_, ?_⟩
    · rw [mergedLoop, hfk, hfv]
      exact hloop
    · rw [keysLen_cons]
      omega
    · rw [valuesLen_cons]
      omega

theorem isSome_getMerged {segments : InnerSegments} (hfunctional : ∀ x ∈ segments.visits,
    x.getFunctionalKey.isSome ∧ x.getFunctionalValue.isSome)
    (hkey : segments.start.key = segments.visits.flatMap IteratorData.getKey)
    (hvalue : segments.start.value = segments.visits.flatMap IteratorData.getValue) :
    segments.getMergedContentKeyAndValue.isSome := by
  obtain ⟨k, v, hloop, hk, hv⟩ := exists_mergedLoop hfunctional 0 0
  rw [Nat.zero_max, keysLen, ← hkey] at hk
  rw [Nat.zero_max, valuesLen, ← hvalue] at hv
  rw [InnerSegments.getMergedContentKeyAndValue, hloop]
  dsimp only
  rw [if_neg (by omega)]
  rfl

theorem intOf_of_lt (h : n < 0x80000000) : intOf n = n := by
  rw [intOf]
  omega

variable {key value : Bytes} {ts : List LengthData} {es : List Nat}

/-- Segments that are visited one for each tuple. -/
structure Visiting (ts : List LengthData) (es : List Nat) (segments : InnerSegments) : Prop where
  all : VisitsAll ts segments.visits segments.start.key segments.start.value
  packed : Packed ts es
  size : segments.size = segments.visits.length

section

variable {segments : InnerSegments} (h : Visiting ts es segments)
include h

theorem inRange_take (hi : i < segments.visits.length)
    (hkey : keysLen (segments.visits.take i) < 0x80000000)
    (hvalue : valuesLen (segments.visits.take i) < 0x80000000) :
    InRange segments.start.key segments.start.value (0 + keysLen (segments.visits.take i))
      (0 + valuesLen (segments.visits.take i)) := by
  obtain ⟨hltKey, hltValue⟩ := h.all.lt_length h.packed hi
  rw [Nat.zero_add, Nat.zero_add]
  exact ⟨⟨hltKey, hkey⟩, hltValue, hvalue⟩

theorem getPrefix_eq (hk : k < segments.visits.length) (hint : k < 0x80000000)
    (hsums : ∀ i < k, keysLen (segments.visits.take i) < 0x80000000 ∧
      valuesLen (segments.visits.take i) < 0x80000000) :
    segments.getPrefixKeyAndValue (intOf k)
      = (segments.start.key.take (sizeOfInt (intOf (keysLen (segments.visits.take k)))),
        segments.start.value.take (sizeOfInt (intOf (valuesLen (segments.visits.take k))))) := by
  have hloop := @prefixLoop_eq segments.start.key segments.start.value _ k 0 0 hk fun i hi =>
    inRange_take h (hi.trans hk) (hsums i hi).1 (hsums i hi).2
  rw [Nat.zero_add, Nat.zero_add] at hloop
  rw [InnerSegments.getPrefixKeyAndValue, intOf_of_lt hint, if_neg (by omega)]
  exact hloop

/-- A suffix of some segments but not all is what the others leave, as far as an `int` holds
    their number. -/
theorem getSuffix_eq (hpos : 0 < k) (hk : k < segments.visits.length) (hint : k ≤ 0x80000000)
    (hlen : segments.visits.length - k < 0x80000000) :
    segments.getSuffixKeyAndValue (intOf (segments.size - k))
      = (segments.start.key.drop (keysLen (segments.visits.take k)),
        segments.start.value.drop (valuesLen (segments.visits.take k))) := by
  have hsize := h.size
  have hcast : ((segments.size : Int) - (k : Int))
      = ((segments.visits.length - k : Nat) : Int) := by
    omega
  have hindex : intOf ((segments.size : Int) - ((segments.visits.length - k : Nat) : Int) - 1)
      = ((k - 1 : Nat) : Int) := by
    rw [hsize, intOf]
    omega
  rw [hcast, intOf_of_lt hlen, InnerSegments.getSuffixKeyAndValue, if_neg (by omega), hindex]
  dsimp only
  rw [if_neg (by omega), suffixLoop_eq (by omega), Nat.sub_add_cancel hpos]

theorem getSuffix_all (hlen : 0x80000000 ≤ segments.visits.length - k)
    (hlt : segments.visits.length < 0x100000000) :
    segments.getSuffixKeyAndValue (intOf (segments.size - k))
      = (segments.start.key, segments.start.value) := by
  have hneg : intOf ((segments.size : Int) - (k : Int)) < 0 := by
    rw [h.size, intOf]
    omega
  rw [InnerSegments.getSuffixKeyAndValue, if_neg (by omega)]
  dsimp only
  rw [if_pos (.inl hneg)]

/-- **PREFIX AND SUFFIX MAKE UP THE WHOLE** where every prefix but the last is counted right. -/
theorem affixes_of_counted
    (hsums : ∀ i < segments.visits.length, keysLen (segments.visits.take i) < 0x80000000 ∧
      valuesLen (segments.visits.take i) < 0x80000000) (hlen : segments.visits.length ≤ 0x80000000)
    (hk : k ≤ segments.size) :
    (segments.getPrefixKeyAndValue (intOf k)).1
        ++ (segments.getSuffixKeyAndValue (intOf (segments.size - k))).1 = segments.start.key ∧
      (segments.getPrefixKeyAndValue (intOf k)).2
        ++ (segments.getSuffixKeyAndValue (intOf (segments.size - k))).2
          = segments.start.value := by
  rcases Nat.lt_or_ge k segments.visits.length with hlt | hge
  · have hprefixOf := getPrefix_eq h hlt (by omega)
      fun i hi => hsums i (hi.trans hlt)
    rw [sizeOfInt_intOf (hsums k hlt).1, sizeOfInt_intOf (hsums k hlt).2] at hprefixOf
    rw [hprefixOf]
    rcases Nat.eq_zero_or_pos k with rfl | hpos
    · -- the suffix of all segments is all
      have hall : segments.getSuffixKeyAndValue (intOf (segments.size - (0 : Nat)))
          = (segments.start.key, segments.start.value) := by
        rcases Nat.lt_or_ge segments.visits.length 0x80000000 with hsmall | hlarge
        · have hzero : intOf ((segments.size : Int) - ((0 : Nat) : Int))
              = (segments.visits.length : Int) := by
            rw [h.size, intOf]
            omega
          have hindex : intOf ((segments.size : Int) - (segments.visits.length : Int) - 1) < 0 := by
            rw [h.size, intOf]
            omega
          rw [hzero, InnerSegments.getSuffixKeyAndValue, if_neg (by omega)]
          dsimp only
          rw [if_pos (.inr hindex)]
        · exact getSuffix_all h (by omega) (by omega)
      rw [hall]
      exact ⟨rfl, rfl⟩
    · rw [getSuffix_eq h hpos hlt (by omega) (by omega)]
      exact ⟨(h.all.take_key k).1, (h.all.take_value k).1⟩
  · have hsize := h.size
    have hkey : k = segments.visits.length := by omega
    have hall : segments.getPrefixKeyAndValue (intOf k)
        = (segments.start.key, segments.start.value) := by
      rw [InnerSegments.getPrefixKeyAndValue]
      split
      · rfl
      · rename_i hneg
        have hint : k < 0x80000000 := by
          rw [intOf] at hneg
          omega
        have hloop := @prefixLoop_all segments.start.key segments.start.value _ k 0 0 hge
          fun i hi => inRange_take h hi (hsums i hi).1 (hsums i hi).2
        rw [intOf_of_lt hint]
        exact hloop
    have hnone : segments.getSuffixKeyAndValue (intOf (segments.size - k)) = ([], []) := by
      rw [hkey, h.size, InnerSegments.getSuffixKeyAndValue, if_pos]
      rw [intOf]
      omega
    rw [hall, hnone]
    exact ⟨List.append_nil _, List.append_nil _⟩

end

variable {key value : Bytes} {ts : List LengthData} {es : List Nat}

/-- A prefix whose length no `int` holds is all of its string, so that the suffix is too much. -/
theorem counted_of_affixes {segments : InnerSegments} (h : Visiting ts es segments)
    (hkey : segments.start.key.length < 0x100000000)
    (hvalue : segments.start.value.length < 0x100000000) (haffixes : ∀ k ≤ segments.size,
      (segments.getPrefixKeyAndValue (intOf k)).1
          ++ (segments.getSuffixKeyAndValue (intOf (segments.size - k))).1 = segments.start.key ∧
        (segments.getPrefixKeyAndValue (intOf k)).2
          ++ (segments.getSuffixKeyAndValue (intOf (segments.size - k))).2
            = segments.start.value) (hk : k < segments.visits.length) :
    keysLen (segments.visits.take k) < 0x80000000 ∧
      valuesLen (segments.visits.take k) < 0x80000000 := by
  induction k using Nat.strong_induction_on with
  | _ k ih =>
    rcases Nat.eq_zero_or_pos k with rfl | hpos
    · exact ⟨show 0 < 0x80000000 by decide, show 0 < 0x80000000 by decide⟩
    have hsums : ∀ i < k, keysLen (segments.visits.take i) < 0x80000000 ∧
        valuesLen (segments.visits.take i) < 0x80000000 := fun i hi => ih i hi (hi.trans hk)
    have hcount : ∀ i, i ≤ segments.visits.length → i ≤ keysLen (segments.visits.take i) := by
      intro i hi
      have hlen := h.all.visited.length_eq
      have hle := length_le_sumOf (List.forall₂_take i h.packed)
      rw [← (h.all.keysLen_take i).1, List.length_take] at hle
      omega
    have hint : k ≤ 0x80000000 := by
      have hlast := hcount (k - 1) (by omega)
      have hsmall := (hsums (k - 1) (by omega)).1
      omega
    have hlength : segments.visits.length < 0x100000000 := by
      have hall := hcount segments.visits.length le_rfl
      have hsum := (h.all.take_key segments.visits.length).2
      omega
    obtain ⟨hltKey, hltValue⟩ := h.all.lt_length h.packed hk
    -- the suffix has something of both strings in any case
    obtain ⟨hkeys, hvalues⟩ := haffixes k (by rw [h.size]; exact hk.le)
    have hsuffix : (segments.getSuffixKeyAndValue (intOf (segments.size - k))).1 ≠ [] ∧
        (segments.getSuffixKeyAndValue (intOf (segments.size - k))).2 ≠ [] := by
      rcases Nat.lt_or_ge (segments.visits.length - k) 0x80000000 with hfits | hlarge
      · rw [getSuffix_eq h hpos hk hint hfits]
        exact ⟨fun hnil => absurd (List.drop_eq_nil_iff.mp hnil) (Nat.not_le.mpr hltKey),
          fun hnil => absurd (List.drop_eq_nil_iff.mp hnil) (Nat.not_le.mpr hltValue)⟩
      · rw [getSuffix_all h hlarge hlength]
        exact ⟨List.ne_nil_of_length_pos (by dsimp only; omega),
          List.ne_nil_of_length_pos (by dsimp only; omega)⟩
    rcases Nat.lt_or_ge k 0x80000000 with hfits | hlarge
    · rw [getPrefix_eq h hk hfits hsums] at hkeys hvalues
      constructor
      · by_contra hsum
        rw [List.take_of_length_le (le_sizeOfInt_intOf (by omega) (by omega) hkey)] at hkeys
        exact hsuffix.1 (List.append_right_eq_self.mp hkeys)
      · by_contra hsum
        rw [List.take_of_length_le (le_sizeOfInt_intOf (by omega) (by omega) hvalue)] at hvalues
        exact hsuffix.2 (List.append_right_eq_self.mp hvalues)
    · have hall : segments.getPrefixKeyAndValue (intOf k)
          = (segments.start.key, segments.start.value) := by
        rw [InnerSegments.getPrefixKeyAndValue, if_pos]
        rw [intOf]
        omega
      rw [hall] at hkeys
      exact absurd (List.append_right_eq_self.mp hkeys) hsuffix.1

/-- Where the builder accepts the lengths, and their sums are not wrapped around, the segments
    are visited one for each tuple. -/
theorem visiting_of_sums (h : Accepted ts es key value) (hne : es ≠ [])
    (hkey : sumOf LengthData.keyLen ts = key.length)
    (hvalue : sumOf LengthData.valueLen ts = value.length) :
    Visiting ts es ⟨⟨key, value, es⟩⟩ := by
  have hall := visits_of_sums h.packed hkey hvalue
  refine ⟨hall, h.packed, ?_⟩
  have hlen := h.packed.length_eq
  have hpos := List.length_pos_of_ne_nil hne
  have hcount := length_le_sumOf h.packed
  have hkeyNil : key.isEmpty = false := by
    rw [List.isEmpty_eq_false_iff]
    exact List.ne_nil_of_length_pos (by omega)
  rw [InnerSegments.size, hkeyNil, Bool.false_and, if_neg Bool.false_ne_true,
    ← hall.visited.length_eq]
  show max 1 es.length = ts.length
  omega

/-- **THE BOUNDARIES ROUND TRIP** exactly where the lengths are counted right: those the builder
    accepts have the sizes of the key and the value as their sums, and not only in 32 bits, and
    all but the last have sums that an `int` holds. -/
theorem boundary_roundTrips_iff (ts : List LengthData) (key value : Bytes) :
    BoundaryRoundTrips ts key value ↔
      ∀ es, es ≠ [] → Accepted ts es key value → CountedRight ts key value := by
  constructor
  · intro hround es hne hes
    rw [BoundaryRoundTrips, buildBoundary_eq hes] at hround
    obtain ⟨-, hvisited, -, -, haffixes⟩ := hround hne
    have hkeySum : sumOf LengthData.keyLen ts = key.length := by
      have hsum := (hvisited.keysLen_take ts.length).1
      rwa [List.take_length, List.take_of_length_le hvisited.visited.length_eq.ge, keysLen,
        hvisited.joinedKey, eq_comm] at hsum
    have hvalueSum : sumOf LengthData.valueLen ts = value.length := by
      have hsum := (hvisited.keysLen_take ts.length).2
      rwa [List.take_length, List.take_of_length_le hvisited.visited.length_eq.ge, valuesLen,
        hvisited.joinedValue, eq_comm] at hsum
    have hvisiting := visiting_of_sums hes hne hkeySum hvalueSum
    have hlen := hvisited.visited.length_eq
    have hpos := List.length_pos_of_ne_nil hne
    have hpacked := hes.packed.length_eq
    obtain ⟨hkeyInt, hvalueInt⟩ := counted_of_affixes hvisiting
      (by rw [← hes.keySum]; exact Nat.mod_lt _ (by decide))
      (by rw [← hes.valueSum]; exact Nat.mod_lt _ (by decide)) haffixes
      (show ts.length - 1 < _ by omega)
    rw [(hvisited.keysLen_take _).1, ← List.dropLast_eq_take] at hkeyInt
    rw [(hvisited.keysLen_take _).2, ← List.dropLast_eq_take] at hvalueInt
    exact ⟨hkeySum, hvalueSum, hkeyInt, hvalueInt⟩
  · intro hcounted hne
    have hes := accepted_of_ne_nil hne
    obtain ⟨hkeySum, hvalueSum, hkeyInt, hvalueInt⟩ := hcounted _ hne hes
    have hvisiting := visiting_of_sums hes hne hkeySum hvalueSum
    have hlen := hvisiting.all.visited.length_eq
    have hsums : ∀ i < ts.length, sumOf LengthData.keyLen (ts.take i) < 0x80000000 ∧
        sumOf LengthData.valueLen (ts.take i) < 0x80000000 := by
      intro i hi
      rw [List.dropLast_eq_take] at hkeyInt hvalueInt
      exact ⟨(sumOf_take_le _ ts (by omega)).trans_lt hkeyInt,
        (sumOf_take_le _ ts (by omega)).trans_lt hvalueInt⟩
    refine ⟨hvisiting.size.symm, hvisiting.all, hvisiting.all.functional, ?_, fun k hk => ?_⟩
    · exact isSome_getMerged hvisiting.all.functional hvisiting.all.joinedKey.symm
        hvisiting.all.joinedValue.symm
    · refine affixes_of_counted hvisiting (fun i hi => ?_) ?_ hk
      · rw [(hvisiting.all.keysLen_take i).1, (hvisiting.all.keysLen_take i).2]
        exact hsums i (by omega)
      · have hcount := length_le_sumOf (List.forall₂_take (ts.length - 1) hes.packed)
        rw [← List.dropLast_eq_take, List.length_dropLast] at hcount
        omega

/-- 2^25 segments of 128 bytes each are accepted for an empty key and an empty value: their
    sums are 2^32. -/
theorem boundary_wraps_around :
    ¬ ∀ (ts : List LengthData) (key value : Bytes), BoundaryRoundTrips ts key value := by
  intro h
  obtain ⟨n, hn⟩ : ∃ n, n = 0x2000000 := ⟨_, rfl⟩
  have hencode : encodeLengths ⟨128, 128, 128, 128⟩ = some 0x80808080 := by decide
  have hsum : ∀ field : LengthData → Nat, field ⟨128, 128, 128, 128⟩ = 128 →
      sumOf field (List.replicate n ⟨128, 128, 128, 128⟩) = n * 128 := by
    intro field hfield
    rw [sumOf, List.map_replicate, List.sum_replicate, hfield, smul_eq_mul]
  have haccepted : Accepted (List.replicate n ⟨128, 128, 128, 128⟩)
      (List.replicate n 0x80808080) [] [] := by
    refine ⟨?_, ?_, ?_⟩
    · exact List.forall₂_iff_get.mpr ⟨by simp, fun i hi hi' => by simpa using hencode⟩
    · rw [hsum _ rfl, hn]
      rfl
    · rw [hsum _ rfl, hn]
      rfl
  have hne : List.replicate n 0x80808080 ≠ [] :=
    List.ne_nil_of_length_pos (by rw [List.length_replicate]; omega)
  have hround := h (List.replicate n ⟨128, 128, 128, 128⟩) [] []
  rw [BoundaryRoundTrips, buildBoundary_eq haccepted] at hround
  have hvisited := (hround hne).visited.visited.length_eq
  rw [List.length_replicate, InnerSegments.visits, visits_eq] at hvisited
  have hnone : n = 0 := hvisited
  omega

end MozkeyInnerSegment
