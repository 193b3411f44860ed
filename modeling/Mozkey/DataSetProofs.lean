import Mozkey.UnverifiedSha1Proofs
import Mozkey.WireFormatProofs

/-! # DataSet — several files in one

    A data set is the magic string, the files behind padding that aligns them, the metadata
    with their names, offsets and sizes, and a footer.  The reader takes the metadata from the
    end, and keeps a view of every file by its name.

    The reader rejects an offset that is not in front of the metadata, so a last file without
    a byte is not accepted. -/

namespace MozkeyDataSet

open ByteString WireFormat MozkeySha1

/-! ## The numbers of the footer -/

/-- `Util::SerializeUint64`. -/
def serializeUint64 (x : UInt64) : Bytes :=
  [(x >>> 56).toUInt8, ((x >>> 48) &&& 0xFF).toUInt8, ((x >>> 40) &&& 0xFF).toUInt8,
    ((x >>> 32) &&& 0xFF).toUInt8, ((x >>> 24) &&& 0xFF).toUInt8, ((x >>> 16) &&& 0xFF).toUInt8,
    ((x >>> 8) &&& 0xFF).toUInt8, (x &&& 0xFF).toUInt8]

/-- `Util::DeserializeUint64`. -/
def deserializeUint64 : Bytes → Option UInt64
  | [s0, s1, s2, s3, s4, s5, s6, s7] =>
    some (s0.toUInt64 <<< 56 ||| s1.toUInt64 <<< 48 ||| s2.toUInt64 <<< 40 ||| s3.toUInt64 <<< 32
      ||| s4.toUInt64 <<< 24 ||| s5.toUInt64 <<< 16 ||| s6.toUInt64 <<< 8 ||| s7.toUInt64)
  | _ => none

theorem or_shiftLeft {a b : Nat} (k : Nat) (h : b < 2 ^ 8) :
    (a <<< (k + 8)) ||| (b <<< k) = (a * 2 ^ 8 + b) <<< k := by
  rw [Nat.add_comm k 8, Nat.shiftLeft_add, ← Nat.shiftLeft_or_distrib,
    ← Nat.shiftLeft_add_eq_or_of_lt h, Nat.shiftLeft_eq a 8]

theorem toNat_shiftLeft (b : UInt8) {k : UInt64} (hk : k.toNat ≤ 56) :
    (b.toUInt64 <<< k).toNat = b.toNat <<< k.toNat := by
  have hb := b.toNat_lt
  rw [UInt64.toNat_shiftLeft, UInt8.toNat_toUInt64, Nat.mod_eq_of_lt (show k.toNat < 64 by omega),
    Nat.mod_eq_of_lt]
  rw [Nat.shiftLeft_eq]
  calc b.toNat * 2 ^ k.toNat < 2 ^ 8 * 2 ^ k.toNat :=
        Nat.mul_lt_mul_of_pos_right hb (Nat.two_pow_pos _)
    _ ≤ 2 ^ 8 * 2 ^ 56 := Nat.mul_le_mul_left _ (Nat.pow_le_pow_right (by decide) hk)

theorem toNat_serialized (x k : UInt64) (hk : k.toNat < 64) :
    ((x >>> k) &&& 0xFF).toUInt8.toNat = x.toNat / 2 ^ k.toNat % 2 ^ 8 := by
  rw [UInt64.toNat_toUInt8, UInt64.toNat_and, UInt64.toNat_shiftRight, Nat.mod_eq_of_lt hk,
    Nat.shiftRight_eq_div_pow]
  show (_ &&& (2 ^ 8 - 1)) % 2 ^ 8 = _
  rw [Nat.and_two_pow_sub_one_eq_mod, Nat.mod_mod]

/-- **READING INVERTS SERIALIZING.** -/
theorem deserializeUint64_serializeUint64 (x : UInt64) :
    deserializeUint64 (serializeUint64 x) = some x := by
  have hx := x.toNat_lt
  have h0 : (x >>> 56).toUInt8.toNat = x.toNat / 2 ^ 56 % 2 ^ 8 := by
    rw [UInt64.toNat_toUInt8, UInt64.toNat_shiftRight, Nat.shiftRight_eq_div_pow]
    rfl
  have h7 : (x &&& 0xFF).toUInt8.toNat = x.toNat % 2 ^ 8 := by
    rw [UInt64.toNat_toUInt8, UInt64.toNat_and]
    show (_ &&& (2 ^ 8 - 1)) % 2 ^ 8 = _
    rw [Nat.and_two_pow_sub_one_eq_mod, Nat.mod_mod]
  rw [serializeUint64, deserializeUint64, Option.some_inj, ← UInt64.toNat_inj]
  simp only [UInt64.toNat_or]
  rw [toNat_shiftLeft _ (by decide), toNat_shiftLeft _ (by decide), toNat_shiftLeft _ (by decide),
    toNat_shiftLeft _ (by decide), toNat_shiftLeft _ (by decide), toNat_shiftLeft _ (by decide),
    toNat_shiftLeft _ (by decide), UInt8.toNat_toUInt64, h0, h7,
    toNat_serialized _ _ (by decide), toNat_serialized _ _ (by decide),
    toNat_serialized _ _ (by decide), toNat_serialized _ _ (by decide),
    toNat_serialized _ _ (by decide), toNat_serialized _ _ (by decide),
    ← Nat.shiftLeft_zero (n := x.toNat % 2 ^ 8)]
  simp only [show UInt64.toNat 56 = 56 from rfl, show UInt64.toNat 48 = 48 from rfl,
    show UInt64.toNat 40 = 40 from rfl, show UInt64.toNat 32 = 32 from rfl,
    show UInt64.toNat 24 = 24 from rfl, show UInt64.toNat 16 = 16 from rfl,
    show UInt64.toNat 8 = 8 from rfl]
  rw [or_shiftLeft 48 (by omega), or_shiftLeft 40 (by omega), or_shiftLeft 32 (by omega),
    or_shiftLeft 24 (by omega), or_shiftLeft 16 (by omega), or_shiftLeft 8 (by omega),
    or_shiftLeft 0 (by omega), Nat.shiftLeft_zero]
  omega

/-! ## The writer -/

/-- `DataSetMetadata::Entry`. -/
structure Entry where
  name : Bytes
  offset : UInt64
  size : UInt64
  deriving DecidableEq

/-- The serializer and the parser of `DataSetMetadata`, which are generated. -/
structure Codec where
  serializeAsString : List Entry → Bytes
  parseFromString : Bytes → Option (List Entry)

/-- The parser inverts the serializer and reads nothing as no entries. -/
structure Codec.Lawful (codec : Codec) : Prop where
  parse : ∀ entries, codec.parseFromString (codec.serializeAsString entries) = some entries
  parse_nil : codec.parseFromString [] = some []

/-- `IsValidAlignment`: a power of two from 8 on. -/
def isValidAlignment (a : Int) : Bool := 8 ≤ a && a.toNat &&& (a.toNat - 1) == 0

/-- `DataSetWriter`. -/
structure DataSetWriter where
  image : Bytes
  metadata : List Entry := []
  seenNames : List Bytes := []

namespace DataSetWriter

/-- The padding that `AppendPadding` appends, for an alignment in bytes. -/
def padding (length alignment : Nat) : Bytes :=
  if 0 < length % alignment then List.replicate (alignment - length % alignment) 0 else []

/-- `AppendPadding`; `none` where a check fails. -/
def appendPadding (w : DataSetWriter) (alignment : Int) : Option DataSetWriter :=
  if isValidAlignment alignment then
    some { w with image := w.image ++ padding w.image.length (alignment.toNat / 8) }
  else none

/-- `Add`; `none` where a check fails. -/
def add (w : DataSetWriter) (name : Bytes) (alignment : Int) (data : Bytes) :
    Option DataSetWriter :=
  if name ∈ w.seenNames then none
  else
    (appendPadding { w with seenNames := name :: w.seenNames } alignment).map fun w =>
      { w with
        image := w.image ++ data
        metadata := w.metadata ++
          [{ name, offset := UInt64.ofNat w.image.length, size := UInt64.ofNat data.length }] }

/-- `Finish`: the metadata, its size, the digest and the size. -/
def finish (codec : Codec) (w : DataSetWriter) : Bytes :=
  let s := codec.serializeAsString w.metadata
  let image := w.image ++ s
  let image := image ++ serializeUint64 (UInt64.ofNat s.length)
  let image := image ++ makeDigest image
  image ++ serializeUint64 (UInt64.ofNat (image.length + 8))

end DataSetWriter

/-- A file to be added. -/
structure File where
  name : Bytes
  alignment : Int
  data : Bytes

/-- A data set of some files, as it is written. -/
def write (codec : Codec) (magic : Bytes) (files : List File) : Option Bytes :=
  (files.foldlM (fun (w : DataSetWriter) file => w.add file.name file.alignment file.data)
    { image := magic }).map (DataSetWriter.finish codec)

/-! ## The reader -/

/-- The bytes behind the metadata. -/
def kFooterSize : Nat := 36

/-- An `absl::string_view` into the data set. -/
structure View where
  offset : Nat
  length : Nat
  deriving DecidableEq

/-- The bytes of a view. -/
def View.bytes (memblock : Bytes) (view : View) : Bytes :=
  (memblock.drop view.offset).take view.length

/-- `absl::ClippedSubstr`. -/
def clippedSubstr (memblock : Bytes) (pos n : Nat) : View :=
  { offset := min pos memblock.length
    length := min n (memblock.length - min pos memblock.length) }

/-- `DataSetReader`; the last view of a name comes first. -/
structure DataSetReader where
  memblock : Bytes
  nameToDataMap : List (Bytes × View)

/-- The offset of the metadata and its entries, as `Init` opens them. -/
def readMetadata (codec : Codec) (memblock : Bytes) (magicLength : Nat) :
    Option (Nat × List Entry) :=
  if memblock.length < magicLength + kFooterSize then none
  else
    match deserializeUint64 ((clippedSubstr memblock (memblock.length - 8) 8).bytes memblock) with
    | none => none
    | some filesize =>
      if filesize.toNat ≠ memblock.length then none
      else
        match deserializeUint64
            ((clippedSubstr memblock (memblock.length - kFooterSize) 8).bytes memblock) with
        | none => none
        | some metadataSize =>
          let contentAndMetadataSize := memblock.length - magicLength - kFooterSize
          if metadataSize.toNat = 0 ∨ contentAndMetadataSize < metadataSize.toNat then none
          else
            let metadataOffset := memblock.length - kFooterSize - metadataSize.toNat
            (codec.parseFromString
              ((clippedSubstr memblock metadataOffset metadataSize.toNat).bytes memblock)).map
              fun entries => (metadataOffset, entries)

/-- The loop of `Init` over the entries. -/
def readEntries (memblock : Bytes) (metadataOffset : Nat) :
    Nat → List Entry → List (Bytes × View) → Option (List (Bytes × View))
  | _, [], map => some map
  | prevChunkEnd, e :: entries, map =>
    if e.offset.toNat < prevChunkEnd ∨ metadataOffset ≤ e.offset.toNat then none
    else if metadataOffset < e.size.toNat ∨ metadataOffset - e.size.toNat < e.offset.toNat then
      none
    else
      readEntries memblock metadataOffset (e.offset.toNat + e.size.toNat) entries
        ((e.name, clippedSubstr memblock e.offset.toNat e.size.toNat) :: map)

namespace DataSetReader

/-- `Init` with the length of the magic string; `none` where it returns `false`. -/
def initLength (codec : Codec) (memblock : Bytes) (magicLength : Nat) : Option DataSetReader :=
  match readMetadata codec memblock magicLength with
  | none => none
  | some (metadataOffset, entries) =>
    (readEntries memblock metadataOffset magicLength entries []).map fun map =>
      { memblock, nameToDataMap := map }

/-- `Init`; `none` where it returns `false`. -/
def init (codec : Codec) (memblock magic : Bytes) : Option DataSetReader :=
  if magic <+: memblock then initLength codec memblock magic.length else none

/-- The view of a name. -/
def find (r : DataSetReader) (name : Bytes) : Option View := r.nameToDataMap.lookup name

/-- `Get`: the bytes of a name. -/
def get (r : DataSetReader) (name : Bytes) : Option Bytes :=
  (r.find name).map (View.bytes r.memblock)

/-- `GetOffsetAndSize`. -/
def getOffsetAndSize (r : DataSetReader) (name : Bytes) : Option (Nat × Nat) :=
  (r.find name).map fun view => (view.offset, view.length)

end DataSetReader

/-! ## What is written -/

open DataSetWriter in
/-- The bytes of files behind some bytes. -/
def bytesFrom : Nat → List File → Bytes
  | _, [] => []
  | length, file :: files =>
    let pad := padding length (file.alignment.toNat / 8)
    pad ++ file.data ++ bytesFrom (length + pad.length + file.data.length) files

open DataSetWriter in
/-- The entries of files behind some bytes. -/
def entriesFrom : Nat → List File → List Entry
  | _, [] => []
  | length, file :: files =>
    let offset := length + (padding length (file.alignment.toNat / 8)).length
    { name := file.name, offset := UInt64.ofNat offset, size := UInt64.ofNat file.data.length }
      :: entriesFrom (offset + file.data.length) files

/-- A file can be added. -/
def File.Addable (file : File) : Prop := isValidAlignment file.alignment = true

instance decidableAddable (file : File) : Decidable file.Addable :=
  inferInstanceAs (Decidable (isValidAlignment file.alignment = true))

/-- The writer behind a file that is added. -/
def DataSetWriter.added (w : DataSetWriter) (file : File) : DataSetWriter :=
  let image := w.image ++ DataSetWriter.padding w.image.length (file.alignment.toNat / 8)
  { image := image ++ file.data
    metadata := w.metadata ++
      [{ name := file.name
         offset := UInt64.ofNat image.length
         size := UInt64.ofNat file.data.length }]
    seenNames := file.name :: w.seenNames }

theorem add_eq {w : DataSetWriter} {file : File} (hseen : file.name ∉ w.seenNames)
    (hadd : file.Addable) : w.add file.name file.alignment file.data = some (w.added file) := by
  have hvalid : isValidAlignment file.alignment = true := hadd
  rw [DataSetWriter.add, if_neg hseen, DataSetWriter.appendPadding, if_pos hvalid]
  rfl

theorem foldlM_add : ∀ {files : List File} {w : DataSetWriter},
    (files.map File.name).Nodup → (∀ file ∈ files, file.name ∉ w.seenNames) →
    (∀ file ∈ files, file.Addable) →
    ∃ w', files.foldlM (fun (w : DataSetWriter) file =>
        w.add file.name file.alignment file.data) w = some w' ∧
      w'.image = w.image ++ bytesFrom w.image.length files ∧
      w'.metadata = w.metadata ++ entriesFrom w.image.length files := by
  intro files
  induction files with
  | nil =>
    intro w _ _ _
    exact ⟨w, rfl, (List.append_nil _).symm, (List.append_nil _).symm⟩
  | cons file files ih =>
    intro w hnodup hseen hadd
    rw [List.map_cons, List.nodup_cons] at hnodup
    have hseen' : ∀ g ∈ files, g.name ∉ (w.added file).seenNames := by
      intro g hg hmem
      rcases List.mem_cons.mp hmem with hname | hmem
      · exact hnodup.1 (hname ▸ List.mem_map_of_mem hg)
      · exact hseen g (List.mem_cons_of_mem _ hg) hmem
    obtain ⟨w', hfold, himage, hmetadata⟩ :=
      ih hnodup.2 hseen' (fun g hg => hadd g (List.mem_cons_of_mem _ hg))
    refine ⟨w', ?_, ?_, ?_⟩
    · rw [List.foldlM_cons, add_eq (hseen file List.mem_cons_self) (hadd file List.mem_cons_self)]
      exact hfold
    · rw [himage, bytesFrom]
      simp only [DataSetWriter.added, List.length_append, List.append_assoc, Nat.add_assoc]
    · rw [hmetadata, entriesFrom]
      simp only [DataSetWriter.added, List.length_append, List.append_assoc, Nat.add_assoc,
        List.singleton_append]

/-- The size of the metadata, the digest and the size of the file, behind the metadata. -/
def footer (image s : Bytes) : Bytes :=
  serializeUint64 (UInt64.ofNat s.length)
    ++ (makeDigest (image ++ s ++ serializeUint64 (UInt64.ofNat s.length))
      ++ serializeUint64 (UInt64.ofNat (image.length + s.length + 36)))

@[simp] theorem length_serializeUint64 (x : UInt64) : (serializeUint64 x).length = 8 := rfl

@[simp] theorem length_footer (image s : Bytes) : (footer image s).length = 36 := by
  rw [footer, List.length_append, List.length_append, length_makeDigest, length_serializeUint64,
    length_serializeUint64]

variable {files : List File}

/-- **THE BYTES THAT ARE WRITTEN.** -/
theorem write_eq (codec : Codec) (magic : Bytes) (hnodup : (files.map File.name).Nodup)
    (hadd : ∀ file ∈ files, file.Addable) :
    write codec magic files =
      let image := magic ++ bytesFrom magic.length files
      let s := codec.serializeAsString (entriesFrom magic.length files)
      some (image ++ s ++ footer image s) := by
  obtain ⟨w, hfold, himage, hmetadata⟩ := foldlM_add (w := { image := magic }) hnodup
    (fun _ _ => List.not_mem_nil) hadd
  have himage : w.image = magic ++ bytesFrom magic.length files := himage
  have hmetadata : w.metadata = entriesFrom magic.length files := hmetadata
  rw [write, hfold, Option.map_some, DataSetWriter.finish, himage, hmetadata]
  have hlength : (magic ++ bytesFrom magic.length files
      ++ codec.serializeAsString (entriesFrom magic.length files)
      ++ serializeUint64 (UInt64.ofNat
        (codec.serializeAsString (entriesFrom magic.length files)).length)
      ++ makeDigest (magic ++ bytesFrom magic.length files
        ++ codec.serializeAsString (entriesFrom magic.length files)
        ++ serializeUint64 (UInt64.ofNat
          (codec.serializeAsString (entriesFrom magic.length files)).length))).length + 8
      = (magic ++ bytesFrom magic.length files).length
        + (codec.serializeAsString (entriesFrom magic.length files)).length + 36 := by
    rw [List.length_append, List.length_append, List.length_append, length_makeDigest,
      length_serializeUint64]
  dsimp only
  rw [hlength, footer]
  simp only [List.append_assoc]

/-! ## What the reader makes of it -/

open DataSetWriter in
/-- The views of files behind some bytes. -/
def viewsFrom : Nat → List File → List (Bytes × View)
  | _, [] => []
  | length, file :: files =>
    let offset := length + (padding length (file.alignment.toNat / 8)).length
    (file.name, ⟨offset, file.data.length⟩) :: viewsFrom (offset + file.data.length) files

theorem clippedSubstr_eq {memblock : Bytes} {pos n : Nat} (h : pos + n ≤ memblock.length) :
    clippedSubstr memblock pos n = ⟨pos, n⟩ := by
  rw [clippedSubstr, Nat.min_eq_left (by omega), Nat.min_eq_left (by omega)]

theorem bytes_append (front mid rest : Bytes) :
    (View.mk front.length mid.length).bytes (front ++ (mid ++ rest)) = mid := by
  rw [View.bytes, List.drop_left, List.take_left]

theorem length_bytesFrom_cons (n : Nat) (file : File) (files : List File) :
    (bytesFrom n (file :: files)).length
      = (DataSetWriter.padding n (file.alignment.toNat / 8)).length + file.data.length
        + (bytesFrom (n + (DataSetWriter.padding n (file.alignment.toNat / 8)).length
            + file.data.length) files).length := by
  rw [bytesFrom, List.length_append, List.length_append]

/-- The last file has a byte. -/
def LastNonempty (files : List File) : Prop := ∀ file ∈ files.getLast?, file.data ≠ []

theorem lastNonempty_cons {file g : File} :
    LastNonempty (file :: g :: files) ↔ LastNonempty (g :: files) := by
  rw [LastNonempty, List.getLast?_cons_cons]
  rfl

theorem length_bytesFrom_pos : ∀ {files : List File} {n : Nat}, files ≠ [] →
    LastNonempty files → 0 < (bytesFrom n files).length := by
  intro files
  induction files with
  | nil => intro n h; exact absurd rfl h
  | cons file files ih =>
    intro n _ hlast
    rw [length_bytesFrom_cons]
    cases files with
    | nil =>
      have := List.length_pos_iff.mpr (hlast file rfl)
      omega
    | cons g gs =>
      have := ih (n := n + (DataSetWriter.padding n (file.alignment.toNat / 8)).length
        + file.data.length) (List.cons_ne_nil _ _) (lastNonempty_cons.mp hlast)
      omega

variable {metadataOffset : Nat}

/-- **THE READER ACCEPTS** what was written if the last file has a byte. -/
theorem readEntries_accepts {memblock : Bytes} (hmetadata : metadataOffset ≤ memblock.length)
    (hsize : metadataOffset < 2 ^ 64) :
    ∀ {files : List File} {n : Nat} (map : List (Bytes × View)),
      n + (bytesFrom n files).length = metadataOffset → LastNonempty files →
      readEntries memblock metadataOffset n (entriesFrom n files) map
        = some ((viewsFrom n files).reverse ++ map) := by
  intro files
  induction files with
  | nil => intro n map _ _; rfl
  | cons file files ih =>
    intro n map hlength hlast
    rw [length_bytesFrom_cons] at hlength
    -- something comes behind the offset
    have hbehind : 0 < file.data.length
        + (bytesFrom (n + (DataSetWriter.padding n (file.alignment.toNat / 8)).length
            + file.data.length) files).length := by
      cases files with
      | nil => exact Nat.add_pos_left (List.length_pos_iff.mpr (hlast file rfl)) _
      | cons g gs =>
        exact Nat.add_pos_right _
          (length_bytesFrom_pos (List.cons_ne_nil _ _) (lastNonempty_cons.mp hlast))
    have hlast' : LastNonempty files := by
      cases files with
      | nil => rintro _ ⟨⟩
      | cons g gs => exact lastNonempty_cons.mp hlast
    rw [entriesFrom, readEntries, viewsFrom]
    dsimp only
    rw [UInt64.toNat_ofNat_of_lt' (show _ < 2 ^ 64 by omega),
      UInt64.toNat_ofNat_of_lt' (show _ < 2 ^ 64 by omega), if_neg (by omega), if_neg (by omega),
      ih _ (by omega) hlast', clippedSubstr_eq (by omega), List.reverse_cons, List.append_assoc,
      List.singleton_append]

/-- **THE READER REJECTS** it if the last file is empty: its offset is that of the metadata. -/
theorem readEntries_rejects {memblock : Bytes} (hsize : metadataOffset < 2 ^ 64) :
    ∀ {files : List File} {n : Nat} (map : List (Bytes × View)),
      n + (bytesFrom n files).length = metadataOffset → files ≠ [] → ¬ LastNonempty files →
      readEntries memblock metadataOffset n (entriesFrom n files) map = none := by
  intro files
  induction files with
  | nil => intro n map _ h; exact absurd rfl h
  | cons file files ih =>
    intro n map hlength _ hlast
    rw [length_bytesFrom_cons] at hlength
    rw [entriesFrom, readEntries]
    dsimp only
    rw [UInt64.toNat_ofNat_of_lt' (show _ < 2 ^ 64 by omega),
      UInt64.toNat_ofNat_of_lt' (show _ < 2 ^ 64 by omega)]
    cases files with
    | nil =>
      have hdata : file.data = [] := by
        by_contra hne
        refine hlast ?_
        rintro g ⟨⟩
        exact hne
      rw [bytesFrom, hdata] at hlength
      have : n + (DataSetWriter.padding n (file.alignment.toNat / 8)).length
          = metadataOffset := hlength
      rw [if_pos (Or.inr (by omega))]
    | cons g gs =>
      split_ifs
      · rfl
      · rfl
      · exact ih _ (by omega) (List.cons_ne_nil _ _) (fun h => hlast (lastNonempty_cons.mpr h))

/-- **THE METADATA IS FOUND** from the end of the file. -/
theorem readMetadata_write {codec : Codec} (hcodec : codec.Lawful) {image : Bytes}
    {entries : List Entry} {magicLength : Nat} (hmagic : magicLength ≤ image.length)
    (hne : codec.serializeAsString entries ≠ [])
    (hsize : image.length + (codec.serializeAsString entries).length + 36 < 2 ^ 64) :
    readMetadata codec (image ++ codec.serializeAsString entries
        ++ footer image (codec.serializeAsString entries)) magicLength
      = some (image.length, entries) := by
  have hparse := hcodec.parse entries
  generalize codec.serializeAsString entries = s at *
  have hpos := List.length_pos_iff.mpr hne
  have hlength : (image ++ s ++ footer image s).length = image.length + s.length + 36 := by
    rw [List.length_append, List.length_append, length_footer]
  -- the three parts that are read
  have hfile : (View.mk (image.length + s.length + 36 - 8) 8).bytes
      (image ++ s ++ footer image s)
      = serializeUint64 (UInt64.ofNat (image.length + s.length + 36)) := by
    have hbytes := bytes_append (image ++ s ++ (serializeUint64 (UInt64.ofNat s.length)
      ++ makeDigest (image ++ s ++ serializeUint64 (UInt64.ofNat s.length))))
      (serializeUint64 (UInt64.ofNat (image.length + s.length + 36))) []
    rw [List.append_nil, length_serializeUint64, List.length_append, List.length_append,
      List.length_append, length_makeDigest, length_serializeUint64] at hbytes
    rw [footer, ← List.append_assoc (serializeUint64 _), ← List.append_assoc (image ++ s)]
    exact hbytes
  have hmeta : (View.mk (image.length + s.length + 36 - kFooterSize) 8).bytes
      (image ++ s ++ footer image s) = serializeUint64 (UInt64.ofNat s.length) := by
    have hbytes := bytes_append (image ++ s) (serializeUint64 (UInt64.ofNat s.length))
      (makeDigest (image ++ s ++ serializeUint64 (UInt64.ofNat s.length))
        ++ serializeUint64 (UInt64.ofNat (image.length + s.length + 36)))
    rw [length_serializeUint64, List.length_append] at hbytes
    rw [footer, kFooterSize, Nat.add_sub_cancel]
    exact hbytes
  have hchunk : (View.mk image.length s.length).bytes (image ++ s ++ footer image s) = s := by
    rw [List.append_assoc]
    exact bytes_append image s _
  rw [readMetadata, hlength, kFooterSize, if_neg (by omega),
    clippedSubstr_eq (by rw [hlength]; omega), hfile, deserializeUint64_serializeUint64]
  dsimp only
  rw [UInt64.toNat_ofNat_of_lt' (by exact hsize), if_neg (by omega),
    clippedSubstr_eq (by rw [hlength]; omega)]
  rw [kFooterSize] at hmeta
  rw [hmeta, deserializeUint64_serializeUint64]
  dsimp only
  rw [UInt64.toNat_ofNat_of_lt' (show s.length < 2 ^ 64 by omega), if_neg (by omega),
    show image.length + s.length + 36 - 36 - s.length = image.length by omega,
    clippedSubstr_eq (by rw [hlength]; omega), hchunk, hparse]
  rfl

/-! ## What an accepted file holds -/

/-- The chunks lie behind the magic string and in front of the metadata, each one behind the
    one before it. -/
structure ChunksInOrder (magicLength metadataOffset : Nat) (entries : List Entry) : Prop where
  within : ∀ e ∈ entries,
    magicLength ≤ e.offset.toNat ∧ e.offset.toNat + e.size.toNat ≤ metadataOffset
  ordered : entries.Pairwise fun e e' => e.offset.toNat + e.size.toNat ≤ e'.offset.toNat

/-- The chunk of an entry. -/
def Entry.view (e : Entry) : View := ⟨e.offset.toNat, e.size.toNat⟩

theorem readEntries_spec {memblock : Bytes} (hmetadata : metadataOffset ≤ memblock.length) :
    ∀ {entries : List Entry} {prevChunkEnd : Nat} {map map' : List (Bytes × View)},
      readEntries memblock metadataOffset prevChunkEnd entries map = some map' →
      ChunksInOrder prevChunkEnd metadataOffset entries ∧
        map' = (entries.map fun e => (e.name, e.view)).reverse ++ map := by
  intro entries
  induction entries with
  | nil =>
    intro prevChunkEnd map map' h
    obtain rfl := Option.some.inj h
    exact ⟨⟨(by rintro _ ⟨⟩), .nil⟩, rfl⟩
  | cons e entries ih =>
    intro prevChunkEnd map map' h
    rw [readEntries] at h
    split_ifs at h with hoffset hsize
    obtain ⟨⟨hwithin, hordered⟩, rfl⟩ := ih h
    have hlast : e.offset.toNat + e.size.toNat ≤ metadataOffset := by omega
    refine ⟨⟨?_, ?_⟩, ?_⟩
    · intro e' he'
      rcases List.mem_cons.mp he' with rfl | he'
      · exact ⟨by omega, hlast⟩
      · have := hwithin e' he'
        exact ⟨by omega, this.2⟩
    · exact List.pairwise_cons.mpr ⟨fun e' he' => (hwithin e' he').1, hordered⟩
    · rw [clippedSubstr_eq (by omega), List.map_cons, List.reverse_cons, List.append_assoc,
        List.singleton_append]
      rfl

variable {codec : Codec}

theorem metadataOffset_le {memblock : Bytes} {magicLength : Nat} {entries : List Entry}
    (h : readMetadata codec memblock magicLength = some (metadataOffset, entries)) :
    magicLength ≤ metadataOffset ∧ metadataOffset + kFooterSize < memblock.length := by
  rw [readMetadata] at h
  split_ifs at h with hlength
  split at h
  · cases h
  · split_ifs at h with hfile
    split at h
    · cases h
    · rename_i metadataSize _
      dsimp only at h
      split_ifs at h with hmeta
      obtain ⟨_, _, heq⟩ := Option.map_eq_some_iff.mp h
      obtain ⟨rfl, rfl⟩ := Prod.mk.inj heq
      exact ⟨by omega, by omega⟩

theorem mem_of_lookup {map : List (Bytes × View)} {name : Bytes} {view : View}
    (h : map.lookup name = some view) : (name, view) ∈ map := by
  induction map with
  | nil => cases h
  | cons p map ih =>
    obtain ⟨name', view'⟩ := p
    rw [List.lookup_cons] at h
    split at h
    · rename_i heq
      obtain rfl := eq_of_beq heq
      obtain rfl := Option.some.inj h
      exact List.mem_cons_self
    · exact List.mem_cons_of_mem _ (ih h)

/-- **WHAT AN ACCEPTED FILE HOLDS**: the chunks that its metadata names are in order, and a
    name gives one of them. -/
theorem chunksInOrder_of_init {memblock magic : Bytes} {r : DataSetReader}
    (h : DataSetReader.init codec memblock magic = some r) : ∃ metadataOffset entries,
      readMetadata codec memblock magic.length = some (metadataOffset, entries) ∧
      metadataOffset + kFooterSize < memblock.length ∧
      ChunksInOrder magic.length metadataOffset entries ∧
      r.memblock = memblock ∧
      ∀ name view, r.find name = some view → ∃ e ∈ entries, e.name = name ∧ e.view = view := by
  rw [DataSetReader.init] at h
  split_ifs at h with hmagic
  rw [DataSetReader.initLength] at h
  split at h
  · cases h
  · rename_i metadataOffset entries hread
    obtain ⟨map, hmap, rfl⟩ := Option.map_eq_some_iff.mp h
    have hbounds := metadataOffset_le hread
    obtain ⟨horder, rfl⟩ := readEntries_spec (by omega) hmap
    refine ⟨metadataOffset, entries, hread, hbounds.2, horder, rfl, ?_⟩
    intro name view hfind
    have hmem := mem_of_lookup hfind
    rw [List.append_nil, List.mem_reverse] at hmem
    obtain ⟨e, he, heq⟩ := List.mem_map.mp hmem
    exact ⟨e, he, (Prod.mk.inj heq).1, (Prod.mk.inj heq).2⟩

/-! ## Reading back what was written -/

theorem dvd_length_padding {length alignment : Nat} (h : 0 < alignment) :
    alignment ∣ length + (DataSetWriter.padding length alignment).length := by
  have hmod := Nat.mod_lt length h
  have hdiv := Nat.div_add_mod length alignment
  rw [DataSetWriter.padding]
  split_ifs with hpos
  · rw [List.length_replicate]
    exact ⟨length / alignment + 1, by rw [Nat.mul_add]; omega⟩
  · exact ⟨length / alignment, by rw [List.length_nil]; omega⟩

theorem exists_front : ∀ {files : List File} {n : Nat}, (∀ file ∈ files, file.Addable) →
    ∀ file ∈ files, ∃ front rest, bytesFrom n files = front ++ (file.data ++ rest) ∧
      file.alignment.toNat / 8 ∣ n + front.length ∧
      (file.name, View.mk (n + front.length) file.data.length) ∈ viewsFrom n files := by
  intro files
  induction files with
  | nil => rintro n _ file ⟨⟩
  | cons g files ih =>
    intro n hadd file hfile
    have hpad : g.alignment.toNat / 8
        ∣ n + (DataSetWriter.padding n (g.alignment.toNat / 8)).length := by
      refine dvd_length_padding ?_
      have hvalid := hadd g List.mem_cons_self
      rw [File.Addable, isValidAlignment, Bool.and_eq_true, decide_eq_true_eq] at hvalid
      omega
    rw [bytesFrom, viewsFrom]
    rcases List.mem_cons.mp hfile with rfl | hfile
    · exact ⟨_, _, List.append_assoc _ _ _, hpad, List.mem_cons_self⟩
    · obtain ⟨front, rest, hbytes, hdvd, hmem⟩ :=
        ih (n := n + (DataSetWriter.padding n (g.alignment.toNat / 8)).length + g.data.length)
          (fun f hf => hadd f (List.mem_cons_of_mem _ hf)) file hfile
      have hlength : n + (DataSetWriter.padding n (g.alignment.toNat / 8)).length
          + g.data.length + front.length
          = n + (DataSetWriter.padding n (g.alignment.toNat / 8) ++ g.data ++ front).length := by
        rw [List.length_append, List.length_append]
        omega
      rw [hlength] at hdvd hmem
      refine ⟨_, rest, ?_, hdvd, List.mem_cons_of_mem _ hmem⟩
      rw [hbytes, List.append_assoc _ front]

theorem names_viewsFrom : ∀ {files : List File} {n : Nat},
    (viewsFrom n files).map Prod.fst = files.map File.name := by
  intro files
  induction files with
  | nil => intro n; rfl
  | cons file files ih =>
    intro n
    rw [viewsFrom, List.map_cons, List.map_cons, ih]

theorem lookup_of_mem {map : List (Bytes × View)} {name : Bytes} {view : View}
    (hnodup : (map.map Prod.fst).Nodup) (h : (name, view) ∈ map) :
    map.lookup name = some view := by
  induction map with
  | nil => cases h
  | cons p map ih =>
    obtain ⟨name', view'⟩ := p
    rw [List.map_cons, List.nodup_cons] at hnodup
    rw [List.lookup_cons]
    rcases List.mem_cons.mp h with heq | hmem
    · obtain ⟨rfl, rfl⟩ := Prod.mk.inj heq
      rw [beq_self_eq_true]
    · have hne : name ≠ name' := by
        intro heq
        have hname : name ∈ map.map Prod.fst := List.mem_map_of_mem (f := Prod.fst) hmem
        exact hnodup.1 (heq ▸ hname)
      rw [beq_false_of_ne hne]
      exact ih hnodup.2 hmem

/-- The reader accepts what is written, and every name gives its data at an aligned offset. -/
def RoundTrips (codec : Codec) (magic : Bytes) (files : List File) : Prop :=
  ∃ memblock r, write codec magic files = some memblock ∧
    DataSetReader.init codec memblock magic = some r ∧
    ∀ file ∈ files, r.get file.name = some file.data ∧
      ∃ offset, r.getOffsetAndSize file.name = some (offset, file.data.length) ∧
        file.alignment.toNat / 8 ∣ offset

theorem Codec.Lawful.serialize_ne_nil (h : codec.Lawful) {entries : List Entry}
    (hne : entries ≠ []) : codec.serializeAsString entries ≠ [] := by
  intro hnil
  have hparse := h.parse entries
  rw [hnil, h.parse_nil] at hparse
  exact hne (Option.some.inj hparse).symm

/-- The data set of some files fits into memory. -/
def Fits (codec : Codec) (magic : Bytes) (files : List File) : Prop :=
  ∀ memblock, write codec magic files = some memblock → memblock.length < 2 ^ 64

theorem roundTrips_iff (hcodec : codec.Lawful) {magic : Bytes} (hne : files ≠ [])
    (hnodup : (files.map File.name).Nodup) (hadd : ∀ file ∈ files, file.Addable)
    (hsize : Fits codec magic files) :
    RoundTrips codec magic files ↔ LastNonempty files := by
  have hwrite := write_eq codec magic hnodup hadd
  dsimp only at hwrite
  have hlength := hsize _ hwrite
  have hs : codec.serializeAsString (entriesFrom magic.length files) ≠ [] := by
    refine hcodec.serialize_ne_nil ?_
    cases files with
    | nil => exact absurd rfl hne
    | cons file files => exact List.cons_ne_nil _ _
  rw [List.length_append, List.length_append, length_footer] at hlength
  have hread := @readMetadata_write codec hcodec _ (entriesFrom magic.length files) magic.length
    (by rw [List.length_append]; exact Nat.le_add_right _ _) hs hlength
  generalize hmemblock : magic ++ bytesFrom magic.length files
      ++ codec.serializeAsString (entriesFrom magic.length files)
      ++ footer (magic ++ bytesFrom magic.length files)
        (codec.serializeAsString (entriesFrom magic.length files)) = memblock at hwrite hread
  have hmagic : magic <+: memblock := by
    rw [← hmemblock, List.append_assoc, List.append_assoc]
    exact List.prefix_append _ _
  have hle : (magic ++ bytesFrom magic.length files).length ≤ memblock.length := by
    rw [← hmemblock, List.append_assoc]
    exact (List.prefix_append _ _).length_le
  have hinit : DataSetReader.init codec memblock magic
      = (readEntries memblock (magic ++ bytesFrom magic.length files).length magic.length
          (entriesFrom magic.length files) []).map fun map =>
        { memblock, nameToDataMap := map } := by
    rw [DataSetReader.init, if_pos hmagic, DataSetReader.initLength, hread]
  have hbytes : magic.length + (bytesFrom magic.length files).length
      = (magic ++ bytesFrom magic.length files).length := List.length_append.symm
  constructor
  · rintro ⟨_, r, hw, hr, -⟩
    obtain rfl := Option.some.inj (hwrite.symm.trans hw)
    by_contra hlast
    rw [hinit, readEntries_rejects (by omega) [] hbytes hne hlast] at hr
    cases hr
  · intro hlast
    have haccept := readEntries_accepts hle (by omega) [] hbytes hlast
    rw [List.append_nil] at haccept
    rw [haccept, Option.map_some] at hinit
    refine ⟨memblock, _, hwrite, hinit, ?_⟩
    intro file hfile
    obtain ⟨front, rest, hfront, hdvd, hmem⟩ := exists_front (n := magic.length) hadd file hfile
    have hfind : (viewsFrom magic.length files).reverse.lookup file.name
        = some ⟨magic.length + front.length, file.data.length⟩ := by
      refine lookup_of_mem ?_ (List.mem_reverse.mpr hmem)
      rw [List.map_reverse, names_viewsFrom, List.nodup_reverse]
      exact hnodup
    have hdata : (View.mk (magic.length + front.length) file.data.length).bytes memblock
        = file.data := by
      have happend := bytes_append (magic ++ front) file.data (rest
        ++ (codec.serializeAsString (entriesFrom magic.length files)
          ++ footer (magic ++ bytesFrom magic.length files)
            (codec.serializeAsString (entriesFrom magic.length files))))
      rw [List.length_append] at happend
      rw [← hmemblock, hfront] at *
      simp only [List.append_assoc] at happend ⊢
      exact happend
    refine ⟨?_, magic.length + front.length, ?_, hdvd⟩
    · rw [DataSetReader.get, DataSetReader.find, hfind, Option.map_some, hdata]
    · rw [DataSetReader.getOffsetAndSize, DataSetReader.find, hfind, Option.map_some]

/-! ## The encoding of the metadata -/

/-- `DataSetMetadata::Entry`, with all its fields. -/
def serializeEntry (e : Entry) : Bytes :=
  writeString 0x0A e.name ++ (writeNumber 0x10 e.offset.toNat ++ writeNumber 0x18 e.size.toNat)

/-- An entry of the metadata, field by field. -/
def parseEntry (bytes : Bytes) : Option Entry :=
  (readString 0x0A bytes).bind fun name =>
    (readNumber 0x10 name.2).bind fun offset =>
      (readNumber 0x18 offset.2).bind fun size =>
        if size.2 = [] then
          some { name := name.1, offset := UInt64.ofNat offset.1, size := UInt64.ofNat size.1 }
        else none

/-- The entries are a repeated field. -/
def metadataCodec : Codec where
  serializeAsString entries := (entries.map serializeEntry).flatMap (writeString 0x0A)
  parseFromString bytes := (readStrings 0x0A bytes.length bytes).bind (List.mapM parseEntry)

theorem parseEntry_serializeEntry (e : Entry) : parseEntry (serializeEntry e) = some e := by
  rw [parseEntry, serializeEntry, readString_writeString, Option.bind_some]
  dsimp only
  rw [readNumber_writeNumber, Option.bind_some]
  dsimp only
  rw [← List.append_nil (writeNumber 0x18 _), readNumber_writeNumber, Option.bind_some]
  dsimp only
  rw [if_pos rfl, UInt64.ofNat_toNat, UInt64.ofNat_toNat]

theorem mapM_parseEntry : ∀ entries : List Entry,
    (entries.map serializeEntry).mapM parseEntry = some entries := by
  intro entries
  induction entries with
  | nil => rfl
  | cons e entries ih =>
    rw [List.map_cons, List.mapM_cons, parseEntry_serializeEntry, ih]
    rfl

theorem lawful_metadataCodec : metadataCodec.Lawful where
  parse entries := by
    dsimp only [metadataCodec]
    rw [readStrings_writeStrings 0x0A (Nat.le_refl _), Option.bind_some,
      mapM_parseEntry]
  parse_nil := rfl

/-! ## The round trip -/

/-- **A DATA SET IS READ BACK** unless its last file is empty; and whatever file is accepted,
    its chunks are in order. -/
theorem round_trip_iff (codec : Codec) (hcodec : codec.Lawful) (magic : Bytes) :
    (∀ files : List File, files ≠ [] → (files.map File.name).Nodup →
      (∀ file ∈ files, file.Addable) → Fits codec magic files →
      (RoundTrips codec magic files ↔ LastNonempty files)) ∧
    ∀ memblock r, DataSetReader.init codec memblock magic = some r → ∃ metadataOffset entries,
      readMetadata codec memblock magic.length = some (metadataOffset, entries) ∧
      metadataOffset + kFooterSize < memblock.length ∧
      ChunksInOrder magic.length metadataOffset entries ∧
      r.memblock = memblock ∧
      ∀ name view, r.find name = some view → ∃ e ∈ entries, e.name = name ∧ e.view = view :=
  ⟨fun _ hne hnodup hadd hsize => roundTrips_iff hcodec hne hnodup hadd hsize,
    fun _ _ h => chunksInOrder_of_init h⟩

/-- A file behind an empty one. -/
def emptyThenByte : List File := [⟨[0x61], 8, []⟩, ⟨[0x62], 32, [0x78]⟩]

/-- A file without content. -/
def oneEmpty : List File := [⟨[0x61], 8, []⟩]

theorem fits_emptyThenByte : Fits metadataCodec [0xEF] emptyThenByte := by
  intro memblock h
  rw [write_eq metadataCodec [0xEF] (by decide) (by decide)] at h
  obtain rfl := Option.some.inj h
  rw [List.length_append, List.length_append, length_footer]
  decide

theorem fits_oneEmpty : Fits metadataCodec [0xEF] oneEmpty := by
  intro memblock h
  rw [write_eq metadataCodec [0xEF] (by decide) (by decide)] at h
  obtain rfl := Option.some.inj h
  rw [List.length_append, List.length_append, length_footer]
  decide

/-- An empty file in front of one of a byte comes back. -/
theorem round_trip_iff_emptyThenByte : metadataCodec.Lawful ∧
    Fits metadataCodec [0xEF] emptyThenByte ∧ RoundTrips metadataCodec [0xEF] emptyThenByte :=
  ⟨lawful_metadataCodec, fits_emptyThenByte,
    ((round_trip_iff metadataCodec lawful_metadataCodec [0xEF]).1 emptyThenByte (by decide)
      (by decide) (by decide) fits_emptyThenByte).mpr (by rintro _ ⟨⟩; decide)⟩

/-- A last file without a byte is not accepted. -/
theorem round_trip_empty : ¬ ∀ (codec : Codec), codec.Lawful → ∀ (magic : Bytes)
    (files : List File), files ≠ [] → (files.map File.name).Nodup →
    (∀ file ∈ files, file.Addable) → Fits codec magic files → RoundTrips codec magic files := by
  intro h
  have hround := h metadataCodec lawful_metadataCodec [0xEF] oneEmpty (by decide) (by decide)
    (by decide) fits_oneEmpty
  have hlast := (roundTrips_iff lawful_metadataCodec (by decide) (by decide) (by decide)
    fits_oneEmpty).mp hround
  exact hlast _ rfl rfl

end MozkeyDataSet
