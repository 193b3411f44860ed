import Mozkey.ByteStringProofs
import Mozkey.SubstringProofs

/-! # DecodeChunkedBody — a chunked HTTP body decoded again after every read

    The answer of the llama server may come in chunks.  `PostLlamaHttpCompletion` appends
    what it reads to `body_prefix` and runs `DecodeChunkedBody` on all of it from the
    start.  A sender's encoding is a list of chunks, a last chunk and trailer fields;
    the structures say what a sender may write. -/

namespace MozkeyHttp

open ByteString Substring

/-! ## The decoder -/

/-- The longest response that is read. -/
abbrev kMaxHttpResponseBytes : Nat := 64 * 1024

/-- `"\r\n"`. -/
def crlf : Bytes := [0x0D, 0x0A]

/-- The characters that `TrimAscii` removes. -/
def isAsciiBlank (c : UInt8) : Bool := c == 0x20 || c == 0x09 || c == 0x0D || c == 0x0A

/-- `TrimAscii`. -/
def trimAscii (input : Bytes) : Bytes := (input.dropWhile isAsciiBlank).rdropWhile isAsciiBlank

/-- `HexValue`; `ParseHexSize` spells it out again. -/
def hexValue (c : UInt8) : Option Nat :=
  if 0x30 ≤ c ∧ c ≤ 0x39 then some (c.toNat - 0x30)
  else if 0x61 ≤ c ∧ c ≤ 0x66 then some (c.toNat - 0x61 + 10)
  else if 0x41 ≤ c ∧ c ≤ 0x46 then some (c.toNat - 0x41 + 10)
  else none

/-- The loop of `ParseHexSize`. -/
def parseHexLoop : Bytes → Nat → Option Nat
  | [], parsed => some parsed
  | c :: text, parsed =>
    match hexValue c with
    | none => none
    | some digit =>
      if parsed > (2 ^ 64 - 1 - digit) / 16 then none
      else parseHexLoop text (parsed * 16 + digit)

/-- What `ParseHexSize` reads as the number: the text before a semicolon. -/
def sizeText (text : Bytes) : Bytes :=
  match find [0x3B] (trimAscii text) with
  | some semicolon => trimAscii ((trimAscii text).take semicolon)
  | none => trimAscii text

/-- `ParseHexSize`: up to the extensions. -/
def parseHexSize (text : Bytes) : Option Nat :=
  if sizeText text = [] then none else parseHexLoop (sizeText text) 0

/-- How a decoding ends. -/
inductive ChunkDecodeResult where
  | complete
  | needMore
  | error
  deriving DecidableEq

/-- The result of `DecodeChunkedBody` with its `decoded` and `debug`. -/
structure ChunkDecode where
  result : ChunkDecodeResult
  decoded : Bytes
  debug : Bytes
  deriving DecidableEq

/-- The loop of `DecodeChunkedBody` on the bytes from `position` on.  A round passes a
    line, so the number of bytes is fuel enough. -/
def decodeLoop : Nat → Bytes → Bytes → ChunkDecode
  | 0, _, decoded => ⟨.needMore, decoded, []⟩
  | fuel + 1, encoded, decoded =>
    match find crlf encoded with
    | none => ⟨.needMore, decoded, []⟩
    | some lineEnd =>
      match parseHexSize (encoded.take lineEnd) with
      | none => ⟨.error, decoded, ascii "http_chunk_size_invalid"⟩
      | some chunkSize =>
        let rest := encoded.drop (lineEnd + 2)
        if chunkSize = 0 then
          if (find (crlf ++ crlf) rest).isSome then ⟨.complete, decoded, []⟩
          else if 2 ≤ rest.length ∧ rest.take 2 = crlf then ⟨.complete, decoded, []⟩
          else ⟨.needMore, decoded, []⟩
        else if chunkSize > kMaxHttpResponseBytes ∨
            decoded.length > kMaxHttpResponseBytes - chunkSize then
          ⟨.error, decoded, ascii "http_response_too_large"⟩
        else if rest.length < chunkSize + 2 then ⟨.needMore, decoded, []⟩
        else if (rest.drop chunkSize).take 2 ≠ crlf then
          ⟨.error, decoded ++ rest.take chunkSize, ascii "http_chunk_terminator_invalid"⟩
        else decodeLoop fuel (rest.drop (chunkSize + 2)) (decoded ++ rest.take chunkSize)

/-- `DecodeChunkedBody`. -/
def decodeChunkedBody (encoded : Bytes) : ChunkDecode := decodeLoop encoded.length encoded []

/-- The read loop of `PostLlamaHttpCompletion` for a chunked body, once the headers are
    parsed: `body_prefix` and what the next reads give until the end of the stream.
    A deadline that passes is not modelled. -/
def readChunkedBody : Bytes → List Bytes → Except Bytes Bytes
  | bodyPrefix, [] =>
    match (decodeChunkedBody bodyPrefix).result with
    | .complete => .ok (decodeChunkedBody bodyPrefix).decoded
    | .error => .error (decodeChunkedBody bodyPrefix).debug
    | .needMore => .error (ascii "http_chunked_body_truncated")
  | bodyPrefix, buffer :: reads =>
    match (decodeChunkedBody bodyPrefix).result with
    | .complete => .ok (decodeChunkedBody bodyPrefix).decoded
    | .error => .error (decodeChunkedBody bodyPrefix).debug
    | .needMore =>
      if bodyPrefix.length + buffer.length > kMaxHttpResponseBytes then
        .error (ascii "http_response_too_large")
      else readChunkedBody (bodyPrefix ++ buffer) reads

/-! ## What a sender writes -/

/-- A text without a line end in it. -/
def CrlfFree (text : Bytes) : Prop := ¬ crlf <:+: text

/-- The number that hexadecimal digits write. -/
def hexNumber (digits : Bytes) : Option Nat :=
  (digits.mapM hexValue).map (List.foldl (fun n digit => n * 16 + digit) 0)

/-- The size line of a chunk: a number in hexadecimal digits, then an extension behind
    blanks and a semicolon, or blanks alone. -/
structure SizeLine (size : Nat) where
  digits : Bytes
  blanks : Bytes
  extension : Bytes
  nonempty : digits ≠ []
  number : hexNumber digits = some size
  blank : ∀ c ∈ blanks, isAsciiBlank c = true
  semicolon : extension = [] ∨ ∃ text, extension = 0x3B :: text
  line : CrlfFree (blanks ++ extension)

/-- The text of a size line. -/
def SizeLine.text {size : Nat} (line : SizeLine size) : Bytes :=
  line.digits ++ (line.blanks ++ line.extension)

/-- A chunk with its size line. -/
structure Chunk where
  data : Bytes
  nonempty : data ≠ []
  sizeLine : SizeLine data.length

/-- The last chunk, of size zero, and the trailer fields behind it. -/
structure LastChunk where
  sizeLine : SizeLine 0
  trailer : List Bytes
  field : ∀ text ∈ trailer, text ≠ [] ∧ CrlfFree text

/-- The bytes of a chunk. -/
def Chunk.encode (chunk : Chunk) : Bytes :=
  chunk.sizeLine.text ++ crlf ++ (chunk.data ++ crlf)

/-- The bytes of a trailer and the empty line that ends it. -/
def encodeTrailer (trailer : List Bytes) : Bytes := trailer.flatMap (· ++ crlf) ++ crlf

/-- The bytes of the last chunk. -/
def LastChunk.encode (last : LastChunk) : Bytes :=
  last.sizeLine.text ++ crlf ++ encodeTrailer last.trailer

/-- The bytes of a body. -/
def encodeBody (chunks : List Chunk) (last : LastChunk) : Bytes :=
  chunks.flatMap Chunk.encode ++ last.encode

/-- The data of the chunks. -/
def bodyOf (chunks : List Chunk) : Bytes := chunks.flatMap Chunk.data

/-! ## Size lines -/

theorem hexValue_digit : ∀ c : UInt8, (hexValue c).isSome = true →
    isAsciiBlank c = false ∧ c ≠ 0x3B ∧ c ≠ 0x0D := by
  decide +kernel

theorem hexValue_lt : ∀ c : UInt8, ∀ d ∈ hexValue c, d < 16 := by
  decide +kernel

theorem blank_ne_semicolon : ∀ c : UInt8, isAsciiBlank c = true → c ≠ 0x3B := by
  decide +kernel

variable {c : UInt8}

theorem mapM_cons_some {text : Bytes} {ds : List Nat} (h : (c :: text).mapM hexValue = some ds) :
    ∃ d rest, hexValue c = some d ∧ text.mapM hexValue = some rest ∧ ds = d :: rest := by
  rw [List.mapM_cons] at h
  obtain ⟨d, hd, h⟩ := Option.bind_eq_some_iff.mp h
  obtain ⟨rest, hrest, h⟩ := Option.bind_eq_some_iff.mp h
  exact ⟨d, rest, hd, hrest, (Option.some.inj h).symm⟩

theorem hexValue_isSome_of_mapM : ∀ {text : Bytes} {ds : List Nat},
    text.mapM hexValue = some ds → ∀ c ∈ text, (hexValue c).isSome = true := by
  intro text
  induction text with
  | nil => intro ds _ c hc; exact absurd hc List.not_mem_nil
  | cons x text ih =>
    intro ds h c hc
    obtain ⟨d, rest, hd, hrest, -⟩ := mapM_cons_some h
    rcases List.mem_cons.mp hc with rfl | hc
    · rw [hd]; rfl
    · exact ih hrest c hc

theorem le_foldl (ds : List Nat) : ∀ n : Nat,
    n ≤ ds.foldl (fun n digit => n * 16 + digit) n := by
  induction ds with
  | nil => intro n; exact Nat.le_refl n
  | cons d ds ih =>
    intro n
    rw [List.foldl_cons]
    have := ih (n * 16 + d)
    omega

/-- The loop reads the number, as no part of it overflows a `size_t`. -/
theorem parseHexLoop_eq : ∀ {text : Bytes} {ds : List Nat} {parsed : Nat},
    text.mapM hexValue = some ds →
    ds.foldl (fun n digit => n * 16 + digit) parsed < 2 ^ 64 →
    parseHexLoop text parsed = some (ds.foldl (fun n digit => n * 16 + digit) parsed) := by
  intro text
  induction text with
  | nil =>
    intro ds parsed h _
    have hds : ds = [] := (Option.some.inj h).symm
    rw [hds]
    rfl
  | cons c text ih =>
    intro ds parsed h hlt
    obtain ⟨d, rest, hd, hrest, rfl⟩ := mapM_cons_some h
    rw [List.foldl_cons] at hlt ⊢
    have hle := le_foldl rest (parsed * 16 + d)
    have hd16 := hexValue_lt c d hd
    rw [parseHexLoop, hd]
    dsimp only
    rw [if_neg (by omega)]
    exact ih hrest hlt

theorem trimAscii_digits {digits blanks : Bytes}
    (hdigits : ∀ c ∈ digits, isAsciiBlank c = false) (hne : digits ≠ [])
    (hblanks : ∀ c ∈ blanks, isAsciiBlank c = true) : trimAscii (digits ++ blanks) = digits := by
  have hfront : (digits ++ blanks).dropWhile isAsciiBlank = digits ++ blanks := by
    cases digits with
    | nil => exact absurd rfl hne
    | cons c digits =>
      rw [List.cons_append, List.dropWhile_cons_of_neg]
      rw [hdigits c List.mem_cons_self]
      exact Bool.false_ne_true
  have hback : digits.reverse.dropWhile isAsciiBlank = digits.reverse := by
    cases hrev : digits.reverse with
    | nil => rfl
    | cons c rest =>
      rw [List.dropWhile_cons_of_neg]
      have hc : c ∈ digits := List.mem_reverse.mp (hrev ▸ List.mem_cons_self)
      rw [hdigits c hc]
      exact Bool.false_ne_true
  rw [trimAscii, hfront, List.rdropWhile, List.reverse_append,
    List.dropWhile_append_of_pos (fun c hc => hblanks c (List.mem_reverse.mp hc)), hback,
    List.reverse_reverse]

theorem trimAscii_extension {digits blanks text : Bytes}
    (hdigits : ∀ c ∈ digits, isAsciiBlank c = false) (hne : digits ≠ []) :
    ∃ text', trimAscii (digits ++ (blanks ++ 0x3B :: text))
      = digits ++ blanks ++ 0x3B :: text' := by
  have hfront : (digits ++ (blanks ++ 0x3B :: text)).dropWhile isAsciiBlank
      = digits ++ (blanks ++ 0x3B :: text) := by
    cases digits with
    | nil => exact absurd rfl hne
    | cons c digits =>
      rw [List.cons_append, List.dropWhile_cons_of_neg]
      rw [hdigits c List.mem_cons_self]
      exact Bool.false_ne_true
  have hstop : ∀ l : Bytes, (0x3B :: l).dropWhile isAsciiBlank = 0x3B :: l := fun l =>
    List.dropWhile_cons_of_neg (by decide)
  have hsplit : (digits ++ (blanks ++ 0x3B :: text)).reverse
      = text.reverse ++ 0x3B :: (digits ++ blanks).reverse := by
    rw [← List.append_assoc, List.reverse_append, List.reverse_cons, List.append_assoc]
    rfl
  rw [trimAscii, hfront, List.rdropWhile, hsplit, List.dropWhile_append]
  split
  · refine ⟨[], ?_⟩
    rw [hstop, List.reverse_cons, List.reverse_reverse]
  · refine ⟨(text.reverse.dropWhile isAsciiBlank).reverse, ?_⟩
    rw [List.reverse_append, List.reverse_cons, List.reverse_reverse, List.append_assoc]
    rfl

theorem SizeLine.digit {size : Nat} (line : SizeLine size) :
    ∀ c ∈ line.digits, (hexValue c).isSome = true := by
  obtain ⟨ds, hds, -⟩ := Option.map_eq_some_iff.mp line.number
  exact hexValue_isSome_of_mapM hds

variable {size : Nat}

theorem sizeText_text (line : SizeLine size) : sizeText line.text = line.digits := by
  have hdigits : ∀ c ∈ line.digits, isAsciiBlank c = false := fun c hc =>
    (hexValue_digit c (line.digit c hc)).1
  have htrim := trimAscii_digits hdigits line.nonempty line.blank
  have hno : (0x3B : UInt8) ∉ line.digits := fun hc =>
    (hexValue_digit _ (line.digit _ hc)).2.1 rfl
  have hno' : (0x3B : UInt8) ∉ line.digits ++ line.blanks := fun hc => by
    rcases List.mem_append.mp hc with hc | hc
    · exact hno hc
    · exact blank_ne_semicolon _ (line.blank _ hc) rfl
  rw [sizeText, SizeLine.text]
  rcases line.semicolon with hext | ⟨text, hext⟩
  · rw [hext, List.append_nil, htrim, find_eq_none_of_notMem hno]
  · obtain ⟨text', htext⟩ :=
      @trimAscii_extension line.digits line.blanks text hdigits line.nonempty
    have hfind : find [0x3B] (line.digits ++ line.blanks ++ 0x3B :: text')
        = some (line.digits ++ line.blanks).length := by
      rw [find_append_of_notMem hno',
        find_eq_zero (show [0x3B] <+: 0x3B :: text' from List.prefix_append [0x3B] text'),
        Option.map_some, Nat.add_zero]
    rw [hext, htext, hfind]
    dsimp only
    rw [List.take_left, htrim]

/-- **THE SIZE LINE** says the size of the chunk. -/
theorem parseHexSize_text (line : SizeLine size) (hsize : size < 2 ^ 64) :
    parseHexSize line.text = some size := by
  obtain ⟨ds, hds, hvalue⟩ := Option.map_eq_some_iff.mp line.number
  rw [parseHexSize, sizeText_text, if_neg line.nonempty,
    parseHexLoop_eq hds (by rw [hvalue]; exact hsize), hvalue]

/-! ## Line ends -/

theorem crlf_prefix_cons {rest : Bytes} :
    crlf <+: c :: rest ↔ c = 0x0D ∧ [0x0A] <+: rest := by
  rw [crlf, List.cons_prefix_cons]
  constructor
  · rintro ⟨h, hrest⟩; exact ⟨h.symm, hrest⟩
  · rintro ⟨h, hrest⟩; exact ⟨h.symm, hrest⟩

theorem lf_prefix_cons {rest : Bytes} : [0x0A] <+: c :: rest ↔ c = 0x0A := by
  rw [List.cons_prefix_cons]
  constructor
  · rintro ⟨h, -⟩; exact h.symm
  · intro h; exact ⟨h.symm, List.nil_prefix⟩

theorem CrlfFree.tail {c : UInt8} {text : Bytes} (h : CrlfFree (c :: text)) : CrlfFree text :=
  fun hinf => h (hinf.trans (List.suffix_cons c text).isInfix)

/-- No line end starts inside a text that has none, whatever part of a line end and of
    what is behind it follows. -/
theorem CrlfFree.not_prefix {c : UInt8} {text tail : Bytes} (h : CrlfFree (c :: text)) :
    ¬ crlf <+: c :: text ++ crlf ++ tail := by
  intro hp
  rw [List.append_assoc, List.cons_append] at hp
  obtain ⟨rfl, hlf⟩ := crlf_prefix_cons.mp hp
  cases text with
  | nil => exact absurd (lf_prefix_cons.mp hlf) (by decide)
  | cons d text =>
    have hd : d = 0x0A := lf_prefix_cons.mp hlf
    subst hd
    exact h (List.prefix_append crlf text).isInfix

theorem find_crlf : ∀ {text : Bytes} (tail : Bytes), CrlfFree text →
    find crlf (text ++ crlf ++ tail) = some text.length := by
  intro text
  induction text with
  | nil => intro tail _; exact find_eq_zero (List.prefix_append crlf tail)
  | cons c text ih =>
    intro tail h
    have hne : ¬ crlf <+: c :: text ++ crlf ++ tail := h.not_prefix
    rw [List.cons_append, List.cons_append] at hne ⊢
    rw [find_cons_of_not hne, ih tail h.tail]
    rfl

/-- A part of a line, without all of its line end, has no line end. -/
theorem find_crlf_cut : ∀ {text p : Bytes}, CrlfFree text → p <+: text ++ crlf →
    p ≠ text ++ crlf → find crlf p = none := by
  intro text
  induction text with
  | nil =>
    intro p _ hp hne
    rw [find_eq_none_iff]
    intro hinf
    exact hne (List.IsPrefix.eq_of_length_le hp hinf.length_le)
  | cons c text ih =>
    intro p h hp hne
    cases p with
    | nil => rfl
    | cons x p =>
      obtain ⟨rfl, hp'⟩ := List.cons_prefix_cons.mp hp
      have hstart : ¬ crlf <+: x :: p := fun hcr =>
        @CrlfFree.not_prefix x text [] h (by
          rw [List.append_nil]
          exact hcr.trans hp)
      rw [find_cons_of_not hstart, ih h.tail hp' (fun heq => hne (by rw [heq]; rfl))]
      rfl

/-! ## The trailer -/

/-- A trailer, whole or a part of it, starts with a line end only if it is the empty
    line alone. -/
theorem not_crlf_prefix_trailer {trailer : List Bytes}
    (h : ∀ text ∈ trailer, text ≠ [] ∧ CrlfFree text) (hne : trailer ≠ []) (tail : Bytes) :
    ¬ crlf <+: encodeTrailer trailer ++ tail := by
  cases trailer with
  | nil => exact absurd rfl hne
  | cons text trailer =>
    obtain ⟨hnonempty, hfree⟩ := h text List.mem_cons_self
    cases text with
    | nil => exact absurd rfl hnonempty
    | cons c text =>
      rw [encodeTrailer, List.flatMap_cons, List.append_assoc, List.append_assoc]
      exact hfree.not_prefix

variable {p : Bytes}

theorem not_crlf_prefix_cut {trailer : List Bytes} (h : ∀ text ∈ trailer, text ≠ [] ∧ CrlfFree text)
    (hp : p <+: encodeTrailer trailer) (hne : p ≠ encodeTrailer trailer) : ¬ crlf <+: p := by
  intro hcr
  by_cases hnil : trailer = []
  · subst hnil
    exact hne (List.IsPrefix.eq_of_length_le hp hcr.length_le)
  · have := not_crlf_prefix_trailer h hnil []
    rw [List.append_nil] at this
    exact this (hcr.trans hp)

/-- One field: the induction is on the field, so that it covers every cut in it. -/
theorem find_double_cut_field {behind : Bytes}
    (hstart : ∀ p, p <+: behind → p ≠ behind → ¬ crlf <+: p)
    (hbehind : ∀ p, p <+: behind → p ≠ behind → find (crlf ++ crlf) p = none) :
    ∀ {text p : Bytes}, CrlfFree text → p <+: text ++ crlf ++ behind →
      p ≠ text ++ crlf ++ behind → find (crlf ++ crlf) p = none := by
  intro text
  induction text with
  | nil =>
    intro p _ hp hne
    cases p with
    | nil => rfl
    | cons x p =>
      cases p with
      | nil =>
        rw [find_eq_none_iff]
        intro hinf
        exact absurd (show 4 ≤ 1 from hinf.length_le) (by decide)
      | cons y p =>
        have hline : x :: y :: p <+: 0x0D :: 0x0A :: behind := hp
        obtain ⟨rfl, htail⟩ := List.cons_prefix_cons.mp hline
        obtain ⟨rfl, hrest⟩ := List.cons_prefix_cons.mp htail
        have hcut : p ≠ behind := fun heq => hne (by rw [heq]; rfl)
        have hfirst : ¬ (crlf ++ crlf) <+: 0x0D :: 0x0A :: p := fun hd =>
          hstart p hrest hcut (List.cons_prefix_cons.mp (List.cons_prefix_cons.mp hd).2).2
        have hsecond : ¬ (crlf ++ crlf) <+: 0x0A :: p := fun hd =>
          absurd (List.cons_prefix_cons.mp hd).1 (by decide)
        rw [find_cons_of_not hfirst, find_cons_of_not hsecond, hbehind p hrest hcut]
        rfl
  | cons c text ih =>
    intro p h hp hne
    cases p with
    | nil => rfl
    | cons x p =>
      have hstart' : ¬ (crlf ++ crlf) <+: x :: p := fun hd =>
        h.not_prefix ((List.prefix_append crlf crlf).trans (hd.trans hp))
      obtain ⟨rfl, hp'⟩ := List.cons_prefix_cons.mp hp
      rw [find_cons_of_not hstart', ih h.tail hp' (fun heq => hne (by rw [heq]; rfl))]
      rfl

theorem find_double_cut : ∀ {trailer : List Bytes} {p : Bytes},
    (∀ text ∈ trailer, text ≠ [] ∧ CrlfFree text) → p <+: encodeTrailer trailer →
    p ≠ encodeTrailer trailer → find (crlf ++ crlf) p = none := by
  intro trailer
  induction trailer with
  | nil =>
    intro p _ hp _
    rw [find_eq_none_iff]
    intro hinf
    exact absurd (hinf.length_le.trans hp.length_le) (by decide)
  | cons text trailer ih =>
    intro p h hp hne
    have hrest := fun text' hmem => h text' (List.mem_cons_of_mem text hmem)
    rw [encodeTrailer, List.flatMap_cons, List.append_assoc] at hp hne
    exact find_double_cut_field (fun q hq hcut => not_crlf_prefix_cut hrest hq hcut)
      (fun q hq hcut => ih hrest hq hcut) (h text List.mem_cons_self).2 hp hne

theorem double_infix_trailer : ∀ {trailer : List Bytes}, trailer ≠ [] →
    crlf ++ crlf <:+: encodeTrailer trailer := by
  intro trailer hne
  obtain ⟨front, text, rfl⟩ := List.eq_nil_or_concat trailer |>.resolve_left hne
  refine ⟨front.flatMap (· ++ crlf) ++ text, [], ?_⟩
  rw [encodeTrailer, List.concat_eq_append, List.flatMap_append, List.flatMap_singleton]
  simp only [List.append_assoc, List.append_nil]

/-! ## The decoder on an encoding -/

theorem SizeLine.crlfFree (line : SizeLine size) : CrlfFree line.text := by
  have hno : (0x0D : UInt8) ∉ line.digits := fun hc =>
    (hexValue_digit _ (line.digit _ hc)).2.2 rfl
  have hfind : find crlf (line.blanks ++ line.extension) = none := find_eq_none_iff.mpr line.line
  rw [CrlfFree, ← find_eq_none_iff, SizeLine.text, crlf, find_append_of_notMem hno, ← crlf, hfind]
  rfl

theorem decodeLoop_line (line : SizeLine size) (hsize : size < 2 ^ 64) (fuel : Nat)
    (rest decoded : Bytes) :
    decodeLoop (fuel + 1) (line.text ++ crlf ++ rest) decoded =
      if size = 0 then
        if (find (crlf ++ crlf) rest).isSome then ⟨.complete, decoded, []⟩
        else if 2 ≤ rest.length ∧ rest.take 2 = crlf then ⟨.complete, decoded, []⟩
        else ⟨.needMore, decoded, []⟩
      else if size > kMaxHttpResponseBytes ∨ decoded.length > kMaxHttpResponseBytes - size then
        ⟨.error, decoded, ascii "http_response_too_large"⟩
      else if rest.length < size + 2 then ⟨.needMore, decoded, []⟩
      else if (rest.drop size).take 2 ≠ crlf then
        ⟨.error, decoded ++ rest.take size, ascii "http_chunk_terminator_invalid"⟩
      else decodeLoop fuel (rest.drop (size + 2)) (decoded ++ rest.take size) := by
  have htake : (line.text ++ crlf ++ rest).take line.text.length = line.text := by
    rw [List.append_assoc, List.take_left]
  have hdrop : (line.text ++ crlf ++ rest).drop (line.text.length + 2) = rest :=
    List.drop_left' (by rw [List.length_append]; rfl)
  rw [decodeLoop, find_crlf rest line.crlfFree]
  dsimp only
  rw [htake, parseHexSize_text line hsize, hdrop]

theorem decodeLoop_line_cut (line : SizeLine size) (fuel : Nat) (decoded : Bytes)
    (hp : p <+: line.text ++ crlf) (hne : p ≠ line.text ++ crlf) :
    decodeLoop fuel p decoded = ⟨.needMore, decoded, []⟩ := by
  cases fuel with
  | zero => rfl
  | succ fuel => rw [decodeLoop, find_crlf_cut line.crlfFree hp hne]

variable {decoded : Bytes}

/-- A whole chunk is decoded. -/
theorem decodeLoop_chunk (chunk : Chunk) (fuel : Nat) (tail : Bytes)
    (hfits : decoded.length + chunk.data.length ≤ kMaxHttpResponseBytes) :
    decodeLoop (fuel + 1) (chunk.encode ++ tail) decoded
      = decodeLoop fuel tail (decoded ++ chunk.data) := by
  have hpos : 0 < chunk.data.length := List.length_pos_iff.mpr chunk.nonempty
  have hrest : chunk.data ++ crlf ++ tail = chunk.data ++ (crlf ++ tail) := List.append_assoc ..
  have hlen : (chunk.data ++ (crlf ++ tail)).length = chunk.data.length + (2 + tail.length) := by
    rw [List.length_append, List.length_append]; rfl
  have hmax : kMaxHttpResponseBytes = 65536 := rfl
  rw [Chunk.encode, List.append_assoc (chunk.sizeLine.text ++ crlf),
    decodeLoop_line chunk.sizeLine (by omega), if_neg (by omega), if_neg (by omega), hrest,
    if_neg (by rw [hlen]; omega), List.drop_left, if_neg (fun h => h rfl), List.take_left,
    ← List.drop_drop, List.drop_left]
  rfl

theorem cut_append {a b : Bytes} (hp : p <+: a ++ b) (hne : p ≠ a ++ b) :
    (p <+: a ∧ p ≠ a) ∨ ∃ q, p = a ++ q ∧ q <+: b ∧ q ≠ b := by
  rcases List.prefix_or_prefix_of_prefix hp (List.prefix_append a b) with hpa | ⟨q, rfl⟩
  · by_cases heq : p = a
    · refine Or.inr ⟨[], by rw [heq, List.append_nil], List.nil_prefix, fun hb => hne ?_⟩
      rw [heq, ← hb, List.append_nil]
    · exact Or.inl ⟨hpa, heq⟩
  · exact Or.inr ⟨q, rfl, (List.prefix_append_right_inj a).mp hp, fun hb => hne (by rw [hb])⟩

theorem decodeLoop_chunk_cut (chunk : Chunk) (fuel : Nat)
    (hfits : decoded.length + chunk.data.length ≤ kMaxHttpResponseBytes) (hp : p <+: chunk.encode)
    (hne : p ≠ chunk.encode) :
    decodeLoop fuel p decoded = ⟨.needMore, decoded, []⟩ := by
  have hpos : 0 < chunk.data.length := List.length_pos_iff.mpr chunk.nonempty
  have hmax : kMaxHttpResponseBytes = 65536 := rfl
  rw [Chunk.encode] at hp hne
  rcases cut_append hp hne with ⟨hline, hcut⟩ | ⟨q, rfl, hq, hcut⟩
  · exact decodeLoop_line_cut chunk.sizeLine fuel decoded hline hcut
  · cases fuel with
    | zero => rfl
    | succ fuel =>
      have hlen : (chunk.data ++ crlf).length = chunk.data.length + 2 := List.length_append
      have hshort : q.length < chunk.data.length + 2 := by
        have hle := hq.length_le
        have hlt : q.length ≠ (chunk.data ++ crlf).length := fun h => hcut (hq.eq_of_length h)
        omega
      rw [decodeLoop_line chunk.sizeLine (by omega), if_neg (by omega), if_neg (by omega),
        if_pos hshort]

theorem decodeLoop_last (last : LastChunk) (fuel : Nat) (decoded tail : Bytes) :
    decodeLoop (fuel + 1) (last.encode ++ tail) decoded = ⟨.complete, decoded, []⟩ := by
  rw [LastChunk.encode, List.append_assoc, decodeLoop_line last.sizeLine (by decide), if_pos rfl]
  split
  · rfl
  · rename_i hnone
    by_cases hnil : last.trailer = []
    · rw [hnil, if_pos]
      constructor
      · rw [List.length_append]
        exact Nat.le_add_right 2 _
      · show (crlf ++ tail).take crlf.length = crlf
        rw [List.take_left]
    · have hinf := (double_infix_trailer hnil).trans (List.prefix_append _ tail).isInfix
      exact absurd (find_isSome_of_isInfix hinf) hnone

/-- The last chunk without all of its bytes does not end the body. -/
theorem decodeLoop_last_cut (last : LastChunk) (fuel : Nat) (hp : p <+: last.encode)
    (hne : p ≠ last.encode) :
    decodeLoop fuel p decoded = ⟨.needMore, decoded, []⟩ := by
  rw [LastChunk.encode] at hp hne
  rcases cut_append hp hne with ⟨hline, hcut⟩ | ⟨q, rfl, hq, hcut⟩
  · exact decodeLoop_line_cut last.sizeLine fuel decoded hline hcut
  · cases fuel with
    | zero => rfl
    | succ fuel =>
      have hend : ¬ (2 ≤ q.length ∧ q.take 2 = crlf) := fun h =>
        not_crlf_prefix_cut last.field hq hcut (h.2 ▸ List.take_prefix 2 q)
      rw [decodeLoop_line last.sizeLine (by decide), if_pos rfl,
        find_double_cut last.field hq hcut]
      exact if_neg hend

/-! ## The whole body -/

theorem encodeBody_cons (chunk : Chunk) (chunks : List Chunk) (last : LastChunk) :
    encodeBody (chunk :: chunks) last = chunk.encode ++ encodeBody chunks last := by
  rw [encodeBody, List.flatMap_cons, List.append_assoc]
  rfl

theorem length_bodyOf_cons (chunk : Chunk) (chunks : List Chunk) :
    (bodyOf (chunk :: chunks)).length = chunk.data.length + (bodyOf chunks).length := by
  rw [bodyOf, List.flatMap_cons, List.length_append]
  rfl

theorem decodeLoop_encodeBody (last : LastChunk) (tail : Bytes) : ∀ {chunks : List Chunk}
    {fuel : Nat} {decoded : Bytes},
    decoded.length + (bodyOf chunks).length ≤ kMaxHttpResponseBytes → chunks.length < fuel →
    decodeLoop fuel (encodeBody chunks last ++ tail) decoded
      = ⟨.complete, decoded ++ bodyOf chunks, []⟩ := by
  intro chunks
  induction chunks with
  | nil =>
    intro fuel decoded _ hfuel
    obtain ⟨k, rfl⟩ : ∃ k, fuel = k + 1 := ⟨fuel - 1, by omega⟩
    rw [encodeBody, List.flatMap_nil, List.nil_append, decodeLoop_last, bodyOf, List.flatMap_nil,
      List.append_nil]
  | cons chunk chunks ih =>
    intro fuel decoded hfits hfuel
    obtain ⟨k, rfl⟩ : ∃ k, fuel = k + 1 := ⟨fuel - 1, by omega⟩
    rw [length_bodyOf_cons] at hfits
    rw [List.length_cons] at hfuel
    rw [encodeBody_cons, List.append_assoc, decodeLoop_chunk chunk k _ (by omega),
      ih (by rw [List.length_append]; omega) (by omega), List.append_assoc]
    rfl

/-- **A PART OF AN ENCODING** needs more, wherever it is cut. -/
theorem decodeLoop_cut (last : LastChunk) : ∀ {chunks : List Chunk} {fuel : Nat}
    {p decoded : Bytes},
    decoded.length + (bodyOf chunks).length ≤ kMaxHttpResponseBytes →
    p <+: encodeBody chunks last → p ≠ encodeBody chunks last →
    (decodeLoop fuel p decoded).result = .needMore := by
  intro chunks
  induction chunks with
  | nil =>
    intro fuel p decoded _ hp hne
    rw [encodeBody, List.flatMap_nil, List.nil_append] at hp hne
    rw [decodeLoop_last_cut last fuel hp hne]
  | cons chunk chunks ih =>
    intro fuel p decoded hfits hp hne
    rw [length_bodyOf_cons] at hfits
    rw [encodeBody_cons] at hp hne
    rcases cut_append hp hne with ⟨hchunk, hcut⟩ | ⟨q, rfl, hq, hcut⟩
    · rw [decodeLoop_chunk_cut chunk fuel (by omega) hchunk hcut]
    · cases fuel with
      | zero => rfl
      | succ fuel =>
        rw [decodeLoop_chunk chunk fuel q (by omega)]
        exact ih (by rw [List.length_append]; omega) hq hcut

theorem length_lt_encodeBody (chunks : List Chunk) (last : LastChunk) :
    chunks.length < (encodeBody chunks last).length := by
  induction chunks with
  | nil =>
    rw [encodeBody, List.flatMap_nil, List.nil_append, LastChunk.encode, List.length_append,
      List.length_append, List.length_nil, show crlf.length = 2 from rfl]
    omega
  | cons chunk chunks ih =>
    rw [encodeBody_cons, List.length_append, List.length_cons, Chunk.encode, List.length_append,
      List.length_append, show crlf.length = 2 from rfl]
    omega

variable {chunks : List Chunk}

theorem decodeChunkedBody_encodeBody (last : LastChunk) (tail : Bytes)
    (hfits : (bodyOf chunks).length ≤ kMaxHttpResponseBytes) :
    decodeChunkedBody (encodeBody chunks last ++ tail) = ⟨.complete, bodyOf chunks, []⟩ := by
  have hfuel := length_lt_encodeBody chunks last
  rw [decodeChunkedBody, decodeLoop_encodeBody last tail (by rw [List.length_nil]; omega)
    (by rw [List.length_append]; omega), List.nil_append]

theorem decodeChunkedBody_cut (last : LastChunk)
    (hfits : (bodyOf chunks).length ≤ kMaxHttpResponseBytes) (hp : p <+: encodeBody chunks last)
    (hne : p ≠ encodeBody chunks last) : (decodeChunkedBody p).result = .needMore :=
  decodeLoop_cut last (by rw [List.length_nil]; omega) hp hne

theorem readChunkedBody_encodeBody (last : LastChunk)
    (hfits : (bodyOf chunks).length ≤ kMaxHttpResponseBytes) : ∀ {reads : List Bytes}
    {bodyPrefix : Bytes}, bodyPrefix.length ≤ kMaxHttpResponseBytes →
    bodyPrefix ++ reads.flatten = encodeBody chunks last →
    readChunkedBody bodyPrefix reads =
      if (encodeBody chunks last).length ≤ kMaxHttpResponseBytes then .ok (bodyOf chunks)
      else .error (ascii "http_response_too_large") := by
  have hwhole := decodeChunkedBody_encodeBody last [] hfits
  rw [List.append_nil] at hwhole
  intro reads
  induction reads with
  | nil =>
    intro bodyPrefix hmax heq
    rw [List.flatten_nil, List.append_nil] at heq
    rw [heq] at hmax
    rw [readChunkedBody, heq, hwhole, if_pos hmax]
  | cons buffer reads ih =>
    intro bodyPrefix hmax heq
    rw [readChunkedBody]
    by_cases hend : bodyPrefix = encodeBody chunks last
    · rw [hend] at hmax
      rw [hend, hwhole, if_pos hmax]
    · rw [decodeChunkedBody_cut last hfits ⟨_, heq⟩ hend]
      dsimp only
      rw [List.flatten_cons, ← List.append_assoc] at heq
      split
      · rename_i hlarge
        have hlen := congrArg List.length heq
        rw [List.length_append, List.length_append] at hlen
        rw [if_neg (by omega)]
      · rename_i hsmall
        exact ih (by rw [List.length_append]; omega) heq

/-- **INCREMENTAL DECODING**: the whole encoding gives the body, every part of it asks for
    more, and the read loop gives the body however the reads split the encoding, if it
    is within the limit for the received bytes. -/
theorem incremental_decode (chunks : List Chunk) (last : LastChunk)
    (hfits : (bodyOf chunks).length ≤ kMaxHttpResponseBytes) :
    (∀ tail, decodeChunkedBody (encodeBody chunks last ++ tail) = ⟨.complete, bodyOf chunks, []⟩) ∧
      (∀ p, p <+: encodeBody chunks last → p ≠ encodeBody chunks last →
        (decodeChunkedBody p).result = .needMore) ∧
      ∀ bodyPrefix reads, bodyPrefix.length ≤ kMaxHttpResponseBytes →
        bodyPrefix ++ reads.flatten = encodeBody chunks last →
        readChunkedBody bodyPrefix reads =
          if (encodeBody chunks last).length ≤ kMaxHttpResponseBytes then .ok (bodyOf chunks)
          else .error (ascii "http_response_too_large") := by
  refine ⟨?_, ?_, ?_⟩
  · intro tail
    exact decodeChunkedBody_encodeBody last tail hfits
  · intro p hp hne
    exact decodeChunkedBody_cut last hfits hp hne
  · intro bodyPrefix reads hmax heq
    exact readChunkedBody_encodeBody last hfits hmax heq

/-- A chunk of one letter. -/
def letterChunk : Chunk where
  data := [0x61]
  nonempty := by decide
  sizeLine :=
    { digits := [0x31], blanks := [], extension := [], nonempty := by decide, number := by decide
      blank := fun _ h => absurd h List.not_mem_nil, semicolon := Or.inl rfl
      line := fun h => absurd (show 2 ≤ 0 from h.length_le) (by decide) }

/-- The end of a body without a trailer. -/
def plainLast : LastChunk where
  sizeLine :=
    { digits := [0x30], blanks := [], extension := [], nonempty := by decide, number := by decide
      blank := fun _ h => absurd h List.not_mem_nil, semicolon := Or.inl rfl
      line := fun h => absurd (show 2 ≤ 0 from h.length_le) (by decide) }
  trailer := []
  field := fun _ h => absurd h List.not_mem_nil

/-- A letter that is cut before its line end. -/
theorem incremental_decode_letter :
    decodeChunkedBody (encodeBody [letterChunk] plainLast) = ⟨.complete, [0x61], []⟩ ∧
      (decodeChunkedBody (ascii "1\r\na\r")).result = .needMore ∧
      readChunkedBody (ascii "1\r\na\r") [ascii "\n0\r\n\r\n"] = .ok [0x61] := by
  obtain ⟨hwhole, hcut, hread⟩ := incremental_decode [letterChunk] plainLast (by decide)
  have h := hwhole []
  rw [List.append_nil] at h
  exact ⟨h, hcut _ ⟨ascii "\n0\r\n\r\n", by decide⟩ (by decide),
    (hread _ _ (by decide) (by decide)).trans (if_pos (by decide))⟩

end MozkeyHttp
