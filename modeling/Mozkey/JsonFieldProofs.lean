import Mozkey.ChunkedBodyProofs

/-! # ExtractJsonStringField — a member found by a search in the text

    `ExtractJsonStringField` does not parse: it looks for the quoted field name anywhere
    in the text, then for a colon, then for a string.  Objects are flat, their names and
    values written by `JsonEscapeUtf8`, with blanks wherever JSON allows them. -/

namespace MozkeyHttp

open ByteString Substring

/-! ## Escapes -/

/-- A digit of `%04x`. -/
def hexChar (d : Nat) : UInt8 := UInt8.ofNat (if d < 10 then 0x30 + d else 0x57 + d)

/-- The body of the loop of `JsonEscapeUtf8`. -/
def escapeByte (c : UInt8) : Bytes :=
  if c = 0x5C then [0x5C, 0x5C]
  else if c = 0x22 then [0x5C, 0x22]
  else if c = 0x08 then [0x5C, chr 'b']
  else if c = 0x0C then [0x5C, chr 'f']
  else if c = 0x0A then [0x5C, chr 'n']
  else if c = 0x0D then [0x5C, chr 'r']
  else if c = 0x09 then [0x5C, chr 't']
  else if c < 0x20 then
    [0x5C, chr 'u', chr '0', chr '0', hexChar (c.toNat / 16), hexChar (c.toNat % 16)]
  else [c]

/-- `JsonEscapeUtf8`. -/
def jsonEscapeUtf8 (input : Bytes) : Bytes := input.flatMap escapeByte

/-- `AppendUtf8`: the bytes of a code point, `none` for a surrogate or a number past the
    last one. -/
def appendUtf8 (codepoint : Nat) : Option Bytes :=
  if codepoint > 0x10FFFF ∨ (0xD800 ≤ codepoint ∧ codepoint ≤ 0xDFFF) then none
  else if codepoint ≤ 0x7F then some [UInt8.ofNat codepoint]
  else if codepoint ≤ 0x7FF then
    some [UInt8.ofNat (0xC0 ||| codepoint >>> 6), UInt8.ofNat (0x80 ||| (codepoint &&& 0x3F))]
  else if codepoint ≤ 0xFFFF then
    some [UInt8.ofNat (0xE0 ||| codepoint >>> 12),
      UInt8.ofNat (0x80 ||| (codepoint >>> 6 &&& 0x3F)),
      UInt8.ofNat (0x80 ||| (codepoint &&& 0x3F))]
  else
    some [UInt8.ofNat (0xF0 ||| codepoint >>> 18),
      UInt8.ofNat (0x80 ||| (codepoint >>> 12 &&& 0x3F)),
      UInt8.ofNat (0x80 ||| (codepoint >>> 6 &&& 0x3F)),
      UInt8.ofNat (0x80 ||| (codepoint &&& 0x3F))]

/-- The four digits that `ParseUnicodeEscape` reads, and what is behind them. -/
def parseHex4 : Bytes → Option (Nat × Bytes)
  | c0 :: c1 :: c2 :: c3 :: rest =>
    match hexValue c0, hexValue c1, hexValue c2, hexValue c3 with
    | some d0, some d1, some d2, some d3 => some (((d0 * 16 + d1) * 16 + d2) * 16 + d3, rest)
    | _, _, _, _ => none
  | _ => none

/-- `ParseUnicodeEscape` on the text from `position` on. -/
def parseUnicodeEscape (json : Bytes) : Option (Nat × Bytes) :=
  match parseHex4 json with
  | none => none
  | some (first, rest) =>
    if first < 0xD800 ∨ first > 0xDBFF then
      if 0xDC00 ≤ first ∧ first ≤ 0xDFFF then none else some (first, rest)
    else if rest.length < 6 ∨ rest.take 2 ≠ [0x5C, chr 'u'] then none
    else
      match parseHex4 (rest.drop 2) with
      | none => none
      | some (second, rest) =>
        if second < 0xDC00 ∨ second > 0xDFFF then none
        else some (0x10000 + ((first - 0xD800) <<< 10) + (second - 0xDC00), rest)

/-- The escapes of one character. -/
def unescape (escaped : UInt8) : Option UInt8 :=
  if escaped = 0x22 ∨ escaped = 0x5C ∨ escaped = chr '/' then some escaped
  else if escaped = chr 'b' then some 0x08
  else if escaped = chr 'f' then some 0x0C
  else if escaped = chr 'n' then some 0x0A
  else if escaped = chr 'r' then some 0x0D
  else if escaped = chr 't' then some 0x09
  else none

/-- The loop of `ExtractJsonStringField` over a string, with `output`.  A round passes a
    byte, so the number of bytes is fuel enough. -/
def readString : Nat → Bytes → Bytes → Bool × Bytes
  | 0, _, output => (false, output)
  | _ + 1, [], output => (false, output)
  | fuel + 1, c :: rest, output =>
    if c = 0x22 then (true, output)
    else if c ≠ 0x5C then
      if c < 0x20 then (false, output) else readString fuel rest (output ++ [c])
    else
      match rest with
      | [] => (false, output)
      | escaped :: rest =>
        match unescape escaped with
        | some c => readString fuel rest (output ++ [c])
        | none =>
          if escaped = chr 'u' then
            match parseUnicodeEscape rest with
            | none => (false, output)
            | some (codepoint, rest) =>
              match appendUtf8 codepoint with
              | none => (false, output)
              | some bytes => readString fuel rest (output ++ bytes)
          else (false, output)

/-- A string in quotes. -/
def quoted (text : Bytes) : Bytes := 0x22 :: (text ++ [0x22])

/-- `ExtractJsonStringField` with its `output`. -/
def extractJsonStringField (json field : Bytes) : Bool × Bytes :=
  match find (quoted field) json with
  | none => (false, [])
  | some position =>
    let rest := json.drop (position + (quoted field).length)
    match find [0x3A] rest with
    | none => (false, [])
    | some colon =>
      match (rest.drop (colon + 1)).dropWhile isAsciiBlank with
      | [] => (false, [])
      | c :: rest => if c ≠ 0x22 then (false, []) else readString rest.length rest []

/-! ## Flat objects -/

/-- A member whose name and value are strings, with the blanks around its tokens. -/
structure Member where
  name : Bytes
  value : Bytes
  beforeName : Bytes
  beforeColon : Bytes
  beforeValue : Bytes
  afterValue : Bytes
  blank : ∀ c ∈ beforeName ++ beforeColon ++ (beforeValue ++ afterValue), isAsciiBlank c = true

/-- The text of a value and of what is around it, from behind the name on. -/
def Member.rest (m : Member) : Bytes :=
  m.beforeColon ++ 0x3A :: (m.beforeValue ++ quoted (jsonEscapeUtf8 m.value) ++ m.afterValue)

/-- The text of a member. -/
def Member.text (m : Member) : Bytes :=
  m.beforeName ++ (quoted (jsonEscapeUtf8 m.name) ++ m.rest)

/-- A flat object; the blanks are those of an empty one. -/
structure FlatObject where
  blanks : Bytes
  members : List Member
  blank : ∀ c ∈ blanks, isAsciiBlank c = true

/-- The text of members, with commas. -/
def joinMembers : List Member → Bytes
  | [] => []
  | m :: members => m.text ++ members.flatMap (fun m => 0x2C :: m.text)

/-- The text of an object. -/
def FlatObject.text (o : FlatObject) : Bytes :=
  0x7B :: (o.blanks ++ joinMembers o.members ++ [0x7D])

/-- The text of an object before the name of the member behind `before`. -/
def FlatObject.front (o : FlatObject) (before : List Member) (m : Member) : Bytes :=
  0x7B :: (o.blanks ++ before.flatMap (fun m => m.text ++ [0x2C]) ++ m.beforeName)

/-- The right answer: the value of the first member called `field`, or no answer. -/
def Extracts (o : FlatObject) (field : Bytes) : Prop :=
  match o.members.find? (fun m => m.name == field) with
  | some m => extractJsonStringField o.text field = (true, m.value)
  | none => (extractJsonStringField o.text field).1 = false

/-- The first place of the quoted field name is the name of the first member called so,
    and this name needs no escape; or there is neither a member nor a place. -/
def FirstIsName (o : FlatObject) (field : Bytes) : Prop :=
  (∀ m ∈ o.members, m.name ≠ field) ∧ ¬ quoted field <:+: o.text ∨
    ∃ before m after, o.members = before ++ m :: after ∧ m.name = field ∧
      (∀ x ∈ before, x.name ≠ field) ∧ jsonEscapeUtf8 field = field ∧
      ∀ a, a ++ quoted field <+: o.text → (o.front before m).length ≤ a.length

/-! ## The decoder undoes the escapes -/

theorem hexValue_hexChar : ∀ d < 16, hexValue (hexChar d) = some d := by decide

theorem parseUnicodeEscape_control {n : Nat} (hn : n < 0x20) (tail : Bytes) :
    parseUnicodeEscape (chr '0' :: chr '0' :: hexChar (n / 16) :: hexChar (n % 16) :: tail)
      = some (n, tail) := by
  have hzero : hexValue (chr '0') = some 0 := by decide
  have hvalue : ((0 * 16 + 0) * 16 + n / 16) * 16 + n % 16 = n := by omega
  rw [parseUnicodeEscape, parseHex4, hzero, hexValue_hexChar _ (by omega),
    hexValue_hexChar _ (by omega)]
  show (if ((0 * 16 + 0) * 16 + n / 16) * 16 + n % 16 < 0xD800 ∨ _ then _ else _) = _
  rw [hvalue, if_pos (by omega), if_neg (by omega)]

theorem readString_byte {c : UInt8} (hquote : c ≠ 0x22) (hback : c ≠ 0x5C) (hc : ¬ c < 0x20)
    (fuel : Nat) (tail output : Bytes) :
    readString (fuel + 1) (c :: tail) output = readString fuel tail (output ++ [c]) := by
  rw [readString.eq_def]
  dsimp only
  rw [if_neg hquote, if_pos hback, if_neg hc]

theorem readString_control {c : UInt8} (hc : c < 0x20) (fuel : Nat) (tail output : Bytes) :
    readString (fuel + 1) (0x5C :: chr 'u' :: chr '0' :: chr '0' :: hexChar (c.toNat / 16)
      :: hexChar (c.toNat % 16) :: tail) output = readString fuel tail (output ++ [c]) := by
  have hn : c.toNat < 0x20 := UInt8.lt_iff_toNat_lt.mp hc
  have happ : appendUtf8 c.toNat = some [c] := by
    rw [appendUtf8, if_neg (by omega), if_pos (by omega), UInt8.ofNat_toNat]
  rw [readString.eq_def]
  dsimp only
  rw [if_neg (by decide), if_neg (by decide), show unescape (chr 'u') = none from by decide,
    parseUnicodeEscape_control hn]
  dsimp only
  rw [if_pos rfl, happ]

theorem readString_escapeByte (c : UInt8) (fuel : Nat) (tail output : Bytes) :
    readString (fuel + 1) (escapeByte c ++ tail) output = readString fuel tail (output ++ [c]) := by
  rw [escapeByte]
  split_ifs with h1 h2 h3 h4 h5 h6 h7 h8
  · rw [h1]; rfl
  · rw [h2]; rfl
  · rw [h3]; rfl
  · rw [h4]; rfl
  · rw [h5]; rfl
  · rw [h6]; rfl
  · rw [h7]; rfl
  · exact readString_control h8 fuel tail output
  · exact readString_byte h2 h1 h8 fuel tail output

/-- **THE ROUND TRIP** of a string: its escapes and a quote, whatever is behind. -/
theorem readString_escape (tail : Bytes) : ∀ {s output : Bytes} {fuel : Nat}, s.length < fuel →
    readString fuel (jsonEscapeUtf8 s ++ 0x22 :: tail) output = (true, output ++ s) := by
  intro s
  induction s with
  | nil =>
    intro output fuel hfuel
    obtain ⟨k, rfl⟩ : ∃ k, fuel = k + 1 := ⟨fuel - 1, by omega⟩
    rw [jsonEscapeUtf8, List.flatMap_nil, List.nil_append, readString.eq_def, List.append_nil]
    exact if_pos rfl
  | cons c s ih =>
    intro output fuel hfuel
    obtain ⟨k, rfl⟩ : ∃ k, fuel = k + 1 := ⟨fuel - 1, by omega⟩
    rw [List.length_cons] at hfuel
    have hcons : jsonEscapeUtf8 (c :: s) = escapeByte c ++ jsonEscapeUtf8 s := List.flatMap_cons
    rw [hcons, List.append_assoc, readString_escapeByte, ih (by omega), List.append_assoc]
    rfl

theorem length_le_escape (s : Bytes) : s.length ≤ (jsonEscapeUtf8 s).length := by
  induction s with
  | nil => exact Nat.le_refl 0
  | cons c s ih =>
    have hpos : 1 ≤ (escapeByte c).length := by
      rw [escapeByte]
      split_ifs <;> exact Nat.succ_le_succ (Nat.zero_le _)
    rw [jsonEscapeUtf8] at ih
    rw [jsonEscapeUtf8, List.flatMap_cons, List.length_append, List.length_cons]
    omega

/-! ## From a place to a value -/

variable {blanks : Bytes}

theorem dropWhile_quoted (hblanks : ∀ c ∈ blanks, isAsciiBlank c = true) (text tail : Bytes) :
    (blanks ++ quoted text ++ tail).dropWhile isAsciiBlank = 0x22 :: (text ++ 0x22 :: tail) := by
  rw [List.append_assoc, List.dropWhile_append_of_pos hblanks, quoted, List.cons_append,
    List.append_assoc, List.dropWhile_cons_of_neg (by decide)]
  rfl

/-- **THE VALUE** is what stands behind the first colon behind the first place of the
    quoted field name. -/
theorem extract_at {json field front skipped value tail : Bytes}
    (htext : json = front ++ quoted field ++
      (skipped ++ 0x3A :: (blanks ++ quoted (jsonEscapeUtf8 value) ++ tail)))
    (hfirst : ∀ a, a ++ quoted field <+: json → front.length ≤ a.length)
    (hskipped : (0x3A : UInt8) ∉ skipped) (hblanks : ∀ c ∈ blanks, isAsciiBlank c = true) :
    extractJsonStringField json field = (true, value) := by
  have hplace : find (quoted field) json = some front.length := by
    rw [htext] at hfirst ⊢
    exact find_eq_of_first hfirst
  have hcolon : find [0x3A] (skipped ++ 0x3A :: (blanks ++ quoted (jsonEscapeUtf8 value) ++ tail))
      = some skipped.length := by
    rw [find_append_of_notMem hskipped, find_eq_zero, Option.map_some, Nat.add_zero]
    exact List.prefix_append [0x3A] _
  have hdrop : json.drop (front.length + (quoted field).length)
      = skipped ++ 0x3A :: (blanks ++ quoted (jsonEscapeUtf8 value) ++ tail) := by
    rw [htext]
    exact List.drop_left' List.length_append
  have hbehind : (skipped ++ 0x3A :: (blanks ++ quoted (jsonEscapeUtf8 value) ++ tail)).drop
      (skipped.length + 1) = blanks ++ quoted (jsonEscapeUtf8 value) ++ tail := by
    rw [← List.drop_drop, List.drop_left]
    rfl
  rw [extractJsonStringField, hplace]
  dsimp only
  rw [hdrop, hcolon]
  dsimp only
  rw [hbehind, dropWhile_quoted hblanks]
  dsimp only
  have hfuel := length_le_escape value
  rw [if_neg (fun h => h rfl), readString_escape tail (by
    rw [List.length_append, List.length_cons]
    omega), List.nil_append]

/-! ## Objects -/

theorem joinMembers_split (m : Member) (after : List Member) : ∀ before : List Member,
    joinMembers (before ++ m :: after) = before.flatMap (fun x => x.text ++ [0x2C])
      ++ (m.text ++ after.flatMap (fun x => 0x2C :: x.text)) := by
  intro before
  induction before with
  | nil => rfl
  | cons x before ih =>
    have hmove : ∀ l : List Member, l ≠ [] →
        l.flatMap (fun x => 0x2C :: x.text) = 0x2C :: joinMembers l := by
      intro l hl
      cases l with
      | nil => exact absurd rfl hl
      | cons y l => rfl
    rw [List.cons_append, joinMembers, hmove _ (by simp), ih, List.flatMap_cons]
    simp only [List.append_assoc, List.cons_append, List.nil_append]

variable {after : List Member} {m : Member}

theorem FlatObject.text_split (o : FlatObject) {before : List Member}
    (h : o.members = before ++ m :: after) :
    o.text = o.front before m ++ quoted (jsonEscapeUtf8 m.name)
      ++ (m.rest ++ (after.flatMap (fun x => 0x2C :: x.text) ++ [0x7D])) := by
  rw [FlatObject.text, h, joinMembers_split, FlatObject.front, Member.text]
  simp only [List.append_assoc, List.cons_append]

theorem Member.blank_beforeName (m : Member) : ∀ c ∈ m.beforeName, isAsciiBlank c = true :=
  fun c hc => m.blank c (List.mem_append_left _ (List.mem_append_left _ hc))

theorem Member.blank_beforeColon (m : Member) : ∀ c ∈ m.beforeColon, isAsciiBlank c = true :=
  fun c hc => m.blank c (List.mem_append_left _ (List.mem_append_right _ hc))

theorem Member.blank_beforeValue (m : Member) : ∀ c ∈ m.beforeValue, isAsciiBlank c = true :=
  fun c hc => m.blank c (List.mem_append_right _ (List.mem_append_left _ hc))

theorem notMem_of_blank {x : UInt8} (h : ∀ c ∈ blanks, isAsciiBlank c = true)
    (hx : isAsciiBlank x = false) : x ∉ blanks := fun hmem => by
  have := h x hmem
  rw [hx] at this
  exact Bool.false_ne_true this

variable {o : FlatObject}

/-- The value of a member whose name is the first place of the quoted field name. -/
theorem extract_of_name {before : List Member} (h : o.members = before ++ m :: after)
    (hplain : jsonEscapeUtf8 m.name = m.name)
    (hfirst : ∀ a, a ++ quoted m.name <+: o.text → (o.front before m).length ≤ a.length) :
    extractJsonStringField o.text m.name = (true, m.value) := by
  have htext : o.text = o.front before m ++ quoted m.name ++ (m.beforeColon ++ 0x3A ::
      (m.beforeValue ++ quoted (jsonEscapeUtf8 m.value)
        ++ (m.afterValue ++ (after.flatMap (fun x => 0x2C :: x.text) ++ [0x7D])))) := by
    rw [o.text_split h, hplain, Member.rest]
    simp only [List.append_assoc, List.cons_append]
  exact extract_at htext hfirst (notMem_of_blank m.blank_beforeColon (by decide))
    m.blank_beforeValue

/-- **THE CONDITION** under which the search is right. -/
theorem extracts_of_firstIsName {field : Bytes} (h : FirstIsName o field) :
    Extracts o field := by
  rw [Extracts]
  rcases h with ⟨hnone, hno⟩ | ⟨before, m, after, hsplit, rfl, hbefore, hplain, hfirst⟩
  · have hfind : o.members.find? (fun m => m.name == field) = none :=
      List.find?_eq_none.mpr (fun m hm => by simpa using hnone m hm)
    rw [hfind]
    dsimp only
    rw [extractJsonStringField, find_eq_none_iff.mpr hno]
  · have hfind : o.members.find? (fun x => x.name == m.name) = some m := by
      rw [List.find?_eq_some_iff_append]
      refine ⟨by simp, before, after, hsplit, fun x hx => ?_⟩
      simpa using hbefore x hx
    rw [hfind]
    exact extract_of_name hsplit hplain hfirst

theorem firstIsName_head (h : o.members = m :: after) (hplain : jsonEscapeUtf8 m.name = m.name) :
    FirstIsName o m.name := by
  refine Or.inr ⟨[], m, after, h, rfl, fun x hx => absurd hx List.not_mem_nil, hplain, ?_⟩
  intro a ha
  have hquote : (0x22 : UInt8) ∉ o.front [] m := by
    rw [FlatObject.front, List.flatMap_nil, List.append_nil, List.mem_cons, List.mem_append]
    rintro (hbrace | hblank | hblank)
    · exact absurd hbrace (by decide)
    · exact notMem_of_blank o.blank (by decide) hblank
    · exact notMem_of_blank m.blank_beforeName (by decide) hblank
  have hsplit : o.members = [] ++ m :: after := h
  rw [o.text_split hsplit, List.append_assoc] at ha
  exact length_le_of_notMem hquote ha

/-! ## The field of an object -/

theorem isAsciiBlank_of_mem_nil : ∀ c ∈ ([] : Bytes), isAsciiBlank c = true :=
  fun _ h => absurd h List.not_mem_nil

/-- A member without blanks. -/
def plainMember (name value : Bytes) : Member where
  name := name
  value := value
  beforeName := []
  beforeColon := []
  beforeValue := []
  afterValue := []
  blank := isAsciiBlank_of_mem_nil

/-- An object without blanks. -/
def plainObject (members : List Member) : FlatObject where
  blanks := []
  members := members
  blank := isAsciiBlank_of_mem_nil

/-- **THE FIELD OF AN OBJECT**: the value of the first member called so, when the first
    place of the quoted name in the text is the name of that member; and always the
    value of the first member of the object. -/
theorem extract_json_string_field (o : FlatObject) (field : Bytes) :
    (FirstIsName o field → Extracts o field) ∧
      (∀ (m : Member) (after : List Member), o.members = m :: after →
        jsonEscapeUtf8 m.name = m.name →
        extractJsonStringField o.text m.name = (true, m.value)) ∧
      ∀ s, extractJsonStringField (plainObject [plainMember (ascii "content") s]).text
        (ascii "content") = (true, s) := by
  have hhead : ∀ (o : FlatObject) (m : Member) (after : List Member), o.members = m :: after →
      jsonEscapeUtf8 m.name = m.name →
      extractJsonStringField o.text m.name = (true, m.value) := by
    intro o m after h hplain
    have hextracts := extracts_of_firstIsName (firstIsName_head h hplain)
    rw [Extracts, h, List.find?_cons_of_pos (by simp)] at hextracts
    exact hextracts
  refine ⟨fun h => extracts_of_firstIsName h, hhead o, ?_⟩
  intro s
  have hplain : jsonEscapeUtf8 (ascii "content") = ascii "content" := by decide
  exact hhead _ (plainMember (ascii "content") s) [] rfl hplain

/-- The second of two members. -/
theorem extract_json_string_field_second :
    Extracts (plainObject [plainMember (ascii "a") (ascii "x"),
      plainMember (ascii "content") (ascii "y")]) (ascii "content") := by
  refine (extract_json_string_field _ _).1 (Or.inr ⟨[plainMember (ascii "a") (ascii "x")],
    plainMember (ascii "content") (ascii "y"), [], rfl, rfl, by decide, by decide, ?_⟩)
  rintro a ⟨tail, ha⟩
  have hfind : find (quoted (ascii "content")) (plainObject [plainMember (ascii "a") (ascii "x"),
      plainMember (ascii "content") (ascii "y")]).text = some 9 := by decide
  have hat := find_le (j := a.length) hfind (by
    rw [← ha, List.append_assoc, List.drop_left]
    exact List.prefix_append _ _)
  exact hat

/-- A value that equals the field name hides the member. -/
theorem extract_json_string_field_hidden :
    ¬ ∀ o field, Extracts o field := by
  intro h
  have hwrong : extractJsonStringField (plainObject [plainMember (ascii "a") (ascii "content"),
    plainMember (ascii "b") (ascii "y"), plainMember (ascii "content") (ascii "x")]).text
    (ascii "content") = (true, ascii "y") := by decide
  have hright := h (plainObject [plainMember (ascii "a") (ascii "content"),
    plainMember (ascii "b") (ascii "y"), plainMember (ascii "content") (ascii "x")])
    (ascii "content")
  have hvalue := hwrong.symm.trans hright
  exact absurd hvalue (by decide)

end MozkeyHttp
