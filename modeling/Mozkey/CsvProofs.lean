import Mozkey.ByteStringProofs

/-! # SplitCSV — fields between commas

    `SplitCSV` goes over a copy of its input with pointers.  A quoted field is compacted in
    place: its doubled quotes become single ones, and what follows stays where it is.  That a
    last field is empty shows in the character under the end of the field before, which is the
    comma behind a bare field, and the closing quote behind a quoted one. -/

namespace MozkeyUtil

open ByteString

/-! ## The scanner -/

/-- The character under a pointer into a string, which a zero follows. -/
def charAt (buf : Bytes) (p : Nat) : UInt8 := buf.getD p 0

/-- A blank in front of a field. -/
def isCsvBlank (c : UInt8) : Bool := c == chr ' ' || c == chr '\t'

/-- The loop that skips blanks; the zero behind the string is none. -/
def skipBlanks (buf : Bytes) (str : Nat) : Nat :=
  str + ((buf.drop str).takeWhile isCsvBlank).length

/-- `std::find` of a comma; the end of the string if there is none. -/
def findComma (buf : Bytes) (str : Nat) : Nat :=
  str + ((buf.drop str).takeWhile (· != chr ',')).length

/-- The loop over a quoted field: the string, and the pointers `str` and `end`.  A pass moves
    `str` on, so that the length of the string bounds the passes. -/
def quotedLoop : Nat → Bytes → Nat → Nat → Bytes × Nat × Nat
  | 0, buf, str, stop => (buf, str, stop)
  | fuel + 1, buf, str, stop =>
    if str < buf.length then
      if charAt buf str = chr '"' then
        if charAt buf (str + 1) ≠ chr '"' then (buf, str + 1, stop)
        else quotedLoop fuel (buf.set stop (charAt buf (str + 1))) (str + 2) (stop + 1)
      else quotedLoop fuel (buf.set stop (charAt buf str)) (str + 1) (stop + 1)
    else (buf, str, stop)

/-- What the body of the loop of `SplitCSV` does before it emits a field. -/
structure CsvField where
  buf : Bytes
  str : Nat
  start : Nat
  stop : Nat

/-- The body of the loop of `SplitCSV` up to the field. -/
def readField (buf : Bytes) (str : Nat) : CsvField :=
  let str := skipBlanks buf str
  if charAt buf str = chr '"' then
    let (buf, next, stop) := quotedLoop buf.length buf (str + 1) (str + 1)
    { buf, str := findComma buf next, start := str + 1, stop }
  else
    let next := findComma buf str
    { buf, str := next, start := str, stop := next }

/-- `end_is_empty`: the comma at the end of a field is the last character. -/
def CsvField.endIsEmpty (field : CsvField) : Bool :=
  charAt field.buf field.stop = chr ',' && field.stop + 1 == field.buf.length

/-- The characters of a field. -/
def CsvField.text (field : CsvField) : Bytes :=
  (field.buf.take field.stop).drop field.start

/-- The loop of `SplitCSV`; a pass moves on by one character at least. -/
def splitCSVLoop : Nat → Bytes → Nat → List Bytes → Option (List Bytes)
  | 0, _, _, _ => none
  | fuel + 1, buf, str, output =>
    if str < buf.length then
      let field := readField buf str
      let output := output ++ [field.text] ++ if field.endIsEmpty then [[]] else []
      splitCSVLoop fuel field.buf (field.str + 1) output
    else some output

/-- `SplitCSV`. -/
def splitCSV (input : Bytes) : Option (List Bytes) := splitCSVLoop (input.length + 1) input 0 []

/-! ## Written fields -/

/-- A text that can stand bare: it has no comma, and does not begin like a quoted field or with
    a blank. -/
structure BareText where
  text : Bytes
  noComma : chr ',' ∉ text
  start : ∀ c, text.head? = some c → isCsvBlank c = false ∧ c ≠ chr '"'

/-- A field, and how it is written. -/
inductive WrittenField where
  | quoted (content : Bytes)
  | bare (content : BareText)

namespace WrittenField

/-- The content of a field. -/
def content : WrittenField → Bytes
  | quoted content => content
  | bare content => content.text

/-- Quotes are doubled between quotes. -/
def doubled (content : Bytes) : Bytes :=
  content.flatMap fun c => if c = chr '"' then [chr '"', chr '"'] else [c]

/-- A field as it stands in a line. -/
def written : WrittenField → Bytes
  | quoted content => chr '"' :: (doubled content ++ [chr '"'])
  | bare content => content.text

/-- The bare field without a character. -/
def empty : WrittenField := bare ⟨[], by simp, by simp⟩

/-- The fields, joined with commas. -/
def joined (fields : List WrittenField) : Bytes :=
  [chr ','].intercalate (fields.map written)

end WrittenField

open WrittenField

/-! ## Reading a field -/

theorem charAt_eq (buf : Bytes) (p : Nat) : charAt buf p = (buf.drop p).headD 0 := by
  rw [charAt, List.headD_eq_head?_getD, List.head?_drop, List.getD_eq_getElem?_getD]

variable {buf : Bytes}

theorem drop_succ {rest : Bytes} {p : Nat} {c : UInt8} (h : buf.drop p = c :: rest) :
    p < buf.length ∧ charAt buf p = c ∧ buf.drop (p + 1) = rest := by
  have hlength := congrArg List.length h
  rw [List.length_drop, List.length_cons] at hlength
  refine ⟨by omega, ?_, ?_⟩
  · rw [charAt_eq, h]
    rfl
  · rw [← List.drop_drop, h]
    rfl

theorem take_set_succ {p : Nat} (h : p < buf.length) (c : UInt8) :
    (buf.set p c).take (p + 1) = buf.take p ++ [c] := by
  rw [List.take_succ_eq_append_getElem (by rwa [List.length_set]), List.take_set_of_le le_rfl,
    List.getElem_set_self]

/-- What follows a field: nothing, or a comma and the fields behind. -/
def Follows (tail : Bytes) : Prop := tail = [] ∨ ∃ rest, tail = chr ',' :: rest

variable {tail : Bytes}

theorem Follows.headD_ne (h : Follows tail) : tail.headD 0 ≠ chr '"' := by
  rcases h with rfl | ⟨rest, rfl⟩
  · decide
  · show chr ',' ≠ chr '"'
    decide

theorem doubled_cons (c : UInt8) (content : Bytes) :
    doubled (c :: content)
      = (if c = chr '"' then [chr '"', chr '"'] else [c]) ++ doubled content := rfl

/-- **A QUOTED FIELD IS COMPACTED**: what was doubled is behind what has been kept, and from the
    closing quote on everything stays where it is. -/
theorem quotedLoop_spec {tail : Bytes} (htail : Follows tail) (content : Bytes) :
    ∀ {fuel : Nat} {buf : Bytes} {str stop : Nat}, content.length < fuel → stop ≤ str →
      buf.drop str = doubled content ++ chr '"' :: tail →
      ∃ buf', quotedLoop fuel buf str stop
          = (buf', str + (doubled content).length + 1, stop + content.length) ∧
        buf'.length = buf.length ∧
        buf'.drop (str + (doubled content).length) = chr '"' :: tail ∧
        buf'.take (stop + content.length) = buf.take stop ++ content := by
  induction content with
  | nil =>
    intro fuel buf str stop hfuel _ hdrop
    obtain ⟨fuel, rfl⟩ := Nat.exists_eq_succ_of_ne_zero (by omega : fuel ≠ 0)
    obtain ⟨hlt, hquote, hnext⟩ := drop_succ hdrop
    have hne : charAt buf (str + 1) ≠ chr '"' := by
      rw [charAt_eq, hnext]
      exact htail.headD_ne
    refine ⟨buf, ?_, rfl, hdrop, ?_⟩
    · rw [quotedLoop, if_pos hlt, if_pos hquote, if_pos hne]
      rfl
    · rw [List.length_nil, Nat.add_zero, List.append_nil]
  | cons c content ih =>
    intro fuel buf str stop hfuel hle hdrop
    obtain ⟨fuel, rfl⟩ := Nat.exists_eq_succ_of_ne_zero (by omega : fuel ≠ 0)
    rw [List.length_cons] at hfuel
    -- a character is written behind what has been kept, and the pointers go on
    have hwritten : ∀ width, 0 < width → str + width ≤ buf.length →
        buf.drop (str + width) = doubled content ++ chr '"' :: tail →
        ∃ buf', quotedLoop fuel (buf.set stop c) (str + width) (stop + 1)
            = (buf', str + width + (doubled content).length + 1,
              stop + 1 + content.length) ∧
          buf'.length = buf.length ∧
          buf'.drop (str + width + (doubled content).length) = chr '"' :: tail ∧
          buf'.take (stop + 1 + content.length) = buf.take stop ++ c :: content := by
      intro width hpos hwidth hrest
      obtain ⟨buf', hloop, hlength, hdrop', htake⟩ :=
        @ih fuel (buf.set stop c) (str + width) (stop + 1) (by omega) (by omega)
          (by rw [List.drop_set_of_lt (by omega)]; exact hrest)
      refine ⟨buf', hloop, by rw [hlength, List.length_set], hdrop', ?_⟩
      rw [htake, take_set_succ (by omega), List.append_assoc, List.singleton_append]
    rw [doubled_cons] at hdrop ⊢
    by_cases hquote : c = chr '"'
    · rw [if_pos hquote] at hdrop ⊢
      obtain ⟨hlt, hfirst, hrest⟩ := drop_succ hdrop
      obtain ⟨hlt', hsecond, hrest'⟩ := drop_succ hrest
      obtain ⟨buf', hloop, hlength, hdrop', htake⟩ := hwritten 2 (by omega) (by omega) hrest'
      refine ⟨buf', ?_, hlength, ?_, ?_⟩
      · rw [quotedLoop, if_pos hlt, if_pos hfirst, if_neg (by rw [hsecond]; simp), hsecond,
          ← hquote, hloop]
        simp only [List.length_append, List.length_cons, List.length_nil, Prod.mk.injEq, true_and]
        exact ⟨by omega, by omega⟩
      · rw [← hdrop']
        congr 1
        simp only [List.length_append, List.length_cons, List.length_nil]
        omega
      · rw [← htake]
        congr 1
        rw [List.length_cons]
        omega
    · rw [if_neg hquote] at hdrop ⊢
      obtain ⟨hlt, hfirst, hrest⟩ := drop_succ hdrop
      obtain ⟨buf', hloop, hlength, hdrop', htake⟩ := hwritten 1 (by omega) (by omega) hrest
      refine ⟨buf', ?_, hlength, ?_, ?_⟩
      · rw [quotedLoop, if_pos hlt, if_neg (by rw [hfirst]; exact hquote), hfirst, hloop]
        simp only [List.length_append, List.length_cons, List.length_nil, Prod.mk.injEq, true_and]
        exact ⟨by omega, by omega⟩
      · rw [← hdrop']
        congr 1
        simp only [List.length_append, List.length_cons, List.length_nil]
        omega
      · rw [← htake]
        congr 1
        rw [List.length_cons]
        omega

variable {str : Nat}

theorem skipBlanks_eq (h : ∀ c, (buf.drop str).head? = some c → isCsvBlank c = false) :
    skipBlanks buf str = str := by
  unfold skipBlanks
  cases hdrop : buf.drop str with
  | nil => rfl
  | cons c rest =>
    rw [List.takeWhile_cons_of_neg (by rw [h c (by rw [hdrop]; rfl)]; exact Bool.false_ne_true)]
    rfl

/-- The comma that is found is the one behind a text without commas. -/
theorem findComma_eq {buf text tail : Bytes} {str : Nat} (htail : Follows tail)
    (hcomma : chr ',' ∉ text) (hdrop : buf.drop str = text ++ tail) :
    findComma buf str = str + text.length := by
  have htext : ∀ c ∈ text, (c != chr ',') = true := by
    intro c hc
    rw [bne_iff_ne]
    rintro rfl
    exact hcomma hc
  have hstop : tail.takeWhile (· != chr ',') = [] := by
    rcases htail with rfl | ⟨rest, rfl⟩
    · rfl
    · simp
  rw [findComma, hdrop, List.takeWhile_append_of_pos htext, hstop, List.append_nil]

/-- A field that is not quoted. -/
def WrittenField.isBare : WrittenField → Bool
  | quoted _ => false
  | bare _ => true

/-- What is read of a field, from where it was written to what follows. -/
structure Reads (f : WrittenField) (buf tail : Bytes) (field : CsvField) : Prop where
  length : field.buf.length = buf.length
  text : field.text = f.content
  rest : field.buf.drop field.str = tail
  endIsEmpty : field.endIsEmpty = true ↔ f.isBare = true ∧ tail = [chr ',']

theorem readField_bare (content : BareText) (htail : Follows tail) (hlt : str < buf.length)
    (hdrop : buf.drop str = content.text ++ tail) :
    Reads (.bare content) buf tail (readField buf str) := by
  have hhead : ∀ c, (buf.drop str).head? = some c → isCsvBlank c = false ∧ c ≠ chr '"' := by
    intro c hc
    rw [hdrop, List.head?_append] at hc
    cases htext : content.text.head? with
    | some d =>
      rw [htext] at hc
      cases hc
      exact content.start c htext
    | none =>
      rw [htext, Option.none_or] at hc
      rcases htail with rfl | ⟨rest, rfl⟩
      · cases hc
      · cases hc
        decide
  have hskip := skipBlanks_eq fun c hc => (hhead c hc).1
  have hquote : charAt buf str ≠ chr '"' := by
    rw [charAt_eq, List.headD_eq_head?_getD]
    cases hc : (buf.drop str).head? with
    | none => decide
    | some c => exact (hhead c hc).2
  have hcomma := findComma_eq htail content.noComma hdrop
  have hrest : buf.drop (str + content.text.length) = tail := by
    rw [← List.drop_drop, hdrop, List.drop_left]
  have hread : readField buf str
      = ⟨buf, str + content.text.length, str, str + content.text.length⟩ := by
    unfold readField
    simp only [hskip, if_neg hquote, hcomma]
  have hlength := congrArg List.length hdrop
  rw [List.length_drop, List.length_append] at hlength
  rw [hread]
  refine ⟨rfl, ?_, hrest, ?_⟩
  · show (buf.take (str + content.text.length)).drop str = content.text
    rw [List.drop_take, hdrop, Nat.add_sub_cancel_left, List.take_left]
  · unfold CsvField.endIsEmpty
    simp only [Bool.and_eq_true, decide_eq_true_eq, beq_iff_eq, charAt_eq, hrest]
    constructor
    · rintro ⟨hchar, hend⟩
      refine ⟨rfl, ?_⟩
      rcases htail with rfl | ⟨rest, rfl⟩
      · exact absurd hchar (by decide)
      · rw [List.length_cons] at hlength
        rw [List.eq_nil_of_length_eq_zero (by omega : rest.length = 0)]
    · rintro ⟨-, rfl⟩
      rw [List.length_singleton] at hlength
      exact ⟨rfl, by omega⟩

theorem length_le_doubled (content : Bytes) : content.length ≤ (doubled content).length := by
  induction content with
  | nil => exact le_rfl
  | cons c content ih =>
    rw [doubled_cons, List.length_append, List.length_cons]
    split <;> simp <;> omega

/-- A quoted field is read; the quote under its end is no comma. -/
theorem readField_quoted (content : Bytes) (htail : Follows tail)
    (hdrop : buf.drop str = chr '"' :: (doubled content ++ [chr '"']) ++ tail) :
    Reads (.quoted content) buf tail (readField buf str) := by
  rw [List.cons_append, List.append_assoc, List.singleton_append] at hdrop
  obtain ⟨hlt, hquote, hrest⟩ := drop_succ hdrop
  have hskip : skipBlanks buf str = str := by
    refine skipBlanks_eq ?_
    intro c hc
    rw [hdrop] at hc
    cases hc
    decide
  have hlength := congrArg List.length hrest
  rw [List.length_drop, List.length_append, List.length_cons] at hlength
  have hdoubled := length_le_doubled content
  obtain ⟨buf', hloop, hlength', hdrop', htake⟩ :=
    @quotedLoop_spec tail htail content buf.length buf (str + 1) (str + 1) (by omega) le_rfl hrest
  obtain ⟨hlt', hclosing, htail'⟩ := drop_succ hdrop'
  have hcomma := @findComma_eq buf' [] tail _ htail List.not_mem_nil htail'
  rw [List.length_nil, Nat.add_zero] at hcomma
  have hread : readField buf str = ⟨buf', str + 1 + (doubled content).length + 1, str + 1,
      str + 1 + content.length⟩ := by
    unfold readField
    simp only [hskip, if_pos hquote, hloop, hcomma]
  rw [hread]
  refine ⟨hlength', ?_, htail', ?_⟩
  · show (buf'.take (str + 1 + content.length)).drop (str + 1) = content
    rw [htake, List.drop_left']
    rw [List.length_take]
    omega
  · refine iff_of_false ?_ (fun h => Bool.false_ne_true h.1)
    unfold CsvField.endIsEmpty
    rw [Bool.and_eq_true, decide_eq_true_eq, beq_iff_eq]
    rintro ⟨hchar, hend⟩
    simp only at hchar hend
    rw [show str + 1 + content.length = str + 1 + (doubled content).length by omega,
      hclosing] at hchar
    exact absurd hchar (by decide)

/-- **A FIELD IS READ** as it was written. -/
theorem readField_spec (f : WrittenField) (htail : Follows tail) (hlt : str < buf.length)
    (hdrop : buf.drop str = f.written ++ tail) :
    Reads f buf tail (readField buf str) := by
  cases f with
  | quoted content => exact readField_quoted content htail hdrop
  | bare content => exact readField_bare content htail hlt hdrop

/-! ## Reading all fields -/

/-- What is emitted for the fields from one on: a last field that is written with no character
    is emitted with the field before, if that is bare. -/
def emitted : List WrittenField → List Bytes
  | [] => []
  | [f] => if f.written = [] then [] else [f.content]
  | f :: g :: rest =>
    f.content :: ((if f.isBare ∧ joined (g :: rest) = [] then [[]] else []) ++ emitted (g :: rest))

/-- The fields behind one, with the comma in front. -/
def joinedTail : List WrittenField → Bytes
  | [] => []
  | g :: rest => chr ',' :: joined (g :: rest)

theorem joined_cons (f : WrittenField) (rest : List WrittenField) :
    joined (f :: rest) = f.written ++ joinedTail rest := by
  cases rest with
  | nil => simp [joined, joinedTail, List.intercalate]
  | cons g rest => simp [joined, joinedTail, List.intercalate]

theorem follows_joinedTail (rest : List WrittenField) : Follows (joinedTail rest) := by
  cases rest with
  | nil => exact Or.inl rfl
  | cons g rest => exact Or.inr ⟨_, rfl⟩

/-- **ALL FIELDS ARE READ**, from where they were written on. -/
theorem splitCSVLoop_spec (fields : List WrittenField) :
    ∀ {fuel : Nat} {buf : Bytes} {str : Nat} (output : List Bytes),
      buf.length < fuel + str → 0 < fuel → buf.drop str = joined fields →
      splitCSVLoop fuel buf str output = some (output ++ emitted fields) := by
  induction fields with
  | nil =>
    intro fuel buf str output hfuel hpos hdrop
    obtain ⟨fuel, rfl⟩ := Nat.exists_eq_succ_of_ne_zero hpos.ne'
    have hle : buf.length ≤ str := List.drop_eq_nil_iff.mp hdrop
    rw [splitCSVLoop, if_neg (by omega), emitted, List.append_nil]
  | cons f rest ih =>
    intro fuel buf str output hfuel hpos hdrop
    obtain ⟨fuel, rfl⟩ := Nat.exists_eq_succ_of_ne_zero hpos.ne'
    rw [joined_cons] at hdrop
    have hlength := congrArg List.length hdrop
    rw [List.length_drop, List.length_append] at hlength
    by_cases hlt : str < buf.length
    · obtain ⟨hbuf, htext, hrest, hempty⟩ := readField_spec f (follows_joinedTail rest) hlt hdrop
      have hrestLength := congrArg List.length hrest
      rw [List.length_drop, hbuf] at hrestLength
      rw [splitCSVLoop, if_pos hlt]
      simp only [htext]
      cases rest with
      | nil =>
        -- the last field has a character
        have hwritten : f.written ≠ [] := by
          intro hnil
          rw [hnil, joinedTail] at hlength
          simp only [List.length_nil] at hlength
          omega
        have hend : (readField buf str).endIsEmpty = false := by
          rw [← Bool.not_eq_true, hempty]
          rintro ⟨-, htail⟩
          cases htail
        rw [joinedTail, List.length_nil] at hrestLength
        have hnext := @ih fuel (readField buf str).buf ((readField buf str).str + 1)
          (output ++ [f.content]) (by omega) (by omega)
          (List.drop_eq_nil_of_le (by rw [hbuf]; omega))
        rw [hend, emitted, if_neg hwritten]
        simpa [emitted] using hnext
      | cons g rest =>
        obtain ⟨hlt', -, hjoined⟩ := drop_succ hrest
        rw [joinedTail, List.length_cons] at hlength hrestLength
        rw [hbuf] at hlt'
        have hend : (readField buf str).endIsEmpty = true
            ↔ f.isBare = true ∧ joined (g :: rest) = [] := by
          rw [hempty, joinedTail, List.cons.injEq, and_iff_right rfl]
        rw [ih _ (by omega) (by omega) hjoined, emitted, List.append_assoc, List.append_assoc,
          List.singleton_append]
        simp only [hend]
    · -- nothing is left of a last field without a character
      have hnil : f.written = [] ∧ joinedTail rest = [] := by
        rw [← List.append_eq_nil_iff, ← hdrop]
        exact List.drop_eq_nil_of_le (by omega)
      cases rest with
      | nil => rw [splitCSVLoop, if_neg hlt, emitted, if_pos hnil.1, List.append_nil]
      | cons g rest => exact absurd hnil.2 (List.cons_ne_nil _ _)

/-- The fields end with an empty bare one directly behind a quoted one. -/
def EmptyBehindQuoted (fields : List WrittenField) : Prop :=
  ∃ front content, fields = front ++ [quoted content, empty]

/-- Fields that are joined to the empty string are one empty bare field. -/
theorem joined_eq_nil {g : WrittenField} {rest : List WrittenField} (h : joined (g :: rest) = []) :
    g = empty ∧ rest = [] := by
  rw [joined_cons, List.append_eq_nil_iff] at h
  obtain ⟨hwritten, htail⟩ := h
  cases rest with
  | cons g' rest => cases htail
  | nil =>
    cases g with
    | quoted content => cases hwritten
    | bare content =>
      obtain ⟨text, hcomma, hstart⟩ := content
      cases (hwritten : text = [])
      exact ⟨rfl, rfl⟩

theorem joined_empty : joined [empty] = [] := rfl

theorem emptyBehindQuoted_cons {f g : WrittenField} {rest : List WrittenField}
    (h : joined (g :: rest) ≠ []) :
    EmptyBehindQuoted (f :: g :: rest) ↔ EmptyBehindQuoted (g :: rest) := by
  constructor
  · rintro ⟨front, content, heq⟩
    cases front with
    | nil =>
      cases heq
      exact absurd joined_empty h
    | cons f' front =>
      rw [List.cons_append, List.cons.injEq] at heq
      exact ⟨front, content, heq.2⟩
  · rintro ⟨front, content, heq⟩
    exact ⟨f :: front, content, by rw [heq, List.cons_append]⟩

theorem emptyBehindQuoted_pair (f : WrittenField) :
    EmptyBehindQuoted [f, empty] ↔ f.isBare = false := by
  constructor
  · rintro ⟨front, content, heq⟩
    have hlength := congrArg List.length heq
    simp only [List.length_append, List.length_cons, List.length_nil] at hlength
    rw [List.eq_nil_of_length_eq_zero (by omega : front.length = 0), List.nil_append] at heq
    cases heq
    rfl
  · intro hf
    cases f with
    | quoted content => exact ⟨[], content, rfl⟩
    | bare content => cases hf

theorem emitted_pair (f : WrittenField) :
    emitted [f, empty] = f.content :: if f.isBare then [[]] else [] := by
  have hwritten : empty.written = [] := rfl
  simp only [emitted, hwritten, joined_empty, and_true, if_true, List.append_nil]

/-- What is emitted are the fields, but for an empty one behind a quoted one. -/
theorem emitted_eq_iff (fields : List WrittenField) (h : joined fields ≠ []) :
    emitted fields = fields.map content ↔ ¬ EmptyBehindQuoted fields := by
  induction fields with
  | nil => exact absurd rfl h
  | cons f rest ih =>
    cases rest with
    | nil =>
      have hwritten : f.written ≠ [] := by
        intro hnil
        rw [joined_cons, hnil] at h
        exact h rfl
      refine iff_of_true (by rw [emitted, if_neg hwritten]; rfl) ?_
      rintro ⟨front, content, heq⟩
      have hlength := congrArg List.length heq
      simp at hlength
    | cons g rest =>
      by_cases hrest : joined (g :: rest) = []
      · obtain ⟨rfl, rfl⟩ := joined_eq_nil hrest
        rw [emptyBehindQuoted_pair, emitted_pair, List.map_cons, List.cons.injEq,
          and_iff_right rfl]
        cases f.isBare with
        | false => exact iff_of_false (List.cons_ne_nil _ _).symm (not_not_intro rfl)
        | true => exact iff_of_true rfl (fun h => absurd h (by decide))
      · rw [emptyBehindQuoted_cons hrest, ← ih hrest, emitted, if_neg (fun hd => hrest hd.2),
          List.nil_append, List.map_cons, List.cons.injEq, and_iff_right rfl]

/-- **FIELDS ARE SPLIT AS THEY WERE JOINED**, exactly unless they end with an empty bare field
    directly behind a quoted one. -/
theorem splitCSV_iff (fields : List WrittenField) (hne : joined fields ≠ []) :
    splitCSV (joined fields) = some (fields.map content) ↔ ¬ EmptyBehindQuoted fields := by
  rw [splitCSV, @splitCSVLoop_spec fields _ (joined fields) 0 [] (by omega) (by omega) rfl,
    List.nil_append, Option.some.injEq]
  exact emitted_eq_iff fields hne

/-- The character `b`, bare. -/
def bareB : WrittenField :=
  bare ⟨[chr 'b'], by decide, by intro c hc; cases hc; decide⟩

/-- `"a",b` is split into two fields. -/
theorem splitCSV_quoted_bare :
    splitCSV (joined [quoted [chr 'a'], bareB])
      = some ([quoted [chr 'a'], bareB].map content) := by
  refine (splitCSV_iff _ (by decide)).mpr ?_
  rintro ⟨front, content, heq⟩
  have hlast := congrArg List.getLast? heq
  rw [List.getLast?_append] at hlast
  cases hlast

/-- Of `"a",` only the first field is returned. -/
theorem splitCSV_loses_empty :
    joined [quoted [chr 'a'], empty] ≠ [] ∧
      splitCSV (joined [quoted [chr 'a'], empty]) = some [[chr 'a']] ∧
      splitCSV (joined [quoted [chr 'a'], empty])
        ≠ some ([quoted [chr 'a'], empty].map content) := by
  decide

end MozkeyUtil
