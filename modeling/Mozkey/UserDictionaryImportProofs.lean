import Mozkey.UserDictionaryProofs

/-! # UserDictionary — exporting and importing

    `ExportDictionary` writes one line for an entry, the fields as they are.  The importer
    takes the type of the text from its first line, skips empty lines and comment lines, splits
    at the tabs, finds the part of speech by name, normalizes the reading and checks the entry
    again. -/

namespace MozkeyUserDictionary

open ByteString MozkeyUtil MozkeyJapanese

/-! ## Exporting -/

/-- The line of an entry, without its line break. -/
def exportLine (entry : Entry) : Bytes :=
  entry.key ++ [chr '\t'] ++ entry.value ++ [chr '\t'] ++ getStringPosType entry.posType
    ++ [chr '\t'] ++ entry.comment

/-- The text that `ExportDictionary` writes. -/
def exportDictionary (entries : List Entry) : Bytes :=
  entries.flatMap fun entry => exportLine entry ++ [chr '\n']

/-! ## The lines of a text -/

/-- The scan of `StringTextLineIterator::Next`: the line and what comes after it. -/
def nextLine : Bytes → Bytes × Bytes
  | [] => ([], [])
  | c :: rest =>
    if c = chr '\n' ∨ c = chr '\r' then
      ([], if c = chr '\r' ∧ rest.head? = some (chr '\n') then rest.drop 1 else rest)
    else (c :: (nextLine rest).1, (nextLine rest).2)

/-- The lines that a `StringTextLineIterator` gives; every line takes a byte at least. -/
def textLinesLoop : Nat → Bytes → List Bytes
  | 0, _ => []
  | fuel + 1, data =>
    if data.isEmpty then [] else (nextLine data).1 :: textLinesLoop fuel (nextLine data).2

/-- `StringTextLineIterator`, as the lines it gives. -/
def stringTextLineIterator (data : Bytes) : List Bytes := textLinesLoop data.length data

/-! ## The type of a text -/

/-- `IMEType`. -/
inductive IMEType where
  | imeAutoDetect | mozc | msime | atok | kotoeri | gboardV1 | numImes
  deriving DecidableEq

/-- The loop of `Util::LowerString`; it ends where the lower case has another length. -/
def lowerStringLoop : Nat → Bytes → Bytes
  | 0, s => s
  | fuel + 1, s =>
    if s.isEmpty then []
    else
      let ch := MozkeyStrings.decode s
      let rest := s.drop ch.bytesSeen
      if (0x0041 ≤ ch.codePoint ∧ ch.codePoint ≤ 0x005A)
          ∨ (0xFF21 ≤ ch.codePoint ∧ ch.codePoint ≤ 0xFF3A) then
        let utf8 := codepointToUtf8 (ch.codePoint + 0x0020)
        if utf8.length ≠ (s.take ch.bytesSeen).length then s
        else utf8 ++ lowerStringLoop fuel rest
      else s.take ch.bytesSeen ++ lowerStringLoop fuel rest

/-- `Util::LowerString`. -/
def lowerString (s : Bytes) : Bytes := lowerStringLoop s.length s

/-- The bytes that `absl::SimpleAtoi` strips at both ends. -/
def isAsciiSpace (c : UInt8) : Bool := c = 0x20 || (0x09 ≤ c && c ≤ 0x0D)

/-- `NumberUtil::SimpleAtoi`; 0 where there is no `int`. -/
def simpleAtoi (str : Bytes) : Int :=
  let str := (str.dropWhile isAsciiSpace).rdropWhile isAsciiSpace
  let negative := str.head? = some (chr '-')
  let digits := if negative ∨ str.head? = some (chr '+') then str.drop 1 else str
  if digits = [] ∨ ¬ digits.all (fun c => chr '0' ≤ c && c ≤ chr '9') then 0
  else
    let n : Int := digits.foldl (fun n c => n * 10 + (c.toNat - 0x30 : Int)) 0
    let n := if negative then -n else n
    if -(2 ^ 31) ≤ n ∧ n < 2 ^ 31 then n else 0

/-- `GuessIMEType`, by the first line. -/
def guessIMEType (line : Bytes) : IMEType :=
  if line.isEmpty then .numImes
  else
    let lower := lowerString line
    if ascii "!microsoft ime" <+: lower then .msime
    else if ascii "!!dicut" <+: lower ∧ 7 < lower.length then
      if 11 ≤ simpleAtoi (lower.drop 7) then .atok else .numImes
    else if ascii "!!atok_tango_text_header" <+: lower then .atok
    else if line.head? = some (chr '"') ∧ line.getLast? = some (chr '"') ∧ chr '\t' ∉ line then
      .kotoeri
    else if ascii "# gboard dictionary version:1" <+: lower then .gboardV1
    else if line.head? = some (chr '#') ∨ chr '\t' ∈ line then .mozc
    else .numImes

/-- `DetermineFinalIMEType`. -/
def determineFinalIMEType (userImeType guessedImeType : IMEType) : IMEType :=
  if userImeType = .imeAutoDetect then guessedImeType
  else if userImeType = .mozc then
    if guessedImeType ≠ .kotoeri then userImeType else .numImes
  else if guessedImeType = userImeType then userImeType
  else .numImes

/-! ## The entries of a text -/

/-- `RawEntry`. -/
structure RawEntry where
  key : Bytes
  value : Bytes
  pos : Bytes
  comment : Bytes

/-- `Util::ChopReturns`. -/
def chopReturns (line : Bytes) : Bytes :=
  line.rdropWhile fun c => c = chr '\r' ∨ c = chr '\n'

/-- The lines that `TextInputIterator::Next` skips as comments. -/
def isCommentLine (imeType : IMEType) (line : Bytes) : Prop :=
  ((imeType = .msime ∨ imeType = .atok) ∧ line.head? = some (chr '!'))
    ∨ ((imeType = .mozc ∨ imeType = .gboardV1) ∧ line.head? = some (chr '#'))
    ∨ (imeType = .kotoeri ∧ ascii "//" <+: line)

instance (imeType : IMEType) (line : Bytes) : Decidable (isCommentLine imeType line) :=
  inferInstanceAs (Decidable (_ ∨ _))

/-- The fields of a line that is split at its tabs; fewer than three are ignored. -/
def tabEntry (imeType : IMEType) (line : Bytes) : Option RawEntry :=
  match line.splitOn (chr '\t') with
  | key :: value :: third :: more =>
    -- the third field of a GBoard line is the locale of a word without part of speech
    let pos := if imeType = .gboardV1 then
      getStringPosType .noPos ++ [chr ':'] ++ third else third
    some { key, value, pos, comment := more.head?.getD [] }
  | _ => none

section

-- `Util::SplitCSV`, for the text of another program
variable (splitCsv : Bytes → List Bytes)

/-- What `TextInputIterator::Next` makes of a line; `none` where it goes on to the next. -/
def lineEntry (imeType : IMEType) (line : Bytes) : Option RawEntry :=
  let line := chopReturns line
  if line.isEmpty then none
  else if isCommentLine imeType line then none
  else
    match imeType with
    | .msime | .atok | .mozc | .gboardV1 => tabEntry imeType line
    | .kotoeri =>
      match splitCsv line with
      | key :: value :: pos :: _ => some { key, value, pos, comment := [] }
      | _ => none
    | .imeAutoDetect | .numImes => none

/-- The type that a `TextInputIterator` settles on. -/
def textInputType (imeType : IMEType) (lines : List Bytes) : IMEType :=
  match lines with
  | [] => .numImes
  | line :: _ => determineFinalIMEType imeType (guessIMEType line)

/-- `TextInputIterator`, as the entries it gives. -/
def textInputIterator (imeType : IMEType) (lines : List Bytes) : List RawEntry :=
  lines.filterMap (lineEntry splitCsv imeType)

end

/-! ## Converting an entry -/

/-- `NormalizePos`. -/
def normalizePos (input : Bytes) : Bytes :=
  halfWidthKatakanaToFullWidthKatakana (fullWidthAsciiToHalfWidthAscii input)

/-- A part of speech, and what stands behind a colon. -/
def splitPosAndLocale (pos : Bytes) : Bytes × Bytes :=
  (pos.takeWhile (· ≠ chr ':'), (pos.dropWhile (· ≠ chr ':')).drop 1)

/-- `absl::ConsumeSuffix` of one character. -/
def consumeSuffix (s : Bytes) (c : Char) : Bytes :=
  if s.getLast? = some (chr c) then s.dropLast else s

section

-- `kPosMap`; the words of an invalid type are ignored
variable (posMap : Bytes → Option (Option PosType))

/-- `ConvertEntry`; `none` where it returns `false`. -/
def convertEntry (raw : RawEntry) : Option Entry :=
  if raw.pos.isEmpty then none
  else
    let (pos, locale) := splitPosAndLocale (normalizePos raw.pos)
    match posMap (consumeSuffix (consumeSuffix pos '$') '*') with
    | none => none
    | some none => none
    | some (some posType) =>
      let entry : Entry :=
        { key := normalizeReading raw.key, value := raw.value, comment := raw.comment
          pos := some posType, locale }
      if validateEntry entry = .ok then some entry else none

/-! ## Importing -/

/-- How many entries a dictionary holds. -/
def kMaxEntrySize : Nat := 1000000

/-- `IsDictionaryFull`. -/
def isDictionaryFull (entries : List Entry) : Bool := kMaxEntrySize ≤ entries.length

/-- What makes two entries the same word. -/
def Entry.word (entry : Entry) : Bytes × Bytes × PosType := (entry.key, entry.value, entry.posType)

variable {H : Type} [DecidableEq H] (hashOf : Bytes × Bytes × PosType → H)

/-- The locals of `ImportFromIterator`. -/
structure ImportState (H : Type) where
  entries : List Entry
  existentEntries : List H
  ret : ExtendedErrorCode

/-- The body of the loop of `ImportFromIterator`, for a dictionary that is not full. -/
def importStep (raw : RawEntry) (state : ImportState H) : ImportState H :=
  if raw.key.isEmpty ∧ raw.value.isEmpty ∧ raw.comment.isEmpty then state
  else
    match convertEntry posMap raw with
    | none => { state with ret := .importInvalidEntries }
    | some entry =>
      if hashOf entry.word ∈ state.existentEntries then state
      else
        { state with
          entries := state.entries ++ [entry]
          existentEntries := hashOf entry.word :: state.existentEntries }

/-- The loop of `ImportFromIterator`: what it returns and the entries of the dictionary. -/
def importLoop : List RawEntry → ImportState H → ExtendedErrorCode × List Entry
  | [], state => (state.ret, state.entries)
  | raw :: rest, state =>
    if isDictionaryFull state.entries then (.importTooManyWords, state.entries)
    else importLoop rest (importStep posMap hashOf raw state)

/-- `ImportFromIterator`. -/
def importFromIterator (iter : List RawEntry) (userDic : List Entry) :
    ExtendedErrorCode × List Entry :=
  importLoop posMap hashOf iter
    { entries := userDic
      existentEntries := userDic.map fun entry => hashOf entry.word
      ret := .ok }

/-- `ImportFromTextLineIterator`. -/
def importFromTextLineIterator (splitCsv : Bytes → List Bytes) (imeType : IMEType)
    (iter : List Bytes) (userDic : List Entry) : ExtendedErrorCode × List Entry :=
  if textInputType imeType iter = .numImes then (.importNotSupported, userDic)
  else
    importFromIterator posMap hashOf
      (textInputIterator splitCsv (textInputType imeType iter) iter) userDic

end

/-! ## Reading the lines back -/

theorem nextLine_append {line : Bytes} (h : ∀ c ∈ line, ¬ (c = chr '\n' ∨ c = chr '\r'))
    (rest : Bytes) : nextLine (line ++ chr '\n' :: rest) = (line, rest) := by
  induction line with
  | nil =>
    rw [List.nil_append, nextLine, if_pos (.inl rfl), if_neg]
    rintro ⟨h, -⟩
    exact absurd h (by decide)
  | cons c line ih =>
    rw [List.cons_append, nextLine, if_neg (h c List.mem_cons_self),
      ih fun d hd => h d (List.mem_cons_of_mem _ hd)]

/-- The lines of a text are those written, each with a line break after it. -/
theorem textLinesLoop_flatMap {lines : List Bytes}
    (h : ∀ line ∈ lines, ∀ c ∈ line, ¬ (c = chr '\n' ∨ c = chr '\r')) {fuel : Nat}
    (hfuel : (lines.flatMap fun line => line ++ [chr '\n']).length ≤ fuel) :
    textLinesLoop fuel (lines.flatMap fun line => line ++ [chr '\n']) = lines := by
  induction lines generalizing fuel with
  | nil => cases fuel <;> rfl
  | cons line lines ih =>
    rw [List.flatMap_cons, List.append_assoc, List.singleton_append] at hfuel ⊢
    cases fuel with
    | zero => simp at hfuel
    | succ fuel =>
      rw [textLinesLoop, if_neg (by simp), nextLine_append (h line List.mem_cons_self)]
      rw [ih (fun l hl => h l (List.mem_cons_of_mem _ hl))]
      rw [List.length_append, List.length_cons] at hfuel
      omega

/-- The names of the parts of speech: present, free of the characters that the text gives a
    meaning, and kept by the normalization of the importer. -/
theorem getStringPosType_spec (pos : PosType) :
    getStringPosType pos ≠ [] ∧ (∀ c ∈ kInvalidChars, c ∉ getStringPosType pos)
      ∧ splitPosAndLocale (normalizePos (getStringPosType pos)) = (getStringPosType pos, [])
      ∧ consumeSuffix (consumeSuffix (getStringPosType pos) '$') '*' = getStringPosType pos := by
  have hspec : ∀ pos ∈ PosType.all,
      getStringPosType pos ≠ [] ∧ (∀ code ∈ pos.name, 0x80 ≤ code)
        ∧ (∀ tail ∈ (getStringPosType pos).tails, tail.take 2 ∉ widthHeads)
        ∧ splitPosAndLocale (getStringPosType pos) = (getStringPosType pos, [])
        ∧ consumeSuffix (consumeSuffix (getStringPosType pos) '$') '*' = getStringPosType pos := by
    decide +kernel
  obtain ⟨hne, hcodes, htails, hsplit, hsuffix⟩ := hspec pos pos.mem_all
  refine ⟨hne, fun c hc hmem => ?_, ?_, hsuffix⟩
  · -- An invalid character would be a code point of its own.
    have hinvalid : ∀ c ∈ kInvalidChars, c < 0x80 ∧ c.toNat < 0x80 := by simp [kInvalidChars]
    obtain ⟨hascii, hlow⟩ := hinvalid c hc
    obtain ⟨code, hcode, hbyte⟩ := List.mem_flatMap.mp hmem
    have hhigh := hcodes code hcode
    rw [eq_of_mem_codepointToUtf8 hascii hbyte] at hhigh
    exact absurd hhigh (Nat.not_le.mpr hlow)
  · rw [normalizePos, width_eq_self htails, hsplit]

example : splitPosAndLocale (getStringPosType .noun) = (getStringPosType .noun, []) := by
  decide +kernel

variable {entry : Entry}

theorem not_mem_field (h : ValidEntry entry) {c : UInt8} (hc : c ∈ kInvalidChars) {field : Bytes}
    (hfield : field ∈ [entry.key, entry.value, getStringPosType entry.posType, entry.comment]) :
    c ∉ field := by
  simp only [List.mem_cons, List.not_mem_nil, or_false] at hfield
  rcases hfield with rfl | rfl | rfl | rfl
  · exact h.key.not_mem hc
  · exact h.value.not_mem hc
  · exact (getStringPosType_spec entry.posType).2.1 c hc
  · exact h.comment.not_mem hc

theorem exportLine_eq (entry : Entry) :
    exportLine entry = [chr '\t'].intercalate
      [entry.key, entry.value, getStringPosType entry.posType, entry.comment] := by
  simp [exportLine, List.intercalate]

theorem splitOn_exportLine (h : ValidEntry entry) :
    (exportLine entry).splitOn (chr '\t')
      = [entry.key, entry.value, getStringPosType entry.posType, entry.comment] := by
  rw [exportLine_eq]
  exact List.splitOn_intercalate _ (fun field hfield => not_mem_field h (by decide) hfield)
    (List.cons_ne_nil _ _)

theorem not_break_of_mem_exportLine (h : ValidEntry entry) {c : UInt8} (hc : c ∈ exportLine entry) :
    ¬ (c = chr '\n' ∨ c = chr '\r') := by
  have hfield : ∀ d ∈ kInvalidChars,
      ∀ field ∈ [entry.key, entry.value, getStringPosType entry.posType, entry.comment],
        d ∉ field :=
    fun d hd field hf => not_mem_field h hd hf
  rintro (rfl | rfl)
  all_goals
    simp only [exportLine, List.mem_append, List.mem_singleton, or_assoc] at hc
    rcases hc with hc | hc | hc | hc | hc | hc | hc
    · exact hfield _ (by decide) entry.key (by simp) hc
    · exact absurd hc (by decide)
    · exact hfield _ (by decide) entry.value (by simp) hc
    · exact absurd hc (by decide)
    · exact hfield _ (by decide) (getStringPosType entry.posType) (by simp) hc
    · exact absurd hc (by decide)
    · exact hfield _ (by decide) entry.comment (by simp) hc

variable {entries : List Entry}

/-- **THE LINES COME BACK.** -/
theorem stringTextLineIterator_export (h : ∀ entry ∈ entries, ValidEntry entry) :
    stringTextLineIterator (exportDictionary entries) = entries.map exportLine := by
  have heq : exportDictionary entries
      = (entries.map exportLine).flatMap fun line => line ++ [chr '\n'] := by
    rw [exportDictionary, List.flatMap_map]
  rw [stringTextLineIterator, heq]
  refine textLinesLoop_flatMap ?_ le_rfl
  intro line hline c hc
  obtain ⟨entry, hentry, rfl⟩ := List.mem_map.mp hline
  exact not_break_of_mem_exportLine (h entry hentry) hc

theorem chopReturns_exportLine (h : ValidEntry entry) :
    chopReturns (exportLine entry) = exportLine entry := by
  rw [chopReturns, List.rdropWhile_eq_self_iff]
  intro hne hlast
  have := not_break_of_mem_exportLine h (List.getLast_mem hne)
  exact this (Or.symm (by simpa using hlast))

theorem head?_exportLine (h : ValidEntry entry) :
    (exportLine entry).head? = entry.key.head? := by
  obtain ⟨c, rest, hkey⟩ := List.exists_cons_of_ne_nil h.key_ne
  rw [exportLine, hkey]
  rfl

/-- The line of a key that starts with a number sign is a comment. -/
def startsWithNumberSign (entry : Entry) : Bool := entry.key.head? = some (chr '#')

/-- The fields of an entry as they are written. -/
def Entry.raw (entry : Entry) : RawEntry :=
  { key := entry.key, value := entry.value, pos := getStringPosType entry.posType
    comment := entry.comment }

/-- **A LINE IS READ** as its fields, but as nothing where the key starts with a number
    sign. -/
theorem lineEntry_exportLine (splitCsv : Bytes → List Bytes) (h : ValidEntry entry) :
    lineEntry splitCsv .mozc (exportLine entry)
      = if startsWithNumberSign entry then none else some entry.raw := by
  have hne : exportLine entry ≠ [] := by
    intro hnil
    have := head?_exportLine h
    rw [hnil] at this
    exact h.key_ne (List.head?_eq_none_iff.mp this.symm)
  have hcomment : isCommentLine .mozc (exportLine entry) ↔ startsWithNumberSign entry = true := by
    simp [isCommentLine, startsWithNumberSign, head?_exportLine h]
  rw [lineEntry, chopReturns_exportLine h]
  simp only [List.isEmpty_iff, if_neg hne, hcomment]
  by_cases hsign : startsWithNumberSign entry = true
  · rw [if_pos hsign, if_pos hsign]
  · rw [if_neg hsign, if_neg hsign, tabEntry, splitOn_exportLine h]
    rfl

/-! ## Importing what was exported -/

section

variable {α κ : Type} [DecidableEq κ] (key : α → κ)

/-- The first of the elements that agree on `key`, in their order. -/
def firsts : List α → List α
  | [] => []
  | a :: rest => a :: (firsts rest).filter fun b => key b ≠ key a

theorem filter_firsts_cons (seen : κ → Bool) (a : α) (rest : List α) :
    (firsts key (a :: rest)).filter (fun b => !seen (key b))
      = if seen (key a) then (firsts key rest).filter fun b => !seen (key b)
        else a :: (firsts key rest).filter fun b => !(decide (key b = key a) || seen (key b)) := by
  rw [firsts, List.filter_cons, List.filter_filter]
  by_cases h : seen (key a) = true
  · rw [h, Bool.not_true, if_neg Bool.false_ne_true, if_pos rfl]
    refine List.filter_congr fun b _ => ?_
    by_cases hb : key b = key a
    · simp [hb, h]
    · simp [hb]
  · rw [Bool.not_eq_true] at h
    rw [h, Bool.not_false, if_pos rfl, if_neg Bool.false_ne_true]
    congr 1
    refine List.filter_congr fun b _ => ?_
    by_cases hb : key b = key a <;> simp [hb]

end

variable {posMap : Bytes → Option (Option PosType)} {H : Type} [DecidableEq H]
  {hashOf : Bytes × Bytes × PosType → H}

/-- **AN ENTRY CONVERTS** to itself under its normalized key, where the map knows the names. -/
theorem convertEntry_raw (hpos : ∀ pos, posMap (getStringPosType pos) = some (some pos))
    (hvalid : validateEntry entry = .ok) (hreading : isValidReading entry.key = true) :
    convertEntry posMap entry.raw = some entry.imported := by
  obtain ⟨hne, -, hsplit, hsuffix⟩ := getStringPosType_spec entry.posType
  have hset : some entry.posType = entry.pos := by
    obtain ⟨pos, h⟩ := Option.isSome_iff_exists.mp (validateEntry_eq_ok.mp hvalid).pos
    rw [Entry.posType, h]
    rfl
  have himported := validateEntry_imported hvalid hreading
  rw [Entry.imported, ← hset] at himported ⊢
  simp only [convertEntry, Entry.raw, List.isEmpty_iff, if_neg hne, hsplit, hsuffix, hpos]
  rw [if_pos himported]

theorem importStep_converts {raw : RawEntry} (hkey : raw.key ≠ [])
    (hconvert : convertEntry posMap raw = some entry) (state : ImportState H) :
    importStep posMap hashOf raw state
      = if hashOf entry.word ∈ state.existentEntries then state
        else
          { state with
            entries := state.entries ++ [entry]
            existentEntries := hashOf entry.word :: state.existentEntries } := by
  rw [importStep, if_neg fun h => hkey (List.isEmpty_iff.mp h.1), hconvert]

/-- **THE IMPORT LOOP**: entries that all convert are added, the first of each word. -/
theorem importLoop_converts (hhash : Function.Injective hashOf) {raws : List RawEntry}
    (hconvert : List.Forall₂
      (fun raw entry => raw.key ≠ [] ∧ convertEntry posMap raw = some entry) raws entries)
    (state : ImportState H) (hsize : state.entries.length + entries.length ≤ kMaxEntrySize) :
    importLoop posMap hashOf raws state
      = (state.ret, state.entries ++ (firsts Entry.word entries).filter
          fun entry => !decide (hashOf entry.word ∈ state.existentEntries)) := by
  induction hconvert generalizing state with
  | nil => simp [importLoop, firsts]
  | @cons raw entry raws entries hraw _ ih =>
    rw [List.length_cons] at hsize
    have hfull : isDictionaryFull state.entries = false := by
      rw [isDictionaryFull, decide_eq_false_iff_not]
      omega
    rw [importLoop, hfull, if_neg Bool.false_ne_true, importStep_converts hraw.1 hraw.2,
      filter_firsts_cons Entry.word fun word => decide (hashOf word ∈ state.existentEntries)]
    by_cases hseen : hashOf entry.word ∈ state.existentEntries
    · rw [if_pos hseen, if_pos (decide_eq_true hseen)]
      exact ih state (by omega)
    · rw [if_neg hseen, if_neg (by simpa using hseen)]
      rw [ih _ (by simp only [List.length_append, List.length_singleton]; omega)]
      rw [List.append_assoc, List.singleton_append]
      have hfilter : ∀ b ∈ firsts Entry.word entries,
          (!decide (hashOf b.word ∈ hashOf entry.word :: state.existentEntries))
            = !(decide (b.word = entry.word)
              || decide (hashOf b.word ∈ state.existentEntries)) := by
        intro b _
        simp [hhash.eq_iff]
      rw [List.filter_congr hfilter]

theorem determineFinalIMEType_guess {line : Bytes} (h : chr '\t' ∈ line) :
    determineFinalIMEType .mozc (guessIMEType line) = .mozc := by
  have hguess : guessIMEType line ≠ .kotoeri := by
    intro hguess
    have hquote : ¬(line.head? = some (chr '"') ∧ line.getLast? = some (chr '"')
        ∧ chr '\t' ∉ line) := fun hquote => hquote.2.2 h
    simp only [guessIMEType, if_neg hquote] at hguess
    split_ifs at hguess
  rw [determineFinalIMEType, if_neg (fun h => by cases h), if_pos rfl, if_pos hguess]

theorem textInputIterator_export (splitCsv : Bytes → List Bytes)
    (h : ∀ entry ∈ entries, ValidEntry entry) :
    textInputIterator splitCsv .mozc (stringTextLineIterator (exportDictionary entries))
      = (entries.filter fun entry => !startsWithNumberSign entry).map Entry.raw := by
  rw [stringTextLineIterator_export h, textInputIterator, List.filterMap_map]
  induction entries with
  | nil => rfl
  | cons entry entries ih =>
    have ih := ih fun e he => h e (List.mem_cons_of_mem _ he)
    rw [List.filterMap_cons, List.filter_cons, Function.comp_apply,
      lineEntry_exportLine splitCsv (h entry List.mem_cons_self)]
    cases startsWithNumberSign entry with
    | false => exact congrArg (entry.raw :: ·) ih
    | true => exact ih

/-- **IMPORTING WHAT WAS EXPORTED** succeeds and gives the first entries among those whose
    reading does not start with a number sign. -/
theorem import_export (hpos : ∀ pos, posMap (getStringPosType pos) = some (some pos))
    (hhash : Function.Injective hashOf) (splitCsv : Bytes → List Bytes) (hne : entries ≠ [])
    (hsize : entries.length < kMaxEntrySize)
    (hvalid : ∀ entry ∈ entries, validateEntry entry = .ok ∧ isValidReading entry.key = true) :
    importFromTextLineIterator posMap hashOf splitCsv .mozc
        (stringTextLineIterator (exportDictionary entries)) []
      = (.ok, firsts Entry.word
          ((entries.filter fun entry => !startsWithNumberSign entry).map Entry.imported)) := by
  have hentries : ∀ entry ∈ entries, ValidEntry entry := fun entry he =>
    validateEntry_eq_ok.mp (hvalid entry he).1
  have htype : textInputType .mozc (stringTextLineIterator (exportDictionary entries)) = .mozc := by
    rw [stringTextLineIterator_export hentries]
    obtain ⟨entry, rest, rfl⟩ := List.exists_cons_of_ne_nil hne
    exact determineFinalIMEType_guess (by simp [exportLine])
  have hconvert : List.Forall₂
      (fun raw entry => raw.key ≠ [] ∧ convertEntry posMap raw = some entry)
      ((entries.filter fun entry => !startsWithNumberSign entry).map Entry.raw)
      ((entries.filter fun entry => !startsWithNumberSign entry).map Entry.imported) := by
    rw [List.forall₂_map_left_iff, List.forall₂_map_right_iff, List.forall₂_same]
    intro entry hentry
    have hmem := List.mem_of_mem_filter hentry
    exact ⟨(hentries entry hmem).key_ne,
      convertEntry_raw hpos (hvalid entry hmem).1 (hvalid entry hmem).2⟩
  rw [importFromTextLineIterator, htype, if_neg (fun h => by cases h),
    textInputIterator_export splitCsv hentries, importFromIterator,
    importLoop_converts hhash hconvert]
  · simp
  · rw [List.length_nil, Nat.zero_add, List.length_map]
    exact (List.length_filter_le _ _).trans hsize.le

/-- **THE ROUND TRIP**: an exported dictionary imports back exactly when leaving out the
    entries whose reading starts with a number sign leaves the same first entries. -/
theorem import_export_iff (hpos : ∀ pos, posMap (getStringPosType pos) = some (some pos))
    (hhash : Function.Injective hashOf) (splitCsv : Bytes → List Bytes) (entries : List Entry)
    (hne : entries ≠ []) (hsize : entries.length < kMaxEntrySize)
    (hvalid : ∀ entry ∈ entries, validateEntry entry = .ok ∧ isValidReading entry.key = true) :
    importFromTextLineIterator posMap hashOf splitCsv .mozc
          (stringTextLineIterator (exportDictionary entries)) []
        = (.ok, firsts Entry.word (entries.map Entry.imported))
      ↔ firsts Entry.word
            ((entries.filter fun entry => !startsWithNumberSign entry).map Entry.imported)
          = firsts Entry.word (entries.map Entry.imported) := by
  rw [import_export hpos hhash splitCsv hne hsize hvalid, Prod.mk.injEq]
  exact and_iff_right rfl

/-- A part of speech is found by its own name. -/
def nameTypes (name : Bytes) : Option (Option PosType) :=
  (PosType.all.find? fun pos => getStringPosType pos = name).map some

theorem nameTypes_name (pos : PosType) : nameTypes (getStringPosType pos) = some (some pos) := by
  have hspec : ∀ pos ∈ PosType.all, nameTypes (getStringPosType pos) = some (some pos) := by
    decide +kernel
  exact hspec pos pos.mem_all

/-- A noun of one letter. -/
def letterEntry (key : Bytes) : Entry :=
  { key, value := ascii "x", comment := [], pos := some .noun, locale := [] }

/-- An entry of one letter comes back. -/
theorem import_export_letter :
    importFromTextLineIterator nameTypes id (fun _ => []) .mozc
        (stringTextLineIterator (exportDictionary [letterEntry (ascii "a")])) []
      = (.ok, firsts Entry.word ([letterEntry (ascii "a")].map Entry.imported)) :=
  (import_export_iff nameTypes_name Function.injective_id (fun _ => [])
    [letterEntry (ascii "a")] (List.cons_ne_nil _ _) (by decide) (by decide +kernel)).mpr
    (by decide +kernel)

/-- The reading `#a` is written as a line that the importer takes for a comment. -/
theorem import_loses_number_sign :
    (validateEntry (letterEntry (ascii "#a")) = .ok ∧ isValidReading (ascii "#a") = true)
      ∧ importFromTextLineIterator nameTypes id (fun _ => []) .mozc
            (stringTextLineIterator (exportDictionary [letterEntry (ascii "#a")])) []
          ≠ (.ok, firsts Entry.word ([letterEntry (ascii "#a")].map Entry.imported)) := by
  decide +kernel

example : startsWithNumberSign (letterEntry (ascii "#a")) = true := by decide +kernel

end MozkeyUserDictionary
