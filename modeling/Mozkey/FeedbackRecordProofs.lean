import Mozkey.ByteStringProofs

/-! # The feedback file — TSV export and import

    One record of `zenz_feedback.tsv` is one line
    `v2 TAB action TAB key TAB context_class TAB value TAB reason LF`, every
    field escaped.  The reader accepts that form and the legacy v1 form, strips a
    byte order mark from the first field of a line and drops whatever
    `IsSafeFeedbackRecord` refuses.

    The route to the round trip:

    * `splitTab_fields`: joining tab-free fields by tabs and splitting again
      gives the fields back;
    * `getlines_lines`: the line loop gives back newline-terminated lines;
    * `parse_recordLine`: a safe record's line parses to that record.

    `IsValidUtf8ForFeedback` is a system call on Windows and constantly true
    elsewhere, so it is a parameter here. -/

namespace MozkeyFeedback

open ByteString

/-! ## Escaping -/

/-- What `EscapeTsv` appends for one character. -/
def escapeChar (c : UInt8) : Bytes :=
  if c = chr '\t' then ascii "\\t"
  else if c = chr '\r' then ascii "\\r"
  else if c = chr '\n' then ascii "\\n"
  else if c = chr '\\' then ascii "\\\\"
  else [c]

/-- `EscapeTsv`. -/
def escapeTsv (s : Bytes) : Bytes := s.flatMap escapeChar

/-- The character an escape sequence `\c` stands for. -/
def unescapeChar (c : UInt8) : UInt8 :=
  if c = chr 't' then chr '\t'
  else if c = chr 'r' then chr '\r'
  else if c = chr 'n' then chr '\n'
  else c

/-- The loop of `UnescapeTsv`; the flag is `escaping`. -/
def unescapeFrom : Bool → Bytes → Bytes
  | true, [] => [chr '\\']
  | false, [] => []
  | true, c :: rest => unescapeChar c :: unescapeFrom false rest
  | false, c :: rest =>
    if c = chr '\\' then unescapeFrom true rest else c :: unescapeFrom false rest

/-- `UnescapeTsv`. -/
def unescapeTsv (s : Bytes) : Bytes := unescapeFrom false s

/-- Bytes that may not stand in a field of the file. -/
def isUnsafeTsvTextChar (c : UInt8) : Bool :=
  c == chr '\t' || c == chr '\r' || c == chr '\n'

/-- `ContainsUnsafeTsvTextChar`. -/
def containsUnsafeTsvTextChar (s : Bytes) : Bool := s.any isUnsafeTsvTextChar

theorem unescapeFrom_escapeChar (c : UInt8) (rest : Bytes) :
    unescapeFrom false (escapeChar c ++ rest) = c :: unescapeFrom false rest := by
  rw [escapeChar]
  by_cases ht : c = chr '\t'
  · rw [if_pos ht, ht]; rfl
  · rw [if_neg ht]
    by_cases hr : c = chr '\r'
    · rw [if_pos hr, hr]; rfl
    · rw [if_neg hr]
      by_cases hn : c = chr '\n'
      · rw [if_pos hn, hn]; rfl
      · rw [if_neg hn]
        by_cases hb : c = chr '\\'
        · rw [if_pos hb, hb]; rfl
        · rw [if_neg hb]
          show unescapeFrom false (c :: rest) = _
          rw [unescapeFrom, if_neg hb]

/-- **UNESCAPE INVERTS ESCAPE** on every byte string. -/
theorem unescapeTsv_escapeTsv (s : Bytes) : unescapeTsv (escapeTsv s) = s := by
  induction s with
  | nil => rfl
  | cons c rest ih =>
    show unescapeFrom false (escapeChar c ++ escapeTsv rest) = c :: rest
    rw [unescapeFrom_escapeChar]
    exact congrArg (c :: ·) ih

theorem escapeChar_safe (c : UInt8) :
    containsUnsafeTsvTextChar (escapeChar c) = false := by
  rw [escapeChar]
  by_cases ht : c = chr '\t'
  · rw [if_pos ht]; decide
  · rw [if_neg ht]
    by_cases hr : c = chr '\r'
    · rw [if_pos hr]; decide
    · rw [if_neg hr]
      by_cases hn : c = chr '\n'
      · rw [if_pos hn]; decide
      · rw [if_neg hn]
        by_cases hb : c = chr '\\'
        · rw [if_pos hb]; decide
        · rw [if_neg hb]
          simp [containsUnsafeTsvTextChar, isUnsafeTsvTextChar, ht, hr, hn]

theorem escapeTsv_safe (s : Bytes) : containsUnsafeTsvTextChar (escapeTsv s) = false := by
  induction s with
  | nil => rfl
  | cons c rest ih =>
    show (escapeChar c ++ escapeTsv rest).any isUnsafeTsvTextChar = false
    rw [List.any_append]
    have h1 : (escapeChar c).any isUnsafeTsvTextChar = false := escapeChar_safe c
    have h2 : (escapeTsv rest).any isUnsafeTsvTextChar = false := ih
    rw [h1, h2]; rfl

theorem not_mem_of_safe {s : Bytes} (h : containsUnsafeTsvTextChar s = false) {c : UInt8}
    (hc : isUnsafeTsvTextChar c = true) : c ∉ s := by
  intro hmem
  have := List.any_eq_false.mp h c hmem
  exact this hc

/-! ## Splitting lines and fields -/

/-- The loop of `SplitTab`, with the field being read. -/
def splitTabFrom : Bytes → Bytes → List Bytes
  | current, [] => [current]
  | current, c :: rest =>
    if c = chr '\t' then current :: splitTabFrom [] rest
    else splitTabFrom (current ++ [c]) rest

/-- `SplitTab`. -/
def splitTab (line : Bytes) : List Bytes := splitTabFrom [] line

/-- The lines a `while (std::getline(...))` loop sees, with the line being read.
    At the end of the stream a line is delivered only if it has a character. -/
def getlinesFrom : Bytes → Bytes → List Bytes
  | current, [] => if current = [] then [] else [current]
  | current, c :: rest =>
    if c = chr '\n' then current :: getlinesFrom [] rest
    else getlinesFrom (current ++ [c]) rest

/-- The lines of a stream. -/
def getlines (input : Bytes) : List Bytes := getlinesFrom [] input

theorem splitTabFrom_append (current field rest : Bytes) (h : chr '\t' ∉ field) :
    splitTabFrom current (field ++ rest) = splitTabFrom (current ++ field) rest := by
  induction field generalizing current with
  | nil => rw [List.nil_append, List.append_nil]
  | cons c field ih =>
    have hc : ¬ c = chr '\t' := fun heq => h (by rw [heq]; exact List.mem_cons_self)
    rw [List.cons_append, splitTabFrom, if_neg hc,
      ih _ (fun hm => h (List.mem_cons_of_mem _ hm)), List.append_assoc]
    rfl

/-- Fields with tabs between them. -/
def joinTab : List Bytes → Bytes
  | [] => []
  | [f] => f
  | f :: fs => f ++ chr '\t' :: joinTab fs

theorem splitTab_fields : ∀ (f : Bytes) (fs : List Bytes),
    (∀ g ∈ f :: fs, chr '\t' ∉ g) → splitTab (joinTab (f :: fs)) = f :: fs := by
  intro f fs
  induction fs generalizing f with
  | nil =>
    intro h
    have := splitTabFrom_append [] f [] (h f List.mem_cons_self)
    rw [List.append_nil] at this
    exact this
  | cons g fs ih =>
    intro h
    show splitTabFrom [] (f ++ chr '\t' :: joinTab (g :: fs)) = f :: g :: fs
    rw [splitTabFrom_append [] f _ (h f List.mem_cons_self), splitTabFrom, if_pos rfl,
      List.nil_append]
    exact congrArg (f :: ·) (ih g (fun g' hg' => h g' (List.mem_cons_of_mem _ hg')))

theorem getlinesFrom_append (current line rest : Bytes) (h : chr '\n' ∉ line) :
    getlinesFrom current (line ++ rest) = getlinesFrom (current ++ line) rest := by
  induction line generalizing current with
  | nil => rw [List.nil_append, List.append_nil]
  | cons c line ih =>
    have hc : ¬ c = chr '\n' := fun heq => h (by rw [heq]; exact List.mem_cons_self)
    rw [List.cons_append, getlinesFrom, if_neg hc,
      ih _ (fun hm => h (List.mem_cons_of_mem _ hm)), List.append_assoc]
    rfl

theorem getlines_lines (lines : List Bytes) (h : ∀ l ∈ lines, chr '\n' ∉ l) :
    getlines (lines.flatMap (fun l => l ++ [chr '\n'])) = lines := by
  induction lines with
  | nil => rfl
  | cons l lines ih =>
    show getlinesFrom [] (l ++ [chr '\n'] ++ lines.flatMap _) = l :: lines
    rw [List.append_assoc, getlinesFrom_append [] l _ (h l List.mem_cons_self)]
    show getlinesFrom ([] ++ l) (chr '\n' :: lines.flatMap _) = l :: lines
    rw [getlinesFrom, if_pos rfl, List.nil_append]
    exact congrArg (l :: ·) (ih (fun l' hl' => h l' (List.mem_cons_of_mem _ hl')))

/-- `StripUtf8BomFromFirstField`. -/
def stripUtf8BomFromFirstField : List Bytes → List Bytes
  | [] => []
  | first :: rest =>
    (if [0xEF, 0xBB, 0xBF] <+: first then first.drop 3 else first) :: rest

/-! ## Records -/

/-- `ParsedFeedbackRecord`. -/
structure ParsedFeedbackRecord where
  action : Bytes
  key : Bytes
  contextClass : Bytes
  value : Bytes
  reason : Bytes
  deriving DecidableEq

/-- `IsKnownContextClass`. -/
def isKnownContextClass (contextClass : Bytes) : Bool :=
  contextClass == ascii "empty"
    || contextClass == ascii "japanese_only"
    || contextClass == ascii "japanese_with_punctuation"
    || contextClass == ascii "mixed_japanese_ascii"
    || contextClass == ascii "symbol_or_other"
    || contextClass == ascii "ascii_or_digit"
    || contextClass == ascii "sensitive_like"
    || contextClass == ascii "legacy"

/-- `NormalizeContextClass`. -/
def normalizeContextClass (contextClass : Bytes) : Bytes :=
  if contextClass = [] then ascii "empty" else contextClass

/-- The longest fields of a safe record. -/
def kMaxKeyBytes : Nat := 512
def kMaxContextClassBytes : Nat := 64
def kMaxValueBytes : Nat := 512
def kMaxReasonBytes : Nat := 128

section Records

variable (isValidUtf8ForFeedback : Bytes → Bool)

/-- `IsSafeFeedbackRecord`. -/
def isSafeFeedbackRecord (record : ParsedFeedbackRecord) : Bool :=
  if record.action ≠ ascii "accepted" ∧ record.action ≠ ascii "rejected" then false
  else if record.key = [] ∨ record.value = [] then false
  else if isKnownContextClass record.contextClass = false then false
  else if record.key.length > kMaxKeyBytes
      ∨ record.contextClass.length > kMaxContextClassBytes
      ∨ record.value.length > kMaxValueBytes
      ∨ record.reason.length > kMaxReasonBytes then false
  else if containsUnsafeTsvTextChar record.action
      || containsUnsafeTsvTextChar record.key
      || containsUnsafeTsvTextChar record.contextClass
      || containsUnsafeTsvTextChar record.value
      || containsUnsafeTsvTextChar record.reason then false
  else isValidUtf8ForFeedback record.key
    && isValidUtf8ForFeedback record.contextClass
    && isValidUtf8ForFeedback record.value
    && isValidUtf8ForFeedback record.reason

/-- `ParseFeedbackRecord`: `none` is the `false` return, which leaves the output
    record alone. -/
def parseFeedbackRecord (fields : List Bytes) : Option ParsedFeedbackRecord :=
  if fields.length ≥ 5 ∧ fields.getD 0 [] = ascii "v2" then
    let parsed : ParsedFeedbackRecord :=
      { action := unescapeTsv (fields.getD 1 [])
        key := unescapeTsv (fields.getD 2 [])
        contextClass := normalizeContextClass (unescapeTsv (fields.getD 3 []))
        value := unescapeTsv (fields.getD 4 [])
        reason := if fields.length ≥ 6 then unescapeTsv (fields.getD 5 []) else [] }
    if isSafeFeedbackRecord isValidUtf8ForFeedback parsed then some parsed else none
  else if fields.length ≥ 4 ∧
      (fields.getD 0 [] = ascii "accepted" ∨ fields.getD 0 [] = ascii "rejected") then
    -- v1: the raw context column is never used, only the coarse legacy bucket
    let parsed : ParsedFeedbackRecord :=
      { action := unescapeTsv (fields.getD 0 [])
        key := unescapeTsv (fields.getD 1 [])
        contextClass := ascii "legacy"
        value := unescapeTsv (fields.getD 3 [])
        reason := if fields.length ≥ 5 then unescapeTsv (fields.getD 4 []) else [] }
    if isSafeFeedbackRecord isValidUtf8ForFeedback parsed then some parsed else none
  else none

/-- An output stream: its state and what it has taken. -/
structure OStream where
  good : Bool
  written : Bytes

/-- A fresh stream that accepts everything. -/
def OStream.fresh : OStream := ⟨true, []⟩

/-- `operator<<`: a failed stream takes nothing. -/
def OStream.put (s : OStream) (text : Bytes) : OStream :=
  if s.good then { s with written := s.written ++ text } else s

/-- The text `WriteRecordToStream` writes, without the line feed. -/
def recordLine (record : ParsedFeedbackRecord) : Bytes :=
  joinTab [ascii "v2", escapeTsv record.action, escapeTsv record.key,
    escapeTsv (normalizeContextClass record.contextClass), escapeTsv record.value,
    escapeTsv record.reason]

/-- `WriteRecordToStream`: a line. -/
def writeRecordToStream (record : ParsedFeedbackRecord) (output : OStream) : OStream :=
  output.put (recordLine record ++ [chr '\n'])

/-- `WriteRecordsToStream`: the returned flag and the stream afterwards. -/
def writeRecordsToStream : List ParsedFeedbackRecord → OStream → Bool × OStream
  | [], output => (output.good, output)
  | record :: records, output =>
    if isSafeFeedbackRecord isValidUtf8ForFeedback record = false then (false, output)
    else writeRecordsToStream records (writeRecordToStream record output)

/-- The loop of `LoadRecordsFromStream` over the lines, with `ok` and `records`. -/
def loadLines (strict : Bool) :
    List Bytes → Bool → List ParsedFeedbackRecord → Bool × List ParsedFeedbackRecord
  | [], ok, records => (ok || !strict, records)
  | line :: lines, ok, records =>
    if line = [] then loadLines strict lines ok records
    else
      match parseFeedbackRecord isValidUtf8ForFeedback
          (stripUtf8BomFromFirstField (splitTab line)) with
      | none => if strict then (false, records) else loadLines strict lines false records
      | some record => loadLines strict lines ok (records ++ [record])

/-- `LoadRecordsFromStream`: the returned flag and the records. -/
def loadRecordsFromStream (strict : Bool) (input : Bytes) :
    Bool × List ParsedFeedbackRecord :=
  loadLines isValidUtf8ForFeedback strict (getlines input) true []

/-! ## The round trip -/

variable {isValidUtf8ForFeedback}

theorem safe_known {record : ParsedFeedbackRecord}
    (h : isSafeFeedbackRecord isValidUtf8ForFeedback record = true) :
    isKnownContextClass record.contextClass = true := by
  cases hk : isKnownContextClass record.contextClass with
  | true => rfl
  | false =>
    rw [isSafeFeedbackRecord] at h
    split at h
    · exact nomatch h
    · split at h
      · exact nomatch h
      · exact nomatch h

theorem normalizeContextClass_known {c : Bytes} (h : isKnownContextClass c = true) :
    normalizeContextClass c = c := by
  rw [normalizeContextClass]
  by_cases hc : c = []
  · rw [hc] at h
    exact absurd h (by decide)
  · rw [if_neg hc]

theorem splitTab_recordLine (record : ParsedFeedbackRecord) :
    splitTab (recordLine record)
      = [ascii "v2", escapeTsv record.action, escapeTsv record.key,
          escapeTsv (normalizeContextClass record.contextClass), escapeTsv record.value,
          escapeTsv record.reason] := by
  refine splitTab_fields _ _ ?_
  have hesc : ∀ s : Bytes, chr '\t' ∉ escapeTsv s := fun s =>
    not_mem_of_safe (escapeTsv_safe s) (by decide)
  intro g hg
  simp only [List.mem_cons, List.not_mem_nil, or_false] at hg
  rcases hg with rfl | rfl | rfl | rfl | rfl | rfl
  · decide
  all_goals exact hesc _

theorem recordLine_no_newline (record : ParsedFeedbackRecord) :
    chr '\n' ∉ recordLine record := by
  have hesc : ∀ s : Bytes, chr '\n' ∉ escapeTsv s := fun s =>
    not_mem_of_safe (escapeTsv_safe s) (by decide)
  have hne : chr '\n' ≠ chr '\t' := by decide
  have hv : chr '\n' ∉ ascii "v2" := by decide
  simp only [recordLine, joinTab, List.mem_append, List.mem_cons, not_or]
  exact ⟨hv, hne, hesc _, hne, hesc _, hne, hesc _, hne, hesc _, hne, hesc _⟩

/-- **A SAFE RECORD'S LINE PARSES BACK** to that record. -/
theorem parse_recordLine {record : ParsedFeedbackRecord}
    (h : isSafeFeedbackRecord isValidUtf8ForFeedback record = true) :
    parseFeedbackRecord isValidUtf8ForFeedback
      (stripUtf8BomFromFirstField (splitTab (recordLine record))) = some record := by
  have hn := normalizeContextClass_known (safe_known h)
  have hbom : ¬ ([0xEF, 0xBB, 0xBF] <+: ascii "v2") := by decide
  rw [splitTab_recordLine, stripUtf8BomFromFirstField, if_neg hbom, parseFeedbackRecord,
    if_pos ⟨by simp, rfl⟩]
  simp only [List.getD_cons_succ, List.getD_cons_zero, unescapeTsv_escapeTsv, hn,
    List.length_cons, List.length_nil]
  exact if_pos h

theorem recordLine_ne_nil (record : ParsedFeedbackRecord) : recordLine record ≠ [] :=
  List.cons_ne_nil _ _

theorem writeRecordsToStream_safe : ∀ (records : List ParsedFeedbackRecord) (w : Bytes),
    (∀ r ∈ records, isSafeFeedbackRecord isValidUtf8ForFeedback r = true) →
    writeRecordsToStream isValidUtf8ForFeedback records ⟨true, w⟩
      = (true, ⟨true, w ++ (records.map recordLine).flatMap (fun l => l ++ [chr '\n'])⟩) := by
  intro records
  induction records with
  | nil => intro w _; rw [List.map_nil, List.flatMap_nil, List.append_nil]; rfl
  | cons r records ih =>
    intro w h
    have hr : ¬ isSafeFeedbackRecord isValidUtf8ForFeedback r = false := by
      rw [h r List.mem_cons_self]; exact fun h' => nomatch h'
    rw [writeRecordsToStream, if_neg hr]
    show writeRecordsToStream isValidUtf8ForFeedback records
      ⟨true, w ++ (recordLine r ++ [chr '\n'])⟩ = _
    rw [ih _ (fun r' hr' => h r' (List.mem_cons_of_mem _ hr')), List.append_assoc]
    rfl

theorem loadLines_safe (strict : Bool) : ∀ (records acc : List ParsedFeedbackRecord),
    (∀ r ∈ records, isSafeFeedbackRecord isValidUtf8ForFeedback r = true) →
    loadLines isValidUtf8ForFeedback strict (records.map recordLine) true acc
      = (true, acc ++ records) := by
  intro records
  induction records with
  | nil => intro acc _; rw [List.append_nil]; rfl
  | cons r records ih =>
    intro acc h
    rw [List.map_cons, loadLines, if_neg (recordLine_ne_nil r),
      parse_recordLine (h r List.mem_cons_self)]
    show loadLines isValidUtf8ForFeedback strict (records.map recordLine) true (acc ++ [r])
      = _
    rw [ih _ (fun r' hr' => h r' (List.mem_cons_of_mem _ hr')), List.append_assoc]
    rfl

end Records

/-- **THE ROUND TRIP.**  Exporting safe records succeeds, and a strict import of
    the written bytes returns the same records in the same order; escaping is
    undone by unescaping and leaves no tab, CR or LF, for every byte string. -/
theorem feedback_tsv_round_trip (isValidUtf8ForFeedback : Bytes → Bool) :
    (∀ records : List ParsedFeedbackRecord,
      (∀ r ∈ records, isSafeFeedbackRecord isValidUtf8ForFeedback r = true) →
      (writeRecordsToStream isValidUtf8ForFeedback records OStream.fresh).1 = true ∧
      loadRecordsFromStream isValidUtf8ForFeedback true
          (writeRecordsToStream isValidUtf8ForFeedback records OStream.fresh).2.written
        = (true, records)) ∧
    (∀ s : Bytes, unescapeTsv (escapeTsv s) = s ∧
      chr '\t' ∉ escapeTsv s ∧ chr '\r' ∉ escapeTsv s ∧ chr '\n' ∉ escapeTsv s) := by
  constructor
  · intro records h
    rw [show OStream.fresh = ⟨true, []⟩ from rfl, writeRecordsToStream_safe records [] h]
    refine ⟨rfl, ?_⟩
    have hlines : getlines ((records.map recordLine).flatMap (fun l => l ++ [chr '\n']))
        = records.map recordLine := by
      refine getlines_lines _ ?_
      intro l hl
      obtain ⟨r, -, rfl⟩ := List.mem_map.mp hl
      exact recordLine_no_newline r
    rw [loadRecordsFromStream, List.nil_append, hlines, loadLines_safe true records [] h,
      List.nil_append]
  · intro s
    have hs := escapeTsv_safe s
    exact ⟨unescapeTsv_escapeTsv s, not_mem_of_safe hs (by decide),
      not_mem_of_safe hs (by decide), not_mem_of_safe hs (by decide)⟩

/-- The round trip on an accepted record with a backslash in its key and an empty
    reason, and a rejected one. -/
theorem feedback_tsv_round_trip_two :
    let records : List ParsedFeedbackRecord :=
      [⟨ascii "accepted", ascii "a\\t", ascii "empty", ascii "b\\", []⟩,
       ⟨ascii "rejected", ascii "k", ascii "legacy", ascii "v", ascii "hard_reject"⟩]
    (writeRecordsToStream (fun _ => true) records OStream.fresh).1 = true ∧
    loadRecordsFromStream (fun _ => true) true
        (writeRecordsToStream (fun _ => true) records OStream.fresh).2.written
      = (true, records) :=
  (feedback_tsv_round_trip (fun _ => true)).1 _ (by decide)

end MozkeyFeedback
