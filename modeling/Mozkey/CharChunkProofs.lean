import Mozkey.RomajiTableProofs
import Mozkey.TransliteratorsProofs

/-! # CharChunk — one unit of a composition

    A chunk keeps what was typed (`raw`), what it has become (`conversion`) and what may become
    something else with the next key (`pending`, shown as `ambiguous` where a rule says so).
    `AddInput` takes input as long as the table has rules for it.  All chunks of a composition
    share its table; the cached length is the length, since every change clears it. -/

namespace MozkeyComposer

open ByteString MozkeyUtil CharTrie

/-- `CompositionInput`, without the probable key events. -/
structure CompositionInput where
  raw : Bytes
  conversion : Bytes
  isNewInput : Bool
  isAsis : Bool
  deriving DecidableEq

/-- `CompositionInput::Clear`. -/
def CompositionInput.cleared : CompositionInput := ⟨[], [], false, false⟩

/-- `CompositionInput::Empty`. -/
def CompositionInput.empty (input : CompositionInput) : Bool :=
  input.raw.isEmpty && input.conversion.isEmpty

/-- `CharChunk`, without its table. -/
structure CharChunk where
  transliterator : Transliterator
  raw : Bytes
  conversion : Bytes
  pending : Bytes
  ambiguous : Bytes
  displayAmbiguousAsResult : Bool
  displayAmbiguousResultRaw : Bytes
  displayAmbiguousResultConversion : Bytes
  displayAmbiguousResultAmbiguous : Bytes
  displayAmbiguousResultAttributes : TableAttributes
  attributes : TableAttributes
  deriving DecidableEq

/-- The `CharChunk` constructor. -/
def CharChunk.new (transliterator : Transliterator) : CharChunk where
  transliterator := transliterator
  raw := []
  conversion := []
  pending := []
  ambiguous := []
  displayAmbiguousAsResult := false
  displayAmbiguousResultRaw := []
  displayAmbiguousResultConversion := []
  displayAmbiguousResultAmbiguous := []
  displayAmbiguousResultAttributes := noTableAttribute
  attributes := noTableAttribute

/-! ## Display -/

/-- `CharChunk::GetDisplayConverted`. -/
def CharChunk.getDisplayConverted (chunk : CharChunk) : Bytes :=
  if chunk.displayAmbiguousAsResult && !chunk.ambiguous.isEmpty then
    chunk.conversion ++ chunk.ambiguous
  else chunk.conversion ++ chunk.pending

/-- `CharChunk::GetTransliterator`. -/
def CharChunk.getTransliterator (chunk : CharChunk) (transliterator : Transliterator) :
    Transliterator :=
  if hasAttribute chunk.attributes noTransliteration then
    if transliterator = .localT12r ∨ transliterator = .halfAscii
        ∨ transliterator = .fullAscii then
      .conversionString
    else transliterator
  else if transliterator = .localT12r then chunk.transliterator
  else transliterator

/-- `CharChunk::AppendResult`, as the string that it appends. -/
def CharChunk.result (j : JapaneseUtil) (chunk : CharChunk) (t12r : Transliterator) : Bytes :=
  j.transliterate (chunk.getTransliterator t12r) (deleteSpecialKeys chunk.raw)
    (deleteSpecialKeys chunk.getDisplayConverted)

/-- `CharChunk::GetLength`. -/
def CharChunk.getLength (j : JapaneseUtil) (chunk : CharChunk) (t12r : Transliterator) : Nat :=
  charsLen (chunk.result j t12r)

/-! ## Ambiguous results -/

/-- `CharChunk::ClearDisplayAmbiguousResultFallback`. -/
def CharChunk.clearDisplayAmbiguousResultFallback (chunk : CharChunk) : CharChunk :=
  { chunk with
    displayAmbiguousResultRaw := []
    displayAmbiguousResultConversion := []
    displayAmbiguousResultAmbiguous := []
    displayAmbiguousResultAttributes := noTableAttribute }

/-- `CharChunk::SaveDisplayAmbiguousResultFallback`. -/
def CharChunk.saveDisplayAmbiguousResultFallback (chunk : CharChunk) : CharChunk :=
  { chunk with
    displayAmbiguousResultRaw := chunk.raw
    displayAmbiguousResultConversion := chunk.conversion
    displayAmbiguousResultAmbiguous := chunk.ambiguous
    displayAmbiguousResultAttributes := chunk.attributes }

/-- `CharChunk::HasDisplayAmbiguousResultFallback`. -/
def CharChunk.hasDisplayAmbiguousResultFallback (chunk : CharChunk) : Bool :=
  !chunk.displayAmbiguousResultRaw.isEmpty
    && chunk.displayAmbiguousResultRaw.length < chunk.raw.length
    && chunk.displayAmbiguousResultRaw.isPrefixOf chunk.raw

/-- `CharChunk::RestoreDisplayAmbiguousResultFallback`, with the input to replay. -/
def CharChunk.restoreDisplayAmbiguousResultFallback (chunk : CharChunk) (input : Bytes) :
    CharChunk × Bytes :=
  ({ chunk with
      raw := chunk.displayAmbiguousResultRaw
      conversion :=
        chunk.displayAmbiguousResultConversion ++ chunk.displayAmbiguousResultAmbiguous
      pending := []
      ambiguous := []
      displayAmbiguousAsResult := false
      attributes := chunk.displayAmbiguousResultAttributes }.clearDisplayAmbiguousResultFallback,
    chunk.raw.drop chunk.displayAmbiguousResultRaw.length ++ input)

/-! ## Adding input -/

/-- The first character, and what is behind it. -/
def frontChar (s : Bytes) : Bytes × Bytes :=
  match s with
  | [] => ([], [])
  | c :: _ => (s.take (oneCharLen c), s.drop (oneCharLen c))

/-- `CharChunk::AddInputInternal` where no entry is found: the chunk, whether to loop, and the
    remaining input. -/
def CharChunk.addInputNoEntry (t : Table) (chunk : CharChunk) (usedKeyLength : Nat)
    (input : Bytes) : CharChunk × Bool × Bytes :=
  let trimmed := trimLeadingSpecialKey input
  if usedKeyLength ≤ chunk.pending.length ∧ chunk.hasDisplayAmbiguousResultFallback then
    let restored := chunk.restoreDisplayAmbiguousResultFallback input
    (restored.1, false, restored.2)
  else if usedKeyLength = 0 then
    if trimmed.length < input.length then (chunk, true, trimmed)
    else if chunk.pending.isEmpty then
      let front := frontChar input
      ({ chunk with raw := chunk.raw ++ front.1, conversion := chunk.conversion ++ front.1 },
        false, front.2)
    else (chunk, false, input)
  else if usedKeyLength = chunk.pending.length then
    let next := t.lookUpPrefix input
    let noEntry := next.data.isNone && next.keyLength = 0
    if noEntry ∧ trimmed.length < input.length then (chunk, true, trimmed)
    else (chunk, false, input)
  else if usedKeyLength < chunk.pending.length then (chunk, false, input)
  else
    let usedInputLength := usedKeyLength - chunk.pending.length
    let usedInputChars := input.take usedInputLength
    ({ chunk with
        raw := chunk.raw ++ usedInputChars
        pending := chunk.pending ++ usedInputChars
        ambiguous := []
        displayAmbiguousAsResult := false }, false, input.drop usedInputLength)

/-- The chunk with `n` bytes of the input moved to it, and the attributes of its first entry. -/
def CharChunk.moved (chunk : CharChunk) (entry : Entry) (input : Bytes) (n : Nat) : CharChunk :=
  let isFirstEntry := chunk.conversion.isEmpty
    && (chunk.raw.isEmpty || chunk.pending.isEmpty || chunk.raw = chunk.pending)
  { chunk with
    raw := chunk.raw ++ input.take n
    attributes := if isFirstEntry then entry.attributes else chunk.attributes }

/-- The state of a chunk behind an entry, from the raw string and the attributes on. -/
def CharChunk.applyEntry (chunk : CharChunk) (entry : Entry) (key : Bytes) (resolved : Bool) :
    CharChunk :=
  if resolved then
    { chunk with
      conversion := chunk.conversion ++ entry.result
      pending := entry.pending
      ambiguous := []
      displayAmbiguousAsResult := false }.clearDisplayAmbiguousResultFallback
  else
    let ambiguous :=
      { chunk with
        pending := key
        ambiguous := entry.result
        displayAmbiguousAsResult := hasAttribute entry.attributes displayAmbiguousResult }
    if ambiguous.displayAmbiguousAsResult then ambiguous.saveDisplayAmbiguousResultFallback
    else ambiguous.clearDisplayAmbiguousResultFallback

/-- `CharChunk::AddInputInternal` where an entry is found; `none` where it ends within the
    pending string and `substr` throws. -/
def CharChunk.addInputEntry (chunk : CharChunk) (entry : Entry) (usedKeyLength : Nat)
    (fixed : Bool) (input : Bytes) : Option (CharChunk × Bool × Bytes) :=
  if usedKeyLength < chunk.pending.length then none
  else
    let key := chunk.pending ++ input
    let usedInputLength := usedKeyLength - chunk.pending.length
    let chunk := (chunk.moved entry input usedInputLength).applyEntry entry key
      (fixed || usedKeyLength < key.length)
    let input := input.drop usedInputLength
    if fixed && input.isEmpty && chunk.conversion.isEmpty && chunk.pending.isEmpty
        && hasAttribute chunk.attributes noTransliteration then
      some ({ chunk with raw := [] }, false, input)
    else if input.isEmpty || chunk.pending.isEmpty then some (chunk, false, input)
    else some (chunk, true, input)

/-- `CharChunk::AddInputInternal`. -/
def CharChunk.addInputInternal (t : Table) (chunk : CharChunk) (input : Bytes) :
    Option (CharChunk × Bool × Bytes) :=
  let found := t.lookUpPrefix (chunk.pending ++ input)
  match found.data with
  | none => some (chunk.addInputNoEntry t found.keyLength input)
  | some entry => chunk.addInputEntry entry found.keyLength found.fixed input

/-- The loop of `CharChunk::AddInput`; `none` also where the fuel does not do. -/
def CharChunk.addInput (t : Table) : Nat → CharChunk → Bytes → Option (CharChunk × Bytes)
  | 0, _, _ => none
  | fuel + 1, chunk, input =>
    match chunk.addInputInternal t input with
    | none => none
    | some (chunk, true, input) => chunk.addInput t fuel input
    | some (chunk, false, input) => some (chunk, input)

/-- The chunks that `AddCompositionInput` and `InsertInput` take for empty. -/
def CharChunk.isEmpty (chunk : CharChunk) : Bool :=
  chunk.raw.isEmpty && chunk.conversion.isEmpty && chunk.pending.isEmpty

/-- `CharChunk::AddInputAndConvertedChar`. -/
def CharChunk.addInputAndConvertedChar (t : Table) (chunk : CharChunk)
    (input : CompositionInput) : CharChunk × CompositionInput :=
  if input.isAsis then
    if chunk.isEmpty then
      ({ chunk with raw := input.raw, conversion := input.conversion }, .cleared)
    else (chunk, input)
  else if chunk.isEmpty then
    ({ chunk with
        raw := input.raw
        pending := input.conversion
        ambiguous := input.conversion
        attributes := ((t.lookUp input.conversion).map Entry.attributes).getD chunk.attributes },
      { input with raw := [], conversion := [] })
  else
    let keyInput := chunk.pending ++ input.conversion
    let found := t.lookUpPrefix keyInput
    match found.data with
    | none => (chunk, input)
    | some entry =>
      if found.keyLength = keyInput.length then
        let taken := { chunk with raw := chunk.raw ++ input.raw }
        (if found.fixed then
            { taken with
              conversion := chunk.conversion ++ entry.result
              pending := entry.pending
              ambiguous := [] }
          else { taken with pending := entry.result, ambiguous := entry.result },
          { input with raw := [], conversion := [] })
      else if found.keyLength = chunk.pending.length then (chunk, input)
      else
        ({ chunk with
            raw := chunk.raw ++ input.raw
            conversion := chunk.conversion ++ entry.result
            pending := entry.pending },
          { input with raw := [], conversion := keyInput.drop found.keyLength })

/-- `CharChunk::ShouldInsertNewChunk`. -/
def CharChunk.shouldInsertNewChunk (t : Table) (chunk : CharChunk) (input : CompositionInput) :
    Bool :=
  if chunk.isEmpty then false
  else
    let isNewInput := input.isNewInput
      || (hasAttribute chunk.attributes endChunk && chunk.pending.isEmpty)
    isNewInput && (t.hasNewChunkEntry input.raw || !t.hasSubRules input.raw)

/-- `CharChunk::AddCompositionInput`. -/
def CharChunk.addCompositionInput (t : Table) (fuel : Nat) (chunk : CharChunk)
    (input : CompositionInput) : Option (CharChunk × CompositionInput) :=
  if !input.conversion.isEmpty then some (chunk.addInputAndConvertedChar t input)
  else if chunk.shouldInsertNewChunk t input then some (chunk, input)
  else (chunk.addInput t fuel input.raw).map fun added => (added.1, { input with raw := added.2 })

/-! ## Combining and splitting -/

/-- `CharChunk::IsAppendable`, within one composition. -/
def CharChunk.isAppendable (chunk : CharChunk) (t12r : Transliterator) : Bool :=
  !chunk.pending.isEmpty && (t12r = .localT12r || t12r = chunk.transliterator)

/-- `CharChunk::IsConvertible`. -/
def CharChunk.isConvertible (t : Table) (chunk : CharChunk) (t12r : Transliterator)
    (input : Bytes) : Bool :=
  let key := chunk.pending ++ input
  let found := t.lookUpPrefix key
  chunk.isAppendable t12r && found.data.isSome && key.length = found.keyLength && found.fixed

/-- `CharChunk::Combine`. -/
def CharChunk.combine (chunk leftChunk : CharChunk) : CharChunk :=
  { chunk with
    conversion := leftChunk.conversion ++ chunk.conversion
    raw := leftChunk.raw ++ chunk.raw
    ambiguous :=
      if leftChunk.ambiguous.isEmpty then []
      else if chunk.ambiguous.isEmpty then leftChunk.ambiguous ++ chunk.pending
      else leftChunk.ambiguous ++ chunk.ambiguous
    pending := leftChunk.pending ++ chunk.pending }

/-- The chunks that `CharChunk::SplitChunk` makes of the parts of both strings. -/
def CharChunk.splitAt (chunk : CharChunk) (parts : SplitStrings) : CharChunk × CharChunk :=
  let left := { CharChunk.new chunk.transliterator with raw := parts.rawLhs }
  if chunk.conversion.length < parts.convertedLhs.length then
    ({ left with
        conversion := chunk.conversion
        pending := parts.convertedLhs.drop chunk.conversion.length },
      { chunk with
        raw := parts.rawRhs
        conversion := []
        pending := parts.convertedRhs
        ambiguous := [] })
  else
    -- The position of the pending string wraps around where it is longer than the right part,
    -- and `assign` then takes the whole part.
    let pendingPos :=
      if parts.convertedRhs.length < chunk.pending.length then parts.convertedRhs.length
      else parts.convertedRhs.length - chunk.pending.length
    ({ left with conversion := parts.convertedLhs },
      { chunk with
        raw := parts.rawRhs
        conversion := parts.convertedRhs.take pendingPos })

/-- `CharChunk::SplitChunk`: the left chunk, where the position is within the chunk, and what
    remains; `none` where a string that is split ends in a character that is cut off. -/
def CharChunk.splitChunk (j : JapaneseUtil) (chunk : CharChunk) (t12r : Transliterator)
    (position : Nat) : Option (Option CharChunk × CharChunk) :=
  if position = 0 ∨ chunk.getLength j t12r ≤ position then some (none, chunk)
  else
    (j.split (chunk.getTransliterator t12r) position (deleteSpecialKeys chunk.raw)
      (deleteSpecialKeys (chunk.conversion ++ chunk.pending))).map fun parts =>
        let chunks := chunk.splitAt parts
        (some chunks.1, chunks.2)

variable {t : Table} {j : JapaneseUtil} {chunk chunk' : CharChunk} {input rest : Bytes}
  {loop : Bool}

/-! ## One step of `AddInput` -/

/-- What one step of `AddInput` can do. -/
inductive CharChunk.Added (t : Table) (chunk : CharChunk) (input : Bytes) :
    CharChunk → Bool → Bytes → Prop
  /-- The state of an ambiguous result comes back, with the input to replay. -/
  | restored (hfallback : chunk.hasDisplayAmbiguousResultFallback = true) :
      Added t chunk input (chunk.restoreDisplayAmbiguousResultFallback input).1 false
        (chunk.restoreDisplayAmbiguousResultFallback input).2
  /-- A special key goes. -/
  | trimmed (hnone : (t.lookUpPrefix (chunk.pending ++ input)).data = none)
      (hlen : (trimLeadingSpecialKey input).length < input.length) :
      Added t chunk input chunk true (trimLeadingSpecialKey input)
  /-- One character is taken as it is. -/
  | front (hpending : chunk.pending = []) :
      Added t chunk input
        { chunk with
          raw := chunk.raw ++ (frontChar input).1
          conversion := chunk.conversion ++ (frontChar input).1 } false (frontChar input).2
  /-- All is left to the next chunk. -/
  | kept (hpending : chunk.pending ≠ []) : Added t chunk input chunk false input
  /-- Input is taken that may match later. -/
  | pending {n : Nat} (hpos : 0 < n) (hn : n ≤ input.length) :
      Added t chunk input
        { chunk with
          raw := chunk.raw ++ input.take n
          pending := chunk.pending ++ input.take n
          ambiguous := []
          displayAmbiguousAsResult := false } false (input.drop n)
  /-- An entry matches. -/
  | matched {entry : Entry} {n : Nat} (resolved loop : Bool)
      (hfound : (t.lookUpPrefix (chunk.pending ++ input)).data = some entry)
      (hlen : (t.lookUpPrefix (chunk.pending ++ input)).keyLength = chunk.pending.length + n)
      (hn : n ≤ input.length)
      (hresolved : resolved = false → n = input.length)
      (hloop : loop = true → resolved = true) :
      Added t chunk input
        ((chunk.moved entry input n).applyEntry entry (chunk.pending ++ input) resolved) loop
        (input.drop n)
  /-- An entry without a result matches all that was typed, which is forgotten. -/
  | cleared {entry : Entry} {n : Nat} (resolved : Bool)
      (hfound : (t.lookUpPrefix (chunk.pending ++ input)).data = some entry)
      (hattribute : hasAttribute ((chunk.moved entry input n).applyEntry entry
        (chunk.pending ++ input) resolved).attributes noTransliteration = true)
      (hrest : input.drop n = []) :
      Added t chunk input
        { (chunk.moved entry input n).applyEntry entry (chunk.pending ++ input) resolved with
          raw := [] } false (input.drop n)

theorem keyLength_le (t : Table) (key : Bytes) : (t.lookUpPrefix key).keyLength ≤ key.length := by
  obtain ⟨front, ⟨more, hmore⟩, hlen, -⟩ :=
    lookUpPrefix_found (letters (t.normalize key)) t.entries
  have hsize := (size_letters (t.normalize key)).1
  have hnormal : (t.normalize key).length = key.length := by
    rw [Table.normalize]
    split
    · rfl
    · exact length_lowerString key
  rw [← hmore, size, List.map_append, List.sum_append] at hsize
  rw [Table.lookUpPrefix, hlen, size]
  omega

theorem added_of_addInputNoEntry
    (hnone : (t.lookUpPrefix (chunk.pending ++ input)).data = none)
    (h : chunk.addInputNoEntry t (t.lookUpPrefix (chunk.pending ++ input)).keyLength input
      = (chunk', loop, rest)) : chunk.Added t input chunk' loop rest := by
  have hle := keyLength_le t (chunk.pending ++ input)
  rw [List.length_append] at hle
  rw [CharChunk.addInputNoEntry] at h
  dsimp only at h
  split at h
  · rename_i hfallback
    cases h
    exact .restored hfallback.2
  split at h
  · split at h
    · rename_i hlen
      cases h
      exact .trimmed hnone hlen
    · split at h
      · rename_i hpending
        cases h
        exact .front (List.isEmpty_iff.mp hpending)
      · rename_i hpending
        cases h
        exact .kept fun hnil => hpending (List.isEmpty_iff.mpr hnil)
  rename_i hused
  split at h
  · rename_i hlast
    split at h
    · rename_i hlen
      cases h
      exact .trimmed hnone hlen.2
    · cases h
      refine .kept fun hnil => hused ?_
      rw [hlast, hnil]
      rfl
  split at h
  · rename_i hlt
    cases h
    refine .kept fun hnil => ?_
    rw [hnil] at hlt
    exact absurd hlt (Nat.not_lt_zero _)
  · rename_i hne hnlt
    cases h
    exact .pending (by omega) (by omega)

theorem added_of_addInputEntry {entry : Entry}
    (hfound : (t.lookUpPrefix (chunk.pending ++ input)).data = some entry)
    (h : chunk.addInputEntry entry (t.lookUpPrefix (chunk.pending ++ input)).keyLength
      (t.lookUpPrefix (chunk.pending ++ input)).fixed input = some (chunk', loop, rest)) :
    chunk.Added t input chunk' loop rest := by
  have hle := keyLength_le t (chunk.pending ++ input)
  rw [CharChunk.addInputEntry] at h
  split at h
  · exact absurd h (Option.some_ne_none _).symm
  rename_i hpending
  obtain ⟨n, hn⟩ := Nat.exists_eq_add_of_le (Nat.not_lt.mp hpending)
  rw [hn, Nat.add_sub_cancel_left] at h
  rw [hn, List.length_append] at hle
  dsimp only at h
  have hshort {fixed : Bool} (hunresolved : (fixed || decide (chunk.pending.length + n
      < (chunk.pending ++ input).length)) = false) : n = input.length := by
    obtain ⟨-, hlast⟩ := Bool.or_eq_false_iff.mp hunresolved
    rw [decide_eq_false_iff_not, List.length_append] at hlast
    omega
  have hdrop (hunresolved : n = input.length) : input.drop n = [] := by
    rw [hunresolved, List.drop_length]
  split at h
  · rename_i hclear
    simp only [Bool.and_eq_true] at hclear
    cases h
    exact .cleared _ hfound hclear.2 (List.isEmpty_iff.mp hclear.1.1.1.2)
  split at h
  · cases h
    exact .matched _ false hfound hn (by omega) hshort Bool.noConfusion
  · rename_i hmore
    cases h
    refine .matched _ true hfound hn (by omega) hshort fun _ => ?_
    by_contra hresolved
    rw [hdrop (hshort (Bool.not_eq_true _ ▸ hresolved))] at hmore
    exact hmore rfl

/-- **WHAT ONE STEP OF `AddInput` CAN DO.** -/
theorem added_of_addInputInternal (h : chunk.addInputInternal t input = some (chunk', loop, rest)) :
    chunk.Added t input chunk' loop rest := by
  rw [CharChunk.addInputInternal] at h
  cases hfound : (t.lookUpPrefix (chunk.pending ++ input)).data with
  | none =>
    rw [hfound] at h
    exact added_of_addInputNoEntry hfound (Option.some.inj h)
  | some entry =>
    rw [hfound] at h
    exact added_of_addInputEntry hfound h

/-! ## What is kept -/

@[simp] theorem applyEntry_raw (chunk : CharChunk) (entry : Entry) (key : Bytes) (b : Bool) :
    (chunk.applyEntry entry key b).raw = chunk.raw := by
  rw [CharChunk.applyEntry]
  cases b with
  | true => rfl
  | false => rw [if_neg Bool.false_ne_true]; dsimp only; split <;> rfl

@[simp] theorem applyEntry_attributes (chunk : CharChunk) (entry : Entry) (key : Bytes)
    (b : Bool) : (chunk.applyEntry entry key b).attributes = chunk.attributes := by
  rw [CharChunk.applyEntry]
  cases b with
  | true => rfl
  | false => rw [if_neg Bool.false_ne_true]; dsimp only; split <;> rfl

@[simp] theorem applyEntry_transliterator (chunk : CharChunk) (entry : Entry) (key : Bytes)
    (b : Bool) : (chunk.applyEntry entry key b).transliterator = chunk.transliterator := by
  rw [CharChunk.applyEntry]
  cases b with
  | true => rfl
  | false => rw [if_neg Bool.false_ne_true]; dsimp only; split <;> rfl

theorem frontChar_append (s : Bytes) : (frontChar s).1 ++ (frontChar s).2 = s := by
  cases s with
  | nil => rfl
  | cons c s => exact List.take_append_drop _ _

theorem saved_append_replayed (h : chunk.hasDisplayAmbiguousResultFallback = true) :
    chunk.displayAmbiguousResultRaw ++ chunk.raw.drop chunk.displayAmbiguousResultRaw.length
      = chunk.raw := by
  rw [CharChunk.hasDisplayAmbiguousResultFallback, Bool.and_eq_true] at h
  obtain ⟨more, hmore⟩ := List.isPrefixOf_iff_prefix.mp h.2
  rw [← hmore, List.drop_left]

/-- **NO STEP LOSES OR REPEATS A RAW BYTE**, special keys and what is forgotten apart. -/
theorem CharChunk.Added.raw_append (h : chunk.Added t input chunk' loop rest) :
    chunk'.raw ++ rest = chunk.raw ++ input ∨
      (chunk' = chunk ∧ rest = trimLeadingSpecialKey input ∧ rest ≠ input) ∨
      hasAttribute chunk'.attributes noTransliteration = true := by
  cases h with
  | restored hfallback =>
    refine .inl ?_
    show chunk.displayAmbiguousResultRaw ++ (_ ++ input) = _
    rw [← List.append_assoc, saved_append_replayed hfallback]
  | trimmed hnone hlen => exact .inr (.inl ⟨rfl, rfl, fun heq => absurd hlen (by rw [heq]; omega)⟩)
  | front hpending =>
    refine .inl ?_
    dsimp only
    rw [List.append_assoc, frontChar_append]
  | kept hpending => exact .inl rfl
  | pending hpos hn =>
    refine .inl ?_
    dsimp only
    rw [List.append_assoc, List.take_append_drop]
  | matched resolved loop hfound hlen hn hresolved hloop =>
    refine .inl ?_
    rw [applyEntry_raw, CharChunk.moved]
    dsimp only
    rw [List.append_assoc, List.take_append_drop]
  | cleared resolved hfound hattribute hrest => exact .inr (.inr hattribute)

@[simp] theorem not_hasAttribute_zero (mask : TableAttributes) :
    hasAttribute noTableAttribute mask = false := by
  rw [hasAttribute, noTableAttribute, Nat.zero_and]
  rfl

theorem applyEntry_fallback (chunk : CharChunk) (entry : Entry) (key : Bytes) (b : Bool) :
    (chunk.applyEntry entry key b).displayAmbiguousResultAttributes = noTableAttribute ∨
      (chunk.applyEntry entry key b).displayAmbiguousResultAttributes = chunk.attributes := by
  rw [CharChunk.applyEntry]
  cases b with
  | true => exact .inl rfl
  | false =>
    rw [if_neg Bool.false_ne_true]
    dsimp only
    split
    · exact .inr rfl
    · exact .inl rfl

/-- No entry forgets what was typed. -/
def Table.Transliterates (t : Table) : Prop :=
  ∀ key e, CharTrie.lookUp key t.entries = some e →
    hasAttribute e.attributes noTransliteration = false

/-- A chunk whose entries do not forget what was typed. -/
def CharChunk.Transliterates (chunk : CharChunk) : Prop :=
  hasAttribute chunk.attributes noTransliteration = false ∧
    hasAttribute chunk.displayAmbiguousResultAttributes noTransliteration = false

theorem Table.Transliterates.found (htable : t.Transliterates) {key : Bytes} {e : Entry}
    (h : (t.lookUpPrefix key).data = some e) :
    hasAttribute e.attributes noTransliteration = false := by
  obtain ⟨front, -, -, hdata⟩ := lookUpPrefix_found (letters (t.normalize key)) t.entries
  exact htable _ e (hdata.symm.trans h)

theorem CharChunk.Transliterates.applyEntry (hchunk : chunk.Transliterates) {entry : Entry}
    (hentry : hasAttribute entry.attributes noTransliteration = false) (n : Nat) (key : Bytes)
    (resolved : Bool) :
    ((chunk.moved entry input n).applyEntry entry key resolved).Transliterates := by
  have hmoved : hasAttribute (chunk.moved entry input n).attributes noTransliteration = false := by
    rw [CharChunk.moved]
    dsimp only
    split
    · exact hentry
    · exact hchunk.1
  refine ⟨by rw [applyEntry_attributes]; exact hmoved, ?_⟩
  rcases applyEntry_fallback (chunk.moved entry input n) entry key resolved with h | h
  · rw [h]
    exact not_hasAttribute_zero _
  · rw [h]
    exact hmoved

theorem CharChunk.Added.transliterates (htable : t.Transliterates) (hchunk : chunk.Transliterates)
    (h : chunk.Added t input chunk' loop rest) :
    chunk'.Transliterates ∧ chunk'.transliterator = chunk.transliterator := by
  cases h with
  | restored hfallback => exact ⟨⟨hchunk.2, not_hasAttribute_zero _⟩, rfl⟩
  | trimmed hnone hlen => exact ⟨hchunk, rfl⟩
  | front hpending => exact ⟨hchunk, rfl⟩
  | kept hpending => exact ⟨hchunk, rfl⟩
  | pending hpos hn => exact ⟨hchunk, rfl⟩
  | matched resolved loop hfound hlen hn hresolved hloop =>
    exact ⟨hchunk.applyEntry (htable.found hfound) _ _ _, applyEntry_transliterator _ _ _ _⟩
  | cleared resolved hfound hattribute hrest =>
    exact ⟨hchunk.applyEntry (htable.found hfound) _ _ _, applyEntry_transliterator _ _ _ _⟩

/-- No special key starts anywhere in the string. -/
def NoSpecialKey (s : Bytes) : Prop := ∀ part, part <:+: s → trimLeadingSpecialKey part = part

/-- **ADDING INPUT KEEPS EVERY BYTE**, in a table that forgets none, without special keys. -/
theorem addInput_raw (htable : t.Transliterates) {fuel : Nat} (hchunk : chunk.Transliterates)
    (hkeys : NoSpecialKey (chunk.raw ++ input))
    (h : chunk.addInput t fuel input = some (chunk', rest)) :
    chunk'.raw ++ rest = chunk.raw ++ input ∧ chunk'.Transliterates ∧
      chunk'.transliterator = chunk.transliterator := by
  induction fuel generalizing chunk input with
  | zero => exact absurd h (Option.some_ne_none _).symm
  | succ fuel ih =>
    rw [CharChunk.addInput] at h
    cases hstep : chunk.addInputInternal t input with
    | none => rw [hstep] at h; exact absurd h (Option.some_ne_none _).symm
    | some step =>
      obtain ⟨chunk₁, loop, rest₁⟩ := step
      have hadded := added_of_addInputInternal hstep
      obtain ⟨hchunk₁, hsame⟩ := hadded.transliterates htable hchunk
      have hraw : chunk₁.raw ++ rest₁ = chunk.raw ++ input := by
        rcases hadded.raw_append with hraw | ⟨-, htrim, hne⟩ | hforget
        · exact hraw
        · exact absurd (htrim.trans (hkeys input (List.suffix_append _ _).isInfix)) hne
        · exact absurd (hforget.symm.trans hchunk₁.1) (by decide)
      rw [hstep] at h
      cases loop with
      | false =>
        cases h
        exact ⟨hraw, hchunk₁, hsame⟩
      | true =>
        obtain ⟨hraw', hchunk', hsame'⟩ := ih hchunk₁ (by rwa [hraw]) h
        exact ⟨hraw'.trans hraw, hchunk', hsame'.trans hsame⟩

end MozkeyComposer
