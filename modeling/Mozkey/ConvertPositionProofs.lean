import Mozkey.CompositionProofs

/-! # ConvertPosition — one text under two transliterators

    A chunk has a length under each transliterator.  A position under the one is looked up in
    the chunks and becomes a position under the other: the start and the end of a chunk go to
    its start and its end, a position between them stays, as far as the chunk reaches. -/

namespace MozkeyComposer

open ByteString MozkeyUtil

/-! ## The source -/

/-- `CharChunk::AppendFixedResult`, as the string that it appends. -/
def CharChunk.fixedResult (j : JapaneseUtil) (chunk : CharChunk) (t12r : Transliterator) :
    Bytes :=
  let converted :=
    if chunk.ambiguous.isEmpty then chunk.conversion ++ chunk.pending
    else chunk.conversion ++ chunk.ambiguous
  j.transliterate (chunk.getTransliterator t12r) (deleteSpecialKeys chunk.raw)
    (deleteSpecialKeys converted)

/-- `Composition::GetStringWithModes` with the trim mode `FIX`. -/
def fixedString (j : JapaneseUtil) (t12r : Transliterator) : List CharChunk → Bytes
  | [] => []
  | [chunk] => chunk.fixedResult j t12r
  | chunk :: chunks => chunk.result j t12r ++ fixedString j t12r chunks

/-- `Composition::GetStringWithTransliterator`. -/
def Composition.getStringWithTransliterator (j : JapaneseUtil) (c : Composition)
    (t12r : Transliterator) : Bytes :=
  fixedString j t12r c.chunks

/-- The position within a chunk, of a length under both transliterators. -/
def innerPosition (lengthFrom lengthTo inner : Nat) : Nat :=
  if inner = 0 then 0
  else if inner = lengthFrom then lengthTo
  else if lengthTo < inner then lengthTo
  else inner

/-- `Composition::ConvertPosition`; `none` where its `CHECK` fails. -/
def Composition.convertPosition (j : JapaneseUtil) (c : Composition) (positionFrom : Nat)
    (transliteratorFrom transliteratorTo : Transliterator) : Option Nat :=
  if transliteratorFrom = transliteratorTo then some positionFrom
  else
    match c.getChunkAt j positionFrom transliteratorFrom with
    | none => some 0
    | some at' =>
      let chunkLengthFrom := at'.chunk.getLength j transliteratorFrom
      if chunkLengthFrom < at'.innerPosition then none
      else
        let positionTo := lengthOf j transliteratorTo at'.before
        some (positionTo + innerPosition chunkLengthFrom
          (at'.chunk.getLength j transliteratorTo) at'.innerPosition)

/-- The sum of two `size_t`. -/
def sizeAdd (a b : Nat) : Nat := (a + b) % 2 ^ 64

/-- The difference of two `size_t`, which wraps around below 0. -/
def sizeSub (a b : Nat) : Nat := if b ≤ a then a - b else 2 ^ 64 - (b - a)

/-- `GetTransliteratedText`. -/
def Composition.getTransliteratedText (j : JapaneseUtil) (c : Composition) (t12r : Transliterator)
    (position size : Nat) : Option Bytes :=
  let fullBase := c.getStringWithTransliterator j t12r
  (c.convertPosition j position .localT12r t12r).bind fun t13nStart =>
    (c.convertPosition j (sizeAdd position size) .localT12r t12r).bind fun t13nEnd =>
      utf8SubStringOf fullBase t13nStart (sizeSub t13nEnd t13nStart)

/-! ## Positions in a list of lengths -/

/-- A position in chunks of which each has a length under both transliterators. -/
def convert : List (Nat × Nat) → Nat → Nat
  | [], _ => 0
  | (lengthFrom, lengthTo) :: lengths, position =>
    if position ≤ lengthFrom ∨ lengths = [] then
      innerPosition lengthFrom lengthTo (min position lengthFrom)
    else lengthTo + convert lengths (position - lengthFrom)

theorem innerPosition_le (lengthFrom lengthTo inner : Nat) :
    innerPosition lengthFrom lengthTo inner ≤ lengthTo := by
  rw [innerPosition]
  split_ifs
  · exact Nat.zero_le _
  · exact Nat.le_refl _
  · exact Nat.le_refl _
  · omega

theorem innerPosition_mono {lengthFrom lengthTo inner inner' : Nat} (h : inner ≤ inner')
    (hle : inner' ≤ lengthFrom) :
    innerPosition lengthFrom lengthTo inner ≤ innerPosition lengthFrom lengthTo inner' := by
  rw [innerPosition, innerPosition]
  split_ifs
  all_goals omega

/-- **NO POSITION GOES PAST THE END.** -/
theorem convert_le (lengths : List (Nat × Nat)) :
    ∀ position, convert lengths position ≤ (lengths.map Prod.snd).sum := by
  induction lengths with
  | nil =>
    intro position
    exact Nat.le_refl 0
  | cons first lengths ih =>
    intro position
    rw [convert, List.map_cons, List.sum_cons]
    split
    · exact Nat.le_add_right_of_le (innerPosition_le _ _ _)
    · exact Nat.add_le_add_left (ih _) _

/-- **THE ORDER STAYS**: a later position is in the same chunk, further on, or in a later one. -/
theorem convert_mono {lengths : List (Nat × Nat)} :
    ∀ {position position' : Nat}, position ≤ position' →
      convert lengths position ≤ convert lengths position' := by
  induction lengths with
  | nil =>
    intro position position' _
    exact Nat.le_refl 0
  | cons first lengths ih =>
    intro position position' h
    rw [convert, convert]
    by_cases hhere' : position' ≤ first.1 ∨ lengths = []
    · rw [if_pos (hhere'.imp_left h.trans), if_pos hhere']
      exact innerPosition_mono (min_le_min_right _ h) (min_le_right _ _)
    rw [if_neg hhere']
    by_cases hhere : position ≤ first.1 ∨ lengths = []
    · rw [if_pos hhere]
      exact Nat.le_add_right_of_le (innerPosition_le _ _ _)
    · rw [if_neg hhere]
      exact Nat.add_le_add_left (ih (Nat.sub_le_sub_right h _)) _

@[simp] theorem convert_zero (lengths : List (Nat × Nat)) : convert lengths 0 = 0 := by
  cases lengths with
  | nil => rfl
  | cons first lengths => simp [convert, innerPosition]

variable {j : JapaneseUtil} {c : Composition} {t12rFrom t12rTo : Transliterator}

/-! ## The chunks of a composition -/

/-- The lengths of chunks under both transliterators. -/
def lengthsOf (j : JapaneseUtil) (t12rFrom t12rTo : Transliterator) (chunks : List CharChunk) :
    List (Nat × Nat) :=
  chunks.map fun chunk => (chunk.getLength j t12rFrom, chunk.getLength j t12rTo)

theorem sum_lengthsOf (chunks : List CharChunk) :
    ((lengthsOf j t12rFrom t12rTo chunks).map Prod.snd).sum = lengthOf j t12rTo chunks := by
  rw [lengthsOf, List.map_map]
  rfl

variable {chunk : CharChunk} {position : Nat}

theorem convert_first (h : position ≤ chunk.getLength j t12rFrom) (after : List CharChunk) :
    convert (lengthsOf j t12rFrom t12rTo (chunk :: after)) position
      = innerPosition (chunk.getLength j t12rFrom) (chunk.getLength j t12rTo) position := by
  rw [lengthsOf, List.map_cons, convert, if_pos (Or.inl h), min_eq_left h]

theorem convert_last (h : chunk.getLength j t12rFrom < position) :
    convert (lengthsOf j t12rFrom t12rTo [chunk]) position
      = innerPosition (chunk.getLength j t12rFrom) (chunk.getLength j t12rTo)
          (chunk.getLength j t12rFrom) := by
  rw [lengthsOf, List.map_cons, List.map_nil, convert, if_pos (Or.inr rfl),
    min_eq_right (Nat.le_of_lt h)]

theorem convert_later {next : CharChunk} (h : chunk.getLength j t12rFrom < position)
    (after : List CharChunk) :
    convert (lengthsOf j t12rFrom t12rTo (chunk :: next :: after)) position
      = chunk.getLength j t12rTo + convert (lengthsOf j t12rFrom t12rTo (next :: after))
          (position - chunk.getLength j t12rFrom) := by
  have hlater : ¬ (position ≤ chunk.getLength j t12rFrom
      ∨ lengthsOf j t12rFrom t12rTo (next :: after) = []) := by
    rintro (hle | hnil)
    · exact Nat.not_le.mpr h hle
    · cases hnil
  rw [lengthsOf, List.map_cons, ← lengthsOf, convert, if_neg hlater]

/-- What the loop of `GetChunkAt` finds is where the position is in the lengths. -/
theorem getChunkAtLoop_convert {position : Nat} {after : List CharChunk} :
    ∀ {offset : Nat} {before : List CharChunk} {chunk : CharChunk},
      let at' := getChunkAtLoop j t12rFrom position offset before chunk after
      at'.innerPosition ≤ at'.chunk.getLength j t12rFrom ∧
        lengthOf j t12rTo at'.before + innerPosition (at'.chunk.getLength j t12rFrom)
            (at'.chunk.getLength j t12rTo) at'.innerPosition
          = lengthOf j t12rTo before
            + convert (lengthsOf j t12rFrom t12rTo (chunk :: after)) (position - offset) := by
  induction after with
  | nil =>
    intro offset before chunk
    rw [getChunkAtLoop]
    dsimp only
    by_cases hpast : offset + chunk.getLength j t12rFrom < position
    · rw [if_pos hpast, convert_last (Nat.lt_sub_of_add_lt (by omega))]
      exact ⟨Nat.le_refl _, rfl⟩
    · have hinner : position - offset ≤ chunk.getLength j t12rFrom := by omega
      rw [if_neg hpast, convert_first hinner]
      exact ⟨hinner, rfl⟩
  | cons next after ih =>
    intro offset before chunk
    rw [getChunkAtLoop]
    dsimp only
    by_cases hpast : offset + chunk.getLength j t12rFrom < position
    · obtain ⟨hinner, hposition⟩ := @ih (offset + chunk.getLength j t12rFrom)
        (chunk :: before) next
      rw [if_pos hpast, convert_later (Nat.lt_sub_of_add_lt (by omega))]
      refine ⟨hinner, hposition.trans ?_⟩
      rw [lengthOf_cons, Nat.sub_add_eq]
      omega
    · have hinner : position - offset ≤ chunk.getLength j t12rFrom := by omega
      rw [if_neg hpast, convert_first hinner]
      exact ⟨hinner, rfl⟩

theorem convertPosition_eq (hne : t12rFrom ≠ t12rTo) (position : Nat) :
    c.convertPosition j position t12rFrom t12rTo
      = some (convert (lengthsOf j t12rFrom t12rTo c.chunks) position) := by
  obtain ⟨chunks, inputT12r⟩ := c
  rw [Composition.convertPosition, if_neg hne]
  cases chunks with
  | nil => rfl
  | cons chunk after =>
    obtain ⟨hinner, hposition⟩ := @getChunkAtLoop_convert j t12rFrom t12rTo position after 0 []
      chunk
    rw [Composition.getChunkAt]
    dsimp only
    rw [if_neg (Nat.not_lt.mpr hinner), hposition]
    simp [lengthOf]

/-- The converted position, also where both transliterators are the same. -/
def Composition.converted (j : JapaneseUtil) (c : Composition) (t12rFrom t12rTo : Transliterator)
    (position : Nat) : Nat :=
  if t12rFrom = t12rTo then position
  else convert (lengthsOf j t12rFrom t12rTo c.chunks) position

theorem convertPosition_converted (position : Nat) :
    c.convertPosition j position t12rFrom t12rTo
      = some (c.converted j t12rFrom t12rTo position) := by
  rw [Composition.converted]
  split
  · rename_i hsame
    rw [Composition.convertPosition, if_pos hsame]
  · rename_i hne
    exact convertPosition_eq hne position

theorem converted_zero : c.converted j t12rFrom t12rTo 0 = 0 := by
  rw [Composition.converted]
  split
  · rfl
  · exact convert_zero _

theorem converted_mono {position' : Nat} (h : position ≤ position') :
    c.converted j t12rFrom t12rTo position ≤ c.converted j t12rFrom t12rTo position' := by
  rw [Composition.converted, Composition.converted]
  split
  · exact h
  · exact convert_mono h

theorem converted_le (h : t12rFrom ≠ t12rTo ∨ position ≤ lengthOf j t12rTo c.chunks) :
    c.converted j t12rFrom t12rTo position ≤ lengthOf j t12rTo c.chunks := by
  rw [Composition.converted]
  split
  · rename_i hsame
    exact h.resolve_left fun hne => hne hsame
  · have hle := convert_le (lengthsOf j t12rFrom t12rTo c.chunks) position
    rwa [sum_lengthsOf] at hle

/-! ## The texts -/

theorem getTransliteratedText_eq {t12r : Transliterator} {size : Nat} (h : position + size < 2 ^ 64)
    :
    c.getTransliteratedText j t12r position size
      = utf8SubStringOf (c.getStringWithTransliterator j t12r)
          (c.converted j .localT12r t12r position)
          (c.converted j .localT12r t12r (position + size)
            - c.converted j .localT12r t12r position) := by
  have hle : c.converted j .localT12r t12r position
      ≤ c.converted j .localT12r t12r (position + size) :=
    converted_mono (Nat.le_add_right position size)
  simp only [Composition.getTransliteratedText, convertPosition_converted, Option.bind_some]
  rw [sizeAdd, Nat.mod_eq_of_lt h, sizeSub, if_pos hle]

/-- **THE TEXTS OF TWO PARTS** make the text of both. -/
theorem getTransliteratedText_append {t12r : Transliterator} {n : Nat} (hle : position ≤ n)
    (hn : n < 2 ^ 64) :
    c.getTransliteratedText j t12r 0 n
      = (c.getTransliteratedText j t12r 0 position).bind fun left =>
          (c.getTransliteratedText j t12r position (n - position)).map fun right =>
            left ++ right := by
  have hmono : c.converted j .localT12r t12r position ≤ c.converted j .localT12r t12r n :=
    converted_mono hle
  have hfront : ∀ src length, utf8SubStringOf src 0 length = utf8Take length src := fun _ _ => rfl
  rw [getTransliteratedText_eq (by omega), getTransliteratedText_eq (by omega),
    getTransliteratedText_eq (by omega), Nat.add_sub_cancel' hle]
  simp only [Nat.zero_add, converted_zero, Nat.sub_zero, hfront]
  rw [← utf8Take_add, Nat.add_sub_cancel' hmono]

/-! ## The main result -/

/-- **POSITIONS ARE CONVERTED IN ORDER**: from 0 on, and to the end at most where they are
    converted at all.  The size of a text does not wrap around, and texts go together. -/
theorem convertPosition_monotone (j : JapaneseUtil) (c : Composition)
    (t12rFrom t12rTo t12r : Transliterator) :
    (∃ convertTo : Nat → Nat,
      (∀ position, c.convertPosition j position t12rFrom t12rTo = some (convertTo position)) ∧
      convertTo 0 = 0 ∧
      (∀ position position', position ≤ position' →
        convertTo position ≤ convertTo position') ∧
      ∀ position, t12rFrom ≠ t12rTo ∨ position ≤ lengthOf j t12rTo c.chunks →
        convertTo position ≤ lengthOf j t12rTo c.chunks) ∧
    (∀ position size, position + size < 2 ^ 64 → ∃ t13nStart t13nEnd,
      c.convertPosition j position .localT12r t12r = some t13nStart ∧
      c.convertPosition j (sizeAdd position size) .localT12r t12r = some t13nEnd ∧
      t13nStart ≤ t13nEnd) ∧
    (c.getLength j < 2 ^ 64 → ∀ position ≤ c.getLength j,
      c.getTransliteratedText j t12r 0 (c.getLength j)
        = (c.getTransliteratedText j t12r 0 position).bind fun left =>
            (c.getTransliteratedText j t12r position (c.getLength j - position)).map
              fun right => left ++ right) := by
  refine ⟨⟨c.converted j t12rFrom t12rTo, convertPosition_converted, converted_zero, ?_, ?_⟩,
    ?_, ?_⟩
  · intro position position' h
    exact converted_mono h
  · intro position h
    exact converted_le h
  · intro position size h
    refine ⟨_, _, convertPosition_converted position, convertPosition_converted _, ?_⟩
    rw [sizeAdd, Nat.mod_eq_of_lt h]
    exact converted_mono (Nat.le_add_right position size)
  · intro hlength position hle
    exact getTransliteratedText_append hle hlength

/-- A position that is not converted may be past the end. -/
theorem convertPosition_same_past_end : ¬ ∀ (j : JapaneseUtil) (c : Composition)
    (t12rFrom t12rTo : Transliterator) (position : Nat),
    ∃ position', c.convertPosition j position t12rFrom t12rTo = some position' ∧
      position' ≤ lengthOf j t12rTo c.chunks := by
  intro h
  obtain ⟨position', hconvert, hle⟩ :=
    h plainJapanese ⟨[], .hiragana⟩ .hiragana .hiragana 1
  have hone : position' = 1 := (Option.some.inj hconvert).symm
  rw [hone] at hle
  exact absurd hle (by decide)

end MozkeyComposer
