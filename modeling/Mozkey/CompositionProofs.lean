import Mozkey.CharChunkProofs

/-! # Composition — a list of chunks

    An iterator into the list is a place between two chunks: those before it, nearest first, and
    those from it on.  An insertion splits the chunk at its position, goes on with the chunk
    left of it as long as that one takes the input, and opens new chunks for the rest. -/

namespace MozkeyComposer

open ByteString MozkeyUtil CharTrie

/-- `Composition`; its table is a parameter. -/
structure Composition where
  chunks : List CharChunk
  inputT12r : Transliterator
  deriving DecidableEq

/-- An iterator into the chunks. -/
structure Place where
  /-- The chunks before the iterator, nearest first. -/
  before : List CharChunk
  after : List CharChunk

/-- The sum of `GetLength`, as `Composition::GetPosition` takes it. -/
def lengthOf (j : JapaneseUtil) (t12r : Transliterator) (chunks : List CharChunk) : Nat :=
  (chunks.map fun chunk => chunk.getLength j t12r).sum

/-- `Composition::GetLength`. -/
def Composition.getLength (j : JapaneseUtil) (c : Composition) : Nat :=
  lengthOf j .localT12r c.chunks

/-- `Composition::GetString`. -/
def Composition.getString (j : JapaneseUtil) (c : Composition) : Bytes :=
  c.chunks.flatMap fun chunk => chunk.result j .localT12r

/-- What `Composition::GetChunkAt` gives: the chunk, its neighbours and the inner position. -/
structure ChunkAt where
  before : List CharChunk
  chunk : CharChunk
  after : List CharChunk
  innerPosition : Nat

/-- The loop of `Composition::GetChunkAt`. -/
def getChunkAtLoop (j : JapaneseUtil) (t12r : Transliterator) (position : Nat) :
    Nat → List CharChunk → CharChunk → List CharChunk → ChunkAt
  | chunkOffset, before, chunk, after =>
    let chunkLength := chunk.getLength j t12r
    if chunkOffset + chunkLength < position then
      match after with
      | [] => ⟨before, chunk, [], chunkLength⟩
      | next :: after =>
        getChunkAtLoop j t12r position (chunkOffset + chunkLength) (chunk :: before) next after
    else ⟨before, chunk, after, position - chunkOffset⟩

/-- `Composition::GetChunkAt`; `none` where there is no chunk. -/
def Composition.getChunkAt (j : JapaneseUtil) (c : Composition) (position : Nat)
    (t12r : Transliterator) : Option ChunkAt :=
  match c.chunks with
  | [] => none
  | chunk :: after => some (getChunkAtLoop j t12r position 0 [] chunk after)

/-- `Composition::MaybeSplitChunkAt`; `none` where a string cannot be split. -/
def Composition.maybeSplitChunkAt (j : JapaneseUtil) (c : Composition) (position : Nat) :
    Option Place :=
  match c.getChunkAt j position .localT12r with
  | none => some ⟨[], []⟩
  | some at' =>
    if at'.before.isEmpty && at'.innerPosition = 0 then some ⟨[], at'.chunk :: at'.after⟩
    else if at'.innerPosition = at'.chunk.getLength j .localT12r then
      some ⟨at'.chunk :: at'.before, at'.after⟩
    else
      match at'.chunk.splitChunk j .localT12r at'.innerPosition with
      | none => none
      | some (leftChunk, chunk) =>
        some ⟨leftChunk.toList ++ at'.before, chunk :: at'.after⟩

/-- The loop of `Composition::InsertInput` over chunks of length 0. -/
def skipEmpty (j : JapaneseUtil) (t12r : Transliterator) (before : List CharChunk) :
    List CharChunk → Place
  | [] => ⟨before, []⟩
  | chunk :: after =>
    if chunk.getLength j t12r = 0 then skipEmpty j t12r (chunk :: before) after
    else ⟨before, chunk :: after⟩

/-- `Composition::GetInsertionChunk`: the chunk, and the chunks before it. -/
def getInsertionChunk (t12r : Transliterator) (before : List CharChunk) :
    CharChunk × List CharChunk :=
  match before with
  | [] => (.new t12r, [])
  | leftChunk :: before =>
    if leftChunk.isAppendable t12r then (leftChunk, before)
    else (.new t12r, leftChunk :: before)

/-- The loop of `Composition::CombinePendingChunks`. -/
def combineLoop (t : Table) (t12r : Transliterator) (nextInput : Bytes) (chunk : CharChunk) :
    List CharChunk → CharChunk × List CharChunk
  | [] => (chunk, [])
  | leftChunk :: before =>
    if leftChunk.isConvertible t t12r (chunk.pending ++ nextInput) then
      combineLoop t t12r nextInput (chunk.combine leftChunk) before
    else (chunk, leftChunk :: before)

/-- `Composition::CombinePendingChunks`. -/
def combinePendingChunks (t : Table) (t12r : Transliterator) (input : CompositionInput)
    (chunk : CharChunk) (before : List CharChunk) : CharChunk × List CharChunk :=
  if input.isAsis then (chunk, before)
  else combineLoop t t12r (if input.conversion.isEmpty then input.raw else input.conversion) chunk
    before

/-- The loop of `Composition::InsertInput`: the last chunk, and the chunks before it. -/
def insertLoop (t : Table) (t12r : Transliterator) : Nat → CharChunk → List CharChunk →
    CompositionInput → Option (CharChunk × List CharChunk)
  | 0, _, _, _ => none
  | fuel + 1, leftChunk, before, input =>
    match leftChunk.addCompositionInput t fuel input with
    | none => none
    | some (leftChunk, input) =>
      if input.empty then some (leftChunk, before)
      else insertLoop t t12r fuel (.new t12r) (leftChunk :: before)
        { input with isNewInput := false }

/-- The end of `Composition::InsertInput`, which removes an empty chunk. -/
def removeEmpty (leftChunk : CharChunk) (before : List CharChunk) : List CharChunk :=
  if leftChunk.isEmpty then before else leftChunk :: before

/-- `Composition::InsertInput` with a new position; `none` where it does not return: the fuel
    does not do, `substr` throws or a string cannot be split. -/
def Composition.insertInput (j : JapaneseUtil) (t : Table) (fuel : Nat) (c : Composition)
    (pos : Nat) (input : CompositionInput) : Option (Composition × Nat) :=
  if input.empty then some (c, pos)
  else
    match c.maybeSplitChunkAt j pos with
    | none => none
    | some place =>
      let place := skipEmpty j c.inputT12r place.before place.after
      let left := getInsertionChunk c.inputT12r place.before
      let left := combinePendingChunks t c.inputT12r input left.1 left.2
      match insertLoop t c.inputT12r fuel left.1 left.2 input with
      | none => none
      | some (leftChunk, before) =>
        let before := removeEmpty leftChunk before
        some ({ c with chunks := before.reverse ++ place.after },
          lengthOf j .localT12r before)

/-- `Composition::InsertAt`. -/
def Composition.insertAt (j : JapaneseUtil) (t : Table) (fuel : Nat) (c : Composition) (pos : Nat)
    (input : Bytes) : Option (Composition × Nat) :=
  c.insertInput j t fuel pos ⟨input, [], false, false⟩

/-- Strings that are inserted at the end one after another. -/
def Composition.insertAll (j : JapaneseUtil) (t : Table) (fuel : Nat) (c : Composition)
    (keys : List Bytes) : Option Composition :=
  keys.foldlM (fun c key => (c.insertAt j t fuel (c.getLength j) key).map Prod.fst) c

/-- The raw strings of chunks, one after another. -/
def rawOf (chunks : List CharChunk) : Bytes := chunks.flatMap CharChunk.raw

variable {t : Table} {j : JapaneseUtil} {t12r : Transliterator}

/-! ## Inserting keeps what was typed -/

theorem rawOf_append (chunks chunks' : List CharChunk) :
    rawOf (chunks ++ chunks') = rawOf chunks ++ rawOf chunks' :=
  List.flatMap_append

theorem rawOf_reverse_cons (chunk : CharChunk) (before : List CharChunk) :
    rawOf (chunk :: before).reverse = rawOf before.reverse ++ chunk.raw := by
  rw [List.reverse_cons, rawOf_append]
  congr 1
  exact List.append_nil _

theorem NoSpecialKey.suffix {front s : Bytes} (h : NoSpecialKey (front ++ s)) : NoSpecialKey s :=
  fun part hpart => h part (hpart.trans (List.suffix_append _ _).isInfix)

theorem NoSpecialKey.prefix {s more : Bytes} (h : NoSpecialKey (s ++ more)) : NoSpecialKey s :=
  fun part hpart => h part (hpart.trans (List.prefix_append _ _).isInfix)

/-- A chunk that a composition without `NO_TRANSLITERATION` has made. -/
def CharChunk.Typed (t12r : Transliterator) (chunk : CharChunk) : Prop :=
  chunk.Transliterates ∧ chunk.transliterator = t12r

theorem typed_new (t12r : Transliterator) : (CharChunk.new t12r).Typed t12r :=
  ⟨⟨not_hasAttribute_zero _, not_hasAttribute_zero _⟩, rfl⟩

/-- **AN INSERTION KEEPS EVERY BYTE** of the chunk, the input and what stands before them. -/
theorem insertLoop_raw (htable : t.Transliterates) {fuel : Nat} {leftChunk leftChunk' : CharChunk}
    {before before' : List CharChunk} {input : CompositionInput}
    (hconversion : input.conversion = [])
    (htyped : ∀ x ∈ leftChunk :: before, x.Typed t12r)
    (hkeys : NoSpecialKey (rawOf before.reverse ++ (leftChunk.raw ++ input.raw)))
    (h : insertLoop t t12r fuel leftChunk before input = some (leftChunk', before')) :
    rawOf (leftChunk' :: before').reverse = rawOf before.reverse ++ (leftChunk.raw ++ input.raw) ∧
      ∀ x ∈ leftChunk' :: before', x.Typed t12r := by
  induction fuel generalizing leftChunk before input with
  | zero => exact absurd h (Option.some_ne_none _).symm
  | succ fuel ih =>
    obtain ⟨hleft, hbefore⟩ := List.forall_mem_cons.mp htyped
    rw [insertLoop] at h
    cases hadd : leftChunk.addCompositionInput t fuel input with
    | none => rw [hadd] at h; exact absurd h (Option.some_ne_none _).symm
    | some added =>
      obtain ⟨leftChunk₁, input₁⟩ := added
      have hstep : leftChunk₁.raw ++ input₁.raw = leftChunk.raw ++ input.raw ∧
          leftChunk₁.Typed t12r ∧ input₁.conversion = [] := by
        rw [CharChunk.addCompositionInput, hconversion] at hadd
        rw [if_neg (by decide)] at hadd
        split at hadd
        · cases hadd
          exact ⟨rfl, hleft, hconversion⟩
        · obtain ⟨⟨chunk, rest⟩, hrun, heq⟩ := Option.map_eq_some_iff.mp hadd
          cases heq
          obtain ⟨hraw, hchunk, hsame⟩ := addInput_raw htable hleft.1 hkeys.suffix hrun
          exact ⟨hraw, ⟨hchunk, hsame.trans hleft.2⟩, rfl⟩
      obtain ⟨hraw, hleft₁, hconversion₁⟩ := hstep
      have htyped₁ : ∀ x ∈ leftChunk₁ :: before, x.Typed t12r :=
        List.forall_mem_cons.mpr ⟨hleft₁, hbefore⟩
      rw [hadd] at h
      dsimp only at h
      split at h
      · rename_i hempty
        cases h
        rw [CompositionInput.empty, Bool.and_eq_true] at hempty
        rw [List.isEmpty_iff.mp hempty.1, List.append_nil] at hraw
        rw [rawOf_reverse_cons, hraw]
        exact ⟨rfl, htyped₁⟩
      · have hnext : rawOf (leftChunk₁ :: before).reverse
            ++ ((CharChunk.new t12r).raw ++ input₁.raw)
            = rawOf before.reverse ++ (leftChunk.raw ++ input.raw) := by
          rw [rawOf_reverse_cons, ← hraw, List.append_assoc]
          rfl
        obtain ⟨hraw', htyped'⟩ := @ih (.new t12r) (leftChunk₁ :: before)
          { input₁ with isNewInput := false } hconversion₁
          (List.forall_mem_cons.mpr ⟨typed_new t12r, htyped₁⟩) (by rw [hnext]; exact hkeys) h
        exact ⟨hraw'.trans hnext, htyped'⟩

theorem combineLoop_raw {nextInput : Bytes} {chunk : CharChunk} {before : List CharChunk}
    (htyped : ∀ x ∈ chunk :: before, x.Typed t12r) :
    rawOf ((combineLoop t t12r nextInput chunk before).1
        :: (combineLoop t t12r nextInput chunk before).2).reverse
        = rawOf (chunk :: before).reverse ∧
      ∀ x ∈ (combineLoop t t12r nextInput chunk before).1
        :: (combineLoop t t12r nextInput chunk before).2, x.Typed t12r := by
  induction before generalizing chunk with
  | nil => exact ⟨rfl, htyped⟩
  | cons leftChunk before ih =>
    rw [combineLoop]
    split
    · obtain ⟨hchunk, hrest⟩ := List.forall_mem_cons.mp htyped
      obtain ⟨-, hbefore⟩ := List.forall_mem_cons.mp hrest
      obtain ⟨hraw, htyped'⟩ := @ih (chunk.combine leftChunk)
        (List.forall_mem_cons.mpr ⟨hchunk, hbefore⟩)
      refine ⟨hraw.trans ?_, htyped'⟩
      simp only [rawOf_reverse_cons, CharChunk.combine, List.append_assoc]
    · exact ⟨rfl, htyped⟩

theorem combinePendingChunks_raw {input : CompositionInput} {chunk : CharChunk}
    {before : List CharChunk} (htyped : ∀ x ∈ chunk :: before, x.Typed t12r) :
    rawOf ((combinePendingChunks t t12r input chunk before).1
        :: (combinePendingChunks t t12r input chunk before).2).reverse
        = rawOf (chunk :: before).reverse ∧
      ∀ x ∈ (combinePendingChunks t t12r input chunk before).1
        :: (combinePendingChunks t t12r input chunk before).2, x.Typed t12r := by
  rw [combinePendingChunks]
  split
  · exact ⟨rfl, htyped⟩
  · exact combineLoop_raw htyped

theorem getInsertionChunk_raw {before : List CharChunk}
    (htyped : ∀ chunk ∈ before, chunk.Typed t12r) :
    rawOf ((getInsertionChunk t12r before).1 :: (getInsertionChunk t12r before).2).reverse
        = rawOf before.reverse ∧
      ∀ chunk ∈ (getInsertionChunk t12r before).1 :: (getInsertionChunk t12r before).2,
        chunk.Typed t12r := by
  have hnew (before : List CharChunk) :
      rawOf (CharChunk.new t12r :: before).reverse = rawOf before.reverse := by
    rw [rawOf_reverse_cons]
    exact List.append_nil _
  cases before with
  | nil => exact ⟨hnew [], List.forall_mem_cons.mpr ⟨typed_new t12r, htyped⟩⟩
  | cons leftChunk before =>
    rw [getInsertionChunk]
    split
    · exact ⟨rfl, htyped⟩
    · exact ⟨hnew _, List.forall_mem_cons.mpr ⟨typed_new t12r, htyped⟩⟩

theorem removeEmpty_raw (leftChunk : CharChunk) (before : List CharChunk) :
    rawOf (removeEmpty leftChunk before).reverse = rawOf (leftChunk :: before).reverse := by
  rw [removeEmpty]
  split
  · rename_i hempty
    rw [CharChunk.isEmpty, Bool.and_eq_true, Bool.and_eq_true] at hempty
    rw [rawOf_reverse_cons, List.isEmpty_iff.mp hempty.1.1, List.append_nil]
  · rfl

/-! ## The end of a composition -/

theorem lengthOf_cons (t12r : Transliterator) (chunk : CharChunk) (chunks : List CharChunk) :
    lengthOf j t12r (chunk :: chunks) = chunk.getLength j t12r + lengthOf j t12r chunks := by
  rw [lengthOf, List.map_cons, List.sum_cons]
  rfl

theorem getLength_eq_zero {chunks : List CharChunk} (h : lengthOf j t12r chunks = 0) :
    ∀ chunk ∈ chunks, chunk.getLength j t12r = 0 := by
  intro chunk hchunk
  exact List.sum_eq_zero_iff.mp h _ (List.mem_map_of_mem hchunk)

/-- The chunk at the end is the first one whose end is the end, and its end is meant. -/
theorem getChunkAtLoop_end {offset : Nat} {before : List CharChunk} {chunk : CharChunk}
    {after : List CharChunk} :
    let at' := getChunkAtLoop j t12r (offset + lengthOf j t12r (chunk :: after)) offset before
      chunk after
    at'.before.reverse ++ at'.chunk :: at'.after = before.reverse ++ chunk :: after ∧
      at'.innerPosition = at'.chunk.getLength j t12r ∧ lengthOf j t12r at'.after = 0 := by
  induction after generalizing offset before chunk with
  | nil =>
    have hlen : offset + lengthOf j t12r [chunk] = offset + chunk.getLength j t12r := by
      rw [lengthOf_cons]
      rfl
    rw [hlen, getChunkAtLoop]
    dsimp only
    rw [if_neg (Nat.lt_irrefl _)]
    exact ⟨rfl, Nat.add_sub_cancel_left _ _, rfl⟩
  | cons next after ih =>
    rw [getChunkAtLoop]
    dsimp only
    split
    · have h := @ih (offset + chunk.getLength j t12r) (chunk :: before) next
      rw [Nat.add_assoc, ← lengthOf_cons, List.reverse_cons, List.append_assoc] at h
      exact h
    · rename_i hend
      rw [lengthOf_cons] at hend ⊢
      refine ⟨rfl, ?_, ?_⟩
      · dsimp only
        omega
      · dsimp only
        omega

/-- **NOTHING IS SPLIT AT THE END**, and only empty chunks follow. -/
theorem maybeSplitChunkAt_end (c : Composition) :
    ∃ place, c.maybeSplitChunkAt j (c.getLength j) = some place ∧
      place.before.reverse ++ place.after = c.chunks ∧
      lengthOf j .localT12r place.after = 0 := by
  obtain ⟨chunks, t12r⟩ := c
  cases chunks with
  | nil => exact ⟨⟨[], []⟩, rfl, rfl, rfl⟩
  | cons chunk after =>
    obtain ⟨hchunks, hinner, hafter⟩ :=
      @getChunkAtLoop_end j .localT12r 0 [] chunk after
    rw [Nat.zero_add] at hchunks hinner hafter
    rw [Composition.maybeSplitChunkAt, Composition.getChunkAt, Composition.getLength]
    dsimp only
    split
    · rename_i hfirst
      rw [Bool.and_eq_true, List.isEmpty_iff, decide_eq_true_eq] at hfirst
      rw [hfirst.1] at hchunks
      refine ⟨_, rfl, hchunks, ?_⟩
      dsimp only
      rw [lengthOf_cons, hafter, ← hinner, hfirst.2]
    · refine ⟨_, rfl, ?_, hafter⟩
      show (_ :: _).reverse ++ _ = _
      rw [List.reverse_cons, List.append_assoc]
      exact hchunks

theorem skipEmpty_all {before after : List CharChunk}
    (h : ∀ chunk ∈ after, chunk.getLength j t12r = 0) :
    skipEmpty j t12r before after = ⟨after.reverse ++ before, []⟩ := by
  induction after generalizing before with
  | nil => rfl
  | cons chunk after ih =>
    obtain ⟨hchunk, hafter⟩ := List.forall_mem_cons.mp h
    rw [skipEmpty, if_pos hchunk, ih hafter, List.reverse_cons, List.append_assoc]
    rfl

theorem CharChunk.Typed.getLength {chunk : CharChunk} (h : chunk.Typed t12r) :
    chunk.getLength j t12r = chunk.getLength j .localT12r := by
  have hsame : chunk.getTransliterator t12r = chunk.getTransliterator .localT12r := by
    rw [CharChunk.getTransliterator, CharChunk.getTransliterator, h.1.1,
      if_neg Bool.false_ne_true, if_neg Bool.false_ne_true, if_pos rfl, h.2]
    split
    · rfl
    · rfl
  rw [CharChunk.getLength, CharChunk.result, hsame]
  rfl

variable {t : Table} {j : JapaneseUtil} {t12r : Transliterator}

/-! ## The main result -/

/-- **ONE INSERTION AT THE END** puts its bytes behind those that the chunks have. -/
theorem insertAt_end_raw (htable : t.Transliterates) {fuel : Nat} {c c' : Composition} {pos : Nat}
    {key : Bytes} (htyped : ∀ x ∈ c.chunks, x.Typed c.inputT12r)
    (hkeys : NoSpecialKey (rawOf c.chunks ++ key))
    (h : c.insertAt j t fuel (c.getLength j) key = some (c', pos)) :
    rawOf c'.chunks = rawOf c.chunks ++ key ∧ c'.inputT12r = c.inputT12r ∧
      ∀ x ∈ c'.chunks, x.Typed c.inputT12r := by
  rw [Composition.insertAt, Composition.insertInput] at h
  split at h
  · rename_i hempty
    rw [CompositionInput.empty, Bool.and_eq_true] at hempty
    have hnil : key = [] := List.isEmpty_iff.mp hempty.1
    cases h
    rw [hnil, List.append_nil]
    exact ⟨rfl, rfl, htyped⟩
  obtain ⟨place, hsplit, hchunks, hafter⟩ := @maybeSplitChunkAt_end j c
  have hplace : ∀ x ∈ place.after.reverse ++ place.before, x.Typed c.inputT12r := by
    intro x hx
    refine htyped x ?_
    rw [← hchunks]
    simpa [or_comm] using hx
  have hall : skipEmpty j c.inputT12r place.before place.after
      = ⟨place.after.reverse ++ place.before, []⟩ := by
    refine skipEmpty_all fun chunk hchunk => ?_
    rw [(hplace chunk (List.mem_append_left _ (List.mem_reverse.mpr hchunk))).getLength]
    exact getLength_eq_zero hafter chunk hchunk
  rw [hsplit] at h
  dsimp only at h
  rw [hall] at h
  dsimp only at h
  obtain ⟨hraw₁, htyped₁⟩ := getInsertionChunk_raw hplace
  obtain ⟨hraw₂, htyped₂⟩ := @combinePendingChunks_raw t c.inputT12r ⟨key, [], false, false⟩ _ _
    htyped₁
  have hbase : rawOf (place.after.reverse ++ place.before).reverse = rawOf c.chunks := by
    rw [List.reverse_append, List.reverse_reverse, hchunks]
  rw [hraw₁, hbase, rawOf_reverse_cons] at hraw₂
  cases hloop : insertLoop t c.inputT12r fuel _ _ _ with
  | none => rw [hloop] at h; exact absurd h (Option.some_ne_none _).symm
  | some last =>
    obtain ⟨leftChunk, before⟩ := last
    rw [hloop] at h
    cases h
    obtain ⟨hraw₃, htyped₃⟩ := insertLoop_raw htable rfl htyped₂
      (by rw [← List.append_assoc, hraw₂]; exact hkeys) hloop
    refine ⟨?_, rfl, fun x hx => htyped₃ x ?_⟩
    · rw [List.append_nil, removeEmpty_raw, hraw₃, ← List.append_assoc, hraw₂]
    · rw [List.append_nil, List.mem_reverse, removeEmpty] at hx
      split at hx
      · exact List.mem_cons_of_mem _ hx
      · exact hx

/-- **NO KEYSTROKE IS LOST OR DUPLICATED**: strings inserted at the end one after another, in
    which no special key starts, are what the chunks have, in a table that forgets none. -/
theorem insertions_keep_raw (htable : t.Transliterates) (fuel : Nat) (keys : List Bytes)
    (hkeys : NoSpecialKey keys.flatten) {c : Composition}
    (h : Composition.insertAll j t fuel ⟨[], t12r⟩ keys = some c) :
    rawOf c.chunks = keys.flatten := by
  have hrun : ∀ (keys : List Bytes) {c c' : Composition},
      (∀ x ∈ c.chunks, x.Typed c.inputT12r) → NoSpecialKey (rawOf c.chunks ++ keys.flatten) →
      c.insertAll j t fuel keys = some c' → rawOf c'.chunks = rawOf c.chunks ++ keys.flatten := by
    intro keys
    induction keys with
    | nil =>
      intro c c' _ _ h
      cases h
      exact (List.append_nil _).symm
    | cons key keys ih =>
      intro c c' htyped hkeys h
      rw [Composition.insertAll, List.foldlM_cons] at h
      obtain ⟨c₁, hfirst, hrest⟩ := Option.bind_eq_some_iff.mp h
      obtain ⟨⟨c₁, pos⟩, hinsert, rfl⟩ := Option.map_eq_some_iff.mp hfirst
      rw [List.flatten_cons, ← List.append_assoc] at hkeys ⊢
      obtain ⟨hraw, hsame, htyped₁⟩ := insertAt_end_raw htable htyped hkeys.prefix hinsert
      rw [← hraw] at hkeys ⊢
      rw [← hsame] at htyped₁
      exact ih htyped₁ hkeys hrest
  exact @hrun keys ⟨[], t12r⟩ c (fun x hx => absurd hx List.not_mem_nil) hkeys h

theorem noSpecialKey_ascii {s : Bytes} (hs : ∀ b ∈ s, b < 0x80 ∧ b ≠ kSpecialKeyOpen) :
    NoSpecialKey s := by
  rintro part ⟨front, back, rfl⟩
  cases part with
  | nil => rfl
  | cons b part =>
    obtain ⟨hascii, hopen⟩ := hs b (by simp)
    rw [UInt8.lt_iff_toNat_lt] at hascii
    have hkey : isSpecialKey b.toNat = false := by
      rw [isSpecialKey, Bool.and_eq_false_iff, decide_eq_false_iff_not]
      refine .inl (Nat.not_le.mpr (hascii.trans ?_))
      decide
    rw [trimLeadingSpecialKey, splitFirstChar32, if_pos (UInt8.lt_iff_toNat_lt.mpr hascii)]
    rw [Option.getD_some, if_neg (by rw [hkey]; exact Bool.false_ne_true),
      if_pos (show (b :: part).head? ≠ some kSpecialKeyOpen from
        fun heq => hopen (Option.some.inj heq))]

/-- Conversions that change nothing. -/
def plainJapanese : JapaneseUtil := ⟨id, id, id, id, id, id, id, id⟩

/-- The letters of `ka` are kept. -/
theorem insertions_keep_raw_ka :
    rawOf ((Composition.insertAll plainJapanese
      (Table.new.setEntry ⟨ascii "ka", ascii "KA", [], noTableAttribute⟩) 9
        ⟨[], .conversionString⟩ [ascii "k", ascii "a"]).getD ⟨[], .conversionString⟩).chunks
      = [ascii "k", ascii "a"].flatten := by
  have htable :
      (Table.new.setEntry ⟨ascii "ka", ascii "KA", [], noTableAttribute⟩).Transliterates := by
    intro key e h
    rw [Table.setEntry, lookUp_addEntry] at h
    split at h
    · cases h
      exact not_hasAttribute_zero _
    · rw [Table.new, lookUp_empty] at h
      exact absurd h (Option.some_ne_none _).symm
  have hrun : (Composition.insertAll plainJapanese
      (Table.new.setEntry ⟨ascii "ka", ascii "KA", [], noTableAttribute⟩) 9
        ⟨[], .conversionString⟩ [ascii "k", ascii "a"]).isSome := by decide +kernel
  obtain ⟨c, hc⟩ := Option.isSome_iff_exists.mp hrun
  rw [hc, Option.getD_some]
  exact insertions_keep_raw htable 9 _ (noSpecialKey_ascii (by decide +kernel)) hc

example : trimLeadingSpecialKey (codepointToUtf8 0xF000) = [] := by decide +kernel

/-- A special key that no rule uses is dropped, though the table has no rule at all. -/
theorem special_key_dropped : ¬ ∀ (j : JapaneseUtil) (t : Table) (t12r : Transliterator)
    (fuel : Nat) (keys : List Bytes) (c : Composition),
    (∀ key e, CharTrie.lookUp key t.entries = some e → e.input ≠ [] ∧
      deleteSpecialKeys e.input = e.input ∧ deleteSpecialKeys e.pending = e.pending ∧
      hasAttribute e.attributes noTransliteration = false) →
    (∀ key ∈ keys, key ≠ []) → Composition.insertAll j t fuel ⟨[], t12r⟩ keys = some c →
    rawOf c.chunks = keys.flatten := by
  intro h
  have hraw := h plainJapanese Table.new .conversionString 9 [codepointToUtf8 0xF000]
    ⟨[], .conversionString⟩
    (fun key e he => absurd (he.symm.trans (lookUp_empty key)) (Option.some_ne_none e))
    (List.forall_mem_singleton.mpr (codepointToUtf8_ne_nil (by omega))) (by decide +kernel)
  exact absurd hraw (by decide +kernel)

end MozkeyComposer
