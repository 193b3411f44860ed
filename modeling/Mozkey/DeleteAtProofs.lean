import Mozkey.SplitChunkProofs

/-! # Composition — deleting a character

    `DeleteAt` splits the chunk at its position, and takes the first character off the chunk
    behind it: the whole chunk, where it shows one character, or a chunk that is split off and
    thrown away.  Chunks that show nothing are thrown away before. -/

namespace MozkeyComposer

open ByteString MozkeyUtil

/-! ## The source -/

/-- The loop of `Composition::DeleteAt`; `none` where the fuel does not do or a string cannot be
    split. -/
def Composition.deleteLoop (j : JapaneseUtil) (position originalSize : Nat) :
    Nat → Composition → Nat → Option (Composition × Nat)
  | 0, _, _ => none
  | fuel + 1, c, newPosition =>
    if c.chunks.isEmpty || c.getLength j != originalSize then some (c, newPosition)
    else
      match c.maybeSplitChunkAt j position with
      | none => none
      | some place =>
        let newPosition := lengthOf j .localT12r place.before
        match place.after with
        | [] => some ({ c with chunks := place.before.reverse }, newPosition)
        | chunk :: after =>
          if chunk.getLength j .localT12r ≤ 1 then
            Composition.deleteLoop j position originalSize fuel
              { c with chunks := place.before.reverse ++ after } newPosition
          else
            match chunk.splitChunk j .localT12r 1 with
            | none => none
            | some (_, chunk) =>
              Composition.deleteLoop j position originalSize fuel
                { c with chunks := place.before.reverse ++ chunk :: after } newPosition

/-- `Composition::DeleteAt`: the composition and the new position. -/
def Composition.deleteAt (j : JapaneseUtil) (fuel : Nat) (c : Composition) (position : Nat) :
    Option (Composition × Nat) :=
  c.deleteLoop j position (c.getLength j) fuel position

/-- Deletions one after another, and the positions that they return. -/
def Composition.deleteAll (j : JapaneseUtil) (fuel : Nat) :
    Composition → List Nat → Option (Composition × List Nat)
  | c, [] => some (c, [])
  | c, position :: positions =>
    (c.deleteAt j fuel position).bind fun deleted =>
      (deleted.1.deleteAll j fuel positions).map fun rest => (rest.1, deleted.2 :: rest.2)

/-! ## When it is right -/

/-- All chunks show valid text. -/
def Legible (j : JapaneseUtil) (chunks : List CharChunk) : Prop :=
  ∀ chunk ∈ chunks, ValidUtf8 (chunk.result j .localT12r)

/-- The chunk at a position can be cut there, and the one behind it behind its first character. -/
structure Composition.CutsFor (j : JapaneseUtil) (c : Composition) (position : Nat) : Prop where
  at_position : ∀ found, c.getChunkAt j position .localT12r = some found →
    0 < found.innerPosition → found.innerPosition < found.chunk.getLength j .localT12r →
      found.chunk.CutsAt j found.innerPosition
  behind : ∀ place, c.maybeSplitChunkAt j position = some place →
    ∀ empties chunk after, place.after = empties ++ chunk :: after →
      (∀ x ∈ empties, x.getLength j .localT12r = 0) → 1 < chunk.getLength j .localT12r →
        chunk.CutsAt j 1

/-- Deletions of which each is within the composition and cuts chunks where they can be cut. -/
def Composition.CutsForAll (j : JapaneseUtil) : Composition → List Nat → Prop
  | _, [] => True
  | c, position :: positions =>
    position < c.getLength j ∧ c.CutsFor j position ∧
      ∀ fuel c' position', c.deleteAt j fuel position = some (c', position') →
        c'.CutsForAll j positions

variable {j : JapaneseUtil} {c c' : Composition} {chunk : CharChunk}
  {chunks before after : List CharChunk} {position : Nat}

/-! ## The characters shown -/

/-- The characters that chunks show. -/
def shownChars (j : JapaneseUtil) (chunks : List CharChunk) : List Nat :=
  chunks.flatMap fun chunk => chars32 (chunk.result j .localT12r)

theorem shownChars_append (chunks chunks' : List CharChunk) :
    shownChars j (chunks ++ chunks') = shownChars j chunks ++ shownChars j chunks' :=
  List.flatMap_append

theorem shownChars_cons (chunk : CharChunk) (chunks : List CharChunk) :
    shownChars j (chunk :: chunks)
      = chars32 (chunk.result j .localT12r) ++ shownChars j chunks :=
  List.flatMap_cons

theorem chars32_spells {s : Bytes} (hs : ValidUtf8 s) :
    s = (chars32 s).flatMap utf8 ∧ ∀ c ∈ chars32 s, IsScalar c := by
  obtain ⟨cs, hcs, rfl⟩ := hs
  rw [chars32_flatMap_utf8 fun c hc => (hcs c hc).lt]
  exact ⟨rfl, hcs⟩

theorem getLength_eq (h : ValidUtf8 (chunk.result j .localT12r)) :
    chunk.getLength j .localT12r = (chars32 (chunk.result j .localT12r)).length := by
  obtain ⟨heq, hscalar⟩ := chars32_spells h
  conv_lhs => rw [CharChunk.getLength, heq]
  exact MozkeyStrings.charsLen_flatMap hscalar

theorem Legible.append (h : Legible j chunks) (h' : Legible j after) :
    Legible j (chunks ++ after) :=
  fun chunk hchunk => (List.mem_append.mp hchunk).elim (h chunk) (h' chunk)

theorem lengthOf_eq (h : Legible j chunks) :
    lengthOf j .localT12r chunks = (shownChars j chunks).length := by
  induction chunks with
  | nil => rfl
  | cons chunk chunks ih =>
    obtain ⟨hchunk, hchunks⟩ := List.forall_mem_cons.mp h
    rw [lengthOf_cons, shownChars_cons, List.length_append, getLength_eq hchunk, ih hchunks]

theorem getString_eq (h : Legible j c.chunks) :
    c.getString j = (shownChars j c.chunks).flatMap utf8 ∧
      chars32 (c.getString j) = shownChars j c.chunks := by
  have hspelled : ∀ {chunks}, Legible j chunks →
      (chunks.flatMap fun chunk => chunk.result j .localT12r)
        = (shownChars j chunks).flatMap utf8 ∧ ∀ x ∈ shownChars j chunks, IsScalar x := by
    intro chunks h
    induction chunks with
    | nil => exact ⟨rfl, fun x hx => absurd hx List.not_mem_nil⟩
    | cons chunk chunks ih =>
      obtain ⟨hchunk, hchunks⟩ := List.forall_mem_cons.mp h
      obtain ⟨heq, hscalar⟩ := chars32_spells hchunk
      obtain ⟨hrest, hscalar'⟩ := ih hchunks
      rw [List.flatMap_cons, shownChars_cons, List.flatMap_append, ← heq, hrest]
      exact ⟨rfl, fun x hx => (List.mem_append.mp hx).elim (hscalar x) (hscalar' x)⟩
  obtain ⟨heq, hscalar⟩ := hspelled h
  rw [Composition.getString, heq]
  exact ⟨rfl, chars32_flatMap_utf8 fun x hx => (hscalar x hx).lt⟩

theorem CharChunk.SplitsShown.chars {position : Nat} (h : chunk.SplitsShown j position)
    (hvalid : ValidUtf8 (chunk.result j .localT12r)) :
    ∃ left right, chunk.splitChunk j .localT12r position = some (some left, right) ∧
      ValidUtf8 (left.result j .localT12r) ∧ ValidUtf8 (right.result j .localT12r) ∧
      chars32 (left.result j .localT12r) = (chars32 (chunk.result j .localT12r)).take position ∧
      chars32 (right.result j .localT12r)
        = (chars32 (chunk.result j .localT12r)).drop position := by
  obtain ⟨left, right, hsplit, hleft, hright⟩ := h
  obtain ⟨heq, hscalar⟩ := chars32_spells hvalid
  rw [heq, utf8Take_flatMap _ hscalar] at hleft
  rw [heq, utf8SubString_flatMap hscalar] at hright
  have htake : ∀ x ∈ (chars32 (chunk.result j .localT12r)).take position, IsScalar x :=
    fun x hx => hscalar x (List.mem_of_mem_take hx)
  have hdrop : ∀ x ∈ (chars32 (chunk.result j .localT12r)).drop position, IsScalar x :=
    fun x hx => hscalar x (List.mem_of_mem_drop hx)
  refine ⟨left, right, hsplit, ?_⟩
  rw [← Option.some.inj hleft, ← Option.some.inj hright]
  exact ⟨⟨_, htake, rfl⟩, ⟨_, hdrop, rfl⟩,
    chars32_flatMap_utf8 fun x hx => (htake x hx).lt,
    chars32_flatMap_utf8 fun x hx => (hdrop x hx).lt⟩

/-! ## The chunk at a position -/

variable {last : CharChunk}

/-- The loop of `GetChunkAt` goes past the chunks in front of the position. -/
theorem getChunkAtLoop_eq {t12r : Transliterator} :
    ∀ {xs : List CharChunk} {offset : Nat} {before : List CharChunk} {first : CharChunk}
      {rest : List CharChunk}, first :: rest = xs ++ last :: after →
      offset + lengthOf j t12r xs < position →
      position ≤ offset + lengthOf j t12r xs + last.getLength j t12r →
      getChunkAtLoop j t12r position offset before first rest
        = ⟨xs.reverse ++ before, last, after, position - (offset + lengthOf j t12r xs)⟩ := by
  intro xs
  induction xs with
  | nil =>
    intro offset before first rest heq hlt hle
    obtain ⟨rfl, rfl⟩ := List.cons.inj heq
    have hnil : lengthOf j t12r [] = 0 := rfl
    rw [hnil] at hle ⊢
    rw [getChunkAtLoop.eq_def]
    dsimp only
    rw [if_neg (by omega)]
    rfl
  | cons x xs ih =>
    intro offset before first rest heq hlt hle
    obtain ⟨hfirst, hrest⟩ := List.cons.inj heq
    subst hfirst
    rw [lengthOf_cons] at hlt hle ⊢
    rw [getChunkAtLoop.eq_def]
    dsimp only
    rw [if_pos (by omega)]
    cases rest with
    | nil => exact absurd hrest.symm (by simp)
    | cons next more =>
      dsimp only
      rw [ih hrest (by omega) (by omega), List.reverse_cons, List.append_assoc, Nat.add_assoc]
      rfl

/-- Chunks in front of a position, and the one that it is in or at the end of. -/
theorem exists_chunk_at (chunks : List CharChunk) (hpos : 0 < position)
    (hle : position ≤ lengthOf j .localT12r chunks) :
    ∃ xs last after, chunks = xs ++ last :: after ∧ lengthOf j .localT12r xs < position ∧
      position ≤ lengthOf j .localT12r xs + last.getLength j .localT12r := by
  induction chunks generalizing position with
  | nil =>
    have hnil : lengthOf j .localT12r [] = 0 := rfl
    omega
  | cons chunk chunks ih =>
    have hnil : lengthOf j .localT12r [] = 0 := rfl
    rw [lengthOf_cons] at hle
    by_cases hhere : position ≤ chunk.getLength j .localT12r
    · exact ⟨[], chunk, chunks, rfl, by omega, by omega⟩
    · obtain ⟨xs, last, after, rfl, hlt, hle'⟩ :=
        @ih (position - chunk.getLength j .localT12r) (by omega) (by omega)
      refine ⟨chunk :: xs, last, after, rfl, ?_, ?_⟩
      · rw [lengthOf_cons]
        omega
      · rw [lengthOf_cons]
        omega

theorem getChunkAt_eq {xs : List CharChunk} (hchunks : c.chunks = xs ++ last :: after)
    (hlt : lengthOf j .localT12r xs < position)
    (hle : position ≤ lengthOf j .localT12r xs + last.getLength j .localT12r) :
    c.getChunkAt j position .localT12r
      = some ⟨xs.reverse, last, after, position - lengthOf j .localT12r xs⟩ := by
  rw [Composition.getChunkAt]
  cases hlist : c.chunks with
  | nil => rw [hlist] at hchunks; exact absurd hchunks (by simp)
  | cons first rest =>
    rw [hlist] at hchunks
    dsimp only
    rw [getChunkAtLoop_eq hchunks (by omega) (by omega), List.append_nil, Nat.zero_add]

/-- **WHERE A CHUNK IS SPLIT**: behind the start, at the end of a chunk or within it. -/
theorem maybeSplitChunkAt_eq {xs : List CharChunk} (hchunks : c.chunks = xs ++ last :: after)
    (hlt : lengthOf j .localT12r xs < position)
    (hle : position ≤ lengthOf j .localT12r xs + last.getLength j .localT12r) :
    c.maybeSplitChunkAt j position
      = if position = lengthOf j .localT12r xs + last.getLength j .localT12r then
          some ⟨last :: xs.reverse, after⟩
        else (last.splitChunk j .localT12r (position - lengthOf j .localT12r xs)).map fun parts =>
          ⟨parts.1.toList ++ xs.reverse, parts.2 :: after⟩ := by
  rw [Composition.maybeSplitChunkAt, getChunkAt_eq hchunks hlt hle]
  dsimp only
  have hinner : ¬ position - lengthOf j .localT12r xs = 0 := by omega
  rw [if_neg (by simp [hinner])]
  by_cases hend : position = lengthOf j .localT12r xs + last.getLength j .localT12r
  · rw [if_pos (by omega), if_pos hend]
  · rw [if_neg (by omega), if_neg hend]
    cases last.splitChunk j .localT12r (position - lengthOf j .localT12r xs) with
    | none => rfl
    | some parts => rfl

theorem maybeSplitChunkAt_zero (c : Composition) :
    c.maybeSplitChunkAt j 0 = some ⟨[], c.chunks⟩ := by
  rw [Composition.maybeSplitChunkAt, Composition.getChunkAt]
  cases c.chunks with
  | nil => rfl
  | cons first rest =>
    have hfirst : getChunkAtLoop j .localT12r 0 0 [] first rest = ⟨[], first, rest, 0⟩ := by
      rw [getChunkAtLoop.eq_def]
      dsimp only
      rw [if_neg (Nat.not_lt_zero _)]
    simp only [hfirst]
    rfl

/-- The chunks before a position do not end in one that shows nothing. -/
def EndsShown (j : JapaneseUtil) (before : List CharChunk) : Prop :=
  ∀ last rest, before = last :: rest → 0 < last.getLength j .localT12r

theorem maybeSplitChunkAt_boundary (hchunks : c.chunks = before.reverse ++ after)
    (hends : EndsShown j before) :
    c.maybeSplitChunkAt j (lengthOf j .localT12r before.reverse) = some ⟨before, after⟩ := by
  cases before with
  | nil =>
    rw [List.reverse_nil, List.nil_append] at hchunks
    rw [← hchunks]
    exact maybeSplitChunkAt_zero c
  | cons last rest =>
    have hpos := hends last rest rfl
    have hlen : lengthOf j .localT12r (last :: rest).reverse
        = lengthOf j .localT12r rest.reverse + last.getLength j .localT12r := by
      rw [List.reverse_cons, lengthOf, List.map_append, List.sum_append]
      rfl
    rw [List.reverse_cons, List.append_assoc] at hchunks
    rw [hlen, maybeSplitChunkAt_eq hchunks (by omega) (Nat.le_refl _), if_pos rfl,
      List.reverse_reverse]
    rfl

/-- **THE CHUNKS ON BOTH SIDES** of a position show the first characters and the rest. -/
theorem maybeSplitChunkAt_shows (hlegible : Legible j c.chunks)
    (hle : position ≤ c.getLength j) (hcuts : c.CutsFor j position) :
    ∃ place, c.maybeSplitChunkAt j position = some place ∧
      Legible j place.before.reverse ∧ Legible j place.after ∧ EndsShown j place.before ∧
      shownChars j place.before.reverse = (shownChars j c.chunks).take position ∧
      shownChars j place.after = (shownChars j c.chunks).drop position := by
  rcases Nat.eq_zero_or_pos position with rfl | hpos
  · exact ⟨_, maybeSplitChunkAt_zero c, fun _ hx => absurd hx List.not_mem_nil, hlegible,
      (fun _ _ heq => nomatch heq), rfl, rfl⟩
  obtain ⟨xs, last, after, hchunks, hlt, hle'⟩ := exists_chunk_at c.chunks hpos hle
  have hxs : Legible j xs := fun x hx => hlegible x (by rw [hchunks]; simp [hx])
  have hlast : ValidUtf8 (last.result j .localT12r) := hlegible last (by rw [hchunks]; simp)
  have hafter : Legible j after := fun x hx => hlegible x (by rw [hchunks]; simp [hx])
  have hshown : shownChars j c.chunks
      = shownChars j xs ++ (chars32 (last.result j .localT12r) ++ shownChars j after) := by
    rw [hchunks, shownChars_append, shownChars_cons]
  rw [getLength_eq hlast] at hle'
  rw [lengthOf_eq hxs] at hlt hle'
  have hsplit := maybeSplitChunkAt_eq hchunks (by rw [lengthOf_eq hxs]; exact hlt)
    (by rw [lengthOf_eq hxs, getLength_eq hlast]; exact hle')
  rw [lengthOf_eq hxs, getLength_eq hlast] at hsplit
  by_cases hend : position
      = (shownChars j xs).length + (chars32 (last.result j .localT12r)).length
  · rw [if_pos hend] at hsplit
    have hfront : (shownChars j xs ++ chars32 (last.result j .localT12r)).length = position := by
      rw [List.length_append, hend]
    refine ⟨_, hsplit, ?_, hafter, ?_, ?_, ?_⟩
    · rw [List.reverse_cons, List.reverse_reverse]
      exact hxs.append (List.forall_mem_singleton.mpr hlast)
    · rintro _ _ heq
      obtain ⟨rfl, -⟩ := List.cons.inj heq
      rw [getLength_eq hlast]
      omega
    · rw [List.reverse_cons, List.reverse_reverse, shownChars_append, shownChars_cons, hshown]
      rw [← List.append_assoc, ← List.append_assoc, List.take_left' hfront]
      exact List.append_nil _
    · rw [hshown, ← List.append_assoc, List.drop_left' hfront]
  · rw [if_neg hend] at hsplit
    have hfound := getChunkAt_eq hchunks (by rw [lengthOf_eq hxs]; exact hlt)
      (by rw [lengthOf_eq hxs, getLength_eq hlast]; exact hle')
    rw [lengthOf_eq hxs] at hfound
    have hinner : position - (shownChars j xs).length < last.getLength j .localT12r := by
      rw [getLength_eq hlast]
      omega
    have hcut := hcuts.at_position _ hfound (show 0 < position - _ by omega) hinner
    obtain ⟨left, right, hparts, hleft, hright, htake, hdrop⟩ :=
      (splitChunk_shows (by omega) hinner hcut).chars hlast
    rw [hparts] at hsplit
    refine ⟨_, hsplit, ?_, List.forall_mem_cons.mpr ⟨hright, hafter⟩, ?_, ?_, ?_⟩
    · show Legible j (left :: xs.reverse).reverse
      rw [List.reverse_cons, List.reverse_reverse]
      exact hxs.append (List.forall_mem_singleton.mpr hleft)
    · rintro _ _ heq
      obtain ⟨rfl, -⟩ := List.cons.inj heq
      rw [getLength_eq hleft, htake, List.length_take]
      omega
    · show shownChars j (left :: xs.reverse).reverse = _
      rw [List.reverse_cons, List.reverse_reverse, shownChars_append, shownChars_cons, htake,
        hshown, List.take_append, List.take_of_length_le (Nat.le_of_lt hlt),
        List.take_append_of_le_length (by omega)]
      exact congrArg _ (List.append_nil _)
    · rw [shownChars_cons, hdrop, hshown, List.drop_append,
        List.drop_eq_nil_of_le (Nat.le_of_lt hlt), List.nil_append,
        List.drop_append_of_le_length (by omega)]

/-! ## One deletion -/

theorem lengthOf_reverse (t12r : Transliterator) (chunks : List CharChunk) :
    lengthOf j t12r chunks.reverse = lengthOf j t12r chunks := by
  rw [lengthOf, List.map_reverse, List.sum_reverse]
  rfl

variable {originalSize fuel : Nat}

/-- The loop goes on with a composition as with the one that the split makes of it. -/
theorem deleteLoop_split {newPosition : Nat} {place : Place} (hne : c.chunks ≠ [])
    (hlen : c.getLength j = originalSize) (hsplit : c.maybeSplitChunkAt j position = some place)
    (hends : EndsShown j place.before) (hposition : lengthOf j .localT12r place.before = position)
    (hlen' : ({ c with chunks := place.before.reverse ++ place.after } : Composition).getLength j
      = originalSize) (hne' : place.before.reverse ++ place.after ≠ []) :
    c.deleteLoop j position originalSize fuel newPosition
      = ({ c with chunks := place.before.reverse ++ place.after } : Composition).deleteLoop j
          position originalSize fuel newPosition := by
  have hsplit' := @maybeSplitChunkAt_boundary j
    { c with chunks := place.before.reverse ++ place.after } place.before place.after rfl hends
  rw [lengthOf_reverse, hposition] at hsplit'
  cases fuel with
  | zero => rfl
  | succ fuel =>
    rw [Composition.deleteLoop, Composition.deleteLoop, hsplit, hsplit', hlen, hlen']
    rw [List.isEmpty_eq_false_iff.mpr hne, List.isEmpty_eq_false_iff.mpr hne',
      if_neg (by simp), if_neg (by simp)]

theorem deleteLoop_done (hlen : c.getLength j ≠ originalSize) (newPosition : Nat) :
    c.deleteLoop j position originalSize 1 newPosition = some (c, newPosition) := by
  rw [Composition.deleteLoop, if_pos]
  rw [Bool.or_eq_true]
  exact .inr (bne_iff_ne.mpr hlen)

/-- **AT A POSITION BETWEEN TWO CHUNKS** the loop throws away what shows nothing, and then one
    character. -/
theorem deleteLoop_boundary {newPosition : Nat} (hends : EndsShown j before)
    (hbefore : Legible j before.reverse) (hafter : Legible j after)
    (hchunks : c.chunks = before.reverse ++ after) (hmore : shownChars j after ≠ [])
    (hcuts : ∀ empties chunk rest, after = empties ++ chunk :: rest →
      (∀ x ∈ empties, x.getLength j .localT12r = 0) → 1 < chunk.getLength j .localT12r →
        chunk.CutsAt j 1) :
    ∃ fuel c', c.deleteLoop j (lengthOf j .localT12r before) (c.getLength j) fuel newPosition
        = some (c', lengthOf j .localT12r before) ∧ Legible j c'.chunks ∧
      shownChars j c'.chunks = shownChars j before.reverse ++ (shownChars j after).tail := by
  induction after generalizing c newPosition with
  | nil => exact absurd rfl hmore
  | cons chunk after ih =>
    obtain ⟨hchunk, hrest⟩ := List.forall_mem_cons.mp hafter
    have hsplit := maybeSplitChunkAt_boundary hchunks hends
    rw [lengthOf_reverse] at hsplit
    have hlength : c.getLength j = (shownChars j before.reverse).length
        + ((chars32 (chunk.result j .localT12r)).length + (shownChars j after).length) := by
      rw [Composition.getLength, hchunks, lengthOf_eq (hbefore.append hafter),
        shownChars_append, shownChars_cons, List.length_append, List.length_append]
    have hstep (fuel : Nat) : c.deleteLoop j (lengthOf j .localT12r before) (c.getLength j)
        (fuel + 1) newPosition
        = if chunk.getLength j .localT12r ≤ 1 then
            ({ c with chunks := before.reverse ++ after } : Composition).deleteLoop j
              (lengthOf j .localT12r before) (c.getLength j) fuel (lengthOf j .localT12r before)
          else
            match chunk.splitChunk j .localT12r 1 with
            | none => none
            | some (_, chunk) =>
              ({ c with chunks := before.reverse ++ chunk :: after } : Composition).deleteLoop
                j (lengthOf j .localT12r before) (c.getLength j) fuel
                (lengthOf j .localT12r before) := by
      rw [Composition.deleteLoop, if_neg, hsplit]
      rw [hchunks]
      simp
    by_cases hshort : chunk.getLength j .localT12r ≤ 1
    · have hlen : ({ c with chunks := before.reverse ++ after } : Composition).getLength j
          = (shownChars j before.reverse).length + (shownChars j after).length := by
        rw [Composition.getLength, lengthOf_eq (hbefore.append hrest), shownChars_append,
          List.length_append]
      rw [getLength_eq hchunk] at hshort
      rcases hread : chars32 (chunk.result j .localT12r) with _ | ⟨x, more⟩
      · -- The chunk shows nothing, and the loop goes on behind it.
        rw [hread] at hlength
        rw [shownChars_cons, hread, List.nil_append] at hmore
        obtain ⟨fuel, c', hrun, hlegible, hshown⟩ :=
          @ih { c with chunks := before.reverse ++ after } (lengthOf j .localT12r before) hrest
            rfl hmore fun empties chunk' rest heq hempties hlong =>
              hcuts (chunk :: empties) chunk' rest (by rw [heq]; rfl)
                (List.forall_mem_cons.mpr ⟨by rw [getLength_eq hchunk, hread]; rfl, hempties⟩)
                hlong
        rw [hlen] at hrun
        refine ⟨fuel + 1, c', ?_, hlegible, ?_⟩
        · rw [hstep, getLength_eq hchunk, hread, List.length_nil, if_pos (Nat.zero_le 1), hlength,
            List.length_nil, Nat.zero_add]
          exact hrun
        · rw [hshown, shownChars_cons, hread, List.nil_append]
      · rw [hread, List.length_cons] at hshort hlength
        obtain rfl := List.eq_nil_of_length_eq_zero (show more.length = 0 by omega)
        refine ⟨2, { c with chunks := before.reverse ++ after }, ?_, hbefore.append hrest, ?_⟩
        · rw [hstep, getLength_eq hchunk, hread, List.length_singleton, if_pos (Nat.le_refl 1)]
          exact deleteLoop_done (by rw [hlen, hlength]; omega) _
        · rw [shownChars_append, shownChars_cons, hread]
          rfl
    · obtain ⟨left, right, hparts, -, hright, -, hdrop⟩ :=
        (splitChunk_shows Nat.one_pos (Nat.lt_of_not_le hshort)
          (hcuts [] chunk after rfl (fun _ hx => absurd hx List.not_mem_nil)
            (Nat.lt_of_not_le hshort))).chars hchunk
      have hlegible : Legible j (before.reverse ++ right :: after) :=
        hbefore.append (List.forall_mem_cons.mpr ⟨hright, hrest⟩)
      have hlong := Nat.lt_of_not_le hshort
      rw [getLength_eq hchunk] at hlong
      refine ⟨2, { c with chunks := before.reverse ++ right :: after }, ?_, hlegible, ?_⟩
      · rw [hstep, if_neg hshort, hparts]
        refine deleteLoop_done ?_ _
        rw [hlength, Composition.getLength, lengthOf_eq hlegible, shownChars_append,
          shownChars_cons, hdrop, List.length_append, List.length_append, List.length_drop]
        omega
      · rw [shownChars_append, shownChars_cons, shownChars_cons, hdrop]
        cases hread : chars32 (chunk.result j .localT12r) with
        | nil => rw [hread] at hlong; exact absurd hlong (by decide)
        | cons x more => rfl

/-- **ONE DELETION** takes the character at its position out of what is shown. -/
theorem deleteAt_erases (hlegible : Legible j c.chunks) (hlt : position < c.getLength j)
    (hcuts : c.CutsFor j position) :
    ∃ fuel c', c.deleteAt j fuel position = some (c', position) ∧ Legible j c'.chunks ∧
      shownChars j c'.chunks = (shownChars j c.chunks).eraseIdx position := by
  obtain ⟨place, hsplit, hbefore, hafter, hends, hfront, hback⟩ :=
    maybeSplitChunkAt_shows hlegible (Nat.le_of_lt hlt) hcuts
  have hlen : c.getLength j = (shownChars j c.chunks).length := lengthOf_eq hlegible
  rw [hlen] at hlt
  have hposition : lengthOf j .localT12r place.before = position := by
    rw [← lengthOf_reverse, lengthOf_eq hbefore, hfront, List.length_take]
    omega
  have hmore : shownChars j place.after ≠ [] := by
    rw [hback]
    exact List.ne_nil_of_length_pos (by rw [List.length_drop]; omega)
  have hlen' : ({ c with chunks := place.before.reverse ++ place.after } : Composition).getLength j
      = c.getLength j := by
    rw [Composition.getLength, lengthOf_eq (hbefore.append hafter), shownChars_append, hfront,
      hback, List.take_append_drop, hlen]
  obtain ⟨fuel, c', hrun, hlegible', hshown⟩ :=
    @deleteLoop_boundary j { c with chunks := place.before.reverse ++ place.after } place.before
      place.after position hends hbefore hafter rfl hmore (hcuts.behind place hsplit)
  rw [hposition, hlen'] at hrun
  refine ⟨fuel, c', ?_, hlegible', ?_⟩
  · rw [Composition.deleteAt, deleteLoop_split ?_ rfl hsplit hends hposition hlen' ?_, hrun]
    · intro hnil
      rw [hnil] at hlt
      exact absurd hlt (Nat.not_lt_zero _)
    · intro hnil
      obtain ⟨-, hnil⟩ := List.append_eq_nil_iff.mp hnil
      rw [hnil] at hmore
      exact hmore rfl
  · rw [hshown, hfront, hback, List.eraseIdx_eq_take_drop_succ, List.tail_drop]

/-! ## Runs of deletions -/

theorem deleteLoop_mono {fuel' newPosition : Nat} (hle : fuel ≤ fuel') {deleted : Composition × Nat}
    (h : c.deleteLoop j position originalSize fuel newPosition = some deleted) :
    c.deleteLoop j position originalSize fuel' newPosition = some deleted := by
  induction fuel generalizing c fuel' newPosition with
  | zero => exact absurd h (Option.some_ne_none _).symm
  | succ fuel ih =>
    obtain ⟨fuel', rfl⟩ : ∃ n, fuel' = n + 1 := ⟨fuel' - 1, by omega⟩
    rw [Composition.deleteLoop] at h ⊢
    split
    · rename_i hdone
      rwa [if_pos hdone] at h
    · rename_i hgoes
      rw [if_neg hgoes] at h
      cases hsplit : c.maybeSplitChunkAt j position with
      | none => rw [hsplit] at h; exact absurd h (Option.some_ne_none _).symm
      | some place =>
        rw [hsplit] at h
        dsimp only at h ⊢
        cases hafter : place.after with
        | nil => rw [hafter] at h; exact h
        | cons chunk after =>
          rw [hafter] at h
          dsimp only at h ⊢
          split
          · rename_i hshort
            rw [if_pos hshort] at h
            exact ih (by omega) h
          · rename_i hlong
            rw [if_neg hlong] at h
            cases hparts : chunk.splitChunk j .localT12r 1 with
            | none => rw [hparts] at h; exact absurd h (Option.some_ne_none _).symm
            | some parts =>
              rw [hparts] at h
              exact ih (by omega) h

theorem deleteAll_mono {fuel' : Nat} (hle : fuel ≤ fuel') {positions : List Nat}
    {deleted : Composition × List Nat} (h : c.deleteAll j fuel positions = some deleted) :
    c.deleteAll j fuel' positions = some deleted := by
  induction positions generalizing c deleted with
  | nil => exact h
  | cons position positions ih =>
    obtain ⟨first, hfirst, hrest⟩ := Option.bind_eq_some_iff.mp h
    obtain ⟨rest, hrun, rfl⟩ := Option.map_eq_some_iff.mp hrest
    refine Option.bind_eq_some_iff.mpr ⟨first, deleteLoop_mono hle hfirst, ?_⟩
    exact Option.map_eq_some_iff.mpr ⟨rest, ih hrun, rfl⟩

/-- A run of deletions takes one character after another out of what is shown. -/
theorem deleteAll_erases {positions : List Nat} (hlegible : Legible j c.chunks)
    (hcuts : c.CutsForAll j positions) :
    ∃ fuel c', c.deleteAll j fuel positions = some (c', positions) ∧ Legible j c'.chunks ∧
      shownChars j c'.chunks = positions.foldl List.eraseIdx (shownChars j c.chunks) := by
  induction positions generalizing c with
  | nil => exact ⟨0, c, rfl, hlegible, rfl⟩
  | cons position positions ih =>
    obtain ⟨hlt, hcut, hrest⟩ := hcuts
    obtain ⟨fuel₁, c₁, hrun₁, hlegible₁, hshown₁⟩ := deleteAt_erases hlegible hlt hcut
    obtain ⟨fuel₂, c₂, hrun₂, hlegible₂, hshown₂⟩ := ih hlegible₁ (hrest fuel₁ c₁ position hrun₁)
    refine ⟨max fuel₁ fuel₂, c₂, ?_, hlegible₂, ?_⟩
    · exact Option.bind_eq_some_iff.mpr
        ⟨(c₁, position), deleteLoop_mono (le_max_left _ _) hrun₁,
          Option.map_eq_some_iff.mpr
            ⟨(c₂, positions), deleteAll_mono (le_max_right _ _) hrun₂, rfl⟩⟩
    · rw [hshown₂, hshown₁, List.foldl_cons]

/-! ## The main result -/

/-- **SPLITTING AND DELETING KEEP THE REST**: a chunk that is split where it can be cut shows the
    first characters of what it showed and the rest; and deletions that cut chunks where they can
    be cut return their positions and take out the characters there, and no others. -/
theorem split_and_delete (j : JapaneseUtil) :
    (∀ (chunk : CharChunk) (position : Nat), 0 < position →
      position < chunk.getLength j .localT12r → chunk.CutsAt j position →
        chunk.SplitsShown j position) ∧
      ∀ (c : Composition) (positions : List Nat), Legible j c.chunks → c.CutsForAll j positions →
        ∃ fuel c', c.deleteAll j fuel positions = some (c', positions) ∧
          chars32 (c'.getString j) = positions.foldl List.eraseIdx (chars32 (c.getString j)) := by
  refine ⟨fun chunk position hpos hlt hcuts => splitChunk_shows hpos hlt hcuts,
    fun c positions hlegible hcuts => ?_⟩
  obtain ⟨fuel, c', hrun, hlegible', hshown⟩ := deleteAll_erases hlegible hcuts
  refine ⟨fuel, c', hrun, ?_⟩
  rw [(getString_eq hlegible').2, (getString_eq hlegible).2, hshown]

/-- `ka` is split into its letters. -/
theorem split_and_delete_ka :
    ({ CharChunk.new .conversionString with raw := ascii "ka", conversion := ascii "KA" }
      : CharChunk).SplitsShown plainJapanese 1 ∧
    ∃ fuel c', Composition.deleteAll plainJapanese fuel
        ⟨[{ CharChunk.new .conversionString with raw := ascii "ka", conversion := ascii "KA" }],
          .conversionString⟩ [0] = some (c', [0]) ∧
      chars32 (c'.getString plainJapanese) = [0].foldl List.eraseIdx [0x4B, 0x41] := by
  let ka : CharChunk :=
    { CharChunk.new .conversionString with raw := ascii "ka", conversion := ascii "KA" }
  have hcuts : ka.CutsAt plainJapanese 1 := by
    refine ⟨by decide, ⟨[0x4B, 0x41], by unfold Plain; decide, by decide +kernel⟩,
      ⟨[], by unfold Plain; decide, rfl⟩, ⟨[], by unfold Plain; decide, rfl⟩, ?_, ?_⟩
    · rw [CharChunk.SeamAt, if_pos (by decide +kernel)]
      decide +kernel
    · exact ⟨ascii "K", ascii "A", by decide +kernel, by decide +kernel, by decide +kernel,
        by decide +kernel⟩
  have hlegible : Legible plainJapanese [ka] :=
    List.forall_mem_singleton.mpr ⟨[0x4B, 0x41], by decide, by decide +kernel⟩
  have hfor : Composition.CutsFor plainJapanese ⟨[ka], .conversionString⟩ 0 := by
    constructor
    · intro found hfound hinner
      have hzero : ((Composition.getChunkAt plainJapanese ⟨[ka], .conversionString⟩ 0
          .localT12r).map ChunkAt.innerPosition) = some 0 := by decide +kernel
      rw [hfound] at hzero
      exact absurd (Option.some.inj hzero) (Nat.ne_of_gt hinner)
    · intro place hplace empties chunk after hafter hempties hlong
      rw [maybeSplitChunkAt_zero] at hplace
      cases hplace
      cases empties with
      | nil =>
        obtain ⟨rfl, -⟩ := List.cons.inj hafter
        exact hcuts
      | cons x empties => exact absurd (congrArg List.length hafter) (by simp)
  obtain ⟨hsplit, hdelete⟩ := split_and_delete plainJapanese
  have hchars : chars32 (Composition.getString plainJapanese ⟨[ka], .conversionString⟩)
      = [0x4B, 0x41] := by decide +kernel
  rw [← hchars]
  exact ⟨hsplit ka 1 (by decide) (by decide +kernel) hcuts,
    hdelete _ [0] hlegible ⟨by decide +kernel, hfor, fun _ _ _ _ => trivial⟩⟩

/-- A chunk displays two characters in the place of one that is pending. -/
theorem ambiguous_result_lost : ¬ ∀ (fuel : Nat) (text : Bytes) (t : Table),
    Table.new.loadFromString fuel text = some t → ∀ j : JapaneseUtil,
      (∀ chunk, CharChunk.Reached t (fun _ _ => True) chunk → ∀ position, 0 < position →
        position < chunk.getLength j .localT12r → chunk.SplitsShown j position) ∧
      ∀ (t12r : Transliterator) (steps : List Insertion) (fuel : Nat) (c : Composition),
        Composition.insertRun j t fuel ⟨[], t12r⟩ steps = some c → ∀ position,
          position < c.getLength j → ∃ fuel c', c.deleteAt j fuel position = some (c', position) ∧
            chars32 (c'.getString j) = (chars32 (c.getString j)).eraseIdx position := by
  intro h
  let t := (Table.new.loadFromString 9
    (ascii "n\tNN\t\tDisplayAmbiguousResult\nna\tX")).getD .new
  let added := ((CharChunk.new .conversionString).addCompositionInput t 9
    ⟨ascii "n", [], false, false⟩).getD (.new .conversionString, .cleared)
  have hload := @eq_some_getD _ (Table.new.loadFromString 9
    (ascii "n\tNN\t\tDisplayAmbiguousResult\nna\tX")) (by decide +kernel) Table.new
  have hadded := @eq_some_getD _ ((CharChunk.new .conversionString).addCompositionInput t 9
    ⟨ascii "n", [], false, false⟩) (by decide +kernel) (.new .conversionString, .cleared)
  have hreached : CharChunk.Reached t (fun _ _ => True) added.1 :=
    @CharChunk.Reached.add t _ _ _ _ added.2 9 (.new .conversionString) trivial hadded
  obtain ⟨left, right, hsplit, -, hright⟩ :=
    (h 9 _ t hload plainJapanese).1 added.1 hreached 1 (by decide) (by decide +kernel)
  have hparts : ((added.1.splitChunk plainJapanese .localT12r 1).map fun parts =>
      parts.2.result plainJapanese .localT12r) = some [] := by decide +kernel
  rw [hsplit] at hparts
  rw [show right.result plainJapanese .localT12r = [] from Option.some.inj hparts] at hright
  exact absurd hright (by decide +kernel)

end MozkeyComposer
