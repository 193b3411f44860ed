import Mozkey.PendingTextProofs

/-! # CharChunk — cutting what is shown

    `SplitChunk` is given a position in what the chunk shows, and cuts the conversion together
    with the pending text there, special keys taken out.  What is shown may be something else:
    an ambiguous result in the place of the pending text, or the text in another script.  And
    what belongs to the conversion is told from what is pending by counting bytes, some of them
    with the special keys. -/

namespace MozkeyComposer

open ByteString MozkeyUtil

/-! ## Special keys, character by character -/

/-- Characters other than U+0000 and the opening sign of a special key that no table has. -/
def Plain (cs : List Nat) : Prop := ∀ c ∈ cs, IsScalar c ∧ c ≠ 0 ∧ c ≠ 0x0F

/-- Valid text of such characters. -/
def PlainText (s : Bytes) : Prop := ∃ cs : List Nat, Plain cs ∧ s = cs.flatMap utf8

/-- The characters that are displayed. -/
def visible (cs : List Nat) : List Nat := cs.filter fun c => !isSpecialKey c

theorem visible_append (cs cs' : List Nat) : visible (cs ++ cs') = visible cs ++ visible cs' :=
  List.filter_append _ _

theorem visible_take (cs : List Nat) (n : Nat) :
    visible ((visible cs).take n) = (visible cs).take n :=
  List.filter_eq_self.mpr fun _ hc => (List.mem_filter.mp (List.mem_of_mem_take hc)).2

theorem visible_drop (cs : List Nat) (n : Nat) :
    visible ((visible cs).drop n) = (visible cs).drop n :=
  List.filter_eq_self.mpr fun _ hc => (List.mem_filter.mp (List.mem_of_mem_drop hc)).2

variable {cs : List Nat}

theorem Plain.scalar (h : Plain cs) : ∀ c ∈ cs, IsScalar c :=
  fun c hc => (h c hc).1

variable {cs' : List Nat}

theorem Plain.append (h : Plain cs) (h' : Plain cs') : Plain (cs ++ cs') :=
  fun c hc => (List.mem_append.mp hc).elim (h c) (h' c)

theorem Plain.visible (h : Plain cs) : Plain (visible cs) :=
  fun c hc => h c (List.mem_of_mem_filter hc)

/-- **SPECIAL KEYS ARE TAKEN OUT CHARACTER BY CHARACTER** of a plain text. -/
theorem deleteSpecialKeys_flatMap (hcs : Plain cs) :
    deleteSpecialKeys (cs.flatMap utf8) = (visible cs).flatMap utf8 := by
  have hopen : kSpecialKeyOpen ∉ cs.flatMap utf8 := by
    intro hmem
    obtain ⟨c, hc, hbyte⟩ := List.mem_flatMap.mp hmem
    obtain ⟨-, hzero, hne⟩ := hcs c hc
    rw [utf8, if_neg hzero] at hbyte
    exact hne (eq_of_mem_codepointToUtf8 (by decide) hbyte)
  have hblocks : deleteBlocksLoop (cs.flatMap utf8).length (cs.flatMap utf8) = cs.flatMap utf8 := by
    have hfind : findBlock (cs.flatMap utf8) kSpecialKeyOpen kSpecialKeyClose = none := by
      rw [findBlock, List.findIdx?_eq_none_iff.mpr]
      exact fun b hb => decide_eq_false fun heq => hopen (heq ▸ hb)
    cases hlen : (cs.flatMap utf8).length with
    | zero => exact (List.eq_nil_of_length_eq_zero hlen).symm
    | succ n =>
      rw [deleteBlocksLoop, hfind]
      split
      · rename_i hempty
        exact (List.isEmpty_iff.mp hempty).symm
      · rfl
  simp only [deleteSpecialKeys, hblocks]
  rw [chars32_flatMap_utf8 fun c hc => (hcs c hc).1.lt]
  split
  · refine List.flatMap_congr fun c hc => ?_
    rw [utf8, if_neg (hcs c (List.mem_of_mem_filter hc)).2.1]
  · rename_i hnone
    rw [visible, List.filter_eq_self.mpr fun c hc => ?_]
    by_contra hkey
    exact hnone (List.any_eq_true.mpr ⟨c, hc, by simpa using hkey⟩)

theorem length_flatMap_le (h : cs.Sublist cs') :
    (cs.flatMap utf8).length ≤ (cs'.flatMap utf8).length :=
  (h.flatMap utf8).length_le

theorem flatMap_utf8_inj (hcs : ∀ c ∈ cs, IsScalar c) (hcs' : ∀ c ∈ cs', IsScalar c)
    (h : cs.flatMap utf8 = cs'.flatMap utf8) : cs = cs' := by
  rw [← chars32_flatMap_utf8 fun c hc => (hcs c hc).lt, h,
    chars32_flatMap_utf8 fun c hc => (hcs' c hc).lt]

/-! ## Cutting a text -/

theorem length_le_length_flatMap (cs : List Nat) : cs.length ≤ (cs.flatMap utf8).length := by
  induction cs with
  | nil => exact Nat.le_refl 0
  | cons c cs ih =>
    have hpos := List.length_pos_iff.mpr (utf8_ne_nil c)
    rw [List.flatMap_cons, List.length_append, List.length_cons]
    omega

theorem utf8SubString_flatMap (hcs : ∀ c ∈ cs, IsScalar c) (n : Nat) :
    utf8SubString (cs.flatMap utf8) n = some ((cs.drop n).flatMap utf8) := by
  have hdrop : ∀ c ∈ cs.drop n, IsScalar c := fun c hc => hcs c (List.mem_of_mem_drop hc)
  rw [utf8SubString, utf8Drop_flatMap n hcs, Option.bind_some, utf8Take_flatMap _ hdrop,
    List.take_of_length_le (length_le_length_flatMap _)]

/-! ## The seam between the conversion and the pending text -/

/-- A chunk displays an ambiguous result in the place of its pending text. -/
def CharChunk.showsAmbiguous (chunk : CharChunk) : Bool :=
  chunk.displayAmbiguousAsResult && !chunk.ambiguous.isEmpty

/-- What a chunk displays behind its conversion. -/
def CharChunk.shownTail (chunk : CharChunk) : Bytes :=
  if chunk.showsAmbiguous then chunk.ambiguous else chunk.pending

theorem getDisplayConverted_eq (chunk : CharChunk) :
    chunk.getDisplayConverted = chunk.conversion ++ chunk.shownTail := by
  rw [CharChunk.getDisplayConverted, CharChunk.shownTail, CharChunk.showsAmbiguous]
  split
  · rfl
  · rfl

/-- Within the conversion a chunk can be cut where its pending text has no special key; behind
    it, where the conversion has none and no ambiguous result is displayed. -/
def CharChunk.SeamAt (chunk : CharChunk) (position : Nat) : Prop :=
  if position ≤ charsLen (deleteSpecialKeys chunk.conversion) then
    deleteSpecialKeys chunk.pending = chunk.pending
  else deleteSpecialKeys chunk.conversion = chunk.conversion ∧ chunk.showsAmbiguous = false

variable {chunk : CharChunk} {cc pp tt : List Nat} {parts : SplitStrings} {n : Nat}

/-- The texts of a chunk as characters. -/
structure CharChunk.Spells (chunk : CharChunk) (cc pp tt : List Nat) : Prop where
  conversion : chunk.conversion = cc.flatMap utf8
  pending : chunk.pending = pp.flatMap utf8
  shownTail : chunk.shownTail = tt.flatMap utf8
  plain_conversion : Plain cc
  plain_pending : Plain pp
  plain_tail : Plain tt

theorem CharChunk.Spells.displayed (h : chunk.Spells cc pp tt) :
    deleteSpecialKeys chunk.getDisplayConverted = (visible cc ++ visible tt).flatMap utf8 := by
  rw [getDisplayConverted_eq, h.conversion, h.shownTail, ← List.flatMap_append,
    deleteSpecialKeys_flatMap (h.plain_conversion.append h.plain_tail), visible_append]

theorem CharChunk.Spells.split (h : chunk.Spells cc pp tt) :
    deleteSpecialKeys (chunk.conversion ++ chunk.pending)
      = (visible cc ++ visible pp).flatMap utf8 := by
  rw [h.conversion, h.pending, ← List.flatMap_append,
    deleteSpecialKeys_flatMap (h.plain_conversion.append h.plain_pending), visible_append]

theorem visible_eq_of_delete (hcs : Plain cs)
    (h : deleteSpecialKeys (cs.flatMap utf8) = cs.flatMap utf8) : visible cs = cs := by
  rw [deleteSpecialKeys_flatMap hcs] at h
  exact flatMap_utf8_inj hcs.visible.scalar hcs.scalar h

theorem delete_visible_take (hcs : Plain cs) (n : Nat) :
    deleteSpecialKeys (((visible cs).take n).flatMap utf8)
      = ((visible cs).take n).flatMap utf8 := by
  rw [deleteSpecialKeys_flatMap fun c hc => hcs.visible c (List.mem_of_mem_take hc), visible_take]

theorem delete_visible_drop (hcs : Plain cs) (n : Nat) :
    deleteSpecialKeys (((visible cs).drop n).flatMap utf8)
      = ((visible cs).drop n).flatMap utf8 := by
  rw [deleteSpecialKeys_flatMap fun c hc => hcs.visible c (List.mem_of_mem_drop hc), visible_drop]

/-- A left part that ends within the conversion, and a right one that ends with the pending
    text. -/
theorem splitAt_inside (hle : ¬ chunk.conversion.length < parts.convertedLhs.length)
    {text : Bytes} (hrhs : parts.convertedRhs = text ++ chunk.pending) :
    (chunk.splitAt parts).1.getDisplayConverted = parts.convertedLhs ∧
      (chunk.splitAt parts).2.getDisplayConverted = text ++ chunk.shownTail := by
  have hlen := congrArg List.length hrhs
  rw [List.length_append] at hlen
  rw [CharChunk.splitAt, if_neg hle]
  dsimp only
  rw [if_neg (by omega), hlen, Nat.add_sub_cancel, hrhs, List.take_left]
  refine ⟨?_, getDisplayConverted_eq _⟩
  rw [getDisplayConverted_eq]
  exact List.append_nil _

/-- A left part that starts with the conversion and goes on behind it. -/
theorem splitAt_behind (hlt : chunk.conversion.length < parts.convertedLhs.length)
    (hstarts : chunk.conversion <+: parts.convertedLhs) :
    (chunk.splitAt parts).1.getDisplayConverted = parts.convertedLhs ∧
      (chunk.splitAt parts).2.getDisplayConverted = parts.convertedRhs := by
  obtain ⟨more, hmore⟩ := hstarts
  rw [CharChunk.splitAt, if_pos hlt]
  dsimp only
  rw [getDisplayConverted_eq, getDisplayConverted_eq]
  constructor
  · show chunk.conversion ++ parts.convertedLhs.drop chunk.conversion.length = _
    rw [← hmore, List.drop_left]
  · rw [CharChunk.shownTail, CharChunk.showsAmbiguous]
    simp only [List.isEmpty_nil, Bool.not_true, Bool.and_false, Bool.false_eq_true, if_false,
      List.nil_append]

section

variable (hlhs : parts.convertedLhs = ((visible cc ++ visible pp).take n).flatMap utf8)
  (hrhs : parts.convertedRhs = ((visible cc ++ visible pp).drop n).flatMap utf8)

include hlhs hrhs

/-- The cut within the conversion: the pending text stays behind the rest of it. -/
theorem splitAt_conversion (h : chunk.Spells cc pp tt) (hpending : visible pp = pp)
    (hn : n ≤ (visible cc).length) :
    deleteSpecialKeys (chunk.splitAt parts).1.getDisplayConverted
        = ((visible cc ++ visible tt).take n).flatMap utf8 ∧
      deleteSpecialKeys (chunk.splitAt parts).2.getDisplayConverted
        = ((visible cc ++ visible tt).drop n).flatMap utf8 := by
  have hplain := h.plain_conversion.visible
  rw [List.take_append_of_le_length hn] at hlhs ⊢
  rw [List.drop_append_of_le_length hn, hpending, List.flatMap_append, ← h.pending] at hrhs
  rw [List.drop_append_of_le_length hn]
  have hle : ¬ chunk.conversion.length < parts.convertedLhs.length := by
    rw [hlhs, h.conversion, Nat.not_lt]
    exact length_flatMap_le ((List.take_sublist _ _).trans List.filter_sublist)
  obtain ⟨hleft, hright⟩ := splitAt_inside hle hrhs
  constructor
  · rw [hleft, hlhs, delete_visible_take h.plain_conversion]
  · rw [hright, h.shownTail, ← List.flatMap_append, deleteSpecialKeys_flatMap, visible_append,
      visible_drop]
    exact Plain.append (fun c hc => hplain c (List.mem_of_mem_drop hc)) h.plain_tail

theorem splitAt_pending (h : chunk.Spells cc pp pp) (hconversion : visible cc = cc)
    (hn : (visible cc).length < n) :
    deleteSpecialKeys (chunk.splitAt parts).1.getDisplayConverted
        = ((visible cc ++ visible pp).take n).flatMap utf8 ∧
      deleteSpecialKeys (chunk.splitAt parts).2.getDisplayConverted
        = ((visible cc ++ visible pp).drop n).flatMap utf8 := by
  have hplain : Plain (cc ++ pp) := h.plain_conversion.append h.plain_pending
  rw [hconversion] at hn
  have hfront : ((visible cc ++ visible pp).take n).flatMap utf8
      = chunk.conversion ++ ((visible pp).take (n - cc.length)).flatMap utf8 := by
    rw [hconversion, List.take_append, List.take_of_length_le (Nat.le_of_lt hn),
      List.flatMap_append, h.conversion]
  have hkeys : deleteSpecialKeys parts.convertedLhs = parts.convertedLhs := by
    rw [hlhs, ← visible_append, delete_visible_take hplain]
  by_cases hlt : chunk.conversion.length < parts.convertedLhs.length
  · obtain ⟨hleft, hright⟩ := splitAt_behind hlt ⟨_, (hlhs.trans hfront).symm⟩
    constructor
    · rw [hleft, hkeys, hlhs]
    · rw [hright, hrhs, ← visible_append, delete_visible_drop hplain]
  · -- Then nothing that is displayed is pending.
    have hnil : visible pp = [] := by
      have hlen := length_le_length_flatMap ((visible pp).take (n - cc.length))
      rw [hlhs, hfront, List.length_append] at hlt
      rw [List.length_take] at hlen
      exact List.eq_nil_of_length_eq_zero (by omega)
    have hback : ((visible cc ++ visible pp).drop n).flatMap utf8 = [] := by
      rw [hnil, List.append_nil, hconversion, List.drop_eq_nil_of_le (Nat.le_of_lt hn)]
      rfl
    rw [CharChunk.splitAt, if_neg hlt, getDisplayConverted_eq, getDisplayConverted_eq]
    constructor
    · show deleteSpecialKeys (parts.convertedLhs ++ []) = _
      rw [List.append_nil, hkeys, hlhs]
    · show deleteSpecialKeys (parts.convertedRhs.take _ ++ chunk.shownTail) = _
      rw [hrhs, hback, List.take_nil, List.nil_append, h.shownTail,
        deleteSpecialKeys_flatMap h.plain_tail, hnil]
      rfl

/-- **AT ITS SEAMS A CHUNK IS CUT** into the texts in front of the position and behind it. -/
theorem splitAt_texts (h : chunk.Spells cc pp tt) (hseam : chunk.SeamAt n) :
    deleteSpecialKeys (chunk.splitAt parts).1.getDisplayConverted
        = ((visible cc ++ visible tt).take n).flatMap utf8 ∧
      deleteSpecialKeys (chunk.splitAt parts).2.getDisplayConverted
        = ((visible cc ++ visible tt).drop n).flatMap utf8 := by
  rw [CharChunk.SeamAt, h.conversion, deleteSpecialKeys_flatMap h.plain_conversion,
    MozkeyStrings.charsLen_flatMap h.plain_conversion.visible.scalar] at hseam
  split at hseam
  · rename_i hle
    rw [h.pending] at hseam
    exact splitAt_conversion hlhs hrhs h (visible_eq_of_delete h.plain_pending hseam) hle
  · rename_i hgt
    obtain ⟨hconversion, hshown⟩ := hseam
    have htail := h.shownTail
    rw [CharChunk.shownTail, hshown, if_neg Bool.false_ne_true, h.pending] at htail
    obtain rfl := flatMap_utf8_inj h.plain_pending.scalar h.plain_tail.scalar htail
    exact splitAt_pending hlhs hrhs h
      (flatMap_utf8_inj h.plain_conversion.visible.scalar h.plain_conversion.scalar hconversion)
      (Nat.lt_of_not_le hgt)

end

/-! ## What the parts show -/

/-- What a transliterator shows of a text that is both the raw and the converted one. -/
def JapaneseUtil.shows (j : JapaneseUtil) (transliterator : Transliterator) (text : Bytes) :
    Bytes :=
  j.transliterate transliterator text text

/-- The first characters of a text are shown as the first characters of what the text is shown
    as, and the rest as the rest. -/
def CutsThrough (shows : Bytes → Bytes) (text : Bytes) (position : Nat) : Prop :=
  ∃ front back, utf8Take position text = some front ∧ utf8SubString text position = some back ∧
    utf8Take position (shows text) = some (shows front) ∧
      utf8SubString (shows text) position = some (shows back)

/-- The two parts of the half-width text, turned back to hiragana, show the same again; counted
    in bytes, the left one ends within the conversion and the right one with the pending text,
    or the left one starts with the conversion. -/
def CharChunk.CutsHalfKatakana (j : JapaneseUtil) (chunk : CharChunk) (position : Nat) : Prop :=
  let text := deleteSpecialKeys (chunk.conversion ++ chunk.pending)
  let shown := j.shows .halfKatakana (deleteSpecialKeys chunk.getDisplayConverted)
  ∃ front back, utf8Take position (j.shows .halfKatakana text) = some front ∧
    utf8SubString (j.shows .halfKatakana text) position = some back ∧
    deleteSpecialKeys (j.halfKatakanaToHiragana front) = j.halfKatakanaToHiragana front ∧
    utf8Take position shown = some (j.shows .halfKatakana (j.halfKatakanaToHiragana front)) ∧
    if (j.halfKatakanaToHiragana front).length ≤ chunk.conversion.length then
      ∃ conversion, j.halfKatakanaToHiragana back = conversion ++ chunk.pending ∧
        utf8SubString shown position
          = some (j.shows .halfKatakana (deleteSpecialKeys (conversion ++ chunk.shownTail)))
    else
      chunk.conversion <+: j.halfKatakanaToHiragana front ∧
        deleteSpecialKeys (j.halfKatakanaToHiragana back) = j.halfKatakanaToHiragana back ∧
        utf8SubString shown position
          = some (j.shows .halfKatakana (j.halfKatakanaToHiragana back))

/-- Where a chunk can be cut: it is shown by its own transliterator, and according to that the
    raw text is cut, or the converted text at a seam of it, where the text is shown character by
    character. -/
def CharChunk.CutsAt (j : JapaneseUtil) (chunk : CharChunk) (position : Nat) : Prop :=
  chunk.getTransliterator .localT12r = chunk.transliterator ∧
    match chunk.transliterator with
    | .rawString => PlainText chunk.raw
    | .fullAscii | .halfAscii =>
      PlainText chunk.raw ∧ position < charsLen (deleteSpecialKeys chunk.raw) ∧
        CutsThrough (j.shows chunk.transliterator) (deleteSpecialKeys chunk.raw) position
    | .halfKatakana => chunk.CutsHalfKatakana j position
    | .conversionString | .hiragana | .fullKatakana | .localT12r =>
      PlainText chunk.conversion ∧ PlainText chunk.pending ∧ PlainText chunk.shownTail ∧
        chunk.SeamAt position ∧
        CutsThrough (j.shows chunk.transliterator)
          (deleteSpecialKeys chunk.getDisplayConverted) position

/-- `SplitChunk` succeeds, and the two chunks show the first characters of what was shown and the
    rest. -/
def CharChunk.SplitsShown (j : JapaneseUtil) (chunk : CharChunk) (position : Nat) : Prop :=
  ∃ left right, chunk.splitChunk j .localT12r position = some (some left, right) ∧
    utf8Take position (chunk.result j .localT12r) = some (left.result j .localT12r) ∧
    utf8SubString (chunk.result j .localT12r) position = some (right.result j .localT12r)

variable {j : JapaneseUtil}

/-- The left part has no attributes, and so is shown by the transliterator of the chunk. -/
theorem splitAt_left (chunk : CharChunk) (parts : SplitStrings) :
    (chunk.splitAt parts).1.raw = parts.rawLhs ∧
      (chunk.splitAt parts).1.getTransliterator .localT12r = chunk.transliterator := by
  have hnew : (chunk.splitAt parts).1.attributes = noTableAttribute ∧
      (chunk.splitAt parts).1.transliterator = chunk.transliterator ∧
      (chunk.splitAt parts).1.raw = parts.rawLhs := by
    rw [CharChunk.splitAt]
    split
    · exact ⟨rfl, rfl, rfl⟩
    · exact ⟨rfl, rfl, rfl⟩
  obtain ⟨hattributes, hsame, hraw⟩ := hnew
  refine ⟨hraw, ?_⟩
  rw [CharChunk.getTransliterator, hattributes, not_hasAttribute_zero, if_neg Bool.false_ne_true,
    if_pos rfl, hsame]

theorem splitAt_right (chunk : CharChunk) (parts : SplitStrings) :
    (chunk.splitAt parts).2.raw = parts.rawRhs ∧
      (chunk.splitAt parts).2.getTransliterator .localT12r
        = chunk.getTransliterator .localT12r := by
  rw [CharChunk.splitAt]
  split
  · exact ⟨rfl, rfl⟩
  · exact ⟨rfl, rfl⟩

variable {position : Nat}

theorem splitsShown_of_parts (hpos : 0 < position) (hlen : position < chunk.getLength j .localT12r)
    (hown : chunk.getTransliterator .localT12r = chunk.transliterator)
    (hsplit : j.split chunk.transliterator position (deleteSpecialKeys chunk.raw)
      (deleteSpecialKeys (chunk.conversion ++ chunk.pending)) = some parts)
    (hleft : utf8Take position (chunk.result j .localT12r)
      = some (j.transliterate chunk.transliterator (deleteSpecialKeys parts.rawLhs)
        (deleteSpecialKeys (chunk.splitAt parts).1.getDisplayConverted)))
    (hright : utf8SubString (chunk.result j .localT12r) position
      = some (j.transliterate chunk.transliterator (deleteSpecialKeys parts.rawRhs)
        (deleteSpecialKeys (chunk.splitAt parts).2.getDisplayConverted))) :
    chunk.SplitsShown j position := by
  obtain ⟨hrawLeft, hleftShown⟩ := splitAt_left chunk parts
  obtain ⟨hrawRight, hrightShown⟩ := splitAt_right chunk parts
  refine ⟨(chunk.splitAt parts).1, (chunk.splitAt parts).2, ?_, ?_, ?_⟩
  · rw [CharChunk.splitChunk, if_neg (by omega), hown, hsplit]
    rfl
  · rw [hleft, CharChunk.result, hleftShown, hrawLeft]
  · rw [hright, CharChunk.result, hrightShown, hown, hrawRight]

theorem splitsShown_converted (hpos : 0 < position) (hlen : position < chunk.getLength j .localT12r)
    (hown : chunk.getTransliterator .localT12r = chunk.transliterator)
    (hshows : ∀ raw text, j.transliterate chunk.transliterator raw text
      = j.shows chunk.transliterator text)
    (hsplits : ∀ raw text, j.split chunk.transliterator position raw text
      = (splitConverted position raw text).map Prod.fst) (hconversion : PlainText chunk.conversion)
    (hpending : PlainText chunk.pending) (htail : PlainText chunk.shownTail)
    (hseam : chunk.SeamAt position) (hcuts : CutsThrough (j.shows chunk.transliterator)
      (deleteSpecialKeys chunk.getDisplayConverted) position) :
    chunk.SplitsShown j position := by
  obtain ⟨cc, hcc, hconversion⟩ := hconversion
  obtain ⟨pp, hpp, hpending⟩ := hpending
  obtain ⟨tt, htt, htail⟩ := htail
  have hspells : chunk.Spells cc pp tt := ⟨hconversion, hpending, htail, hcc, hpp, htt⟩
  have hplain : Plain (visible cc ++ visible pp) := hcc.visible.append hpp.visible
  have hshown : Plain (visible cc ++ visible tt) := hcc.visible.append htt.visible
  obtain ⟨parts, hparts, hlhs, hrhs⟩ : ∃ parts,
      j.split chunk.transliterator position (deleteSpecialKeys chunk.raw)
        (deleteSpecialKeys (chunk.conversion ++ chunk.pending)) = some parts ∧
      parts.convertedLhs = ((visible cc ++ visible pp).take position).flatMap utf8 ∧
      parts.convertedRhs = ((visible cc ++ visible pp).drop position).flatMap utf8 := by
    rw [hsplits, hspells.split, splitConverted, splitPrimaryString,
      utf8Take_flatMap _ hplain.scalar, utf8SubString_flatMap hplain.scalar]
    dsimp only
    split
    · exact ⟨_, rfl, rfl, rfl⟩
    · exact ⟨_, rfl, rfl, rfl⟩
  obtain ⟨hleft, hright⟩ := splitAt_texts hlhs hrhs hspells hseam
  obtain ⟨front, back, hfront, hback, htake, hdrop⟩ := hcuts
  rw [hspells.displayed] at hfront hback htake hdrop
  rw [utf8Take_flatMap _ hshown.scalar] at hfront
  rw [utf8SubString_flatMap hshown.scalar] at hback
  have hresult : chunk.result j .localT12r
      = j.shows chunk.transliterator ((visible cc ++ visible tt).flatMap utf8) := by
    rw [CharChunk.result, hown, hshows, hspells.displayed]
  refine splitsShown_of_parts hpos hlen hown hparts ?_ ?_
  · rw [hresult, htake, hshows, hleft, Option.some.inj hfront]
  · rw [hresult, hdrop, hshows, hright, Option.some.inj hback]

theorem splitsShown_raw (hpos : 0 < position) (hlen : position < chunk.getLength j .localT12r)
    (hown : chunk.getTransliterator .localT12r = chunk.transliterator)
    (hsplits : ∀ raw text, j.split chunk.transliterator position raw text
      = (splitRaw position raw text).map Prod.fst) (hraw : PlainText chunk.raw)
    (hshows : ∀ raw text, chunk.transliterator = .rawString ∨ raw ≠ [] →
      j.transliterate chunk.transliterator raw text = j.shows chunk.transliterator raw)
    (hmore : chunk.transliterator = .rawString ∨
      position < charsLen (deleteSpecialKeys chunk.raw))
    (hcuts : CutsThrough (j.shows chunk.transliterator) (deleteSpecialKeys chunk.raw) position) :
    chunk.SplitsShown j position := by
  obtain ⟨rr, hrr, hraw⟩ := hraw
  have hdeleted : deleteSpecialKeys chunk.raw = (visible rr).flatMap utf8 := by
    rw [hraw, deleteSpecialKeys_flatMap hrr]
  have hscalar := hrr.visible.scalar
  rw [hdeleted, MozkeyStrings.charsLen_flatMap hscalar] at hmore
  have hne {cs : List Nat} (hcs : cs ≠ []) : cs.flatMap utf8 ≠ [] := by
    have hlen := length_le_length_flatMap cs
    have := List.length_pos_iff.mpr hcs
    exact List.ne_nil_of_length_pos (by omega)
  have hfrontNe : chunk.transliterator = .rawString ∨
      ((visible rr).take position).flatMap utf8 ≠ [] :=
    hmore.imp_right fun hmore => hne (List.ne_nil_of_length_pos (by
      rw [List.length_take]; omega))
  have hbackNe : chunk.transliterator = .rawString ∨
      ((visible rr).drop position).flatMap utf8 ≠ [] :=
    hmore.imp_right fun hmore => hne (List.ne_nil_of_length_pos (by
      rw [List.length_drop]; omega))
  have hallNe : chunk.transliterator = .rawString ∨ (visible rr).flatMap utf8 ≠ [] :=
    hmore.imp_right fun hmore => hne (List.ne_nil_of_length_pos (by omega))
  obtain ⟨parts, hparts, hlhs, hrhs⟩ : ∃ parts,
      j.split chunk.transliterator position (deleteSpecialKeys chunk.raw)
        (deleteSpecialKeys (chunk.conversion ++ chunk.pending)) = some parts ∧
      parts.rawLhs = ((visible rr).take position).flatMap utf8 ∧
      parts.rawRhs = ((visible rr).drop position).flatMap utf8 := by
    rw [hsplits, hdeleted, splitRaw, splitPrimaryString, utf8Take_flatMap _ hscalar,
      utf8SubString_flatMap hscalar]
    dsimp only
    split
    · exact ⟨_, rfl, rfl, rfl⟩
    · exact ⟨_, rfl, rfl, rfl⟩
  obtain ⟨front, back, hfront, hback, htake, hdrop⟩ := hcuts
  rw [hdeleted] at hfront hback htake hdrop
  rw [utf8Take_flatMap _ hscalar] at hfront
  rw [utf8SubString_flatMap hscalar] at hback
  have hresult : chunk.result j .localT12r
      = j.shows chunk.transliterator ((visible rr).flatMap utf8) := by
    rw [CharChunk.result, hown, hdeleted, hshows _ _ hallNe]
  refine splitsShown_of_parts hpos hlen hown hparts ?_ ?_
  · rw [hresult, htake, hlhs, delete_visible_take hrr, hshows _ _ hfrontNe,
      Option.some.inj hfront]
  · rw [hresult, hdrop, hrhs, delete_visible_drop hrr, hshows _ _ hbackNe, Option.some.inj hback]

theorem splitsShown_halfKatakana (hpos : 0 < position)
    (hlen : position < chunk.getLength j .localT12r)
    (hown : chunk.getTransliterator .localT12r = chunk.transliterator)
    (hhalf : chunk.transliterator = .halfKatakana) (hcuts : chunk.CutsHalfKatakana j position) :
    chunk.SplitsShown j position := by
  obtain ⟨front, back, hfront, hback, hkeys, htake, hdrop⟩ := hcuts
  have hresult : chunk.result j .localT12r
      = j.shows .halfKatakana (deleteSpecialKeys chunk.getDisplayConverted) := by
    rw [CharChunk.result, hown, hhalf]
    rfl
  obtain ⟨parts, hparts, hlhs, hrhs⟩ : ∃ parts,
      j.split chunk.transliterator position (deleteSpecialKeys chunk.raw)
        (deleteSpecialKeys (chunk.conversion ++ chunk.pending)) = some parts ∧
      parts.convertedLhs = j.halfKatakanaToHiragana front ∧
      parts.convertedRhs = j.halfKatakanaToHiragana back := by
    rw [hhalf]
    rw [JapaneseUtil.shows] at hfront hback
    have hsame (raw text : Bytes) : j.transliterate .halfKatakana raw text
        = j.transliterate .halfKatakana text text := rfl
    rw [JapaneseUtil.split, JapaneseUtil.splitHalfKatakana, splitConverted, splitPrimaryString,
      hsame, hfront, hback]
    dsimp only
    split
    · exact ⟨_, rfl, rfl, rfl⟩
    · exact ⟨_, rfl, rfl, rfl⟩
  obtain ⟨hleft, hright⟩ : deleteSpecialKeys (chunk.splitAt parts).1.getDisplayConverted
        = j.halfKatakanaToHiragana front ∧
      utf8SubString (chunk.result j .localT12r) position = some (j.shows .halfKatakana
        (deleteSpecialKeys (chunk.splitAt parts).2.getDisplayConverted)) := by
    split at hdrop
    · rename_i hle
      obtain ⟨conversion, hend, hrest⟩ := hdrop
      obtain ⟨hleft, hright⟩ := splitAt_inside (by rw [hlhs]; omega) (hrhs.trans hend)
      exact ⟨by rw [hleft, hlhs, hkeys], by rw [hresult, hrest, hright]⟩
    · rename_i hgt
      obtain ⟨hstarts, hkeys', hrest⟩ := hdrop
      have hlt : chunk.conversion.length < parts.convertedLhs.length := by
        rw [hlhs]
        omega
      obtain ⟨hleft, hright⟩ := splitAt_behind hlt (by rw [hlhs]; exact hstarts)
      exact ⟨by rw [hleft, hlhs, hkeys], by rw [hresult, hrest, hright, hrhs, hkeys']⟩
  refine splitsShown_of_parts hpos hlen hown hparts ?_ ?_
  · rw [hresult, htake, hhalf, hleft]
    rfl
  · rw [hright, hhalf]
    rfl

/-- **CUT WHERE IT CAN BE**, a chunk shows in two what it showed. -/
theorem splitChunk_shows (hpos : 0 < position) (hlen : position < chunk.getLength j .localT12r)
    (hcuts : chunk.CutsAt j position) :
    chunk.SplitsShown j position := by
  obtain ⟨hown, hcuts⟩ := hcuts
  split at hcuts
  · rename_i heq
    have hthrough : CutsThrough (j.shows chunk.transliterator) (deleteSpecialKeys chunk.raw)
        position := by
      obtain ⟨rr, hrr, hraw⟩ := hcuts
      rw [heq, hraw, deleteSpecialKeys_flatMap hrr]
      have hscalar := hrr.visible.scalar
      exact ⟨_, _, utf8Take_flatMap _ hscalar, utf8SubString_flatMap hscalar _,
        utf8Take_flatMap _ hscalar, utf8SubString_flatMap hscalar _⟩
    exact splitsShown_raw hpos hlen hown (by rw [heq]; exact fun _ _ => rfl) hcuts
      (by rw [heq]; exact fun _ _ _ => rfl) (.inl heq) hthrough
  case h_2 | h_3 =>
    rename_i heq
    obtain ⟨hraw, hmore, hthrough⟩ := hcuts
    refine splitsShown_raw hpos hlen hown (by rw [heq]; exact fun _ _ => rfl) hraw ?_ (.inr hmore)
      hthrough
    rw [heq]
    rintro raw text (hnot | hne)
    · exact nomatch hnot
    · rw [JapaneseUtil.shows, JapaneseUtil.transliterate, JapaneseUtil.transliterate,
        List.isEmpty_eq_false_iff.mpr hne]
      rfl
  · rename_i heq
    exact splitsShown_halfKatakana hpos hlen hown heq hcuts
  all_goals
    rename_i heq
    obtain ⟨hconversion, hpending, htail, hseam, hthrough⟩ := hcuts
    exact splitsShown_converted hpos hlen hown (by rw [heq]; exact fun _ _ => rfl)
      (by rw [heq]; exact fun _ _ => rfl) hconversion hpending htail hseam hthrough

end MozkeyComposer
