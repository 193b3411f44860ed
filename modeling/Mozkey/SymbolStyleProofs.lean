import Mozkey.ZenzValidatorProofs

/-! # RestoreUserVisibleSymbolStyle — symbols as the user wrote them

    A model may answer with another width of a symbol than the user typed.  Thirteen
    passes, one for each group of symbol variants, put back the variants of the key or of
    the converter's value.  A pass counts the variants on both sides, goes by position
    first and then by what is missing and what is in excess. -/

namespace MozkeyZenz

open ByteString

/-! ## The passes -/

/-- `Utf8CharForSymbolRestore`. -/
structure Utf8Char where
  cp : Nat
  bytes : Bytes
  deriving DecidableEq

/-- The loop of `SplitUtf8ForSymbolRestore`; a code point takes a byte at least. -/
def splitUtf8Loop : Nat → Bytes → Option (List Utf8Char)
  | 0, text => if text.isEmpty then some [] else none
  | fuel + 1, text =>
    if text.isEmpty then some []
    else
      match decodeOneUtf8 text with
      | none => none
      | some (cp, rest) =>
        (splitUtf8Loop fuel rest).map (⟨cp, text.take (text.length - rest.length)⟩ :: ·)

/-- The code points of a text, `none` where the text cannot be decoded. -/
def splitUtf8 (text : Bytes) : Option (List Utf8Char) := splitUtf8Loop text.length text

/-- `SplitUtf8ForSymbolRestore`. -/
def splitUtf8ForSymbolRestore (text : Bytes) : List Utf8Char := (splitUtf8 text).getD []

/-- `FindSymbolStyleVariantIndex`. -/
def findSymbolStyleVariantIndex (cp : Nat) (variants : List Nat) : Option Nat :=
  variants.findIdx? (· == cp)

/-- `IsAsciiTokenCharForSymbolRestore`. -/
def isAsciiTokenChar (cp : Nat) : Bool :=
  decide (cp ≤ 0x7F) &&
    (decide (0x30 ≤ cp ∧ cp ≤ 0x39) || decide (0x41 ≤ cp ∧ cp ≤ 0x5A) ||
      decide (0x61 ≤ cp ∧ cp ≤ 0x7A) || cp == 0x5F || cp == 0x2D || cp == 0x2E || cp == 0x2B ||
      cp == 0x23 || cp == 0x2F || cp == 0x5C)

/-- `HasAsciiTokenNeighborForSymbolRestore`. -/
def hasAsciiTokenNeighbor (chars : List Utf8Char) (index : Nat) : Bool :=
  (decide (index > 0) && (chars[index - 1]?).any (fun ch => isAsciiTokenChar ch.cp)) ||
    (chars[index + 1]?).any (fun ch => isAsciiTokenChar ch.cp)

/-- `FirstSymbolVariantBytes`. -/
def firstSymbolVariantBytes (chars : List Utf8Char) (target : Nat) : Bytes :=
  match chars.find? (fun ch => ch.cp == target) with
  | some ch => ch.bytes
  | none => []

/-- The loop of `ContainsAnySymbolStyleVariant`. -/
def containsVariantLoop (variants : List Nat) : Nat → Bytes → Bool
  | 0, _ => false
  | fuel + 1, text =>
    match decodeOneUtf8 text with
    | none => false
    | some (cp, rest) =>
      if (findSymbolStyleVariantIndex cp variants).isSome then true
      else containsVariantLoop variants fuel rest

/-- `ContainsAnySymbolStyleVariant`. -/
def containsAnySymbolStyleVariant (text : Bytes) (variants : List Nat) : Bool :=
  containsVariantLoop variants text.length text

/-- A group of symbols that differ in width or style only. -/
structure SymbolStyleGroup where
  variants : List Nat
  avoidAsciiTokenFallbackWhenWidening : Bool
  nodup : variants.Nodup

/-- The variants counted in a text, by their index. -/
def variantCounts (variants : List Nat) (chars : List Utf8Char) : List Nat :=
  (List.range variants.length).map (fun i =>
    chars.countP (fun ch => findSymbolStyleVariantIndex ch.cp variants == some i))

/-- The target by position: the variant at the same index of the source, with its bytes. -/
def positionalTarget (variants : List Nat) (sourceChars : List Utf8Char) (missing : List Nat)
    (i current : Nat) : Option (Nat × Bytes) :=
  match sourceChars[i]? with
  | none => none
  | some ch =>
    match findSymbolStyleVariantIndex ch.cp variants with
    | none => none
    | some source =>
      if source ≠ current ∧ missing.getD source 0 > 0 then some (source, ch.bytes) else none

/-- The target by counts: the first missing variant, unless an ASCII symbol beside an ASCII
    token character would be widened. -/
def fallbackTarget (group : SymbolStyleGroup) (zenzChars : List Utf8Char) (missing : List Nat)
    (i cp : Nat) : Option Nat :=
  (List.range group.variants.length).find? (fun j =>
    decide (missing.getD j 0 > 0) &&
      !(group.avoidAsciiTokenFallbackWhenWidening &&
        decide (cp ≤ 0x7F ∧ group.variants.getD j 0 > 0x7F) && hasAsciiTokenNeighbor zenzChars i))

/-- The target of a variant of the Zenz value and the bytes to write for it. -/
def findTarget (group : SymbolStyleGroup) (sourceChars zenzChars : List Utf8Char)
    (defaults : List Bytes) (active : Nat) (missing excess : List Nat) (i cp current : Nat) :
    Option (Nat × Bytes) :=
  match positionalTarget group.variants sourceChars missing i current with
  | some target => some target
  | none =>
    if excess.getD current 0 > 0 ∧ active = 1 then
      (fallbackTarget group zenzChars missing i cp).map (fun j => (j, defaults.getD j []))
    else none

/-- The loop of `RestoreSymbolGroupStyle` that writes `restored`. -/
def restoreChars (group : SymbolStyleGroup) (sourceChars zenzChars : List Utf8Char)
    (defaults : List Bytes) (active : Nat) : List Utf8Char → Nat → List Nat → List Nat → Bytes
  | [], _, _, _ => []
  | ch :: chars, i, missing, excess =>
    match findSymbolStyleVariantIndex ch.cp group.variants with
    | none =>
      ch.bytes ++ restoreChars group sourceChars zenzChars defaults active chars (i + 1)
        missing excess
    | some current =>
      match findTarget group sourceChars zenzChars defaults active missing excess i ch.cp
        current with
      | none =>
        ch.bytes ++ restoreChars group sourceChars zenzChars defaults active chars (i + 1)
          missing excess
      | some (target, bytes) =>
        bytes ++ restoreChars group sourceChars zenzChars defaults active chars (i + 1)
          (missing.modify target (· - 1)) (excess.modify current (· - 1))

/-- `RestoreSymbolGroupStyle`. -/
def restoreSymbolGroupStyle (group : SymbolStyleGroup) (styleSource zenzValue : Bytes) : Bytes :=
  if styleSource.isEmpty || zenzValue.isEmpty || group.variants.isEmpty then zenzValue
  else
    let sourceChars := splitUtf8ForSymbolRestore styleSource
    let zenzChars := splitUtf8ForSymbolRestore zenzValue
    if sourceChars.isEmpty || zenzChars.isEmpty then zenzValue
    else
      let sourceCounts := variantCounts group.variants sourceChars
      let zenzCounts := variantCounts group.variants zenzChars
      let active := sourceCounts.countP (· > 0)
      if active = 0 then zenzValue
      else
        let missing := List.zipWith (· - ·) sourceCounts zenzCounts
        let excess := List.zipWith (· - ·) zenzCounts sourceCounts
        if missing.all (· == 0) then zenzValue
        else
          let defaults := List.zipWith (fun variant count =>
            if count > 0 then firstSymbolVariantBytes sourceChars variant else [])
            group.variants missing
          let missing := List.zipWith (fun count bytes => if bytes = [] then 0 else count)
            missing defaults
          restoreChars group sourceChars zenzChars defaults active zenzChars 0 missing excess

/-- The style source that `RestoreSymbolGroupStyleFromKeyOrMozc` takes. -/
def styleSourceOf (group : SymbolStyleGroup) (key mozcValue : Bytes) : Option Bytes :=
  if containsAnySymbolStyleVariant key group.variants then some key
  else if containsAnySymbolStyleVariant mozcValue group.variants then some mozcValue
  else none

/-- `RestoreSymbolGroupStyleFromKeyOrMozc`. -/
def restoreSymbolGroupStyleFromKeyOrMozc (key mozcValue zenzValue : Bytes)
    (group : SymbolStyleGroup) : Bytes :=
  match styleSourceOf group key mozcValue with
  | none => zenzValue
  | some styleSource => restoreSymbolGroupStyle group styleSource zenzValue

/-- The groups, in the order of the passes. -/
def symbolStyleGroups : List SymbolStyleGroup :=
  [⟨[0x7E, 0xFF5E, 0x301C], false, by decide⟩, ⟨[0x28, 0xFF08], true, by decide⟩,
    ⟨[0x29, 0xFF09], true, by decide⟩, ⟨[0x5B, 0xFF3B], true, by decide⟩,
    ⟨[0x5D, 0xFF3D], true, by decide⟩, ⟨[0x7B, 0xFF5B], true, by decide⟩,
    ⟨[0x7D, 0xFF5D], true, by decide⟩, ⟨[0x21, 0xFF01], false, by decide⟩,
    ⟨[0x3F, 0xFF1F], false, by decide⟩, ⟨[0x3A, 0xFF1A], true, by decide⟩,
    ⟨[0x3B, 0xFF1B], true, by decide⟩, ⟨[0x2C, 0xFF0C], true, by decide⟩,
    ⟨[0x2E, 0xFF0E], true, by decide⟩]

/-- `RestoreUserVisibleSymbolStyle`. -/
def restoreUserVisibleSymbolStyle (key mozcValue zenzValue : Bytes) : Bytes :=
  symbolStyleGroups.foldl (restoreSymbolGroupStyleFromKeyOrMozc key mozcValue) zenzValue

/-! ## What a restoration may do -/

/-- A code point is left, or replaced by another variant of its group that the source
    has. -/
def Replaced (group : SymbolStyleGroup) (sourceChars : List Utf8Char) (ch ch' : Utf8Char) : Prop :=
  ch' = ch ∨ ch.cp ∈ group.variants ∧ ch'.cp ∈ group.variants ∧ ch'.cp ≠ ch.cp ∧ ch' ∈ sourceChars

/-- A code point is left, or replaced within one of the groups, from the style source of
    that group. -/
def Restored (groups : List SymbolStyleGroup) (key mozcValue : Bytes) (ch ch' : Utf8Char) : Prop :=
  ch' = ch ∨ ∃ group ∈ groups, ∃ styleSource, styleSourceOf group key mozcValue = some styleSource ∧
    ch.cp ∈ group.variants ∧ ch'.cp ∈ group.variants ∧ ch'.cp ≠ ch.cp ∧
      ch' ∈ splitUtf8ForSymbolRestore styleSource

/-! ## Spelled code points -/

/-- Bytes that are decoded as one code point, whatever is behind them. -/
def Utf8Char.Spelled (ch : Utf8Char) : Prop :=
  ch.bytes ≠ [] ∧ ∀ tail, decodeOneUtf8 (ch.bytes ++ tail) = some (ch.cp, tail)

variable {text : Bytes} {cp : Nat}

theorem spelled_of_decodeOneUtf8 {rest : Bytes} (h : decodeOneUtf8 text = some (cp, rest)) :
    (Utf8Char.mk cp (text.take (text.length - rest.length))).Spelled ∧
      text.take (text.length - rest.length) ++ rest = text := by
  have hfront : ∀ pre : Bytes, (pre ++ rest).take ((pre ++ rest).length - rest.length) = pre := by
    intro pre
    rw [List.length_append, Nat.add_sub_cancel, List.take_left]
  cases decodes_of_decodeOneUtf8 h with
  | @one c0 _ h0 =>
    have hpre := hfront [c0]
    rw [List.singleton_append] at hpre
    rw [hpre]
    refine ⟨⟨List.cons_ne_nil _ _, ?_⟩, rfl⟩
    intro tail
    show decodeOneUtf8 (c0 :: tail) = _
    unfold decodeOneUtf8
    exact if_pos h0
  | @two c0 c1 _ h0 h2 t1 =>
    have hpre := hfront [c0, c1]
    rw [List.cons_append, List.singleton_append] at hpre
    rw [hpre]
    refine ⟨⟨List.cons_ne_nil _ _, ?_⟩, rfl⟩
    intro tail
    show decodeOneUtf8 (c0 :: c1 :: tail) = _
    rw [decodeOneUtf8, if_neg h0, if_pos h2]
    simp only [t1, Bool.not_true, Bool.false_eq_true, if_false]
  | @three c0 c1 c2 _ h0 h2 h3 t1 t2 =>
    have hpre := hfront [c0, c1, c2]
    rw [List.cons_append, List.cons_append, List.singleton_append] at hpre
    rw [hpre]
    refine ⟨⟨List.cons_ne_nil _ _, ?_⟩, rfl⟩
    intro tail
    show decodeOneUtf8 (c0 :: c1 :: c2 :: tail) = _
    rw [decodeOneUtf8, if_neg h0, if_neg h2, if_pos h3]
    simp only [t1, t2, Bool.not_true, Bool.or_false, Bool.false_eq_true, if_false]
  | @four c0 c1 c2 c3 _ h0 h2 h3 h4 t1 t2 t3 =>
    have hpre := hfront [c0, c1, c2, c3]
    rw [List.cons_append, List.cons_append, List.cons_append, List.singleton_append] at hpre
    rw [hpre]
    refine ⟨⟨List.cons_ne_nil _ _, ?_⟩, rfl⟩
    intro tail
    show decodeOneUtf8 (c0 :: c1 :: c2 :: c3 :: tail) = _
    rw [decodeOneUtf8, if_neg h0, if_neg h2, if_neg h3, if_pos h4]
    simp only [t1, t2, t3, Bool.not_true, Bool.or_false, Bool.false_eq_true, if_false]

theorem splitUtf8Loop_spec : ∀ {fuel : Nat} {text : Bytes} {chars : List Utf8Char},
    splitUtf8Loop fuel text = some chars →
    (∀ ch ∈ chars, ch.Spelled) ∧ chars.flatMap Utf8Char.bytes = text := by
  intro fuel
  induction fuel with
  | zero =>
    intro text chars h
    rw [splitUtf8Loop] at h
    cases text with
    | nil =>
      rw [← Option.some.inj h]
      exact ⟨fun ch hch => absurd hch List.not_mem_nil, rfl⟩
    | cons c text => exact absurd h.symm (Option.some_ne_none chars)
  | succ fuel ih =>
    intro text chars h
    rw [splitUtf8Loop] at h
    by_cases hempty : text.isEmpty = true
    · rw [if_pos hempty] at h
      rw [← Option.some.inj h, List.isEmpty_iff.mp hempty]
      exact ⟨fun ch hch => absurd hch List.not_mem_nil, rfl⟩
    · rw [if_neg hempty] at h
      cases hread : decodeOneUtf8 text with
      | none =>
        rw [hread] at h
        exact absurd h.symm (Option.some_ne_none chars)
      | some read =>
        obtain ⟨cp, rest⟩ := read
        rw [hread] at h
        obtain ⟨chars', hrest, rfl⟩ := Option.map_eq_some_iff.mp h
        obtain ⟨hspelled, htext⟩ := spelled_of_decodeOneUtf8 hread
        obtain ⟨hall, hflat⟩ := ih hrest
        refine ⟨?_, ?_⟩
        · intro ch hch
          rcases List.mem_cons.mp hch with rfl | hch
          · exact hspelled
          · exact hall ch hch
        · rw [List.flatMap_cons, hflat, htext]

variable {chars : List Utf8Char}

theorem splitUtf8_spec (h : splitUtf8 text = some chars) :
    (∀ ch ∈ chars, ch.Spelled) ∧ chars.flatMap Utf8Char.bytes = text :=
  splitUtf8Loop_spec h

theorem splitUtf8Loop_flatMap : ∀ {chars : List Utf8Char} {fuel : Nat},
    (∀ ch ∈ chars, ch.Spelled) → (chars.flatMap Utf8Char.bytes).length ≤ fuel →
    splitUtf8Loop fuel (chars.flatMap Utf8Char.bytes) = some chars := by
  intro chars
  induction chars with
  | nil =>
    intro fuel _ _
    cases fuel <;> rfl
  | cons ch chars ih =>
    intro fuel hall hfuel
    obtain ⟨hne, hread⟩ := hall ch List.mem_cons_self
    have hpos : 0 < ch.bytes.length := List.length_pos_iff.mpr hne
    rw [List.flatMap_cons] at hfuel ⊢
    rw [List.length_append] at hfuel
    obtain ⟨k, rfl⟩ : ∃ k, fuel = k + 1 := ⟨fuel - 1, by omega⟩
    have hempty : ¬ (ch.bytes ++ chars.flatMap Utf8Char.bytes).isEmpty = true := by
      rw [List.isEmpty_iff, List.append_eq_nil_iff]
      exact fun h => hne h.1
    rw [splitUtf8Loop, if_neg hempty, hread]
    dsimp only
    rw [ih (fun c hc => hall c (List.mem_cons_of_mem ch hc)) (by omega), List.length_append,
      Nat.add_sub_cancel, List.take_left]
    rfl

theorem splitUtf8_flatMap (h : ∀ ch ∈ chars, ch.Spelled) :
    splitUtf8 (chars.flatMap Utf8Char.bytes) = some chars :=
  splitUtf8Loop_flatMap h (Nat.le_refl _)

variable {ch : Utf8Char}

theorem spelled_of_mem_split (h : ch ∈ splitUtf8ForSymbolRestore text) : ch.Spelled := by
  rw [splitUtf8ForSymbolRestore] at h
  cases hsplit : splitUtf8 text with
  | none =>
    rw [hsplit] at h
    exact absurd h List.not_mem_nil
  | some chars =>
    rw [hsplit] at h
    exact (splitUtf8_spec hsplit).1 ch h

/-! ## One code point -/

theorem findSymbolStyleVariantIndex_spec {j : Nat} {variants : List Nat}
    (h : findSymbolStyleVariantIndex cp variants = some j) : variants[j]? = some cp := by
  rw [findSymbolStyleVariantIndex, List.findIdx?_eq_some_iff_getElem] at h
  obtain ⟨hlt, hcp, -⟩ := h
  rw [List.getElem?_eq_getElem hlt, eq_of_beq hcp]

/-- What holds of the counts in every round: a missing variant has its bytes from the
    source, and no variant is both missing and in excess. -/
structure Ready (group : SymbolStyleGroup) (sourceChars : List Utf8Char) (defaults : List Bytes)
    (missing excess : List Nat) : Prop where
  found : ∀ j, missing.getD j 0 > 0 →
    ∃ ch ∈ sourceChars, group.variants[j]? = some ch.cp ∧ defaults.getD j [] = ch.bytes
  exclusive : ∀ j, missing.getD j 0 > 0 → excess.getD j 0 = 0

theorem getD_modify_le (l : List Nat) (i j : Nat) :
    (l.modify i (· - 1)).getD j 0 ≤ l.getD j 0 := by
  rw [List.getD_eq_getElem?_getD, List.getD_eq_getElem?_getD, List.getElem?_modify]
  split
  · cases l[j]? with
    | none => exact Nat.le_refl 0
    | some n => exact Nat.sub_le n 1
  · cases l[j]? with
    | none => exact Nat.le_refl 0
    | some n => exact Nat.le_refl n

variable {group : SymbolStyleGroup} {sourceChars : List Utf8Char} {defaults : List Bytes}
  {missing : List Nat}

theorem Ready.modify {excess : List Nat} (h : Ready group sourceChars defaults missing excess)
    (target current : Nat) :
    Ready group sourceChars defaults (missing.modify target (· - 1))
      (excess.modify current (· - 1)) where
  found j hj := h.found j (Nat.lt_of_lt_of_le hj (getD_modify_le missing target j))
  exclusive j hj := by
    have hzero := h.exclusive j (Nat.lt_of_lt_of_le hj (getD_modify_le missing target j))
    have hle := getD_modify_le excess current j
    omega

/-- **THE TARGET** is another variant of the group, with the bytes of a code point of the
    source. -/
theorem findTarget_spec {zenzChars : List Utf8Char} {active : Nat} {excess : List Nat}
    {i current target : Nat} {bytes : Bytes}
    (hready : Ready group sourceChars defaults missing excess)
    (hcurrent : findSymbolStyleVariantIndex cp group.variants = some current)
    (h : findTarget group sourceChars zenzChars defaults active missing excess i cp current
      = some (target, bytes)) :
    ∃ ch ∈ sourceChars, ch.bytes = bytes ∧ ch.cp ∈ group.variants ∧ ch.cp ≠ cp := by
  have hcp := findSymbolStyleVariantIndex_spec hcurrent
  -- two indices of a group are two variants
  have hother : ∀ j value, j ≠ current → group.variants[j]? = some value → value ≠ cp := by
    rintro j value hne hj rfl
    exact hne ((List.getElem?_inj (List.getElem?_eq_some_iff.mp hj).1 group.nodup).mp
      (hj.trans hcp.symm))
  rw [findTarget] at h
  cases hpos : positionalTarget group.variants sourceChars missing i current with
  | some found =>
    rw [hpos] at h
    rw [positionalTarget] at hpos
    cases hch : sourceChars[i]? with
    | none => simp [hch] at hpos
    | some ch =>
      rw [hch] at hpos
      dsimp only at hpos
      cases hindex : findSymbolStyleVariantIndex ch.cp group.variants with
      | none => simp [hindex] at hpos
      | some source =>
        rw [hindex] at hpos
        dsimp only at hpos
        split at hpos
        · rename_i hcond
          have hvariant := findSymbolStyleVariantIndex_spec hindex
          rw [← Option.some.inj hpos] at h
          refine ⟨ch, List.mem_of_getElem? hch, ?_, List.mem_of_getElem? hvariant,
            hother source ch.cp hcond.1 hvariant⟩
          exact congrArg Prod.snd (Option.some.inj h)
        · exact absurd hpos.symm (Option.some_ne_none found)
  | none =>
    rw [hpos] at h
    dsimp only at h
    split at h
    · rename_i hcond
      obtain ⟨j, hfind, hpair⟩ := Option.map_eq_some_iff.mp h
      have hmissing : missing.getD j 0 > 0 := by
        have := List.find?_some hfind
        simp only [Bool.and_eq_true, decide_eq_true_eq] at this
        exact this.1
      obtain ⟨ch, hmem, hvariant, hbytes⟩ := hready.found j hmissing
      have hne : j ≠ current := by
        rintro rfl
        have := hready.exclusive j hmissing
        omega
      refine ⟨ch, hmem, ?_, List.mem_of_getElem? hvariant, hother j ch.cp hne hvariant⟩
      rw [← hbytes]
      exact congrArg Prod.snd hpair
    · exact absurd h.symm (Option.some_ne_none _)

/-! ## One pass -/

theorem restoreChars_spec {zenzChars : List Utf8Char} {active : Nat} :
    ∀ {chars : List Utf8Char} {i : Nat}
    {missing excess : List Nat}, Ready group sourceChars defaults missing excess →
    ∃ chars', List.Forall₂ (Replaced group sourceChars) chars chars' ∧
      restoreChars group sourceChars zenzChars defaults active chars i missing excess
        = chars'.flatMap Utf8Char.bytes := by
  intro chars
  induction chars with
  | nil => intro i missing excess _; exact ⟨[], List.Forall₂.nil, rfl⟩
  | cons ch chars ih =>
    intro i missing excess hready
    rw [restoreChars]
    cases hcurrent : findSymbolStyleVariantIndex ch.cp group.variants with
    | none =>
      obtain ⟨chars', hall, heq⟩ := ih (i := i + 1) hready
      exact ⟨ch :: chars', List.Forall₂.cons (Or.inl rfl) hall, by
        rw [List.flatMap_cons, ← heq]⟩
    | some current =>
      dsimp only
      cases htarget : findTarget group sourceChars zenzChars defaults active missing excess i
        ch.cp current with
      | none =>
        obtain ⟨chars', hall, heq⟩ := ih (i := i + 1) hready
        exact ⟨ch :: chars', List.Forall₂.cons (Or.inl rfl) hall, by
          rw [List.flatMap_cons, ← heq]⟩
      | some found =>
        obtain ⟨target, bytes⟩ := found
        obtain ⟨ch', hmem, rfl, hvariant, hne⟩ := findTarget_spec hready hcurrent htarget
        obtain ⟨chars', hall, heq⟩ := ih (i := i + 1) (hready.modify target current)
        have hcp := List.mem_of_getElem? (findSymbolStyleVariantIndex_spec hcurrent)
        exact ⟨ch' :: chars', List.Forall₂.cons (Or.inr ⟨hcp, hvariant, hne, hmem⟩) hall, by
          rw [List.flatMap_cons, ← heq]⟩

theorem getD_zipWith_sub (a b : List Nat) (j : Nat) :
    (List.zipWith (· - ·) a b).getD j 0 ≤ a.getD j 0 - b.getD j 0 := by
  rw [List.getD_eq_getElem?_getD, List.getD_eq_getElem?_getD, List.getD_eq_getElem?_getD,
    List.getElem?_zipWith]
  cases a[j]? with
  | none => exact Nat.zero_le _
  | some x =>
    cases b[j]? with
    | none => exact Nat.zero_le _
    | some y => exact Nat.le_refl _

theorem ready_start {sourceCounts zenzCounts missing' : List Nat}
    (hmissing : missing = List.zipWith (· - ·) sourceCounts zenzCounts)
    (hdefaults : defaults = List.zipWith (fun variant count =>
      if count > 0 then firstSymbolVariantBytes sourceChars variant else []) group.variants missing)
    (hmissing' : missing' = List.zipWith (fun count bytes => if bytes = [] then 0 else count)
      missing defaults) :
    Ready group sourceChars defaults missing'
      (List.zipWith (· - ·) zenzCounts sourceCounts) := by
  have hboth : ∀ j, missing'.getD j 0 > 0 → missing.getD j 0 > 0 ∧
      ∃ variant, group.variants[j]? = some variant ∧
        defaults.getD j [] = firstSymbolVariantBytes sourceChars variant ∧
        defaults.getD j [] ≠ [] := by
    intro j hj
    rw [List.getD_eq_getElem?_getD, hmissing', List.getElem?_zipWith] at hj
    rw [List.getD_eq_getElem?_getD, List.getD_eq_getElem?_getD]
    cases hm : missing[j]? with
    | none =>
      rw [hm] at hj
      exact absurd hj (Nat.lt_irrefl 0)
    | some count =>
      cases hd : defaults[j]? with
      | none =>
        rw [hm, hd] at hj
        exact absurd hj (Nat.lt_irrefl 0)
      | some bytes =>
        rw [hm, hd] at hj
        have hj' : (if bytes = [] then 0 else count) > 0 := hj
        have hne : bytes ≠ [] := fun h => by
          rw [if_pos h] at hj'
          exact Nat.lt_irrefl 0 hj'
        rw [if_neg hne] at hj'
        refine ⟨hj', ?_⟩
        rw [hdefaults, List.getElem?_zipWith, hm] at hd
        cases hv : group.variants[j]? with
        | none => simp [hv] at hd
        | some variant =>
          rw [hv] at hd
          have heq : (if count > 0 then firstSymbolVariantBytes sourceChars variant else [])
            = bytes := Option.some.inj hd
          rw [if_pos hj'] at heq
          exact ⟨variant, rfl, heq.symm, hne⟩
  constructor
  · intro j hj
    obtain ⟨-, variant, hvariant, hdefault, hne⟩ := hboth j hj
    rw [hdefault, firstSymbolVariantBytes] at hne
    rw [hdefault, firstSymbolVariantBytes]
    cases hfind : sourceChars.find? (fun ch => ch.cp == variant) with
    | none => rw [hfind] at hne; exact absurd rfl hne
    | some ch =>
      have hbeq := List.find?_some hfind
      have hcp : ch.cp = variant := eq_of_beq hbeq
      exact ⟨ch, List.mem_of_find?_eq_some hfind, by rw [hvariant, hcp], rfl⟩
  · intro j hj
    have hle := getD_zipWith_sub sourceCounts zenzCounts j
    have hle' := getD_zipWith_sub zenzCounts sourceCounts j
    have hpos := (hboth j hj).1
    rw [hmissing] at hpos
    omega

theorem forall₂_replaced_refl (group : SymbolStyleGroup) (sourceChars chars : List Utf8Char) :
    List.Forall₂ (Replaced group sourceChars) chars chars := by
  induction chars with
  | nil => exact List.Forall₂.nil
  | cons ch chars ih => exact List.Forall₂.cons (Or.inl rfl) ih

theorem spelled_of_replaced {styleSource : Bytes} {chars' : List Utf8Char}
    (h : List.Forall₂ (Replaced group (splitUtf8ForSymbolRestore styleSource)) chars chars')
    (hall : ∀ ch ∈ chars, ch.Spelled) : ∀ ch ∈ chars', ch.Spelled := by
  induction h with
  | nil => exact hall
  | @cons ch ch' chars chars' hch _ ih =>
    have hrest := ih (fun c hc => hall c (List.mem_cons_of_mem ch hc))
    intro c hc
    rcases List.mem_cons.mp hc with rfl | hc
    · rcases hch with rfl | ⟨-, -, -, hmem⟩
      · exact hall _ List.mem_cons_self
      · exact spelled_of_mem_split hmem
    · exact hrest c hc

variable {zenzValue : Bytes}

/-- **ONE PASS** keeps the code points or replaces them within its group, from its
    source. -/
theorem restoreSymbolGroupStyle_spec (group : SymbolStyleGroup) (styleSource : Bytes)
    (h : splitUtf8 zenzValue = some chars) :
    ∃ chars', splitUtf8 (restoreSymbolGroupStyle group styleSource zenzValue) = some chars' ∧
      List.Forall₂ (Replaced group (splitUtf8ForSymbolRestore styleSource)) chars chars' := by
  have hsame : splitUtf8ForSymbolRestore zenzValue = chars := by
    rw [splitUtf8ForSymbolRestore, h]
    rfl
  have hleft : ∃ chars', splitUtf8 zenzValue = some chars' ∧
      List.Forall₂ (Replaced group (splitUtf8ForSymbolRestore styleSource)) chars chars' :=
    ⟨chars, h, forall₂_replaced_refl group _ chars⟩
  rw [restoreSymbolGroupStyle, hsame]
  split_ifs
  · exact hleft
  · dsimp only
    split_ifs
    · exact hleft
    · exact hleft
    · exact hleft
    · obtain ⟨chars', hall, heq⟩ := restoreChars_spec (ready_start rfl rfl rfl)
      refine ⟨chars', ?_, hall⟩
      rw [heq]
      exact splitUtf8_flatMap (spelled_of_replaced hall (splitUtf8_spec h).1)

theorem restoreSymbolGroupStyle_of_none (group : SymbolStyleGroup) (styleSource : Bytes)
    (h : splitUtf8 zenzValue = none) :
    restoreSymbolGroupStyle group styleSource zenzValue = zenzValue := by
  have hnil : splitUtf8ForSymbolRestore zenzValue = [] := by
    rw [splitUtf8ForSymbolRestore, h]
    rfl
  rw [restoreSymbolGroupStyle, hnil]
  dsimp only
  rw [List.isEmpty_nil, Bool.or_true, if_pos rfl, ite_self]

/-! ## All passes -/

/-- The groups of different passes have no symbol in common. -/
def Disjoint (groups : List SymbolStyleGroup) : Prop :=
  groups.Pairwise (fun g h => ∀ cp ∈ g.variants, cp ∉ h.variants)

theorem disjoint_symbolStyleGroups : Disjoint symbolStyleGroups := by
  rw [Disjoint, symbolStyleGroups]
  decide

variable {key mozcValue : Bytes}

theorem restored_trans {groups : List SymbolStyleGroup} {styleSource : Bytes} {ch₁ ch₂ : Utf8Char}
    (hdisjoint : ∀ h ∈ groups, ∀ cp ∈ group.variants, cp ∉ h.variants)
    (hsource : styleSourceOf group key mozcValue = some styleSource)
    (hfirst : Replaced group (splitUtf8ForSymbolRestore styleSource) ch ch₁)
    (hrest : Restored groups key mozcValue ch₁ ch₂) :
    Restored (group :: groups) key mozcValue ch ch₂ := by
  rcases hfirst with rfl | ⟨hcp, hcp₁, hne, hmem⟩
  · rcases hrest with rfl | ⟨h, hh, found⟩
    · exact Or.inl rfl
    · exact Or.inr ⟨h, List.mem_cons_of_mem group hh, found⟩
  · rcases hrest with rfl | ⟨h, hh, _, -, hcp', -⟩
    · exact Or.inr ⟨group, List.mem_cons_self, styleSource, hsource, hcp, hcp₁, hne, hmem⟩
    · exact absurd hcp' (hdisjoint h hh _ hcp₁)

theorem forall₂_restored_refl (groups : List SymbolStyleGroup) (key mozcValue : Bytes)
    (chars : List Utf8Char) : List.Forall₂ (Restored groups key mozcValue) chars chars := by
  induction chars with
  | nil => exact List.Forall₂.nil
  | cons ch chars ih => exact List.Forall₂.cons (Or.inl rfl) ih

theorem restored_mono {groups : List SymbolStyleGroup} {ch' : Utf8Char}
    (h : Restored groups key mozcValue ch ch') :
    Restored (group :: groups) key mozcValue ch ch' := by
  rcases h with heq | ⟨g, hg, found⟩
  · exact Or.inl heq
  · exact Or.inr ⟨g, List.mem_cons_of_mem group hg, found⟩

theorem foldl_restore_spec : ∀ {groups : List SymbolStyleGroup}
    {zenzValue : Bytes} {chars : List Utf8Char}, Disjoint groups →
    splitUtf8 zenzValue = some chars →
    ∃ chars', splitUtf8 (groups.foldl (restoreSymbolGroupStyleFromKeyOrMozc key mozcValue)
        zenzValue) = some chars' ∧
      List.Forall₂ (Restored groups key mozcValue) chars chars' := by
  intro groups
  induction groups with
  | nil =>
    intro zenzValue chars _ h
    exact ⟨chars, h, forall₂_restored_refl [] key mozcValue chars⟩
  | cons group groups ih =>
    intro zenzValue chars hdisjoint h
    obtain ⟨hhead, htail⟩ := List.pairwise_cons.mp hdisjoint
    rw [List.foldl_cons, restoreSymbolGroupStyleFromKeyOrMozc]
    cases hsource : styleSourceOf group key mozcValue with
    | none =>
      obtain ⟨chars', hsplit, hall⟩ := ih htail h
      exact ⟨chars', hsplit, hall.imp (fun _ _ hch => restored_mono hch)⟩
    | some styleSource =>
      obtain ⟨chars₁, hsplit₁, hall₁⟩ := restoreSymbolGroupStyle_spec group styleSource h
      obtain ⟨chars', hsplit, hall⟩ := ih htail hsplit₁
      refine ⟨chars', hsplit, ?_⟩
      clear hsplit hsplit₁ h
      induction hall₁ generalizing chars' with
      | nil =>
        cases hall
        exact List.Forall₂.nil
      | cons hch _ ihall =>
        cases hall with
        | cons hch' hall' =>
          exact List.Forall₂.cons (restored_trans hhead hsource hch hch') (ihall _ hall')

theorem foldl_restore_of_none (h : splitUtf8 zenzValue = none) :
    ∀ groups : List SymbolStyleGroup,
      groups.foldl (restoreSymbolGroupStyleFromKeyOrMozc key mozcValue) zenzValue = zenzValue := by
  intro groups
  induction groups with
  | nil => rfl
  | cons group groups ih =>
    rw [List.foldl_cons, restoreSymbolGroupStyleFromKeyOrMozc]
    cases styleSourceOf group key mozcValue with
    | none => exact ih
    | some styleSource =>
      dsimp only
      rw [restoreSymbolGroupStyle_of_none group styleSource h]
      exact ih

/-- **ONLY THE STYLE OF SYMBOLS CHANGES**: a Zenz value that can be decoded keeps its number
    of code points, and each of them is left or replaced by another variant of its group
    that the style source of the group has; any other value is left as it is. -/
theorem restoreUserVisibleSymbolStyle_spec (key mozcValue zenzValue : Bytes) :
    (splitUtf8 zenzValue = none →
        restoreUserVisibleSymbolStyle key mozcValue zenzValue = zenzValue) ∧
      ∀ chars, splitUtf8 zenzValue = some chars →
        ∃ chars', splitUtf8 (restoreUserVisibleSymbolStyle key mozcValue zenzValue) = some chars' ∧
          chars'.length = chars.length ∧
          List.Forall₂ (Restored symbolStyleGroups key mozcValue) chars chars' := by
  constructor
  · intro h
    exact foldl_restore_of_none h symbolStyleGroups
  · intro chars h
    obtain ⟨chars', hsplit, hall⟩ := foldl_restore_spec disjoint_symbolStyleGroups h
    exact ⟨chars', hsplit, hall.length_eq.symm, hall⟩

/-- A wave dash is put back to the tilde of the key. -/
theorem restoreUserVisibleSymbolStyle_tilde :
    ∃ chars', splitUtf8 (restoreUserVisibleSymbolStyle [0x7E] [] [0xE3, 0x80, 0x9C])
        = some chars' ∧ chars'.length = 1 ∧
      List.Forall₂ (Restored symbolStyleGroups [0x7E] []) [⟨0x301C, [0xE3, 0x80, 0x9C]⟩] chars' :=
  (restoreUserVisibleSymbolStyle_spec [0x7E] [] [0xE3, 0x80, 0x9C]).2
    [⟨0x301C, [0xE3, 0x80, 0x9C]⟩] (by decide)

end MozkeyZenz
