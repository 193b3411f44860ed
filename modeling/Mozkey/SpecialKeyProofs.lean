import Mozkey.Utf8Proofs

/-! # SpecialKey — the keys written in braces

    A rule writes a special key in braces, `{abc}`.  A table keeps a private character,
    U+F000 to U+F8FF, for each of them; a key that no table has registered is written between
    U+000F and U+000E.  None of them is ever displayed.

    * `mem_of_mem_deleteSpecialKeys` — deleting brings in no ASCII byte. -/

namespace MozkeyComposer

open ByteString MozkeyUtil

/-- Special keys are code points of a private range. -/
abbrev kSpecialKeyBegin : Nat := 0xF000

abbrev kSpecialKeyEnd : Nat := 0xF8FF

/-- `kSpecialKeyOpen`, one byte. -/
def kSpecialKeyOpen : UInt8 := 0x0F

/-- `kSpecialKeyClose`, one byte. -/
def kSpecialKeyClose : UInt8 := 0x0E

/-- `IsSpecialKey`. -/
def isSpecialKey (c : Nat) : Bool := kSpecialKeyBegin ≤ c && c ≤ kSpecialKeyEnd

/-- The brackets of a block, as positions. -/
structure Block where
  openPos : Nat
  closePos : Nat

/-- `FindBlock`, for delimiters of one byte. -/
def findBlock (input : Bytes) (openKey closeKey : UInt8) : Option Block :=
  match input.findIdx? (· = openKey) with
  | none => none
  | some openPos =>
    match (input.drop openPos).findIdx? (· = closeKey) with
    | none => none
    | some n => some ⟨openPos, openPos + n⟩

/-- The loop of `ParseBlock` with a callback that keeps a state; every block takes a byte. -/
def parseBlockLoop {σ : Type} (callback : σ → Bytes → Bytes × σ) :
    Nat → σ → Bytes → Bytes × σ
  | 0, state, _ => ([], state)
  | fuel + 1, state, input =>
    if input.isEmpty then ([], state)
    else
      match findBlock input (chr '\x7b') (chr '\x7d') with
      | none => (input, state)
      | some block =>
        let key := (input.drop (block.openPos + 1)).take (block.closePos - block.openPos - 1)
        let parsed := if key = [chr '\x7b'] then ([chr '\x7b'], state) else callback state key
        let rest := parseBlockLoop callback fuel parsed.2 (input.drop (block.closePos + 1))
        (input.take block.openPos ++ parsed.1 ++ rest.1, rest.2)

/-- `ParseBlock`: each block goes to the callback. -/
def parseBlock {σ : Type} (callback : σ → Bytes → Bytes × σ) (state : σ) (input : Bytes) :
    Bytes × σ :=
  parseBlockLoop callback input.length state input

/-- The names of the special keys, and their characters. -/
abbrev SpecialKeyMap := List (Bytes × Bytes)

/-- `SpecialKeyMap::Register`. -/
def SpecialKeyMap.register (map : SpecialKeyMap) (input : Bytes) : Bytes × SpecialKeyMap :=
  parseBlock (fun (map : SpecialKeyMap) key =>
    match map.lookup key with
    | some specialKey => (specialKey, map)
    | none =>
      let specialKey := codepointToUtf8 (min (kSpecialKeyBegin + map.length) kSpecialKeyEnd)
      (specialKey, map ++ [(key, specialKey)])) map input

/-- `SpecialKeyMap::Parse`. -/
def SpecialKeyMap.parse (map : SpecialKeyMap) (input : Bytes) : Bytes :=
  (parseBlock (fun (_ : Unit) key =>
    ((map.lookup key).getD (kSpecialKeyOpen :: key ++ [kSpecialKeyClose]), ())) () input).1

/-- `TrimLeadingSpecialKey`. -/
def trimLeadingSpecialKey (input : Bytes) : Bytes :=
  let first := (splitFirstChar32 input).getD (0, [])
  if isSpecialKey first.1 then input.drop (input.length - first.2.length)
  else if input.head? ≠ some kSpecialKeyOpen then input
  else
    match (input.drop 1).findIdx? (· = kSpecialKeyClose) with
    | none => input
    | some n => input.drop (1 + n + 1)

/-- The loop of `DeleteSpecialKeys`; every block takes a byte at least. -/
def deleteBlocksLoop : Nat → Bytes → Bytes
  | 0, _ => []
  | fuel + 1, input =>
    if input.isEmpty then []
    else
      match findBlock input kSpecialKeyOpen kSpecialKeyClose with
      | none => input
      | some block =>
        input.take block.openPos ++ deleteBlocksLoop fuel (input.drop (block.closePos + 1))

/-- `DeleteSpecialKeys`. -/
def deleteSpecialKeys (input : Bytes) : Bytes :=
  let output := deleteBlocksLoop input.length input
  let codepoints := chars32 output
  if codepoints.any isSpecialKey then
    (codepoints.filter fun c => !isSpecialKey c).flatMap codepointToUtf8
  else output

example : (SpecialKeyMap.register [] (ascii "a\x7b!\x7d\x7b\x7b\x7d")).1
    = chr 'a' :: codepointToUtf8 0xF000 ++ [chr '\x7b'] := by decide +kernel

/-! ## Trimming and deleting -/

theorem mem_of_mem_deleteBlocksLoop {fuel : Nat} {input : Bytes} {b : UInt8}
    (h : b ∈ deleteBlocksLoop fuel input) : b ∈ input := by
  induction fuel generalizing input with
  | zero => exact absurd h List.not_mem_nil
  | succ fuel ih =>
    rw [deleteBlocksLoop] at h
    split at h
    · exact absurd h List.not_mem_nil
    · split at h
      · exact h
      · rcases List.mem_append.mp h with h | h
        · exact List.mem_of_mem_take h
        · exact List.mem_of_mem_drop (ih h)

theorem mem_of_mem_chars32 {s : Bytes} {c : Nat} (hc : c < 0x80) (h : c ∈ chars32 s) :
    UInt8.ofNat c ∈ s := by
  obtain ⟨s', rest, hs', hread⟩ := exists_read_of_mem h
  rw [eq_of_splitFirstChar32 hread (by omega), utf8] at hs'
  refine hs'.subset (List.mem_append_left _ ?_)
  split
  · rename_i hzero
    rw [hzero]
    exact List.mem_singleton_self _
  · rename_i hpos
    rw [codepointToUtf8_of_ascii (Nat.pos_of_ne_zero hpos) hc]
    exact List.mem_singleton_self _

theorem mem_of_mem_deleteSpecialKeys {input : Bytes} {b : UInt8} (hb : b < 0x80)
    (h : b ∈ deleteSpecialKeys input) : b ∈ input := by
  rw [deleteSpecialKeys] at h
  refine @mem_of_mem_deleteBlocksLoop input.length input b ?_
  split at h
  · obtain ⟨c, hc, hmem⟩ := List.mem_flatMap.mp h
    have heq := eq_of_mem_codepointToUtf8 hb hmem
    have hchar := mem_of_mem_chars32 (by rw [heq]; exact hb) (List.mem_of_mem_filter hc)
    rwa [heq, UInt8.ofNat_toNat] at hchar
  · exact h

end MozkeyComposer
