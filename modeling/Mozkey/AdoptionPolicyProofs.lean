import Mozkey.ByteStringProofs
import Mozkey.IterationProofs
import Mozkey.SubstringProofs

/-! # ZenzAdoptionPolicy — validating and repairing a Zenz value

    A protected span is a surface that the normal conversion chose from the user
    dictionary.  `Decide` walks over the spans and, while the adopted text has fewer
    boundary-preserved occurrences of a span's surface than required, repairs the text:
    it erases kana attached to the surface, or replaces the one kana reading by the
    surface; when neither applies it rejects.

    The search loops of the source all visit `Substring.positions`.  The `while` loop of
    one span is `repairStep` under `Iteration.iterate`, so running out of fuel is the
    result `none`. -/

namespace MozkeyAdoption

open ByteString Substring

/-! ## Characters -/

/-- `DecodeUtf8Char` at the start of `s`: the code point and its length in bytes. -/
def decodeUtf8Char (s : Bytes) : Option (Nat × Nat) :=
  match s with
  | [] => none
  | c0 :: rest =>
    let c := c0.toNat
    if c < 0x80 then some (c, 1)
    else
      let lead : Option (Nat × Nat) :=
        if c &&& 0xE0 = 0xC0 then some (2, c &&& 0x1F)
        else if c &&& 0xF0 = 0xE0 then some (3, c &&& 0x0F)
        else if c &&& 0xF8 = 0xF0 then some (4, c &&& 0x07)
        else none
      match lead with
      | none => none
      | some (length, code) =>
        if length > s.length then none
        else
          let trail := rest.take (length - 1)
          if trail.all (fun cx => cx.toNat &&& 0xC0 = 0x80) then
            some (trail.foldl (fun code cx => code <<< 6 ||| (cx.toNat &&& 0x3F)) code, length)
          else none

/-- `AppendUtf8Char`: the bytes of a code point. -/
def appendUtf8Char (c : Nat) : Bytes :=
  if c ≤ 0x7F then [UInt8.ofNat c]
  else if c ≤ 0x7FF then [UInt8.ofNat (0xC0 ||| c >>> 6), UInt8.ofNat (0x80 ||| (c &&& 0x3F))]
  else if c ≤ 0xFFFF then
    [UInt8.ofNat (0xE0 ||| c >>> 12), UInt8.ofNat (0x80 ||| (c >>> 6 &&& 0x3F)),
      UInt8.ofNat (0x80 ||| (c &&& 0x3F))]
  else
    [UInt8.ofNat (0xF0 ||| c >>> 18), UInt8.ofNat (0x80 ||| (c >>> 12 &&& 0x3F)),
      UInt8.ofNat (0x80 ||| (c >>> 6 &&& 0x3F)), UInt8.ofNat (0x80 ||| (c &&& 0x3F))]

/-- The loop of `HiraganaToKatakana`; every round consumes a byte, so the length is
    fuel enough. -/
def hiraganaToKatakanaLoop : Nat → Bytes → Bytes
  | 0, _ => []
  | _ + 1, [] => []
  | fuel + 1, c0 :: rest =>
    match decodeUtf8Char (c0 :: rest) with
    | none => c0 :: hiraganaToKatakanaLoop fuel rest
    | some (c, length) =>
      let c' :=
        if 0x3041 ≤ c ∧ c ≤ 0x3096 then c + 0x60
        else if c = 0x309D then 0x30FD
        else if c = 0x309E then 0x30FE
        else c
      appendUtf8Char c' ++ hiraganaToKatakanaLoop fuel ((c0 :: rest).drop length)

/-- `HiraganaToKatakana`. -/
def hiraganaToKatakana (s : Bytes) : Bytes := hiraganaToKatakanaLoop s.length s

/-- The start of the character before `index`: back over continuation bytes. -/
def previousStart (s : Bytes) : Nat → Nat
  | 0 => 0
  | start + 1 =>
    if (s.getD (start + 1) 0).toNat &&& 0xC0 = 0x80 then previousStart s start else start + 1

/-- `DecodePreviousUtf8Char`: the code point that ends at `index`. -/
def decodePreviousUtf8Char (s : Bytes) (index : Nat) : Option Nat :=
  if index = 0 ∨ index > s.length then none
  else
    let start := previousStart s (index - 1)
    match decodeUtf8Char (s.drop start) with
    | none => none
    | some (c, length) => if start + length = index then some c else none

/-- The letters, digits and signs of ASCII words. -/
def isAsciiWordLike (c : Nat) : Bool :=
  ('0'.toNat ≤ c && c ≤ '9'.toNat) || ('A'.toNat ≤ c && c ≤ 'Z'.toNat) ||
    ('a'.toNat ≤ c && c ≤ 'z'.toNat) || c == '_'.toNat || c == '-'.toNat || c == '.'.toNat ||
    c == '+'.toNat || c == '#'.toNat

/-- Kana and kanji. -/
def isJapaneseLetterLike (c : Nat) : Bool :=
  (0x3040 ≤ c && c ≤ 0x309F) ||  -- Hiragana
    (0x30A0 ≤ c && c ≤ 0x30FF) ||  -- Katakana
    (0x3400 ≤ c && c ≤ 0x9FFF) ||  -- CJK Unified Ideographs
    (0xF900 ≤ c && c ≤ 0xFAFF) ||  -- CJK Compatibility Ideographs
    (0xFF66 ≤ c && c ≤ 0xFF9D)  -- Halfwidth Katakana

/-- The kana of particles. -/
def isJapaneseParticleBoundary (c : Nat) : Bool :=
  (['の', 'は', 'を', 'に', 'で', 'へ', 'と', 'が', 'も', 'や', 'か'].map Char.toNat).contains c

/-- What stands between words. -/
def isPunctuationOrSpaceBoundary (c : Nat) : Bool :=
  c ≤ 0x20 ||
    (['、', '。', '，', '．', '・', '「', '」', '『', '』', '（', '）', '(', ')', '[', ']',
      '{', '}', ' ', '\t', '\n'].map Char.toNat).contains c

/-- What may stand beside a protected surface. -/
def isProtectedSurfaceBoundaryChar (c : Nat) : Bool :=
  if isPunctuationOrSpaceBoundary c || isJapaneseParticleBoundary c then true
  else !isJapaneseLetterLike c && !isAsciiWordLike c

/-! ## Spans and occurrences -/

/-- How strictly a span is protected. -/
inductive Tier where
  | identityCritical
  | userPreferred
  deriving DecidableEq

/-- A span of the conversion that the value of Zenz has to keep. -/
structure ProtectedConversionSpan where
  key : Bytes
  value : Bytes
  tier : Tier
  repairable : Bool
  requiredOccurrences : Nat
  placeholder : Bytes
  deriving DecidableEq

/-- How often a needle is found, one behind the other. -/
def countOccurrences (haystack needle : Bytes) : Nat := (positions needle haystack).length

/-- May a surface begin and end where it was found? -/
def hasProtectedSurfaceBoundaries (value : Bytes) (pos : Nat) (surface : Bytes) : Bool :=
  if surface = [] ∨ pos > value.length ∨ pos + surface.length > value.length then false
  else
    let left :=
      if pos > 0 then
        match decodePreviousUtf8Char value pos with
        | none => false
        | some c => isProtectedSurfaceBoundaryChar c
      else true
    let rightPos := pos + surface.length
    let right :=
      if rightPos < value.length then
        match decodeUtf8Char (value.drop rightPos) with
        | none => false
        | some (c, _) => isProtectedSurfaceBoundaryChar c
      else true
    left && right

/-- How often a surface is found with such boundaries. -/
def countBoundaryPreservedOccurrences (value surface : Bytes) : Nat :=
  ((positions surface value).filter
    (fun pos => hasProtectedSurfaceBoundaries value pos surface)).length

/-- The loop of `FindUniqueRightBoundaryAfterSurface` over the positions of the
    surface; `none` for `boundary` is `!seen_boundary`. -/
def findUniqueRightBoundaryLoop (value surface : Bytes) : List Nat → Option Bytes → Bytes
  | [], boundary => boundary.getD []
  | pos :: rest, boundary =>
    let rightPos := pos + surface.length
    if rightPos ≥ value.length then findUniqueRightBoundaryLoop value surface rest boundary
    else
      match decodeUtf8Char (value.drop rightPos) with
      | none => findUniqueRightBoundaryLoop value surface rest boundary
      | some (right, rightLen) =>
        if isProtectedSurfaceBoundaryChar right then
          let candidate := (value.drop rightPos).take rightLen
          match boundary with
          | none => findUniqueRightBoundaryLoop value surface rest (some candidate)
          | some b =>
            if b = candidate then findUniqueRightBoundaryLoop value surface rest (some b)
            else []
        else findUniqueRightBoundaryLoop value surface rest boundary

/-- What follows the only occurrence of a surface. -/
def findUniqueRightBoundaryAfterSurface (value surface : Bytes) : Bytes :=
  if surface = [] then []
  else findUniqueRightBoundaryLoop value surface (positions surface value) none

/-- The loop of `IsAllJapaneseAttachedContent`; every round consumes a byte. -/
def isAllJapaneseLoop : Nat → Bytes → Bool
  | _, [] => true
  | 0, _ :: _ => true
  | fuel + 1, c0 :: rest =>
    match decodeUtf8Char (c0 :: rest) with
    | none => false
    | some (c, length) =>
      if !isJapaneseLetterLike c || isJapaneseParticleBoundary c then false
      else isAllJapaneseLoop fuel ((c0 :: rest).drop length)

/-- `IsAllJapaneseAttachedContent`. -/
def isAllJapaneseAttachedContent (value : Bytes) : Bool :=
  if value = [] then false else isAllJapaneseLoop value.length value

/-! ## The repairs -/

/-- The loop of `TryRepairAttachedProtectedSpan` over the positions of the surface, up to
    the content between a surface and the expected boundary that is to be erased: where
    it begins and how long it is. -/
def findAttachedLoop (expectedBoundary surface value : Bytes) : List Nat → Option (Nat × Nat)
  | [] => none
  | pos :: rest =>
    if hasProtectedSurfaceBoundaries value pos surface then
      findAttachedLoop expectedBoundary surface value rest
    else
      let attachedBegin := pos + surface.length
      match find expectedBoundary (value.drop attachedBegin) with
      | none => findAttachedLoop expectedBoundary surface value rest
      | some length =>
        if length = 0 ∨ length > 12 then
          findAttachedLoop expectedBoundary surface value rest
        else if isAllJapaneseAttachedContent ((value.drop attachedBegin).take length) then
          some (attachedBegin, length)
        else findAttachedLoop expectedBoundary surface value rest

/-- The attached content that `TryRepairAttachedProtectedSpan` finds. -/
def findAttached (mozcValue : Bytes) (span : ProtectedConversionSpan) (value : Bytes) :
    Option (Nat × Nat) :=
  if span.value = [] then none
  else
    let expectedBoundary := findUniqueRightBoundaryAfterSurface mozcValue span.value
    if expectedBoundary = [] then none
    else findAttachedLoop expectedBoundary span.value value (positions span.value value)

/-- `TryRepairAttachedProtectedSpan`: the value with the attached content erased. -/
def tryRepairAttachedProtectedSpan (mozcValue : Bytes) (span : ProtectedConversionSpan)
    (value : Bytes) : Option Bytes :=
  (findAttached mozcValue span value).map fun (attachedBegin, length) =>
    value.take attachedBegin ++ value.drop (attachedBegin + length)

/-- `IsAsciiAlnum`. -/
def isAsciiAlnum (c : UInt8) : Bool :=
  (chr '0' ≤ c && c ≤ chr '9') || (chr 'A' ≤ c && c ≤ chr 'Z') || (chr 'a' ≤ c && c ≤ chr 'z')

/-- May a text be replaced by the surface of a span? -/
def isRepairCandidateSafe (source : Bytes) (span : ProtectedConversionSpan) : Bool :=
  if source = [] ∨ source = span.value then false
  else if !span.repairable || span.tier ≠ .identityCritical then false
  else 3 ≤ (span.value.filter isAsciiAlnum).length

/-- The loop of `TryRepairProtectedSpan` over the candidate readings: the first that is
    safe and occurs once. -/
def findReading (span : ProtectedConversionSpan) (value : Bytes) : Option Bytes :=
  [hiraganaToKatakana span.key, span.key].find? fun candidate =>
    isRepairCandidateSafe candidate span && countOccurrences value candidate = 1

/-- `TryRepairProtectedSpan`: the value with the reading replaced by the surface. -/
def tryRepairProtectedSpan (span : ProtectedConversionSpan) (value : Bytes) : Option Bytes :=
  match findReading span value with
  | none => none
  | some candidate =>
    let repaired := replaceAll candidate span.value value
    if contains span.value repaired then some repaired else none

/-! ## Decide -/

/-- What becomes of the value of Zenz. -/
inductive Action where
  | acceptAsIs
  | acceptWithRepair
  | reject
  deriving DecidableEq

/-- The action, the value and what it was decided on. -/
structure ZenzAdoptionResult where
  action : Action
  value : Bytes
  reason : Bytes
  deriving DecidableEq

/-- The required number of occurrences, at least one. -/
def required (span : ProtectedConversionSpan) : Nat :=
  if span.requiredOccurrences = 0 then 1 else span.requiredOccurrences

/-- How the loop of one span ends. -/
inductive LoopEnd where
  | preserved (adoptedValue : Bytes) (repaired : Bool)
  | rejected (reason : Bytes)

/-- The two repairs of the loop body, in their order. -/
def tryRepair (mozcValue : Bytes) (span : ProtectedConversionSpan) (adoptedValue : Bytes) :
    Option Bytes :=
  match tryRepairAttachedProtectedSpan mozcValue span adoptedValue with
  | some value => some value
  | none =>
    if countOccurrences adoptedValue span.value < required span then
      tryRepairProtectedSpan span adoptedValue
    else none

/-- One iteration of the `while` loop of a span: the loop ends or goes on with the
    repaired text. -/
def repairStep (mozcValue : Bytes) (span : ProtectedConversionSpan) :
    Bytes × Bool → LoopEnd ⊕ (Bytes × Bool)
  | (adoptedValue, repaired) =>
    if countBoundaryPreservedOccurrences adoptedValue span.value < required span then
      match tryRepair mozcValue span adoptedValue with
      | some value => .inr (value, true)
      | none =>
        .inl (.rejected
          (if countOccurrences adoptedValue span.value ≥ required span then
            ascii "protected_user_dictionary_surface_boundary_changed"
          else ascii "protected_user_dictionary_surface_not_preserved"))
    else .inl (.preserved adoptedValue repaired)

/-- The loop over the spans, with fuel for each repair loop. -/
def decideLoop (fuel : Nat) (mozcValue : Bytes) :
    List ProtectedConversionSpan → Bytes → Bool → Option ZenzAdoptionResult
  | [], adoptedValue, repaired =>
    some ⟨if repaired then .acceptWithRepair else .acceptAsIs, adoptedValue,
      if repaired then ascii "protected_user_dictionary_surface_repaired"
      else ascii "accepted"⟩
  | span :: rest, adoptedValue, repaired =>
    if span.value = [] then decideLoop fuel mozcValue rest adoptedValue repaired
    else
      match Iteration.iterate (repairStep mozcValue span) fuel (adoptedValue, repaired) with
      | none => none
      | some (.rejected reason) => some ⟨.reject, mozcValue, reason⟩
      | some (.preserved value repaired') => decideLoop fuel mozcValue rest value repaired'

/-- `ZenzAdoptionPolicy::Decide`; `none` when the fuel of a repair loop runs out. -/
def decide? (fuel : Nat) (mozcValue zenzValue : Bytes) (spans : List ProtectedConversionSpan) :
    Option ZenzAdoptionResult :=
  decideLoop fuel mozcValue spans zenzValue false

end MozkeyAdoption
