import Mozkey.SubstringProofs
import Mozkey.ZenzPromptProofs

/-! # ZenzOutputValidator — what an adopted value may contain

    A value that a model proposes is checked before it is adopted: lengths, special tokens,
    the encoding, addresses and secrets.  `ContainsSpecialToken` decodes the value with the
    lenient decoder of the prompt builder and rejects what it cannot decode; `IsValidUtf8`
    decodes it once more, strictly.  The special tokens are U+EE00..U+EE06, the control code
    points of a prompt U+EE00..U+EE0F. -/

namespace MozkeyZenz

open ByteString MozkeyUtil

/-! ## The validator of the source -/

/-- `ZenzValidationInput`. -/
structure ZenzValidationInput where
  key : Bytes := []
  mozcValue : Bytes := []
  zenzValue : Bytes := []
  leftContext : Bytes := []
  minKeyLength : Nat := 5
  allowSyntheticCandidate : Bool := true

/-- `ZenzValidationResult`. -/
structure ZenzValidationResult where
  accept : Bool := false
  synthetic : Bool := false
  reason : Bytes := []
  deriving DecidableEq

/-- `Accept`. -/
def accept (synthetic : Bool) (reason : Bytes) : ZenzValidationResult :=
  { accept := true, synthetic := synthetic, reason := reason }

/-- `Reject`. -/
def reject (reason : Bytes) : ZenzValidationResult :=
  { accept := false, synthetic := false, reason := reason }

/-- `absl::StrContains`. -/
def strContains (text : Bytes) (needle : String) : Bool := Substring.contains (ascii needle) text

/-- The loop of `ContainsSpecialToken`, with the decoder of the prompt builder; every code
    point takes a byte at least. -/
def specialTokenLoop : Nat → Bytes → Bool
  | 0, _ => false
  | fuel + 1, text =>
    if text.isEmpty then false
    else
      match decodeOneUtf8 text with
      | none => true
      | some (cp, rest) =>
        if 0xEE00 ≤ cp ∧ cp ≤ 0xEE06 then true else specialTokenLoop fuel rest

/-- `ContainsSpecialToken`. -/
def containsSpecialToken (text : Bytes) : Bool :=
  if strContains text "<s>" || strContains text "</s>" || strContains text "<unk>" ||
      strContains text "<|endoftext|>" then true
  else specialTokenLoop text.length text

/-- The loop of `IsValidUtf8`; every code point takes a byte at least. -/
def isValidUtf8Loop : Nat → Bytes → Bool
  | 0, s => s.isEmpty
  | fuel + 1, s =>
    if s.isEmpty then true
    else
      match splitFirstChar32 s with
      | none => false
      | some (_, rest) => isValidUtf8Loop fuel rest

/-- `IsValidUtf8`. -/
def isValidUtf8 (s : Bytes) : Bool := isValidUtf8Loop s.length s

/-- `LooksLikeUrlOrEmail`. -/
def looksLikeUrlOrEmail (text : Bytes) : Bool :=
  strContains text "://" || strContains text "www." || strContains text "@"

/-- The bytes that `LooksLikeSecret` counts. -/
def isAsciiAlnum (c : UInt8) : Bool :=
  (decide (chr 'a' ≤ c) && decide (c ≤ chr 'z')) ||
    (decide (chr 'A' ≤ c) && decide (c ≤ chr 'Z')) ||
    (decide (chr '0' ≤ c) && decide (c ≤ chr '9')) || c == chr '_' || c == chr '-' || c == chr '.'

/-- `LooksLikeSecret`. -/
def looksLikeSecret (text : Bytes) : Bool :=
  if 32 ≤ text.length ∧ 80 ≤ text.countP isAsciiAlnum * 100 / text.length then true
  else
    strContains text "password" || strContains text "passwd" || strContains text "secret" ||
      strContains text "token" || strContains text "api_key" || strContains text "apikey"

/-- `Validate`: the first check that fails. -/
def validate (input : ZenzValidationInput) : ZenzValidationResult :=
  if input.key.isEmpty then reject (ascii "empty_key")
  else if input.zenzValue.isEmpty then reject (ascii "empty_value")
  else if input.zenzValue = input.mozcValue then reject (ascii "same_as_mozc")
  else if input.zenzValue = input.key then reject (ascii "same_as_reading")
  else if charsLen input.key < input.minKeyLength then reject (ascii "too_short_key")
  else if containsSpecialToken input.zenzValue then reject (ascii "special_token")
  else if !isValidUtf8 input.zenzValue then reject (ascii "invalid_utf8")
  else
    let keyLen := charsLen input.key
    let valueLen := charsLen input.zenzValue
    if valueLen = 0 then reject (ascii "zero_value_len")
    else if valueLen > keyLen * 3 + 8 then reject (ascii "too_long_value")
    else if looksLikeUrlOrEmail input.zenzValue then reject (ascii "url_or_email")
    else if looksLikeSecret input.zenzValue then reject (ascii "secret_like")
    else if !input.allowSyntheticCandidate then reject (ascii "synthetic_disabled")
    else accept true (ascii "accepted_synthetic")

/-! ## Two decoders -/

/-- What the lenient decoder reads. -/
inductive Decodes : Bytes → Nat × Bytes → Prop
  | one {c0 : UInt8} {rest : Bytes} (h0 : c0 < 0x80) : Decodes (c0 :: rest) (c0.toNat, rest)
  | two {c0 c1 : UInt8} {rest : Bytes} (h0 : ¬ c0 < 0x80) (h2 : c0 &&& 0xE0 = 0xC0)
      (t1 : isTrailing c1 = true) :
      Decodes (c0 :: c1 :: rest) (((c0 &&& 0x1F).toNat <<< 6) ||| (c1 &&& 0x3F).toNat, rest)
  | three {c0 c1 c2 : UInt8} {rest : Bytes} (h0 : ¬ c0 < 0x80) (h2 : ¬ c0 &&& 0xE0 = 0xC0)
      (h3 : c0 &&& 0xF0 = 0xE0) (t1 : isTrailing c1 = true) (t2 : isTrailing c2 = true) :
      Decodes (c0 :: c1 :: c2 :: rest) (((c0 &&& 0x0F).toNat <<< 12) |||
        ((c1 &&& 0x3F).toNat <<< 6) ||| (c2 &&& 0x3F).toNat, rest)
  | four {c0 c1 c2 c3 : UInt8} {rest : Bytes} (h0 : ¬ c0 < 0x80) (h2 : ¬ c0 &&& 0xE0 = 0xC0)
      (h3 : ¬ c0 &&& 0xF0 = 0xE0) (h4 : c0 &&& 0xF8 = 0xF0) (t1 : isTrailing c1 = true)
      (t2 : isTrailing c2 = true) (t3 : isTrailing c3 = true) :
      Decodes (c0 :: c1 :: c2 :: c3 :: rest) (((c0 &&& 0x07).toNat <<< 18) |||
        ((c1 &&& 0x3F).toNat <<< 12) ||| ((c2 &&& 0x3F).toNat <<< 6) ||| (c3 &&& 0x3F).toNat, rest)

theorem decodes_of_decodeOneUtf8 {s : Bytes} {read : Nat × Bytes}
    (h : decodeOneUtf8 s = some read) : Decodes s read := by
  match s with
  | [] => exact nomatch h
  | c0 :: tail =>
    unfold decodeOneUtf8 at h
    dsimp only at h
    by_cases h0 : c0 < 0x80
    · rw [if_pos h0] at h
      rw [← Option.some.inj h]
      exact .one h0
    rw [if_neg h0] at h
    by_cases h2 : c0 &&& 0xE0 = 0xC0
    · rw [if_pos h2] at h
      match tail, h with
      | c1 :: rest, h =>
        cases t1 : isTrailing c1 with
        | false => simp [t1] at h
        | true =>
          simp only [t1, Bool.not_true, Bool.false_eq_true, if_false, Option.some.injEq] at h
          rw [← h]
          exact .two h0 h2 t1
    rw [if_neg h2] at h
    by_cases h3 : c0 &&& 0xF0 = 0xE0
    · rw [if_pos h3] at h
      match tail, h with
      | c1 :: c2 :: rest, h =>
        by_cases ht : (!isTrailing c1 || !isTrailing c2) = true
        · simp [ht] at h
        · simp only [ht, Bool.false_eq_true, if_false, Option.some.injEq] at h
          simp only [Bool.or_eq_true, Bool.not_eq_true', not_or, Bool.not_eq_false] at ht
          rw [← h]
          exact .three h0 h2 h3 ht.1 ht.2
    rw [if_neg h3] at h
    by_cases h4 : c0 &&& 0xF8 = 0xF0
    · rw [if_pos h4] at h
      match tail, h with
      | c1 :: c2 :: c3 :: rest, h =>
        by_cases ht : (!isTrailing c1 || !isTrailing c2 || !isTrailing c3) = true
        · simp [ht] at h
        · simp only [ht, Bool.false_eq_true, if_false, Option.some.injEq] at h
          simp only [Bool.or_eq_true, Bool.not_eq_true', not_or, Bool.not_eq_false] at ht
          rw [← h]
          exact .four h0 h2 h3 h4 ht.1.1 ht.1.2 ht.2
    rw [if_neg h4] at h
    exact nomatch h

theorem length_of_decodeOneUtf8 {s : Bytes} {read : Nat × Bytes}
    (h : decodeOneUtf8 s = some read) : read.2.length < s.length := by
  cases decodes_of_decodeOneUtf8 h <;> simp only [List.length_cons] <;> omega

/-! ## What the validator leaves -/

/-- **NO SPECIAL TOKEN**: the value is decoded wholly, and to none of U+EE00..U+EE06. -/
theorem specialTokenLoop_eq_false : ∀ (fuel : Nat) (text : Bytes), text.length ≤ fuel →
    (specialTokenLoop fuel text = false ↔ (decodeLoop fuel text).2 = [] ∧
      ∀ cp ∈ (decodeLoop fuel text).1, ¬ (0xEE00 ≤ cp ∧ cp ≤ 0xEE06)) := by
  intro fuel
  induction fuel with
  | zero =>
    intro text hlen
    have htext : text = [] := List.length_eq_zero_iff.mp (Nat.le_zero.mp hlen)
    exact ⟨fun _ => ⟨htext, fun _ hcp => absurd hcp List.not_mem_nil⟩, fun _ => rfl⟩
  | succ fuel ih =>
    intro text hlen
    match text with
    | [] => exact ⟨fun _ => ⟨rfl, fun _ hcp => absurd hcp List.not_mem_nil⟩, fun _ => rfl⟩
    | b :: text =>
      rw [specialTokenLoop, if_neg (by rw [List.isEmpty_cons]; decide), decodeLoop]
      cases hread : decodeOneUtf8 (b :: text) with
      | none =>
        refine ⟨fun h => Bool.noConfusion h, fun h => ?_⟩
        have hnil : b :: text = [] := h.1
        cases hnil
      | some read =>
        obtain ⟨cp, rest⟩ := read
        have hrest : rest.length ≤ fuel := by
          have hlt : rest.length < (b :: text).length := length_of_decodeOneUtf8 hread
          omega
        dsimp only
        rw [List.forall_mem_cons]
        by_cases hcp : 0xEE00 ≤ cp ∧ cp ≤ 0xEE06
        · rw [if_pos hcp]
          exact ⟨fun h => absurd h (by decide), fun h => absurd hcp h.2.1⟩
        · rw [if_neg hcp, ih rest hrest]
          exact ⟨fun h => ⟨h.1, hcp, h.2⟩, fun h => ⟨h.1, h.2.2⟩⟩

/-- What is left when no special token is found. -/
theorem containsSpecialToken_eq_false {text : Bytes} (h : containsSpecialToken text = false) :
    (decodeAll text).2 = [] ∧ ∀ cp ∈ (decodeAll text).1, ¬ (0xEE00 ≤ cp ∧ cp ≤ 0xEE06) := by
  unfold containsSpecialToken at h
  split at h
  · exact nomatch h
  · exact (specialTokenLoop_eq_false _ _ (Nat.le_refl _)).mp h

theorem accept_of_ite {c : Prop} [Decidable c] {reason : Bytes} {rest : ZenzValidationResult}
    (h : (if c then reject reason else rest).accept = true) : ¬ c ∧ rest.accept = true := by
  by_cases hc : c
  · rw [if_pos hc] at h
    exact nomatch h
  · rw [if_neg hc] at h
    exact ⟨hc, h⟩

theorem checks_of_accept {input : ZenzValidationInput} (h : (validate input).accept = true) :
    containsSpecialToken input.zenzValue = false ∧ isValidUtf8 input.zenzValue = true := by
  unfold validate at h
  obtain ⟨-, h⟩ := accept_of_ite h
  obtain ⟨-, h⟩ := accept_of_ite h
  obtain ⟨-, h⟩ := accept_of_ite h
  obtain ⟨-, h⟩ := accept_of_ite h
  obtain ⟨-, h⟩ := accept_of_ite h
  obtain ⟨hspecial, h⟩ := accept_of_ite h
  obtain ⟨hvalid, -⟩ := accept_of_ite h
  exact ⟨eq_false_of_ne_true hspecial, by rwa [Bool.not_eq_true, Bool.not_eq_false'] at hvalid⟩

/-- **WHICH ACCEPTED VALUES HAVE NO CONTROL CODE POINT**: those without U+EE07..U+EE0F, of
    which U+EE07 is the marker of the right context. -/
theorem accept_noControl_iff {input : ZenzValidationInput}
    (h : (validate input).accept = true) :
    (∀ cp ∈ (decodeAll input.zenzValue).1, isZenzControlCodepoint cp = false) ↔
      ∀ cp ∈ (decodeAll input.zenzValue).1, ¬ (0xEE07 ≤ cp ∧ cp ≤ 0xEE0F) := by
  have hspecial := (containsSpecialToken_eq_false (checks_of_accept h).1).2
  constructor
  · intro hcontrol cp hmem hrange
    have htrue := (isZenzControlCodepoint_iff cp).mpr (by omega)
    rw [hcontrol cp hmem] at htrue
    exact nomatch htrue
  · intro hrange cp hmem
    rw [← Bool.not_eq_true, isZenzControlCodepoint_iff]
    have hnot := hrange cp hmem
    have hnot' := hspecial cp hmem
    omega

/-- Five kana, and the converted value with `tail` behind it. -/
def kanaInput (tail : Bytes) : ZenzValidationInput :=
  { key := [0xE3, 0x81, 0x82, 0xE3, 0x81, 0x84, 0xE3, 0x81, 0x86, 0xE3, 0x81, 0x88,
      0xE3, 0x81, 0x8A]
    zenzValue := [0xE6, 0x84, 0x9B] ++ tail }

/-- A value that is accepted. -/
theorem accept_noControl_kana :
    (validate (kanaInput [])).accept = true ∧
      ∀ cp ∈ (decodeAll (kanaInput []).zenzValue).1, isZenzControlCodepoint cp = false := by
  have haccept : (validate (kanaInput [])).accept = true := by decide
  exact ⟨haccept, (accept_noControl_iff haccept).mpr (by decide)⟩

/-- The marker of the right context is accepted. -/
theorem accept_rightContextBegin :
    ¬ (∀ input : ZenzValidationInput, (validate input).accept = true →
      ∀ cp ∈ (decodeAll input.zenzValue).1, isZenzControlCodepoint cp = false) := by
  intro h
  have hmarker := h (kanaInput kZenzRightContextBegin) (by decide) 0xEE07 (by decide)
  exact absurd hmarker (by decide)

end MozkeyZenz
