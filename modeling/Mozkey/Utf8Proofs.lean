import Mozkey.ByteStringProofs

/-! # Util — code points and their UTF-8 spelling

    `CodepointToUtf8Append` spells a code point and `SplitFirstChar32` reads one back; the
    iterator over a string reads until the first error.  U+0000 is spelled as nothing. -/

namespace MozkeyUtil

open ByteString

/-! ## Spelling -/

/-- The bytes that `CodepointToUtf8Append` appends. -/
def codepointToUtf8 (c : Nat) : Bytes :=
  if c = 0 then []
  else if c < 0x80 then [UInt8.ofNat (c &&& 0xFF)]
  else if c < 0x800 then
    [UInt8.ofNat (0xC0 + ((c >>> 6) &&& 0x1F)), UInt8.ofNat (0x80 + (c &&& 0x3F))]
  else if c < 0x10000 then
    [UInt8.ofNat (0xE0 + ((c >>> 12) &&& 0x0F)), UInt8.ofNat (0x80 + ((c >>> 6) &&& 0x3F)),
      UInt8.ofNat (0x80 + (c &&& 0x3F))]
  else if c < 0x200000 then
    [UInt8.ofNat (0xF0 + ((c >>> 18) &&& 0x07)), UInt8.ofNat (0x80 + ((c >>> 12) &&& 0x3F)),
      UInt8.ofNat (0x80 + ((c >>> 6) &&& 0x3F)), UInt8.ofNat (0x80 + (c &&& 0x3F))]
  else if c < 0x8000000 then
    [UInt8.ofNat (0xF8 + ((c >>> 24) &&& 0x03)), UInt8.ofNat (0x80 + ((c >>> 18) &&& 0x3F)),
      UInt8.ofNat (0x80 + ((c >>> 12) &&& 0x3F)), UInt8.ofNat (0x80 + ((c >>> 6) &&& 0x3F)),
      UInt8.ofNat (0x80 + (c &&& 0x3F))]
  else
    [UInt8.ofNat (0xFC + ((c >>> 30) &&& 0x01)), UInt8.ofNat (0x80 + ((c >>> 24) &&& 0x3F)),
      UInt8.ofNat (0x80 + ((c >>> 18) &&& 0x3F)), UInt8.ofNat (0x80 + ((c >>> 12) &&& 0x3F)),
      UInt8.ofNat (0x80 + ((c >>> 6) &&& 0x3F)), UInt8.ofNat (0x80 + (c &&& 0x3F))]

/-! ## Reading -/

/-- `IsUtf8TrailingByte`. -/
def isUtf8TrailingByte (c : UInt8) : Bool := c &&& 0xc0 == 0x80

/-- `len`, `min_value`, `max_value` and the first part of `result`, by the leading byte. -/
def leadingByte (leading : UInt8) : Option (Nat × Nat × Nat × Nat) :=
  if leading &&& 0xe0 = 0xc0 then some (2, 0x80, 0x7ff, (leading &&& 0x1f).toNat)
  else if leading &&& 0xf0 = 0xe0 then some (3, 0x800, 0xffff, (leading &&& 0x0f).toNat)
  else if leading &&& 0xf8 = 0xf0 then some (4, 0x10000, 0x1fffff, (leading &&& 0x07).toNat)
  else if leading &&& 0xfc = 0xf8 then some (5, 0x200000, 0x3ffffff, (leading &&& 0x03).toNat)
  else if leading &&& 0xfe = 0xfc then some (6, 0x4000000, 0x7fffffff, (leading &&& 0x01).toNat)
  else none

/-- The loop over the trailing bytes. -/
def readTrailing (bytes : Bytes) (result : Nat) : Option Nat :=
  bytes.foldlM (fun result c =>
    if isUtf8TrailingByte c then some ((result <<< 6) + (c &&& 0x3f).toNat) else none) result

/-- `SplitFirstChar32`; `none` where it returns `false`. -/
def splitFirstChar32 : Bytes → Option (Nat × Bytes)
  | [] => none
  | leading :: tail =>
    if leading < 0x80 then some (leading.toNat, tail)
    else if isUtf8TrailingByte leading then none
    else
      match leadingByte leading with
      | none => none
      | some (len, minValue, maxValue, first) =>
        if (leading :: tail).length < len then none
        else
          match readTrailing (tail.take (len - 1)) first with
          | none => none
          | some result =>
            if result < minValue ∨ maxValue < result then none
            else some (result, tail.drop (len - 1))

/-- The code points of a `ConstChar32Iterator`; it is done at the first error, and every
    step takes a byte at least. -/
def chars32Loop : Nat → Bytes → List Nat
  | 0, _ => []
  | fuel + 1, s =>
    match splitFirstChar32 s with
    | none => []
    | some (c, rest) => c :: chars32Loop fuel rest

/-- The code points of a `ConstChar32Iterator`. -/
def chars32 (s : Bytes) : List Nat := chars32Loop s.length s

/-- The loop of `IsValidUtf8`. -/
def isValidUtf8Loop : Nat → Bytes → Bool
  | 0, s => s.isEmpty
  | fuel + 1, s =>
    if s.isEmpty then true
    else
      match splitFirstChar32 s with
      | none => false
      | some (_, rest) => isValidUtf8Loop fuel rest

/-- `IsValidUtf8`; every step takes a byte at least. -/
def isValidUtf8 (s : Bytes) : Bool := isValidUtf8Loop s.length s

/-- `OneCharLen`, by the first byte. -/
def oneCharLen (c : UInt8) : Nat :=
  if c < 0xc2 then 1 else if c < 0xe0 then 2 else if c < 0xf0 then 3 else if c < 0xf5 then 4 else 1

/-- The loop of `CharsLen`. -/
def charsLenLoop : Nat → Bytes → Nat
  | 0, _ => 0
  | _ + 1, [] => 0
  | fuel + 1, c :: rest => charsLenLoop fuel ((c :: rest).drop (oneCharLen c)) + 1

/-- `CharsLen`. -/
def charsLen (s : Bytes) : Nat := charsLenLoop s.length s

/-! ## Forms of several bytes -/

/-- Masking with the lowest bits. -/
theorem and_mask {n : Nat} (mask m k : Nat) (hm : m = 2 ^ k := by rfl)
    (h : mask + 1 = m := by rfl) : n &&& mask = n % m := by
  subst hm
  rw [← Nat.and_two_pow_sub_one_eq_mod, ← h, Nat.add_sub_cancel]

/-- The trailing byte of six bits. -/
def trailingByte (x : Nat) : UInt8 := UInt8.ofNat (0x80 + x)

/-- The bits of a leading byte with those of the trailing bytes. -/
def codepoint (first : Nat) (xs : List Nat) : Nat :=
  xs.foldl (fun result x => result * 0x40 + x) first

/-- The six bits of the trailing bytes. -/
def trailingBits : Nat → Nat → List Nat
  | 0, _ => []
  | n + 1, c => c / 0x40 ^ n % 0x40 :: trailingBits n c

/-- A form of several bytes: the mark of its leading byte and how many values this byte holds
    beside it, the number of trailing bytes, and the least code point that is read of it. -/
structure Utf8Form where
  mark : Nat
  room : Nat
  trailing : Nat
  minValue : Nat
  deriving DecidableEq

namespace Utf8Form

/-- The forms of two to six bytes. -/
def all : List Utf8Form :=
  [⟨0xC0, 0x20, 1, 0x80⟩, ⟨0xE0, 0x10, 2, 0x800⟩, ⟨0xF0, 0x08, 3, 0x10000⟩,
    ⟨0xF8, 0x04, 4, 0x200000⟩, ⟨0xFC, 0x02, 5, 0x4000000⟩]

/-- The form that the encoder takes for what is not ASCII. -/
def of (c : Nat) : Utf8Form :=
  if c < 0x800 then ⟨0xC0, 0x20, 1, 0x80⟩
  else if c < 0x10000 then ⟨0xE0, 0x10, 2, 0x800⟩
  else if c < 0x200000 then ⟨0xF0, 0x08, 3, 0x10000⟩
  else if c < 0x8000000 then ⟨0xF8, 0x04, 4, 0x200000⟩
  else ⟨0xFC, 0x02, 5, 0x4000000⟩

/-- How many code points a form has the bits for. -/
def size (form : Utf8Form) : Nat := form.room * 0x40 ^ form.trailing

/-- The first byte, with its bits of the code point. -/
def leading (form : Utf8Form) (x : Nat) : UInt8 := UInt8.ofNat (form.mark + x)

/-- The spelling of a code point in a form. -/
def spell (form : Utf8Form) (c : Nat) : Bytes :=
  form.leading (c / 0x40 ^ form.trailing % form.room) ::
    (trailingBits form.trailing c).map trailingByte

variable {c : Nat}

theorem of_mem (c : Nat) : of c ∈ all := by
  rw [of]
  split_ifs <;> decide

/-- What the decoder knows of a leading byte. -/
theorem leading_spec : ∀ form ∈ all, ∀ x < form.room, ¬ form.leading x < 0x80 ∧
    isUtf8TrailingByte (form.leading x) = false ∧
    leadingByte (form.leading x) = some (form.trailing + 1, form.minValue, form.size - 1, x) := by
  decide +kernel

theorem exists_of_leadingByte {b : UInt8} {read : Nat × Nat × Nat × Nat}
    (h : leadingByte b = some read) : ∃ form ∈ all, read.2.2.2 < form.room ∧
      read = (form.trailing + 1, form.minValue, form.size - 1, read.2.2.2) ∧
      b = form.leading read.2.2.2 := by
  have hall : ∀ n < 256, ∀ read ∈ leadingByte (UInt8.ofNat n), ∃ form ∈ all,
      read.2.2.2 < form.room ∧
      read = (form.trailing + 1, form.minValue, form.size - 1, read.2.2.2) ∧
      UInt8.ofNat n = form.leading read.2.2.2 := by decide +kernel
  have hb := hall b.toNat b.toNat_lt
  rw [UInt8.ofNat_toNat] at hb
  exact hb read h

theorem bounds : ∀ form ∈ all, 0 < form.room ∧ 0 < form.size ∧ form.size ≤ 0x80000000 ∧
    0x80 ≤ form.minValue := by
  decide

/-- **THE ENCODER TAKES A FORM.** -/
theorem codepointToUtf8_eq (hc : 0x80 ≤ c) : codepointToUtf8 c = (of c).spell c := by
  rw [codepointToUtf8, if_neg (by omega), if_neg (by omega), of]
  simp only [Nat.shiftRight_eq_div_pow, and_mask 0x01 0x02 1, and_mask 0x03 0x04 2,
    and_mask 0x07 0x08 3, and_mask 0x0F 0x10 4, and_mask 0x1F 0x20 5, and_mask 0x3F 0x40 6]
  split_ifs <;> simp [spell, leading, trailingBits, trailingByte]

end Utf8Form

/-! ## The bits of a code point -/

theorem length_trailingBits (n c : Nat) : (trailingBits n c).length = n := by
  induction n with
  | zero => rfl
  | succ n ih => rw [trailingBits, List.length_cons, ih]

theorem trailingBits_lt (n c : Nat) : ∀ x ∈ trailingBits n c, x < 0x40 := by
  induction n with
  | zero => exact fun x hx => absurd hx List.not_mem_nil
  | succ n ih => exact List.forall_mem_cons.mpr ⟨Nat.mod_lt _ (by decide), ih⟩

theorem codepoint_trailingBits (n : Nat) : ∀ first c,
    codepoint first (trailingBits n c) = first * 0x40 ^ n + c % 0x40 ^ n := by
  induction n with
  | zero =>
    intro first c
    rw [Nat.pow_zero, Nat.mod_one, Nat.mul_one]
    rfl
  | succ n ih =>
    intro first c
    have hmod : c % (0x40 ^ n * 0x40) = c % 0x40 ^ n + 0x40 ^ n * (c / 0x40 ^ n % 0x40) :=
      Nat.mod_mul
    calc codepoint first (trailingBits (n + 1) c)
        = codepoint (first * 0x40 + c / 0x40 ^ n % 0x40) (trailingBits n c) := rfl
      _ = (first * 0x40 + c / 0x40 ^ n % 0x40) * 0x40 ^ n + c % 0x40 ^ n := ih _ c
      _ = first * 0x40 ^ (n + 1) + c % 0x40 ^ (n + 1) := by
          rw [Nat.pow_succ, hmod]
          ring

variable {xs : List Nat}

theorem trailingBits_codepoint (hxs : ∀ x ∈ xs, x < 0x40) : ∀ first,
    trailingBits xs.length (codepoint first xs) = xs ∧
      codepoint first xs / 0x40 ^ xs.length = first := by
  induction xs with
  | nil => exact fun first => ⟨rfl, Nat.div_one first⟩
  | cons x xs ih =>
    intro first
    obtain ⟨hx, hxs⟩ := List.forall_mem_cons.mp hxs
    obtain ⟨hbits, hfirst⟩ := ih hxs (first * 0x40 + x)
    have hcons : codepoint first (x :: xs) = codepoint (first * 0x40 + x) xs := rfl
    rw [hcons, List.length_cons, trailingBits, hbits, hfirst, Nat.pow_succ,
      ← Nat.div_div_eq_div_mul, hfirst]
    exact ⟨by rw [show (first * 0x40 + x) % 0x40 = x by omega], by omega⟩

/-! ## Reading inverts spelling -/

theorem trailing_spec : ∀ x < 0x40, isUtf8TrailingByte (trailingByte x) = true ∧
    (trailingByte x &&& 0x3f).toNat = x := by decide

theorem readTrailing_map (hxs : ∀ x ∈ xs, x < 0x40) : ∀ first,
    readTrailing (xs.map trailingByte) first = some (codepoint first xs) := by
  induction xs with
  | nil => exact fun _ => rfl
  | cons x xs ih =>
    intro first
    obtain ⟨hx, hxs⟩ := List.forall_mem_cons.mp hxs
    obtain ⟨htrail, hvalue⟩ := trailing_spec x hx
    rw [List.map_cons, readTrailing, List.foldlM_cons, if_pos htrail, hvalue, Nat.shiftLeft_eq]
    exact ih hxs _

/-- **A FORM IS READ** as the code point of its bits, if this is in the range. -/
theorem splitFirstChar32_spell {form : Utf8Form} (hform : form ∈ Utf8Form.all) (c : Nat)
    (rest : Bytes) : splitFirstChar32 (form.spell c ++ rest)
      = if c % form.size < form.minValue then none else some (c % form.size, rest) := by
  obtain ⟨hroom, hsize, -, -⟩ := Utf8Form.bounds form hform
  obtain ⟨hascii, htrail, htable⟩ := Utf8Form.leading_spec form hform
    (c / 0x40 ^ form.trailing % form.room) (Nat.mod_lt _ hroom)
  have hvalue : codepoint (c / 0x40 ^ form.trailing % form.room) (trailingBits form.trailing c)
      = c % form.size := by
    rw [codepoint_trailingBits, Utf8Form.size, Nat.mul_comm form.room, Nat.mod_mul]
    ring
  have hlength : ((trailingBits form.trailing c).map trailingByte).length = form.trailing := by
    rw [List.length_map, length_trailingBits]
  rw [Utf8Form.spell, List.cons_append, splitFirstChar32, if_neg hascii,
    if_neg (by rw [htrail]; exact Bool.false_ne_true), htable]
  dsimp only
  rw [if_neg (by rw [List.length_cons, List.length_append, hlength]; omega), Nat.add_sub_cancel,
    List.take_left' hlength, List.drop_left' hlength, readTrailing_map (trailingBits_lt _ c)]
  dsimp only
  have hlt := Nat.mod_lt c hsize
  rw [hvalue]
  exact if_congr (or_iff_left (by omega)) rfl rfl

variable {c : Nat}

/-- The code points that are spelled with five bytes, but need a bit more. -/
def NeedsSixBytes (c : Nat) : Prop := 0x4000000 ≤ c ∧ c < 0x8000000

instance : DecidablePred NeedsSixBytes := fun _ => inferInstanceAs (Decidable (_ ∧ _))

/-- The code points that are spelled as they are read. -/
structure IsSpelt (c : Nat) : Prop where
  pos : 0 < c
  le : c ≤ 0x7fffffff
  not_needsSixBytes : ¬ NeedsSixBytes c

theorem isSpelt_of_lt (hpos : 0 < c) (hc : c < 0x200000) : IsSpelt c :=
  ⟨hpos, by omega, fun hneeds => by have := hneeds.1; omega⟩

theorem IsSpelt.bounds (h : IsSpelt c) (hascii : 0x80 ≤ c) :
    (Utf8Form.of c).minValue ≤ c ∧ c < (Utf8Form.of c).size := by
  obtain ⟨-, hle, hneeds⟩ := h
  rw [NeedsSixBytes] at hneeds
  rw [Utf8Form.of]
  split_ifs <;> simp only [Utf8Form.size] <;> omega

theorem codepointToUtf8_of_ascii (hpos : 0 < c) (hc : c < 0x80) :
    codepointToUtf8 c = [UInt8.ofNat c] := by
  rw [codepointToUtf8, if_neg hpos.ne', if_pos hc, and_mask 0xFF 0x100 8,
    Nat.mod_eq_of_lt (by omega)]

/-- **READING INVERTS SPELLING.** -/
theorem read_of_spelled (h : IsSpelt c) (rest : Bytes) :
    splitFirstChar32 (codepointToUtf8 c ++ rest) = some (c, rest) := by
  by_cases hascii : c < 0x80
  · have hbyte : ∀ n < 0x80, UInt8.ofNat n < 0x80 ∧ (UInt8.ofNat n).toNat = n := by decide
    obtain ⟨hlt, hvalue⟩ := hbyte c hascii
    rw [codepointToUtf8_of_ascii h.pos hascii, List.singleton_append, splitFirstChar32, if_pos hlt,
      hvalue]
  · obtain ⟨hmin, hmax⟩ := h.bounds (Nat.le_of_not_lt hascii)
    rw [Utf8Form.codepointToUtf8_eq (Nat.le_of_not_lt hascii),
      splitFirstChar32_spell (Utf8Form.of_mem c), Nat.mod_eq_of_lt hmax,
      if_neg (Nat.not_lt.mpr hmin)]

theorem splitFirstChar32_codepointToUtf8 (hpos : 0 < c) (hc : c < 0x200000) (rest : Bytes) :
    splitFirstChar32 (codepointToUtf8 c ++ rest) = some (c, rest) :=
  read_of_spelled (isSpelt_of_lt hpos hc) rest

theorem codepointToUtf8_ne_nil (hpos : 0 < c) : codepointToUtf8 c ≠ [] := by
  rw [codepointToUtf8, if_neg (Nat.ne_of_gt hpos)]
  repeat' first
    | exact List.cons_ne_nil _ _
    | split

/-- **A SPELLING IS NOT THE BEGINNING OF ANOTHER**: its first byte tells its length. -/
theorem codepointToUtf8_eq_of_append {c' : Nat} {rest rest' : Bytes} (hpos : 0 < c)
    (hpos' : 0 < c') (heq : codepointToUtf8 c ++ rest = codepointToUtf8 c' ++ rest') :
    codepointToUtf8 c = codepointToUtf8 c' := by
  have hlow : ∀ n < 0x80, UInt8.ofNat n < 0x80 := by decide
  have hlead (d : Nat) := Utf8Form.leading_spec _ (Utf8Form.of_mem d) _
    (Nat.mod_lt (d / 0x40 ^ (Utf8Form.of d).trailing) (Utf8Form.bounds _ (Utf8Form.of_mem d)).1)
  by_cases h : c < 0x80 <;> by_cases h' : c' < 0x80
  · rw [codepointToUtf8_of_ascii hpos h, codepointToUtf8_of_ascii hpos' h'] at heq ⊢
    rw [(List.cons.inj heq).1]
  · rw [codepointToUtf8_of_ascii hpos h, Utf8Form.codepointToUtf8_eq (by omega)] at heq
    exact absurd ((List.cons.inj heq).1 ▸ hlow c h) (hlead c').1
  · rw [codepointToUtf8_of_ascii hpos' h', Utf8Form.codepointToUtf8_eq (by omega)] at heq
    exact absurd ((List.cons.inj heq).1.symm ▸ hlow c' h') (hlead c).1
  · rw [Utf8Form.codepointToUtf8_eq (by omega), Utf8Form.codepointToUtf8_eq (by omega)] at heq ⊢
    have htrailing := (hlead c).2.2.symm.trans
      ((congrArg leadingByte (List.cons.inj heq).1).trans (hlead c').2.2)
    refine (List.append_inj heq ?_).1
    simp only [Option.some.injEq, Prod.mk.injEq] at htrailing
    simp only [Utf8Form.spell, List.length_cons, List.length_map, length_trailingBits]
    omega

/-- A code point that takes up to four bytes is told from any other by its spelling. -/
theorem codepointToUtf8_read {c' : Nat} {rest rest' : Bytes} (hpos : 0 < c) (hc : c < 0x200000)
    (hpos' : 0 < c') (heq : codepointToUtf8 c ++ rest = codepointToUtf8 c' ++ rest') :
    c = c' := by
  have hread := splitFirstChar32_codepointToUtf8 hpos hc []
  rw [codepointToUtf8_eq_of_append hpos hpos' heq] at hread
  by_cases hspelt : c' < 0x200000
  · rw [splitFirstChar32_codepointToUtf8 hpos' hspelt] at hread
    exact (Prod.mk.inj (Option.some.inj hread)).1.symm
  · -- more than four bytes are not read as a small code point
    have hmin : 0x200000 ≤ (Utf8Form.of c').minValue := by
      rw [Utf8Form.of, if_neg (by omega), if_neg (by omega), if_neg hspelt]
      split_ifs <;> decide
    rw [Utf8Form.codepointToUtf8_eq (by omega),
      splitFirstChar32_spell (Utf8Form.of_mem c')] at hread
    split at hread
    · cases hread
    · have := (Prod.mk.inj (Option.some.inj hread)).1
      omega

/-! ## Spelling inverts reading -/

variable {s rest : Bytes} {b : UInt8}

theorem readTrailing_inv : ∀ {bytes : Bytes} {first result : Nat},
    readTrailing bytes first = some result → ∃ xs : List Nat,
      bytes = xs.map trailingByte ∧ (∀ x ∈ xs, x < 0x40) ∧ result = codepoint first xs := by
  have hinv : ∀ n < 256, isUtf8TrailingByte (UInt8.ofNat n) = true →
      (UInt8.ofNat n &&& 0x3f).toNat < 0x40 ∧
        UInt8.ofNat n = trailingByte (UInt8.ofNat n &&& 0x3f).toNat := by decide +kernel
  intro bytes
  induction bytes with
  | nil =>
    intro first result h
    exact ⟨[], rfl, fun x hx => absurd hx List.not_mem_nil, (Option.some.inj h).symm⟩
  | cons b bytes ih =>
    intro first result h
    rw [readTrailing, List.foldlM_cons] at h
    by_cases htrail : isUtf8TrailingByte b = true
    · have hb := hinv b.toNat b.toNat_lt
      rw [UInt8.ofNat_toNat] at hb
      obtain ⟨hlt, hbyte⟩ := hb htrail
      rw [if_pos htrail, Nat.shiftLeft_eq] at h
      obtain ⟨xs, rfl, hxs, rfl⟩ := ih h
      exact ⟨(b &&& 0x3f).toNat :: xs, by rw [List.map_cons, ← hbyte],
        List.forall_mem_cons.mpr ⟨hlt, hxs⟩, rfl⟩
    · rw [if_neg htrail] at h
      exact absurd h (by simp)

/-- **WHAT A CHARACTER IS READ OF**: an ASCII byte, or a form with a code point in its range. -/
theorem splitFirstChar32_inv (h : splitFirstChar32 s = some (c, rest)) :
    (∃ b, b < 0x80 ∧ s = b :: rest ∧ c = b.toNat) ∨
      ∃ form ∈ Utf8Form.all, s = form.spell c ++ rest ∧ form.minValue ≤ c ∧ c < form.size := by
  cases s with
  | nil => cases h
  | cons leading tail =>
    rw [splitFirstChar32] at h
    by_cases hascii : leading < 0x80
    · rw [if_pos hascii] at h
      cases h
      exact Or.inl ⟨leading, hascii, rfl, rfl⟩
    rw [if_neg hascii] at h
    split at h
    · cases h
    cases hlead : leadingByte leading with
    | none =>
      rw [hlead] at h
      cases h
    | some read =>
      obtain ⟨form, hform, hroom, hread, rfl⟩ := Utf8Form.exists_of_leadingByte hlead
      obtain ⟨len, minValue, maxValue, first⟩ := read
      cases hread
      rw [hlead] at h
      dsimp only at h hroom ⊢
      split at h
      · cases h
      rename_i hlen
      rw [List.length_cons] at hlen
      cases hread : readTrailing (tail.take (form.trailing + 1 - 1)) first with
      | none =>
        rw [hread] at h
        cases h
      | some result =>
        rw [hread] at h
        dsimp only at h
        split at h
        · cases h
        rename_i hrange
        cases h
        rw [Nat.add_sub_cancel] at hread ⊢
        obtain ⟨xs, htake, hxs, rfl⟩ := readTrailing_inv hread
        have hcount := congrArg List.length htake
        rw [List.length_take, List.length_map] at hcount
        obtain ⟨hbits, hfirst⟩ := trailingBits_codepoint hxs first
        rw [show xs.length = form.trailing by omega] at hbits hfirst
        have hsize := (Utf8Form.bounds form hform).2.1
        refine Or.inr ⟨form, hform, ?_, by omega, by omega⟩
        rw [Utf8Form.spell, hbits, hfirst, Nat.mod_eq_of_lt hroom, ← htake, List.cons_append,
          List.take_append_drop]

theorem Utf8Form.of_eq {form : Utf8Form} (hform : form ∈ Utf8Form.all) (hmin : form.minValue ≤ c)
    (hmax : c < form.size) (hneeds : ¬ NeedsSixBytes c) : Utf8Form.of c = form := by
  rw [NeedsSixBytes] at hneeds
  simp only [Utf8Form.all, List.mem_cons, List.not_mem_nil, or_false] at hform
  rw [Utf8Form.of]
  obtain rfl | rfl | rfl | rfl | rfl := hform <;> simp only [Utf8Form.size] at hmin hmax <;>
    split_ifs <;> first | rfl | omega

/-- **SPELLING INVERTS READING.** -/
theorem spelled_of_read (h : IsSpelt c) (hread : splitFirstChar32 s = some (c, rest)) :
    s = codepointToUtf8 c ++ rest := by
  obtain ⟨b, hb, rfl, rfl⟩ | ⟨form, hform, rfl, hmin, hmax⟩ := splitFirstChar32_inv hread
  · rw [codepointToUtf8_of_ascii h.pos hb, UInt8.ofNat_toNat, List.singleton_append]
  · have hascii := (Utf8Form.bounds form hform).2.2.2
    rw [Utf8Form.codepointToUtf8_eq (hascii.trans hmin),
      Utf8Form.of_eq hform hmin hmax h.not_needsSixBytes]

theorem le_of_splitFirstChar32 (h : splitFirstChar32 s = some (c, rest)) : c ≤ 0x7fffffff := by
  obtain ⟨b, hb, -, rfl⟩ | ⟨form, hform, -, -, hmax⟩ := splitFirstChar32_inv h
  · have := b.toNat_lt
    omega
  · have := (Utf8Form.bounds form hform).2.2.1
    omega

theorem suffix_of_splitFirstChar32 (h : splitFirstChar32 s = some (c, rest)) : rest <:+ s := by
  obtain ⟨b, -, rfl, -⟩ | ⟨form, -, rfl, -, -⟩ := splitFirstChar32_inv h
  · exact List.suffix_cons b rest
  · exact List.suffix_append _ rest

theorem length_of_splitFirstChar32 (h : splitFirstChar32 s = some (c, rest)) :
    rest.length < s.length := by
  obtain ⟨b, -, rfl, -⟩ | ⟨form, -, rfl, -, -⟩ := splitFirstChar32_inv h
  · exact Nat.lt_succ_self _
  · rw [Utf8Form.spell, List.length_append, List.length_cons]
    omega

/-! ## The code points of a string -/

theorem chars32Loop_eq : ∀ (fuel : Nat) {s : Bytes}, s.length ≤ fuel →
    chars32Loop fuel s = chars32 s := by
  have hrun : ∀ (fuel fuel' : Nat) {s : Bytes}, s.length ≤ fuel → s.length ≤ fuel' →
      chars32Loop fuel s = chars32Loop fuel' s := by
    intro fuel
    induction fuel with
    | zero =>
      intro fuel' s hfuel _
      obtain rfl := List.length_eq_zero_iff.mp (Nat.le_zero.mp hfuel)
      cases fuel' <;> rfl
    | succ fuel ih =>
      intro fuel' s hfuel hfuel'
      cases fuel' with
      | zero =>
        obtain rfl := List.length_eq_zero_iff.mp (Nat.le_zero.mp hfuel')
        rfl
      | succ fuel' =>
        rw [chars32Loop, chars32Loop]
        cases hread : splitFirstChar32 s with
        | none => rfl
        | some read =>
          have hlength := length_of_splitFirstChar32 hread
          exact congrArg (List.cons _) (ih fuel' (by omega) (by omega))
  exact fun fuel s hfuel => hrun fuel s.length hfuel (Nat.le_refl _)

theorem chars32_of_none (h : splitFirstChar32 s = none) : chars32 s = [] := by
  rw [← chars32Loop_eq (s.length + 1) (Nat.le_succ _), chars32Loop, h]

theorem chars32_of_some (h : splitFirstChar32 s = some (c, rest)) :
    chars32 s = c :: chars32 rest := by
  have hlength := length_of_splitFirstChar32 h
  rw [← chars32Loop_eq (s.length + 1) (Nat.le_succ _), chars32Loop, h]
  exact congrArg (List.cons c) (chars32Loop_eq _ (Nat.le_of_lt hlength))

theorem exists_read_of_mem (h : c ∈ chars32 s) :
    ∃ s' rest, s' <:+ s ∧ splitFirstChar32 s' = some (c, rest) := by
  rw [chars32] at h
  generalize s.length = fuel at h
  induction fuel generalizing s with
  | zero => cases h
  | succ fuel ih =>
    rw [chars32Loop] at h
    cases hread : splitFirstChar32 s with
    | none =>
      rw [hread] at h
      cases h
    | some read =>
      rw [hread] at h
      rcases List.mem_cons.mp h with rfl | h
      · exact ⟨s, _, List.suffix_rfl, hread⟩
      · obtain ⟨s', rest, hs', hread'⟩ := ih h
        exact ⟨s', rest, hs'.trans (suffix_of_splitFirstChar32 hread), hread'⟩

theorem le_of_mem_chars32 (h : c ∈ chars32 s) : c ≤ 0x7fffffff := by
  obtain ⟨s', rest, -, hread⟩ := exists_read_of_mem h
  exact le_of_splitFirstChar32 hread

variable {cs : List Nat}

/-- **WHAT IS SPELLED IS READ** before whatever is behind it. -/
theorem chars32_append {word : Nat → Bytes}
    (hcs : ∀ c ∈ cs, ∀ t, splitFirstChar32 (word c ++ t) = some (c, t)) (t : Bytes) :
    chars32 (cs.flatMap word ++ t) = cs ++ chars32 t := by
  induction cs with
  | nil => rfl
  | cons c cs ih =>
    obtain ⟨hc, hcs⟩ := List.forall_mem_cons.mp hcs
    rw [List.flatMap_cons, List.append_assoc, chars32_of_some (hc _), ih hcs]
    rfl

/-- **THE ITERATOR READS THE SPELLED CODE POINTS.** -/
theorem chars32_flatMap (hcs : ∀ c ∈ cs, 0 < c ∧ c < 0x200000) :
    chars32 (cs.flatMap codepointToUtf8) = cs := by
  have hread := chars32_append
    (fun c hc t => splitFirstChar32_codepointToUtf8 (hcs c hc).1 (hcs c hc).2 t) []
  rwa [List.append_nil, show chars32 [] = [] from rfl, List.append_nil] at hread

/-! ## Valid strings -/

/-- Unicode scalar values. -/
def IsScalar (c : Nat) : Prop := c < 0xd800 ∨ (0xe000 ≤ c ∧ c ≤ 0x10ffff)

instance (c : Nat) : Decidable (IsScalar c) := inferInstanceAs (Decidable (_ ∨ _))

theorem IsScalar.lt (h : IsScalar c) : c < 0x200000 := by
  rw [IsScalar] at h
  omega

/-- The UTF-8 spelling of a scalar value; U+0000 is a zero byte. -/
def utf8 (c : Nat) : Bytes := if c = 0 then [0] else codepointToUtf8 c

/-- Valid UTF-8. -/
def ValidUtf8 (s : Bytes) : Prop := ∃ cs : List Nat, (∀ c ∈ cs, IsScalar c) ∧ s = cs.flatMap utf8

/-- The spelling of code points other than U+0000. -/
def Spelled (s : Bytes) : Prop :=
  ∃ cs : List Nat, (∀ c ∈ cs, 0 < c ∧ c ≤ 0x10ffff) ∧ s = cs.flatMap codepointToUtf8

/-- **A VALID STRING WITHOUT A ZERO BYTE** is spelled by the encoder. -/
theorem ValidUtf8.spelled (h : ValidUtf8 s) (hnul : (0 : UInt8) ∉ s) : Spelled s := by
  obtain ⟨cs, hcs, rfl⟩ := h
  have hpos : ∀ c ∈ cs, 0 < c := by
    intro c hc
    refine Nat.pos_of_ne_zero ?_
    rintro rfl
    exact hnul (List.mem_flatMap.mpr ⟨0, hc, List.mem_singleton.mpr rfl⟩)
  refine ⟨cs, ?_, ?_⟩
  · intro c hc
    have := hcs c hc
    rw [IsScalar] at this
    exact ⟨hpos c hc, by omega⟩
  · refine List.flatMap_congr ?_
    intro c hc
    rw [utf8, if_neg (Nat.ne_of_gt (hpos c hc))]

theorem Spelled.flatMap_chars32 (h : Spelled s) :
    (chars32 s).flatMap codepointToUtf8 = s ∧ ∀ c ∈ chars32 s, 0 < c ∧ c ≤ 0x10ffff := by
  obtain ⟨cs, hcs, rfl⟩ := h
  rw [chars32_flatMap (fun c hc => ⟨(hcs c hc).1, by have := (hcs c hc).2; omega⟩)]
  exact ⟨rfl, hcs⟩

/-- An ASCII byte in the spelling of a code point is the code point. -/
theorem eq_of_mem_codepointToUtf8 (hb : b < 0x80) (h : b ∈ codepointToUtf8 c) : c = b.toNat := by
  have hhigh : ∀ x < 0x40, ¬ trailingByte x < 0x80 := by decide
  rcases Nat.eq_zero_or_pos c with rfl | hpos
  · cases h
  by_cases hascii : c < 0x80
  · rw [codepointToUtf8_of_ascii hpos hascii, List.mem_singleton] at h
    rw [h, UInt8.toNat_ofNat', Nat.mod_eq_of_lt (by omega)]
  · rw [Utf8Form.codepointToUtf8_eq (Nat.le_of_not_lt hascii)] at h
    rcases List.mem_cons.mp h with rfl | h
    · exact absurd hb (Utf8Form.leading_spec _ (Utf8Form.of_mem c) _
        (Nat.mod_lt _ (Utf8Form.bounds _ (Utf8Form.of_mem c)).1)).1
    · obtain ⟨x, hx, rfl⟩ := List.mem_map.mp h
      exact absurd hb (hhigh x (trailingBits_lt _ _ x hx))

/-! ## Strings with U+0000 -/

theorem zero_notMem_codepointToUtf8 (hpos : 0 < c) : (0 : UInt8) ∉ codepointToUtf8 c :=
  fun hmem => Nat.ne_of_gt hpos (eq_of_mem_codepointToUtf8 (by decide) hmem)

theorem zero_mem_flatMap_utf8 :
    (0 : UInt8) ∈ cs.flatMap utf8 ↔ 0 ∈ cs := by
  rw [List.mem_flatMap]
  constructor
  · rintro ⟨c, hc, hmem⟩
    rcases Nat.eq_zero_or_pos c with rfl | hpos
    · exact hc
    · rw [utf8, if_neg (Nat.ne_of_gt hpos)] at hmem
      exact absurd hmem (zero_notMem_codepointToUtf8 hpos)
  · intro h
    exact ⟨0, h, List.mem_singleton.mpr rfl⟩

theorem splitFirstChar32_utf8 (hc : c < 0x200000) (rest : Bytes) :
    splitFirstChar32 (utf8 c ++ rest) = some (c, rest) := by
  rcases Nat.eq_zero_or_pos c with rfl | hpos
  · rfl
  · rw [utf8, if_neg (Nat.ne_of_gt hpos)]
    exact splitFirstChar32_codepointToUtf8 hpos hc rest

theorem utf8_ne_nil (c : Nat) : utf8 c ≠ [] := by
  rcases Nat.eq_zero_or_pos c with rfl | hpos
  · exact List.cons_ne_nil _ _
  · rw [utf8, if_neg (Nat.ne_of_gt hpos)]
    exact codepointToUtf8_ne_nil hpos

theorem chars32_flatMap_utf8 (hcs : ∀ c ∈ cs, c < 0x200000) :
    chars32 (cs.flatMap utf8) = cs := by
  have hread := chars32_append (fun c hc t => splitFirstChar32_utf8 (hcs c hc) t) []
  rwa [List.append_nil, show chars32 [] = [] from rfl, List.append_nil] at hread

/-- The iterator reads every valid string back. -/
theorem ValidUtf8.flatMap_chars32 (h : ValidUtf8 s) :
    (chars32 s).flatMap utf8 = s ∧ ∀ c ∈ chars32 s, c ≤ 0x10ffff := by
  obtain ⟨cs, hcs, rfl⟩ := h
  have hbounds : ∀ c ∈ cs, c ≤ 0x10ffff := by
    intro c hc
    have := hcs c hc
    rw [IsScalar] at this
    omega
  rw [chars32_flatMap_utf8 (fun c hc => by have := hbounds c hc; omega)]
  exact ⟨rfl, hbounds⟩

theorem Spelled.zero_notMem (h : Spelled s) : (0 : UInt8) ∉ s := by
  obtain ⟨cs, hcs, rfl⟩ := h
  intro hmem
  obtain ⟨c, hc, hmem⟩ := List.mem_flatMap.mp hmem
  exact zero_notMem_codepointToUtf8 (hcs c hc).1 hmem

/-- Up to four bytes, a zero byte is read as U+0000. -/
theorem eq_of_splitFirstChar32 (h : splitFirstChar32 s = some (c, rest)) (hc : c < 0x200000) :
    s = utf8 c ++ rest := by
  rcases Nat.eq_zero_or_pos c with rfl | hpos
  · obtain ⟨b, -, rfl, hb⟩ | ⟨form, hform, -, hmin, -⟩ := splitFirstChar32_inv h
    · rw [show b = 0 from UInt8.toNat_inj.mp hb.symm]
      rfl
    · have := (Utf8Form.bounds form hform).2.2.2
      omega
  · rw [utf8, if_neg hpos.ne']
    exact spelled_of_read (isSpelt_of_lt hpos hc) h

theorem zero_notMem_chars32 (hnul : (0 : UInt8) ∉ s) : 0 ∉ chars32 s := by
  intro hmem
  obtain ⟨s', rest, hs', hread⟩ := exists_read_of_mem hmem
  rw [eq_of_splitFirstChar32 hread (by decide)] at hs'
  exact hnul (hs'.subset List.mem_cons_self)

end MozkeyUtil
