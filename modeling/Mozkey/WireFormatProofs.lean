import Mozkey.ByteStringProofs

/-! # Wire format — numbers and strings as fields of a message

    A number is written seven bits at a time, the lowest first, with the high bit set on every
    byte but the last.  A field is a tag and a number, or a tag, a length and a string. -/

namespace WireFormat

open ByteString

/-- A number of at most `7 * (fuel + 1)` bits. -/
def writeVarint : Nat → Nat → Bytes
  | 0, n => [UInt8.ofNat n]
  | fuel + 1, n =>
    if n < 128 then [UInt8.ofNat n]
    else UInt8.ofNat (n % 128 + 128) :: writeVarint fuel (n / 128)

/-- The number at the front, and what comes behind it. -/
def readVarint : Bytes → Option (Nat × Bytes)
  | [] => none
  | b :: bytes =>
    if b.toNat < 128 then some (b.toNat, bytes)
    else (readVarint bytes).map fun p => (b.toNat - 128 + 128 * p.1, p.2)

/-- **READING INVERTS WRITING** with enough fuel. -/
theorem readVarint_writeVarint (rest : Bytes) :
    ∀ {fuel n : Nat}, n ≤ fuel → readVarint (writeVarint fuel n ++ rest) = some (n, rest) := by
  intro fuel
  induction fuel with
  | zero =>
    intro n h
    obtain rfl := Nat.le_zero.mp h
    rfl
  | succ fuel ih =>
    intro n h
    rw [writeVarint]
    split_ifs with hsmall
    · have hbyte : (UInt8.ofNat n).toNat = n := UInt8.toNat_ofNat_of_lt' (show n < 2 ^ 8 by omega)
      rw [List.singleton_append, readVarint, hbyte, if_pos hsmall]
    · have hbyte : (UInt8.ofNat (n % 128 + 128)).toNat = n % 128 + 128 :=
        UInt8.toNat_ofNat_of_lt' (show _ < 2 ^ 8 by omega)
      rw [List.cons_append, readVarint, hbyte, if_neg (by omega), ih (by omega),
        Option.map_some, show n % 128 + 128 - 128 + 128 * (n / 128) = n by omega]

/-- A field with a number. -/
def writeNumber (tag : UInt8) (n : Nat) : Bytes := tag :: writeVarint n n

/-- A field with a string. -/
def writeString (tag : UInt8) (s : Bytes) : Bytes := writeNumber tag s.length ++ s

/-- The number of the field at the front. -/
def readNumber (tag : UInt8) : Bytes → Option (Nat × Bytes)
  | [] => none
  | b :: bytes => if b = tag then readVarint bytes else none

/-- The string of the field at the front. -/
def readString (tag : UInt8) (bytes : Bytes) : Option (Bytes × Bytes) :=
  (readNumber tag bytes).bind fun p =>
    if p.1 ≤ p.2.length then some (p.2.take p.1, p.2.drop p.1) else none

theorem readNumber_writeNumber (tag : UInt8) (n : Nat) (rest : Bytes) :
    readNumber tag (writeNumber tag n ++ rest) = some (n, rest) := by
  rw [writeNumber, List.cons_append, readNumber, if_pos rfl,
    readVarint_writeVarint rest (Nat.le_refl n)]

theorem readString_writeString (tag : UInt8) (s rest : Bytes) :
    readString tag (writeString tag s ++ rest) = some (s, rest) := by
  rw [writeString, readString, List.append_assoc, readNumber_writeNumber, Option.bind_some]
  dsimp only
  rw [if_pos (by rw [List.length_append]; exact Nat.le_add_right _ _), List.take_left,
    List.drop_left]

/-- The strings of all fields, where every field has the tag. -/
def readStrings (tag : UInt8) : Nat → Bytes → Option (List Bytes)
  | _, [] => some []
  | 0, _ => none
  | fuel + 1, bytes =>
    (readString tag bytes).bind fun p => (readStrings tag fuel p.2).map fun ss => p.1 :: ss

/-- **A REPEATED FIELD IS READ BACK.** -/
theorem readStrings_writeStrings (tag : UInt8) : ∀ {ss : List Bytes} {fuel : Nat},
    (ss.flatMap (writeString tag)).length ≤ fuel →
    readStrings tag fuel (ss.flatMap (writeString tag)) = some ss := by
  intro ss
  induction ss with
  | nil =>
    intro fuel _
    rw [List.flatMap_nil, readStrings.eq_def]
  | cons s ss ih =>
    intro fuel h
    rw [List.flatMap_cons] at h ⊢
    have hpos : 0 < (writeString tag s).length := Nat.succ_pos _
    rw [List.length_append] at h
    obtain ⟨fuel, rfl⟩ := Nat.exists_eq_add_of_lt (Nat.lt_of_lt_of_le hpos
      (Nat.le_trans (Nat.le_add_right _ _) h))
    rw [Nat.zero_add, readStrings, readString_writeString, Option.bind_some]
    · dsimp only
      rw [ih (by omega), Option.map_some]
    · intro hnil
      have := congrArg List.length hnil
      rw [List.length_append, List.length_nil] at this
      omega

end WireFormat
