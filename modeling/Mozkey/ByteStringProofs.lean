import Mathlib

/-! # Byte strings — `std::string` as a list of bytes

    A string of the program is a list of bytes.  Comparison is lexicographic on
    unsigned bytes, the order of `std::string::compare`; `ascii` spells the
    string constants of the source. -/

namespace ByteString

/-- The bytes of a `std::string` or `absl::string_view`. -/
abbrev Bytes := List UInt8

/-- Bytes are ordered as unsigned numbers. -/
instance linearOrderUInt8 : LinearOrder UInt8 where
  le_refl := UInt8.le_refl
  le_trans _ _ _ := UInt8.le_trans
  le_antisymm _ _ := UInt8.le_antisymm
  le_total := UInt8.le_total
  lt_iff_le_not_ge a b := by
    rw [UInt8.lt_iff_toNat_lt, UInt8.le_iff_toNat_le, UInt8.le_iff_toNat_le]
    omega
  toDecidableLE := inferInstance
  toDecidableLT := inferInstance
  toDecidableEq := inferInstance

/-- Strings are compared byte by byte. -/
instance lawfulBEqBytes : LawfulBEq Bytes := inferInstance

/-- The bytes of an ASCII string constant. -/
def ascii (s : String) : Bytes := s.toList.map (fun c => UInt8.ofNat c.toNat)

/-- The byte of an ASCII character constant. -/
def chr (c : Char) : UInt8 := UInt8.ofNat c.toNat

/-- `std::to_string` of an unsigned number. -/
def decimal (n : Nat) : Bytes := (Nat.toDigits 10 n).map chr

/-- `absl::StrAppend` of an `int`. -/
def decimalInt (n : Int) : Bytes :=
  if n < 0 then ascii "-" ++ decimal n.natAbs else decimal n.natAbs

example : ascii "v2" = [0x76, 0x32] := by decide

end ByteString
