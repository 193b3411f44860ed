import Mozkey.ByteStringProofs

/-! # Little-endian words — fixed-width loads and stores

    `storeLE w n` is the `w`-byte little-endian spelling of `n`, `loadLE` reads a
    byte string as a number.  The two are inverse on numbers that fit, which is
    all that unaligned loads and stores of unsigned integers need. -/

namespace LittleEndian

open ByteString

/-- The `w` low bytes of `n`, least significant first. -/
def storeLE : Nat → Nat → Bytes
  | 0, _ => []
  | w + 1, n => UInt8.ofNat (n % 256) :: storeLE w (n / 256)

/-- The number a byte string spells, least significant byte first. -/
def loadLE : Bytes → Nat
  | [] => 0
  | b :: bs => b.toNat + 256 * loadLE bs

/-- A word takes its bytes. -/
@[simp] theorem length_storeLE (w n : Nat) : (storeLE w n).length = w := by
  induction w generalizing n with
  | zero => rfl
  | succ w ih => rw [storeLE, List.length_cons, ih]

/-- **LOAD INVERTS STORE** on numbers that fit the width. -/
theorem loadLE_storeLE {w n : Nat} (h : n < 256 ^ w) : loadLE (storeLE w n) = n := by
  induction w generalizing n with
  | zero =>
    rw [Nat.pow_zero] at h
    show 0 = n
    omega
  | succ w ih =>
    have hdiv : n / 256 < 256 ^ w := by
      rw [Nat.div_lt_iff_lt_mul (by decide)]
      rw [Nat.pow_succ] at h
      exact h
    rw [storeLE, loadLE, ih hdiv]
    have hbyte : (UInt8.ofNat (n % 256)).toNat = n % 256 := by
      rw [UInt8.toNat_ofNat']
      exact Nat.mod_eq_of_lt (Nat.mod_lt _ (by decide))
    rw [hbyte]
    omega

theorem storeLE_zero (w : Nat) : storeLE w 0 = List.replicate w 0 := by
  induction w with
  | zero => rfl
  | succ w ih => rw [storeLE, Nat.zero_mod, Nat.zero_div, ih]; rfl

end LittleEndian
