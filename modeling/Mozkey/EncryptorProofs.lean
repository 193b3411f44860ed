import Mozkey.Aes256Proofs
import Mozkey.ByteStringProofs

/-! # Encryptor — what is encrypted can be read again

    Bytes are padded to whole blocks, each byte of the padding saying how long it is, and the
    blocks are chained: each is added to the transformed one before.  To decrypt is to take the
    blocks back and to look at the padding. -/

namespace MozkeyEncryptor

open ByteString UnverifiedAES256

/-! ## Chained blocks -/

/-- The block that some bytes begin with. -/
def blockOf (buf : Bytes) : Block := Vector.ofFn fun i => buf.getD i 0

/-- The loop of `TransformCBC`. -/
def transformLoop (w : KeySchedule) : Nat → Block → Bytes → Bytes
  | 0, _, buf => buf
  | blockCount + 1, vec, buf =>
    let src := transformECB w (addRoundKey (blockOf buf) vec)
    src.toList ++ transformLoop w blockCount src (buf.drop 16)

/-- `TransformCBC`. -/
def transformCBC (key : Vector UInt8 32) (iv : Block) (buf : Bytes) (blockCount : Nat) : Bytes :=
  transformLoop (makeKeySchedule key) blockCount iv buf

/-- The loop of `InverseTransformCBC`. -/
def inverseTransformLoop (w : KeySchedule) : Nat → Block → Bytes → Bytes
  | 0, _, buf => buf
  | blockCount + 1, prevBlock, buf =>
    let currentBlock := blockOf buf
    (addRoundKey (inverseTransformECB w currentBlock) prevBlock).toList ++
      inverseTransformLoop w blockCount currentBlock (buf.drop 16)

/-- `InverseTransformCBC`. -/
def inverseTransformCBC (key : Vector UInt8 32) (iv : Block) (buf : Bytes) (blockCount : Nat) :
    Bytes :=
  inverseTransformLoop (makeKeySchedule key) blockCount iv buf

/-! ## The encryptor -/

/-- `Encryptor::Key`. -/
structure Key where
  key : Vector UInt8 32
  iv : Block
  isAvailable : Bool

/-- `GetEncryptedSize`: there is always padding. -/
def getEncryptedSize (size : Nat) : Nat := (size / 16 + 1) * 16

/-- `EncryptArray`: whether it succeeds, the buffer and its size. -/
def encryptArray (key : Key) (buf : Bytes) (bufSize : Nat) : Bool × Bytes × Nat :=
  if !key.isAvailable then (false, buf, bufSize)
  else if bufSize = 0 then (false, buf, bufSize)
  else
    let encSize := getEncryptedSize bufSize
    let paddingSize := encSize - bufSize
    let padded := buf.take bufSize ++ List.replicate paddingSize (UInt8.ofNat paddingSize) ++
      buf.drop encSize
    (true, transformCBC key.key key.iv padded (encSize / 16), encSize)

/-- `EncryptString`: whether it succeeds, and the string. -/
def encryptString (key : Key) (data : Bytes) : Bool × Bytes :=
  if data.isEmpty then (false, data)
  else
    let resized := data ++ List.replicate (getEncryptedSize data.length - data.length) 0
    let result := encryptArray key resized data.length
    (result.1, result.2.1)

/-- `DecryptArray`: whether it succeeds, the buffer and its size. -/
def decryptArray (key : Key) (buf : Bytes) (bufSize : Nat) : Bool × Bytes × Nat :=
  if !key.isAvailable then (false, buf, bufSize)
  else if bufSize = 0 then (false, buf, bufSize)
  else if bufSize < 16 ∨ bufSize % 16 ≠ 0 then (false, buf, bufSize)
  else
    let decrypted := inverseTransformCBC key.key key.iv buf (bufSize / 16)
    let paddingValue := decrypted.getD (bufSize - 1) 0
    let paddingSize := paddingValue.toNat
    if paddingValue = 0 ∨ 16 < paddingSize then (false, decrypted, bufSize)
    else if bufSize ≤ paddingSize then (false, decrypted, bufSize)
    else if ((decrypted.take bufSize).drop (bufSize - paddingSize)).any (· != paddingValue) then
      (false, decrypted, bufSize)
    else (true, decrypted, bufSize - paddingSize)

/-- `DecryptString`: whether it succeeds, and the string. -/
def decryptString (key : Key) (data : Bytes) : Bool × Bytes :=
  if data.isEmpty then (false, data)
  else
    let result := decryptArray key data data.length
    (result.1, if result.1 then result.2.1.take result.2.2 else result.2.1)

/-! ## Blocks are taken back -/

variable {w : KeySchedule} {n : Nat} {vec : Block} {buf rest : Bytes}

theorem blockOf_append (block : Block) (rest : Bytes) : blockOf (block.toList ++ rest) = block := by
  ext i hi
  simp [blockOf, List.getElem?_append_left]

theorem drop_toList_append (block : Block) (rest : Bytes) :
    (block.toList ++ rest).drop 16 = rest := by
  rw [List.drop_append_of_le_length (by simp), List.drop_of_length_le (by simp), List.nil_append]

theorem toList_blockOf (h : 16 ≤ buf.length) : (blockOf buf).toList = buf.take 16 := by
  refine List.ext_getElem (by simp [h]) fun i hi hi' => ?_
  have hlt : i < buf.length := by simp at hi'; omega
  simp [blockOf, hlt]

theorem blockOf_take_append (h : 16 ≤ buf.length) : blockOf (buf ++ rest) = blockOf buf := by
  ext i hi
  simp [blockOf, List.getElem?_append_left (show i < buf.length by omega)]

theorem length_transformLoop (h : 16 * n ≤ buf.length) :
    (transformLoop w n vec buf).length = buf.length := by
  induction n generalizing vec buf with
  | zero => rfl
  | succ n ih =>
    rw [transformLoop, List.length_append, Vector.length_toList, ih (by simp; omega),
      List.length_drop]
    omega

/-- **CHAINED BLOCKS ARE TAKEN BACK**. -/
theorem inverseTransformLoop_transformLoop (h : 16 * n ≤ buf.length) :
    inverseTransformLoop w n vec (transformLoop w n vec buf) = buf := by
  induction n generalizing vec buf with
  | zero => rfl
  | succ n ih =>
    rw [transformLoop, inverseTransformLoop, blockOf_append, drop_toList_append,
      inverseTransformECB_transformECB, addRoundKey_addRoundKey, ih (by simp; omega),
      toList_blockOf (by omega), List.take_append_drop]

/-- There are finitely many blocks, so that what takes every block back is taken back too. -/
theorem transformECB_inverseTransformECB (w : KeySchedule) (block : Block) :
    transformECB w (inverseTransformECB w block) = block := by
  have hleft : Function.LeftInverse (inverseTransformECB w) (transformECB w) :=
    fun block => inverseTransformECB_transformECB block w
  have hfinite : Finite Block :=
    Finite.of_injective (fun (v : Block) (i : Fin 16) => v[i]) fun v v' h =>
      Vector.ext fun i hi => congrFun h ⟨i, hi⟩
  exact hleft.rightInverse_of_surjective (Finite.surjective_of_injective hleft.injective) block

theorem transformLoop_inverseTransformLoop (h : buf.length = 16 * n) :
    transformLoop w n vec (inverseTransformLoop w n vec buf) = buf := by
  induction n generalizing vec buf with
  | zero => rfl
  | succ n ih =>
    rw [inverseTransformLoop, transformLoop, blockOf_append, drop_toList_append,
      addRoundKey_addRoundKey, transformECB_inverseTransformECB, ih (by simp; omega),
      toList_blockOf (by omega), List.take_append_drop]

theorem inverseTransformLoop_append (h : buf.length = 16 * n) :
    inverseTransformLoop w n vec (buf ++ rest) = inverseTransformLoop w n vec buf ++ rest ∧
      (inverseTransformLoop w n vec buf).length = buf.length := by
  induction n generalizing vec buf with
  | zero => exact ⟨rfl, rfl⟩
  | succ n ih =>
    obtain ⟨happend, hlength⟩ := @ih (blockOf buf) (buf.drop 16) (by simp; omega)
    rw [inverseTransformLoop, inverseTransformLoop, blockOf_take_append (by omega),
      List.drop_append_of_le_length (by omega), happend]
    refine ⟨by rw [List.append_assoc], ?_⟩
    rw [List.length_append, hlength, Vector.length_toList, List.length_drop]
    omega

/-! ## The padding -/

theorem padding_le (size : Nat) :
    1 ≤ getEncryptedSize size - size ∧ getEncryptedSize size - size ≤ 16 := by
  rw [getEncryptedSize]
  omega

/-- The bytes that `DecryptArray` looks at. -/
def decryptedBlocks (key : Key) (buf : Bytes) (bufSize : Nat) : Bytes :=
  inverseTransformCBC key.key key.iv (buf.take bufSize) (bufSize / 16)

theorem decrypted_eq (key : Key) {bufSize : Nat} (h : bufSize ≤ buf.length)
    (hblocks : bufSize % 16 = 0) :
    inverseTransformCBC key.key key.iv buf (bufSize / 16) =
        decryptedBlocks key buf bufSize ++ buf.drop bufSize ∧
      (decryptedBlocks key buf bufSize).length = bufSize := by
  have hlength : (buf.take bufSize).length = bufSize := List.length_take_of_le h
  obtain ⟨happend, hsame⟩ := @inverseTransformLoop_append (makeKeySchedule key.key) (bufSize / 16)
    key.iv (buf.take bufSize) (buf.drop bufSize) (by omega)
  rw [List.take_append_drop] at happend
  exact ⟨happend, hsame.trans hlength⟩

/-- **WHAT `DecryptArray` ACCEPTS** ends with its padding; whatever it does, the bytes behind the
    buffer stay. -/
theorem decryptArray_spec (key : Key) (buf : Bytes) (bufSize : Nat) (h : bufSize ≤ buf.length) :
    let result := decryptArray key buf bufSize
    result.2.1.length = buf.length ∧ result.2.1.drop bufSize = buf.drop bufSize ∧
      (result.1 = true → ∃ padding, 1 ≤ padding ∧ padding ≤ 16 ∧ padding < bufSize ∧
        result.2.2 = bufSize - padding ∧
        decryptedBlocks key buf bufSize =
          result.2.1.take result.2.2 ++ List.replicate padding (UInt8.ofNat padding)) := by
  dsimp only
  rw [decryptArray]
  by_cases hrefused : key.isAvailable = false ∨ bufSize = 0 ∨ bufSize < 16 ∨ bufSize % 16 ≠ 0
  · have hsame {result : Bool × Bytes × Nat} : (if !key.isAvailable then (false, buf, bufSize)
        else if bufSize = 0 then (false, buf, bufSize)
        else if bufSize < 16 ∨ bufSize % 16 ≠ 0 then (false, buf, bufSize) else result) =
          (false, buf, bufSize) := by
      split_ifs <;> simp_all
    rw [hsame]
    exact ⟨rfl, rfl, nofun⟩
  · rw [not_or, not_or] at hrefused
    obtain ⟨havailable, hempty, hblocks⟩ := hrefused
    rw [if_neg (by simpa using havailable), if_neg hempty, if_neg hblocks]
    obtain ⟨hdecrypted, hlength⟩ := decrypted_eq key h (by omega)
    rw [hdecrypted]
    generalize decryptedBlocks key buf bufSize = blocks at hdecrypted hlength
    have hkept : (blocks ++ buf.drop bufSize).length = buf.length ∧
        (blocks ++ buf.drop bufSize).drop bufSize = buf.drop bufSize := by
      rw [List.length_append, hlength, List.length_drop]
      exact ⟨by omega, List.drop_left' hlength⟩
    have htake : (blocks ++ buf.drop bufSize).take bufSize = blocks := List.take_left' hlength
    dsimp only
    split_ifs with hrange hlong hbroken
    · exact ⟨hkept.1, hkept.2, nofun⟩
    · exact ⟨hkept.1, hkept.2, nofun⟩
    · exact ⟨hkept.1, hkept.2, nofun⟩
    · rw [htake] at hbroken
      generalize (blocks ++ buf.drop bufSize).getD (bufSize - 1) 0 = value at *
      refine ⟨hkept.1, hkept.2, fun _ => ⟨value.toNat, ?_, by omega, by omega, rfl, ?_⟩⟩
      · have : value.toNat ≠ 0 := fun hzero => hrange (Or.inl (UInt8.toNat_inj.mp hzero))
        omega
      · have htail : blocks.drop (bufSize - value.toNat) =
            List.replicate value.toNat value := by
          refine List.eq_replicate_iff.mpr ⟨by rw [List.length_drop]; omega, fun b hb => ?_⟩
          by_contra hne
          exact hbroken (List.any_eq_true.mpr ⟨b, hb, by simpa using hne⟩)
        dsimp only
        rw [UInt8.ofNat_toNat, ← htail,
          List.take_append_of_le_length (by omega), List.take_append_drop]

theorem accepted_of_decryptArray {key : Key} {bufSize : Nat}
    (h : (decryptArray key buf bufSize).1 = true) :
    key.isAvailable = true ∧ bufSize % 16 = 0 := by
  rw [decryptArray] at h
  split_ifs at h with havailable hempty hblocks
  exact ⟨by simpa using havailable, by omega⟩

/-- A string with its padding. -/
def padded (data : Bytes) : Bytes :=
  let paddingSize := getEncryptedSize data.length - data.length
  data ++ List.replicate paddingSize (UInt8.ofNat paddingSize)

theorem length_padded (data : Bytes) : (padded data).length = getEncryptedSize data.length := by
  have := padding_le data.length
  rw [padded, List.length_append, List.length_replicate]
  omega

theorem encryptString_eq {key : Key} (havailable : key.isAvailable = true) {data : Bytes}
    (hdata : data ≠ []) :
    encryptString key data =
      (true, transformCBC key.key key.iv (padded data) (getEncryptedSize data.length / 16)) := by
  have hle := padding_le data.length
  have hpos := List.length_pos_iff.mpr hdata
  rw [encryptString, if_neg (by simpa using hdata)]
  dsimp only
  rw [encryptArray, if_neg (by simp [havailable]), if_neg (by omega), List.take_left]
  dsimp only
  rw [List.drop_of_length_le (by simp; omega), List.append_nil]
  rfl

theorem decryptString_transformCBC {key : Key} (havailable : key.isAvailable = true)
    {data : Bytes} (hdata : data ≠ []) :
    decryptString key
      (transformCBC key.key key.iv (padded data) (getEncryptedSize data.length / 16)) =
        (true, data) := by
  have hle := padding_le data.length
  have hpos := List.length_pos_iff.mpr hdata
  have hblocks : 16 * (getEncryptedSize data.length / 16) = (padded data).length := by
    rw [length_padded, getEncryptedSize]
    omega
  have hlength : (transformCBC key.key key.iv (padded data)
      (getEncryptedSize data.length / 16)).length = getEncryptedSize data.length := by
    rw [transformCBC, length_transformLoop hblocks.le, length_padded]
  have hback : inverseTransformCBC key.key key.iv (transformCBC key.key key.iv (padded data)
      (getEncryptedSize data.length / 16)) (getEncryptedSize data.length / 16) = padded data :=
    inverseTransformLoop_transformLoop hblocks.le
  generalize transformCBC key.key key.iv (padded data) (getEncryptedSize data.length / 16) =
    encrypted at hlength hback ⊢
  have hvalue : (padded data).getD (getEncryptedSize data.length - 1) 0 =
      UInt8.ofNat (getEncryptedSize data.length - data.length) := by
    rw [padded, List.getD_eq_getElem?_getD, List.getElem?_append_right (by omega),
      List.getElem?_replicate_of_lt (by omega)]
    rfl
  have htoNat : (UInt8.ofNat (getEncryptedSize data.length - data.length)).toNat =
      getEncryptedSize data.length - data.length :=
    UInt8.toNat_ofNat_of_lt (lt_of_le_of_lt hle.2 (by decide))
  have hsize : getEncryptedSize data.length % 16 = 0 := by
    rw [getEncryptedSize]
    omega
  have hnonzero : UInt8.ofNat (getEncryptedSize data.length - data.length) ≠ 0 := by
    intro hzero
    rw [hzero, UInt8.toNat_zero] at htoNat
    omega
  have hrange : ¬ (UInt8.ofNat (getEncryptedSize data.length - data.length) = 0 ∨
      16 < getEncryptedSize data.length - data.length) := by
    rintro (hzero | hlong)
    · exact hnonzero hzero
    · omega
  have hkept : getEncryptedSize data.length - (getEncryptedSize data.length - data.length) =
      data.length := by omega
  have hnone : ((padded data).drop data.length).any (· !=
      UInt8.ofNat (getEncryptedSize data.length - data.length)) = false := by
    rw [padded, List.drop_left]
    simp
  have hdecrypt : decryptArray key encrypted (getEncryptedSize data.length) =
      (true, padded data, data.length) := by
    rw [decryptArray, if_neg (by simp [havailable]), if_neg (by omega), if_neg (by omega), hback]
    dsimp only
    rw [hvalue, htoNat, if_neg hrange, if_neg (by omega),
      List.take_of_length_le (length_padded data).le, hkept, hnone, if_neg Bool.false_ne_true]
  rw [decryptString, if_neg (by rw [List.isEmpty_iff, ← List.length_eq_zero_iff]; omega), hlength,
    hdecrypt, padded]
  dsimp only
  rw [if_pos rfl, List.take_left]

/-- **WHAT IS ENCRYPTED IS DECRYPTED**: strings of any length, any number of blocks, and whatever
    `DecryptArray` accepts. -/
theorem decrypt_encrypt (key : Key) (havailable : key.isAvailable = true) :
    (∀ data, data ≠ [] → (encryptString key data).1 = true ∧
      decryptString key (encryptString key data).2 = (true, data)) ∧
    (∀ buf blockCount, 16 * blockCount ≤ buf.length →
      inverseTransformCBC key.key key.iv (transformCBC key.key key.iv buf blockCount) blockCount =
        buf) ∧
    ∀ buf bufSize, bufSize ≤ buf.length →
      let result := decryptArray key buf bufSize
      result.2.1.length = buf.length ∧ result.2.1.drop bufSize = buf.drop bufSize ∧
        (result.1 = true → ∃ padding, 1 ≤ padding ∧ padding ≤ 16 ∧ padding < bufSize ∧
          result.2.2 = bufSize - padding ∧
          decryptedBlocks key buf bufSize =
            result.2.1.take result.2.2 ++ List.replicate padding (UInt8.ofNat padding)) := by
  refine ⟨fun data hdata => ?_, fun buf n h => inverseTransformLoop_transformLoop h,
    decryptArray_spec key⟩
  rw [encryptString_eq havailable hdata]
  exact ⟨rfl, decryptString_transformCBC havailable hdata⟩

/-- **ENCRYPTION AND DECRYPTION ARE INVERSE**: a string is decrypted to another exactly when that
    one is encrypted to it, so that nothing else is accepted. -/
theorem decryptString_iff_encryptString (key : Key) (data plain : Bytes) :
    decryptString key data = (true, plain) ↔ encryptString key plain = (true, data) := by
  constructor
  · intro hdecrypt
    rw [decryptString] at hdecrypt
    split at hdecrypt
    · cases hdecrypt
    · obtain ⟨hok, hplain⟩ := Prod.mk.inj hdecrypt
      rw [if_pos hok] at hplain
      obtain ⟨havailable, hblocks⟩ := accepted_of_decryptArray hok
      obtain ⟨-, -, hspec⟩ := decryptArray_spec key data data.length le_rfl
      obtain ⟨padding, hpos, hle, hlt, hsize, hdecrypted⟩ := hspec hok
      rw [hplain] at hdecrypted
      have hlength : (decryptedBlocks key data data.length).length = data.length :=
        (decrypted_eq key le_rfl hblocks).2
      rw [hdecrypted, List.length_append, List.length_replicate] at hlength
      have hpadding : getEncryptedSize plain.length - plain.length = padding ∧
          getEncryptedSize plain.length = data.length := by
        rw [getEncryptedSize]
        omega
      have hpadded : padded plain = decryptedBlocks key data data.length := by
        rw [hdecrypted, padded, hpadding.1]
      have hne : plain ≠ [] := by
        rw [← List.length_pos_iff]
        omega
      rw [encryptString_eq havailable hne, hpadded, hpadding.2, transformCBC, decryptedBlocks,
        inverseTransformCBC, List.take_length, transformLoop_inverseTransformLoop (by omega)]
  · intro hencrypt
    have havailable : key.isAvailable = true ∧ plain ≠ [] := by
      refine ⟨?_, fun hnil => by simp [hnil, encryptString] at hencrypt⟩
      by_contra hunavailable
      rw [encryptString] at hencrypt
      split at hencrypt
      · cases hencrypt
      · dsimp only at hencrypt
        rw [encryptArray, if_pos (by simpa using hunavailable)] at hencrypt
        cases hencrypt
    rw [encryptString_eq havailable.1 havailable.2] at hencrypt
    rw [← (Prod.mk.inj hencrypt).2]
    exact decryptString_transformCBC havailable.1 havailable.2

/-- A key of zeros. -/
private def zeroKey : Key := ⟨Vector.replicate 32 0, Vector.replicate 16 0, true⟩

/-- A byte is decrypted again. -/
theorem decrypt_encrypt_one :
    decryptString zeroKey (encryptString zeroKey [0x61]).2 = (true, [0x61]) :=
  ((decrypt_encrypt zeroKey rfl).1 [0x61] (List.cons_ne_nil _ _)).2

end MozkeyEncryptor
