import Mozkey.Utf8Proofs

/-! # SystemDictionaryCodec — keys and values

    Keys swap the code points of kana with those of control codes and letters, so that
    kana take one byte.  Values are spelled in one to four bytes by the kind of the code
    point, behind a marker where the kind needs one. -/

namespace MozkeyDictionary

open ByteString MozkeyUtil

/-! ## Keys -/

/-- The code point that `EncodeDecodeKeyImpl` swaps a code point with. -/
def swapKeyCode (code : Nat) : Nat :=
  let offset :=
    if (0x0001 ≤ code ∧ code ≤ 0x001f) ∨ (0x3041 ≤ code ∧ code ≤ 0x305f) then 0x3041 - 0x0001
    else if (0x0040 ≤ code ∧ code ≤ 0x0075) ∨ (0x3060 ≤ code ∧ code ≤ 0x3095) then
      0x3060 - 0x0040
    else if (0x0076 ≤ code ∧ code ≤ 0x0077) ∨ (0x30FB ≤ code ∧ code ≤ 0x30FC) then
      0x30FB - 0x0076
    else 0
  if code < 0x80 then code + offset else code - offset

/-- `EncodeDecodeKeyImpl`. -/
def encodeDecodeKeyImpl (src : Bytes) : Bytes :=
  (chars32 src).flatMap (fun code => codepointToUtf8 (swapKeyCode code))

/-- `EncodeKey`; a key is decoded the same way. -/
def encodeKey (src : Bytes) : Bytes := encodeDecodeKeyImpl src

theorem swapKeyCode_swapKeyCode (code : Nat) : swapKeyCode (swapKeyCode code) = code := by
  unfold swapKeyCode
  dsimp only
  split_ifs <;> omega

theorem swapKeyCode_bounds {code : Nat} (h : 0 < code ∧ code ≤ 0x10ffff) :
    0 < swapKeyCode code ∧ swapKeyCode code ≤ 0x10ffff := by
  unfold swapKeyCode
  dsimp only
  split_ifs <;> omega

theorem chars32_encodeKey {s : Bytes} (h : Spelled s) :
    chars32 (encodeKey s) = (chars32 s).map swapKeyCode := by
  have hbounds := h.flatMap_chars32.2
  have heq : encodeKey s = ((chars32 s).map swapKeyCode).flatMap codepointToUtf8 := by
    rw [List.flatMap_map]
    rfl
  rw [heq]
  refine chars32_flatMap ?_
  intro c hc
  obtain ⟨code, hcode, rfl⟩ := List.mem_map.mp hc
  have := swapKeyCode_bounds (hbounds code hcode)
  omega

/-- **THE KEY CODEC IS AN INVOLUTION.** -/
theorem encodeKey_encodeKey {s : Bytes} (h : Spelled s) : encodeKey (encodeKey s) = s := by
  rw [encodeKey, encodeDecodeKeyImpl, chars32_encodeKey h, List.flatMap_map]
  have hswap : ∀ code, codepointToUtf8 (swapKeyCode (swapKeyCode code)) = codepointToUtf8 code :=
    fun code => by rw [swapKeyCode_swapKeyCode]
  simp only [hswap]
  exact h.flatMap_chars32.1

theorem encodeKey_injective {s t : Bytes} (hs : Spelled s) (ht : Spelled t)
    (h : encodeKey s = encodeKey t) : s = t := by
  rw [← encodeKey_encodeKey hs, h, encodeKey_encodeKey ht]

theorem encodeKey_ne_nil {s : Bytes} (hs : Spelled s) (hne : s ≠ []) : encodeKey s ≠ [] := by
  intro hnil
  refine hne ?_
  rw [← encodeKey_encodeKey hs, hnil]
  rfl

/-! ## Values -/

/-- The marks and offsets of the characters of a value. -/
def kValueCharMarkAscii : Nat := 0xfc
def kValueCharMarkXX00 : Nat := 0xfd
def kValueCharMarkOtherUcs2 : Nat := 0xfe
def kValueCharMarkCodepoint : Nat := 0xff
def kValueCharMarkCodepointMiddle0 : Nat := 0x80
def kValueCharMarkCodepointRight0 : Nat := 0x40
def kValueCharMarkCodepointLeftMask : Nat := 0x1f
def kValueKanjiOffset : Nat := 0x01
def kValueHiraganaOffset : Nat := 0x4b
def kValueKatakanaOffset : Nat := 0x9f

/-- The bytes of a code point in `EncodeValue`. -/
def encodeValueChar (c : Nat) : Bytes :=
  if 0x3041 ≤ c ∧ c < 0x3095 then [UInt8.ofNat (c - 0x3041 + kValueHiraganaOffset)]
  else if 0x30a1 ≤ c ∧ c < 0x30fd then [UInt8.ofNat (c - 0x30a1 + kValueKatakanaOffset)]
  else if c < 0x10000 ∧ (c >>> 8) &&& 255 = 0 then
    [UInt8.ofNat kValueCharMarkAscii, UInt8.ofNat (c &&& 255)]
  else if c < 0x10000 ∧ c &&& 255 = 0 then
    [UInt8.ofNat kValueCharMarkXX00, UInt8.ofNat ((c >>> 8) &&& 255)]
  else if 0x4e00 ≤ c ∧ c < 0x9800 then
    [UInt8.ofNat (((c - 0x4e00) >>> 8) + kValueKanjiOffset), UInt8.ofNat (c &&& 255)]
  else if 0x10000 ≤ c ∧ c ≤ 0x10ffff then
    let left := (c >>> 16) &&& 255
    let middle := (c >>> 8) &&& 255
    let right := c &&& 255
    let left := if middle = 0 then left ||| kValueCharMarkCodepointMiddle0 else left
    let left := if right = 0 then left ||| kValueCharMarkCodepointRight0 else left
    [UInt8.ofNat kValueCharMarkCodepoint, UInt8.ofNat left]
      ++ (if middle ≠ 0 then [UInt8.ofNat middle] else [])
      ++ (if right ≠ 0 then [UInt8.ofNat right] else [])
  else
    [UInt8.ofNat kValueCharMarkOtherUcs2, UInt8.ofNat ((c >>> 8) &&& 255), UInt8.ofNat (c &&& 255)]

/-- `EncodeValue`. -/
def encodeValue (src : Bytes) : Bytes := (chars32 src).flatMap encodeValueChar

/-- `p[i]`. -/
def byteAt (p : Bytes) (i : Nat) : Nat := (p.getD i 0).toNat

/-- A round of the loop of `DecodeValue`: the code point and the number of bytes read. -/
def decodeValueChar (p : Bytes) : Nat × Nat :=
  let cc := byteAt p 0
  if kValueHiraganaOffset ≤ cc ∧ cc < kValueKatakanaOffset then
    (0x3041 + byteAt p 0 - kValueHiraganaOffset, 1)
  else if kValueKatakanaOffset ≤ cc ∧ cc < kValueCharMarkAscii then
    (0x30a1 + byteAt p 0 - kValueKatakanaOffset, 1)
  else if cc = kValueCharMarkAscii then (byteAt p 1, 2)
  else if cc = kValueCharMarkXX00 then (byteAt p 1 <<< 8, 2)
  else if cc = kValueCharMarkCodepoint then
    let c := (byteAt p 1 &&& kValueCharMarkCodepointLeftMask) <<< 16
    let middle := byteAt p 1 &&& kValueCharMarkCodepointMiddle0 = 0
    let right := byteAt p 1 &&& kValueCharMarkCodepointRight0 = 0
    let c := if middle then c + byteAt p 2 <<< 8 else c
    let pos := if middle then 3 else 2
    if right then (c + byteAt p pos, pos + 1) else (c, pos)
  else if cc = kValueCharMarkOtherUcs2 then ((byteAt p 1 <<< 8) + byteAt p 2, 3)
  else if cc < kValueHiraganaOffset then
    (((byteAt p 0 - kValueKanjiOffset) <<< 8) + 0x4e00 + byteAt p 1, 2)
  else
    -- "should never come here": the position stays
    (0, 0)

/-- The loop of `DecodeValue`; a round reads a byte at least, or stays for ever. -/
def decodeValueLoop : Nat → Bytes → Bytes
  | 0, _ => []
  | _ + 1, [] => []
  | fuel + 1, b :: p =>
    codepointToUtf8 (decodeValueChar (b :: p)).1
      ++ decodeValueLoop fuel ((b :: p).drop (decodeValueChar (b :: p)).2)

/-- `DecodeValue`. -/
def decodeValue (src : Bytes) : Bytes := decodeValueLoop src.length src

@[simp] theorem byteAt_zero (b : UInt8) (p : Bytes) : byteAt (b :: p) 0 = b.toNat := rfl
@[simp] theorem byteAt_succ (b : UInt8) (p : Bytes) (i : Nat) :
    byteAt (b :: p) (i + 1) = byteAt p i := rfl

theorem toNat_ofNat_of_lt {n : Nat} (h : n < 256) : (UInt8.ofNat n).toNat = n := by
  rw [UInt8.toNat_ofNat', Nat.mod_eq_of_lt h]

theorem leftFlags_spec : ∀ left < 0x11, ∀ middle right : Bool,
    let l := if middle then left ||| kValueCharMarkCodepointMiddle0 else left
    let l := if right then l ||| kValueCharMarkCodepointRight0 else l
    l < 256 ∧ l &&& kValueCharMarkCodepointLeftMask = left ∧
      decide (l &&& kValueCharMarkCodepointMiddle0 = 0) = !middle ∧
      decide (l &&& kValueCharMarkCodepointRight0 = 0) = !right := by
  decide

theorem decodeValueChar_cons {x : Nat} (hx : x < 256) (p : Bytes) :
    decodeValueChar (UInt8.ofNat x :: p)
      = if 0x4b ≤ x ∧ x < 0x9f then (0x3041 + x - 0x4b, 1)
        else if 0x9f ≤ x ∧ x < 0xfc then (0x30a1 + x - 0x9f, 1)
        else if x = 0xfc then (byteAt p 0, 2)
        else if x = 0xfd then (byteAt p 0 <<< 8, 2)
        else if x = 0xff then
          let c := (byteAt p 0 &&& 0x1f) <<< 16
          let middle := byteAt p 0 &&& 0x80 = 0
          let right := byteAt p 0 &&& 0x40 = 0
          let c := if middle then c + byteAt p 1 <<< 8 else c
          let pos := if middle then 3 else 2
          if right then (c + byteAt (UInt8.ofNat x :: p) pos, pos + 1) else (c, pos)
        else if x = 0xfe then ((byteAt p 0 <<< 8) + byteAt p 1, 3)
        else if x < 0x4b then (((x - 0x01) <<< 8) + 0x4e00 + byteAt p 0, 2)
        else (0, 0) := by
  rw [decodeValueChar, byteAt_zero, toNat_ofNat_of_lt hx]
  rfl

/-- **A CODE POINT IS READ BACK.** -/
theorem decodeValueChar_encodeValueChar {c : Nat} (hc : c ≤ 0x10ffff) (rest : Bytes) :
    decodeValueChar (encodeValueChar c ++ rest) = (c, (encodeValueChar c).length) := by
  rw [encodeValueChar, Nat.shiftRight_eq_div_pow, and_mask 255 256 8, and_mask 255 256 8]
  by_cases hhira : 0x3041 ≤ c ∧ c < 0x3095
  · rw [if_pos hhira, List.singleton_append, kValueHiraganaOffset,
      decodeValueChar_cons (by omega), if_pos (by omega), List.length_singleton,
      show 0x3041 + (c - 0x3041 + 0x4b) - 0x4b = c from by omega]
  rw [if_neg hhira]
  by_cases hkata : 0x30a1 ≤ c ∧ c < 0x30fd
  · rw [if_pos hkata, List.singleton_append, kValueKatakanaOffset,
      decodeValueChar_cons (by omega), if_neg (by omega), if_pos (by omega),
      List.length_singleton, show 0x30a1 + (c - 0x30a1 + 0x9f) - 0x9f = c from by omega]
  rw [if_neg hkata]
  by_cases hascii : c < 0x10000 ∧ c / 2 ^ 8 % 256 = 0
  · rw [if_pos hascii, List.cons_append, List.singleton_append, kValueCharMarkAscii,
      decodeValueChar_cons (by decide), if_neg (by decide), if_neg (by decide), if_pos rfl,
      byteAt_zero, toNat_ofNat_of_lt (by omega)]
    show (c % 256, 2) = (c, 2)
    rw [show c % 256 = c from by omega]
  rw [if_neg hascii]
  by_cases hxx00 : c < 0x10000 ∧ c % 256 = 0
  · rw [if_pos hxx00, List.cons_append, List.singleton_append, kValueCharMarkXX00,
      decodeValueChar_cons (by decide), if_neg (by decide), if_neg (by decide),
      if_neg (by decide), if_pos rfl, byteAt_zero, toNat_ofNat_of_lt (by omega), Nat.shiftLeft_eq]
    show (c / 2 ^ 8 % 256 * 2 ^ 8, 2) = (c, 2)
    rw [show c / 2 ^ 8 % 256 * 2 ^ 8 = c from by omega]
  rw [if_neg hxx00]
  by_cases hkanji : 0x4e00 ≤ c ∧ c < 0x9800
  · rw [if_pos hkanji, List.cons_append, List.singleton_append, kValueKanjiOffset,
      Nat.shiftRight_eq_div_pow, decodeValueChar_cons (by omega), if_neg (by omega),
      if_neg (by omega), if_neg (by omega), if_neg (by omega), if_neg (by omega),
      if_neg (by omega), if_pos (by omega), byteAt_zero, toNat_ofNat_of_lt (by omega),
      Nat.shiftLeft_eq]
    show (((c - 0x4e00) / 2 ^ 8 + 1 - 1) * 2 ^ 8 + 0x4e00 + c % 256, 2) = (c, 2)
    rw [show ((c - 0x4e00) / 2 ^ 8 + 1 - 1) * 2 ^ 8 + 0x4e00 + c % 256 = c from by omega]
  rw [if_neg hkanji]
  by_cases hbig : 0x10000 ≤ c ∧ c ≤ 0x10ffff
  · obtain ⟨hlt, hmask, hmiddle, hright⟩ := leftFlags_spec (c / 2 ^ 16 % 256) (by omega)
      (decide (c / 2 ^ 8 % 256 = 0)) (decide (c % 256 = 0))
    simp only [decide_eq_true_eq] at hlt hmask hmiddle hright
    rw [if_pos hbig, Nat.shiftRight_eq_div_pow, and_mask 255 256 8]
    dsimp only
    generalize hleft : (if c % 256 = 0 then
      (if c / 2 ^ 8 % 256 = 0 then c / 2 ^ 16 % 256 ||| kValueCharMarkCodepointMiddle0
        else c / 2 ^ 16 % 256) ||| kValueCharMarkCodepointRight0
      else if c / 2 ^ 8 % 256 = 0 then c / 2 ^ 16 % 256 ||| kValueCharMarkCodepointMiddle0
        else c / 2 ^ 16 % 256) = left at hlt hmask hmiddle hright ⊢
    change left &&& 0x1f = _ at hmask
    change decide (left &&& 0x80 = 0) = _ at hmiddle
    change decide (left &&& 0x40 = 0) = _ at hright
    simp only [List.cons_append, List.nil_append, List.append_assoc]
    rw [kValueCharMarkCodepoint, decodeValueChar_cons (by decide), if_neg (by decide),
      if_neg (by decide), if_neg (by decide), if_neg (by decide), if_pos rfl, byteAt_zero,
      toNat_ofNat_of_lt hlt, hmask]
    by_cases hm : c / 2 ^ 8 % 256 = 0
    · have hm' : ¬ left &&& 0x80 = 0 := by
        rw [decide_eq_true hm] at hmiddle
        exact of_decide_eq_false hmiddle
      by_cases hr : c % 256 = 0
      · have hr' : ¬ left &&& 0x40 = 0 := by
          rw [decide_eq_true hr] at hright
          exact of_decide_eq_false hright
        simp only [if_neg hm', if_neg hr', if_neg (not_not.mpr hm), if_neg (not_not.mpr hr),
          Nat.shiftLeft_eq]
        show (c / 2 ^ 16 % 256 * 2 ^ 16, 2) = (c, 2)
        rw [show c / 2 ^ 16 % 256 * 2 ^ 16 = c from by omega]
      · have hr' : left &&& 0x40 = 0 := by
          rw [decide_eq_false hr] at hright
          exact of_decide_eq_true hright
        simp only [if_neg hm', if_pos hr', if_neg (not_not.mpr hm), if_pos hr, Nat.shiftLeft_eq]
        show (c / 2 ^ 16 % 256 * 2 ^ 16 + (UInt8.ofNat (c % 256)).toNat, 3) = (c, 3)
        rw [toNat_ofNat_of_lt (by omega),
          show c / 2 ^ 16 % 256 * 2 ^ 16 + c % 256 = c from by omega]
    · have hm' : left &&& 0x80 = 0 := by
        rw [decide_eq_false hm] at hmiddle
        exact of_decide_eq_true hmiddle
      by_cases hr : c % 256 = 0
      · have hr' : ¬ left &&& 0x40 = 0 := by
          rw [decide_eq_true hr] at hright
          exact of_decide_eq_false hright
        simp only [if_pos hm', if_neg hr', if_pos hm, if_neg (not_not.mpr hr), Nat.shiftLeft_eq]
        show (c / 2 ^ 16 % 256 * 2 ^ 16 + (UInt8.ofNat (c / 2 ^ 8 % 256)).toNat * 2 ^ 8, 3)
          = (c, 3)
        rw [toNat_ofNat_of_lt (by omega),
          show c / 2 ^ 16 % 256 * 2 ^ 16 + c / 2 ^ 8 % 256 * 2 ^ 8 = c from by omega]
      · have hr' : left &&& 0x40 = 0 := by
          rw [decide_eq_false hr] at hright
          exact of_decide_eq_true hright
        simp only [if_pos hm', if_pos hr', if_pos hm, if_pos hr, Nat.shiftLeft_eq]
        show (c / 2 ^ 16 % 256 * 2 ^ 16 + (UInt8.ofNat (c / 2 ^ 8 % 256)).toNat * 2 ^ 8
          + (UInt8.ofNat (c % 256)).toNat, 4) = (c, 4)
        rw [toNat_ofNat_of_lt (by omega), toNat_ofNat_of_lt (by omega),
          show c / 2 ^ 16 % 256 * 2 ^ 16 + c / 2 ^ 8 % 256 * 2 ^ 8 + c % 256 = c from by omega]
  rw [if_neg hbig, List.cons_append, List.cons_append, List.singleton_append,
    kValueCharMarkOtherUcs2, decodeValueChar_cons (by decide), if_neg (by decide),
    if_neg (by decide), if_neg (by decide), if_neg (by decide), if_neg (by decide), if_pos rfl,
    byteAt_zero, byteAt_succ, byteAt_zero, toNat_ofNat_of_lt (by omega),
    toNat_ofNat_of_lt (by omega), Nat.shiftLeft_eq]
  show (c / 2 ^ 8 % 256 * 2 ^ 8 + c % 256, 3) = (c, 3)
  rw [show c / 2 ^ 8 % 256 * 2 ^ 8 + c % 256 = c from by omega]

theorem encodeValueChar_ne_nil (c : Nat) : encodeValueChar c ≠ [] := by
  unfold encodeValueChar
  dsimp only
  repeat' first
    | exact List.cons_ne_nil _ _
    | split

theorem length_le_encodeValue : ∀ cs : List Nat,
    cs.length ≤ (cs.flatMap encodeValueChar).length := by
  intro cs
  induction cs with
  | nil => exact Nat.le_refl 0
  | cons c cs ih =>
    have hpos := List.length_pos_iff.mpr (encodeValueChar_ne_nil c)
    rw [List.flatMap_cons, List.length_append, List.length_cons]
    omega

theorem decodeValueLoop_flatMap : ∀ (cs : List Nat) (fuel : Nat), cs.length ≤ fuel →
    (∀ c ∈ cs, c ≤ 0x10ffff) →
    decodeValueLoop fuel (cs.flatMap encodeValueChar) = cs.flatMap codepointToUtf8 := by
  intro cs
  induction cs with
  | nil => intro fuel _ _; cases fuel <;> rfl
  | cons c cs ih =>
    intro fuel hfuel hcs
    cases fuel with
    | zero => exact absurd hfuel (Nat.not_succ_le_zero _)
    | succ fuel =>
      have hdecode := decodeValueChar_encodeValueChar (hcs c List.mem_cons_self)
        (cs.flatMap encodeValueChar)
      have hdrop : (encodeValueChar c ++ cs.flatMap encodeValueChar).drop
          (encodeValueChar c).length = cs.flatMap encodeValueChar := List.drop_left
      obtain ⟨b, p, hp⟩ := List.exists_cons_of_ne_nil
        (List.append_ne_nil_of_left_ne_nil (encodeValueChar_ne_nil c)
          (cs.flatMap encodeValueChar))
      rw [hp] at hdecode hdrop
      rw [List.flatMap_cons, List.flatMap_cons, hp, decodeValueLoop, hdecode]
      dsimp only
      rw [hdrop, ih fuel (Nat.le_of_succ_le_succ hfuel)
        (fun d hd => hcs d (List.mem_cons_of_mem c hd))]

/-- **THE VALUE CODEC READS ITS OUTPUT BACK.** -/
theorem decodeValue_encodeValue {s : Bytes} (h : Spelled s) :
    decodeValue (encodeValue s) = s := by
  obtain ⟨hspell, hbounds⟩ := h.flatMap_chars32
  rw [decodeValue, encodeValue, decodeValueLoop_flatMap _ _ (length_le_encodeValue _)
    (fun c hc => (hbounds c hc).2)]
  exact hspell

theorem encodeValue_injective {s t : Bytes} (hs : Spelled s) (ht : Spelled t)
    (h : encodeValue s = encodeValue t) : s = t := by
  rw [← decodeValue_encodeValue hs, h, decodeValue_encodeValue ht]

theorem encodeValue_ne_nil {s : Bytes} (hs : Spelled s) (hne : s ≠ []) : encodeValue s ≠ [] := by
  intro hnil
  refine hne ?_
  rw [← decodeValue_encodeValue hs, hnil]
  rfl

end MozkeyDictionary
