import Mozkey.DictionaryCodecProofs

/-! # SystemDictionaryCodec — prefixes and lengths

    The tries are searched for the prefixes of encoded keys and values, and a prefix of a key
    is cut out by the length of its code.  Both rest on codes that are read from the left: a
    code starts another one where the string does.

    U+0000 is spelled as nothing where a string is decoded, so the codecs are inverted on
    strings without it only. -/

namespace MozkeyDictionary

open ByteString MozkeyUtil

/-! ## The length of a key -/

/-- `DecodeKey`. -/
def decodeKey (encodedKey : Bytes) : Bytes := encodeDecodeKeyImpl encodedKey

/-- `GetEncodedDecodedKeyLengthImpl`. -/
def getEncodedDecodedKeyLengthImpl (src : Bytes) : Nat :=
  (chars32 src).foldl (fun size code =>
    if (0x3041 ≤ code ∧ code ≤ 0x3095) ∨ (0x30FB ≤ code ∧ code ≤ 0x30FC) then size - 2
    else if (0x0001 ≤ code ∧ code ≤ 0x001F) ∨ (0x0040 ≤ code ∧ code ≤ 0x0077) then size + 2
    else size) src.length

/-- `GetEncodedKeyLength`. -/
def getEncodedKeyLength (key : Bytes) : Nat := getEncodedDecodedKeyLengthImpl key

/-- `GetDecodedKeyLength`. -/
def getDecodedKeyLength (encodedKey : Bytes) : Nat := getEncodedDecodedKeyLengthImpl encodedKey

/-! ## Prefixes and their codes -/

/-- **A CODE THAT CAN BE READ FROM THE LEFT** tells which lists start others. -/
theorem isPrefix_of_flatMap {α : Type} {P : α → Prop} {code : α → Bytes}
    (hne : ∀ c, P c → code c ≠ [])
    (hread : ∀ c c' rest rest', P c → P c' → code c ++ rest = code c' ++ rest' → c = c') :
    ∀ {cs ds : List α}, (∀ c ∈ cs, P c) → (∀ d ∈ ds, P d) →
      cs.flatMap code <+: ds.flatMap code → cs <+: ds := by
  intro cs
  induction cs with
  | nil => intro ds _ _ _; exact List.nil_prefix
  | cons c cs ih =>
    intro ds hcs hds hstarts
    obtain ⟨rest, heq⟩ := hstarts
    cases ds with
    | nil =>
      rw [List.flatMap_cons, List.append_assoc, List.flatMap_nil] at heq
      exact absurd (List.append_eq_nil_iff.mp heq).1 (hne c (hcs c List.mem_cons_self))
    | cons d ds =>
      rw [List.flatMap_cons, List.flatMap_cons, List.append_assoc] at heq
      obtain rfl := hread c d _ _ (hcs c List.mem_cons_self) (hds d List.mem_cons_self) heq
      rw [List.append_right_inj] at heq
      exact List.prefix_cons_inj c |>.mpr (ih (fun c hc => hcs c (List.mem_cons_of_mem _ hc))
        (fun d hd => hds d (List.mem_cons_of_mem _ hd)) ⟨rest, heq⟩)

theorem flatMap_prefix_iff {P : Nat → Prop} {code : Nat → Bytes}
    (hne : ∀ c, P c → code c ≠ [])
    (hread : ∀ c c' rest rest', P c → P c' → code c ++ rest = code c' ++ rest' → c = c')
    {cs ds : List Nat} (hcs : ∀ c ∈ cs, P c) (hds : ∀ d ∈ ds, P d) :
    cs.flatMap code <+: ds.flatMap code ↔ cs <+: ds := by
  constructor
  · exact isPrefix_of_flatMap hne hread hcs hds
  · rintro ⟨rest, rfl⟩
    rw [List.flatMap_append]
    exact List.prefix_append _ _

/-- A code point that a key or a value can have. -/
def IsCode (c : Nat) : Prop := 0 < c ∧ c ≤ 0x10ffff

theorem read_codepointToUtf8 : ∀ c c' rest rest', IsCode c → IsCode c' →
    codepointToUtf8 c ++ rest = codepointToUtf8 c' ++ rest' → c = c' := by
  intro c c' rest rest' hc hc' heq
  exact codepointToUtf8_read hc.1 (by have := hc.2; omega) hc'.1 heq

/-- **PREFIXES BY THEIR CODE POINTS.** -/
theorem prefix_iff_chars32 {s t : Bytes} (hs : Spelled s) (ht : Spelled t) :
    s <+: t ↔ chars32 s <+: chars32 t := by
  obtain ⟨hspell, hcodes⟩ := hs.flatMap_chars32
  obtain ⟨hspell', hcodes'⟩ := ht.flatMap_chars32
  rw [← flatMap_prefix_iff (P := IsCode) (fun c hc => codepointToUtf8_ne_nil hc.1)
    read_codepointToUtf8 hcodes hcodes', hspell, hspell']

/-- **KEYS START EACH OTHER** where their codes do. -/
theorem encodeKey_prefix_iff {s t : Bytes} (hs : Spelled s) (ht : Spelled t) :
    encodeKey s <+: encodeKey t ↔ s <+: t := by
  rw [prefix_iff_chars32 hs ht]
  refine flatMap_prefix_iff (P := IsCode)
    (fun c hc => codepointToUtf8_ne_nil (swapKeyCode_bounds hc).1) ?_
    hs.flatMap_chars32.2 ht.flatMap_chars32.2
  intro c c' rest rest' hc hc' heq
  have hswap := read_codepointToUtf8 _ _ rest rest' (swapKeyCode_bounds hc)
    (swapKeyCode_bounds hc') heq
  rw [← swapKeyCode_swapKeyCode c, hswap, swapKeyCode_swapKeyCode]

theorem read_encodeValueChar : ∀ c c' rest rest', c ≤ 0x10ffff → c' ≤ 0x10ffff →
    encodeValueChar c ++ rest = encodeValueChar c' ++ rest' → c = c' := by
  intro c c' rest rest' hc hc' heq
  have hread := decodeValueChar_encodeValueChar hc rest
  rw [heq, decodeValueChar_encodeValueChar hc' rest'] at hread
  exact (Prod.mk.inj hread).1.symm

/-- **VALUES START EACH OTHER** where their codes do. -/
theorem encodeValue_prefix_iff {s t : Bytes} (hs : Spelled s) (ht : Spelled t) :
    encodeValue s <+: encodeValue t ↔ s <+: t := by
  rw [prefix_iff_chars32 hs ht]
  exact flatMap_prefix_iff (P := fun c => c ≤ 0x10ffff) (fun c _ => encodeValueChar_ne_nil c)
    read_encodeValueChar (fun c hc => (hs.flatMap_chars32.2 c hc).2)
    fun c hc => (ht.flatMap_chars32.2 c hc).2

/-! ## The length of a decoded key -/

theorem length_codepointToUtf8 {c : Nat} (hpos : 0 < c) (hc : c < 0x10000) :
    (codepointToUtf8 c).length = if c < 0x80 then 1 else if c < 0x800 then 2 else 3 := by
  rw [codepointToUtf8, if_neg (Nat.ne_of_gt hpos)]
  split_ifs <;> rfl

theorem length_swapKeyCode {c : Nat} (hpos : 0 < c) :
    (codepointToUtf8 c).length
      = if (0x3041 ≤ swapKeyCode c ∧ swapKeyCode c ≤ 0x3095) ∨
          (0x30FB ≤ swapKeyCode c ∧ swapKeyCode c ≤ 0x30FC) then
        (codepointToUtf8 (swapKeyCode c)).length - 2
      else if (0x0001 ≤ swapKeyCode c ∧ swapKeyCode c ≤ 0x001F) ∨
          (0x0040 ≤ swapKeyCode c ∧ swapKeyCode c ≤ 0x0077) then
        (codepointToUtf8 (swapKeyCode c)).length + 2
      else (codepointToUtf8 (swapKeyCode c)).length := by
  have hone : ∀ {c : Nat}, 0 < c → c < 0x80 → (codepointToUtf8 c).length = 1 :=
    fun h0 h1 => by rw [length_codepointToUtf8 h0 (by omega), if_pos h1]
  have hthree : ∀ {c : Nat}, 0x800 ≤ c → c < 0x10000 → (codepointToUtf8 c).length = 3 :=
    fun h0 h1 => by
      rw [length_codepointToUtf8 (by omega) h1, if_neg (by omega), if_neg (by omega)]
  -- the ranges that are swapped
  by_cases hascii : c < 0x78 ∧ ¬ (0x20 ≤ c ∧ c < 0x40)
  · have hswap : 0x3041 ≤ swapKeyCode c ∧ swapKeyCode c ≤ 0x3095 ∨
        0x30FB ≤ swapKeyCode c ∧ swapKeyCode c ≤ 0x30FC := by
      unfold swapKeyCode
      dsimp only
      split_ifs <;> omega
    rw [if_pos hswap, hone hpos (by omega), hthree (by omega) (by omega)]
  by_cases hkana : (0x3041 ≤ c ∧ c ≤ 0x3095) ∨ (0x30FB ≤ c ∧ c ≤ 0x30FC)
  · have hswap : 0x0001 ≤ swapKeyCode c ∧ swapKeyCode c ≤ 0x001F ∨
        0x0040 ≤ swapKeyCode c ∧ swapKeyCode c ≤ 0x0077 := by
      unfold swapKeyCode
      dsimp only
      split_ifs <;> omega
    rw [if_neg (by omega), if_pos hswap, hthree (by omega) (by omega), hone (by omega) (by omega)]
  · have hswap : swapKeyCode c = c := by
      unfold swapKeyCode
      dsimp only
      split_ifs <;> omega
    rw [hswap, if_neg hkana, if_neg (by omega)]

/-- **THE SIZE THAT IS COUNTED** after the codes of some characters: that of the characters.  The
    induction is on them. -/
theorem foldl_decodedLength : ∀ (cs : List Nat) (rest : Nat), (∀ c ∈ cs, 0 < c) →
    (cs.map swapKeyCode).foldl (fun size code =>
      if (0x3041 ≤ code ∧ code ≤ 0x3095) ∨ (0x30FB ≤ code ∧ code ≤ 0x30FC) then size - 2
      else if (0x0001 ≤ code ∧ code ≤ 0x001F) ∨ (0x0040 ≤ code ∧ code ≤ 0x0077) then size + 2
      else size) (rest + (cs.flatMap (fun c => codepointToUtf8 (swapKeyCode c))).length)
    = rest + (cs.flatMap codepointToUtf8).length := by
  intro cs
  induction cs with
  | nil => intro rest _; rfl
  | cons c cs ih =>
    intro rest hcs
    have hlen := length_swapKeyCode (hcs c List.mem_cons_self)
    have hpos := List.length_pos_iff.mpr (codepointToUtf8_ne_nil (hcs c List.mem_cons_self))
    have hrest := ih (rest + (codepointToUtf8 c).length)
      (fun c hc => hcs c (List.mem_cons_of_mem _ hc))
    rw [List.map_cons, List.foldl_cons, List.flatMap_cons, List.flatMap_cons,
      List.length_append, List.length_append, ← Nat.add_assoc, ← Nat.add_assoc, ← hrest]
    refine congrArg (fun size => (cs.map swapKeyCode).foldl _ size) ?_
    rw [hlen] at hpos ⊢
    split_ifs at hpos ⊢ <;> omega

/-- **THE LENGTH OF A DECODED KEY** is that of the key. -/
theorem getDecodedKeyLength_encodeKey {key : Bytes} (h : Spelled key) :
    getDecodedKeyLength (encodeKey key) = key.length := by
  obtain ⟨hspell, hcodes⟩ := h.flatMap_chars32
  have hresult := foldl_decodedLength (chars32 key) 0 (fun c hc => (hcodes c hc).1)
  rw [Nat.zero_add, Nat.zero_add, hspell] at hresult
  rw [getDecodedKeyLength, getEncodedDecodedKeyLengthImpl, chars32_encodeKey h]
  exact hresult

/-! ## The value codec -/

theorem validUtf8_prefix_iff {s t : Bytes} (hs : ValidUtf8 s) (ht : ValidUtf8 t) :
    s <+: t ↔ chars32 s <+: chars32 t := by
  obtain ⟨hspell, hcodes⟩ := hs.flatMap_chars32
  obtain ⟨hspell', hcodes'⟩ := ht.flatMap_chars32
  have hread : ∀ c c' rest rest', c ≤ 0x10ffff → c' ≤ 0x10ffff →
      utf8 c ++ rest = utf8 c' ++ rest' → c = c' := by
    intro c c' rest rest' hc hc' heq
    have hread := splitFirstChar32_utf8 (Nat.lt_of_le_of_lt hc (by decide)) rest
    rw [heq, splitFirstChar32_utf8 (Nat.lt_of_le_of_lt hc' (by decide)) rest'] at hread
    exact (Prod.mk.inj (Option.some.inj hread)).1.symm
  rw [← flatMap_prefix_iff (fun c _ => utf8_ne_nil c) hread hcodes hcodes', hspell, hspell']

theorem eq_zero_of_ofNat {x : Nat} (hx : x < 256) (h : (0 : UInt8) = UInt8.ofNat x) : x = 0 := by
  have hto := congrArg UInt8.toNat h
  rw [toNat_ofNat_of_lt hx] at hto
  exact hto.symm

theorem zero_mem_encodeValueChar {c : Nat} (hc : c ≤ 0x10ffff)
    (h : (0 : UInt8) ∈ encodeValueChar c) : c = 0 := by
  rw [encodeValueChar, Nat.shiftRight_eq_div_pow, Nat.shiftRight_eq_div_pow,
    Nat.shiftRight_eq_div_pow, and_mask 255 256 8, and_mask 255 256 8, and_mask 255 256 8] at h
  split_ifs at h with hhira hkata hascii hxx00 hkanji hbig
  · have := eq_zero_of_ofNat (by rw [kValueHiraganaOffset]; omega) (List.mem_singleton.mp h)
    rw [kValueHiraganaOffset] at this
    omega
  · have := eq_zero_of_ofNat (by rw [kValueKatakanaOffset]; omega) (List.mem_singleton.mp h)
    rw [kValueKatakanaOffset] at this
    omega
  · -- the marker is no zero byte, so the code point is
    rcases List.mem_cons.mp h with h | h
    · exact absurd h (by decide)
    · have := eq_zero_of_ofNat (by omega) (List.mem_singleton.mp h)
      omega
  · rcases List.mem_cons.mp h with h | h
    · exact absurd h (by decide)
    · have := eq_zero_of_ofNat (by omega) (List.mem_singleton.mp h)
      omega
  · rw [kValueKanjiOffset] at h
    rcases List.mem_cons.mp h with h | h
    · have := eq_zero_of_ofNat (by omega) h
      omega
    · have := eq_zero_of_ofNat (by omega) (List.mem_singleton.mp h)
      omega
  · -- the flags leave the left byte behind, which is at least one
    obtain ⟨hlt, hmask, -, -⟩ := leftFlags_spec (c / 2 ^ 16 % 256) (by omega)
      (decide (c / 2 ^ 8 % 256 = 0)) (decide (c % 256 = 0))
    simp only [decide_eq_true_eq] at hlt hmask
    dsimp only at h
    generalize hleft : (if c % 256 = 0 then
      (if c / 2 ^ 8 % 256 = 0 then c / 2 ^ 16 % 256 ||| kValueCharMarkCodepointMiddle0
        else c / 2 ^ 16 % 256) ||| kValueCharMarkCodepointRight0
      else if c / 2 ^ 8 % 256 = 0 then c / 2 ^ 16 % 256 ||| kValueCharMarkCodepointMiddle0
        else c / 2 ^ 16 % 256) = left at hlt hmask h
    have hleft0 : left ≠ 0 := by
      rintro rfl
      rw [Nat.zero_and] at hmask
      omega
    rcases List.mem_append.mp h with h | h
    · rcases List.mem_append.mp h with h | h
      · rcases List.mem_cons.mp h with h | h
        · exact absurd h (by decide)
        · exact absurd (eq_zero_of_ofNat hlt (List.mem_singleton.mp h)) hleft0
      · split_ifs at h with hm
        · exact absurd (eq_zero_of_ofNat (by omega) (List.mem_singleton.mp h)) hm
        · cases h
    · split_ifs at h with hr
      · exact absurd (eq_zero_of_ofNat (by omega) (List.mem_singleton.mp h)) hr
      · cases h
  · rcases List.mem_cons.mp h with h | h
    · exact absurd h (by decide)
    · rcases List.mem_cons.mp h with h | h
      · have := eq_zero_of_ofNat (by omega) h
        omega
      · have := eq_zero_of_ofNat (by omega) (List.mem_singleton.mp h)
        omega

theorem length_flatMap_codepointToUtf8_lt : ∀ {cs : List Nat}, 0 ∈ cs →
    (cs.flatMap codepointToUtf8).length < (cs.flatMap utf8).length := by
  have hle : ∀ c, (codepointToUtf8 c).length ≤ (utf8 c).length := by
    intro c
    rcases Nat.eq_zero_or_pos c with rfl | hpos
    · exact Nat.zero_le _
    · rw [utf8, if_neg (Nat.ne_of_gt hpos)]
  have hle' : ∀ cs : List Nat,
      (cs.flatMap codepointToUtf8).length ≤ (cs.flatMap utf8).length := by
    intro cs
    rw [List.length_flatMap, List.length_flatMap]
    exact List.sum_le_sum fun c _ => hle c
  intro cs
  induction cs with
  | nil => intro h; cases h
  | cons c cs ih =>
    intro h
    rw [List.flatMap_cons, List.flatMap_cons, List.length_append, List.length_append]
    rcases List.mem_cons.mp h with h | h
    · rw [← h]
      exact Nat.add_lt_add_of_lt_of_le (Nat.zero_lt_succ 0) (hle' cs)
    · exact Nat.add_lt_add_of_le_of_lt (hle c) (ih h)

/-- **THE VALUE CODEC** is a prefix code without zero bytes of its own; it reads a string back
    unless U+0000 is in it. -/
theorem value_codec (s t : Bytes) (hs : ValidUtf8 s) (ht : ValidUtf8 t) :
    (decodeValue (encodeValue s) = s ↔ (0 : UInt8) ∉ s) ∧
      ((0 : UInt8) ∈ encodeValue s → (0 : UInt8) ∈ s) ∧
      (encodeValue s <+: encodeValue t ↔ s <+: t) := by
  obtain ⟨hspell, hcodes⟩ := hs.flatMap_chars32
  have hzero : (0 : UInt8) ∈ s ↔ 0 ∈ chars32 s := by
    rw [← zero_mem_flatMap_utf8, hspell]
  refine ⟨⟨?_, ?_⟩, ?_, ?_⟩
  · intro h hmem
    have hlt := length_flatMap_codepointToUtf8_lt (hzero.mp hmem)
    rw [decodeValue, encodeValue, decodeValueLoop_flatMap _ _ (length_le_encodeValue _) hcodes] at h
    rw [h, hspell] at hlt
    exact Nat.lt_irrefl _ hlt
  · intro h
    exact decodeValue_encodeValue (hs.spelled h)
  · intro h
    obtain ⟨c, hc, hmem⟩ := List.mem_flatMap.mp h
    rw [zero_mem_encodeValueChar (hcodes c hc) hmem] at hc
    exact hzero.mpr hc
  · rw [validUtf8_prefix_iff hs ht]
    exact flatMap_prefix_iff (P := fun c => c ≤ 0x10ffff)
      (fun c _ => encodeValueChar_ne_nil c) read_encodeValueChar hcodes ht.flatMap_chars32.2

/-- A letter starts two. -/
theorem value_codec_ascii :
    decodeValue (encodeValue [0x61]) = [0x61] ∧
      encodeValue [0x61] <+: encodeValue [0x61, 0x62] := by
  have ha : ValidUtf8 [0x61] := ⟨[0x61], by decide, rfl⟩
  have hab : ValidUtf8 [0x61, 0x62] := ⟨[0x61, 0x62], by decide, rfl⟩
  obtain ⟨hread, -, hstarts⟩ := value_codec [0x61] [0x61, 0x62] ha hab
  exact ⟨hread.mpr (by decide), hstarts.mpr (by decide)⟩

/-- U+0000 is not read back. -/
theorem value_codec_nul : ¬ ∀ s t : Bytes, ValidUtf8 s → ValidUtf8 t →
    decodeValue (encodeValue s) = s ∧ ((0 : UInt8) ∈ encodeValue s → (0 : UInt8) ∈ s) ∧
      (encodeValue s <+: encodeValue t ↔ s <+: t) := by
  intro h
  have hnul : ValidUtf8 [0] := ⟨[0], by decide, rfl⟩
  exact absurd (h [0] [0] hnul hnul).1 (by decide)

/-! ## The key codec -/

theorem spelled_encodeKey {s : Bytes} (h : Spelled s) : Spelled (encodeKey s) := by
  refine ⟨(chars32 s).map swapKeyCode, ?_, ?_⟩
  · intro c hc
    obtain ⟨code, hcode, rfl⟩ := List.mem_map.mp hc
    exact swapKeyCode_bounds (h.flatMap_chars32.2 code hcode)
  · rw [List.flatMap_map]
    rfl

/-- **A PREFIX OF A CODE** is cut out of the key by its length. -/
theorem take_getDecodedKeyLength {s p : Bytes} (hs : Spelled s) (hp : Spelled p)
    (hstarts : p <+: encodeKey s) : s.take (getDecodedKeyLength p) = decodeKey p := by
  have hkey : encodeKey (encodeKey p) = p := encodeKey_encodeKey hp
  have hstart : encodeKey p <+: s := by
    rw [← encodeKey_prefix_iff (spelled_encodeKey hp) hs, hkey]
    exact hstarts
  obtain ⟨rest, rfl⟩ := hstart
  have hlength := getDecodedKeyLength_encodeKey (spelled_encodeKey hp)
  rw [hkey] at hlength
  rw [hlength, List.take_left]
  rfl

/-- **THE KEY CODEC** on a valid string without U+0000. -/
theorem key_codec (s : Bytes) (hs : ValidUtf8 s) (hnul : (0 : UInt8) ∉ s) :
    encodeKey (encodeKey s) = s ∧ decodeKey (encodeKey s) = s ∧
      getEncodedKeyLength s = (encodeKey s).length ∧
      ∀ p, ValidUtf8 p → p <+: encodeKey s → s.take (getDecodedKeyLength p) = decodeKey p := by
  have hspelled := hs.spelled hnul
  have hcode := spelled_encodeKey hspelled
  refine ⟨encodeKey_encodeKey hspelled, encodeKey_encodeKey hspelled, ?_, ?_⟩
  · have hlength := getDecodedKeyLength_encodeKey hcode
    rw [encodeKey_encodeKey hspelled] at hlength
    exact hlength
  · intro p hp hstarts
    have hnul' : (0 : UInt8) ∉ p := fun hmem => hcode.zero_notMem (hstarts.subset hmem)
    exact take_getDecodedKeyLength hspelled (hp.spelled hnul') hstarts

/-- The code of a kana takes one byte. -/
theorem key_codec_kana : encodeKey (encodeKey [0xE3, 0x81, 0x82]) = [0xE3, 0x81, 0x82] ∧
    getEncodedKeyLength [0xE3, 0x81, 0x82] = 1 := by
  have hvalid : ValidUtf8 [0xE3, 0x81, 0x82] := ⟨[0x3042], by decide, by decide⟩
  obtain ⟨hinverse, -, hlength, -⟩ := key_codec [0xE3, 0x81, 0x82] hvalid (by decide)
  exact ⟨hinverse, hlength.trans (by decide)⟩

/-- U+0000 is lost. -/
theorem key_codec_nul : ¬ ∀ s : Bytes, ValidUtf8 s →
    encodeKey (encodeKey s) = s ∧ decodeKey (encodeKey s) = s ∧
      getEncodedKeyLength s = (encodeKey s).length ∧
      ∀ p, ValidUtf8 p → p <+: encodeKey s → s.take (getDecodedKeyLength p) = decodeKey p := by
  intro h
  exact absurd (h [0] ⟨[0], by decide, rfl⟩).1 (by decide)

end MozkeyDictionary
