import Mozkey.Utf8Proofs

/-! # Strings — the strict UTF-8 decoder

    `Decode` reads one character by the table of well-formed byte sequences: the second byte
    is bounded by the leading one.  At an error it yields U+FFFD and the number of bytes it has
    seen.  `IsValidUtf8` and the iterators over a string step by what it has seen. -/

namespace MozkeyStrings

open ByteString

/-- What stands for an error. -/
def kReplacementCharacter : Nat := 0xfffd

/-- `Utf8Decoder::DecodeResult`. -/
structure DecodeResult where
  /-- U+FFFD at an error. -/
  codePoint : Nat
  ok : Bool
  bytesSeen : Nat
deriving DecidableEq, Repr

/-- `DecodeResult::Continue`. -/
def DecodeResult.continue (cp bytesSeen : Nat) : DecodeResult := ⟨cp, true, bytesSeen⟩

/-- `DecodeResult::Error`. -/
def DecodeResult.error (bytesSeen : Nat) : DecodeResult :=
  ⟨kReplacementCharacter, false, bytesSeen⟩

/-- `DecodeResult::Sentinel`. -/
def DecodeResult.sentinel : DecodeResult := ⟨0, false, 0⟩

/-- `kSecondByteBoundaries`. -/
def secondByteBoundary (n : UInt8) : UInt8 × UInt8 :=
  if n < 0xc2 ∨ 0xf4 < n then (0xff, 0x00)
  else if n = 0xe0 then (0xa0, 0xbf)
  else if n = 0xed then (0x80, 0x9f)
  else if n = 0xf0 then (0x90, 0xbf)
  else if n = 0xf4 then (0x80, 0x8f)
  else (0x80, 0xbf)

/-- `IsTrailingByte`. -/
def isTrailingByte (c : UInt8) : Bool := c &&& 0xc0 == 0x80

/-- `IsValidSecondByte`, for a leading byte that needs `needed` bytes. -/
def isValidSecondByte (needed : Nat) (leadingByte secondByte : UInt8) : Bool :=
  if needed = 2 then isTrailingByte secondByte
  else (secondByteBoundary leadingByte).1 ≤ secondByte
    && secondByte ≤ (secondByteBoundary leadingByte).2

/-- `AppendTrailingByte`. -/
def appendTrailingByte (base : Nat) (byte : UInt8) : Nat := (base <<< 6) + (byte &&& 0x3f).toNat

/-- The loop of `HandleBufferTooShort`. -/
def tooShortLoop (seen : Nat) : Bytes → DecodeResult
  | [] => .error seen
  | c :: rest => if isTrailingByte c then tooShortLoop (seen + 1) rest else .error seen

/-- `HandleBufferTooShort`; it checks the second byte against the boundaries whatever is
    needed. -/
def handleBufferTooShort (leadingByte : UInt8) : Bytes → DecodeResult
  | [] => .error 1
  | second :: rest =>
    if (secondByteBoundary leadingByte).1 ≤ second
        ∧ second ≤ (secondByteBoundary leadingByte).2 then tooShortLoop 2 rest
    else .error 1

/-- The loop of `DecodeSequence` over the bytes from the third on. -/
def decodeTrailing (seen base : Nat) : Bytes → DecodeResult
  | [] => .continue base seen
  | c :: rest =>
    if isTrailingByte c then decodeTrailing (seen + 1) (appendTrailingByte base c) rest
    else .error seen

/-- `DecodeSequence` on a buffer that holds `needed` bytes. -/
def decodeSequence (needed : Nat) (mask leadingByte : UInt8) (tail : Bytes) : DecodeResult :=
  match tail.take (needed - 1) with
  | [] => .error 1
  | second :: rest =>
    if isValidSecondByte needed leadingByte second then
      decodeTrailing 2 (appendTrailingByte (leadingByte &&& mask).toNat second) rest
    else .error 1

/-- `Decode`: one code point. -/
def decode : Bytes → DecodeResult
  | [] => .sentinel
  | c :: tail =>
    if c < 0x80 then .continue c.toNat 1
    else
      let needed := MozkeyUtil.oneCharLen c
      if (c :: tail).length < needed then handleBufferTooShort c tail
      else if needed = 3 then decodeSequence 3 0x0f c tail
      else if needed = 2 then decodeSequence 2 0x1f c tail
      else if needed = 4 then decodeSequence 4 0x07 c tail
      else .error 1

/-- The code points of a `Utf8AsChars32`; every step sees a byte at least. -/
def chars32Loop : Nat → Bytes → List Nat
  | 0, _ => []
  | fuel + 1, s =>
    if s.isEmpty then []
    else (decode s).codePoint :: chars32Loop fuel (s.drop (decode s).bytesSeen)

/-- The code points of a `Utf8AsChars32`. -/
def chars32 (s : Bytes) : List Nat := chars32Loop s.length s

/-- The loop of `IsValidUtf8`. -/
def isValidUtf8Loop : Nat → Bytes → Bool
  | 0, s => s.isEmpty
  | fuel + 1, s =>
    if s.isEmpty then true
    else if (decode s).ok then isValidUtf8Loop fuel (s.drop (decode s).bytesSeen)
    else false

/-- `IsValidUtf8`. -/
def isValidUtf8 (s : Bytes) : Bool := isValidUtf8Loop s.length s

/-! ## One step -/

/-- What a step over a character of more than one byte gives: an error, or a code point with
    none of the bytes seen in ASCII. -/
structure Seen (s : Bytes) (result : DecodeResult) : Prop where
  pos : 0 < result.bytesSeen
  error : result.ok = false → result.codePoint = kReplacementCharacter
  multi : result.ok = true → ∀ c ∈ s.take result.bytesSeen, ¬ c < 0x80

theorem Seen.of_error (s : Bytes) {seen : Nat} (h : 0 < seen) : Seen s (.error seen) where
  pos := h
  error _ := rfl
  multi h := by cases h

variable {c : UInt8}

theorem not_ascii_of_trailing (h : isTrailingByte c = true) : ¬ c < 0x80 := by
  revert h c
  decide +kernel

theorem not_ascii_of_second {needed : Nat} {leading : UInt8}
    (h : isValidSecondByte needed leading c = true) : ¬ c < 0x80 := by
  rw [isValidSecondByte] at h
  split at h
  · exact not_ascii_of_trailing h
  · rw [Bool.and_eq_true, decide_eq_true_eq, decide_eq_true_eq] at h
    have hlow : (0x80 : UInt8) ≤ (secondByteBoundary leading).1 := by
      clear h
      revert leading
      decide +kernel
    exact UInt8.not_lt.mpr (UInt8.le_trans hlow h.1)

theorem seen_tooShortLoop (s : Bytes) {seen : Nat} (h : 0 < seen) (rest : Bytes) :
    Seen s (tooShortLoop seen rest) := by
  induction rest generalizing seen with
  | nil => exact .of_error s h
  | cons c rest ih =>
    rw [tooShortLoop]
    split
    · exact ih (Nat.succ_pos seen)
    · exact .of_error s h

variable {s : Bytes}

theorem seen_decodeTrailing {pre : Bytes} (base : Nat) (rest : Bytes) {more : Bytes}
    (hs : s = pre ++ rest ++ more) (hpos : 0 < pre.length) (hpre : ∀ c ∈ pre, ¬ c < 0x80) :
    Seen s (decodeTrailing pre.length base rest) := by
  induction rest generalizing pre base with
  | nil =>
    refine ⟨hpos, fun h => (by cases h), fun _ c hc => hpre c ?_⟩
    simpa [hs, DecodeResult.continue, decodeTrailing] using hc
  | cons c rest ih =>
    rw [decodeTrailing]
    split
    case isTrue htrail =>
      have hstep := ih (appendTrailingByte base c)
        (by rw [hs, List.append_assoc pre [c] rest]; rfl)
        (by rw [List.length_append]; exact Nat.lt_add_right _ hpos)
        (by
          intro d hd
          rcases List.mem_append.mp hd with hd | hd
          · exact hpre d hd
          · cases List.mem_singleton.mp hd
            exact not_ascii_of_trailing htrail)
      rw [List.length_append] at hstep
      exact hstep
    case isFalse => exact .of_error s hpos

theorem seen_decodeSequence (hc : ¬ c < 0x80) (needed : Nat) (mask : UInt8) (tail : Bytes) :
    Seen (c :: tail) (decodeSequence needed mask c tail) := by
  rw [decodeSequence]
  cases htake : tail.take (needed - 1) with
  | nil => exact .of_error _ Nat.one_pos
  | cons second rest =>
    dsimp only
    split
    case isTrue hsecond =>
      have htail : c :: tail = [c, second] ++ rest ++ tail.drop (needed - 1) := by
        show c :: tail = c :: ((second :: rest) ++ tail.drop (needed - 1))
        rw [← htake, List.take_append_drop]
      refine seen_decodeTrailing _ rest htail (Nat.succ_pos 1) ?_
      · rintro d (_ | ⟨_, _ | ⟨_, hd⟩⟩)
        · exact hc
        · exact not_ascii_of_second hsecond
        · cases hd
    case isFalse => exact .of_error _ Nat.one_pos

/-- **ONE STEP**: an ASCII byte is its own code point; anything else is as `Seen` says. -/
theorem decode_cons (c : UInt8) (tail : Bytes) :
    (c < 0x80 ∧ decode (c :: tail) = .continue c.toNat 1) ∨
      ¬ c < 0x80 ∧ Seen (c :: tail) (decode (c :: tail)) := by
  by_cases hc : c < 0x80
  · exact .inl ⟨hc, if_pos hc⟩
  · refine .inr ⟨hc, ?_⟩
    rw [decode, if_neg hc]
    dsimp only
    split
    · cases tail with
      | nil => exact .of_error _ Nat.one_pos
      | cons second rest =>
        rw [handleBufferTooShort]
        split
        · exact seen_tooShortLoop _ (Nat.succ_pos 1) rest
        · exact .of_error _ Nat.one_pos
    split
    · exact seen_decodeSequence hc 3 0x0f tail
    split
    · exact seen_decodeSequence hc 2 0x1f tail
    split
    · exact seen_decodeSequence hc 4 0x07 tail
    · exact .of_error _ Nat.one_pos

theorem bytesSeen_pos (c : UInt8) (tail : Bytes) : 0 < (decode (c :: tail)).bytesSeen := by
  obtain ⟨-, h⟩ | ⟨-, h⟩ := decode_cons c tail
  · rw [h]
    exact Nat.one_pos
  · exact h.pos

theorem codePoint_of_not_ok {tail : Bytes} (hok : (decode (c :: tail)).ok = false) :
    (decode (c :: tail)).codePoint = kReplacementCharacter := by
  obtain ⟨-, h⟩ | ⟨-, h⟩ := decode_cons c tail
  · rw [h] at hok
    cases hok
  · exact h.error hok

variable {d : UInt8}

theorem codePoint_of_ascii {tail : Bytes} (hok : (decode (c :: tail)).ok = true)
    (hd : d ∈ (c :: tail).take (decode (c :: tail)).bytesSeen) (hascii : d < 0x80) :
    (decode (c :: tail)).codePoint = d.toNat := by
  obtain ⟨-, h⟩ | ⟨-, h⟩ := decode_cons c tail
  · rw [h] at hd ⊢
    have : d = c := by simpa [DecodeResult.continue] using hd
    rw [this]
    rfl
  · exact absurd hascii (h.multi hok d hd)

/-! ## The whole string -/

theorem isValidUtf8Loop_of_chars32 {fuel : Nat} (hfuel : s.length ≤ fuel)
    (h : kReplacementCharacter ∉ chars32Loop fuel s) : isValidUtf8Loop fuel s = true := by
  induction fuel generalizing s with
  | zero => rw [List.eq_nil_of_length_eq_zero (Nat.le_zero.mp hfuel)]; rfl
  | succ fuel ih =>
    cases s with
    | nil => rfl
    | cons c tail =>
      have hpos := bytesSeen_pos c tail
      rw [chars32Loop] at h
      simp only [List.isEmpty_cons, Bool.false_eq_true, if_false, List.mem_cons,
        not_or] at h
      rw [isValidUtf8Loop]
      simp only [List.isEmpty_cons, Bool.false_eq_true, if_false]
      rw [if_pos]
      · exact ih (by rw [List.length_drop]; omega) h.2
      · by_contra hok
        exact h.1 (codePoint_of_not_ok (Bool.eq_false_iff.mpr hok)).symm

theorem isValidUtf8_of_chars32 (h : kReplacementCharacter ∉ chars32 s) :
    isValidUtf8 s = true :=
  isValidUtf8Loop_of_chars32 le_rfl h

theorem mem_chars32Loop_of_ascii {fuel : Nat} (hfuel : s.length ≤ fuel)
    (hvalid : isValidUtf8Loop fuel s = true) (hd : d ∈ s) (hascii : d < 0x80) :
    d.toNat ∈ chars32Loop fuel s := by
  induction fuel generalizing s with
  | zero =>
    rw [List.eq_nil_of_length_eq_zero (Nat.le_zero.mp hfuel)] at hd
    cases hd
  | succ fuel ih =>
    cases s with
    | nil => cases hd
    | cons c tail =>
      have hpos := bytesSeen_pos c tail
      rw [isValidUtf8Loop] at hvalid
      simp only [List.isEmpty_cons, Bool.false_eq_true, if_false] at hvalid
      split at hvalid
      case isFalse => cases hvalid
      case isTrue hok =>
        rw [chars32Loop]
        simp only [List.isEmpty_cons, Bool.false_eq_true, if_false, List.mem_cons]
        rw [← List.take_append_drop (decode (c :: tail)).bytesSeen (c :: tail)] at hd
        rcases List.mem_append.mp hd with hd | hd
        · exact .inl (codePoint_of_ascii hok hd hascii).symm
        · exact .inr (ih (by rw [List.length_drop]; omega) hvalid hd)

/-- In a valid string an ASCII byte is a code point of its own. -/
theorem mem_chars32_of_ascii (hvalid : isValidUtf8 s = true) (hd : d ∈ s) (hascii : d < 0x80) :
    d.toNat ∈ chars32 s :=
  mem_chars32Loop_of_ascii le_rfl hvalid hd hascii

/-! ## Decoding inverts spelling -/

section

open MozkeyUtil

/-- What the decoder knows of the first two bytes of a form, if their bits begin a scalar value
    that needs it. -/
theorem decodeLeading_spec : ∀ form ∈ Utf8Form.all.take 3, ∀ x < form.room, ∀ y < 0x40,
    form.minValue ≤ (x * 0x40 + y) * 0x40 ^ (form.trailing - 1) →
    IsScalar ((x * 0x40 + y) * 0x40 ^ (form.trailing - 1)) →
    oneCharLen (form.leading x) = form.trailing + 1 ∧
      (form.leading x &&& UInt8.ofNat (form.room - 1)).toNat = x ∧
      isValidSecondByte (form.trailing + 1) (form.leading x) (trailingByte y) = true := by
  decide +kernel

theorem decodeTrailing_map {xs : List Nat} (hxs : ∀ x ∈ xs, x < 0x40) : ∀ seen base,
    decodeTrailing seen base (xs.map trailingByte)
      = .continue (codepoint base xs) (seen + xs.length) := by
  induction xs with
  | nil => exact fun _ _ => rfl
  | cons x xs ih =>
    intro seen base
    obtain ⟨hx, hxs⟩ := List.forall_mem_cons.mp hxs
    obtain ⟨htrail, hvalue⟩ := trailing_spec x hx
    have htrail' : isTrailingByte (trailingByte x) = true := htrail
    rw [List.map_cons, decodeTrailing, if_pos htrail', ih hxs, appendTrailingByte, hvalue,
      Nat.shiftLeft_eq, List.length_cons, Nat.add_right_comm]
    rfl

/-- A scalar value that is not ASCII: the bits of its form, of which the second byte has the
    next ones. -/
structure Spells (c : Nat) (form : Utf8Form) (x n y : Nat) : Prop where
  mem : form ∈ Utf8Form.all.take 3
  trailing : form.trailing = n + 1
  lt : y < 0x40
  eq : utf8 c = form.leading x :: trailingByte y :: (trailingBits n c).map trailingByte
  value : codepoint (x * 0x40 + y) (trailingBits n c) = c
  ascii : ¬ form.leading x < 0x80
  len : oneCharLen (form.leading x) = form.trailing + 1
  mask : (form.leading x &&& UInt8.ofNat (form.room - 1)).toNat = x
  second : isValidSecondByte (form.trailing + 1) (form.leading x) (trailingByte y) = true

theorem exists_spells {c : Nat} (hc : IsScalar c) (hascii : ¬ c < 0x80) :
    ∃ form x n y, Spells c form x n y := by
  have hmem : Utf8Form.of c ∈ Utf8Form.all.take 3 := by
    have hlt := hc.lt
    rw [Utf8Form.of]
    split_ifs <;> decide
  have hspell : utf8 c = (Utf8Form.of c).spell c := by
    rw [utf8, if_neg (by omega), Utf8Form.codepointToUtf8_eq (Nat.le_of_not_lt hascii)]
  obtain ⟨hmin, hmax⟩ := (isSpelt_of_lt (by omega) hc.lt).bounds (Nat.le_of_not_lt hascii)
  -- the bits behind the second byte decide nothing
  have hfront : (Utf8Form.of c).minValue
        ≤ c / 0x40 ^ ((Utf8Form.of c).trailing - 1) * 0x40 ^ ((Utf8Form.of c).trailing - 1) ∧
      IsScalar (c / 0x40 ^ ((Utf8Form.of c).trailing - 1)
        * 0x40 ^ ((Utf8Form.of c).trailing - 1)) := by
    have hlt := hc.lt
    rw [IsScalar] at hc ⊢
    rw [Utf8Form.of]
    split_ifs <;> simp only <;> omega
  generalize Utf8Form.of c = form at hmem hspell hmin hmax hfront
  obtain ⟨n, hn⟩ : ∃ n, form.trailing = n + 1 := by
    have hpos : ∀ form ∈ Utf8Form.all.take 3, 0 < form.trailing := by decide
    exact ⟨_, (Nat.sub_add_cancel (hpos form hmem)).symm⟩
  have hx : c / 0x40 ^ form.trailing < form.room := by
    rw [Nat.div_lt_iff_lt_mul (Nat.pow_pos (by decide))]
    exact hmax
  have hfirst : c / 0x40 ^ form.trailing * 0x40 + c / 0x40 ^ n % 0x40 = c / 0x40 ^ n := by
    rw [hn, Nat.pow_succ, ← Nat.div_div_eq_div_mul]
    omega
  have hspec := decodeLeading_spec form hmem _ hx (c / 0x40 ^ n % 0x40) (Nat.mod_lt _ (by decide))
  rw [hfirst, show n = form.trailing - 1 by omega] at hspec
  obtain ⟨hlen, hmask, hsecond⟩ := hspec hfront.1 hfront.2
  rw [show form.trailing - 1 = n by omega] at hsecond
  refine ⟨form, _, n, _, hmem, hn, Nat.mod_lt _ (by decide), ?_, ?_,
    (Utf8Form.leading_spec form (List.mem_of_mem_take hmem) _ hx).1, hlen, hmask, hsecond⟩
  · rw [hspell, Utf8Form.spell, Nat.mod_eq_of_lt hx, hn]
    rfl
  · rw [hfirst, codepoint_trailingBits, Nat.mul_comm, Nat.div_add_mod]

/-- **DECODING INVERTS SPELLING**, whatever follows. -/
theorem decode_utf8 {c : Nat} (hc : IsScalar c) (rest : Bytes) :
    decode (utf8 c ++ rest) = .continue c (utf8 c).length := by
  by_cases hascii : c < 0x80
  · rcases Nat.eq_zero_or_pos c with rfl | hpos
    · rfl
    have hbyte : ∀ n < 0x80, UInt8.ofNat n < 0x80 ∧ (UInt8.ofNat n).toNat = n := by decide
    obtain ⟨hlt, hvalue⟩ := hbyte c hascii
    rw [utf8, if_neg hpos.ne', codepointToUtf8_of_ascii hpos hascii, List.singleton_append, decode,
      if_pos hlt, hvalue]
    rfl
  obtain ⟨form, x, n, y, h⟩ := exists_spells hc hascii
  have hlength : (utf8 c).length = form.trailing + 1 := by
    rw [h.eq, List.length_cons, List.length_cons, List.length_map, length_trailingBits, h.trailing]
  have hsequence : decodeSequence (form.trailing + 1) (UInt8.ofNat (form.room - 1)) (form.leading x)
      (trailingByte y :: ((trailingBits n c).map trailingByte ++ rest))
        = .continue c (form.trailing + 1) := by
    obtain ⟨-, hy⟩ := trailing_spec y h.lt
    rw [decodeSequence, Nat.add_sub_cancel, h.trailing, List.take_succ_cons,
      List.take_left' (by rw [List.length_map, length_trailingBits])]
    dsimp only
    rw [← h.trailing, if_pos h.second, decodeTrailing_map (trailingBits_lt n c), appendTrailingByte,
      h.mask, hy, Nat.shiftLeft_eq, h.value, length_trailingBits, h.trailing, Nat.add_comm 2 n]
  rw [hlength]
  have hshort : ¬ (utf8 c ++ rest).length < form.trailing + 1 := by
    rw [List.length_append]
    omega
  rw [h.eq] at hshort ⊢
  rw [List.cons_append, List.cons_append] at hshort ⊢
  rw [decode, if_neg h.ascii, h.len]
  dsimp only
  rw [if_neg hshort]
  have hmem := h.mem
  simp only [Utf8Form.all, List.take_succ_cons, List.take_zero, List.mem_cons, List.not_mem_nil,
    or_false] at hmem
  obtain rfl | rfl | rfl := hmem
  · rw [if_neg (by decide), if_pos rfl]
    exact hsequence
  · rw [if_pos rfl]
    exact hsequence
  · rw [if_neg (by decide), if_neg (by decide), if_pos rfl]
    exact hsequence

end

/-! ## Characters of a valid text -/

section

open MozkeyUtil

theorem utf8_head {c : Nat} (hc : IsScalar c) :
    ∃ b bs, utf8 c = b :: bs ∧ oneCharLen b = (utf8 c).length := by
  by_cases hascii : c < 0x80
  · have hall : ∀ c < 0x80, ∃ b ∈ (utf8 c).head?, oneCharLen b = (utf8 c).length := by decide
    obtain ⟨b, hb, hlen⟩ := hall c hascii
    obtain ⟨bs, hbs⟩ := List.head?_eq_some_iff.mp hb
    exact ⟨b, bs, hbs, hlen⟩
  · obtain ⟨form, x, n, y, h⟩ := exists_spells hc hascii
    refine ⟨_, _, h.eq, ?_⟩
    rw [h.len, h.eq, List.length_cons, List.length_cons, List.length_map, length_trailingBits,
      h.trailing]

theorem utf8_append_spec {c : Nat} (hc : IsScalar c) (rest : Bytes) :
    ∃ b bs, utf8 c ++ rest = b :: bs ∧ ¬ (b :: bs).length < oneCharLen b ∧
      (b :: bs).drop (oneCharLen b) = rest ∧ (b :: bs).take (oneCharLen b) = utf8 c := by
  obtain ⟨b, bs, hutf8, hlen⟩ := utf8_head hc
  refine ⟨b, bs ++ rest, by rw [hutf8, List.cons_append], ?_, ?_, ?_⟩
  all_goals rw [← List.cons_append, ← hutf8, hlen]
  · rw [List.length_append]
    omega
  · exact List.drop_left
  · exact List.take_left

/-- The characters of a valid string are counted one by one. -/
theorem charsLen_flatMap {cs : List Nat} (hcs : ∀ c ∈ cs, IsScalar c) :
    charsLen (cs.flatMap utf8) = cs.length := by
  have hrun : ∀ (cs : List Nat) (fuel : Nat), (∀ c ∈ cs, IsScalar c) → cs.length ≤ fuel →
      charsLenLoop fuel (cs.flatMap utf8) = cs.length := by
    intro cs
    induction cs with
    | nil => intro fuel _ _; cases fuel <;> rfl
    | cons c cs ih =>
      intro fuel hcs hfuel
      obtain ⟨n, rfl⟩ : ∃ n, fuel = n + 1 :=
        ⟨fuel - 1, by rw [List.length_cons] at hfuel; omega⟩
      obtain ⟨b, bs, htext, -, hdrop, -⟩ :=
        utf8_append_spec (hcs c List.mem_cons_self) (cs.flatMap utf8)
      rw [List.flatMap_cons, htext, charsLenLoop, hdrop,
        ih n (fun d hd => hcs d (List.mem_cons_of_mem c hd)) (Nat.le_of_succ_le_succ hfuel)]
      rfl
  refine hrun cs _ hcs ?_
  induction cs with
  | nil => exact Nat.zero_le _
  | cons c cs ih =>
    have hpos := List.length_pos_iff.mpr (utf8_ne_nil c)
    have hle := ih fun d hd => hcs d (List.mem_cons_of_mem c hd)
    rw [List.flatMap_cons, List.length_cons, List.length_append]
    omega

end

end MozkeyStrings
