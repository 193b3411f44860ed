import Mozkey.Utf8Proofs

/-! # Util — code points of five and six bytes, and reading from the end

    `CodepointToUtf8` spells what is not in UCS4 but in 31 bits with five or six bytes, and
    `SplitFirstChar32` accepts both.  The encoder takes five bytes for what is below
    0x8000000, whose highest bit they cannot hold; the decoder takes six from 0x4000000 on.
    `SplitLastChar32` looks for the leading byte from the end and reads from there. -/

namespace MozkeyUtil

open ByteString

/-! ## Reading from the end -/

/-- `SplitLastChar32`; `none` where it returns `false`. -/
def splitLastChar32 (s : Bytes) : Option (Bytes × Nat) :=
  if s.isEmpty then none
  else
    let trailing := (s.reverse.takeWhile isUtf8TrailingByte).length
    if trailing = s.length then none
    else
      let len := trailing + 1
      match splitFirstChar32 (s.drop (s.length - len)) with
      | none => none
      | some (last, resultPiece) =>
        if resultPiece.isEmpty then some (s.take (s.length - len), last) else none

/-- The code points of a `ConstChar32ReverseIterator`; it is done at the first error, and every
    step takes a byte at least. -/
def lastChars32Loop : Nat → Bytes → List Nat
  | 0, _ => []
  | fuel + 1, s =>
    match splitLastChar32 s with
    | none => []
    | some (rest, c) => c :: lastChars32Loop fuel rest

/-- The code points of a `ConstChar32ReverseIterator`. -/
def lastChars32 (s : Bytes) : List Nat := lastChars32Loop s.length s

/-! ## Five and six bytes -/

/-- The forms of five and of six bytes. -/
def form5 : Utf8Form := ⟨0xF8, 0x04, 4, 0x200000⟩

/-- The form of six bytes. -/
def form6 : Utf8Form := ⟨0xFC, 0x02, 5, 0x4000000⟩

variable {s rest : Bytes} {c : Nat}

theorem codepointToUtf8_five (hmin : 0x200000 ≤ c) (hc : c < 0x8000000) :
    codepointToUtf8 c = form5.spell c := by
  rw [Utf8Form.codepointToUtf8_eq (by omega), Utf8Form.of, if_neg (by omega), if_neg (by omega),
    if_neg (by omega), if_pos hc]
  rfl

theorem splitFirstChar32_five (hmin : 0x200000 ≤ c) (hc : c < 0x8000000) (t : Bytes) :
    splitFirstChar32 (codepointToUtf8 c ++ t)
      = if c % 0x4000000 < 0x200000 then none else some (c % 0x4000000, t) := by
  rw [codepointToUtf8_five hmin hc, splitFirstChar32_spell (by decide)]
  rfl

theorem splitFirstChar32_six (hmin : 0x4000000 ≤ c) (hc : c ≤ 0x7fffffff) (t : Bytes) :
    splitFirstChar32 (form6.spell c ++ t) = some (c, t) := by
  rw [splitFirstChar32_spell (by decide), show form6.size = 0x80000000 from rfl,
    Nat.mod_eq_of_lt (by omega), show form6.minValue = 0x4000000 from rfl, if_neg (by omega)]

/-- **WHAT IS SPELLED IS READ**, exactly unless it needs six bytes and gets five. -/
theorem read_spelled_iff (hpos : 0 < c) (hc : c ≤ 0x7fffffff) :
    (∀ t, splitFirstChar32 (codepointToUtf8 c ++ t) = some (c, t)) ↔ ¬ NeedsSixBytes c := by
  constructor
  · rintro hread ⟨hmin, hmax⟩
    have hfive := hread []
    rw [splitFirstChar32_five (by omega) hmax] at hfive
    split at hfive
    · cases hfive
    · have hmod : c % 0x4000000 = c := (Prod.mk.inj (Option.some.inj hfive)).1
      omega
  · exact fun hfit t => read_of_spelled ⟨hpos, hc, hfit⟩ t

/-- **WHAT IS READ IS SPELLED SO**, exactly unless it needs six bytes and gets five. -/
theorem spelled_read_iff (hpos : 0 < c) (hc : c ≤ 0x7fffffff) :
    (∀ s rest, splitFirstChar32 s = some (c, rest) → s = codepointToUtf8 c ++ rest) ↔
      ¬ NeedsSixBytes c := by
  constructor
  · rintro hspelled ⟨hmin, hmax⟩
    have hsix := congrArg List.length (hspelled _ [] (splitFirstChar32_six hmin hc []))
    rw [codepointToUtf8_five (by omega) hmax] at hsix
    simp [Utf8Form.spell, length_trailingBits, form5, form6] at hsix
  · exact fun hfit s rest hread => spelled_of_read ⟨hpos, hc, hfit⟩ hread

/-- A code point that needs six bytes is read of six bytes. -/
theorem head_of_needsSixBytes (h : splitFirstChar32 s = some (c, rest)) (hc : NeedsSixBytes c) :
    ∃ y tail, y < 2 ∧ s = UInt8.ofNat (0xFC + y) :: tail := by
  obtain ⟨hmin, -⟩ := hc
  obtain ⟨b, -, -, rfl⟩ | ⟨form, hform, rfl, -, hmax⟩ := splitFirstChar32_inv h
  · exact absurd b.toNat_lt (by omega)
  · obtain rfl : form = form6 := by
      by_contra hne
      have hsmall : ∀ form ∈ Utf8Form.all, form ≠ form6 → form.size ≤ 0x4000000 := by decide
      have := hsmall form hform hne
      omega
    exact ⟨_, _, Nat.mod_lt _ (by decide), rfl⟩

/-- **WHAT IS READ OF A STRING** is spelled at its front. -/
theorem exists_append_of_chars32 {cs ds : List Nat} (hcs : ∀ c ∈ cs, IsSpelt c) :
    ∀ {s : Bytes}, chars32 s = cs ++ ds →
      ∃ rest, s = cs.flatMap codepointToUtf8 ++ rest ∧ chars32 rest = ds := by
  induction cs with
  | nil => exact fun {s} h => ⟨s, rfl, h⟩
  | cons c cs ih =>
    intro s h
    obtain ⟨hc, hcs⟩ := List.forall_mem_cons.mp hcs
    cases hread : splitFirstChar32 s with
    | none =>
      rw [chars32_of_none hread] at h
      cases h
    | some read =>
      obtain ⟨c', rest⟩ := read
      rw [chars32_of_some hread] at h
      obtain ⟨hhead, htail⟩ := List.cons.inj h
      rw [hhead] at hread
      obtain ⟨rest', rfl, hrest⟩ := ih hcs htail
      refine ⟨rest', ?_, hrest⟩
      rw [spelled_of_read hc hread, List.flatMap_cons,
        List.append_assoc]

/-! ## The last character -/

/-- The bytes of one character. -/
def Piece (p : Bytes) (c : Nat) : Prop :=
  ∃ leading tail, p = leading :: tail ∧ isUtf8TrailingByte leading = false ∧
    (∀ b ∈ tail, isUtf8TrailingByte b = true) ∧ splitFirstChar32 p = some (c, [])

theorem exists_piece (h : splitFirstChar32 s = some (c, rest)) :
    ∃ p, Piece p c ∧ s = p ++ rest := by
  obtain ⟨b, hb, rfl, rfl⟩ | ⟨form, hform, rfl, hmin, hmax⟩ := splitFirstChar32_inv h
  · have htrail : isUtf8TrailingByte b = false := by
      have hall : ∀ n < 128, isUtf8TrailingByte (UInt8.ofNat n) = false := by decide
      have hb' := hall b.toNat hb
      rwa [UInt8.ofNat_toNat] at hb'
    refine ⟨[b], ⟨b, [], rfl, htrail, fun d hd => absurd hd List.not_mem_nil, ?_⟩, rfl⟩
    rw [splitFirstChar32, if_pos hb]
  · have hread := splitFirstChar32_spell hform c []
    rw [List.append_nil, Nat.mod_eq_of_lt hmax, if_neg (Nat.not_lt.mpr hmin)] at hread
    have hleading := Utf8Form.leading_spec form hform (c / 0x40 ^ form.trailing % form.room)
      (Nat.mod_lt _ (Utf8Form.bounds form hform).1)
    refine ⟨form.spell c, ⟨_, _, rfl, hleading.2.1, ?_, hread⟩, rfl⟩
    intro b hb
    obtain ⟨x, hx, rfl⟩ := List.mem_map.mp hb
    exact (trailing_spec x (trailingBits_lt _ _ x hx)).1

/-- **THE LAST CHARACTER** is read of the same bytes as from the front. -/
theorem splitLastChar32_append {p : Bytes} (hp : Piece p c) (front : Bytes) :
    splitLastChar32 (front ++ p) = some (front, c) := by
  obtain ⟨leading, tail, rfl, hleading, htail, hread⟩ := hp
  have hwhile : ((front ++ leading :: tail).reverse.takeWhile isUtf8TrailingByte).length
      = tail.length := by
    rw [List.reverse_append, List.reverse_cons, List.append_assoc,
      List.takeWhile_append_of_pos (fun b hb => htail b (List.mem_reverse.mp hb)),
      List.singleton_append,
      List.takeWhile_cons_of_neg (by rw [hleading]; exact Bool.false_ne_true), List.append_nil,
      List.length_reverse]
  have hlength : (front ++ leading :: tail).length = front.length + (tail.length + 1) := by
    rw [List.length_append, List.length_cons]
  have hempty : (front ++ leading :: tail).isEmpty = false := by
    rw [List.isEmpty_eq_false_iff]
    exact List.append_ne_nil_of_right_ne_nil _ (List.cons_ne_nil _ _)
  rw [splitLastChar32, hempty, if_neg Bool.false_ne_true]
  simp only [hwhile]
  rw [if_neg (by omega), hlength, Nat.add_sub_cancel, List.drop_left, List.take_left, hread]
  rfl

theorem isValidUtf8_pieces (h : isValidUtf8 s = true) :
    ∃ ps : List (Bytes × Nat), (∀ p ∈ ps, Piece p.1 p.2) ∧ s = ps.flatMap Prod.fst ∧
      chars32 s = ps.map Prod.snd := by
  have hrun : ∀ (fuel : Nat) {s : Bytes}, isValidUtf8Loop fuel s = true →
      ∃ ps : List (Bytes × Nat), (∀ p ∈ ps, Piece p.1 p.2) ∧ s = ps.flatMap Prod.fst ∧
        chars32Loop fuel s = ps.map Prod.snd := by
    intro fuel
    induction fuel with
    | zero =>
      intro s h
      refine ⟨[], fun p hp => absurd hp List.not_mem_nil, List.isEmpty_iff.mp h, rfl⟩
    | succ fuel ih =>
      intro s h
      rw [isValidUtf8Loop] at h
      cases s with
      | nil => exact ⟨[], fun p hp => absurd hp List.not_mem_nil, rfl, rfl⟩
      | cons b tail =>
        rw [List.isEmpty_cons, if_neg Bool.false_ne_true] at h
        cases hread : splitFirstChar32 (b :: tail) with
        | none =>
          rw [hread] at h
          cases h
        | some read =>
          obtain ⟨c, rest⟩ := read
          rw [hread] at h
          obtain ⟨ps, hps, hrest, hchars⟩ := ih h
          obtain ⟨p, hp, hs⟩ := exists_piece hread
          refine ⟨(p, c) :: ps, List.forall_mem_cons.mpr ⟨hp, hps⟩, ?_, ?_⟩
          · rw [hs, hrest, List.flatMap_cons]
          · rw [chars32Loop, hread, List.map_cons, ← hchars]
  exact hrun s.length h

theorem lastChars32Loop_flatMap (ps : List (Bytes × Nat)) : ∀ (fuel : Nat), ps.length ≤ fuel →
    (∀ p ∈ ps, Piece p.1 p.2) →
    lastChars32Loop fuel (ps.flatMap Prod.fst) = (ps.map Prod.snd).reverse := by
  induction ps using List.reverseRecOn with
  | nil =>
    intro fuel _ _
    cases fuel <;> rfl
  | append_singleton ps p ih =>
    intro fuel hfuel hps
    rw [List.length_append, List.length_singleton] at hfuel
    obtain ⟨fuel, rfl⟩ := Nat.exists_eq_succ_of_ne_zero (by omega : fuel ≠ 0)
    have hp := hps p (List.mem_append_right _ (List.mem_singleton.mpr rfl))
    rw [List.flatMap_append, List.flatMap_singleton, lastChars32Loop,
      splitLastChar32_append hp]
    dsimp only
    rw [ih fuel (by omega) (fun q hq => hps q (List.mem_append_left _ hq)), List.map_append,
      List.map_singleton, List.reverse_append, List.reverse_singleton, List.singleton_append]

/-- **A VALID STRING IS READ BACKWARDS** from its end. -/
theorem lastChars32_eq (h : isValidUtf8 s = true) :
    lastChars32 s = (chars32 s).reverse := by
  obtain ⟨ps, hps, rfl, hchars⟩ := isValidUtf8_pieces h
  have hlength : ps.length ≤ (ps.flatMap Prod.fst).length := by
    rw [List.length_flatMap]
    refine le_trans (le_of_eq (List.length_map ..).symm) (List.length_le_sum_of_one_le _ ?_)
    intro n hn
    obtain ⟨p, hp, rfl⟩ := List.mem_map.mp hn
    obtain ⟨leading, tail, heq, -⟩ := hps p hp
    rw [heq]
    exact Nat.succ_pos _
  rw [lastChars32, lastChars32Loop_flatMap ps _ hlength hps, hchars]

/-- **THE ENCODER AND THE DECODER AGREE** on a code point, in both directions, exactly unless it
    needs six bytes and gets five; and a valid string is read backwards from its end. -/
theorem utf8_agree_iff (c : Nat) (hpos : 0 < c) (hc : c ≤ 0x7fffffff) :
    ((∀ t, splitFirstChar32 (codepointToUtf8 c ++ t) = some (c, t)) ↔ ¬ NeedsSixBytes c) ∧
      ((∀ s rest, splitFirstChar32 s = some (c, rest) → s = codepointToUtf8 c ++ rest) ↔
        ¬ NeedsSixBytes c) ∧
      ∀ s, isValidUtf8 s = true → lastChars32 s = (chars32 s).reverse :=
  ⟨read_spelled_iff hpos hc, spelled_read_iff hpos hc, fun _ => lastChars32_eq⟩

/-- U+3042 is spelled and read. -/
theorem utf8_agree_a :
    splitFirstChar32 (codepointToUtf8 0x3042 ++ [0x61]) = some (0x3042, [0x61]) :=
  (utf8_agree_iff 0x3042 (by decide) (by decide)).1.mpr
    (fun hneeds => absurd hneeds.1 (by decide)) [0x61]

/-- 0x4000000 is spelled with five bytes, which are not read; its six bytes are read. -/
theorem utf8_disagree : codepointToUtf8 0x4000000 = [0xF8, 0x80, 0x80, 0x80, 0x80] ∧
    splitFirstChar32 (codepointToUtf8 0x4000000) = none ∧
    splitFirstChar32 [0xFC, 0x84, 0x80, 0x80, 0x80, 0x80] = some (0x4000000, []) := by
  decide

end MozkeyUtil
