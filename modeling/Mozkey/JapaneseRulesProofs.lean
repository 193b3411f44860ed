import Mozkey.Utf8Proofs

/-! # Japanese — conversion by rules

    `ConvertUsingDoubleArray` replaces the longest key of its table at each position by the
    key's text and copies the character where no key matches.  The double array is the list of
    the rules it holds. -/

namespace MozkeyJapanese

open ByteString MozkeyUtil

/-- A rule of a table: the key, the text and how far the input is rewound after it. -/
structure Rule where
  key : Bytes
  text : Bytes
  rewind : Nat

/-- `LookupDoubleArray`: the rule with the longest key that is a prefix of the input; the empty
    key is as good as none. -/
def longestMatch (input : Bytes) : List Rule → Option Rule
  | [] => none
  | r :: rules =>
    match longestMatch input rules with
    | none => if r.key ≠ [] ∧ r.key <+: input then some r else none
    | some best =>
      if best.key.length < r.key.length ∧ r.key <+: input then some r else some best

/-- The loop of `ConvertUsingDoubleArray`; every step takes a byte at least where no rule
    rewinds the whole of its key. -/
def convertLoop (rules : List Rule) : Nat → Bytes → Bytes
  | 0, _ => []
  | _ + 1, [] => []
  | fuel + 1, c :: rest =>
    match longestMatch (c :: rest) rules with
    | some r => r.text ++ convertLoop rules fuel ((c :: rest).drop (r.key.length - r.rewind))
    | none =>
      (c :: rest).take (oneCharLen c)
        ++ convertLoop rules fuel ((c :: rest).drop (oneCharLen c))

/-- `ConvertUsingDoubleArray`. -/
def convertUsingDoubleArray (rules : List Rule) (input : Bytes) : Bytes :=
  convertLoop rules input.length input

/-! ## The tables

The generator spells the keys and the texts of its tables in UTF-8; no text is followed by a
third column, so that nothing is rewound. -/

/-- A line of a table, by its code points. -/
def rule (key text : List Nat) : Rule :=
  ⟨key.flatMap codepointToUtf8, text.flatMap codepointToUtf8, 0⟩

/-- The lines of `fullwidthascii_to_halfwidthascii`. -/
def fullwidthasciiToHalfwidthascii : List (Nat × Nat) :=
  [(0x3000, 0x20), (0xFF01, 0x21), (0x201D, 0x22), (0xFF03, 0x23), (0xFF04, 0x24), (0xFF05, 0x25),
   (0xFF06, 0x26), (0x2019, 0x27), (0xFF08, 0x28), (0xFF09, 0x29), (0xFF0A, 0x2A), (0xFF0B, 0x2B),
   (0xFF0C, 0x2C), (0x2212, 0x2D), (0xFF0E, 0x2E), (0xFF0F, 0x2F), (0xFF10, 0x30), (0xFF11, 0x31),
   (0xFF12, 0x32), (0xFF13, 0x33), (0xFF14, 0x34), (0xFF15, 0x35), (0xFF16, 0x36), (0xFF17, 0x37),
   (0xFF18, 0x38), (0xFF19, 0x39), (0xFF1A, 0x3A), (0xFF1B, 0x3B), (0xFF1C, 0x3C), (0xFF1D, 0x3D),
   (0xFF1E, 0x3E), (0xFF1F, 0x3F), (0xFF20, 0x40), (0xFF21, 0x41), (0xFF22, 0x42), (0xFF23, 0x43),
   (0xFF24, 0x44), (0xFF25, 0x45), (0xFF26, 0x46), (0xFF27, 0x47), (0xFF28, 0x48), (0xFF29, 0x49),
   (0xFF2A, 0x4A), (0xFF2B, 0x4B), (0xFF2C, 0x4C), (0xFF2D, 0x4D), (0xFF2E, 0x4E), (0xFF2F, 0x4F),
   (0xFF30, 0x50), (0xFF31, 0x51), (0xFF32, 0x52), (0xFF33, 0x53), (0xFF34, 0x54), (0xFF35, 0x55),
   (0xFF36, 0x56), (0xFF37, 0x57), (0xFF38, 0x58), (0xFF39, 0x59), (0xFF3A, 0x5A), (0xFF3B, 0x5B),
   (0xFFE5, 0x5C), (0xFF3D, 0x5D), (0xFF3E, 0x5E), (0xFF3F, 0x5F), (0xFF40, 0x60), (0xFF41, 0x61),
   (0xFF42, 0x62), (0xFF43, 0x63), (0xFF44, 0x64), (0xFF45, 0x65), (0xFF46, 0x66), (0xFF47, 0x67),
   (0xFF48, 0x68), (0xFF49, 0x69), (0xFF4A, 0x6A), (0xFF4B, 0x6B), (0xFF4C, 0x6C), (0xFF4D, 0x6D),
   (0xFF4E, 0x6E), (0xFF4F, 0x6F), (0xFF50, 0x70), (0xFF51, 0x71), (0xFF52, 0x72), (0xFF53, 0x73),
   (0xFF54, 0x74), (0xFF55, 0x75), (0xFF56, 0x76), (0xFF57, 0x77), (0xFF58, 0x78), (0xFF59, 0x79),
   (0xFF5A, 0x7A), (0xFF5B, 0x7B), (0xFF5C, 0x7C), (0xFF5D, 0x7D), (0x301C, 0x7E)]

/-- The lines of `halfwidthkatakana_to_fullwidthkatakana`. -/
def halfwidthkatakanaToFullwidthkatakana : List (List Nat × List Nat) :=
  [([0xFF61], [0x3002]), ([0xFF62], [0x300C]), ([0xFF63], [0x300D]), ([0xFF64], [0x3001]),
   ([0xFF65], [0x30FB]), ([0xFF66], [0x30F2]), ([0xFF66, 0xFF9E], [0x30F2, 0x309B]),
   ([0xFF67], [0x30A1]), ([0xFF68], [0x30A3]), ([0xFF69], [0x30A5]), ([0xFF6A], [0x30A7]),
   ([0xFF6B], [0x30A9]), ([0xFF6C], [0x30E3]), ([0xFF6D], [0x30E5]), ([0xFF6E], [0x30E7]),
   ([0xFF6F], [0x30C3]), ([0xFF70], [0x30FC]), ([0xFF71], [0x30A2]), ([0xFF72], [0x30A4]),
   ([0xFF73], [0x30A6]), ([0xFF73, 0xFF9E], [0x30F4]), ([0xFF74], [0x30A8]), ([0xFF75], [0x30AA]),
   ([0xFF76], [0x30AB]), ([0xFF77], [0x30AD]), ([0xFF78], [0x30AF]), ([0xFF79], [0x30B1]),
   ([0xFF7A], [0x30B3]), ([0xFF76, 0xFF9E], [0x30AC]), ([0xFF77, 0xFF9E], [0x30AE]),
   ([0xFF78, 0xFF9E], [0x30B0]), ([0xFF79, 0xFF9E], [0x30B2]), ([0xFF7A, 0xFF9E], [0x30B4]),
   ([0xFF7B], [0x30B5]), ([0xFF7C], [0x30B7]), ([0xFF7D], [0x30B9]), ([0xFF7E], [0x30BB]),
   ([0xFF7F], [0x30BD]), ([0xFF7B, 0xFF9E], [0x30B6]), ([0xFF7C, 0xFF9E], [0x30B8]),
   ([0xFF7D, 0xFF9E], [0x30BA]), ([0xFF7E, 0xFF9E], [0x30BC]), ([0xFF7F, 0xFF9E], [0x30BE]),
   ([0xFF80], [0x30BF]), ([0xFF81], [0x30C1]), ([0xFF82], [0x30C4]), ([0xFF83], [0x30C6]),
   ([0xFF84], [0x30C8]), ([0xFF80, 0xFF9E], [0x30C0]), ([0xFF81, 0xFF9E], [0x30C2]),
   ([0xFF82, 0xFF9E], [0x30C5]), ([0xFF83, 0xFF9E], [0x30C7]), ([0xFF84, 0xFF9E], [0x30C9]),
   ([0xFF85], [0x30CA]), ([0xFF86], [0x30CB]), ([0xFF87], [0x30CC]), ([0xFF88], [0x30CD]),
   ([0xFF89], [0x30CE]), ([0xFF8A], [0x30CF]), ([0xFF8B], [0x30D2]), ([0xFF8C], [0x30D5]),
   ([0xFF8D], [0x30D8]), ([0xFF8E], [0x30DB]), ([0xFF8A, 0xFF9E], [0x30D0]),
   ([0xFF8B, 0xFF9E], [0x30D3]), ([0xFF8C, 0xFF9E], [0x30D6]), ([0xFF8D, 0xFF9E], [0x30D9]),
   ([0xFF8E, 0xFF9E], [0x30DC]), ([0xFF8A, 0xFF9F], [0x30D1]), ([0xFF8B, 0xFF9F], [0x30D4]),
   ([0xFF8C, 0xFF9F], [0x30D7]), ([0xFF8D, 0xFF9F], [0x30DA]), ([0xFF8E, 0xFF9F], [0x30DD]),
   ([0xFF8F], [0x30DE]), ([0xFF90], [0x30DF]), ([0xFF91], [0x30E0]), ([0xFF92], [0x30E1]),
   ([0xFF93], [0x30E2]), ([0xFF94], [0x30E4]), ([0xFF95], [0x30E6]), ([0xFF96], [0x30E8]),
   ([0xFF97], [0x30E9]), ([0xFF98], [0x30EA]), ([0xFF99], [0x30EB]), ([0xFF9A], [0x30EC]),
   ([0xFF9B], [0x30ED]), ([0xFF9C], [0x30EF]), ([0xFF9C, 0xFF9E], [0x30EF, 0x309B]),
   ([0xFF9D], [0x30F3]), ([0xFF9E], [0x309B]), ([0xFF9F], [0x309C])]

/-- The lines of `katakana_to_hiragana`: ァ to ヴ, each the hiragana 0x60 below it. -/
def katakanaToHiraganaTable : List (Nat × Nat) :=
  (List.range' 0x30A1 84).map fun c => (c, c - 0x60)

/-- The rules of the tables. -/
def fullwidthasciiRules : List Rule :=
  fullwidthasciiToHalfwidthascii.map fun line => rule [line.1] [line.2]

/-- The rules for half-width katakana. -/
def halfwidthkatakanaRules : List Rule :=
  halfwidthkatakanaToFullwidthkatakana.map fun line => rule line.1 line.2

/-- The rules for katakana. -/
def katakanaRules : List Rule := katakanaToHiraganaTable.map fun line => rule [line.1] [line.2]

/-- `FullWidthAsciiToHalfWidthAscii`. -/
def fullWidthAsciiToHalfWidthAscii (input : Bytes) : Bytes :=
  convertUsingDoubleArray fullwidthasciiRules input

/-- `HalfWidthKatakanaToFullWidthKatakana`. -/
def halfWidthKatakanaToFullWidthKatakana (input : Bytes) : Bytes :=
  convertUsingDoubleArray halfwidthkatakanaRules input

/-- `KatakanaToHiragana`. -/
def katakanaToHiragana (input : Bytes) : Bytes := convertUsingDoubleArray katakanaRules input

/-! ## Rules that do not lengthen -/

/-- A rule whose text is neither empty nor longer than what it takes of the input. -/
def Rule.Shrinks (r : Rule) : Prop := r.text ≠ [] ∧ r.text.length + r.rewind ≤ r.key.length

instance (r : Rule) : Decidable r.Shrinks := inferInstanceAs (Decidable (_ ∧ _))

theorem shrinks_fullwidthasciiRules : ∀ r ∈ fullwidthasciiRules, r.Shrinks := by decide +kernel

theorem shrinks_halfwidthkatakanaRules : ∀ r ∈ halfwidthkatakanaRules, r.Shrinks := by
  decide +kernel

theorem shrinks_katakanaRules : ∀ r ∈ katakanaRules, r.Shrinks := by decide +kernel

variable {input : Bytes} {rules : List Rule}

/-- What a lookup finds is a rule whose key is a prefix of the input. -/
theorem longestMatch_mem {r : Rule} (h : longestMatch input rules = some r) :
    r ∈ rules ∧ r.key <+: input := by
  induction rules generalizing r with
  | nil => cases h
  | cons first rules ih =>
    rw [longestMatch] at h
    cases hrest : longestMatch input rules with
    | none =>
      simp only [hrest] at h
      split at h
      case isTrue hkey => cases h; exact ⟨List.mem_cons_self, hkey.2⟩
      case isFalse => cases h
    | some best =>
      simp only [hrest] at h
      split at h
      case isTrue hkey => cases h; exact ⟨List.mem_cons_self, hkey.2⟩
      case isFalse =>
        cases h
        exact ⟨List.mem_cons_of_mem _ (ih hrest).1, (ih hrest).2⟩

theorem oneCharLen_pos (c : UInt8) : 0 < oneCharLen c := by
  rw [oneCharLen]
  split_ifs <;> decide

/-- A conversion by rules that shrink leaves nothing only of nothing, and never lengthens. -/
theorem convertLoop_spec (hrules : ∀ r ∈ rules, r.Shrinks) (fuel : Nat) (input : Bytes) :
    (input ≠ [] → 0 < fuel → convertLoop rules fuel input ≠ [])
      ∧ (convertLoop rules fuel input).length ≤ input.length := by
  induction fuel generalizing input with
  | zero => exact ⟨fun _ h => absurd h (Nat.lt_irrefl 0), Nat.zero_le _⟩
  | succ fuel ih =>
    cases input with
    | nil => exact ⟨fun h => absurd rfl h, Nat.zero_le _⟩
    | cons c rest =>
      rw [convertLoop]
      cases hmatch : longestMatch (c :: rest) rules with
      | some r =>
        obtain ⟨hr, hprefix⟩ := longestMatch_mem hmatch
        obtain ⟨htext, hlen⟩ := hrules r hr
        refine ⟨fun _ _ h => htext (List.append_eq_nil_iff.mp h).1, ?_⟩
        have hrest := (ih ((c :: rest).drop (r.key.length - r.rewind))).2
        have hkey := hprefix.length_le
        rw [List.length_drop] at hrest
        rw [List.length_append]
        omega
      | none =>
        have hrest := (ih ((c :: rest).drop (oneCharLen c))).2
        rw [List.length_drop] at hrest
        refine ⟨fun _ _ h => ?_, ?_⟩
        · have := (List.append_eq_nil_iff.mp h).1
          rw [List.take_eq_nil_iff] at this
          rcases this with h | h
          · exact absurd h (Nat.ne_of_gt (oneCharLen_pos c))
          · cases h
        · rw [List.length_append, List.length_take]
          omega

theorem convert_ne_nil (hrules : ∀ r ∈ rules, r.Shrinks) (h : input ≠ []) :
    convertUsingDoubleArray rules input ≠ [] :=
  (convertLoop_spec hrules _ input).1 h (List.length_pos_of_ne_nil h)

theorem length_convert_le (hrules : ∀ r ∈ rules, r.Shrinks) (input : Bytes) :
    (convertUsingDoubleArray rules input).length ≤ input.length :=
  (convertLoop_spec hrules _ input).2

/-! ## Strings that no rule touches -/

theorem longestMatch_eq_none (h : ∀ r ∈ rules, ¬ r.key <+: input) :
    longestMatch input rules = none := by
  cases hmatch : longestMatch input rules with
  | none => rfl
  | some r =>
    obtain ⟨hr, hprefix⟩ := longestMatch_mem hmatch
    exact absurd hprefix (h r hr)

/-- The first two bytes of the keys of the two tables of half width and full width. -/
def widthHeads : List Bytes :=
  [[0xE3, 0x80], [0xE2, 0x80], [0xE2, 0x88], [0xEF, 0xBC], [0xEF, 0xBD], [0xEF, 0xBE],
    [0xEF, 0xBF]]

theorem widthHeads_spec : ∀ r ∈ fullwidthasciiRules ++ halfwidthkatakanaRules,
    2 ≤ r.key.length ∧ r.key.take 2 ∈ widthHeads := by decide +kernel

/-- A string in which no two bytes are those of a key is left alone. -/
theorem convert_eq_self {heads : List Bytes}
    (hrules : ∀ r ∈ rules, 2 ≤ r.key.length ∧ r.key.take 2 ∈ heads)
    (h : ∀ tail, tail <:+ input → tail.take 2 ∉ heads) :
    convertUsingDoubleArray rules input = input := by
  have hloop : ∀ fuel tail, tail <:+ input → tail.length ≤ fuel →
      convertLoop rules fuel tail = tail := by
    intro fuel
    induction fuel with
    | zero =>
      intro tail _ hlen
      rw [List.eq_nil_of_length_eq_zero (Nat.le_zero.mp hlen)]
      rfl
    | succ fuel ih =>
      intro tail hsuffix hlen
      cases tail with
      | nil => rfl
      | cons c rest =>
        have hnone : longestMatch (c :: rest) rules = none :=
          longestMatch_eq_none fun r hr hprefix => by
            obtain ⟨hkey, hhead⟩ := hrules r hr
            obtain ⟨more, hmore⟩ := hprefix
            refine h _ hsuffix ?_
            rw [← hmore, List.take_append_of_le_length hkey]
            exact hhead
        have hpos := oneCharLen_pos c
        rw [convertLoop, hnone]
        dsimp only
        rw [ih _ ((List.drop_suffix _ _).trans hsuffix), List.take_append_drop]
        rw [List.length_drop]
        omega
  exact hloop _ input (List.suffix_refl input) le_rfl

theorem width_eq_self (h : ∀ tail ∈ input.tails, tail.take 2 ∉ widthHeads) :
    halfWidthKatakanaToFullWidthKatakana (fullWidthAsciiToHalfWidthAscii input) = input := by
  have htail : ∀ tail, tail <:+ input → tail.take 2 ∉ widthHeads := fun tail ht =>
    h tail ((List.mem_tails _ _).mpr ht)
  rw [fullWidthAsciiToHalfWidthAscii, convert_eq_self
    (fun r hr => widthHeads_spec r (List.mem_append_left _ hr)) htail]
  exact convert_eq_self (fun r hr => widthHeads_spec r (List.mem_append_right _ hr)) htail

end MozkeyJapanese
