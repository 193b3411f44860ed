import Mozkey.JapaneseRulesProofs
import Mozkey.UnicodeStringsProofs

/-! # UserDictionary — the entries of a user dictionary

    An entry is checked when it is stored: the reading and the word are there and short, and no
    field holds a tab, a line break or broken UTF-8.  Readings are the same word when
    `NormalizeReading` makes them the same. -/

namespace MozkeyUserDictionary

open ByteString MozkeyUtil MozkeyJapanese

/-- A byte is in a text if it is equal to one of its bytes. -/
scoped instance lawfulBEqUInt8 : LawfulBEq UInt8 := Std.LawfulBEqOrd.lawfulBEq

/-! ## Entries -/

/-- `UserDictionary::PosType`. -/
inductive PosType where
  | noPos | noun | abbreviation | suggestionOnly | properNoun | personalName | familyName
  | firstName | organizationName | placeName | saIrregularConjugationNoun | adjectiveVerbalNoun
  | number | alphabet | symbol | emoticon | adverb | prenounAdjectival | conjunction
  | interjection | prefixPos | counterSuffix | genericSuffix | personNameSuffix | placeNameSuffix
  | waGroup1Verb | kaGroup1Verb | saGroup1Verb | taGroup1Verb | naGroup1Verb | maGroup1Verb
  | raGroup1Verb | gaGroup1Verb | baGroup1Verb | haGroup1Verb | group2Verb | kuruGroup3Verb
  | suruGroup3Verb | zuruGroup3Verb | ruGroup3Verb | adjective | sentenceEndingParticle
  | punctuation | freeStandingWord | suppressionWord
  deriving DecidableEq

/-- The names in `kPosTypeStringTable`, by their code points. -/
def PosType.name : PosType → List Nat
  | .noPos => [0x54C1, 0x8A5E, 0x306A, 0x3057] -- 品詞なし
  | .noun => [0x540D, 0x8A5E] -- 名詞
  | .abbreviation => [0x77ED, 0x7E2E, 0x3088, 0x307F] -- 短縮よみ
  | .suggestionOnly => [0x30B5, 0x30B8, 0x30A7, 0x30B9, 0x30C8, 0x306E, 0x307F] -- サジェストのみ
  | .properNoun => [0x56FA, 0x6709, 0x540D, 0x8A5E] -- 固有名詞
  | .personalName => [0x4EBA, 0x540D] -- 人名
  | .familyName => [0x59D3] -- 姓
  | .firstName => [0x540D] -- 名
  | .organizationName => [0x7D44, 0x7E54] -- 組織
  | .placeName => [0x5730, 0x540D] -- 地名
  | .saIrregularConjugationNoun => [0x540D, 0x8A5E, 0x30B5, 0x5909] -- 名詞サ変
  | .adjectiveVerbalNoun => [0x540D, 0x8A5E, 0x5F62, 0x52D5] -- 名詞形動
  | .number => [0x6570] -- 数
  | .alphabet => [0x30A2, 0x30EB, 0x30D5, 0x30A1, 0x30D9, 0x30C3, 0x30C8] -- アルファベット
  | .symbol => [0x8A18, 0x53F7] -- 記号
  | .emoticon => [0x9854, 0x6587, 0x5B57] -- 顔文字
  | .adverb => [0x526F, 0x8A5E] -- 副詞
  | .prenounAdjectival => [0x9023, 0x4F53, 0x8A5E] -- 連体詞
  | .conjunction => [0x63A5, 0x7D9A, 0x8A5E] -- 接続詞
  | .interjection => [0x611F, 0x52D5, 0x8A5E] -- 感動詞
  | .prefixPos => [0x63A5, 0x982D, 0x8A9E] -- 接頭語
  | .counterSuffix => [0x52A9, 0x6570, 0x8A5E] -- 助数詞
  | .genericSuffix => [0x63A5, 0x5C3E, 0x4E00, 0x822C] -- 接尾一般
  | .personNameSuffix => [0x63A5, 0x5C3E, 0x4EBA, 0x540D] -- 接尾人名
  | .placeNameSuffix => [0x63A5, 0x5C3E, 0x5730, 0x540D] -- 接尾地名
  | .waGroup1Verb => [0x52D5, 0x8A5E, 0x30EF, 0x884C, 0x4E94, 0x6BB5] -- 動詞ワ行五段
  | .kaGroup1Verb => [0x52D5, 0x8A5E, 0x30AB, 0x884C, 0x4E94, 0x6BB5] -- 動詞カ行五段
  | .saGroup1Verb => [0x52D5, 0x8A5E, 0x30B5, 0x884C, 0x4E94, 0x6BB5] -- 動詞サ行五段
  | .taGroup1Verb => [0x52D5, 0x8A5E, 0x30BF, 0x884C, 0x4E94, 0x6BB5] -- 動詞タ行五段
  | .naGroup1Verb => [0x52D5, 0x8A5E, 0x30CA, 0x884C, 0x4E94, 0x6BB5] -- 動詞ナ行五段
  | .maGroup1Verb => [0x52D5, 0x8A5E, 0x30DE, 0x884C, 0x4E94, 0x6BB5] -- 動詞マ行五段
  | .raGroup1Verb => [0x52D5, 0x8A5E, 0x30E9, 0x884C, 0x4E94, 0x6BB5] -- 動詞ラ行五段
  | .gaGroup1Verb => [0x52D5, 0x8A5E, 0x30AC, 0x884C, 0x4E94, 0x6BB5] -- 動詞ガ行五段
  | .baGroup1Verb => [0x52D5, 0x8A5E, 0x30D0, 0x884C, 0x4E94, 0x6BB5] -- 動詞バ行五段
  | .haGroup1Verb => [0x52D5, 0x8A5E, 0x30CF, 0x884C, 0x56DB, 0x6BB5] -- 動詞ハ行四段
  | .group2Verb => [0x52D5, 0x8A5E, 0x4E00, 0x6BB5] -- 動詞一段
  | .kuruGroup3Verb => [0x52D5, 0x8A5E, 0x30AB, 0x5909] -- 動詞カ変
  | .suruGroup3Verb => [0x52D5, 0x8A5E, 0x30B5, 0x5909] -- 動詞サ変
  | .zuruGroup3Verb => [0x52D5, 0x8A5E, 0x30B6, 0x5909] -- 動詞ザ変
  | .ruGroup3Verb => [0x52D5, 0x8A5E, 0x30E9, 0x5909] -- 動詞ラ変
  | .adjective => [0x5F62, 0x5BB9, 0x8A5E] -- 形容詞
  | .sentenceEndingParticle => [0x7D42, 0x52A9, 0x8A5E] -- 終助詞
  | .punctuation => [0x53E5, 0x8AAD, 0x70B9] -- 句読点
  | .freeStandingWord => [0x72EC, 0x7ACB, 0x8A9E] -- 独立語
  | .suppressionWord => [0x6291, 0x5236, 0x5358, 0x8A9E] -- 抑制単語

/-- The types in the order of `kPosTypeStringTable`. -/
def PosType.all : List PosType :=
  [.noPos, .noun, .abbreviation, .suggestionOnly, .properNoun, .personalName, .familyName,
   .firstName, .organizationName, .placeName, .saIrregularConjugationNoun, .adjectiveVerbalNoun,
   .number, .alphabet, .symbol, .emoticon, .adverb, .prenounAdjectival, .conjunction,
   .interjection, .prefixPos, .counterSuffix, .genericSuffix, .personNameSuffix, .placeNameSuffix,
   .waGroup1Verb, .kaGroup1Verb, .saGroup1Verb, .taGroup1Verb, .naGroup1Verb, .maGroup1Verb,
   .raGroup1Verb, .gaGroup1Verb, .baGroup1Verb, .haGroup1Verb, .group2Verb, .kuruGroup3Verb,
   .suruGroup3Verb, .zuruGroup3Verb, .ruGroup3Verb, .adjective, .sentenceEndingParticle,
   .punctuation, .freeStandingWord, .suppressionWord]

theorem PosType.mem_all (pos : PosType) : pos ∈ PosType.all := by
  cases pos <;> decide

/-- `UserPos::GetStringPosType`. -/
def getStringPosType (pos : PosType) : Bytes := pos.name.flatMap codepointToUtf8

/-- `UserDictionary::Entry`. -/
structure Entry where
  key : Bytes
  value : Bytes
  comment : Bytes
  /-- Unset is `none`. -/
  pos : Option PosType
  locale : Bytes
  deriving DecidableEq

/-- `entry.pos()`, with the default of the field. -/
def Entry.posType (entry : Entry) : PosType := entry.pos.getD .noun

/-! ## Readings -/

/-- `NormalizeReading`. -/
def normalizeReading (input : Bytes) : Bytes :=
  katakanaToHiragana (halfWidthKatakanaToFullWidthKatakana (fullWidthAsciiToHalfWidthAscii input))

/-- The ranges that `InternalValidateNormalizedReading` allows. -/
def readingRanges : List (Nat × Nat) :=
  [(0x0021, 0x007E), (0x3041, 0x3096), (0x309B, 0x309C), (0x30FB, 0x30FC), (0x3001, 0x3002),
    (0x300C, 0x300F), (0x301C, 0x301C)]

/-- `InternalValidateNormalizedReading`. -/
def internalValidateNormalizedReading (reading : Bytes) : Bool :=
  (MozkeyStrings.chars32 reading).all fun c =>
    readingRanges.any fun range => range.1 ≤ c ∧ c ≤ range.2

/-- `IsValidReading`. -/
def isValidReading (reading : Bytes) : Bool :=
  internalValidateNormalizedReading (normalizeReading reading)

/-! ## Validation -/

/-- `ExtendedErrorCode`, as far as entries and importing use it. -/
inductive ExtendedErrorCode where
  | ok
  | readingEmpty | readingTooLong | readingContainsInvalidCharacter
  | wordEmpty | wordTooLong | wordContainsInvalidCharacter
  | invalidPosType | commentTooLong | commentContainsInvalidCharacter
  | importTooManyWords | importNotSupported | importInvalidEntries
  deriving DecidableEq

/-- The longest strings of an entry. -/
def kMaxStringSize : Nat := 300

/-- Line ends and tabs. -/
def kInvalidChars : Bytes := [0x0A, 0x0D, 0x09]

/-- Is a string too long? -/
def isTooLongString (str : Bytes) : Bool := kMaxStringSize < str.length

/-- Is there a character that is not allowed? -/
def containsInvalidChars (str : Bytes) : Bool :=
  str.any (· ∈ kInvalidChars) || !MozkeyStrings.isValidUtf8 str

/-- `ValidateEntry`: the first check that fails. -/
def validateEntry (entry : Entry) : ExtendedErrorCode :=
  if entry.key.isEmpty then .readingEmpty
  else if isTooLongString entry.key then .readingTooLong
  else if containsInvalidChars entry.key then .readingContainsInvalidCharacter
  else if entry.value.isEmpty then .wordEmpty
  else if isTooLongString entry.value then .wordTooLong
  else if containsInvalidChars entry.value then .wordContainsInvalidCharacter
  else if isTooLongString entry.comment then .commentTooLong
  else if containsInvalidChars entry.comment then .commentContainsInvalidCharacter
  else if entry.pos.isNone then .invalidPosType
  else .ok

/-- What a field that passes the checks is. -/
structure CleanField (str : Bytes) : Prop where
  short : str.length ≤ kMaxStringSize
  clean : containsInvalidChars str = false

/-- What `ValidateEntry` accepts. -/
structure ValidEntry (entry : Entry) : Prop where
  key_ne : entry.key ≠ []
  key : CleanField entry.key
  value_ne : entry.value ≠ []
  value : CleanField entry.value
  comment : CleanField entry.comment
  pos : entry.pos.isSome

theorem cleanField_iff {str : Bytes} : CleanField str
    ↔ isTooLongString str = false ∧ containsInvalidChars str = false := by
  rw [isTooLongString, decide_eq_false_iff_not, Nat.not_lt]
  exact ⟨fun h => ⟨h.short, h.clean⟩, fun h => ⟨h.1, h.2⟩⟩

theorem validateEntry_eq_ok {entry : Entry} : validateEntry entry = .ok ↔ ValidEntry entry := by
  constructor
  · intro h
    rw [validateEntry] at h
    split_ifs at h with hkey hkeyLong hkeyClean hvalue hvalueLong hvalueClean hlong hclean hpos
    simp only [Bool.not_eq_true] at hkeyLong hkeyClean hvalueLong hvalueClean hlong hclean
    exact
      { key_ne := fun hnil => hkey (List.isEmpty_iff.mpr hnil)
        key := cleanField_iff.mpr ⟨hkeyLong, hkeyClean⟩
        value_ne := fun hnil => hvalue (List.isEmpty_iff.mpr hnil)
        value := cleanField_iff.mpr ⟨hvalueLong, hvalueClean⟩
        comment := cleanField_iff.mpr ⟨hlong, hclean⟩
        pos := by rwa [Option.isNone_iff_eq_none, ← Ne, Option.ne_none_iff_isSome] at hpos }
  · rintro ⟨hkey, hkeyField, hvalue, hvalueField, hcomment, hpos⟩
    rw [cleanField_iff] at hkeyField hvalueField hcomment
    have hpos : entry.pos.isNone = false := by simpa using hpos
    simp [validateEntry, hkey, hkeyField, hvalue, hvalueField, hcomment, hpos]

theorem CleanField.not_mem {str : Bytes} (h : CleanField str) {c : UInt8}
    (hc : c ∈ kInvalidChars) : c ∉ str := by
  intro hmem
  have hclean := h.clean
  rw [containsInvalidChars, Bool.or_eq_false_iff] at hclean
  have := List.any_eq_false.mp hclean.1 c hmem
  exact this (by simpa using hc)

/-! ## Normalization keeps a reading valid -/

/-- Normalization leaves no reading empty. -/
theorem normalizeReading_ne_nil {input : Bytes} (h : input ≠ []) :
    normalizeReading input ≠ [] :=
  convert_ne_nil shrinks_katakanaRules
    (convert_ne_nil shrinks_halfwidthkatakanaRules (convert_ne_nil shrinks_fullwidthasciiRules h))

theorem length_normalizeReading_le (input : Bytes) :
    (normalizeReading input).length ≤ input.length :=
  ((length_convert_le shrinks_katakanaRules _).trans
    (length_convert_le shrinks_halfwidthkatakanaRules _)).trans
    (length_convert_le shrinks_fullwidthasciiRules _)

theorem range_of_isValidReading {reading : Bytes} (h : isValidReading reading = true) {c : Nat}
    (hc : c ∈ MozkeyStrings.chars32 (normalizeReading reading)) :
    ∃ range ∈ readingRanges, range.1 ≤ c ∧ c ≤ range.2 := by
  rw [isValidReading, internalValidateNormalizedReading, List.all_eq_true] at h
  simpa using h c hc

/-- **A VALID READING STAYS CLEAN**: U+FFFD and the code points below 0x21 are in no allowed
    range, so that the normalized reading decodes and shows no control character. -/
theorem not_containsInvalidChars_of_isValidReading {reading : Bytes}
    (h : isValidReading reading = true) :
    containsInvalidChars (normalizeReading reading) = false := by
  have hvalid : MozkeyStrings.isValidUtf8 (normalizeReading reading) = true := by
    refine MozkeyStrings.isValidUtf8_of_chars32 fun hmem => ?_
    obtain ⟨range, hrange, hlow, hhigh⟩ := range_of_isValidReading h hmem
    revert hlow hhigh
    revert range
    decide
  rw [containsInvalidChars, hvalid, Bool.not_true, Bool.or_false, List.any_eq_false]
  intro c hc hinvalid
  have hinvalid : c ∈ kInvalidChars := by simpa using hinvalid
  have hspec : ∀ c ∈ kInvalidChars, c < 0x80 ∧
      ∀ range ∈ readingRanges, ¬ (range.1 ≤ c.toNat ∧ c.toNat ≤ range.2) := by decide +kernel
  obtain ⟨hascii, hout⟩ := hspec c hinvalid
  obtain ⟨range, hrange, hin⟩ :=
    range_of_isValidReading h (MozkeyStrings.mem_chars32_of_ascii hvalid hc hascii)
  exact hout range hrange hin

/-- The entry that a line of an entry's fields stands for: the key is normalized and the locale
    is not written. -/
def Entry.imported (entry : Entry) : Entry :=
  { entry with key := normalizeReading entry.key, locale := [] }

/-- A valid entry with a valid reading stays valid under its normalized key. -/
theorem validateEntry_imported {entry : Entry} (hvalid : validateEntry entry = .ok)
    (hreading : isValidReading entry.key = true) : validateEntry entry.imported = .ok := by
  have h := validateEntry_eq_ok.mp hvalid
  exact validateEntry_eq_ok.mpr
    { key_ne := normalizeReading_ne_nil h.key_ne
      key :=
        { short := (length_normalizeReading_le entry.key).trans h.key.short
          clean := not_containsInvalidChars_of_isValidReading hreading }
      value_ne := h.value_ne
      value := h.value
      comment := h.comment
      pos := h.pos }

end MozkeyUserDictionary
