import Mozkey.UserDictionaryImportProofs
import Mozkey.SpecialKeyProofs
import Mozkey.CharTrieProofs

/-! # Table — the romaji table

    A rule turns an input into a result and a pending string.  The table keeps its rules in a
    character trie, under their inputs; as long as no input has a capital letter, every look-up
    goes by lower case.  `IsLoopingEntry` follows the pending string of a new rule through the
    table before the rule is added. -/

namespace MozkeyComposer

open ByteString MozkeyUtil CharTrie
open MozkeyUserDictionary (lowerString lowerStringLoop chopReturns)

/-! ## Lower case -/

/-- The lower case of a character, for the letters that `LowerString` changes. -/
def lowerCase (c : Nat) : Nat :=
  if (0x0041 ≤ c ∧ c ≤ 0x005A) ∨ (0xFF21 ≤ c ∧ c ≤ 0xFF3A) then c + 0x0020 else c

theorem length_lowerStringLoop (fuel : Nat) (s : Bytes) :
    (lowerStringLoop fuel s).length = s.length := by
  induction fuel generalizing s with
  | zero => rfl
  | succ fuel ih =>
    rw [lowerStringLoop]
    have hsplit (n : Nat) : (s.take n).length + (s.drop n).length = s.length := by
      rw [← List.length_append, List.take_append_drop]
    split
    · rename_i hs
      rw [List.isEmpty_iff.mp hs]
    · dsimp only
      split
      · split
        · rfl
        · rename_i hlen
          rw [List.length_append, not_not.mp hlen, ih, hsplit]
      · rw [List.length_append, ih, hsplit]

@[simp] theorem length_lowerString (s : Bytes) : (lowerString s).length = s.length :=
  length_lowerStringLoop _ s

theorem length_codepointToUtf8_lower {c : Nat}
    (hc : (0x0041 ≤ c ∧ c ≤ 0x005A) ∨ (0xFF21 ≤ c ∧ c ≤ 0xFF3A)) :
    (codepointToUtf8 (c + 0x0020)).length = (utf8 c).length := by
  rw [utf8, if_neg (by omega), codepointToUtf8, codepointToUtf8]
  rcases hc with hc | hc
  · rw [if_neg (by omega), if_pos (by omega), if_neg (by omega), if_pos (by omega)]
    rfl
  · rw [if_neg (by omega), if_neg (by omega), if_neg (by omega), if_pos (by omega),
      if_neg (by omega), if_neg (by omega), if_neg (by omega), if_pos (by omega)]
    rfl

theorem lowerStringLoop_utf8 {c : Nat} (hc : IsScalar c) (rest : Bytes) (fuel : Nat) :
    lowerStringLoop (fuel + 1) (utf8 c ++ rest)
      = utf8 (lowerCase c) ++ lowerStringLoop fuel rest := by
  rw [lowerStringLoop, if_neg (by simp [utf8_ne_nil c]), MozkeyStrings.decode_utf8 hc]
  simp only [MozkeyStrings.DecodeResult.continue, List.take_left', List.drop_left']
  by_cases hcap : (0x0041 ≤ c ∧ c ≤ 0x005A) ∨ (0xFF21 ≤ c ∧ c ≤ 0xFF3A)
  · rw [if_pos hcap, if_neg (not_not.mpr (length_codepointToUtf8_lower hcap)), lowerCase,
      if_pos hcap, utf8, if_neg (by omega)]
  · rw [if_neg hcap, lowerCase, if_neg hcap]

theorem lowerStringLoop_eq {fuel fuel' : Nat} {s : Bytes} (h : s.length ≤ fuel)
    (h' : s.length ≤ fuel') : lowerStringLoop fuel s = lowerStringLoop fuel' s := by
  induction fuel generalizing fuel' s with
  | zero =>
    rw [List.eq_nil_of_length_eq_zero (Nat.le_zero.mp h)]
    cases fuel' <;> rfl
  | succ fuel ih =>
    cases fuel' with
    | zero => rw [List.eq_nil_of_length_eq_zero (Nat.le_zero.mp h')]; rfl
    | succ fuel' =>
      cases s with
      | nil => rfl
      | cons c tail =>
        have hseen := MozkeyStrings.bytesSeen_pos c tail
        have hdrop : ((c :: tail).drop (MozkeyStrings.decode (c :: tail)).bytesSeen).length
            ≤ tail.length := by
          rw [List.length_drop, List.length_cons]
          omega
        rw [List.length_cons] at h h'
        rw [lowerStringLoop, lowerStringLoop]
        dsimp only
        rw [@ih fuel' _ (by omega) (by omega)]

theorem lowerString_utf8 {c : Nat} (hc : IsScalar c) (rest : Bytes) :
    lowerString (utf8 c ++ rest) = utf8 (lowerCase c) ++ lowerString rest := by
  have hpos := List.length_pos_iff.mpr (utf8_ne_nil c)
  obtain ⟨n, hn⟩ : ∃ n, (utf8 c ++ rest).length = n + 1 :=
    Nat.exists_eq_succ_of_ne_zero (by rw [List.length_append]; omega)
  have hle : rest.length ≤ n := by
    rw [List.length_append] at hn
    omega
  rw [lowerString, hn, lowerStringLoop_utf8 hc, lowerString, lowerStringLoop_eq hle le_rfl]

/-- **LOWER CASE IS TAKEN CHARACTER BY CHARACTER** over a valid front. -/
theorem lowerString_append {cs : List Nat} (hcs : ∀ c ∈ cs, IsScalar c) (rest : Bytes) :
    lowerString (cs.flatMap utf8 ++ rest)
      = (cs.map lowerCase).flatMap utf8 ++ lowerString rest := by
  induction cs with
  | nil => rfl
  | cons c cs ih =>
    obtain ⟨hc, hcs⟩ := List.forall_mem_cons.mp hcs
    rw [List.flatMap_cons, List.append_assoc, lowerString_utf8 hc, ih hcs, List.map_cons,
      List.flatMap_cons, List.append_assoc]

theorem lowerString_flatMap {cs : List Nat} (hcs : ∀ c ∈ cs, IsScalar c) :
    lowerString (cs.flatMap utf8) = (cs.map lowerCase).flatMap utf8 := by
  have h := lowerString_append hcs []
  rwa [List.append_nil, show lowerString [] = [] from rfl, List.append_nil] at h

/-- The lower case of a valid string is valid, and what follows the string follows it. -/
theorem lowerString_valid {s : Bytes} (hs : ValidUtf8 s) :
    ValidUtf8 (lowerString s) ∧
      ∀ rest, lowerString (s ++ rest) = lowerString s ++ lowerString rest := by
  obtain ⟨cs, hcs, rfl⟩ := hs
  rw [lowerString_flatMap hcs]
  refine ⟨⟨cs.map lowerCase, fun c hc => ?_, rfl⟩, lowerString_append hcs⟩
  obtain ⟨c, hmem, rfl⟩ := List.mem_map.mp hc
  have hscalar := hcs c hmem
  rw [IsScalar] at hscalar ⊢
  rw [lowerCase]
  split <;> omega

/-- A string in lower case has no capital letter. -/
theorem not_capital_of_lower {s : Bytes} (hs : ValidUtf8 s) (hlower : lowerString s = s)
    {b : UInt8} (hb : b ∈ s) : ¬ (0x41 ≤ b.toNat ∧ b.toNat ≤ 0x5A) := by
  intro hcap
  obtain ⟨cs, hcs, rfl⟩ := hs
  rw [lowerString_flatMap hcs] at hlower
  have hmap : cs.map lowerCase = cs := by
    have hread := congrArg chars32 hlower
    rwa [chars32_flatMap_utf8, chars32_flatMap_utf8 fun c hc => (hcs c hc).lt] at hread
    intro c hc
    obtain ⟨c, hmem, rfl⟩ := List.mem_map.mp hc
    have hscalar := hcs c hmem
    rw [IsScalar] at hscalar
    rw [lowerCase]
    split <;> omega
  obtain ⟨c, hmem, hbyte⟩ := List.mem_flatMap.mp hb
  have hc : c = b.toNat := by
    rw [utf8] at hbyte
    split at hbyte
    · rename_i hzero
      rw [hzero, List.mem_singleton.mp hbyte]
      rfl
    · refine eq_of_mem_codepointToUtf8 ?_ hbyte
      rw [UInt8.lt_iff_toNat_lt]
      exact Nat.lt_of_le_of_lt hcap.2 (by decide)
  have hfix : lowerCase c = c :=
    List.map_inj_left.mp (hmap.trans (List.map_id cs).symm) c hmem
  rw [lowerCase, if_pos (.inl (hc ▸ hcap))] at hfix
  omega

/-! ## Entries -/

/-- `TableAttributes`, a set of bits. -/
abbrev TableAttributes := Nat

/-- The attributes of an entry. -/
def noTableAttribute : TableAttributes := 0

/-- `NEW_CHUNK`. -/
def newChunk : TableAttributes := 1

/-- `NO_TRANSLITERATION`. -/
def noTransliteration : TableAttributes := 2

/-- `DIRECT_INPUT`. -/
def directInput : TableAttributes := 4

/-- `END_CHUNK`. -/
def endChunk : TableAttributes := 8

/-- `DISPLAY_AMBIGUOUS_RESULT`. -/
def displayAmbiguousResult : TableAttributes := 16

/-- `attributes & mask`, as a condition. -/
def hasAttribute (attributes mask : TableAttributes) : Bool := attributes &&& mask != 0

/-- `Entry`. -/
structure Entry where
  input : Bytes
  result : Bytes
  pending : Bytes
  attributes : TableAttributes
  deriving DecidableEq

/-- `Table`. -/
structure Table where
  entries : Trie Entry
  entrySet : List Entry
  specialKeyMap : SpecialKeyMap
  caseSensitive : Bool

/-- The `Table` constructor, with the predefined special keys. -/
def Table.new : Table where
  entries := .empty
  entrySet := []
  specialKeyMap :=
    [ascii "\x7b?\x7d", ascii "\x7b*\x7d", ascii "\x7b<\x7d", ascii "\x7b!\x7d"].foldl
      (fun map key => (map.register key).2) []
  caseSensitive := false

/-! ## Looking up -/

/-- The key that a look-up goes by. -/
def Table.normalize (t : Table) (input : Bytes) : Bytes :=
  if t.caseSensitive then input else lowerString input

/-- `Table::LookUp`. -/
def Table.lookUp (t : Table) (input : Bytes) : Option Entry :=
  CharTrie.lookUp (path (t.normalize input)) t.entries

/-- `Table::LookUpPrefix`. -/
def Table.lookUpPrefix (t : Table) (input : Bytes) : PrefixResult Entry :=
  CharTrie.lookUpPrefix (letters (t.normalize input)) t.entries

/-- What starts a new chunk. -/
def kNewChunkPrefix : Bytes := ascii "\t"

/-- `Table::HasNewChunkEntry`. -/
def Table.hasNewChunkEntry (t : Table) (input : Bytes) : Bool :=
  if input.isEmpty then false else 1 < (t.lookUpPrefix (kNewChunkPrefix ++ input)).keyLength

/-- `Table::HasSubRules`. -/
def Table.hasSubRules (t : Table) (input : Bytes) : Bool :=
  hasSubTrie (path (t.normalize input)) t.entries

/-! ## Adding rules -/

/-- The loop of `Table::IsLoopingEntry`; `none` where the fuel does not do. -/
def Table.isLoopingLoop (t : Table) (input : Bytes) : Nat → Bytes → Option Bool
  | 0, _ => none
  | fuel + 1, key =>
    if input <+: key then some true
    else
      let found := t.lookUpPrefix key
      match found.data with
      | none => some false
      | some entry =>
        let key := entry.pending ++ key.drop found.keyLength
        if key.isEmpty then some false else t.isLoopingLoop input fuel key

/-- `Table::IsLoopingEntry`. -/
def Table.isLoopingEntry (t : Table) (fuel : Nat) (input pending : Bytes) : Option Bool :=
  if input.isEmpty || pending.isEmpty then some false else t.isLoopingLoop input fuel pending

/-- The capital letters that make a table case-sensitive. -/
def isCapital (c : Nat) : Bool := 0x41 ≤ c && c ≤ 0x5A

/-- The end of `Table::AddRuleWithAttributes`, where the entry goes into the table. -/
def Table.setEntry (t : Table) (entry : Entry) : Table where
  entries := addEntry (path entry.input) entry t.entries
  entrySet := entry ::
    match CharTrie.lookUp (path entry.input) t.entries with
    | none => t.entrySet
    | some oldEntry => t.entrySet.erase oldEntry
  specialKeyMap := t.specialKeyMap
  caseSensitive := t.caseSensitive || (chars32 (deleteSpecialKeys entry.input)).any isCapital

/-- The arguments of `Table::AddRuleWithAttributes`. -/
structure Rule where
  escapedInput : Bytes
  output : Bytes
  escapedPending : Bytes
  attributes : TableAttributes
  deriving DecidableEq

/-- The longest strings of a rule. -/
abbrev kMaxSize : Nat := 300

/-- The rules that are refused for their size. -/
def Rule.tooLong (r : Rule) : Bool :=
  kMaxSize ≤ r.escapedInput.length || kMaxSize ≤ r.output.length
    || kMaxSize ≤ r.escapedPending.length

/-- The entry of a rule, with the special keys of both strings. -/
def Table.entryOf (t : Table) (r : Rule) : Entry where
  input := (t.specialKeyMap.register r.escapedInput).1
  result := r.output
  pending := ((t.specialKeyMap.register r.escapedInput).2.register r.escapedPending).1
  attributes := r.attributes

/-- The table once both strings of a rule are registered. -/
def Table.registered (t : Table) (r : Rule) : Table where
  entries := t.entries
  entrySet := t.entrySet
  specialKeyMap := ((t.specialKeyMap.register r.escapedInput).2.register r.escapedPending).2
  caseSensitive := t.caseSensitive

/-- `Table::AddRuleWithAttributes` behind its first lines; `none` where the check of the rule
    does not end within the fuel. -/
def Table.addRule (fuel : Nat) (t : Table) (r : Rule) : Option Table :=
  if r.tooLong then some t
  else
    let entry := t.entryOf r
    let t := t.registered r
    match t.isLoopingEntry fuel entry.input entry.pending with
    | none => none
    | some true => some t
    | some false => some (t.setEntry entry)

/-- The rule that `NEW_CHUNK` adds first. -/
def Rule.additional (r : Rule) : Rule :=
  ⟨kNewChunkPrefix ++ r.escapedInput, r.output, r.escapedPending, noTableAttribute⟩

/-- `Table::AddRuleWithAttributes`. -/
def Table.addRuleWithAttributes (fuel : Nat) (t : Table) (r : Rule) : Option Table :=
  if hasAttribute r.attributes newChunk then
    match t.addRule fuel r.additional with
    | none => none
    | some t => t.addRule fuel r
  else t.addRule fuel r

/-! ## Loading -/

/-- `ParseAttributes`. -/
def parseAttributes (input : Bytes) : TableAttributes :=
  (input.splitOn (chr ' ')).foldl (fun attributes attributeString =>
    if attributeString = ascii "NewChunk" then attributes ||| newChunk
    else if attributeString = ascii "NoTransliteration" then attributes ||| noTransliteration
    else if attributeString = ascii "DirectInput" then attributes ||| directInput
    else if attributeString = ascii "EndChunk" then attributes ||| endChunk
    else if attributeString = ascii "DisplayAmbiguousResult" then
      attributes ||| displayAmbiguousResult
    else attributes) noTableAttribute

/-- The rule of a line, if it has one. -/
def lineRule (line : Bytes) : Option Rule :=
  if line.isEmpty then none
  else
    match line.splitOn (chr '\t') with
    | [input, output, pending, attributes] =>
      some ⟨input, output, pending, parseAttributes attributes⟩
    | [input, output, pending] => some ⟨input, output, pending, noTableAttribute⟩
    | [input, output] => some ⟨input, output, [], noTableAttribute⟩
    | _ => none

/-- The rules that `Table::LoadFromStream` adds. -/
def textRules (text : Bytes) : List Rule :=
  (text.splitOn (chr '\n')).filterMap fun line => lineRule (chopReturns line)

/-- Rules added one after another. -/
def Table.addRules (fuel : Nat) : Table → List Rule → Option Table
  | t, [] => some t
  | t, r :: rules =>
    match t.addRuleWithAttributes fuel r with
    | none => none
    | some t => t.addRules fuel rules

/-- `Table::LoadFromString`. -/
def Table.loadFromString (fuel : Nat) (t : Table) (text : Bytes) : Option Table :=
  t.addRules fuel (textRules text)

end MozkeyComposer
