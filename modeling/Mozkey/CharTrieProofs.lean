import Mozkey.Utf8Proofs

/-! # Trie — the character trie of the base library

    A node holds a value, if any, and one subtrie for each character.  A key is read by
    `FindSubTrie`, one character at a time; what cannot be read counts as one character 0 that
    takes the rest of the key.

    * `lookUpPrefix_found` — what a prefix look-up finds is the value of the prefix it reports;
    * `lookUpPrefix_append` — a look-up that ends within a key does not see what follows. -/

namespace CharTrie

open ByteString MozkeyUtil

/-! ## Keys -/

/-- One step of a key: the character, and the bytes it takes. -/
abbrev Letter := Nat × Nat

/-- What `FindSubTrie` reads at the start of a key: the character and the rest. -/
def firstChar (key : Bytes) : Nat × Bytes := (splitFirstChar32 key).getD (0, [])

/-- The steps of a key; every step takes a byte at least. -/
def lettersLoop : Nat → Bytes → List Letter
  | 0, _ => []
  | fuel + 1, key =>
    if key.isEmpty then []
    else
      let read := firstChar key
      (read.1, key.length - read.2.length) :: lettersLoop fuel read.2

/-- The steps of a key. -/
def letters (key : Bytes) : List Letter := lettersLoop key.length key

/-- The characters of a key. -/
def path (key : Bytes) : List Nat := (letters key).map Prod.fst

/-- The bytes that steps take. -/
def size (key : List Letter) : Nat := (key.map Prod.snd).sum

/-! ## The trie -/

/-- `Trie<T>`. -/
inductive Trie (α : Type) where
  | node (data : Option α) (subTries : List (Nat × Trie α))

variable {α : Type}

/-- The default `Trie`. -/
def Trie.empty : Trie α := .node none []

/-- `trie_[c] = t`. -/
def setSubTrie (c : Nat) (t : Trie α) : List (Nat × Trie α) → List (Nat × Trie α)
  | [] => [(c, t)]
  | (c', t') :: subTries =>
    if c = c' then (c, t) :: subTries else (c', t') :: setSubTrie c t subTries

/-- `Trie::AddEntry`. -/
def addEntry : List Nat → α → Trie α → Trie α
  | [], d, .node _ subTries => .node (some d) subTries
  | c :: key, d, .node data subTries =>
    .node data (setSubTrie c (addEntry key d ((subTries.lookup c).getD .empty)) subTries)

/-- `Trie::LookUp`. -/
def lookUp : List Nat → Trie α → Option α
  | [], .node data _ => data
  | c :: key, .node _ subTries =>
    match subTries.lookup c with
    | none => none
    | some t => lookUp key t

/-- What `LookUpPrefix` gives: `*data` where it returns true, `*key_length` and `*fixed`. -/
structure PrefixResult (α : Type) where
  data : Option α
  keyLength : Nat
  fixed : Bool
  deriving DecidableEq

/-- `LookUpPrefix` where no subtrie is found. -/
def Trie.stop : Trie α → PrefixResult α
  | .node (some d) subTries => ⟨some d, 0, subTries.isEmpty⟩
  | .node none _ => ⟨none, 0, true⟩

/-- `Trie::LookUpPrefix`. -/
def lookUpPrefix : List Letter → Trie α → PrefixResult α
  | [], t => t.stop
  | (c, firstCharLen) :: key, .node data subTries =>
    match subTries.lookup c with
    | none => (Trie.node data subTries).stop
    | some t =>
      let found := lookUpPrefix key t
      { found with keyLength := found.keyLength + firstCharLen }

/-- `Trie::HasSubTrie`. -/
def hasSubTrie : List Nat → Trie α → Bool
  | [], _ => false
  | c :: key, .node _ subTries =>
    match subTries.lookup c with
    | none => false
    | some t => key.isEmpty || hasSubTrie key t

/-! ## Looking up -/

theorem lookup_setSubTrie (c c' : Nat) (t : Trie α) (subTries : List (Nat × Trie α)) :
    (setSubTrie c t subTries).lookup c' = if c' = c then some t else subTries.lookup c' := by
  induction subTries with
  | nil =>
    by_cases hc : c' = c
    · simp [setSubTrie, hc]
    · simp [setSubTrie, hc, List.lookup_cons, beq_false_of_ne hc]
  | cons sub subTries ih =>
    obtain ⟨c'', t''⟩ := sub
    rw [setSubTrie]
    by_cases hc : c' = c
    · subst hc
      by_cases heq : c' = c''
      · simp [heq]
      · rw [if_pos rfl] at ih
        rw [if_neg heq, if_pos rfl, List.lookup_cons, beq_false_of_ne heq]
        exact ih
    · rw [if_neg hc] at ih
      rw [if_neg hc]
      by_cases heq : c = c''
      · subst heq
        rw [if_pos rfl, List.lookup_cons, List.lookup_cons, beq_false_of_ne hc]
      · rw [if_neg heq, List.lookup_cons, List.lookup_cons, ih]

/-- The empty trie has no entry. -/
@[simp] theorem lookUp_empty (key : List Nat) : lookUp key (Trie.empty : Trie α) = none := by
  cases key <;> rfl

/-- **AN ENTRY IS FOUND** at its key, and any other key finds what it did. -/
theorem lookUp_addEntry (key key' : List Nat) (d : α) (t : Trie α) :
    lookUp key' (addEntry key d t) = if key' = key then some d else lookUp key' t := by
  induction key generalizing key' t with
  | nil =>
    obtain ⟨data, subTries⟩ := t
    cases key' with
    | nil => rfl
    | cons c' key' => rw [if_neg (List.cons_ne_nil _ _)]; rfl
  | cons c key ih =>
    obtain ⟨data, subTries⟩ := t
    cases key' with
    | nil => rw [if_neg (List.cons_ne_nil _ _).symm]; rfl
    | cons c' key' =>
      rw [addEntry, lookUp, lookup_setSubTrie]
      by_cases hc : c' = c
      · subst hc
        rw [if_pos rfl]
        dsimp only
        rw [ih]
        by_cases hkey : key' = key
        · rw [if_pos hkey, if_pos (by rw [hkey])]
        · rw [if_neg hkey, if_neg (fun heq => hkey (List.cons.inj heq).2), lookUp]
          cases subTries.lookup c' with
          | none => exact lookUp_empty _
          | some t => rfl
      · rw [if_neg hc, if_neg (fun heq => hc (List.cons.inj heq).1), lookUp]

theorem stop_data (t : Trie α) : t.stop.data = lookUp [] t ∧ t.stop.keyLength = 0 := by
  rcases t with ⟨_ | d, subTries⟩ <;> exact ⟨rfl, rfl⟩

/-- What is found is the entry of the front that is reported. -/
theorem lookUpPrefix_found (key : List Letter) (t : Trie α) :
    ∃ front, front <+: key ∧ (lookUpPrefix key t).keyLength = size front ∧
      (lookUpPrefix key t).data = lookUp (front.map Prod.fst) t := by
  induction key generalizing t with
  | nil => exact ⟨[], List.prefix_rfl, (stop_data t).2, (stop_data t).1⟩
  | cons letter key ih =>
    obtain ⟨c, len⟩ := letter
    obtain ⟨data, subTries⟩ := t
    rw [lookUpPrefix]
    cases hsub : subTries.lookup c with
    | none => exact ⟨[], List.nil_prefix, (stop_data _).2, (stop_data _).1⟩
    | some t =>
      obtain ⟨front, hfront, hsize, hdata⟩ := ih t
      refine ⟨(c, len) :: front, List.cons_prefix_cons.mpr ⟨rfl, hfront⟩, ?_, ?_⟩
      · simp only [hsize, size, List.map_cons, List.sum_cons]
        exact Nat.add_comm _ _
      · rw [hdata, List.map_cons, lookUp, hsub]

/-- **AN ENTRY TAKES OVER** the prefix look-ups that end at its key; it stops those that end
    on the way to it, and leaves the others alone. -/
theorem lookUpPrefix_addEntry (key : List Nat) (key' : List Letter) (d : α) (t : Trie α) :
    (lookUpPrefix key' (addEntry key d t)).data = none ∨
      ((lookUpPrefix key' (addEntry key d t)).data = some d ∧ key <+: key'.map Prod.fst ∧
        (lookUpPrefix key' (addEntry key d t)).keyLength = size (key'.take key.length)) ∨
      ((lookUpPrefix key' (addEntry key d t)).data = (lookUpPrefix key' t).data ∧
        (lookUpPrefix key' (addEntry key d t)).keyLength = (lookUpPrefix key' t).keyLength) := by
  induction key generalizing key' t with
  | nil =>
    obtain ⟨data, subTries⟩ := t
    cases key' with
    | nil => exact .inr (.inl ⟨rfl, List.prefix_rfl, rfl⟩)
    | cons letter key' =>
      obtain ⟨c', len⟩ := letter
      rw [addEntry, lookUpPrefix, lookUpPrefix]
      cases subTries.lookup c' with
      | none => exact .inr (.inl ⟨rfl, List.nil_prefix, rfl⟩)
      | some t => exact .inr (.inr ⟨rfl, rfl⟩)
  | cons c key ih =>
    obtain ⟨data, subTries⟩ := t
    cases key' with
    | nil => exact .inr (.inr ⟨by cases data <;> rfl, by cases data <;> rfl⟩)
    | cons letter key' =>
      obtain ⟨c', len⟩ := letter
      rw [addEntry, lookUpPrefix, lookup_setSubTrie]
      by_cases hc : c' = c
      · subst hc
        rw [if_pos rfl]
        dsimp only
        obtain hnone | ⟨hdata, hkey, hlen⟩ | ⟨hdata, hlen⟩ :=
          ih key' ((subTries.lookup c').getD .empty)
        · exact .inl hnone
        · refine .inr (.inl ⟨hdata, List.cons_prefix_cons.mpr ⟨rfl, hkey⟩, ?_⟩)
          rw [hlen]
          exact Nat.add_comm _ _
        · cases hsub : subTries.lookup c' with
          | none =>
            -- A subtrie that is new on the way to the key holds no other value.
            rw [hsub] at hdata
            refine .inl (hdata.trans ?_)
            cases key' <;> rfl
          | some t =>
            rw [hsub] at hdata hlen
            rw [lookUpPrefix, hsub]
            exact .inr (.inr ⟨hdata, congrArg (· + len) hlen⟩)
      · rw [if_neg hc, lookUpPrefix]
        cases subTries.lookup c' with
        | none => exact .inr (.inr ⟨by cases data <;> rfl, by cases data <;> rfl⟩)
        | some t => exact .inr (.inr ⟨rfl, rfl⟩)

/-- A look-up that ends within the key does not see what follows. -/
theorem lookUpPrefix_append {key rest : List Letter} {t : Trie α}
    (hpos : ∀ letter ∈ rest, 0 < letter.2)
    (hlen : (lookUpPrefix (key ++ rest) t).keyLength ≤ size key) :
    lookUpPrefix key t = lookUpPrefix (key ++ rest) t := by
  induction key generalizing t with
  | nil =>
    cases rest with
    | nil => rfl
    | cons letter rest =>
      obtain ⟨c, len⟩ := letter
      obtain ⟨data, subTries⟩ := t
      rw [List.nil_append, lookUpPrefix] at hlen ⊢
      rw [lookUpPrefix]
      cases hsub : subTries.lookup c with
      | none => rfl
      | some t =>
        rw [hsub] at hlen
        have hletter : 0 < len := hpos _ List.mem_cons_self
        simp only [size, List.map_nil, List.sum_nil] at hlen
        omega
  | cons letter key ih =>
    obtain ⟨c, len⟩ := letter
    obtain ⟨data, subTries⟩ := t
    rw [List.cons_append, lookUpPrefix] at hlen ⊢
    rw [lookUpPrefix]
    cases hsub : subTries.lookup c with
    | none => rfl
    | some t =>
      rw [hsub] at hlen
      simp only [size, List.map_cons, List.sum_cons] at hlen
      dsimp only
      rw [ih (by simp only [size]; omega)]

theorem lookUpPrefix_append_of_lt {key : List Letter} (rest : List Letter) {t : Trie α}
    (hlen : (lookUpPrefix key t).keyLength < size key) :
    lookUpPrefix (key ++ rest) t = lookUpPrefix key t := by
  induction key generalizing t with
  | nil => exact absurd hlen (Nat.not_lt_zero _)
  | cons letter key ih =>
    obtain ⟨c, len⟩ := letter
    obtain ⟨data, subTries⟩ := t
    rw [List.cons_append, lookUpPrefix, lookUpPrefix]
    rw [lookUpPrefix] at hlen
    cases hsub : subTries.lookup c with
    | none => rfl
    | some t =>
      rw [hsub] at hlen
      simp only [size, List.map_cons, List.sum_cons] at hlen
      dsimp only
      rw [ih (by simp only [size]; omega)]

/-! ## The steps of a key -/

/-- The step that a valid character makes. -/
def letter (c : Nat) : Letter := (c, (utf8 c).length)

theorem length_firstChar_lt (key : Bytes) (hkey : key ≠ []) :
    (firstChar key).2.length < key.length := by
  rw [firstChar]
  cases hread : splitFirstChar32 key with
  | none => exact List.length_pos_iff.mpr hkey
  | some read => exact length_of_splitFirstChar32 hread

theorem lettersLoop_eq {fuel fuel' : Nat} {key : Bytes} (h : key.length ≤ fuel)
    (h' : key.length ≤ fuel') : lettersLoop fuel key = lettersLoop fuel' key := by
  induction fuel generalizing fuel' key with
  | zero =>
    rw [List.eq_nil_of_length_eq_zero (Nat.le_zero.mp h)]
    cases fuel' <;> rfl
  | succ fuel ih =>
    cases fuel' with
    | zero => rw [List.eq_nil_of_length_eq_zero (Nat.le_zero.mp h')]; rfl
    | succ fuel' =>
      rw [lettersLoop, lettersLoop]
      by_cases hkey : key = []
      · rw [hkey]; rfl
      · have hlt := length_firstChar_lt key hkey
        dsimp only
        rw [@ih fuel' _ (by omega) (by omega)]

theorem letters_eq {key : Bytes} (hkey : key ≠ []) :
    letters key = ((firstChar key).1, key.length - (firstChar key).2.length)
      :: letters (firstChar key).2 := by
  have hlt := length_firstChar_lt key hkey
  obtain ⟨n, hn⟩ := Nat.exists_eq_succ_of_ne_zero (Nat.ne_of_gt (List.length_pos_iff.mpr hkey))
  rw [letters, hn, lettersLoop, if_neg (by simpa using hkey)]
  dsimp only
  rw [hn] at hlt
  rw [letters, lettersLoop_eq (Nat.lt_succ_iff.mp hlt) le_rfl, hn]

/-- The letter of a code point. -/
theorem letters_utf8 {c : Nat} (hc : c < 0x200000) (rest : Bytes) :
    letters (utf8 c ++ rest) = letter c :: letters rest := by
  rw [letters_eq (List.append_ne_nil_of_left_ne_nil (utf8_ne_nil c) rest), firstChar,
    splitFirstChar32_utf8 hc, Option.getD_some, List.length_append, Nat.add_sub_cancel, letter]

/-- The letters of code points, and those behind them. -/
theorem letters_append {cs : List Nat} (hcs : ∀ c ∈ cs, c < 0x200000) (rest : Bytes) :
    letters (cs.flatMap utf8 ++ rest) = cs.map letter ++ letters rest := by
  induction cs with
  | nil => rfl
  | cons c cs ih =>
    obtain ⟨hc, hcs⟩ := List.forall_mem_cons.mp hcs
    rw [List.flatMap_cons, List.append_assoc, letters_utf8 hc, ih hcs, List.map_cons,
      List.cons_append]

theorem letters_flatMap {cs : List Nat} (hcs : ∀ c ∈ cs, c < 0x200000) :
    letters (cs.flatMap utf8) = cs.map letter := by
  have h := letters_append hcs []
  rwa [List.append_nil, show letters [] = [] from rfl, List.append_nil] at h

/-- The path of a spelling. -/
theorem path_flatMap {cs : List Nat} (hcs : ∀ c ∈ cs, c < 0x200000) :
    path (cs.flatMap utf8) = cs := by
  rw [path, letters_flatMap hcs, List.map_map]
  exact List.map_id cs

theorem letters_valid_append {key : Bytes} (hkey : ValidUtf8 key) (rest : Bytes) :
    letters (key ++ rest) = letters key ++ letters rest := by
  obtain ⟨cs, hcs, rfl⟩ := hkey
  have hbounds : ∀ c ∈ cs, c < 0x200000 := fun c hc => (hcs c hc).lt
  rw [letters_append hbounds, letters_flatMap hbounds]

/-- The steps take all bytes of a key, and each of them some. -/
theorem size_letters (key : Bytes) :
    size (letters key) = key.length ∧ ∀ letter ∈ letters key, 0 < letter.2 := by
  induction hn : key.length using Nat.strong_induction_on generalizing key with
  | _ n ih =>
    by_cases hkey : key = []
    · subst hkey hn
      exact ⟨rfl, fun _ hmem => absurd hmem List.not_mem_nil⟩
    · have hlt := length_firstChar_lt key hkey
      obtain ⟨hsize, hpos⟩ := ih _ (hn ▸ hlt) (firstChar key).2 rfl
      rw [letters_eq hkey]
      constructor
      · rw [size, List.map_cons, List.sum_cons]
        rw [size] at hsize
        rw [hsize]
        dsimp only
        omega
      · intro letter hmem
        rcases List.mem_cons.mp hmem with rfl | hmem
        · exact Nat.sub_pos_of_lt hlt
        · exact hpos letter hmem

/-- A valid key whose path starts with that of another valid key starts with it. -/
theorem prefix_of_path {key key' : Bytes} (hkey : ValidUtf8 key) (hkey' : ValidUtf8 key')
    (h : path key <+: path key') :
    key <+: key' ∧ size ((letters key').take (path key).length) = key.length := by
  obtain ⟨cs, hcs, rfl⟩ := hkey
  obtain ⟨cs', hcs', rfl⟩ := hkey'
  have hbounds : ∀ c ∈ cs, c < 0x200000 := fun c hc => (hcs c hc).lt
  have hbounds' : ∀ c ∈ cs', c < 0x200000 := fun c hc => (hcs' c hc).lt
  rw [path_flatMap hbounds, path_flatMap hbounds'] at h
  obtain ⟨rest, rfl⟩ := h
  rw [path_flatMap hbounds]
  refine ⟨⟨rest.flatMap utf8, List.flatMap_append.symm⟩, ?_⟩
  rw [letters_flatMap hbounds', List.map_append, List.take_left' (List.length_map _),
    ← letters_flatMap hbounds, (size_letters _).1]

end CharTrie
