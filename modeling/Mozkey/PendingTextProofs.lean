import Mozkey.TypingProofs

/-! # CharChunk — where a look-up ends within the pending text

    `AddInputInternal` looks up the pending text of a chunk together with the input.  Where no
    entry is found it asks whether the look-up has gone beyond the pending text; where one is
    found it takes this for granted and subtracts.  A rule may leave any text pending, also one
    of which the table matches a front only: the subtraction then wraps, whatever is typed next. -/

namespace MozkeyComposer

open ByteString MozkeyUtil CharTrie Relation
open MozkeyUserDictionary (lowerString)

variable {t : Table} {chunk chunk' : CharChunk} {key q input rest : Bytes} {loop : Bool}

/-! ## Valid texts -/

theorem validUtf8_append {s s' : Bytes} (hs : ValidUtf8 s) (hs' : ValidUtf8 s') :
    ValidUtf8 (s ++ s') := by
  obtain ⟨cs, hcs, rfl⟩ := hs
  obtain ⟨cs', hcs', rfl⟩ := hs'
  refine ⟨cs ++ cs', fun c hc => ?_, List.flatMap_append.symm⟩
  rcases List.mem_append.mp hc with hc | hc
  · exact hcs c hc
  · exact hcs' c hc

theorem validUtf8_nil : ValidUtf8 [] := ⟨[], fun _ hc => absurd hc List.not_mem_nil, rfl⟩

theorem validUtf8_of_ascii {pre : Bytes} {b : UInt8} (hb : b < 0x80)
    (h : ValidUtf8 (pre ++ b :: rest)) : ValidUtf8 rest := by
  obtain ⟨cs, hcs, heq⟩ := h
  induction cs generalizing pre with
  | nil => exact absurd heq (by simp)
  | cons c cs ih =>
    obtain ⟨hc, hcs⟩ := List.forall_mem_cons.mp hcs
    rw [List.flatMap_cons] at heq
    rcases List.append_eq_append_iff.mp heq with ⟨more, hmore, hrest⟩ | ⟨more, hmore, hrest⟩
    · cases more with
      | nil =>
        rw [List.nil_append] at hrest
        exact @ih [] hcs hrest
      | cons b' more =>
        -- The byte is in the character, which is then the byte alone.
        obtain ⟨rfl, rfl⟩ := List.cons.inj (hrest.trans (List.cons_append ..))
        have hone : utf8 c = [b] := by
          have hmem : b ∈ utf8 c := by rw [hmore]; simp
          rw [utf8] at hmem ⊢
          split
          · rename_i hzero
            rw [if_pos hzero, List.mem_singleton] at hmem
            rw [hmem]
          · rename_i hzero
            rw [if_neg hzero] at hmem
            have hbyte := eq_of_mem_codepointToUtf8 hb hmem
            rw [codepointToUtf8_of_ascii (Nat.pos_of_ne_zero hzero) (hbyte ▸ hb), hbyte,
              UInt8.ofNat_toNat]
        have hlen := congrArg List.length (hone.symm.trans hmore)
        rw [List.length_append, List.length_cons, List.length_cons, List.length_nil] at hlen
        rw [List.eq_nil_of_length_eq_zero (show more.length = 0 by omega), List.nil_append]
        exact ⟨cs, hcs, rfl⟩
    · exact ih hcs hrest.symm

theorem validUtf8_trimLeadingSpecialKey (h : ValidUtf8 input) :
    ValidUtf8 (trimLeadingSpecialKey input) := by
  unfold trimLeadingSpecialKey
  extract_lets first
  split
  · obtain ⟨cs, hcs, rfl⟩ := h
    cases cs with
    | nil => exact validUtf8_nil
    | cons c cs =>
      obtain ⟨hc, hcs⟩ := List.forall_mem_cons.mp hcs
      have hfirst : first.2 = cs.flatMap utf8 := by
        simp only [first, List.flatMap_cons, splitFirstChar32_utf8 hc.lt, Option.getD_some]
      rw [hfirst, List.flatMap_cons, List.length_append, Nat.add_sub_cancel, List.drop_left]
      exact ⟨cs, hcs, rfl⟩
  split
  · exact h
  split
  · exact h
  · rename_i n hclose
    obtain ⟨hlt, hbyte, -⟩ := List.findIdx?_eq_some_iff_getElem.mp hclose
    rw [decide_eq_true_eq] at hbyte
    rw [← List.take_append_drop (1 + n) input, List.drop_eq_getElem_cons (by
      rw [List.length_drop] at hlt; omega)] at h
    refine validUtf8_of_ascii ?_ h
    rw [List.getElem_drop] at hbyte
    rw [hbyte]
    decide

/-! ## Texts matched as a whole or not at all -/

theorem lookUpPrefix_of_lt (hq : ValidUtf8 q) (rest : Bytes)
    (hlt : (t.lookUpPrefix q).keyLength < q.length) :
    t.lookUpPrefix (q ++ rest) = t.lookUpPrefix q := by
  rw [Table.lookUpPrefix] at hlt
  rw [Table.lookUpPrefix, Table.lookUpPrefix, letters_normalize_append hq]
  refine lookUpPrefix_append_of_lt _ ?_
  rw [(size_letters _).1, length_normalize]
  exact hlt

theorem lookUpPrefix_of_le (hq : ValidUtf8 q)
    (hle : (t.lookUpPrefix (q ++ rest)).keyLength ≤ q.length) :
    t.lookUpPrefix q = t.lookUpPrefix (q ++ rest) := by
  rw [Table.lookUpPrefix, letters_normalize_append hq] at hle
  rw [Table.lookUpPrefix, Table.lookUpPrefix, letters_normalize_append hq]
  refine lookUpPrefix_append (size_letters _).2 ?_
  rw [(size_letters _).1, length_normalize]
  exact hle

/-- **A TEXT MATCHED AS A WHOLE OR NOT AT ALL** is not matched in part with what follows it. -/
theorem Table.WholeOrNone.reaches (hq : ValidUtf8 q) (hwhole : t.WholeOrNone q) (rest : Bytes) :
    t.Reaches q rest := by
  intro e he
  by_contra hlt
  rw [Table.WholeOrNone, lookUpPrefix_of_le hq (Nat.le_of_not_le hlt), he] at hwhole
  rcases hwhole with hnone | hlen
  · exact absurd hnone (Option.some_ne_none e)
  · omega

/-- A text that is matched in part is so with anything behind it. -/
theorem Table.Reaches.wholeOrNone (hq : ValidUtf8 q) (hreach : t.Reaches q rest) :
    t.WholeOrNone q := by
  rcases Nat.lt_or_ge (t.lookUpPrefix q).keyLength q.length with hlt | hge
  · cases hfound : (t.lookUpPrefix q).data with
    | none => exact .inl hfound
    | some e =>
      have hsame := lookUpPrefix_of_lt hq rest hlt
      have hle := hreach e (by rw [hsame, hfound])
      rw [hsame] at hle
      omega
  · exact .inr (Nat.le_antisymm (keyLength_le t q) hge)

theorem wholeOrNone_nil (t : Table) : t.WholeOrNone [] :=
  .inr (Nat.le_zero.mp (keyLength_le t []))

theorem length_letters_normalize (t : Table) {cs : List Nat} (hcs : ∀ c ∈ cs, IsScalar c) :
    (letters (t.normalize (cs.flatMap utf8))).length = cs.length := by
  rw [Table.normalize]
  split
  · rw [letters_flatMap fun c hc => (hcs c hc).lt, List.length_map]
  · have hlower : ∀ c ∈ cs.map lowerCase, c < 0x200000 := by
      intro c hc
      obtain ⟨c, hmem, rfl⟩ := List.mem_map.mp hc
      have hscalar := hcs c hmem
      rw [IsScalar] at hscalar
      rw [lowerCase]
      split <;> omega
    rw [lowerString_flatMap hcs, letters_flatMap hlower, List.length_map, List.length_map]

/-- **A LOOK-UP CUTS A VALID TEXT** between two characters. -/
theorem valid_take_drop (t : Table) (hkey : ValidUtf8 key) :
    ValidUtf8 (key.take (t.lookUpPrefix key).keyLength) ∧
      ValidUtf8 (key.drop (t.lookUpPrefix key).keyLength) := by
  obtain ⟨cs, hcs, rfl⟩ := hkey
  obtain ⟨front, hfront, hlen, -⟩ :=
    lookUpPrefix_found (letters (t.normalize (cs.flatMap utf8))) t.entries
  have hleft : ∀ c ∈ cs.take front.length, IsScalar c := fun c hc => hcs c (List.mem_of_mem_take hc)
  have hright : ∀ c ∈ cs.drop front.length, IsScalar c :=
    fun c hc => hcs c (List.mem_of_mem_drop hc)
  have hsplit : cs.flatMap utf8
      = (cs.take front.length).flatMap utf8 ++ (cs.drop front.length).flatMap utf8 := by
    rw [← List.flatMap_append, List.take_append_drop]
  have hcount := hfront.length_le
  rw [length_letters_normalize t hcs] at hcount
  -- The steps of the front are those of the characters that it covers.
  have hsteps : letters (t.normalize ((cs.take front.length).flatMap utf8)) = front := by
    rw [hsplit, letters_normalize_append ⟨_, hleft, rfl⟩] at hfront
    refine (List.prefix_of_prefix_length_le hfront (List.prefix_append _ _) ?_).eq_of_length ?_
      |>.symm
    · rw [length_letters_normalize t hleft, List.length_take]
      omega
    · rw [length_letters_normalize t hleft, List.length_take]
      omega
  have hk : (t.lookUpPrefix (cs.flatMap utf8)).keyLength
      = ((cs.take front.length).flatMap utf8).length := by
    rw [Table.lookUpPrefix, hlen, ← congrArg size hsteps, (size_letters _).1, length_normalize]
  rw [hk, hsplit, List.take_left, List.drop_left]
  exact ⟨⟨_, hleft, rfl⟩, ⟨_, hright, rfl⟩⟩

theorem wholeOrNone_take (t : Table) (hkey : ValidUtf8 key) :
    t.WholeOrNone (key.take (t.lookUpPrefix key).keyLength) := by
  have hle := keyLength_le t key
  have hlen : (key.take (t.lookUpPrefix key).keyLength).length
      = (t.lookUpPrefix key).keyLength := by
    rw [List.length_take]
    omega
  have hsame := @lookUpPrefix_of_le t _ (key.drop (t.lookUpPrefix key).keyLength)
    (valid_take_drop t hkey).1 (by rw [List.take_append_drop, hlen])
  rw [List.take_append_drop] at hsame
  refine .inr ?_
  rw [hsame, hlen]

/-! ## Runs of calls -/

/-- The chunks that calls of `AddCompositionInput` lead to, each of which keeps to `ok`. -/
inductive CharChunk.Reached (t : Table) (ok : CharChunk → CompositionInput → Prop) :
    CharChunk → Prop
  | new (transliterator : Transliterator) : Reached t ok (.new transliterator)
  | add {chunk chunk' : CharChunk} {input rest : CompositionInput} {fuel : Nat}
      (hreached : Reached t ok chunk) (hok : ok chunk input)
      (hadd : chunk.addCompositionInput t fuel input = some (chunk', rest)) :
      Reached t ok chunk'

/-- The loop of `AddInput` goes on from one chunk and input to the next. -/
def Loops (t : Table) (state state' : CharChunk × Bytes) : Prop :=
  state.1.addInputInternal t state.2 = some (state'.1, true, state'.2)

/-- The chunks and inputs with which a run calls `AddInputInternal`. -/
def CharChunk.Called (t : Table) (ok : CharChunk → CompositionInput → Prop) (chunk : CharChunk)
    (input : Bytes) : Prop :=
  ∃ chunk₀ input₀, CharChunk.Reached t ok chunk₀ ∧ ok chunk₀ input₀ ∧ input₀.conversion = [] ∧
    chunk₀.shouldInsertNewChunk t input₀ = false ∧
      ReflTransGen (Loops t) (chunk₀, input₀.raw) (chunk, input)

/-- The calls with valid texts that put into an empty chunk no converted text that the table
    matches in part. -/
structure CharChunk.Accepts (t : Table) (chunk : CharChunk) (input : CompositionInput) : Prop where
  raw : ValidUtf8 input.raw
  conversion : ValidUtf8 input.conversion
  whole : chunk.isEmpty = true → input.isAsis = false → t.WholeOrNone input.conversion

/-- The results and the pending texts of the rules are valid. -/
def Table.ValidTexts (t : Table) : Prop :=
  ∀ key e, CharTrie.lookUp key t.entries = some e → ValidUtf8 e.result ∧ ValidUtf8 e.pending

/-- A look-up resolves the entry that it finds, or leaves it open to longer rules. -/
def Table.Resolves (t : Table) (key : Bytes) : Prop :=
  (t.lookUpPrefix key).fixed = true ∨ (t.lookUpPrefix key).keyLength < key.length

/-- No text that the rules leave pending is matched in part: the pending text of a rule that
    some look-up resolves, and the result of a rule that it leaves open, which converted text
    puts in the place of the pending text. -/
def Table.LeavesWhole (t : Table) : Prop :=
  ∀ key e, ValidUtf8 key → (t.lookUpPrefix key).data = some e →
    (t.Resolves key → t.WholeOrNone e.pending) ∧
      (¬ t.Resolves key → key ≠ [] → t.WholeOrNone e.result)

/-- What a chunk has pending is valid, and matched as a whole or not at all. -/
structure CharChunk.Settled (t : Table) (chunk : CharChunk) : Prop where
  valid : ValidUtf8 chunk.pending
  whole : t.WholeOrNone chunk.pending

theorem Table.ValidTexts.found (hvalid : t.ValidTexts) {e : Entry}
    (h : (t.lookUpPrefix key).data = some e) : ValidUtf8 e.result ∧ ValidUtf8 e.pending := by
  obtain ⟨front, -, -, hdata⟩ := lookUpPrefix_found (letters (t.normalize key)) t.entries
  exact hvalid _ e (hdata.symm.trans h)

/-! ## One step -/

/-- What is left pending where no entry is found, and what the loop goes on with. -/
theorem settled_addInputNoEntry (hsettled : chunk.Settled t) (hinput : ValidUtf8 input)
    (h : chunk.addInputNoEntry t (t.lookUpPrefix (chunk.pending ++ input)).keyLength input
      = (chunk', loop, rest)) : chunk'.Settled t ∧ (loop = true → ValidUtf8 rest) := by
  have hkey := validUtf8_append hsettled.valid hinput
  rw [CharChunk.addInputNoEntry] at h
  dsimp only at h
  split at h
  · cases h
    exact ⟨⟨validUtf8_nil, wholeOrNone_nil t⟩, Bool.noConfusion⟩
  split at h
  · split at h
    · cases h
      exact ⟨hsettled, fun _ => validUtf8_trimLeadingSpecialKey hinput⟩
    · split at h
      · cases h
        exact ⟨⟨hsettled.valid, hsettled.whole⟩, Bool.noConfusion⟩
      · cases h
        exact ⟨hsettled, Bool.noConfusion⟩
  split at h
  · split at h
    · cases h
      exact ⟨hsettled, fun _ => validUtf8_trimLeadingSpecialKey hinput⟩
    · cases h
      exact ⟨hsettled, Bool.noConfusion⟩
  split at h
  · cases h
    exact ⟨hsettled, Bool.noConfusion⟩
  · -- The pending text is now what the look-up has gone through.
    rename_i hnlt
    cases h
    have htake : (chunk.pending ++ input).take (t.lookUpPrefix (chunk.pending ++ input)).keyLength
        = chunk.pending ++ input.take ((t.lookUpPrefix (chunk.pending ++ input)).keyLength
          - chunk.pending.length) := by
      rw [List.take_append, List.take_of_length_le (Nat.not_lt.mp hnlt)]
    refine ⟨⟨?_, ?_⟩, Bool.noConfusion⟩
    · rw [← htake]
      exact (valid_take_drop t hkey).1
    · rw [← htake]
      exact wholeOrNone_take t hkey

theorem pending_of_addInputEntry {e : Entry} {n : Nat} {fixed : Bool}
    (h : chunk.addInputEntry e n fixed input = some (chunk', loop, rest)) :
    chunk'.pending = (if fixed || n < (chunk.pending ++ input).length then e.pending
      else chunk.pending ++ input) ∧ rest = (chunk.pending ++ input).drop n := by
  rw [CharChunk.addInputEntry] at h
  split at h
  · exact absurd h (Option.some_ne_none _).symm
  rename_i hle
  have hdrop : (chunk.pending ++ input).drop n = input.drop (n - chunk.pending.length) := by
    rw [List.drop_append, List.drop_eq_nil_of_le (Nat.not_lt.mp hle), List.nil_append]
  have hpending : ((chunk.moved e input (n - chunk.pending.length)).applyEntry e
      (chunk.pending ++ input) (fixed || n < (chunk.pending ++ input).length)).pending
        = if fixed || n < (chunk.pending ++ input).length then e.pending
          else chunk.pending ++ input := by
    rw [CharChunk.applyEntry]
    split
    · rfl
    · dsimp only
      split <;> rfl
  rw [hdrop]
  dsimp only at h
  split at h
  · cases h
    exact ⟨hpending, rfl⟩
  split at h
  · cases h
    exact ⟨hpending, rfl⟩
  · cases h
    exact ⟨hpending, rfl⟩

theorem Table.LeavesWhole.settled (hleaves : t.LeavesWhole) (hvalid : t.ValidTexts)
    (hkey : ValidUtf8 key) {e : Entry} (hfound : (t.lookUpPrefix key).data = some e) :
    (t.Resolves key → ValidUtf8 e.pending ∧ t.WholeOrNone e.pending) ∧
      (¬ t.Resolves key → (t.lookUpPrefix key).keyLength = key.length) := by
  refine ⟨fun hresolves => ⟨(hvalid.found hfound).2, (hleaves key e hkey hfound).1 hresolves⟩,
    fun hopen => ?_⟩
  have hle := keyLength_le t key
  rw [Table.Resolves, not_or] at hopen
  omega

/-- **A STEP OF `AddInput`** leaves nothing pending that the table matches in part. -/
theorem settled_addInputInternal (hleaves : t.LeavesWhole) (hvalid : t.ValidTexts)
    (hsettled : chunk.Settled t) (hinput : ValidUtf8 input)
    (h : chunk.addInputInternal t input = some (chunk', loop, rest)) :
    chunk'.Settled t ∧ (loop = true → ValidUtf8 rest) := by
  have hkey := validUtf8_append hsettled.valid hinput
  rw [CharChunk.addInputInternal] at h
  cases hfound : (t.lookUpPrefix (chunk.pending ++ input)).data with
  | none =>
    rw [hfound] at h
    exact settled_addInputNoEntry hsettled hinput (Option.some.inj h)
  | some e =>
    rw [hfound] at h
    obtain ⟨hpending, hrest⟩ := pending_of_addInputEntry h
    obtain ⟨hresolved, hopen⟩ := hleaves.settled hvalid hkey hfound
    refine ⟨?_, fun _ => hrest ▸ (valid_take_drop t hkey).2⟩
    by_cases hresolves : t.Resolves (chunk.pending ++ input)
    · rw [if_pos (by simpa [Table.Resolves] using hresolves)] at hpending
      obtain ⟨hpvalid, hpwhole⟩ := hresolved hresolves
      exact ⟨hpending ▸ hpvalid, hpending ▸ hpwhole⟩
    · rw [if_neg (by simpa [Table.Resolves] using hresolves)] at hpending
      exact ⟨hpending ▸ hkey, .inr (hpending ▸ hopen hresolves)⟩

/-- **CONVERTED TEXT** leaves nothing pending that the table matches in part. -/
theorem settled_addInputAndConvertedChar (hleaves : t.LeavesWhole) (hvalid : t.ValidTexts)
    (hsettled : chunk.Settled t) {input : CompositionInput} (hok : chunk.Accepts t input)
    (hconversion : input.conversion ≠ []) :
    (chunk.addInputAndConvertedChar t input).1.Settled t := by
  have hkey := validUtf8_append hsettled.valid hok.conversion
  rw [CharChunk.addInputAndConvertedChar]
  split
  · split
    · exact ⟨hsettled.valid, hsettled.whole⟩
    · exact hsettled
  rename_i hasis
  split
  · rename_i hempty
    exact ⟨hok.conversion, hok.whole hempty (Bool.not_eq_true _ ▸ hasis)⟩
  dsimp only
  split
  · exact hsettled
  rename_i e hfound
  obtain ⟨hresolved, hopen⟩ := hleaves.settled hvalid hkey hfound
  split
  · split
    · rename_i hfixed
      obtain ⟨hpvalid, hpwhole⟩ := hresolved (.inl hfixed)
      exact ⟨hpvalid, hpwhole⟩
    · rename_i hlen hfixed
      have hunresolved : ¬ t.Resolves (chunk.pending ++ input.conversion) :=
        not_or.mpr ⟨hfixed, by omega⟩
      exact ⟨(hvalid.found hfound).1, (hleaves _ e hkey hfound).2 hunresolved
        (List.append_ne_nil_of_right_ne_nil _ hconversion)⟩
  · rename_i hlen
    split
    · exact hsettled
    · have hle := keyLength_le t (chunk.pending ++ input.conversion)
      obtain ⟨hpvalid, hpwhole⟩ := hresolved (.inr (by omega))
      exact ⟨hpvalid, hpwhole⟩

/-! ## Whole runs -/

theorem settled_addInput (hleaves : t.LeavesWhole) (hvalid : t.ValidTexts) {fuel : Nat}
    (hsettled : chunk.Settled t) (hinput : ValidUtf8 input)
    (h : chunk.addInput t fuel input = some (chunk', rest)) : chunk'.Settled t := by
  induction fuel generalizing chunk input with
  | zero => exact absurd h (Option.some_ne_none _).symm
  | succ fuel ih =>
    rw [CharChunk.addInput] at h
    cases hstep : chunk.addInputInternal t input with
    | none => rw [hstep] at h; exact absurd h (Option.some_ne_none _).symm
    | some step =>
      obtain ⟨chunk₁, loop, rest₁⟩ := step
      obtain ⟨hsettled₁, hrest₁⟩ :=
        settled_addInputInternal hleaves hvalid hsettled hinput hstep
      rw [hstep] at h
      cases loop with
      | false =>
        cases h
        exact hsettled₁
      | true => exact ih hsettled₁ (hrest₁ rfl) h

theorem settled_of_reached (hleaves : t.LeavesWhole) (hvalid : t.ValidTexts)
    (h : CharChunk.Reached t (CharChunk.Accepts t) chunk) : chunk.Settled t := by
  induction h with
  | new transliterator => exact ⟨validUtf8_nil, wholeOrNone_nil t⟩
  | @add chunk chunk' input rest fuel hreached hok hadd ih =>
    rw [CharChunk.addCompositionInput] at hadd
    split at hadd
    · rename_i hconversion
      rw [show chunk' = (chunk.addInputAndConvertedChar t input).1 from
        (congrArg Prod.fst (Option.some.inj hadd)).symm]
      exact settled_addInputAndConvertedChar hleaves hvalid ih hok (by simpa using hconversion)
    split at hadd
    · cases hadd
      exact ih
    · obtain ⟨⟨chunk₁, rest₁⟩, hrun, heq⟩ := Option.map_eq_some_iff.mp hadd
      cases heq
      exact settled_addInput hleaves hvalid ih hok.raw hrun

/-- Every call of a run finds its chunk settled. -/
theorem settled_of_called (hleaves : t.LeavesWhole) (hvalid : t.ValidTexts)
    (h : CharChunk.Called t (CharChunk.Accepts t) chunk input) :
    chunk.Settled t ∧ ValidUtf8 input := by
  obtain ⟨chunk₀, input₀, hreached, hok, -, -, hloops⟩ := h
  generalize hstate : (chunk, input) = state at hloops
  induction hloops generalizing chunk input with
  | refl =>
    cases hstate
    exact ⟨settled_of_reached hleaves hvalid hreached, hok.raw⟩
  | @tail state state' _ hstep ih =>
    cases hstate
    obtain ⟨hsettled, hinput⟩ := ih rfl
    obtain ⟨hsettled', hrest⟩ := settled_addInputInternal hleaves hvalid hsettled hinput hstep
    exact ⟨hsettled', hrest rfl⟩

/-! ## Rules that are matched in part -/

/-- The input of a rule puts the pending text of the rule into a chunk without any. -/
theorem addInputInternal_resolves {e : Entry} (hnil : chunk.pending = [])
    (hfound : (t.lookUpPrefix key).data = some e) (hresolves : t.Resolves key)
    (hpending : e.pending ≠ []) :
    ∃ chunk', chunk.addInputInternal t key
      = some (chunk', !(key.drop (t.lookUpPrefix key).keyLength).isEmpty,
        key.drop (t.lookUpPrefix key).keyLength) ∧ chunk'.pending = e.pending := by
  have hresolved : ((t.lookUpPrefix key).fixed ||
      decide ((t.lookUpPrefix key).keyLength < key.length)) = true := by
    simpa [Table.Resolves] using hresolves
  refine ⟨(chunk.moved e key (t.lookUpPrefix key).keyLength).applyEntry e key true, ?_, rfl⟩
  rw [CharChunk.addInputInternal, hnil, List.nil_append]
  simp only [hfound]
  rw [CharChunk.addInputEntry, hnil, List.length_nil, if_neg (Nat.not_lt_zero _)]
  dsimp only
  rw [List.nil_append, Nat.sub_zero, hresolved, applyEntry_pending,
    List.isEmpty_eq_false_iff.mpr hpending]
  simp only [Bool.and_false, Bool.false_and, Bool.false_eq_true, if_false, Bool.or_false]
  cases (key.drop (t.lookUpPrefix key).keyLength).isEmpty with
  | true => rfl
  | false => rfl

/-- Converted text that a rule matches leaves the result of the rule pending, where longer
    rules start with it. -/
theorem addInputAndConvertedChar_open {e : Entry} (hnil : chunk.pending = [])
    (hempty : chunk.isEmpty = false) (hfound : (t.lookUpPrefix key).data = some e)
    (hopen : ¬ t.Resolves key) :
    (chunk.addInputAndConvertedChar t ⟨[], key, false, false⟩).1.pending = e.result := by
  have hle := keyLength_le t key
  rw [Table.Resolves, not_or] at hopen
  rw [CharChunk.addInputAndConvertedChar, if_neg Bool.false_ne_true, hempty,
    if_neg Bool.false_ne_true, hnil]
  simp only [List.nil_append, hfound]
  rw [if_pos (by omega), if_neg hopen.1]

theorem called_of_reached {ok : CharChunk → CompositionInput → Prop}
    (h : CharChunk.Reached t ok chunk) (hpending : chunk.pending ≠ [])
    (hok : ok chunk ⟨input, [], false, false⟩) : CharChunk.Called t ok chunk input := by
  refine ⟨chunk, ⟨input, [], false, false⟩, h, hok, rfl, ?_, .refl⟩
  rw [CharChunk.shouldInsertNewChunk, List.isEmpty_eq_false_iff.mpr hpending]
  simp

theorem accepts_raw (hinput : ValidUtf8 input) (chunk : CharChunk) (isAsis : Bool) :
    chunk.Accepts t ⟨input, [], false, isAsis⟩ :=
  ⟨hinput, validUtf8_nil, fun _ _ => wholeOrNone_nil t⟩

theorem ne_nil_of_not_wholeOrNone (h : ¬ t.WholeOrNone q) : q ≠ [] := by
  rintro rfl
  exact h (wholeOrNone_nil t)

theorem wholeOrNone_pending (hvalid : t.ValidTexts)
    (hsafe : ∀ chunk input, CharChunk.Called t (CharChunk.Accepts t) chunk input →
      t.Reaches chunk.pending input)
    (hkey : ValidUtf8 key) {e : Entry} (hfound : (t.lookUpPrefix key).data = some e)
    (hresolves : t.Resolves key) : t.WholeOrNone e.pending := by
  by_contra hpart
  obtain ⟨chunk, hstep, hpending⟩ :=
    @addInputInternal_resolves t (.new .conversionString) key e rfl hfound hresolves
      (ne_nil_of_not_wholeOrNone hpart)
  have hpvalid := (hvalid.found hfound).2
  have hreach (rest : Bytes) (hcalled : CharChunk.Called t (CharChunk.Accepts t) chunk rest) :
      False := by
    have h := hsafe chunk rest hcalled
    rw [hpending] at h
    exact hpart (h.wholeOrNone hpvalid)
  cases hmore : (key.drop (t.lookUpPrefix key).keyLength).isEmpty with
  | true =>
    -- The call ends here, and the next one finds the text pending.
    rw [hmore] at hstep
    have hreached : CharChunk.Reached t (CharChunk.Accepts t) chunk := by
      refine @CharChunk.Reached.add t _ (.new .conversionString) chunk ⟨key, [], false, false⟩
        ⟨key.drop (t.lookUpPrefix key).keyLength, [], false, false⟩ 1
        (.new _) (accepts_raw hkey _ _) ?_
      rw [addCompositionInput_raw rfl rfl, CharChunk.addInput, hstep]
      rfl
    exact hreach [] (called_of_reached hreached
      (hpending ▸ ne_nil_of_not_wholeOrNone hpart) (accepts_raw validUtf8_nil _ _))
  | false =>
    rw [hmore] at hstep
    exact hreach _ ⟨.new .conversionString, ⟨key, [], false, false⟩, .new _,
      accepts_raw hkey _ _, rfl, rfl, .single hstep⟩

/-- Converted text reaches the result of every rule that a look-up leaves open. -/
theorem wholeOrNone_result (hvalid : t.ValidTexts)
    (hsafe : ∀ chunk input, CharChunk.Called t (CharChunk.Accepts t) chunk input →
      t.Reaches chunk.pending input)
    (hkey : ValidUtf8 key) {e : Entry} (hfound : (t.lookUpPrefix key).data = some e)
    (hopen : ¬ t.Resolves key) (hne : key ≠ []) : t.WholeOrNone e.result := by
  by_contra hpart
  -- A chunk that holds text as it is, and nothing pending.
  have hx : ValidUtf8 (ascii "x") := ⟨[0x78], by decide, by decide⟩
  obtain ⟨chunk, hreached, hnil, hempty⟩ : ∃ chunk,
      CharChunk.Reached t (CharChunk.Accepts t) chunk ∧ chunk.pending = [] ∧
        chunk.isEmpty = false :=
    ⟨_, @CharChunk.Reached.add t _ (.new .conversionString) _ ⟨ascii "x", ascii "x", false, true⟩
      .cleared 0 (.new _) ⟨hx, hx, fun _ => Bool.noConfusion⟩ rfl, rfl, rfl⟩
  have hpending := addInputAndConvertedChar_open hnil hempty hfound hopen
  have hreached' : CharChunk.Reached t (CharChunk.Accepts t)
      (chunk.addInputAndConvertedChar t ⟨[], key, false, false⟩).1 := by
    refine @CharChunk.Reached.add t _ chunk _ ⟨[], key, false, false⟩
      (chunk.addInputAndConvertedChar t ⟨[], key, false, false⟩).2 0 hreached
      ⟨validUtf8_nil, hkey, fun hnone => absurd (hempty.symm.trans hnone) (by decide)⟩ ?_
    rw [CharChunk.addCompositionInput, if_pos (by simpa using hne)]
  have hreach := hsafe _ [] (called_of_reached hreached'
    (hpending ▸ ne_nil_of_not_wholeOrNone hpart) (accepts_raw validUtf8_nil _ _))
  rw [hpending] at hreach
  exact hpart (hreach.wholeOrNone (hvalid.found hfound).1)

/-! ## The main result -/

/-- **NO RUN UNDERFLOWS**, whatever calls it makes, just where no text that the rules leave
    pending is matched in part. -/
theorem never_underflows_iff (t : Table) (hvalid : t.ValidTexts) :
    (∀ chunk input, CharChunk.Called t (CharChunk.Accepts t) chunk input →
      t.Reaches chunk.pending input) ↔ t.LeavesWhole := by
  constructor
  · intro hsafe key e hkey hfound
    exact ⟨wholeOrNone_pending hvalid hsafe hkey hfound,
      wholeOrNone_result hvalid hsafe hkey hfound⟩
  · intro hleaves chunk input hcalled
    obtain ⟨hsettled, -⟩ := settled_of_called hleaves hvalid hcalled
    exact hsettled.whole.reaches hsettled.valid input

/-- Two rules, of which one leaves its last letter pending. -/
def kkTable : Table := (Table.new.loadFromString 3 (ascii "ka\tKA\nkk\tQ\tk")).getD .new

theorem sound_kkTable : kkTable.Sound := by
  have hrules : textRules (ascii "ka\tKA\nkk\tQ\tk")
      = [⟨ascii "ka", ascii "KA", [], 0⟩, ⟨ascii "kk", ascii "Q", ascii "k", 0⟩] := by
    decide +kernel
  have hfits : RulesFit Table.new
      ((textRules (ascii "ka\tKA\nkk\tQ\tk")).flatMap Rule.steps) := by
    rw [hrules]
    exact rulesFit_kk
  exact sound_of_loadFromString hfits (eq_some_getD (by decide +kernel) Table.new)

theorem mem_kkTable {e : Entry} (h : e ∈ kkTable.entrySet) :
    e = ⟨ascii "kk", ascii "Q", ascii "k", 0⟩ ∨ e = ⟨ascii "ka", ascii "KA", [], 0⟩ := by
  have hset : kkTable.entrySet
      = [⟨ascii "kk", ascii "Q", ascii "k", 0⟩, ⟨ascii "ka", ascii "KA", [], 0⟩] := by
    decide +kernel
  rw [hset] at h
  exact (List.mem_cons.mp h).imp_right List.mem_singleton.mp

/-- The pending texts of a sound table are whole, and the results `Q` and `KA` are matched not
    at all and as the key `ka`. -/
theorem never_underflows_kk : ¬ ∃ chunk input,
    CharChunk.Called kkTable (CharChunk.Accepts kkTable) chunk input ∧
      ¬ kkTable.Reaches chunk.pending input := by
  rintro ⟨chunk, input, hcalled, hnot⟩
  refine hnot ((never_underflows_iff kkTable fun key e he => ?_).mpr (fun key e _ he => ?_)
    chunk input hcalled)
  · rcases mem_kkTable (sound_kkTable.stored key e he).1 with rfl | rfl
    · exact ⟨⟨[0x51], by decide, by decide +kernel⟩, ⟨[0x6B], by decide, by decide +kernel⟩⟩
    · exact ⟨⟨[0x4B, 0x41], by decide, by decide +kernel⟩, validUtf8_nil⟩
  · have hmem := (sound_kkTable.found he).1
    refine ⟨fun _ => sound_kkTable.whole e hmem, fun _ _ => ?_⟩
    rcases mem_kkTable hmem with rfl | rfl <;> decide +kernel

/-- A rule leaves `cd` pending, and another one matches its `c` alone. -/
theorem underflows_cd : ¬ ∀ (fuel : Nat) (text : Bytes) (t : Table),
    Table.new.loadFromString fuel text = some t → ∀ chunk input,
      CharChunk.Called t (fun _ _ => True) chunk input → t.Reaches chunk.pending input := by
  intro h
  let t := (Table.new.loadFromString 9 (ascii "ab\t\tcd\nc\tY")).getD .new
  let added := ((CharChunk.new .conversionString).addCompositionInput t 9
    ⟨ascii "ab", [], false, false⟩).getD (.new .conversionString, .cleared)
  have hadded := @eq_some_getD _ ((CharChunk.new .conversionString).addCompositionInput t 9
    ⟨ascii "ab", [], false, false⟩) (by decide +kernel) (.new .conversionString, .cleared)
  have hreached : CharChunk.Reached t (fun _ _ => True) added.1 :=
    @CharChunk.Reached.add t _ _ _ _ added.2 9 (.new .conversionString) trivial hadded
  have hpending : added.1.pending = ascii "cd" := by decide +kernel
  have hload := @eq_some_getD _ (Table.new.loadFromString 9 (ascii "ab\t\tcd\nc\tY"))
    (by decide +kernel) Table.new
  have hreach := h 9 _ t hload added.1 (ascii "e")
    (called_of_reached hreached (by rw [hpending]; decide) trivial)
  rw [hpending] at hreach
  exact absurd (hreach ⟨ascii "c", ascii "Y", [], 0⟩ (by decide +kernel)) (by decide +kernel)

end MozkeyComposer
