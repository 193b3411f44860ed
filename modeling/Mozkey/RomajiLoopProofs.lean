import Mozkey.RomajiTableProofs
import Mozkey.PrefixRewritingProofs

/-! # Table — the rules never loop

    The pending string of a rule that matched is fed back as input of the table.
    `IsLoopingEntry` refuses the rules that would make this go on for ever, as far as every
    pending string is matched as a whole or not at all: then a text behind it does not matter
    until the chain of rules on it has ended. -/

namespace MozkeyComposer

open ByteString MozkeyUtil CharTrie PrefixRewriting
open MozkeyUserDictionary (lowerString)

/-! ## What the rules are like -/

/-- A pending string is matched as a whole or not at all. -/
def Table.WholeOrNone (t : Table) (pending : Bytes) : Prop :=
  (t.lookUpPrefix pending).data = none ∨ (t.lookUpPrefix pending).keyLength = pending.length

/-- What is asked of an entry that is added: its input is not empty, both strings are valid,
    and with the entry in it the table matches every pending string as a whole or not at all.
    As long as the table goes by lower case, it matches no pending string that lower case
    changes; the entry that makes the table case-sensitive may have one. -/
structure RuleFits (t : Table) (entry : Entry) : Prop where
  input_ne_nil : entry.input ≠ []
  valid_input : ValidUtf8 entry.input
  valid_pending : ValidUtf8 entry.pending
  whole : ∀ e ∈ (t.setEntry entry).entrySet, (t.setEntry entry).WholeOrNone e.pending
  lower : t.caseSensitive = true ∨ ∀ e ∈ t.entrySet,
    lowerString e.pending = e.pending ∨ ((t.setEntry entry).lookUpPrefix e.pending).data = none
  lower_pending : t.caseSensitive = true ∨ lowerString entry.pending = entry.pending ∨
    ((t.setEntry entry).lookUpPrefix entry.pending).data = none ∨
    (t.setEntry entry).caseSensitive = true

/-- A string that look-ups take as it is. -/
def Table.Plain (t : Table) (s : Bytes) : Prop :=
  ValidUtf8 s ∧ (t.caseSensitive = true ∨ lowerString s = s)

/-- A string that look-ups take as it is, or that another table does not match. -/
def Table.Settled (t t' : Table) (s : Bytes) : Prop :=
  t.Plain s ∨ (t'.lookUpPrefix s).data = none

/-- The entries of the trie are those of the set, under their inputs. -/
structure Table.Stored (t : Table) : Prop where
  stored : ∀ key e, CharTrie.lookUp key t.entries = some e → e ∈ t.entrySet ∧ key = path e.input
  input : ∀ e ∈ t.entrySet, e.input ≠ [] ∧ ValidUtf8 e.input
  valid : ∀ e ∈ t.entrySet, ValidUtf8 e.pending

/-- What a prefix look-up finds, as a rewriting of the front. -/
def Table.find (t : Table) (key : Bytes) : Option (Bytes × Nat) :=
  (t.lookUpPrefix key).data.map fun entry => (entry.pending, (t.lookUpPrefix key).keyLength)

/-- What a table is like at any time. -/
structure Table.Sound (t : Table) : Prop extends t.Stored where
  whole : ∀ e ∈ t.entrySet, t.WholeOrNone e.pending
  acc : ∀ e ∈ t.entrySet, Acc (Linked t.find) e.pending

variable {t : Table}

/-! ## A sound table rewrites fronts -/

variable {key q : Bytes}

theorem find_eq_some {n : Nat} (h : t.find key = some (q, n)) :
    ∃ e, (t.lookUpPrefix key).data = some e ∧ e.pending = q ∧
      (t.lookUpPrefix key).keyLength = n := by
  obtain ⟨e, he, heq⟩ := Option.map_eq_some_iff.mp h
  exact ⟨e, he, (Prod.mk.inj heq).1, (Prod.mk.inj heq).2⟩

theorem path_ne_nil (hkey : key ≠ []) : path key ≠ [] := by
  rw [path, letters_eq hkey]
  exact List.cons_ne_nil _ _

theorem length_normalize (t : Table) (key : Bytes) : (t.normalize key).length = key.length := by
  rw [Table.normalize]
  split
  · rfl
  · exact length_lowerString key

theorem letters_normalize_append {q : Bytes} (hq : ValidUtf8 q) (rest : Bytes) :
    letters (t.normalize (q ++ rest)) = letters (t.normalize q) ++ letters (t.normalize rest) := by
  rw [Table.normalize, Table.normalize, Table.normalize]
  split
  · exact letters_valid_append hq rest
  · obtain ⟨hvalid, happend⟩ := lowerString_valid hq
    rw [happend, letters_valid_append hvalid]

variable {s : Bytes}

theorem Table.Plain.normalize_eq (hs : t.Plain s) : t.normalize s = s := by
  obtain ⟨-, hlower⟩ := hs
  rw [Table.normalize]
  split
  · rfl
  · rename_i hcase
    exact hlower.resolve_left hcase

variable {e : Entry}

/-- What is found is an entry, whose input is the front that is reported. -/
theorem Table.Stored.found (hstored : t.Stored) (h : (t.lookUpPrefix key).data = some e) :
    e ∈ t.entrySet ∧ 0 < (t.lookUpPrefix key).keyLength ∧
      (t.lookUpPrefix key).keyLength ≤ key.length := by
  obtain ⟨front, hfront, hlen, hdata⟩ :=
    lookUpPrefix_found (letters (t.normalize key)) t.entries
  rw [Table.lookUpPrefix] at h
  rw [h] at hdata
  obtain ⟨hmem, hpath⟩ := hstored.stored _ e hdata.symm
  obtain ⟨hsize, hpos⟩ := size_letters (t.normalize key)
  rw [Table.lookUpPrefix, hlen]
  refine ⟨hmem, ?_, ?_⟩
  · cases front with
    | nil => exact absurd hpath.symm (path_ne_nil (hstored.input e hmem).1)
    | cons letter front =>
      have := hpos letter (hfront.subset List.mem_cons_self)
      rw [size, List.map_cons, List.sum_cons]
      omega
  · obtain ⟨rest, hrest⟩ := hfront
    rw [← hrest, size, List.map_append, List.sum_append] at hsize
    rw [← length_normalize t key, size]
    omega

/-- **A SOUND TABLE REWRITES FRONTS**, by the pending strings of its entries. -/
theorem Table.Sound.system (hsound : t.Sound) :
    System t.find {p | ∃ e ∈ t.entrySet, e.pending = p} where
  pos h := by
    obtain ⟨e, he, -, rfl⟩ := find_eq_some h
    exact (hsound.found he).2.1
  le_length h := by
    obtain ⟨e, he, -, rfl⟩ := find_eq_some h
    exact (hsound.found he).2.2
  mem h := by
    obtain ⟨e, he, rfl, -⟩ := find_eq_some h
    exact ⟨e, (hsound.found he).1, rfl⟩
  held := by
    rintro _ rest q' n ⟨e, he, rfl⟩ h
    obtain ⟨e', he', rfl, hlen⟩ := find_eq_some h
    have hkey := @letters_normalize_append t _ (hsound.valid e he) rest
    -- A match that ends within the pending string is a match of the pending string alone.
    have hlocal (hle : n ≤ e.pending.length) :
        t.lookUpPrefix e.pending = t.lookUpPrefix (e.pending ++ rest) := by
      rw [Table.lookUpPrefix, Table.lookUpPrefix, hkey]
      refine lookUpPrefix_append (size_letters _).2 ?_
      rw [← hkey, (size_letters _).1, length_normalize]
      exact hlen.trans_le hle
    have hwhole := hsound.whole e he
    rw [Table.WholeOrNone] at hwhole
    refine ⟨?_, fun heq => ?_⟩
    · by_contra hlt
      rw [hlocal (by omega), he'] at hwhole
      rcases hwhole with hnone | hwhole
      · exact absurd hnone (Option.some_ne_none _)
      · omega
    · rw [Linked, Table.find, hlocal heq.le, he', Option.map_some, hlen, heq]
  acc := by
    rintro _ ⟨e, he, rfl⟩
    exact hsound.acc e he

/-! ## The check of a rule -/

/-- **THE CHECK OF A RULE ENDS** in a sound table. -/
theorem exists_isLoopingLoop (hsound : t.Sound) (input key : Bytes) :
    ∃ fuel b, t.isLoopingLoop input fuel key = some b := by
  have hacc := acc_feeds hsound.system key
  induction hacc with
  | intro key _ ih =>
    by_cases hinput : input <+: key
    · exact ⟨1, true, by rw [Table.isLoopingLoop, if_pos hinput]⟩
    cases hfound : (t.lookUpPrefix key).data with
    | none => exact ⟨1, false, by rw [Table.isLoopingLoop, if_neg hinput]; simp only [hfound]⟩
    | some e =>
      have hfeeds : Feeds t.find (e.pending ++ key.drop (t.lookUpPrefix key).keyLength) key :=
        ⟨e.pending, _, by rw [Table.find, hfound, Option.map_some], .inl rfl⟩
      obtain ⟨fuel, b, hrun⟩ := ih _ hfeeds
      by_cases hempty : (e.pending ++ key.drop (t.lookUpPrefix key).keyLength).isEmpty
      · refine ⟨1, false, ?_⟩
        rw [Table.isLoopingLoop, if_neg hinput]
        simp only [hfound, hempty, if_true]
      · refine ⟨fuel + 1, b, ?_⟩
        rw [Table.isLoopingLoop, if_neg hinput]
        simp only [hfound, hempty]
        exact hrun

variable {t : Table}

/-! ## A rule that is added -/

variable {entry : Entry}

/-- **WHAT A RULE CHANGES** in the look-up of a string taken as it is: the look-up finds
    nothing, or the rule at the front of the string, or what it found before. -/
theorem Table.Stored.find_setEntry (hvalid : ValidUtf8 entry.input) (hkey : ValidUtf8 key)
    (hnew : (t.setEntry entry).normalize key = key)
    (h : ((t.setEntry entry).lookUpPrefix key).data = some e) :
    (e = entry ∧ entry.input <+: key) ∨
      ((CharTrie.lookUpPrefix (letters key) t.entries).data = some e ∧
        (CharTrie.lookUpPrefix (letters key) t.entries).keyLength
          = ((t.setEntry entry).lookUpPrefix key).keyLength) := by
  rw [Table.lookUpPrefix, hnew] at h ⊢
  obtain hnone | ⟨hdata, hpath, -⟩ | ⟨hdata, hlen⟩ :=
    lookUpPrefix_addEntry (path entry.input) (letters key) entry t.entries
  · exact absurd (hnone.symm.trans h) (Option.some_ne_none _).symm
  · refine .inl ⟨Option.some.inj (h.symm.trans hdata), ?_⟩
    exact (prefix_of_path hvalid hkey hpath).1
  · exact .inr ⟨hdata.symm.trans h, hlen.symm⟩

theorem Table.Plain.setEntry (hs : t.Plain s) (entry : Entry) :
    (t.setEntry entry).Plain s := by
  refine ⟨hs.1, hs.2.imp_left fun hcase => ?_⟩
  rw [Table.setEntry, hcase, Bool.true_or]

theorem RuleFits.settled (hstored : t.Stored) (hfits : RuleFits t entry) (he : e ∈ t.entrySet) :
    t.Settled (t.setEntry entry) e.pending := by
  have hvalid := hstored.valid e he
  rcases hfits.lower with hcase | hlower
  · exact .inl ⟨hvalid, .inl hcase⟩
  · exact (hlower e he).imp_left fun hlower => ⟨hvalid, .inr hlower⟩

theorem mem_setEntry (he : e ∈ (t.setEntry entry).entrySet) :
    e = entry ∨ e ∈ t.entrySet := by
  rcases List.mem_cons.mp he with rfl | he
  · exact .inl rfl
  · right
    split at he
    · exact he
    · exact List.mem_of_mem_erase he

theorem Table.Stored.setEntry (hstored : t.Stored) (hfits : RuleFits t entry) :
    (t.setEntry entry).Stored where
  stored key e h := by
    rw [Table.setEntry, lookUp_addEntry] at h
    split at h
    · rename_i hkey
      cases h
      exact ⟨List.mem_cons_self, hkey⟩
    · rename_i hkey
      obtain ⟨hmem, hpath⟩ := hstored.stored key e h
      refine ⟨List.mem_cons_of_mem _ ?_, hpath⟩
      split
      · exact hmem
      · -- The entry that goes is the one under the path of the new input.
        rename_i oldEntry hold
        refine (List.mem_erase_of_ne ?_).mpr hmem
        rintro rfl
        exact hkey (hpath.trans (hstored.stored _ _ hold).2.symm)
  input e he := by
    rcases mem_setEntry he with rfl | he
    · exact ⟨hfits.input_ne_nil, hfits.valid_input⟩
    · exact hstored.input e he
  valid e he := by
    rcases mem_setEntry he with rfl | he
    · exact hfits.valid_pending
    · exact hstored.valid e he

theorem linked_setEntry (hstored : t.Stored) (hvalid : ValidUtf8 entry.input) {q' : Bytes}
    (hq : t.Settled (t.setEntry entry) q) (h : Linked (t.setEntry entry).find q' q) :
    (q' = entry.pending ∧ entry.input <+: q ∧ t.Plain q) ∨
      (Linked t.find q' q ∧ ∃ e ∈ t.entrySet, e.pending = q') := by
  obtain ⟨e, he, rfl, hlen⟩ := find_eq_some h
  have hplain := hq.resolve_right (by rw [he]; exact Option.some_ne_none e)
  have hnew := (hplain.setEntry entry).normalize_eq
  obtain ⟨rfl, hstarts⟩ | ⟨hdata, hold⟩ :=
    Table.Stored.find_setEntry hvalid hplain.1 hnew he
  · exact .inl ⟨rfl, hstarts, hplain⟩
  · have hlook : t.lookUpPrefix q = CharTrie.lookUpPrefix (letters q) t.entries := by
      rw [Table.lookUpPrefix, hplain.normalize_eq]
    rw [← hlook] at hdata hold
    refine .inr ⟨?_, e, (hstored.found hdata).1, rfl⟩
    rw [Linked, Table.find, hdata, Option.map_some, hold, hlen]

/-- The chains that ended before end still, if the chain of the new rule does. -/
theorem acc_setEntry (hstored : t.Stored) (hfits : RuleFits t entry) (hacc : Acc (Linked t.find) q)
    (hq : t.Settled (t.setEntry entry) q) (hnew : ∀ s, t.Plain s → entry.input <+: s →
      Acc (Linked (t.setEntry entry).find) entry.pending) :
    Acc (Linked (t.setEntry entry).find) q := by
  induction hacc with
  | intro q _ ih =>
    refine Acc.intro _ fun q' hlinked => ?_
    obtain ⟨rfl, hstarts, hplain⟩ | ⟨hold, e, he, rfl⟩ :=
      linked_setEntry hstored hfits.valid_input hq hlinked
    · exact hnew q hplain hstarts
    · exact ih _ hold (hfits.settled hstored he)

variable {fuel : Nat}

/-- The chain that the check has followed to its end does not meet the new rule. -/
theorem acc_of_isLoopingLoop (hstored : t.Stored) (hfits : RuleFits t entry)
    (hkey : t.Settled (t.setEntry entry) key)
    (hrun : t.isLoopingLoop entry.input fuel key = some false) :
    Acc (Linked (t.setEntry entry).find) key := by
  induction fuel generalizing key with
  | zero => exact absurd hrun (Option.some_ne_none _).symm
  | succ fuel ih =>
    refine Acc.intro _ fun q' hlinked => ?_
    rw [Table.isLoopingLoop] at hrun
    by_cases hstarts : entry.input <+: key
    · rw [if_pos hstarts] at hrun
      exact absurd hrun (by decide)
    rw [if_neg hstarts] at hrun
    obtain ⟨-, hmeet, -⟩ | ⟨hold, -⟩ :=
      linked_setEntry hstored hfits.valid_input hkey hlinked
    · exact absurd hmeet hstarts
    · obtain ⟨e, he, rfl, hlen⟩ := find_eq_some hold
      have hmem := (hstored.found he).1
      simp only [he, hlen, List.drop_length, List.append_nil] at hrun
      by_cases hempty : e.pending.isEmpty
      · -- Nothing is found in an empty string.
        rw [List.isEmpty_iff.mp hempty]
        refine Acc.intro _ fun q'' hnil => ?_
        obtain ⟨e'', he'', -, hzero⟩ := find_eq_some hnil
        have hpos := ((hstored.setEntry hfits).found he'').2.1
        rw [hzero, List.length_nil] at hpos
        exact absurd hpos (Nat.lt_irrefl 0)
      · rw [if_neg hempty] at hrun
        exact ih (hfits.settled hstored hmem) hrun

/-- The input that makes a table case-sensitive is not at the front of a string in lower case. -/
theorem not_prefix_of_caseSensitive (hcase : t.caseSensitive ≠ true)
    (hcase' : (t.setEntry entry).caseSensitive = true) (hs : t.Plain s) :
    ¬ entry.input <+: s := by
  intro hstarts
  rw [Table.setEntry, Bool.or_eq_true] at hcase'
  obtain ⟨c, hmem, hcap⟩ := List.any_eq_true.mp (hcase'.resolve_left hcase)
  rw [isCapital, Bool.and_eq_true, decide_eq_true_eq, decide_eq_true_eq] at hcap
  have hbyte : (UInt8.ofNat c).toNat = c := by
    rw [UInt8.toNat_ofNat', Nat.mod_eq_of_lt (by omega)]
  have hascii : UInt8.ofNat c < 0x80 := by
    rw [UInt8.lt_iff_toNat_lt, hbyte]
    exact Nat.lt_of_le_of_lt hcap.2 (by decide)
  have hinput := mem_of_mem_deleteSpecialKeys hascii
    (mem_of_mem_chars32 (by omega) hmem)
  refine not_capital_of_lower hs.1 (hs.2.resolve_left hcase) (hstarts.subset hinput) ?_
  rwa [hbyte]

theorem acc_pending (hsound : t.Sound) (hfits : RuleFits t entry)
    (hcheck : t.isLoopingEntry fuel entry.input entry.pending = some false) :
    Acc (Linked (t.setEntry entry).find) entry.pending := by
  have hinput : entry.input.isEmpty = false := by
    rw [List.isEmpty_eq_false_iff]
    exact hfits.input_ne_nil
  rw [Table.isLoopingEntry, hinput, Bool.false_or] at hcheck
  by_cases hpending : entry.pending.isEmpty
  · rw [List.isEmpty_iff.mp hpending]
    refine Acc.intro _ fun q hnil => ?_
    obtain ⟨e, he, -, hzero⟩ := find_eq_some hnil
    have hpos := ((hsound.setEntry hfits).found he).2.1
    rw [hzero, List.length_nil] at hpos
    exact absurd hpos (Nat.lt_irrefl 0)
  rw [if_neg hpending] at hcheck
  by_cases hold : t.Settled (t.setEntry entry) entry.pending
  · exact acc_of_isLoopingLoop hsound.toStored hfits hold hcheck
  · -- The rule makes the table case-sensitive: no chain leads back to it.
    obtain ⟨hplain, hmatch⟩ := not_or.mp hold
    have hcase : t.caseSensitive ≠ true := fun h => hplain ⟨hfits.valid_pending, .inl h⟩
    have hlower : lowerString entry.pending ≠ entry.pending :=
      fun h => hplain ⟨hfits.valid_pending, .inr h⟩
    have hcase' := ((hfits.lower_pending.resolve_left hcase).resolve_left hlower).resolve_left
      hmatch
    refine Acc.intro _ fun q' hlinked => ?_
    obtain ⟨e, he, rfl, hlen⟩ := find_eq_some hlinked
    have hnew : (t.setEntry entry).normalize entry.pending = entry.pending := by
      rw [Table.normalize, if_pos hcase']
    obtain ⟨-, hstarts⟩ | ⟨hdata, -⟩ :=
      Table.Stored.find_setEntry hfits.valid_input hfits.valid_pending hnew he
    · cases fuel with
      | zero => exact absurd hcheck (Option.some_ne_none _).symm
      | succ fuel =>
        rw [Table.isLoopingLoop, if_pos hstarts] at hcheck
        exact absurd hcheck (by decide)
    · obtain ⟨front, -, -, hlook⟩ := lookUpPrefix_found (letters entry.pending) t.entries
      have hmem := (hsound.stored _ e (hlook.symm.trans hdata)).1
      refine acc_setEntry hsound.toStored hfits (hsound.acc e hmem)
        (hfits.settled hsound.toStored hmem) fun s hs hstarts => ?_
      exact absurd hstarts (not_prefix_of_caseSensitive hcase hcase' hs)

/-- **A RULE THAT PASSES ITS CHECK** keeps the table sound. -/
theorem Table.Sound.setEntry (hsound : t.Sound) (hfits : RuleFits t entry)
    (hcheck : t.isLoopingEntry fuel entry.input entry.pending = some false) :
    (t.setEntry entry).Sound where
  toStored := hsound.toStored.setEntry hfits
  whole := hfits.whole
  acc e he := by
    have hnew := acc_pending hsound hfits hcheck
    rcases mem_setEntry he with rfl | he
    · exact hnew
    · exact acc_setEntry hsound.toStored hfits (hsound.acc e he)
        (hfits.settled hsound.toStored he) fun _ _ _ => hnew

variable {t : Table}

/-! ## Runs of rules -/

variable {fuel' : Nat}

theorem isLoopingLoop_mono {input : Bytes} (hle : fuel ≤ fuel') {b : Bool}
    (h : t.isLoopingLoop input fuel key = some b) :
    t.isLoopingLoop input fuel' key = some b := by
  induction fuel generalizing fuel' key with
  | zero => exact absurd h (Option.some_ne_none _).symm
  | succ fuel ih =>
    obtain ⟨fuel', rfl⟩ : ∃ n, fuel' = n + 1 := ⟨fuel' - 1, by omega⟩
    rw [Table.isLoopingLoop] at h ⊢
    split
    · rename_i hinput
      rwa [if_pos hinput] at h
    · rename_i hinput
      rw [if_neg hinput] at h
      dsimp only at h ⊢
      split at h
      · exact h
      · split at h
        · rename_i hempty
          rw [if_pos hempty]
          exact h
        · rename_i hempty
          rw [if_neg hempty]
          exact ih (by omega) h

theorem isLoopingEntry_mono {input pending : Bytes} (hle : fuel ≤ fuel') {b : Bool}
    (h : t.isLoopingEntry fuel input pending = some b) :
    t.isLoopingEntry fuel' input pending = some b := by
  rw [Table.isLoopingEntry] at h ⊢
  split
  · rename_i hempty
    rwa [if_pos hempty] at h
  · rename_i hempty
    rw [if_neg hempty] at h
    exact isLoopingLoop_mono hle h

/-- The table behind a rule whose check gives `b`. -/
def Table.checked (t : Table) (r : Rule) (b : Bool) : Table :=
  if b then t.registered r else (t.registered r).setEntry (t.entryOf r)

variable {r : Rule} {t' : Table}

theorem addRule_eq_some (hlong : r.tooLong = false) :
    t.addRule fuel r = some t' ↔ ∃ b, (t.registered r).isLoopingEntry fuel (t.entryOf r).input
      (t.entryOf r).pending = some b ∧ t' = t.checked r b := by
  rw [Table.addRule, hlong, if_neg Bool.false_ne_true]
  dsimp only
  cases (t.registered r).isLoopingEntry fuel (t.entryOf r).input (t.entryOf r).pending with
  | none =>
    refine ⟨fun h => absurd h (Option.some_ne_none _).symm, ?_⟩
    rintro ⟨b, h, -⟩
    exact absurd h (Option.some_ne_none _).symm
  | some b =>
    constructor
    · intro h
      refine ⟨b, rfl, ?_⟩
      cases b <;> exact (Option.some.inj h).symm
    · rintro ⟨b', h, rfl⟩
      cases h
      cases b <;> rfl

theorem addRule_mono (hle : fuel ≤ fuel') (h : t.addRule fuel r = some t') :
    t.addRule fuel' r = some t' := by
  cases hlong : r.tooLong with
  | true =>
    rw [Table.addRule, if_pos hlong] at h ⊢
    exact h
  | false =>
    obtain ⟨b, hcheck, rfl⟩ := (addRule_eq_some hlong).mp h
    exact (addRule_eq_some hlong).mpr ⟨b, isLoopingEntry_mono hle hcheck, rfl⟩

/-- The rules that one call adds, one after another. -/
def Rule.steps (r : Rule) : List Rule :=
  if hasAttribute r.attributes newChunk then [r.additional, r] else [r]

/-- Rules are added one by one. -/
def Table.addSteps (fuel : Nat) (t : Table) (steps : List Rule) : Option Table :=
  steps.foldlM (fun t r => t.addRule fuel r) t

theorem addSteps_cons {steps : List Rule} :
    t.addSteps fuel (r :: steps) = some t' ↔
      ∃ t₁, t.addRule fuel r = some t₁ ∧ t₁.addSteps fuel steps = some t' := by
  rw [Table.addSteps, List.foldlM_cons]
  exact Option.bind_eq_some_iff

theorem addRules_eq_addSteps (fuel : Nat) (t : Table) (rules : List Rule) :
    t.addRules fuel rules = t.addSteps fuel (rules.flatMap Rule.steps) := by
  induction rules generalizing t with
  | nil => rfl
  | cons r rules ih =>
    rw [Table.addRules, Table.addRuleWithAttributes, List.flatMap_cons, Rule.steps]
    simp only [ih]
    by_cases hnew : hasAttribute r.attributes newChunk
    · rw [if_pos hnew, if_pos hnew, List.cons_append, List.singleton_append, Table.addSteps,
        List.foldlM_cons]
      cases t.addRule fuel r.additional with
      | none => rfl
      | some t =>
        rw [Option.bind_eq_bind, Option.bind_some, List.foldlM_cons]
        cases hadd : t.addRule fuel r with
        | none => simp only [hadd]; rfl
        | some t' => simp only [hadd]; rfl
    · rw [if_neg hnew, if_neg hnew, List.singleton_append, Table.addSteps, List.foldlM_cons]
      cases t.addRule fuel r with
      | none => rfl
      | some t => rfl

theorem addSteps_mono {steps : List Rule} (hle : fuel ≤ fuel')
    (h : t.addSteps fuel steps = some t') : t.addSteps fuel' steps = some t' := by
  induction steps generalizing t with
  | nil => exact h
  | cons r steps ih =>
    obtain ⟨t₁, hadd, hrest⟩ := addSteps_cons.mp h
    exact addSteps_cons.mpr ⟨t₁, addRule_mono hle hadd, ih hrest⟩

/-- Rules of which each fits the table that the rules before it have led to. -/
def RulesFit : Table → List Rule → Prop
  | _, [] => True
  | t, r :: steps =>
    (r.tooLong = false → RuleFits (t.registered r) (t.entryOf r)) ∧
      ∀ fuel t', t.addRule fuel r = some t' → RulesFit t' steps

theorem Table.Sound.registered (hsound : t.Sound) (r : Rule) : (t.registered r).Sound where
  stored := hsound.stored
  input := hsound.input
  valid := hsound.valid
  whole := hsound.whole
  acc := hsound.acc

theorem Table.Sound.addRule (hsound : t.Sound)
    (hfits : r.tooLong = false → RuleFits (t.registered r) (t.entryOf r))
    (h : t.addRule fuel r = some t') : t'.Sound := by
  cases hlong : r.tooLong with
  | true =>
    rw [Table.addRule, if_pos hlong] at h
    cases h
    exact hsound
  | false =>
    obtain ⟨b, hcheck, rfl⟩ := (addRule_eq_some hlong).mp h
    cases b with
    | true => exact hsound.registered r
    | false => exact (hsound.registered r).setEntry (hfits hlong) hcheck

theorem exists_addRule (hsound : t.Sound) (r : Rule) : ∃ fuel t', t.addRule fuel r = some t' := by
  cases hlong : r.tooLong with
  | true => exact ⟨0, t, by rw [Table.addRule, if_pos hlong]⟩
  | false =>
    by_cases hempty : (t.entryOf r).input.isEmpty || (t.entryOf r).pending.isEmpty
    · exact ⟨0, _, (addRule_eq_some hlong).mpr
        ⟨false, by rw [Table.isLoopingEntry, if_pos hempty], rfl⟩⟩
    · obtain ⟨fuel, b, hrun⟩ := exists_isLoopingLoop (hsound.registered r) (t.entryOf r).input
        (t.entryOf r).pending
      exact ⟨fuel, _, (addRule_eq_some hlong).mpr
        ⟨b, by rw [Table.isLoopingEntry, if_neg hempty, hrun], rfl⟩⟩

/-- **A RUN OF RULES ENDS**, in a sound table. -/
theorem exists_addSteps (hsound : t.Sound) {steps : List Rule} (hfits : RulesFit t steps) :
    ∃ fuel t', t.addSteps fuel steps = some t' ∧ t'.Sound := by
  induction steps generalizing t with
  | nil => exact ⟨0, t, rfl, hsound⟩
  | cons r steps ih =>
    obtain ⟨hfit, hrest⟩ := hfits
    obtain ⟨fuel₁, t₁, hadd⟩ := exists_addRule hsound r
    obtain ⟨fuel₂, t₂, hrun, hsound₂⟩ := ih (hsound.addRule hfit hadd) (hrest fuel₁ t₁ hadd)
    refine ⟨max fuel₁ fuel₂, t₂, addSteps_cons.mpr ⟨t₁, ?_, ?_⟩, hsound₂⟩
    · exact addRule_mono (le_max_left _ _) hadd
    · exact addSteps_mono (le_max_right _ _) hrun

theorem sound_new : Table.new.Sound where
  stored key e h := absurd (h.symm.trans (lookUp_empty key)) (Option.some_ne_none e)
  input _ he := absurd he List.not_mem_nil
  valid _ he := absurd he List.not_mem_nil
  whole _ he := absurd he List.not_mem_nil
  acc _ he := absurd he List.not_mem_nil

/-- A rule in front of a run, by the outcome of its check. -/
theorem RulesFit.cons {r : Rule} {steps : List Rule} {fuel : Nat} {b : Bool}
    (hlong : r.tooLong = false)
    (hcheck : (t.registered r).isLoopingEntry fuel (t.entryOf r).input (t.entryOf r).pending
      = some b)
    (hfits : RuleFits (t.registered r) (t.entryOf r)) (hrest : RulesFit (t.checked r b) steps) :
    RulesFit t (r :: steps) := by
  refine ⟨fun _ => hfits, fun fuel' t' hadd => ?_⟩
  obtain ⟨b', hcheck', rfl⟩ := (addRule_eq_some hlong).mp hadd
  have hsame := (isLoopingEntry_mono (le_max_left fuel fuel') hcheck).symm.trans
    (isLoopingEntry_mono (le_max_right fuel fuel') hcheck')
  rwa [← Option.some.inj hsame]

instance (t : Table) (pending : Bytes) : Decidable (t.WholeOrNone pending) :=
  inferInstanceAs (Decidable (_ ∨ _))

/-! ## The main result -/

/-- `key` matches a rule with a pending string, which is fed back as `key'`: alone, or with
    what the match has left of `key`. -/
def FedBack (t : Table) (key key' : Bytes) : Prop :=
  ∃ e, (t.lookUpPrefix key).data = some e ∧ e.pending ≠ [] ∧
    (key' = e.pending ++ key.drop (t.lookUpPrefix key).keyLength ∨ key' = e.pending)

/-- No endless chain of pending strings. -/
def Table.NoEndlessChain (t : Table) : Prop :=
  ¬ ∃ chain : Nat → Bytes, ∀ n, FedBack t (chain n) (chain (n + 1))

theorem Table.Sound.noEndlessChain (hsound : t.Sound) : t.NoEndlessChain := by
  rintro ⟨chain, hchain⟩
  refine not_endless_of_acc (acc_feeds hsound.system (chain 0)) ⟨chain, rfl, fun n => ?_⟩
  obtain ⟨e, he, -, hkey⟩ := hchain n
  exact ⟨e.pending, _, by rw [Table.find, he, Option.map_some], hkey⟩

/-- **RULES THAT FIT** are added in a number of steps, whatever their order, and leave a table
    in which no pending string is fed back for ever; so are the lines of a text. -/
theorem rules_end (rules : List Rule) (hfits : RulesFit Table.new (rules.flatMap Rule.steps)) :
    (∃ fuel t, Table.new.addRules fuel rules = some t ∧ t.NoEndlessChain) ∧
      ∀ text, textRules text = rules →
        ∃ fuel t, Table.new.loadFromString fuel text = some t ∧ t.NoEndlessChain := by
  obtain ⟨fuel, t, hrun, hsound⟩ := exists_addSteps sound_new hfits
  rw [← addRules_eq_addSteps] at hrun
  refine ⟨⟨fuel, t, hrun, hsound.noEndlessChain⟩, ?_⟩
  rintro text rfl
  exact ⟨fuel, t, hrun, hsound.noEndlessChain⟩

theorem rulesFit_kk : RulesFit Table.new
    ([⟨ascii "ka", ascii "KA", [], 0⟩, ⟨ascii "kk", ascii "Q", ascii "k", 0⟩].flatMap
      Rule.steps) := by
  refine @RulesFit.cons _ _ _ 1 false (by decide) (by decide +kernel)
    ⟨by decide +kernel, ⟨[0x6B, 0x61], by decide, by decide +kernel⟩, ⟨[], by decide, rfl⟩,
      by decide +kernel, .inr (by decide +kernel), .inr (.inl rfl)⟩ ?_
  exact @RulesFit.cons _ _ _ 2 false (by decide) (by decide +kernel)
    ⟨by decide +kernel, ⟨[0x6B, 0x6B], by decide, by decide +kernel⟩,
      ⟨[0x6B], by decide, by decide +kernel⟩, by decide +kernel, .inr (by decide +kernel),
      .inr (.inl (by decide +kernel))⟩ trivial

/-- A rule that leaves its last letter pending ends. -/
theorem rules_end_kk :
    (∃ fuel t, Table.new.addRules fuel
      [⟨ascii "ka", ascii "KA", [], 0⟩, ⟨ascii "kk", ascii "Q", ascii "k", 0⟩] = some t ∧
        t.NoEndlessChain) ∧
      ∀ text, textRules text
          = [⟨ascii "ka", ascii "KA", [], 0⟩, ⟨ascii "kk", ascii "Q", ascii "k", 0⟩] →
        ∃ fuel t, Table.new.loadFromString fuel text = some t ∧ t.NoEndlessChain :=
  rules_end _ rulesFit_kk

/-- A table that goes by lower case accepts a rule that turns a letter into its capital, and
    the capital matches the rule again. -/
theorem rules_may_loop : ¬ ∀ rules : List Rule,
    ∃ fuel t, Table.new.addRules fuel rules = some t ∧ t.NoEndlessChain := by
  intro h
  obtain ⟨fuel, t, hrun, hno⟩ := h [⟨ascii "a", [], ascii "A", 0⟩]
  rw [addRules_eq_addSteps] at hrun
  have hmatch : (Table.new.addSteps (max fuel 2)
      ([⟨ascii "a", [], ascii "A", 0⟩].flatMap Rule.steps)).map
        (fun t => t.lookUpPrefix (ascii "A"))
      = some ⟨some ⟨ascii "a", [], ascii "A", 0⟩, 1, true⟩ := by
    have htwo : (Table.new.addSteps 2
        ([⟨ascii "a", [], ascii "A", 0⟩].flatMap Rule.steps)).map
          (fun t => t.lookUpPrefix (ascii "A"))
        = some ⟨some ⟨ascii "a", [], ascii "A", 0⟩, 1, true⟩ := by decide +kernel
    obtain ⟨t', hrun', hlook⟩ := Option.map_eq_some_iff.mp htwo
    rw [addSteps_mono (le_max_right fuel 2) hrun', Option.map_some, hlook]
  rw [addSteps_mono (le_max_left fuel 2) hrun, Option.map_some] at hmatch
  have hlook := Option.some.inj hmatch
  refine hno ⟨fun _ => ascii "A", fun _ => ⟨⟨ascii "a", [], ascii "A", 0⟩, ?_, ?_, .inr rfl⟩⟩
  · rw [hlook]
  · exact List.cons_ne_nil _ _

end MozkeyComposer
