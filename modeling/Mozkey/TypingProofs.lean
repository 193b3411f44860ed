import Mozkey.CompositionProofs
import Mozkey.RomajiLoopProofs

/-! # Composition — typing ends

    In a sound table the look-ups of `AddInput` rewrite the front of what is pending, and each
    new chunk takes something of the input for good.  What can go wrong is a pending string that
    a rule matches only in part: `AddInput` then takes a substring from beyond its input.  A
    chunk that was split, or made of a conversion, may have such a pending string. -/

namespace MozkeyComposer

open ByteString MozkeyUtil CharTrie PrefixRewriting

variable {t : Table} {j : JapaneseUtil} {t12r : Transliterator} {chunk chunk' : CharChunk}
  {input rest : Bytes} {loop : Bool}

/-! ## Adding input -/

/-- What is pending is matched to its end, or beyond, or not at all, in front of `rest`. -/
def Table.Reaches (t : Table) (pending rest : Bytes) : Prop :=
  ∀ e, (t.lookUpPrefix (pending ++ rest)).data = some e →
    pending.length ≤ (t.lookUpPrefix (pending ++ rest)).keyLength

/-- So it is in front of the input, and in front of what is left when the special keys before
    it are trimmed since nothing is found. -/
def CharChunk.Ready (t : Table) (chunk : CharChunk) (input : Bytes) : Prop :=
  ∀ n, (∀ m < n, (t.lookUpPrefix (chunk.pending ++ trimLeadingSpecialKey^[m] input)).data = none) →
    t.Reaches chunk.pending (trimLeadingSpecialKey^[n] input)

theorem exists_addInputInternal (hreach : t.Reaches chunk.pending input) :
    ∃ step, chunk.addInputInternal t input = some step := by
  rw [CharChunk.addInputInternal]
  cases hfound : (t.lookUpPrefix (chunk.pending ++ input)).data with
  | none => exact ⟨_, rfl⟩
  | some e =>
    dsimp only
    rw [CharChunk.addInputEntry, if_neg (Nat.not_lt.mpr (hreach e hfound))]
    dsimp only
    split
    · exact ⟨_, rfl⟩
    · split
      · exact ⟨_, rfl⟩
      · exact ⟨_, rfl⟩

@[simp] theorem applyEntry_pending (chunk : CharChunk) (entry : Entry) (key : Bytes) :
    (chunk.applyEntry entry key true).pending = entry.pending := rfl

/-- **A LOOP IS A STEP** of the rewriting, to a pending string that is matched to its end. -/
theorem CharChunk.Added.step (hsound : t.Sound) (hready : chunk.Ready t input)
    (h : chunk.Added t input chunk' true rest) :
    Step t.find (chunk'.pending, rest) (chunk.pending, input) ∧ chunk'.Ready t rest := by
  cases h with
  | trimmed hnone hlen =>
    refine ⟨.skip hlen, fun n hnone' => ?_⟩
    rw [← Function.iterate_succ_apply]
    refine hready (n + 1) fun m hm => ?_
    cases m with
    | zero => exact hnone
    | succ m =>
      rw [Function.iterate_succ_apply]
      exact hnone' m (by omega)
  | @matched entry n resolved loop hfound hlen hn hresolved hloop =>
    have hpending : ((chunk.moved entry input n).applyEntry entry (chunk.pending ++ input)
        resolved).pending = entry.pending := by
      rw [hloop rfl, applyEntry_pending]
    rw [CharChunk.Ready, hpending]
    refine ⟨.rewrite (n := chunk.pending.length + n) ?_ (Nat.le_add_right _ _) ?_, ?_⟩
    · rw [Table.find, hfound, Option.map_some, hlen]
    · rw [List.drop_append, Nat.add_sub_cancel_left]
      exact List.suffix_append _ _
    · intro k _ e he
      have hfind := congrArg (Option.map fun e => (e.pending, (t.lookUpPrefix
        (entry.pending ++ trimLeadingSpecialKey^[k] (input.drop n))).keyLength)) he
      exact (hsound.system.held ⟨entry, (hsound.found hfound).1, rfl⟩ hfind).1

/-- **ADDING INPUT ENDS.** -/
theorem exists_addInput (hsound : t.Sound) (hready : chunk.Ready t input) :
    ∃ fuel added, chunk.addInput t fuel input = some added := by
  have hacc := acc_step hsound.system chunk.pending input
  generalize hpair : (chunk.pending, input) = pair at hacc
  induction hacc generalizing chunk input with
  | intro pair _ ih =>
    subst hpair
    obtain ⟨⟨chunk', loop, rest⟩, hstep⟩ :=
      @exists_addInputInternal t chunk input (hready 0 fun m hm => absurd hm (Nat.not_lt_zero m))
    cases loop with
    | false => exact ⟨1, (chunk', rest), by rw [CharChunk.addInput, hstep]⟩
    | true =>
      obtain ⟨hrewrite, hready'⟩ :=
        (added_of_addInputInternal hstep).step hsound hready
      obtain ⟨fuel, added, hrun⟩ := ih _ hrewrite hready' rfl
      exact ⟨fuel + 1, added, by rw [CharChunk.addInput, hstep]; exact hrun⟩

variable {fuel fuel' : Nat}

theorem addInput_mono (hle : fuel ≤ fuel') {added : CharChunk × Bytes}
    (h : chunk.addInput t fuel input = some added) :
    chunk.addInput t fuel' input = some added := by
  induction fuel generalizing fuel' chunk input with
  | zero => exact absurd h (Option.some_ne_none _).symm
  | succ fuel ih =>
    obtain ⟨fuel', rfl⟩ : ∃ n, fuel' = n + 1 := ⟨fuel' - 1, by omega⟩
    rw [CharChunk.addInput] at h ⊢
    cases hstep : chunk.addInputInternal t input with
    | none => rw [hstep] at h; exact absurd h (Option.some_ne_none _).symm
    | some step =>
      obtain ⟨chunk', loop, rest⟩ := step
      rw [hstep] at h
      cases loop with
      | false => exact h
      | true => exact ih (by omega) h

/-! ## What a new chunk takes -/

theorem frontChar_ne_nil {s : Bytes} (hs : s ≠ []) : (frontChar s).1 ≠ [] := by
  cases s with
  | nil => exact absurd rfl hs
  | cons c s =>
    have hpos : oneCharLen c ≠ 0 := by
      rw [oneCharLen]
      split_ifs <;> decide
    obtain ⟨n, hn⟩ := Nat.exists_eq_succ_of_ne_zero hpos
    rw [frontChar, hn]
    exact List.cons_ne_nil _ _

theorem take_ne_nil {n : Nat} (hpos : 0 < n) (hn : n ≤ input.length) : input.take n ≠ [] := by
  intro hnil
  have hlen := congrArg List.length hnil
  rw [List.length_take, List.length_nil] at hlen
  omega

/-- The bytes of the chunk and of the input do not get more; where the loop ends, the chunk has
    some, or nothing is left. -/
theorem CharChunk.Added.takes (hsound : t.Sound) (hraw : chunk.raw = [] → chunk.pending = [])
    (h : chunk.Added t input chunk' loop rest) :
    chunk'.raw.length + rest.length ≤ chunk.raw.length + input.length ∧
      (loop = true → chunk'.raw = [] → chunk'.pending = []) ∧
      (loop = false → chunk'.raw ≠ [] ∨ rest = []) := by
  have hkept (heq : chunk'.raw ++ rest = chunk.raw ++ input) :
      chunk'.raw.length + rest.length ≤ chunk.raw.length + input.length := by
    rw [← List.length_append, heq, List.length_append]
  have hequal := h.raw_append
  cases h with
  | restored hfallback =>
    refine ⟨hkept ?_, Bool.noConfusion, fun _ => .inl ?_⟩
    · show chunk.displayAmbiguousResultRaw ++ (_ ++ input) = _
      rw [← List.append_assoc, saved_append_replayed hfallback]
    · rw [CharChunk.hasDisplayAmbiguousResultFallback, Bool.and_eq_true, Bool.and_eq_true]
        at hfallback
      intro hnil
      rw [show chunk.displayAmbiguousResultRaw = [] from hnil] at hfallback
      exact absurd hfallback.1.1 (by decide)
  | trimmed hnone hlen => exact ⟨by omega, fun _ => hraw, Bool.noConfusion⟩
  | front hpending =>
    refine ⟨hkept ?_, Bool.noConfusion, fun _ => ?_⟩
    · dsimp only
      rw [List.append_assoc, frontChar_append]
    · by_cases hinput : input = []
      · rw [hinput]
        exact .inr rfl
      · exact .inl (List.append_ne_nil_of_right_ne_nil _ (frontChar_ne_nil hinput))
  | kept hpending =>
    exact ⟨le_rfl, Bool.noConfusion, fun _ => .inl fun hnil => hpending (hraw hnil)⟩
  | pending hpos hn =>
    refine ⟨hkept ?_, Bool.noConfusion, fun _ => .inl ?_⟩
    · dsimp only
      rw [List.append_assoc, List.take_append_drop]
    · exact List.append_ne_nil_of_right_ne_nil _ (take_ne_nil hpos hn)
  | @matched entry n resolved loop hfound hlen hn hresolved hloop =>
    have hne : ((chunk.moved entry input n).applyEntry entry (chunk.pending ++ input)
        resolved).raw ≠ [] := by
      rw [applyEntry_raw, CharChunk.moved]
      by_cases hpending : chunk.pending = []
      · refine List.append_ne_nil_of_right_ne_nil _ (take_ne_nil ?_ hn)
        have hpos := (hsound.found hfound).2.1
        rw [hlen, hpending] at hpos
        exact Nat.lt_of_lt_of_le hpos (by simp)
      · exact List.append_ne_nil_of_left_ne_nil (fun hnil => hpending (hraw hnil)) _
    refine ⟨hkept ?_, fun _ hnil => absurd hnil hne, fun _ => .inl hne⟩
    rw [applyEntry_raw, CharChunk.moved]
    dsimp only
    rw [List.append_assoc, List.take_append_drop]
  | cleared resolved hfound hattribute hrest =>
    refine ⟨?_, Bool.noConfusion, fun _ => .inr hrest⟩
    rw [hrest]
    exact Nat.zero_le _

/-- **A CHUNK TAKES A PART OF THE INPUT FOR GOOD**, or all of it. -/
theorem addInput_takes (hsound : t.Sound) (hraw : chunk.raw = [] → chunk.pending = [])
    (h : chunk.addInput t fuel input = some (chunk', rest)) :
    chunk'.raw.length + rest.length ≤ chunk.raw.length + input.length ∧
      (chunk'.raw ≠ [] ∨ rest = []) := by
  induction fuel generalizing chunk input with
  | zero => exact absurd h (Option.some_ne_none _).symm
  | succ fuel ih =>
    rw [CharChunk.addInput] at h
    cases hstep : chunk.addInputInternal t input with
    | none => rw [hstep] at h; exact absurd h (Option.some_ne_none _).symm
    | some step =>
      obtain ⟨chunk₁, loop, rest₁⟩ := step
      obtain ⟨hsize, hraw₁, hend⟩ := (added_of_addInputInternal hstep).takes hsound hraw
      rw [hstep] at h
      cases loop with
      | false =>
        cases h
        exact ⟨hsize, hend rfl⟩
      | true =>
        obtain ⟨hsize', hend'⟩ := ih (hraw₁ rfl) h
        exact ⟨hsize'.trans hsize, hend'⟩

/-! ## New chunks -/

variable {before : List CharChunk} {leftChunk leftChunk' : CharChunk}

theorem addCompositionInput_raw {input : CompositionInput} (hconversion : input.conversion = [])
    (hnew : chunk.shouldInsertNewChunk t input = false) :
    chunk.addCompositionInput t fuel input
      = (chunk.addInput t fuel input.raw).map fun added =>
        (added.1, { input with raw := added.2 }) := by
  rw [CharChunk.addCompositionInput, hconversion, if_neg (by decide), hnew,
    if_neg Bool.false_ne_true]

theorem addCompositionInput_mono (hle : fuel ≤ fuel') {input : CompositionInput}
    {added : CharChunk × CompositionInput} (h : chunk.addCompositionInput t fuel input = some added)
    :
    chunk.addCompositionInput t fuel' input = some added := by
  rw [CharChunk.addCompositionInput] at h ⊢
  split at h
  · rename_i hconversion
    rw [if_pos hconversion]
    exact h
  split at h
  · rename_i hconversion hnew
    rw [if_neg hconversion, if_pos hnew]
    exact h
  · rename_i hconversion hnew
    obtain ⟨added, hrun, rfl⟩ := Option.map_eq_some_iff.mp h
    rw [if_neg hconversion, if_neg hnew, addInput_mono hle hrun]
    rfl

theorem insertLoop_mono (hle : fuel ≤ fuel') {input : CompositionInput}
    {last : CharChunk × List CharChunk}
    (h : insertLoop t t12r fuel leftChunk before input = some last) :
    insertLoop t t12r fuel' leftChunk before input = some last := by
  induction fuel generalizing fuel' leftChunk before input with
  | zero => exact absurd h (Option.some_ne_none _).symm
  | succ fuel ih =>
    obtain ⟨fuel', rfl⟩ : ∃ n, fuel' = n + 1 := ⟨fuel' - 1, by omega⟩
    rw [insertLoop] at h ⊢
    cases hadd : leftChunk.addCompositionInput t fuel input with
    | none => rw [hadd] at h; exact absurd h (Option.some_ne_none _).symm
    | some added =>
      obtain ⟨leftChunk', input'⟩ := added
      rw [hadd] at h
      rw [addCompositionInput_mono (by omega) hadd]
      dsimp only at h ⊢
      split at h
      · rename_i hempty
        rw [if_pos hempty]
        exact h
      · rename_i hempty
        rw [if_neg hempty]
        exact ih (by omega) h

theorem exists_insertLoop_of_add {fuel : Nat} {input input' : CompositionInput}
    (hadd : leftChunk.addCompositionInput t fuel input = some (leftChunk', input'))
    (hnext : input'.empty = false → ∃ fuel last, insertLoop t t12r fuel (.new t12r)
      (leftChunk' :: before) { input' with isNewInput := false } = some last) :
    ∃ fuel last, insertLoop t t12r fuel leftChunk before input = some last := by
  cases hempty : input'.empty with
  | true =>
    refine ⟨fuel + 1, (leftChunk', before), ?_⟩
    rw [insertLoop, hadd]
    dsimp only
    rw [if_pos hempty]
  | false =>
    obtain ⟨fuel', last, hrun⟩ := hnext hempty
    refine ⟨max fuel fuel' + 1, last, ?_⟩
    rw [insertLoop, addCompositionInput_mono (le_max_left _ _) hadd]
    dsimp only
    rw [if_neg (by rw [hempty]; exact Bool.false_ne_true)]
    exact insertLoop_mono (le_max_right _ _) hrun

theorem addInputAndConvertedChar_new_empty (input : CompositionInput) :
    ((CharChunk.new t12r).addInputAndConvertedChar t input).2.empty = true := by
  rw [CharChunk.addInputAndConvertedChar, if_pos (show (CharChunk.new t12r).isEmpty from rfl),
    if_pos (show (CharChunk.new t12r).isEmpty from rfl)]
  split
  · rfl
  · rfl

/-- **OPENING NEW CHUNKS ENDS**: a conversion is copied, and of a raw string each new chunk takes
    a part for good. -/
theorem exists_insertLoop_new (hsound : t.Sound) (input : CompositionInput) :
    ∃ fuel last, insertLoop t t12r fuel (.new t12r) before input = some last := by
  by_cases hconversion : input.conversion.isEmpty
  · induction hlen : input.raw.length using Nat.strong_induction_on generalizing before input with
    | h n ih =>
      obtain ⟨fuel, ⟨chunk', rest⟩, hrun⟩ :=
        @exists_addInput t (.new t12r) input.raw hsound fun n _ e _ => Nat.zero_le _
      obtain ⟨hsize, htakes⟩ := addInput_takes hsound (fun _ => rfl) hrun
      refine @exists_insertLoop_of_add _ _ _ _ chunk' fuel input { input with raw := rest } ?_
        fun hmore => ?_
      · rw [addCompositionInput_raw (List.isEmpty_iff.mp hconversion) rfl, hrun]
        rfl
      · refine ih rest.length ?_ _ hconversion rfl
        have hrest : rest ≠ [] := by
          rintro rfl
          rw [CompositionInput.empty, hconversion] at hmore
          exact Bool.noConfusion hmore
        have hpos := List.length_pos_of_ne_nil (htakes.resolve_right hrest)
        rw [show (CharChunk.new t12r).raw = [] from rfl, List.length_nil] at hsize
        omega
  · refine @exists_insertLoop_of_add _ _ _ _ _ 0 input _
      (by rw [CharChunk.addCompositionInput, if_pos (by simpa using hconversion)]) fun hmore => ?_
    rw [addInputAndConvertedChar_new_empty] at hmore
    exact Bool.noConfusion hmore

theorem exists_insertLoop (hsound : t.Sound) {input : CompositionInput}
    (hadd : ∃ fuel added, leftChunk.addCompositionInput t fuel input = some added) :
    ∃ fuel last, insertLoop t t12r fuel leftChunk before input = some last := by
  obtain ⟨fuel, ⟨leftChunk', input'⟩, hadd⟩ := hadd
  exact exists_insertLoop_of_add hadd fun _ => exists_insertLoop_new hsound _

theorem exists_addCompositionInput (hsound : t.Sound) {input : CompositionInput}
    (hready : input.conversion = [] → leftChunk.shouldInsertNewChunk t input = false →
      leftChunk.Ready t input.raw) :
    ∃ fuel added, leftChunk.addCompositionInput t fuel input = some added := by
  cases hconversion : input.conversion with
  | cons b conversion =>
    refine ⟨0, leftChunk.addInputAndConvertedChar t input, ?_⟩
    rw [CharChunk.addCompositionInput, hconversion, if_pos (by simp)]
  | nil =>
    cases hnew : leftChunk.shouldInsertNewChunk t input with
    | true =>
      refine ⟨0, (leftChunk, input), ?_⟩
      rw [CharChunk.addCompositionInput, hconversion, if_neg (by decide), if_pos hnew]
    | false =>
      obtain ⟨fuel, added, hrun⟩ := exists_addInput hsound (hready hconversion hnew)
      refine ⟨fuel, (added.1, { input with raw := added.2 }), ?_⟩
      rw [addCompositionInput_raw hconversion hnew, hrun, Option.map_some]

/-! ## Runs -/

/-- `Composition::SetInputMode`. -/
def Composition.setInputMode (c : Composition) (t12r : Transliterator) : Composition :=
  { c with inputT12r := t12r }

/-- An insertion, with the input mode that was set before it. -/
structure Insertion where
  inputMode : Transliterator
  pos : Nat
  input : CompositionInput

/-- `Composition::InsertInput`, after `SetInputMode`. -/
def Composition.insertStep (j : JapaneseUtil) (t : Table) (fuel : Nat) (c : Composition)
    (s : Insertion) : Option Composition :=
  ((c.setInputMode s.inputMode).insertInput j t fuel s.pos s.input).map Prod.fst

/-- Insertions, one after the other. -/
def Composition.insertRun (j : JapaneseUtil) (t : Table) (fuel : Nat) (c : Composition)
    (steps : List Insertion) : Option Composition :=
  steps.foldlM (fun c s => c.insertStep j t fuel s) c

/-- The chunk that an insertion goes on with, if the chunk at its position can be split there. -/
def Composition.leftChunkAt (j : JapaneseUtil) (t : Table) (c : Composition) (pos : Nat)
    (input : CompositionInput) : Option (CharChunk × List CharChunk) :=
  (c.maybeSplitChunkAt j pos).map fun place =>
    let left := getInsertionChunk c.inputT12r
      (skipEmpty j c.inputT12r place.before place.after).before
    combinePendingChunks t c.inputT12r input left.1 left.2

/-- There is a chunk to go on with, and where its loop looks up the input, it is ready. -/
def Composition.Ready (j : JapaneseUtil) (t : Table) (c : Composition) (pos : Nat)
    (input : CompositionInput) : Prop :=
  input.empty = false → ∃ left, c.leftChunkAt j t pos input = some left ∧
    (input.conversion = [] → left.1.shouldInsertNewChunk t input = false →
      left.1.Ready t input.raw)

/-- Insertions of which each is ready in the composition that those before it have led to. -/
def Composition.RunReady (j : JapaneseUtil) (t : Table) : Composition → List Insertion → Prop
  | _, [] => True
  | c, s :: steps =>
    (c.setInputMode s.inputMode).Ready j t s.pos s.input ∧
      ∀ fuel c', c.insertStep j t fuel s = some c' → c'.RunReady j t steps

variable {c c' : Composition}

variable {pos : Nat}

theorem insertInput_mono (hle : fuel ≤ fuel') {input : CompositionInput} {r : Composition × Nat}
    (h : c.insertInput j t fuel pos input = some r) :
    c.insertInput j t fuel' pos input = some r := by
  rw [Composition.insertInput] at h ⊢
  split at h
  · rename_i hempty
    rw [if_pos hempty]
    exact h
  · rename_i hempty
    rw [if_neg hempty]
    cases hsplit : c.maybeSplitChunkAt j pos with
    | none => rw [hsplit] at h; exact absurd h (Option.some_ne_none _).symm
    | some place =>
      rw [hsplit] at h
      dsimp only at h ⊢
      cases hloop : insertLoop t c.inputT12r fuel _ _ input with
      | none => rw [hloop] at h; exact absurd h (Option.some_ne_none _).symm
      | some last =>
        rw [hloop] at h
        rw [insertLoop_mono hle hloop]
        exact h

/-- **ONE INSERTION ENDS**, where it is ready. -/
theorem exists_insertInput (hsound : t.Sound) {input : CompositionInput}
    (hready : c.Ready j t pos input) :
    ∃ fuel r, c.insertInput j t fuel pos input = some r := by
  cases hempty : input.empty with
  | true => exact ⟨0, (c, pos), by rw [Composition.insertInput, if_pos hempty]⟩
  | false =>
    obtain ⟨left, hleft, hready⟩ := hready hempty
    obtain ⟨place, hsplit, heq⟩ := Option.map_eq_some_iff.mp hleft
    dsimp only at heq
    simp only [Composition.insertInput, hempty, Bool.false_eq_true, if_false, hsplit, heq]
    obtain ⟨fuel, last, hrun⟩ := @exists_insertLoop t c.inputT12r left.2 left.1 hsound _
      (exists_addCompositionInput hsound hready)
    exact ⟨fuel, _, by rw [hrun]⟩

theorem insertRun_cons {s : Insertion} {steps : List Insertion} :
    c.insertRun j t fuel (s :: steps) = some c' ↔
      ∃ c₁, c.insertStep j t fuel s = some c₁ ∧ c₁.insertRun j t fuel steps = some c' := by
  rw [Composition.insertRun, List.foldlM_cons]
  exact Option.bind_eq_some_iff

theorem insertStep_mono (hle : fuel ≤ fuel') {s : Insertion}
    (h : c.insertStep j t fuel s = some c') : c.insertStep j t fuel' s = some c' := by
  obtain ⟨r, hrun, rfl⟩ := Option.map_eq_some_iff.mp h
  exact Option.map_eq_some_iff.mpr ⟨r, insertInput_mono hle hrun, rfl⟩

theorem insertRun_mono {steps : List Insertion} (hle : fuel ≤ fuel')
    (h : c.insertRun j t fuel steps = some c') : c.insertRun j t fuel' steps = some c' := by
  induction steps generalizing c with
  | nil => exact h
  | cons s steps ih =>
    obtain ⟨c₁, hstep, hrest⟩ := insertRun_cons.mp h
    exact insertRun_cons.mpr ⟨c₁, insertStep_mono hle hstep, ih hrest⟩

theorem Composition.RunReady.cons {fuel : Nat} {s : Insertion} {steps : List Insertion}
    (hready : (c.setInputMode s.inputMode).Ready j t s.pos s.input)
    (hstep : c.insertStep j t fuel s = some c') (hrest : c'.RunReady j t steps) :
    c.RunReady j t (s :: steps) := by
  refine ⟨hready, fun fuel' c'' hstep' => ?_⟩
  have hsame := (insertStep_mono (le_max_left fuel fuel') hstep).symm.trans
    (insertStep_mono (le_max_right fuel fuel') hstep')
  rwa [← Option.some.inj hsame]

/-! ## The main result -/

theorem sound_of_loadFromString {text : Bytes}
    (hfits : RulesFit Table.new ((textRules text).flatMap Rule.steps))
    (hload : Table.new.loadFromString fuel text = some t) : t.Sound := by
  obtain ⟨fuel', t', hrun, hsound⟩ := exists_addSteps sound_new hfits
  rw [Table.loadFromString, addRules_eq_addSteps] at hload
  have hsame := (addSteps_mono (le_max_left fuel fuel') hload).symm.trans
    (addSteps_mono (le_max_right fuel fuel') hrun)
  rwa [Option.some.inj hsame]

/-- **TYPING ENDS** in a table of rules that fit: every run of insertions returns of which each
    is ready, at whatever positions and in whatever input modes. -/
theorem typing_ends (text : Bytes) (fuel : Nat) (t : Table)
    (hload : Table.new.loadFromString fuel text = some t)
    (hfits : RulesFit Table.new ((textRules text).flatMap Rule.steps)) (j : JapaneseUtil)
    (t12r : Transliterator) (steps : List Insertion)
    (hready : Composition.RunReady j t ⟨[], t12r⟩ steps) :
    ∃ fuel c, Composition.insertRun j t fuel ⟨[], t12r⟩ steps = some c := by
  have hsound := sound_of_loadFromString hfits hload
  generalize (⟨[], t12r⟩ : Composition) = c at hready ⊢
  induction steps generalizing c with
  | nil => exact ⟨0, c, rfl⟩
  | cons s steps ih =>
    obtain ⟨hfirst, hrest⟩ := hready
    obtain ⟨fuel₁, ⟨c₁, pos⟩, hrun₁⟩ := exists_insertInput hsound hfirst
    have hstep : c.insertStep j t fuel₁ s = some c₁ :=
      Option.map_eq_some_iff.mpr ⟨(c₁, pos), hrun₁, rfl⟩
    obtain ⟨fuel₂, c₂, hrun₂⟩ := ih c₁ (hrest fuel₁ c₁ hstep)
    exact ⟨max fuel₁ fuel₂, c₂, insertRun_cons.mpr ⟨c₁, insertStep_mono (le_max_left _ _) hstep,
      insertRun_mono (le_max_right _ _) hrun₂⟩⟩

/-- An insertion without special keys is ready where its first look-up reaches the end of what
    is pending. -/
theorem Composition.ready_of_le {input : CompositionInput}
    (htrim : trimLeadingSpecialKey input.raw = input.raw)
    (hle : (c.leftChunkAt j t pos input).any fun left => left.1.pending.length
      ≤ (t.lookUpPrefix (left.1.pending ++ input.raw)).keyLength) :
    c.Ready j t pos input := by
  intro _
  obtain ⟨left, hleft, hlen⟩ := (Option.any_eq_true _ _).mp hle
  refine ⟨left, hleft, fun _ _ n _ e _ => ?_⟩
  rw [Function.iterate_fixed htrim]
  exact of_decide_eq_true hlen

theorem eq_some_getD {α : Type} {x : Option α} (h : x.isSome) (d : α) : x = some (x.getD d) := by
  obtain ⟨a, rfl⟩ := Option.isSome_iff_exists.mp h
  rfl

/-- The table of one rule. -/
def kaTable : Table := (Table.new.loadFromString 3 (ascii "ka\tKA")).getD .new

theorem loadFromString_ka : Table.new.loadFromString 3 (ascii "ka\tKA") = some kaTable :=
  eq_some_getD (by decide +kernel) _

theorem rulesFit_ka : RulesFit Table.new ((textRules (ascii "ka\tKA")).flatMap Rule.steps) := by
  have hrules : textRules (ascii "ka\tKA") = [⟨ascii "ka", ascii "KA", [], 0⟩] := by
    decide +kernel
  rw [hrules]
  exact @RulesFit.cons _ _ _ 1 false (by decide) (by decide +kernel)
    ⟨by decide +kernel, ⟨[0x6B, 0x61], by decide, by decide +kernel⟩, ⟨[], by decide, rfl⟩,
      by decide +kernel, .inr (by decide +kernel), .inr (.inl rfl)⟩ trivial

/-- Typing `k` and `a` ends. -/
theorem typing_ends_ka : ∃ fuel c, Composition.insertRun plainJapanese kaTable fuel
    ⟨[], .conversionString⟩
    [⟨.conversionString, 0, ⟨ascii "k", [], true, false⟩⟩,
      ⟨.conversionString, 1, ⟨ascii "a", [], true, false⟩⟩] = some c := by
  refine typing_ends (ascii "ka\tKA") 3 kaTable loadFromString_ka rulesFit_ka _ _ _ ?_
  refine Composition.RunReady.cons
    (Composition.ready_of_le (by decide +kernel) (by decide +kernel))
    (@eq_some_getD _ (Composition.insertStep _ _ 9 _ _) (by decide +kernel)
      ⟨[], .conversionString⟩) ?_
  exact Composition.RunReady.cons
    (Composition.ready_of_le (by decide +kernel) (by decide +kernel))
    (@eq_some_getD _ (Composition.insertStep _ _ 9 _ _) (by decide +kernel)
      ⟨[], .conversionString⟩) trivial

/-- A new chunk takes nothing of the key in a table whose rule matches the empty string, and
    leaves it to the next one. -/
theorem insertLoop_eq_none {key : Bytes} {chunk : CharChunk} (hkey : key ≠ [])
    (hstep : (CharChunk.new t12r).addInputInternal t key = some (chunk, false, key)) (fuel : Nat)
    (before : List CharChunk) (isNewInput isAsis : Bool) :
    insertLoop t t12r fuel (.new t12r) before ⟨key, [], isNewInput, isAsis⟩ = none := by
  induction fuel generalizing before isNewInput with
  | zero => rfl
  | succ fuel ih =>
    have hadd : (CharChunk.new t12r).addCompositionInput t fuel
        ⟨key, [], isNewInput, isAsis⟩ = none ∨
          (CharChunk.new t12r).addCompositionInput t fuel ⟨key, [], isNewInput, isAsis⟩
            = some (chunk, ⟨key, [], isNewInput, isAsis⟩) := by
      rw [addCompositionInput_raw rfl rfl]
      cases fuel with
      | zero => exact .inl rfl
      | succ fuel =>
        rw [CharChunk.addInput, hstep]
        exact .inr rfl
    rw [insertLoop]
    rcases hadd with hadd | hadd
    · rw [hadd]
    · rw [hadd]
      dsimp only
      rw [if_neg (by simpa [CompositionInput.empty] using hkey)]
      exact ih _ _

theorem insertInput_eq_none {fuel pos : Nat} {input : CompositionInput}
    (hempty : input.empty = false) (hloop : insertLoop t t12r fuel (.new t12r) [] input = none) :
    Composition.insertInput j t fuel ⟨[], t12r⟩ pos input = none := by
  have hcombine : combinePendingChunks t t12r input (.new t12r) [] = (.new t12r, []) := by
    rw [combinePendingChunks]
    split
    · rfl
    · rfl
  rw [Composition.insertInput, if_neg (by rw [hempty]; exact Bool.false_ne_true)]
  simp only [Composition.maybeSplitChunkAt, Composition.getChunkAt, skipEmpty, getInsertionChunk,
    hcombine, hloop]

/-- A rule with an empty input matches in front of any key and takes nothing of it: each new
    chunk leaves the key to the next one. -/
theorem typing_may_not_end : ¬ ∀ (text : Bytes) (fuel : Nat) (t : Table),
    Table.new.loadFromString fuel text = some t → ∀ (j : JapaneseUtil) (t12r : Transliterator)
      (steps : List Insertion),
      ∃ fuel c, Composition.insertRun j t fuel ⟨[], t12r⟩ steps = some c := by
  intro h
  have hload := @eq_some_getD _ (Table.new.loadFromString 3 (ascii "\tA")) (by decide +kernel) .new
  obtain ⟨fuel, c, hrun⟩ := h _ 3 _ hload plainJapanese .conversionString
    [⟨.conversionString, 0, ⟨ascii "x", [], true, false⟩⟩]
  obtain ⟨c₁, hstep, -⟩ := insertRun_cons.mp hrun
  obtain ⟨⟨c₂, pos⟩, hinsert, -⟩ := Option.map_eq_some_iff.mp hstep
  have hone := @eq_some_getD _ ((CharChunk.new .conversionString).addInputInternal
    ((Table.new.loadFromString 3 (ascii "\tA")).getD .new) (ascii "x")) (by decide +kernel)
    (.new .conversionString, false, [])
  have hnone := @insertInput_eq_none _ plainJapanese .conversionString fuel 0
    ⟨ascii "x", [], true, false⟩ (by decide +kernel)
    (insertLoop_eq_none (by decide +kernel) (hone.trans (congrArg some
      (show _ = (_, false, ascii "x") from Prod.ext rfl (by decide +kernel)))) fuel [] true false)
  exact absurd (hinsert.symm.trans hnone) (Option.some_ne_none _)

end MozkeyComposer
