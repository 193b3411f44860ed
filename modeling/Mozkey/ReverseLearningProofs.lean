import Mozkey.ByteStringProofs
import Mozkey.SubstringProofs

/-! # Session — reverse learning from an accepted Zenz value

    The values of the preedit that occur once in the Zenz value are anchors.  A segment between
    two anchors takes the text between them; several segments there must be unchanged. -/

namespace MozkeySession

open ByteString Substring

/-- `commands::Preedit::Segment`. -/
structure PreeditSegment where
  key : Bytes
  value : Bytes
  deriving DecidableEq

/-- `ZenzProjectedLearningSegment`. -/
structure ZenzProjectedLearningSegment where
  key : Bytes
  value : Bytes
  isReranked : Bool
  deriving DecidableEq

/-- `ZenzReverseLearningProjection`; an early return gives the empty one. -/
structure ZenzReverseLearningProjection where
  changedSegments : List (Bytes × Bytes) := []
  projectedSegments : List ZenzProjectedLearningSegment := []
  deriving DecidableEq

/-- `CountSurfaceOccurrences`. -/
def countSurfaceOccurrences (value surface : Bytes) : Nat := (positions surface value).length

/-- A segment that is kept, and where its value stands. -/
structure Anchor where
  index : Nat
  first : Nat
  last : Nat

/-- How many segments may change. -/
def kMaxReverseLearningPairs : Nat := 4

/-- The loop that collects the anchors, from segment `i` on. -/
def anchorLoop (fullValue : Bytes) : Nat → List Bytes → Option (List Anchor)
  | _, [] => some []
  | i, value :: rest =>
    if countSurfaceOccurrences fullValue value ≠ 1 then anchorLoop fullValue (i + 1) rest
    else do
      let first ← find value fullValue
      let anchors ← anchorLoop fullValue (i + 1) rest
      some (⟨i, first, first + value.length⟩ :: anchors)

/-- The loop that checks the order of the anchors. -/
def anchorsOrdered : Nat → List Anchor → Bool
  | _, [] => true
  | previousAnchorEnd, anchor :: rest =>
    if anchor.first < previousAnchorEnd then false else anchorsOrdered anchor.last rest

/-- `assign_gap`: the values of the segments between two anchors. -/
def assignGap (mozcValues : List Bytes) (value : Bytes) : Option (List Bytes) :=
  match mozcValues with
  | [] => if value.isEmpty then some [] else none
  | [_] => if value.isEmpty then none else some [value]
  | _ => if mozcValues.flatten = value then some mozcValues else none

/-- The loop that assigns the gaps, from segment `leftIndex` and from `leftValueEnd` on. -/
def projectLoop (mozcValues : List Bytes) (fullValue : Bytes) :
    Nat → Nat → List Anchor → Option (List Bytes)
  | leftIndex, leftValueEnd, [] =>
    assignGap (mozcValues.drop leftIndex) (fullValue.drop leftValueEnd)
  | leftIndex, leftValueEnd, anchor :: rest => do
      let gap ← assignGap ((mozcValues.drop leftIndex).take (anchor.index - leftIndex))
        ((fullValue.drop leftValueEnd).take (anchor.first - leftValueEnd))
      let later ← projectLoop mozcValues fullValue (anchor.index + 1) anchor.last rest
      some (gap ++ mozcValues.getD anchor.index [] :: later)

/-- `BuildZenzReverseLearningSegmentsFromPreedit`; `none` is a `return {}`. -/
def buildProjection (preedit : List PreeditSegment) (fullKey fullValue : Bytes) :
    Option ZenzReverseLearningProjection := do
  guard ¬ (preedit.isEmpty ∨ fullKey.isEmpty ∨ fullValue.isEmpty)
  guard (preedit.all fun segment => !segment.key.isEmpty && !segment.value.isEmpty)
  let keys := preedit.map PreeditSegment.key
  let mozcValues := preedit.map PreeditSegment.value
  guard (keys.flatten = fullKey)
  let anchors ← anchorLoop fullValue 0 mozcValues
  guard (anchorsOrdered 0 anchors)
  let projectedValues ← projectLoop mozcValues fullValue 0 0 anchors
  guard (projectedValues.all fun value => !value.isEmpty)
  guard (projectedValues.flatten = fullValue)
  let projected := preedit.zip projectedValues
  let changed := projected.filter fun segment =>
    segment.2 ≠ segment.1.value ∧ ¬ (segment.1.key = fullKey ∧ segment.2 = fullValue)
  guard (changed.length ≤ kMaxReverseLearningPairs)
  some
    { changedSegments := changed.map fun segment => (segment.1.key, segment.2)
      projectedSegments :=
        if changed.isEmpty then []
        else projected.map fun segment =>
          ⟨segment.1.key, segment.2, segment.2 ≠ segment.1.value⟩ }

/-- `BuildZenzReverseLearningSegmentsFromPreedit`. -/
def buildZenzReverseLearningSegmentsFromPreedit (preedit : List PreeditSegment)
    (fullKey fullValue : Bytes) : ZenzReverseLearningProjection :=
  (buildProjection preedit fullKey fullValue).getD {}

/-! ## A local correction -/

/-- A segment of the preedit, with the value that it has in the accepted text. -/
structure CorrectedSegment extends PreeditSegment where
  newValue : Bytes

/-- The value has been replaced. -/
def CorrectedSegment.Replaced (c : CorrectedSegment) : Prop := c.newValue ≠ c.value

instance (c : CorrectedSegment) : Decidable c.Replaced := inferInstanceAs (Decidable (_ ≠ _))

/-- The key of the whole preedit. -/
def fullKey (cs : List CorrectedSegment) : Bytes := (cs.map fun c => c.key).flatten

/-- The value of the whole correction. -/
def fullValue (cs : List CorrectedSegment) : Bytes := (cs.map CorrectedSegment.newValue).flatten

@[simp] theorem fullValue_cons (c : CorrectedSegment) (cs : List CorrectedSegment) :
    fullValue (c :: cs) = c.newValue ++ fullValue cs := rfl

@[simp] theorem fullValue_append (cs ds : List CorrectedSegment) :
    fullValue (cs ++ ds) = fullValue cs ++ fullValue ds := by
  simp [fullValue]

/-- Some segments, no two of them adjacent, have been replaced; a value that is kept occurs once,
    and one that is replaced is gone. -/
structure LocalCorrection (cs : List CorrectedSegment) : Prop where
  key_ne : ∀ c ∈ cs, c.key ≠ []
  value_ne : ∀ c ∈ cs, c.value ≠ [] ∧ c.newValue ≠ []
  replaced : ∃ c ∈ cs, c.Replaced
  apart : cs.IsChain fun c d => ¬ (c.Replaced ∧ d.Replaced)
  few : (cs.filter fun c => c.Replaced).length ≤ 4
  several : cs.length ≠ 1
  once : ∀ c ∈ cs, ¬ c.Replaced → OccursOnce c.value (fullValue cs)
  gone : ∀ c ∈ cs, c.Replaced → ¬ c.value <:+: fullValue cs

/-- The anchors of the segments from `i` on, which start at `first`. -/
def anchorsOf : Nat → Nat → List CorrectedSegment → List Anchor
  | _, _, [] => []
  | i, first, c :: rest =>
    if c.Replaced then anchorsOf (i + 1) (first + c.newValue.length) rest
    else
      ⟨i, first, first + c.value.length⟩ :: anchorsOf (i + 1) (first + c.newValue.length) rest

variable {cs : List CorrectedSegment}

/-- The anchors are the segments that are kept, each at its own place. -/
theorem anchorLoop_eq (h : LocalCorrection cs) :
    ∀ (rest done : List CorrectedSegment), cs = done ++ rest →
      anchorLoop (fullValue cs) done.length (rest.map fun c => c.value) =
        some (anchorsOf done.length (fullValue done).length rest) := by
  intro rest
  induction rest with
  | nil => intro done _; rfl
  | cons c rest ih =>
    intro done heq
    have hmem : c ∈ cs := heq ▸ List.mem_append_right _ List.mem_cons_self
    have hnext := ih (done ++ [c]) (by rw [heq, List.append_assoc]; rfl)
    have hlength : (fullValue (done ++ [c])).length =
        (fullValue done).length + c.newValue.length := by
      simp [fullValue]
    rw [List.length_append, List.length_singleton, hlength] at hnext
    rw [List.map_cons, anchorLoop, anchorsOf, countSurfaceOccurrences]
    by_cases hreplaced : c.Replaced
    · rw [if_pos hreplaced, positions_eq_nil (h.gone c hmem hreplaced), if_pos (by simp), hnext]
    · have hkept : c.newValue = c.value := not_not.mp hreplaced
      have hat : c.value <+: (fullValue cs).drop (fullValue done).length := by
        rw [heq, fullValue_append, List.drop_left, fullValue_cons, hkept]
        exact List.prefix_append _ _
      have honce := h.once c hmem hreplaced
      rw [if_neg hreplaced, positions_of_once (h.value_ne c hmem).1 honce hat, if_neg (by simp),
        find_of_once honce hat, hnext]
      rfl

theorem anchorsOrdered_anchorsOf (rest : List CorrectedSegment) : ∀ (i first last : Nat),
    last ≤ first → anchorsOrdered last (anchorsOf i first rest) = true := by
  induction rest with
  | nil => intro i first last _; rfl
  | cons c rest ih =>
    intro i first last hle
    rw [anchorsOf]
    split_ifs with hreplaced
    · exact ih _ _ _ (by omega)
    · have hkept : c.newValue = c.value := not_not.mp hreplaced
      rw [anchorsOrdered, if_neg (by dsimp only; omega)]
      exact ih _ _ _ (by rw [hkept])

variable {text : Bytes}

theorem assignGap_singleton {value : Bytes} (h : text ≠ []) :
    assignGap [value] text = some [text] := if_neg (by simpa using h)

variable {mozcValues : List Bytes}

/-- The text of a replaced segment reaches up to the next anchor, or to the end. -/
theorem projectLoop_pending {i first : Nat} {c : CorrectedSegment} (hc : c.Replaced)
    (hne : c.newValue ≠ []) {rest : List CorrectedSegment}
    (happart : (c :: rest).IsChain fun c d => ¬ (c.Replaced ∧ d.Replaced))
    (hvalues : mozcValues.drop i = c.value :: rest.map fun c => c.value)
    (htext : text.drop first = c.newValue ++ fullValue rest)
    (ih : ∀ d later, rest = d :: later → ¬ d.Replaced →
      projectLoop mozcValues text (i + 2) (first + c.newValue.length + d.value.length)
          (anchorsOf (i + 2) (first + c.newValue.length + d.newValue.length) later) =
        some (later.map CorrectedSegment.newValue)) :
    projectLoop mozcValues text i first (anchorsOf (i + 1) (first + c.newValue.length) rest) =
      some (c.newValue :: rest.map CorrectedSegment.newValue) := by
  cases rest with
  | nil =>
    rw [anchorsOf, projectLoop, hvalues, htext, fullValue, List.map_nil, List.map_nil,
      List.flatten_nil, List.append_nil, assignGap_singleton hne]
  | cons d later =>
    have hkept : ¬ d.Replaced := fun hd => (List.isChain_cons_cons.mp happart).1 ⟨hc, hd⟩
    have hd : d.newValue = d.value := not_not.mp hkept
    have hget : mozcValues.getD (i + 1) [] = d.value := by
      have hget := congrArg (fun values : List Bytes => values.getD 1 []) hvalues
      simpa [List.getD_eq_getElem?_getD, List.getElem?_drop] using hget
    rw [anchorsOf, if_neg hkept, projectLoop, hvalues, htext]
    dsimp only
    rw [Nat.add_sub_cancel_left, Nat.add_sub_cancel_left, List.take_left, hget,
      show (c.value :: (d :: later).map fun c => c.value).take 1 = [c.value] from rfl,
      assignGap_singleton hne, ih d later rfl hkept]
    simp [hd]

/-- **THE GAPS** get their own texts. -/
theorem projectLoop_eq {mozcValues : List Bytes} {text : Bytes} (n : Nat) :
    ∀ (rest : List CorrectedSegment) (i first : Nat), rest.length ≤ n →
      (∀ c ∈ rest, c.newValue ≠ []) →
      (rest.IsChain fun c d => ¬ (c.Replaced ∧ d.Replaced)) →
      (mozcValues.drop i = rest.map fun c => c.value) → text.drop first = fullValue rest →
      projectLoop mozcValues text i first (anchorsOf i first rest) =
        some (rest.map CorrectedSegment.newValue) := by
  -- A replaced segment is taken together with the one behind it, so the induction is on a bound.
  induction n with
  | zero =>
    intro rest i first hlength _ _ hvalues htext
    obtain rfl := List.length_eq_zero_iff.mp (Nat.le_zero.mp hlength)
    rw [anchorsOf, projectLoop, hvalues, htext]
    rfl
  | succ n ih =>
    intro rest i first hlength hne hapart hvalues htext
    cases rest with
    | nil =>
      rw [anchorsOf, projectLoop, hvalues, htext]
      rfl
    | cons c rest =>
      rw [List.length_cons] at hlength
      have hnextValues : mozcValues.drop (i + 1) = rest.map fun c => c.value := by
        rw [← List.drop_drop, hvalues]
        rfl
      have hnextText : text.drop (first + c.newValue.length) = fullValue rest := by
        rw [← List.drop_drop, htext, fullValue_cons, List.drop_left]
      have hnextNe : ∀ d ∈ rest, d.newValue ≠ [] := fun d hd =>
        hne d (List.mem_cons_of_mem c hd)
      rw [anchorsOf]
      split_ifs with hreplaced
      · refine projectLoop_pending hreplaced (hne c List.mem_cons_self) hapart hvalues htext ?_
        rintro d later rfl hkept
        have hd : d.newValue = d.value := not_not.mp hkept
        rw [List.length_cons] at hlength
        have hlater := ih later (i + 2) (first + c.newValue.length + d.newValue.length)
          (by omega) (fun e he => hnextNe e (List.mem_cons_of_mem d he)) hapart.tail.tail
          (by rw [show i + 2 = i + 1 + 1 from rfl, ← List.drop_drop, hnextValues]; rfl)
          (by rw [← List.drop_drop, hnextText, fullValue_cons, List.drop_left])
        rw [← hd]
        exact hlater
      · have hkept : c.newValue = c.value := not_not.mp hreplaced
        have hget : mozcValues.getD i [] = c.value := by
          have hget := congrArg (fun values : List Bytes => values.getD 0 []) hvalues
          simpa [List.getD_eq_getElem?_getD, List.getElem?_drop] using hget
        rw [projectLoop]
        dsimp only
        rw [Nat.sub_self, Nat.sub_self, List.take_zero, List.take_zero, hget, ← hkept,
          ih rest (i + 1) _ (by omega) hnextNe hapart.tail hnextValues hnextText]
        rfl

/-! ## What is learned -/

theorem guard_bind {α : Type} (p : Prop) [Decidable p] (x : Option α) :
    (guard p >>= fun _ => x) = if p then x else none := by
  split_ifs with h <;> simp [h]

theorem LocalCorrection.key_ne_fullKey (h : LocalCorrection cs) {c : CorrectedSegment}
    (hc : c ∈ cs) : c.key ≠ fullKey cs := by
  obtain ⟨front, back, rfl⟩ := List.append_of_mem hc
  intro heq
  have hlengths := congrArg List.length heq
  simp only [fullKey, List.map_append, List.map_cons, List.flatten_append, List.flatten_cons,
    List.length_append] at hlengths
  have hempty : ∀ ds : List CorrectedSegment, (∀ d ∈ ds, d.key ≠ []) →
      ((ds.map fun d => d.key).flatten).length = 0 → ds = [] := by
    intro ds hne hzero
    cases ds with
    | nil => rfl
    | cons d ds =>
      rw [List.map_cons, List.flatten_cons, List.length_append] at hzero
      have hpos := List.length_pos_iff.mpr (hne d List.mem_cons_self)
      omega
  have hfront := hempty front (fun d hd => h.key_ne d (List.mem_append_left _ hd)) (by omega)
  have hback := hempty back
    (fun d hd => h.key_ne d (List.mem_append_right _ (List.mem_cons_of_mem c hd))) (by omega)
  exact h.several (by rw [hfront, hback]; rfl)

/-- **A LOCAL CORRECTION** is recovered. -/
theorem LocalCorrection.build_eq (h : LocalCorrection cs) :
    buildZenzReverseLearningSegmentsFromPreedit (cs.map fun c => c.toPreeditSegment)
        (fullKey cs) (fullValue cs) =
      { changedSegments := (cs.filter fun c => c.Replaced).map fun c => (c.key, c.newValue)
        projectedSegments := cs.map fun c => ⟨c.key, c.newValue, c.Replaced⟩ } := by
  obtain ⟨c, hc, hreplaced⟩ := h.replaced
  have hne : cs ≠ [] := List.ne_nil_of_mem hc
  have hfullKey : fullKey cs ≠ [] := by
    obtain ⟨front, back, rfl⟩ := List.append_of_mem hc
    simp [fullKey, h.key_ne c hc]
  have hfullValue : fullValue cs ≠ [] := by
    obtain ⟨front, back, rfl⟩ := List.append_of_mem hc
    simp [(h.value_ne c hc).2]
  have hvalues : (cs.map fun c => c.toPreeditSegment).map PreeditSegment.value
      = cs.map fun c => c.value := List.map_map
  have hkeys : (cs.map fun c => c.toPreeditSegment).map PreeditSegment.key
      = cs.map fun c => c.key := List.map_map
  have hanchors : anchorLoop (fullValue cs) 0 (cs.map fun c => c.value)
      = some (anchorsOf 0 0 cs) := anchorLoop_eq h cs [] rfl
  have hordered := anchorsOrdered_anchorsOf cs 0 0 0 le_rfl
  have hproject := @projectLoop_eq (cs.map fun c => c.value) (fullValue cs) cs.length cs 0 0 le_rfl
    (fun c hc => (h.value_ne c hc).2) h.apart rfl rfl
  have hzip : (cs.map fun c => c.toPreeditSegment).zip (cs.map CorrectedSegment.newValue)
      = cs.map fun c => (c.toPreeditSegment, c.newValue) := List.zip_map'
  have hchanged : ((cs.map fun c => (c.toPreeditSegment, c.newValue)).filter fun segment =>
      segment.2 ≠ segment.1.value ∧
        ¬ (segment.1.key = fullKey cs ∧ segment.2 = fullValue cs))
      = (cs.filter fun c => c.Replaced).map fun c => (c.toPreeditSegment, c.newValue) := by
    rw [List.filter_map]
    refine congrArg _ (List.filter_congr fun d hd => decide_eq_decide.mpr ?_)
    exact and_iff_left fun hwhole => h.key_ne_fullKey hd hwhole.1
  have hsome : (cs.filter fun c => c.Replaced) ≠ [] :=
    List.ne_nil_of_mem (List.mem_filter.mpr ⟨hc, decide_eq_true hreplaced⟩)
  rw [buildZenzReverseLearningSegmentsFromPreedit, buildProjection, guard_bind,
    if_pos (by simp [hne, hfullKey, hfullValue]), guard_bind,
    if_pos (by simpa using fun d hd => ⟨h.key_ne d hd, (h.value_ne d hd).1⟩)]
  dsimp only
  rw [hvalues, hkeys, guard_bind,
    if_pos (show (cs.map fun c => c.key).flatten = fullKey cs from rfl), hanchors,
    Option.bind_eq_bind, Option.bind_some, guard_bind, if_pos hordered,
    hproject,
    Option.bind_eq_bind, Option.bind_some, guard_bind,
    if_pos (by simpa using fun d hd => (h.value_ne d hd).2), guard_bind,
    if_pos (show (cs.map CorrectedSegment.newValue).flatten = fullValue cs from rfl)]
  rw [hzip, hchanged, guard_bind, if_pos (by rw [List.length_map]; exact h.few)]
  have hlearned : ¬ (((cs.filter fun c => c.Replaced).map fun c =>
      (c.toPreeditSegment, c.newValue)).isEmpty = true) := by
    rw [List.isEmpty_iff, List.map_eq_nil_iff]
    exact hsome
  rw [Option.getD_some, if_neg hlearned, List.map_map, List.map_map]
  rfl

theorem length_assignGap {gap : List Bytes} {value : Bytes}
    (h : assignGap mozcValues value = some gap) : gap.length = mozcValues.length := by
  obtain _ | ⟨v, _ | ⟨w, rest⟩⟩ := mozcValues
  · simp only [assignGap, Option.ite_none_right_eq_some, Option.some.injEq] at h
    rw [← h.2]
  · simp only [assignGap, Option.ite_none_left_eq_some, Option.some.injEq] at h
    rw [← h.2]
    rfl
  · simp only [assignGap, Option.ite_none_right_eq_some, Option.some.injEq] at h
    rw [← h.2]

/-- The anchors are at segments from `i` on and before `n`, in their order. -/
def Increasing (n : Nat) : Nat → List Anchor → Prop
  | i, [] => i ≤ n
  | i, anchor :: rest => i ≤ anchor.index ∧ anchor.index < n ∧ Increasing n (anchor.index + 1) rest

theorem Increasing.mono {n : Nat} {anchors : List Anchor} {i i' : Nat}
    (h : Increasing n i anchors) (hle : i' ≤ i) : Increasing n i' anchors := by
  cases anchors with
  | nil => exact le_trans hle h
  | cons anchor rest => exact ⟨le_trans hle h.1, h.2⟩

theorem increasing_anchorLoop {fullValue : Bytes} (values : List Bytes) :
    ∀ {i : Nat} {anchors : List Anchor}, anchorLoop fullValue i values = some anchors →
      Increasing (i + values.length) i anchors := by
  induction values with
  | nil =>
    intro i anchors h
    obtain rfl := Option.some.inj h
    exact le_rfl
  | cons value rest ih =>
    intro i anchors h
    rw [anchorLoop] at h
    have hlength : i + (value :: rest).length = i + 1 + rest.length := by
      rw [List.length_cons]
      omega
    rw [hlength]
    split_ifs at h
    · exact (ih h).mono (Nat.le_succ i)
    · obtain ⟨first, -, h⟩ := Option.bind_eq_some_iff.mp h
      obtain ⟨later, hlater, h⟩ := Option.bind_eq_some_iff.mp h
      obtain rfl := Option.some.inj h
      exact ⟨le_rfl, by dsimp only; omega, ih hlater⟩

theorem length_projectLoop (anchors : List Anchor) :
    ∀ {i first : Nat} {values : List Bytes}, Increasing mozcValues.length i anchors →
      projectLoop mozcValues text i first anchors = some values →
        i + values.length = mozcValues.length := by
  induction anchors with
  | nil =>
    intro i first values hle h
    rw [projectLoop] at h
    rw [length_assignGap h, List.length_drop]
    exact Nat.add_sub_cancel' hle
  | cons anchor rest ih =>
    intro i first values hle h
    obtain ⟨hindex, hlt, hrest⟩ := hle
    obtain ⟨gap, hgap, h⟩ := Option.bind_eq_some_iff.mp h
    obtain ⟨later, hlater, h⟩ := Option.bind_eq_some_iff.mp h
    obtain rfl := Option.some.inj h
    have hlength := ih hrest hlater
    have hgapLength := length_assignGap hgap
    rw [List.length_take, List.length_drop] at hgapLength
    rw [List.length_append, List.length_cons]
    omega

/-- **WHAT IS PROJECTED** makes up the key and the value. -/
theorem projection_spec {preedit : List PreeditSegment} {fullKey fullValue : Bytes}
    (h : (buildZenzReverseLearningSegmentsFromPreedit preedit fullKey fullValue).projectedSegments
      ≠ []) :
    let projected :=
      (buildZenzReverseLearningSegmentsFromPreedit preedit fullKey fullValue).projectedSegments
    (projected.map ZenzProjectedLearningSegment.key).flatten = fullKey ∧
      (projected.map ZenzProjectedLearningSegment.value).flatten = fullValue := by
  rw [buildZenzReverseLearningSegmentsFromPreedit] at h ⊢
  cases hbuild : buildProjection preedit fullKey fullValue with
  | none => rw [hbuild] at h; exact absurd rfl h
  | some projection =>
    rw [hbuild, Option.getD_some] at h
    rw [buildProjection] at hbuild
    simp only [guard_bind, Option.ite_none_right_eq_some] at hbuild
    obtain ⟨-, -, hkeys, hbuild⟩ := hbuild
    obtain ⟨anchors, hanchors, hbuild⟩ := Option.bind_eq_some_iff.mp hbuild
    obtain ⟨-, hbuild⟩ := Option.ite_none_right_eq_some.mp hbuild
    obtain ⟨values, hvalues, hbuild⟩ := Option.bind_eq_some_iff.mp hbuild
    simp only [Option.ite_none_right_eq_some] at hbuild
    obtain ⟨-, htext, -, hbuild⟩ := hbuild
    have hlength := length_projectLoop anchors
      (Nat.zero_add (preedit.map PreeditSegment.value).length ▸ increasing_anchorLoop _ hanchors)
      hvalues
    rw [Nat.zero_add, List.length_map] at hlength
    obtain rfl := Option.some.inj hbuild
    dsimp only at h ⊢
    rw [Option.getD_some]
    split_ifs at h ⊢ with hempty
    · exact absurd rfl h
    · have hfst : (preedit.zip values).map Prod.fst = preedit :=
        List.map_fst_zip (le_of_eq hlength.symm)
      have hsnd : (preedit.zip values).map Prod.snd = values :=
        List.map_snd_zip (le_of_eq hlength)
      have hkeysMap : (preedit.zip values).map (fun segment => segment.1.key)
          = preedit.map PreeditSegment.key :=
        List.map_map.symm.trans (congrArg (List.map PreeditSegment.key) hfst)
      rw [List.map_map, List.map_map]
      refine ⟨?_, ?_⟩
      · rw [← hkeys]
        exact congrArg List.flatten hkeysMap
      · rw [← htext]
        exact congrArg List.flatten hsnd

/-- **REVERSE LEARNING** recovers a local correction, and whatever it projects is an alignment of
    the whole key with the whole value. -/
theorem reverseLearning_recovers :
    (∀ cs : List CorrectedSegment, LocalCorrection cs →
      buildZenzReverseLearningSegmentsFromPreedit (cs.map fun c => c.toPreeditSegment)
          (fullKey cs) (fullValue cs) =
        { changedSegments := (cs.filter fun c => c.Replaced).map fun c => (c.key, c.newValue)
          projectedSegments := cs.map fun c => ⟨c.key, c.newValue, c.Replaced⟩ }) ∧
    ∀ (preedit : List PreeditSegment) (wholeKey wholeValue : Bytes)
      (projected : List ZenzProjectedLearningSegment),
      (buildZenzReverseLearningSegmentsFromPreedit preedit wholeKey wholeValue).projectedSegments
          = projected → projected ≠ [] →
        (projected.map ZenzProjectedLearningSegment.key).flatten = wholeKey ∧
          (projected.map ZenzProjectedLearningSegment.value).flatten = wholeValue := by
  refine ⟨fun cs h => h.build_eq, ?_⟩
  rintro preedit wholeKey wholeValue projected rfl hne
  exact projection_spec hne

theorem occursOnce_of_lt {needle hay : Bytes} {i : Nat} (hne : needle ≠ [])
    (hi : needle <+: hay.drop i) (honce : ∀ j < hay.length, needle <+: hay.drop j → j = i) :
    OccursOnce needle hay := by
  refine ⟨i, hi, fun j (hj : needle <+: hay.drop j) => honce j ?_ hj⟩
  by_contra hge
  rw [List.drop_eq_nil_of_le (Nat.not_lt.mp hge)] at hj
  exact hne (List.prefix_nil.mp hj)

/-- 赤|の|空, accepted as 青の空. -/
def redSky : List CorrectedSegment :=
  [⟨⟨[1], [0xE8, 0xB5, 0xA4]⟩, [0xE9, 0x9D, 0x92]⟩,
    ⟨⟨[2], [0xE3, 0x81, 0xAE]⟩, [0xE3, 0x81, 0xAE]⟩,
    ⟨⟨[3], [0xE7, 0xA9, 0xBA]⟩, [0xE7, 0xA9, 0xBA]⟩]

theorem localCorrection_redSky : LocalCorrection redSky where
  key_ne := by decide
  value_ne := by decide
  replaced := by decide
  apart := by decide
  few := by decide
  several := by decide
  once := by
    intro c hc hkept
    rcases List.mem_cons.mp hc with rfl | hc
    · exact absurd (by decide) hkept
    rcases List.mem_pair.mp hc with rfl | rfl
    · exact @occursOnce_of_lt _ _ 3 (by decide) (by decide) (by decide)
    · exact @occursOnce_of_lt _ _ 6 (by decide) (by decide) (by decide)
  gone := by decide

/-- The first segment is learned. -/
theorem reverseLearning_recovers_redSky :
    buildZenzReverseLearningSegmentsFromPreedit
        [⟨[1], [0xE8, 0xB5, 0xA4]⟩, ⟨[2], [0xE3, 0x81, 0xAE]⟩, ⟨[3], [0xE7, 0xA9, 0xBA]⟩]
        [1, 2, 3] [0xE9, 0x9D, 0x92, 0xE3, 0x81, 0xAE, 0xE7, 0xA9, 0xBA] =
      { changedSegments := [([1], [0xE9, 0x9D, 0x92])]
        projectedSegments :=
          [⟨[1], [0xE9, 0x9D, 0x92], true⟩, ⟨[2], [0xE3, 0x81, 0xAE], false⟩,
            ⟨[3], [0xE7, 0xA9, 0xBA], false⟩] } :=
  reverseLearning_recovers.1 redSky localCorrection_redSky

end MozkeySession
