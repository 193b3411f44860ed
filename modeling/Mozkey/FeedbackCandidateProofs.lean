import Mozkey.FeedbackDecisionProofs
import Mozkey.BoundaryHistoryProofs

/-! # ZenzFeedbackCandidateRewriter — promotion of learned candidates

    The first usable value of the feedback gets a lower cost.  A candidate that has the value
    is moved, otherwise a new one is inserted; the place is found by counting the candidates
    that cost no more, wherever they are in the list. -/

namespace MozkeyRewriter

open ByteString MozkeyUtil MozkeyFeedback

/-! ## Candidates -/

/-- `Candidate`, as far as the rewriter reads and writes it; `id` tells the objects apart that
    the list of a segment points to. -/
structure Candidate where
  id : Nat
  key : Bytes
  contentKey : Bytes
  value : Bytes
  contentValue : Bytes
  cost : Int
  wcost : Int
  attributes : BitVec 32
  innerSegmentBoundary : List Nat
  description : Bytes
  a11yDescription : Bytes
  displayValue : Bytes
  deriving DecidableEq

/-- `Attribute::BEST_CANDIDATE`. -/
def kBestCandidate : BitVec 32 := 1#32 <<< 0

/-- `Attribute::RERANKED`. -/
def kReranked : BitVec 32 := 1#32 <<< 1

/-- `Attribute::USER_SEGMENT_HISTORY_REWRITER`. -/
def kUserSegmentHistoryRewriter : BitVec 32 := 1#32 <<< 17

/-- The candidate is marked as the best one. -/
def Candidate.isBest (c : Candidate) : Bool := c.attributes.getLsbD 0

/-- Attributes are set. -/
def Candidate.set (attributes : BitVec 32) (c : Candidate) : Candidate :=
  { c with attributes := c.attributes ||| attributes }

/-- Attributes are cleared. -/
def Candidate.clear (attributes : BitVec 32) (c : Candidate) : Candidate :=
  { c with attributes := c.attributes &&& ~~~attributes }

/-! ## The list of candidates -/

/-- `insert_candidate`, with the new object. -/
def insertCandidate (i : Int) (c : Candidate) (candidates : List Candidate) :
    Option (List Candidate) :=
  if i < 0 then none
  else
    let i := min i.toNat candidates.length
    some (candidates.take i ++ c :: candidates.drop i)

/-- `candidates_[i] = candidates_[j]`. -/
def assign {α : Type} (i j : Nat) (l : List α) : List α := (l[j]?).elim l (l.set i)

/-- The loop of a promotion, from `i` down: candidates go one place back. -/
def promoteLoop {α : Type} (newIdx : Nat) : Nat → List α → List α
  | 0, l => l
  | i + 1, l => if newIdx + 1 ≤ i + 1 then promoteLoop newIdx i (assign (i + 1) i l) else l

/-- The loop of a demotion, from `i` up, with the number of places it goes over. -/
def demoteLoop {α : Type} : Nat → Nat → List α → List α
  | 0, _, l => l
  | count + 1, i, l => demoteLoop count (i + 1) (assign i (i + 1) l)

/-- `move_candidate`, for a candidate that is not a meta candidate. -/
def moveCandidate {α : Type} (oldIdx newIdx : Nat) (l : List α) : List α :=
  match l[oldIdx]? with
  | none => l
  | some c =>
    if l.length ≤ newIdx ∨ oldIdx = newIdx then l
    else if newIdx < oldIdx then (promoteLoop newIdx oldIdx l).set newIdx c
    else (demoteLoop (newIdx - oldIdx) oldIdx l).set newIdx c

/-! ## The rewriter -/

/-- The limits of what is learned. -/
def kMinKeyChars : Nat := 2
def kMaxKeyChars : Nat := 128
def kMaxValueChars : Nat := 128
def kMaxValueBytes : Nat := 512

/-- `ContainsUnsafeTextChar`. -/
def containsUnsafeTextChar (text : Bytes) : Bool :=
  text.any fun c => c == chr '\t' || c == chr '\r' || c == chr '\n'

/-- Has a text the lengths and characters of a candidate? -/
def isSafeCandidateText (key value : Bytes) : Bool :=
  !key.isEmpty && !value.isEmpty && isValidUtf8 key && isValidUtf8 value &&
    !containsUnsafeTextChar key && !containsUnsafeTextChar value &&
    kMinKeyChars ≤ charsLen key && charsLen key ≤ kMaxKeyChars &&
    charsLen value ≤ kMaxValueChars && value.length ≤ kMaxValueBytes

/-- `FindCandidateByValue`; `none` where it returns -1. -/
def findCandidateByValue (candidates : List Candidate) (value : Bytes) : Option Nat :=
  candidates.findIdx? fun c => c.value == value

/-- A cost in the range of an `int`. -/
def clampCost (cost : Int) : Int := max 0 (min cost (2 ^ 31 - 1))

/-- `FeedbackCostDelta`; a division of integers truncates. -/
def feedbackCostDelta (feedback : ZenzFeedbackCandidate) : Int :=
  max (-1800) (min ((-feedback.totalScore).tdiv 2) 2400)

/-- The cost of a candidate by its feedback. -/
def applyFeedbackCost (feedback : ZenzFeedbackCandidate) (c : Candidate) : Candidate :=
  { c with
    cost := clampCost (c.cost + feedbackCostDelta feedback)
    wcost := clampCost (c.wcost + feedbackCostDelta feedback) }

/-- Where a candidate of its own is put in. -/
def findSyntheticInsertPosition (candidates : List Candidate) (adjustedCost : Int) : Nat :=
  candidates.countP fun c => c.cost ≤ adjustedCost

/-- How far a candidate moves up. -/
def findMovePosition (candidates : List Candidate) (existingPos : Nat) (adjustedCost : Int) :
    Nat :=
  min ((candidates.eraseIdx existingPos).countP fun c => c.cost ≤ adjustedCost)
    (candidates.length - 1)

/-- A candidate is marked as one that came from feedback. -/
def markFeedbackCandidate (pos : Nat) (candidates : List Candidate) : List Candidate :=
  let candidates := candidates.modify pos (.set (kReranked ||| kUserSegmentHistoryRewriter))
  if pos = 0 then (candidates.map (.clear kBestCandidate)).modify 0 (.set kBestCandidate)
  else candidates.modify pos (.clear kBestCandidate)

/-- `FillSyntheticCandidate`, as the new object `id`. -/
def fillSyntheticCandidate (id : Nat) (baseCandidate : Candidate) (key value : Bytes) : Candidate :=
  { baseCandidate with
    id
    key
    contentKey := key
    value
    contentValue := value
    innerSegmentBoundary := []
    attributes := (baseCandidate.attributes &&& ~~~kBestCandidate) |||
      (kReranked ||| kUserSegmentHistoryRewriter)
    description := ascii "Zenz " ++ [0xE5, 0xAD, 0xA6, 0xE7, 0xBF, 0x92]
    a11yDescription := []
    displayValue := [] }

/-- A segment, with its key and its candidates. -/
structure CandidateList where
  key : Bytes
  candidates : List Candidate

/-- What `capability` asks of a `ConversionRequest`. -/
structure FeedbackOptions where
  isConversion : Bool
  useZenzFeedbackLearning : Bool
  incognitoMode : Bool
  enableUserHistoryForConversion : Bool
  historyLearningLevel : HistoryLearningLevel

/-- `capability` is not `NOT_AVAILABLE`. -/
def FeedbackOptions.available (options : FeedbackOptions) : Bool :=
  options.isConversion && options.useZenzFeedbackLearning && !options.incognitoMode &&
    options.enableUserHistoryForConversion &&
    options.historyLearningLevel = .defaultHistory

/-- The loop of `Rewrite` over the ranked feedback; a new object is `id`. -/
def rewriteLoop (id : Nat) (fullKey originalTopValue : Bytes) (base : Candidate)
    (candidates : List Candidate) : List ZenzFeedbackCandidate → Option (List Candidate)
  | [] => none
  | feedback :: rest =>
    if ¬ isSafeCandidateText fullKey feedback.value then
      rewriteLoop id fullKey originalTopValue base candidates rest
    else if feedback.value = originalTopValue then
      rewriteLoop id fullKey originalTopValue base candidates rest
    else
      match findCandidateByValue candidates feedback.value with
      | some 0 => rewriteLoop id fullKey originalTopValue base candidates rest
      | some (k + 1) =>
        let candidates := candidates.modify (k + 1) (applyFeedbackCost feedback)
        let cost := ((candidates[k + 1]?).map Candidate.cost).getD 0
        let insertPos := findMovePosition candidates (k + 1) cost
        some (markFeedbackCandidate insertPos (moveCandidate (k + 1) insertPos candidates))
      | none =>
        let synthetic := applyFeedbackCost feedback
          (fillSyntheticCandidate id base fullKey feedback.value)
        let insertPos := findSyntheticInsertPosition candidates synthetic.cost
        (insertCandidate insertPos synthetic candidates).map
          (markFeedbackCandidate insertPos)

/-- `Rewrite`, on the conversion segments; `ranked` is what `GetRankedCandidates` gives for the
    key.  `none` where it returns `false`. -/
def rewrite (options : FeedbackOptions) (id : Nat) (ranked : List ZenzFeedbackCandidate)
    (segments : List CandidateList) : Option (List CandidateList) :=
  if ¬ options.available then none
  else
    match segments with
    | [segment] =>
      if segment.key.isEmpty || segment.candidates.isEmpty then none
      else
        match segment.candidates with
        | [] => none
        | base :: _ =>
          if base.value.isEmpty then none
          else
            (rewriteLoop id segment.key base.value base segment.candidates ranked).map
              fun candidates => [{ segment with candidates }]
    | _ => none

/-! ## Moving a candidate -/

section Moving

variable {α : Type}

theorem assign_next (before after : List α) (x y : α) :
    assign before.length (before.length + 1) (before ++ x :: y :: after)
      = before ++ y :: y :: after := by
  have hget : (before ++ x :: y :: after)[before.length + 1]? = some y := by
    rw [List.getElem?_append_right (Nat.le_succ _), Nat.succ_sub le_rfl, Nat.sub_self]
    rfl
  rw [assign, hget, Option.elim_some, List.set_append_right _ _ le_rfl, Nat.sub_self]
  rfl

theorem assign_previous (before after : List α) (x y : α) :
    assign (before.length + 1) before.length (before ++ y :: x :: after)
      = before ++ y :: y :: after := by
  have hget : (before ++ y :: x :: after)[before.length]? = some y := by
    rw [List.getElem?_append_right le_rfl, Nat.sub_self]
    rfl
  rw [assign, hget, Option.elim_some, List.set_append_right _ _ (Nat.le_succ _),
    Nat.succ_sub le_rfl, Nat.sub_self]
  rfl

/-- A promotion shifts the candidates between; what was in the new place is there still. -/
theorem promoteLoop_append (before between : List α) : ∀ (x : α) (after : List α),
    ∃ y, promoteLoop before.length (before.length + between.length)
        (before ++ between ++ x :: after) = before ++ y :: (between ++ after) := by
  induction between using List.reverseRecOn with
  | nil =>
    intro x after
    refine ⟨x, ?_⟩
    rw [List.length_nil, Nat.add_zero, List.append_nil, List.nil_append]
    cases before with
    | nil => rfl
    | cons b before =>
      rw [List.length_cons, promoteLoop, if_neg (by omega)]
  | append_singleton between z ih =>
    intro x after
    obtain ⟨y, hy⟩ := ih z (z :: after)
    refine ⟨y, ?_⟩
    have hassign := assign_previous (before ++ between) after x z
    rw [List.length_append] at hassign
    rw [List.length_append, List.length_singleton, ← Nat.add_assoc, promoteLoop,
      if_pos (by omega), ← List.append_assoc, List.append_assoc (before ++ between),
      List.singleton_append, hassign, hy, List.append_assoc, List.singleton_append]

theorem demoteLoop_append (between : List α) : ∀ (before : List α) (x : α) (after : List α),
    ∃ y, demoteLoop between.length before.length (before ++ x :: (between ++ after))
      = before ++ between ++ y :: after := by
  induction between with
  | nil =>
    intro before x after
    exact ⟨x, by rw [List.append_nil]; rfl⟩
  | cons z between ih =>
    intro before x after
    obtain ⟨y, hy⟩ := ih (before ++ [z]) z after
    refine ⟨y, ?_⟩
    rw [List.length_append, List.length_singleton, List.append_assoc, List.singleton_append] at hy
    rw [List.length_cons, demoteLoop, List.cons_append, assign_next, hy, List.append_assoc,
      List.append_assoc, List.singleton_append, List.append_assoc]
    rfl

variable {l : List α} {i : Nat} {x : α}

theorem exists_around (h : l[i]? = some x) :
    ∃ before after, l = before ++ x :: after ∧ before.length = i := by
  obtain ⟨hlt, hget⟩ := List.getElem?_eq_some_iff.mp h
  refine ⟨l.take i, l.drop (i + 1), ?_, ?_⟩
  · rw [← hget, ← List.drop_eq_getElem_cons hlt, List.take_append_drop]
  · rw [List.length_take]
    omega

/-- **A CANDIDATE IS MOVED**, in either direction. -/
theorem moveCandidate_eq {oldIdx newIdx : Nat} {c : α} (hc : l[oldIdx]? = some c)
    (hnew : newIdx < l.length) :
    moveCandidate oldIdx newIdx l
      = (l.eraseIdx oldIdx).take newIdx ++ c :: (l.eraseIdx oldIdx).drop newIdx := by
  obtain ⟨before, after, hl, hlength⟩ := exists_around hc
  have herase : l.eraseIdx oldIdx = before ++ after := by
    rw [hl, ← hlength, List.eraseIdx_append_of_length_le le_rfl, Nat.sub_self]
    rfl
  rw [moveCandidate, hc, herase]
  dsimp only
  rcases Nat.lt_trichotomy newIdx oldIdx with hlt | rfl | hgt
  · rw [if_neg (by omega), if_pos hlt]
    obtain ⟨front, hfront⟩ : ∃ front, before.take newIdx = front := ⟨_, rfl⟩
    obtain ⟨between, hbetween⟩ : ∃ between, before.drop newIdx = between := ⟨_, rfl⟩
    have hsplit : before = front ++ between := by rw [← hfront, ← hbetween, List.take_append_drop]
    have hfrontLength : front.length = newIdx := by
      rw [← hfront, List.length_take]
      omega
    obtain ⟨y, hloop⟩ := promoteLoop_append front between c after
    rw [← List.length_append, ← hsplit, hlength, hfrontLength, ← hl] at hloop
    rw [hloop, hsplit, List.append_assoc, ← hfrontLength, List.take_left, List.drop_left,
      List.set_append_right _ _ le_rfl, Nat.sub_self]
    rfl
  · rw [if_pos (Or.inr rfl), ← hlength, List.take_left, List.drop_left, ← hl]
  · rw [if_neg (by omega), if_neg (by omega)]
    obtain ⟨between, hbetween⟩ : ∃ between, after.take (newIdx - oldIdx) = between := ⟨_, rfl⟩
    obtain ⟨back, hback⟩ : ∃ back, after.drop (newIdx - oldIdx) = back := ⟨_, rfl⟩
    have hsplit : after = between ++ back := by rw [← hbetween, ← hback, List.take_append_drop]
    have hafterLength := congrArg List.length hl
    rw [List.length_append, List.length_cons] at hafterLength
    have hbetweenLength : between.length = newIdx - oldIdx := by
      rw [← hbetween, List.length_take]
      omega
    have hnewIdx : newIdx = (before ++ between).length := by
      rw [List.length_append]
      omega
    obtain ⟨y, hloop⟩ := demoteLoop_append between before c back
    rw [← hsplit, ← hl, hbetweenLength, hlength] at hloop
    rw [hloop, hsplit, ← List.append_assoc before, hnewIdx, List.take_left, List.drop_left,
      List.set_append_right _ _ le_rfl, Nat.sub_self]
    rfl

theorem modify_append (before after : List α) (x : α) (f : α → α) :
    (before ++ x :: after).modify before.length f = before ++ f x :: after := by
  induction before with
  | nil => rfl
  | cons b before ih => exact congrArg (List.cons b) ih

theorem getElem?_modify_self (f : α → α) (h : l[i]? = some x) :
    (l.modify i f)[i]? = some (f x) := by
  obtain ⟨before, after, rfl, rfl⟩ := exists_around h
  rw [modify_append, List.getElem?_append_right le_rfl, Nat.sub_self]
  rfl

theorem eraseIdx_modify_self (f : α → α) (h : l[i]? = some x) :
    (l.modify i f).eraseIdx i = l.eraseIdx i := by
  obtain ⟨before, after, rfl, rfl⟩ := exists_around h
  rw [modify_append, List.eraseIdx_append_of_length_le le_rfl,
    List.eraseIdx_append_of_length_le le_rfl, Nat.sub_self]
  rfl

end Moving

variable {candidates : List Candidate} {pos : Nat}

theorem insertCandidate_eq (c : Candidate) (hpos : pos ≤ candidates.length) :
    insertCandidate pos c candidates = some (candidates.take pos ++ c :: candidates.drop pos) := by
  rw [insertCandidate, if_neg (by omega), Int.toNat_natCast, Nat.min_eq_left hpos]

/-! ## What a rewrite keeps -/

/-- A candidate but for its attributes. -/
def Candidate.unmarked (c : Candidate) : Candidate := { c with attributes := 0 }

/-- A candidate is what it was, but for attributes, and it is not the best one unless it was. -/
structure Keeps (c c' : Candidate) : Prop where
  same : c'.unmarked = c.unmarked
  best : c'.isBest = true → c.isBest = true

/-- Candidates in their order are what they were. -/
def Others (candidates candidates' : List Candidate) : Prop :=
  List.Forall₂ Keeps candidates candidates'

theorem isBest_clear (c : Candidate) : (c.clear kBestCandidate).isBest = false := by
  simp [Candidate.clear, Candidate.isBest, kBestCandidate]

theorem Others.refl (candidates : List Candidate) : Others candidates candidates :=
  List.forall₂_same.mpr fun _ _ => ⟨rfl, id⟩

theorem others_clear (candidates : List Candidate) :
    Others candidates (candidates.map (.clear kBestCandidate)) := by
  rw [Others, List.forall₂_map_right_iff, List.forall₂_same]
  intro c _
  refine ⟨rfl, fun hbest => ?_⟩
  rw [isBest_clear] at hbest
  cases hbest

theorem Others.map_unmarked {candidates' : List Candidate} (h : Others candidates candidates') :
    candidates'.map Candidate.unmarked = candidates.map Candidate.unmarked := by
  induction h with
  | nil => rfl
  | cons hc _ ih => rw [List.map_cons, List.map_cons, hc.same, ih]

/-- **MARKING A CANDIDATE** changes attributes only, and makes it the best one in the first
    place only. -/
theorem mark_spec (before after : List Candidate) (c : Candidate) :
    ∃ before' c' after', markFeedbackCandidate before.length (before ++ c :: after)
        = before' ++ c' :: after' ∧ Others before before' ∧ Others after after' ∧
      c'.unmarked = c.unmarked ∧ (c'.isBest = true → before.length = 0) := by
  rw [markFeedbackCandidate, modify_append]
  cases before with
  | nil =>
    refine ⟨[], ((c.set (kReranked ||| kUserSegmentHistoryRewriter)).clear kBestCandidate).set
      kBestCandidate, after.map (.clear kBestCandidate), ?_, .nil, others_clear after, ?_,
      fun _ => rfl⟩
    · rw [if_pos List.length_nil, List.nil_append, List.map_cons]
      exact modify_append [] _ _ _
    · rfl
  | cons b before =>
    refine ⟨b :: before, (c.set (kReranked ||| kUserSegmentHistoryRewriter)).clear kBestCandidate,
      after, ?_, .refl _, .refl _, ?_, ?_⟩
    · exact (if_neg (Nat.succ_ne_zero _)).trans (modify_append (b :: before) after _ _)
    · rfl
    · intro hbest
      rw [isBest_clear] at hbest
      cases hbest

/-- A candidate is put among others. -/
structure Placed (c : Candidate) (rest candidates : List Candidate) (pos : Nat) : Prop where
  others : Others rest (candidates.eraseIdx pos)
  placed : ∃ c', candidates[pos]? = some c' ∧ c'.unmarked = c.unmarked ∧
    (c'.isBest = true → pos = 0)
  perm : (candidates.map Candidate.unmarked).Perm ((c :: rest).map Candidate.unmarked)

theorem placed_mark (c : Candidate) {rest : List Candidate} (hpos : pos ≤ rest.length) :
    Placed c rest (markFeedbackCandidate pos (rest.take pos ++ c :: rest.drop pos)) pos := by
  have hlength : (rest.take pos).length = pos := by
    rw [List.length_take]
    omega
  obtain ⟨before', c', after', hmark, hbefore, hafter, hsame, hbest⟩ :=
    mark_spec (rest.take pos) (rest.drop pos) c
  have hlength' : before'.length = pos := hbefore.length_eq.symm.trans hlength
  have hall : Others (rest.take pos ++ rest.drop pos) (before' ++ after') :=
    List.rel_append hbefore hafter
  rw [List.take_append_drop] at hall
  rw [hlength] at hmark hbest
  rw [hmark]
  refine ⟨?_, ⟨c', ?_, hsame, hbest⟩, ?_⟩
  · rw [← hlength', List.eraseIdx_append_of_length_le le_rfl, Nat.sub_self]
    exact hall
  · rw [List.getElem?_append_right hlength'.le, hlength', Nat.sub_self]
    rfl
  · rw [List.map_append, List.map_cons, hbefore.map_unmarked, hafter.map_unmarked, hsame,
      List.map_cons]
    refine List.perm_middle.trans (List.Perm.cons _ ?_)
    rw [← List.map_append, List.take_append_drop]

/-! ## Promotions -/

/-- The candidate that has a value is moved, to a place that is not after its old one. -/
structure Moves (value : Bytes) (old new : List Candidate) (oldPos newPos : Nat) : Prop where
  found : findCandidateByValue old value = some oldPos
  le : newPos ≤ oldPos
  others : Others (old.eraseIdx oldPos) (new.eraseIdx newPos)
  moved : ∃ c c', old[oldPos]? = some c ∧ new[newPos]? = some c' ∧ c'.id = c.id ∧
    c'.value = value ∧ (c'.isBest = true → newPos = 0)
  count : ∀ v, (new.map Candidate.value).count v ≤ (old.map Candidate.value).count v

/-- A new candidate with a value is inserted. -/
structure Inserts (value : Bytes) (old new : List Candidate) (newPos : Nat) : Prop where
  others : Others old (new.eraseIdx newPos)
  inserted : ∃ c', new[newPos]? = some c' ∧ c'.value = value ∧ (c'.isBest = true → newPos = 0)
  count : ∀ v, (new.map Candidate.value).count v ≤ (value :: old.map Candidate.value).count v

/-- A value is promoted, and nothing else changes. -/
def Promotes (value : Bytes) (old new : List Candidate) : Prop :=
  (∃ oldPos newPos, Moves value old new oldPos newPos) ∨ ∃ newPos, Inserts value old new newPos

/-- The feedback that a rewrite takes up: the first one with a safe value that is not on top. -/
def chosenFeedback (fullKey originalTopValue : Bytes) (ranked : List ZenzFeedbackCandidate) :
    Option ZenzFeedbackCandidate :=
  ranked.find? fun feedback =>
    isSafeCandidateText fullKey feedback.value && feedback.value != originalTopValue

/-- If a candidate has the value, no more of the others cost as little as it does with its
    feedback than it has before it. -/
def FewAsCheap (feedback : ZenzFeedbackCandidate) (candidates : List Candidate) : Prop :=
  ∀ pos c, findCandidateByValue candidates feedback.value = some pos →
    candidates[pos]? = some c →
    ((candidates.eraseIdx pos).countP fun d => d.cost ≤ (applyFeedbackCost feedback c).cost) ≤ pos

/-- What a rewrite does with the feedback that it takes up. -/
inductive Rewritten (feedback : ZenzFeedbackCandidate) (old new : List Candidate) : Prop where
  | move (pos : Nat) (c : Candidate) : findCandidateByValue old feedback.value = some pos →
      old[pos]? = some c →
      Placed (applyFeedbackCost feedback c) (old.eraseIdx pos) new
        ((old.eraseIdx pos).countP fun d => d.cost ≤ (applyFeedbackCost feedback c).cost) →
      Rewritten feedback old new
  | insert (c : Candidate) (pos : Nat) : findCandidateByValue old feedback.value = none →
      c.value = feedback.value → Placed c old new pos → Rewritten feedback old new

theorem value_of_found {value : Bytes} (h : findCandidateByValue candidates value = some pos) :
    ∃ c, candidates[pos]? = some c ∧ c.value = value := by
  obtain ⟨hlt, hvalue, -⟩ := List.findIdx?_eq_some_iff_getElem.mp h
  exact ⟨candidates[pos], List.getElem?_eq_getElem hlt, beq_iff_eq.mp hvalue⟩

/-- **WHAT A REWRITE DOES** with the feedback that it takes up. -/
theorem rewriteLoop_spec {id : Nat} {fullKey : Bytes} {base : Candidate} {new : List Candidate}
    (hbase : candidates.head? = some base) (ranked : List ZenzFeedbackCandidate)
    (h : rewriteLoop id fullKey base.value base candidates ranked = some new) :
    ∃ feedback, chosenFeedback fullKey base.value ranked = some feedback ∧
      Rewritten feedback candidates new := by
  induction ranked with
  | nil => cases h
  | cons feedback rest ih =>
    rw [rewriteLoop] at h
    cases hsafe : isSafeCandidateText fullKey feedback.value with
    | false =>
      rw [hsafe, if_pos Bool.false_ne_true] at h
      obtain ⟨feedback', hchosen, hrewritten⟩ := ih h
      refine ⟨feedback', ?_, hrewritten⟩
      rw [chosenFeedback, List.find?_cons_of_neg (by rw [hsafe]; exact Bool.false_ne_true)]
      exact hchosen
    | true =>
      rw [hsafe, if_neg (not_not_intro rfl)] at h
      by_cases htop : feedback.value = base.value
      · rw [if_pos htop] at h
        obtain ⟨feedback', hchosen, hrewritten⟩ := ih h
        refine ⟨feedback', ?_, hrewritten⟩
        rw [chosenFeedback, List.find?_cons_of_neg (by rw [htop]; simp)]
        exact hchosen
      · rw [if_neg htop] at h
        refine ⟨feedback, ?_, ?_⟩
        · rw [chosenFeedback, List.find?_cons_of_pos (by rw [hsafe]; simpa using htop)]
        · cases hfound : findCandidateByValue candidates feedback.value with
          | none =>
            rw [hfound] at h
            obtain ⟨synthetic, hsynthetic⟩ : ∃ synthetic, applyFeedbackCost feedback
              (fillSyntheticCandidate id base fullKey feedback.value) = synthetic := ⟨_, rfl⟩
            have hvalue : synthetic.value = feedback.value := by rw [← hsynthetic]; rfl
            have hpos : findSyntheticInsertPosition candidates synthetic.cost
                ≤ candidates.length := List.countP_le_length
            have hinsert := insertCandidate_eq synthetic hpos
            simp only [hsynthetic, hinsert, Option.map_some, Option.some.injEq] at h
            rw [← h]
            exact .insert synthetic _ hfound hvalue (placed_mark synthetic hpos)
          | some pos =>
            obtain ⟨c, hc, hvalue⟩ := value_of_found hfound
            rw [hfound] at h
            cases pos with
            | zero =>
              rw [List.head?_eq_getElem?, hc] at hbase
              cases hbase
              exact absurd hvalue.symm htop
            | succ k =>
              dsimp only at h
              have hget := getElem?_modify_self (applyFeedbackCost feedback) hc
              have herase := eraseIdx_modify_self (applyFeedbackCost feedback) hc
              have hle : ((candidates.eraseIdx (k + 1)).countP fun d =>
                  d.cost ≤ (applyFeedbackCost feedback c).cost)
                    ≤ (candidates.eraseIdx (k + 1)).length := List.countP_le_length
              have hlt := (List.getElem?_eq_some_iff.mp hc).1
              have hlength := List.length_eraseIdx_of_lt hlt
              have hpos : findMovePosition
                  (candidates.modify (k + 1) (applyFeedbackCost feedback)) (k + 1)
                  (applyFeedbackCost feedback c).cost
                    = (candidates.eraseIdx (k + 1)).countP fun d =>
                      d.cost ≤ (applyFeedbackCost feedback c).cost := by
                rw [findMovePosition, herase, List.length_modify]
                omega
              rw [hget, Option.map_some, Option.getD_some, hpos,
                moveCandidate_eq hget (by rw [List.length_modify]; omega), herase] at h
              rw [← Option.some.inj h]
              exact .move _ c hfound hc (placed_mark _ hle)

theorem Placed.values {c : Candidate} {rest : List Candidate} (h : Placed c rest candidates pos) :
    (candidates.map Candidate.value).Perm (c.value :: rest.map Candidate.value) := by
  have hperm := h.perm.map Candidate.value
  rwa [List.map_map, List.map_map, List.map_cons] at hperm

/-- **A REWRITE PROMOTES** exactly if few others are as cheap. -/
theorem Rewritten.promotes {feedback : ZenzFeedbackCandidate} {old new : List Candidate}
    (hids : (old.map Candidate.id).Nodup) (h : Rewritten feedback old new) :
    Promotes feedback.value old new ↔ FewAsCheap feedback old := by
  cases h with
  | insert c pos hnone hvalue hplaced =>
    refine iff_of_true (Or.inr ⟨pos, hplaced.others, ?_, ?_⟩) ?_
    · obtain ⟨c', hc', hsame, hbest⟩ := hplaced.placed
      refine ⟨c', hc', ?_, hbest⟩
      show c'.unmarked.value = feedback.value
      rw [hsame]
      exact hvalue
    · intro v
      rw [hplaced.values.count_eq, hvalue]
    · intro pos' c' hfound
      rw [hnone] at hfound
      cases hfound
  | move pos c hfound hc hplaced =>
    have hfew : FewAsCheap feedback old ↔ ((old.eraseIdx pos).countP fun d =>
        d.cost ≤ (applyFeedbackCost feedback c).cost) ≤ pos := by
      constructor
      · exact fun hall => hall pos c hfound hc
      · intro hle pos' c' hfound' hc'
        rw [hfound] at hfound'
        cases hfound'
        rw [hc] at hc'
        cases hc'
        exact hle
    rw [hfew]
    obtain ⟨newPos, hnewPos⟩ : ∃ n, ((old.eraseIdx pos).countP fun d =>
        d.cost ≤ (applyFeedbackCost feedback c).cost) = n := ⟨_, rfl⟩
    rw [hnewPos] at hplaced ⊢
    obtain ⟨before, after, hold, hbefore⟩ := exists_around hc
    have herase : old.eraseIdx pos = before ++ after := by
      rw [hold, ← hbefore, List.eraseIdx_append_of_length_le le_rfl, Nat.sub_self]
      rfl
    have hperm : (new.map Candidate.unmarked).Perm
        ((applyFeedbackCost feedback c :: (before ++ after)).map Candidate.unmarked) :=
      herase ▸ hplaced.perm
    obtain ⟨c', hc', hsame, hbest⟩ := hplaced.placed
    have hid : c'.id = c.id := by
      show c'.unmarked.id = (applyFeedbackCost feedback c).unmarked.id
      rw [hsame]
    have hvalue : c'.value = c.value := by
      show c'.unmarked.value = (applyFeedbackCost feedback c).unmarked.value
      rw [hsame]
    obtain ⟨d, hd, hdvalue⟩ := value_of_found hfound
    rw [hc] at hd
    cases hd
    constructor
    · rintro (⟨oldPos, newPos', hmoves⟩ | ⟨newPos', hinserts⟩)
      · -- the candidate is in one place only
        have holdPos := hmoves.found
        rw [hfound] at holdPos
        cases holdPos
        obtain ⟨e, e', he, he', heid, -⟩ := hmoves.moved
        rw [hc] at he
        cases he
        have hnodup : (new.map Candidate.id).Nodup := by
          have hids' := hperm.map Candidate.id
          rw [List.map_map, List.map_map] at hids'
          refine hids'.nodup_iff.mpr ?_
          rw [hold, List.map_append, List.map_cons] at hids
          rw [List.map_cons, List.map_append]
          exact (List.perm_middle.nodup_iff).mp hids
        have hsamePos : newPos' = newPos := by
          have hget : (new.map Candidate.id)[newPos']? = (new.map Candidate.id)[newPos]? := by
            rw [List.getElem?_map, List.getElem?_map, he', hc', Option.map_some, Option.map_some,
              heid, hid]
          refine (List.getElem?_inj ?_ hnodup).mp hget
          rw [List.length_map]
          exact (List.getElem?_eq_some_iff.mp he').1
        rw [← hsamePos]
        exact hmoves.le
      · -- nothing is inserted
        have hlength := hinserts.others.length_eq
        obtain ⟨e, he, -⟩ := hinserts.inserted
        rw [List.length_eraseIdx_of_lt (List.getElem?_eq_some_iff.mp he).1] at hlength
        have hpermLength := hperm.length_eq
        rw [List.length_map, List.length_map, List.length_cons, List.length_append] at hpermLength
        rw [hold, List.length_append, List.length_cons] at hlength
        omega
    · intro hle
      refine Or.inl ⟨pos, newPos, hfound, hle, hplaced.others,
        ⟨c, c', hc, hc', hid, hvalue.trans hdvalue, hbest⟩, ?_⟩
      intro v
      have hvalues := hperm.map Candidate.value
      rw [List.map_map, List.map_map] at hvalues
      have hmiddle : (old.map Candidate.value).Perm
          (c.value :: (before ++ after).map Candidate.value) := by
        rw [hold, List.map_append, List.map_cons, List.map_append]
        exact List.perm_middle
      rw [hmiddle.count_eq]
      exact (hvalues.count_eq v).le

/-- **FEEDBACK NEVER DEMOTES** exactly if no more candidates cost as little as the promoted one
    than stood before it. -/
theorem promotes_iff (options : FeedbackOptions) (id : Nat) (ranked : List ZenzFeedbackCandidate)
    (segment : CandidateList) (hids : (segment.candidates.map Candidate.id).Nodup)
    (segments' : List CandidateList) (h : rewrite options id ranked [segment] = some segments') :
    ∃ base feedback candidates, segment.candidates.head? = some base ∧
      chosenFeedback segment.key base.value ranked = some feedback ∧
      segments' = [{ segment with candidates }] ∧
      (Promotes feedback.value segment.candidates candidates ↔
        FewAsCheap feedback segment.candidates) := by
  rw [rewrite] at h
  split at h
  · cases h
  · split at h
    · cases h
    · split at h
      · cases h
      · rename_i base rest hcandidates
        split at h
        · cases h
        · obtain ⟨candidates, hloop, rfl⟩ := Option.map_eq_some_iff.mp h
          have hhead : segment.candidates.head? = some base := by
            rw [hcandidates]
            rfl
          obtain ⟨feedback, hchosen, hrewritten⟩ := rewriteLoop_spec hhead ranked hloop
          exact ⟨base, feedback, candidates, hhead, hchosen, rfl, hrewritten.promotes hids⟩

/-! ## Two rewrites -/

/-- A candidate with a value of one letter and a cost. -/
def letterCandidate (id : Nat) (letter : UInt8) (cost : Int) : Candidate :=
  ⟨id, [letter, letter], [letter, letter], [letter], [letter], cost, cost, 0, [], [], [], []⟩

/-- Feedback for `b`. -/
def feedbackB : ZenzFeedbackCandidate := { value := [0x62], totalScore := 200 }

/-- Options that let feedback be used. -/
def feedbackOptions : FeedbackOptions := ⟨true, true, false, true, .defaultHistory⟩

/-- Among candidates in the order of their costs b is promoted. -/
theorem promotes_sorted : Promotes [0x62]
    [letterCandidate 0 0x61 0, letterCandidate 1 0x63 450, letterCandidate 2 0x62 500]
    [letterCandidate 0 0x61 0,
      { letterCandidate 2 0x62 400 with attributes := kReranked ||| kUserSegmentHistoryRewriter },
      letterCandidate 1 0x63 450] := by
  obtain ⟨base, feedback, candidates, hbase, hchosen, hsegments, hiff⟩ :=
    promotes_iff feedbackOptions 3 [feedbackB] ⟨[0x61, 0x61], [letterCandidate 0 0x61 0,
      letterCandidate 1 0x63 450, letterCandidate 2 0x62 500]⟩ (by decide) _ rfl
  cases hbase
  cases (show some feedbackB = some feedback from hchosen)
  cases hsegments
  refine hiff.mpr ?_
  intro pos c hfound hc
  cases (show some 2 = some pos from hfound)
  cases hc
  decide

/-- A cheap candidate behind b draws b behind itself. -/
theorem promotion_demotes :
    rewrite feedbackOptions 3 [feedbackB] [⟨[0x61, 0x61], [letterCandidate 0 0x61 0,
        letterCandidate 1 0x62 500, letterCandidate 2 0x63 0]⟩]
      = some [⟨[0x61, 0x61], [letterCandidate 0 0x61 0, letterCandidate 2 0x63 0,
        { letterCandidate 1 0x62 400 with
          attributes := kReranked ||| kUserSegmentHistoryRewriter }]⟩] ∧
    ¬ Promotes [0x62] [letterCandidate 0 0x61 0, letterCandidate 1 0x62 500,
        letterCandidate 2 0x63 0]
      [letterCandidate 0 0x61 0, letterCandidate 2 0x63 0,
        { letterCandidate 1 0x62 400 with
          attributes := kReranked ||| kUserSegmentHistoryRewriter }] := by
  refine ⟨rfl, ?_⟩
  rintro (⟨oldPos, newPos, hmoves⟩ | ⟨newPos, hinserts⟩)
  · have hle := hmoves.le
    cases (show some 1 = some oldPos from hmoves.found)
    obtain ⟨c, c', hc, hc', hid, -⟩ := hmoves.moved
    cases hc
    interval_cases newPos
    · cases hc'
      cases hid
    · cases hc'
      cases hid
  · have hlength := hinserts.others.length_eq
    obtain ⟨c', hc', -⟩ := hinserts.inserted
    rw [List.length_eraseIdx_of_lt (List.getElem?_eq_some_iff.mp hc').1] at hlength
    cases hlength

end MozkeyRewriter
