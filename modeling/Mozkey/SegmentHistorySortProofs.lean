import Mozkey.FeedbackCandidateProofs
import Mozkey.SegmentHistoryProofs

/-! # UserSegmentHistoryRewriter — the learned candidates go to the front

    The candidates with the best scores are promoted one after the other, each behind those that
    have been promoted before.  A candidate is looked up by its value; meta candidates and
    candidates whose character form changes are copied. -/

namespace MozkeySegmentHistory

open ByteString
open MozkeyLru (LruStorage)

/-! ## The source -/

/-- `Attribute::NO_EXTRA_DESCRIPTION`. -/
def kNoExtraDescription : BitVec 32 := 1#32 <<< 7

/-- `Config::CharacterForm`, as far as it is asked for. -/
inductive CharacterForm where
  | fullWidth | halfWidth | other
  deriving DecidableEq

/-- `CharacterFormManager` and `VariantsRewriter::GetDescription`. -/
structure Forms where
  convertConversionString : Bytes → Bytes
  conversionCharacterForm : Bytes → CharacterForm
  getDescription : Candidate → Bytes

/-- `GetSameValueCandidatePosition`. -/
def getSameValueCandidatePosition (candidates metaCandidates : List Candidate) (value : Bytes) :
    Option Int :=
  match candidates.findIdx? (·.value = value) with
  | some i => some i
  | none => (metaCandidates.findIdx? (·.value = value)).map fun i : Nat => -(i : Int) - 1

/-- `insert_candidate`, with the new object. -/
def insertCandidate (i : Nat) (c : Candidate) (candidates : List Candidate) : List Candidate :=
  candidates.take (min i candidates.length) ++ c :: candidates.drop (min i candidates.length)

/-- The loop of `SortCandidates`; `nextId` is the next new object. -/
structure SortState where
  candidates : List Candidate
  nextId : Nat
  nextPos : Nat
  seen : List Bytes

/-- `move_candidate` to the next position; the object of a meta candidate is a new one. -/
def SortState.move (s : SortState) (metaCandidates : List Candidate) (oldIdx : Int) :
    Option SortState :=
  if oldIdx < 0 then do
    let c ← metaCandidates[(-oldIdx - 1).toNat]?
    some { s with
      candidates := insertCandidate s.nextPos { c with id := s.nextId } s.candidates
      nextId := s.nextId + 1 }
  else
    some { s with candidates := MozkeyRewriter.moveCandidate oldIdx.toNat s.nextPos s.candidates }

/-- A value is promoted to the next position. -/
def SortState.promoted (s : SortState) (value : Bytes) : SortState :=
  { s with nextPos := s.nextPos + 1, seen := value :: s.seen }

/-- The copy of a candidate with its normalized value. -/
def normalizedCopy (forms : Forms) (preserveCandidateForm : Bool) (id : Nat) (value : Bytes)
    (c : Candidate) : Candidate :=
  let copy := { c with
    id := id
    value := value
    contentValue :=
      if preserveCandidateForm then c.contentValue else forms.convertConversionString c.contentValue
    description := [] }
  { copy with
    description := forms.getDescription copy
    attributes := copy.attributes ||| kNoExtraDescription }

/-- Promoting needs these; `normalize` stands for `NormalizeCandidate`. -/
structure Sorter where
  forms : Forms
  preserveCandidateForm : Bool
  normalize : List Candidate → Candidate → Bytes

/-- A candidate with another form: one that has it already is moved, or a copy is inserted. -/
def SortState.promoteNormalized (s : SortState) (sorter : Sorter) (metaCandidates : List Candidate)
    (candidate : Candidate) (normalizedValue : Bytes) : Option SortState :=
  match s.candidates.findIdx? (·.value = normalizedValue) with
  | some pos =>
    if normalizedValue ∉ s.seen then
      (s.move metaCandidates pos).map fun s => s.promoted normalizedValue
    else some s
  | none =>
    let copy := normalizedCopy sorter.forms sorter.preserveCandidateForm s.nextId normalizedValue
      candidate
    some ({ s with
      candidates := insertCandidate s.nextPos copy s.candidates
      nextId := s.nextId + 1 }.promoted normalizedValue)

/-- A candidate that is in its form already. -/
def SortState.promoteSame (s : SortState) (metaCandidates : List Candidate) (oldPosition : Int)
    (value : Bytes) : Option SortState :=
  if value ∉ s.seen then (s.move metaCandidates oldPosition).map fun s => s.promoted value
  else some s

/-- A round of the loop of `SortCandidates`; `none` where it returns false. -/
def sortStep (sorter : Sorter) (metaCandidates : List Candidate) (candidate : Candidate)
    (s : SortState) : Option SortState := do
  let oldPosition ← getSameValueCandidatePosition s.candidates metaCandidates candidate.value
  let old ← if oldPosition < 0 then metaCandidates[(-oldPosition - 1).toNat]?
    else s.candidates[oldPosition.toNat]?
  let normalizedValue := sorter.normalize s.candidates old
  if normalizedValue ≠ candidate.value then
    s.promoteNormalized sorter metaCandidates candidate normalizedValue
  else s.promoteSame metaCandidates oldPosition candidate.value

/-- What an insertion is worth. -/
def kScoreGap : UInt32 := 20

/-- The loop of `SortCandidates`. -/
def sortLoop (sorter : Sorter) (metaCandidates : List Candidate) (topScore : UInt32) :
    List ScoreCandidate → SortState → Option SortState
  | [], s => some s
  | score :: rest, s =>
    if kScoreGap < topScore - score.score then some s
    else do sortLoop sorter metaCandidates topScore rest (← sortStep sorter metaCandidates
      score.candidate s)

/-- `SortCandidates`: the candidates of the segment then; `nextId` is its next new object. -/
def sortCandidates (sorter : Sorter) (sortedScores : List ScoreCandidate) (segment : Segment)
    (nextId : Nat) : Option (List Candidate) := do
  let top ← sortedScores.head?
  let s ← sortLoop sorter segment.metaCandidates top.score (sortedScores.take kMaxRerankSize)
    ⟨segment.candidates, nextId, 0, []⟩
  some s.candidates

/-! ## What is promoted -/

/-- The copies that are made: of meta candidates, and of scored candidates with another value. -/
inductive IsCopy (sorter : Sorter) (metaCandidates : List Candidate)
    (forms : List (ScoreCandidate × Bytes)) : Candidate → Prop where
  | ofMeta (id : Nat) {c : Candidate} (h : c ∈ metaCandidates) :
      IsCopy sorter metaCandidates forms { c with id := id }
  | normalized (id : Nat) {form : ScoreCandidate × Bytes} (h : form ∈ forms) :
      IsCopy sorter metaCandidates forms
        (normalizedCopy sorter.forms sorter.preserveCandidateForm id form.2 form.1.candidate)

/-- The value that a candidate is promoted with: the first candidate that has its value then,
    normalized.  The list then has the old candidates and the copies that were made before. -/
def IsForm (sorter : Sorter) (metaCandidates old copies : List Candidate) (c : Candidate)
    (value : Bytes) : Prop :=
  ∃ now earlier found, earlier <:+ copies ∧ now.Perm (old ++ earlier) ∧
    (now ++ metaCandidates).find? (·.value = c.value) = some found ∧
    value = sorter.normalize now found

/-- The values that are promoted, each for the first of the scores that have it. -/
def promotions (forms : List (ScoreCandidate × Bytes)) : List (ScoreCandidate × Bytes) :=
  forms.foldl (fun front p => if p.2 ∈ front.map Prod.snd then front else front ++ [p]) []

/-- The scores that are looked at: those of the first five that are close to the best. -/
def closeScores (scores : List ScoreCandidate) : List ScoreCandidate :=
  (scores.take kMaxRerankSize).takeWhile fun score =>
    ∀ top ∈ scores.head?, ¬kScoreGap < top.score - score.score

/-- The list after the promotions: what stands in front, with the scores it is there for, and the
    rest.  `forms` has the scores with the values to promote. -/
structure Promoted (sorter : Sorter) (metaCandidates old : List Candidate) (firstId : Nat)
    (forms : List (ScoreCandidate × Bytes)) (front : List (ScoreCandidate × Candidate))
    (rest copies candidates : List Candidate) : Prop where
  split : candidates = front.map Prod.snd ++ rest
  isForm : ∀ form ∈ forms, IsForm sorter metaCandidates old copies form.1.candidate form.2
  ofForms : front.map (fun p => (p.1, p.2.value)) = promotions forms
  kept : rest.Sublist old
  perm : candidates.Perm (old ++ copies)
  copied : ∀ c ∈ copies, firstId ≤ c.id ∧ IsCopy sorter metaCandidates forms c

section Promotions

variable {forms : List (ScoreCandidate × Bytes)}

theorem promotions_concat (forms : List (ScoreCandidate × Bytes)) (p : ScoreCandidate × Bytes) :
    promotions (forms ++ [p]) =
      if p.2 ∈ (promotions forms).map Prod.snd then promotions forms
      else promotions forms ++ [p] := by
  rw [promotions, List.foldl_append]
  rfl

theorem promotions_sublist (forms : List (ScoreCandidate × Bytes)) :
    (promotions forms).Sublist forms := by
  induction forms using List.reverseRecOn with
  | nil => exact List.Sublist.refl _
  | append_singleton forms p ih =>
    rw [promotions_concat]
    split_ifs
    · exact ih.trans (List.sublist_append_left _ _)
    · exact ih.append (List.Sublist.refl _)

theorem nodup_promotions (forms : List (ScoreCandidate × Bytes)) :
    ((promotions forms).map Prod.snd).Nodup := by
  induction forms using List.reverseRecOn with
  | nil => exact List.nodup_nil
  | append_singleton forms p ih =>
    rw [promotions_concat]
    split_ifs with hmem
    · exact ih
    · rw [List.map_append, List.nodup_append']
      exact ⟨ih, List.nodup_singleton _, List.disjoint_singleton.mpr hmem⟩

theorem promotions_ne_nil (hne : forms ≠ []) : promotions forms ≠ [] := by
  obtain ⟨before, p, rfl⟩ := List.eq_nil_or_concat' forms |>.resolve_left hne
  rw [promotions_concat]
  split_ifs with hmem
  · intro hnil
    rw [hnil] at hmem
    exact absurd hmem List.not_mem_nil
  · simp

end Promotions

variable {sorter : Sorter} {metaCandidates old front rest copies : List Candidate} {c : Candidate}
  {value : Bytes}

theorem IsForm.mono {copies' : List Candidate}
    (h : IsForm sorter metaCandidates old copies c value) (hsuffix : copies <:+ copies') :
    IsForm sorter metaCandidates old copies' c value := by
  obtain ⟨now, earlier, found, hearlier, hnow, hfound, hvalue⟩ := h
  exact ⟨now, earlier, found, hearlier.trans hsuffix, hnow, hfound, hvalue⟩

theorem IsCopy.mono {forms forms' : List (ScoreCandidate × Bytes)}
    (h : IsCopy sorter metaCandidates forms c) (hsubset : forms ⊆ forms') :
    IsCopy sorter metaCandidates forms' c := by
  cases h with
  | ofMeta id h => exact .ofMeta id h
  | normalized id h => exact .normalized id (hsubset h)

/-- A candidate with a value that no candidate in front has is moved behind these. -/
theorem promote_spec {i : Nat} (hfind : (front ++ rest).findIdx? (·.value = value) = some i)
    (hfront : value ∉ front.map Candidate.value) :
    ∃ c before after, c.value = value ∧ rest = before ++ c :: after ∧
      MozkeyRewriter.moveCandidate i front.length (front ++ rest) =
        front ++ c :: (before ++ after) := by
  have hnone : front.findIdx? (·.value = value) = none := by
    rw [List.findIdx?_eq_none_iff]
    intro c hc
    refine decide_eq_false fun h => hfront ?_
    exact h ▸ List.mem_map_of_mem hc
  rw [List.findIdx?_append, hnone] at hfind
  simp only [Option.none_or, Option.map_eq_some_iff] at hfind
  obtain ⟨j, hj, rfl⟩ := hfind
  obtain ⟨hlt, hvalue, -⟩ := List.findIdx?_eq_some_iff_getElem.mp hj
  obtain ⟨c, hc⟩ : ∃ c, rest[j] = c := ⟨_, rfl⟩
  rw [hc] at hvalue
  have hcget : rest[j]? = some c := hc ▸ List.getElem?_eq_getElem hlt
  obtain ⟨before, after, hrest, hlength⟩ := MozkeyRewriter.exists_around hcget
  refine ⟨c, before, after, of_decide_eq_true hvalue, hrest, ?_⟩
  have hget : (front ++ rest)[j + front.length]? = some c := by
    rw [List.getElem?_append_right (Nat.le_add_left _ _), Nat.add_sub_cancel, hcget]
  have herase : (front ++ rest).eraseIdx (j + front.length) = front ++ (before ++ after) := by
    rw [List.eraseIdx_append_of_length_le (Nat.le_add_left _ _), Nat.add_sub_cancel, hrest,
      ← hlength, List.eraseIdx_append_of_length_le le_rfl, Nat.sub_self]
    rfl
  rw [MozkeyRewriter.moveCandidate_eq hget (by rw [List.length_append]; omega), herase,
    List.take_left, List.drop_left]

theorem insert_spec (c : Candidate) :
    insertCandidate front.length c (front ++ rest) = front ++ c :: rest := by
  have hmin : min front.length (front ++ rest).length = front.length := by simp
  rw [insertCandidate, hmin, List.take_left, List.drop_left]

variable {nextId firstId : Nat} {score : ScoreCandidate} {s : SortState}
  {forms : List (ScoreCandidate × Bytes)} {front : List (ScoreCandidate × Candidate)}

/-- What the loop keeps. -/
structure SortInvariant (sorter : Sorter) (metaCandidates old : List Candidate) (firstId : Nat)
    (forms : List (ScoreCandidate × Bytes)) (front : List (ScoreCandidate × Candidate))
    (rest copies : List Candidate) (s : SortState) : Prop extends
    Promoted sorter metaCandidates old firstId forms front rest copies s.candidates where
  nextPos : s.nextPos = front.length
  seen : ∀ value, value ∈ s.seen ↔ value ∈ front.map fun p => p.2.value
  nextId : firstId ≤ s.nextId

theorem SortInvariant.start (candidates : List Candidate) (nextId : Nat) :
    SortInvariant sorter metaCandidates candidates nextId [] [] candidates []
      ⟨candidates, nextId, 0, []⟩ where
  split := rfl
  isForm := fun _ h => absurd h List.not_mem_nil
  ofForms := rfl
  kept := List.Sublist.refl _
  perm := by rw [List.append_nil]
  copied := fun _ h => absurd h List.not_mem_nil
  nextPos := rfl
  seen := fun _ => by simp
  nextId := le_rfl

/-- The values in front are those that have been seen. -/
theorem SortInvariant.mem_seen
    (h : SortInvariant sorter metaCandidates old firstId forms front rest copies s)
    (value : Bytes) : value ∈ s.seen ↔ value ∈ (promotions forms).map Prod.snd := by
  rw [h.seen, ← h.ofForms, List.map_map]
  rfl

theorem SortInvariant.skip
    (h : SortInvariant sorter metaCandidates old firstId forms front rest copies s)
    (hform : IsForm sorter metaCandidates old copies score.candidate value)
    (hseen : value ∈ s.seen) :
    SortInvariant sorter metaCandidates old firstId (forms ++ [(score, value)]) front rest copies
      s := by
  refine { h with isForm := ?_, ofForms := ?_, copied := ?_ }
  · rw [List.forall_mem_append, List.forall_mem_singleton]
    exact ⟨h.isForm, hform⟩
  · rw [promotions_concat, if_pos ((h.mem_seen value).mp hseen)]
    exact h.ofForms
  · intro c hc
    obtain ⟨hid, hcopy⟩ := h.copied c hc
    exact ⟨hid, hcopy.mono (List.subset_append_left _ _)⟩

theorem SortInvariant.promote
    (h : SortInvariant sorter metaCandidates old firstId forms front rest copies s)
    (hform : IsForm sorter metaCandidates old copies score.candidate c.value)
    (hseen : c.value ∉ s.seen) {rest' copies' : List Candidate} {s' : SortState}
    (hsplit : s'.candidates = front.map Prod.snd ++ c :: rest') (hkept : rest'.Sublist old)
    (hperm : s'.candidates.Perm (old ++ copies')) (hsuffix : copies <:+ copies')
    (hcopied : ∀ d ∈ copies', firstId ≤ d.id ∧
      IsCopy sorter metaCandidates (forms ++ [(score, c.value)]) d)
    (hpos : s'.nextPos = s.nextPos) (hseen' : s'.seen = s.seen) (hid : s.nextId ≤ s'.nextId) :
    SortInvariant sorter metaCandidates old firstId (forms ++ [(score, c.value)])
      (front ++ [(score, c)]) rest' copies' (s'.promoted c.value) := by
  refine ⟨⟨?_, ?_, ?_, hkept, hperm, hcopied⟩, ?_, ?_, h.nextId.trans hid⟩
  · exact hsplit.trans (by simp)
  · rw [List.forall_mem_append, List.forall_mem_singleton]
    exact ⟨fun form hmem => (h.isForm form hmem).mono hsuffix, hform.mono hsuffix⟩
  · rw [promotions_concat, if_neg (mt (h.mem_seen _).mpr hseen), List.map_append, h.ofForms]
    rfl
  · show s'.nextPos + 1 = _
    rw [hpos, h.nextPos, List.length_append]
    rfl
  · intro v
    show v ∈ c.value :: s'.seen ↔ _
    rw [List.mem_cons, hseen', h.seen v, List.map_append, List.mem_append]
    simp [or_comm]

/-- **A CANDIDATE IS MOVED** to the others in front if its value is not among theirs. -/
theorem SortInvariant.move
    (h : SortInvariant sorter metaCandidates old firstId forms front rest copies s)
    (hform : IsForm sorter metaCandidates old copies score.candidate value) {i : Nat}
    (hfind : s.candidates.findIdx? (·.value = value) = some i) (hseen : value ∉ s.seen) :
    ∃ front rest s', s.move metaCandidates i = some s' ∧
      SortInvariant sorter metaCandidates old firstId (forms ++ [(score, value)]) front rest copies
        (s'.promoted value) := by
  have hfront : value ∉ (front.map Prod.snd).map Candidate.value := by
    rw [List.map_map]
    exact mt (h.seen value).mpr hseen
  rw [h.split] at hfind
  obtain ⟨c, before, after, rfl, hrest, hmove⟩ := promote_spec hfind hfront
  have hnext : s.nextPos = (front.map Prod.snd).length := by rw [h.nextPos, List.length_map]
  rw [← h.split, ← hnext] at hmove
  have hsublist : (before ++ after).Sublist rest := by
    rw [hrest]
    exact (List.Sublist.refl _).append (List.sublist_cons_self _ _)
  refine ⟨front ++ [(score, c)], before ++ after, _, if_neg (by omega), ?_⟩
  refine h.promote hform hseen hmove (hsublist.trans h.kept) ?_ (List.suffix_refl _) ?_ rfl rfl
    le_rfl
  · show (MozkeyRewriter.moveCandidate i s.nextPos s.candidates).Perm _
    rw [hmove]
    refine List.Perm.trans ?_ h.perm
    rw [h.split, hrest]
    exact List.perm_middle.symm.append_left _
  · intro d hd
    obtain ⟨hid, hcopy⟩ := h.copied d hd
    exact ⟨hid, hcopy.mono (List.subset_append_left _ _)⟩

/-- **A COPY IS INSERTED** behind the others in front. -/
theorem SortInvariant.insert
    (h : SortInvariant sorter metaCandidates old firstId forms front rest copies s)
    (hform : IsForm sorter metaCandidates old copies score.candidate value)
    (hvalue : c.value = value) (hid : c.id = s.nextId)
    (hcopy : IsCopy sorter metaCandidates (forms ++ [(score, value)]) c) (hseen : value ∉ s.seen) :
    SortInvariant sorter metaCandidates old firstId (forms ++ [(score, value)])
      (front ++ [(score, c)]) rest (c :: copies)
      ({ s with
        candidates := insertCandidate s.nextPos c s.candidates
        nextId := s.nextId + 1 }.promoted value) := by
  subst hvalue
  have hinsert : insertCandidate s.nextPos c s.candidates = front.map Prod.snd ++ c :: rest := by
    rw [h.nextPos, h.split, ← List.length_map Prod.snd, insert_spec]
  refine h.promote hform hseen hinsert h.kept ?_ (List.suffix_cons _ _) ?_ rfl rfl (Nat.le_succ _)
  · show (insertCandidate s.nextPos c s.candidates).Perm _
    rw [hinsert]
    refine List.perm_middle.trans (List.Perm.trans (List.Perm.cons c ?_) List.perm_middle.symm)
    rw [← h.split]
    exact h.perm
  · rw [List.forall_mem_cons]
    refine ⟨⟨hid ▸ h.nextId, hcopy⟩, fun d hd => ?_⟩
    obtain ⟨hid, hcopy⟩ := h.copied d hd
    exact ⟨hid, hcopy.mono (List.subset_append_left _ _)⟩

/-- Where a value is found: in the list, or among the meta candidates. -/
theorem getSameValueCandidatePosition_cases {candidates : List Candidate}
    (hmem : c ∈ candidates ∨ c ∈ metaCandidates) :
    ∃ d, (candidates ++ metaCandidates).find? (·.value = c.value) = some d ∧
      ((∃ i : Nat, candidates.findIdx? (·.value = c.value) = some i ∧ candidates[i]? = some d ∧
        getSameValueCandidatePosition candidates metaCandidates c.value = some (i : Int)) ∨
      (∃ i : Nat, metaCandidates[i]? = some d ∧ d.value = c.value ∧
        getSameValueCandidatePosition candidates metaCandidates c.value =
          some (-(i : Int) - 1))) := by
  rw [getSameValueCandidatePosition, List.find?_append]
  cases hfind : candidates.findIdx? (·.value = c.value) with
  | some i =>
    obtain ⟨hlt, hvalue, hfirst⟩ := List.findIdx?_eq_some_iff_getElem.mp hfind
    have hfind? : candidates.find? (·.value = c.value) = some candidates[i] :=
      List.find?_eq_some_iff_getElem.mpr
        ⟨hvalue, i, hlt, rfl, fun j hj => by simpa using hfirst j hj⟩
    exact ⟨candidates[i], by rw [hfind?]; rfl,
      Or.inl ⟨i, rfl, List.getElem?_eq_getElem hlt, rfl⟩⟩
  | none =>
    have hnone : ∀ d ∈ candidates, d.value ≠ c.value := by
      simpa using List.findIdx?_eq_none_iff.mp hfind
    have hmeta : c ∈ metaCandidates := hmem.resolve_left fun h => hnone c h rfl
    have hfind? : candidates.find? (·.value = c.value) = none := by
      simpa using hnone
    cases hfind' : metaCandidates.findIdx? (·.value = c.value) with
    | none => simpa using List.findIdx?_eq_none_iff.mp hfind' c hmeta
    | some i =>
      obtain ⟨hlt, hvalue, hfirst⟩ := List.findIdx?_eq_some_iff_getElem.mp hfind'
      have hfound : metaCandidates.find? (·.value = c.value) = some metaCandidates[i] :=
        List.find?_eq_some_iff_getElem.mpr
          ⟨hvalue, i, hlt, rfl, fun j hj => by simpa using hfirst j hj⟩
      exact ⟨metaCandidates[i], by rw [hfind?, hfound]; rfl,
        Or.inr ⟨i, List.getElem?_eq_getElem hlt, of_decide_eq_true hvalue, rfl⟩⟩

theorem SortInvariant.exists_of_seen
    (h : SortInvariant sorter metaCandidates old firstId forms front rest copies s)
    (hv : value ∈ s.seen) : ∃ d ∈ s.candidates, d.value = value := by
  obtain ⟨p, hpmem, hpv⟩ := List.mem_map.mp ((h.seen value).mp hv)
  refine ⟨p.2, ?_, hpv⟩
  rw [h.split]
  exact List.mem_append_left _ (List.mem_map_of_mem hpmem)

/-- The round after which the score has its value in front. -/
def Round (sorter : Sorter) (metaCandidates old : List Candidate) (firstId : Nat)
    (forms : List (ScoreCandidate × Bytes)) (round : Option SortState) : Prop :=
  ∃ front rest copies s, round = some s ∧
    SortInvariant sorter metaCandidates old firstId forms front rest copies s

theorem SortInvariant.promoteNormalized
    (h : SortInvariant sorter metaCandidates old firstId forms front rest copies s)
    (hform : IsForm sorter metaCandidates old copies score.candidate value) :
    Round sorter metaCandidates old firstId (forms ++ [(score, value)])
      (s.promoteNormalized sorter metaCandidates score.candidate value) := by
  rw [SortState.promoteNormalized]
  cases hfind : s.candidates.findIdx? (·.value = value) with
  | some i =>
    by_cases hv : value ∈ s.seen
    · exact ⟨front, rest, copies, s, if_neg (not_not_intro hv), h.skip hform hv⟩
    · obtain ⟨front', rest', s', hmove, hs'⟩ := h.move hform hfind hv
      refine ⟨front', rest', copies, s'.promoted value, ?_, hs'⟩
      dsimp only
      rw [if_pos hv, hmove]
      rfl
  | none =>
    have hv : value ∉ s.seen := by
      intro hv
      obtain ⟨d, hd, hdv⟩ := h.exists_of_seen hv
      exact absurd hdv (by simpa using List.findIdx?_eq_none_iff.mp hfind d hd)
    have hcopy : IsCopy sorter metaCandidates (forms ++ [(score, value)]) (normalizedCopy
        sorter.forms sorter.preserveCandidateForm s.nextId value score.candidate) :=
      .normalized s.nextId (List.mem_append_right forms (List.mem_singleton_self (score, value)))
    exact ⟨_, _, _, _, rfl, h.insert hform rfl rfl hcopy hv⟩

/-- **A ROUND**: the score has its value in front, and nothing else is promoted. -/
theorem SortInvariant.step
    (h : SortInvariant sorter metaCandidates old firstId forms front rest copies s)
    (hmem : score.candidate ∈ old ∨ score.candidate ∈ metaCandidates) :
    ∃ value, Round sorter metaCandidates old firstId (forms ++ [(score, value)])
      (sortStep sorter metaCandidates score.candidate s) := by
  have hmem' : score.candidate ∈ s.candidates ∨ score.candidate ∈ metaCandidates :=
    hmem.imp_left fun hold => h.perm.mem_iff.mpr (List.mem_append_left _ hold)
  obtain ⟨d, hfound, hwhere⟩ := getSameValueCandidatePosition_cases hmem'
  have hform : IsForm sorter metaCandidates old copies score.candidate
      (sorter.normalize s.candidates d) :=
    ⟨s.candidates, copies, d, List.suffix_refl _, h.perm, hfound, rfl⟩
  refine ⟨sorter.normalize s.candidates d, ?_⟩
  rcases hwhere with ⟨i, hfind, hget, hposition⟩ | ⟨i, hget, hvalue, hposition⟩
  · rw [sortStep, hposition]
    simp only [bind, Option.bind_some]
    rw [if_neg (by omega), Int.toNat_natCast, hget, Option.bind_some]
    by_cases hsame : sorter.normalize s.candidates d = score.candidate.value
    · rw [hsame] at hform ⊢
      rw [if_neg (not_not_intro rfl), SortState.promoteSame]
      by_cases hv : score.candidate.value ∈ s.seen
      · exact ⟨front, rest, copies, s, if_neg (not_not_intro hv), h.skip hform hv⟩
      · obtain ⟨front', rest', s', hmove, hs'⟩ := h.move hform hfind hv
        exact ⟨front', rest', copies, _, by rw [if_pos hv, hmove]; rfl, hs'⟩
    · rw [if_pos hsame]
      exact h.promoteNormalized hform
  · have hindex : (-(-(i : Int) - 1) - 1).toNat = i := by omega
    rw [sortStep, hposition]
    simp only [bind, Option.bind_some]
    rw [if_pos (by omega), hindex, hget, Option.bind_some]
    by_cases hsame : sorter.normalize s.candidates d = score.candidate.value
    · rw [hsame] at hform ⊢
      rw [if_neg (not_not_intro rfl), SortState.promoteSame]
      by_cases hv : score.candidate.value ∈ s.seen
      · exact ⟨front, rest, copies, s, if_neg (not_not_intro hv), h.skip hform hv⟩
      · have hmove : s.move metaCandidates (-(i : Int) - 1) = some { s with
            candidates := insertCandidate s.nextPos { d with id := s.nextId } s.candidates
            nextId := s.nextId + 1 } := by
          rw [SortState.move, if_pos (by omega), hindex, hget]
          rfl
        rw [if_pos hv, hmove]
        exact ⟨_, _, _, _, rfl, h.insert hform hvalue rfl
          (.ofMeta s.nextId (List.mem_of_getElem? hget)) hv⟩
    · rw [if_pos hsame]
      exact h.promoteNormalized hform

/-- **THE LOOP** promotes for the scores up to the first that is not close to the best. -/
theorem SortInvariant.loop (topScore : UInt32) (todo : List ScoreCandidate) :
    ∀ {forms : List (ScoreCandidate × Bytes)} {front : List (ScoreCandidate × Candidate)}
      {rest copies : List Candidate} {s : SortState},
      SortInvariant sorter metaCandidates old firstId forms front rest copies s →
      (∀ score ∈ todo, score.candidate ∈ old ∨ score.candidate ∈ metaCandidates) →
      ∃ done, done.map Prod.fst =
          todo.takeWhile (fun score => ¬kScoreGap < topScore - score.score) ∧
        Round sorter metaCandidates old firstId (forms ++ done)
          (sortLoop sorter metaCandidates topScore todo s) := by
  induction todo with
  | nil =>
    intro forms front rest copies s h _
    exact ⟨[], rfl, front, rest, copies, s, rfl, by rwa [List.append_nil]⟩
  | cons score todo ih =>
    intro forms front rest copies s h hmem
    rw [List.forall_mem_cons] at hmem
    rw [sortLoop]
    split_ifs with hgap
    · exact ⟨[], by simp [hgap], front, rest, copies, s, rfl, by rwa [List.append_nil]⟩
    · obtain ⟨value, front₁, rest₁, copies₁, s₁, hstep, h₁⟩ := h.step hmem.1
      obtain ⟨done, hdone, hround⟩ := ih h₁ hmem.2
      refine ⟨(score, value) :: done, ?_, ?_⟩
      · rw [List.takeWhile_cons_of_pos (by simpa using hgap), ← hdone]
        rfl
      · rw [hstep]
        simpa using hround

/-- The result of sorting: each of the scores that are close to the best has its value in front,
    the first score with a value first, and behind them are the other candidates. -/
def Sorted (sorter : Sorter) (metaCandidates old : List Candidate) (firstId : Nat)
    (scores : List ScoreCandidate) (candidates : List Candidate) : Prop :=
  ∃ forms front rest copies,
    Promoted sorter metaCandidates old firstId forms front rest copies candidates ∧
    forms.map Prod.fst = closeScores scores ∧ front ≠ [] ∧ front.length ≤ 5 ∧
    (front.map fun p => p.2.value).Nodup ∧
    (front.map Prod.fst).Pairwise fun a b => b.toScore.gt a.toScore = false

/-- **NO CANDIDATE IS LOST**: between one and five are promoted, each for a score, and the others
    stay in their order. -/
theorem sortCandidates_sorted (sorter : Sorter) (segment : Segment) (nextId : Nat)
    {scores : List ScoreCandidate} (hne : scores ≠ [])
    (hsorted : scores.Pairwise fun a b => b.toScore.gt a.toScore = false)
    (hmem : ∀ score ∈ scores,
      score.candidate ∈ segment.candidates ∨ score.candidate ∈ segment.metaCandidates) :
    ∃ candidates, sortCandidates sorter scores segment nextId = some candidates ∧
      Sorted sorter segment.metaCandidates segment.candidates nextId scores candidates := by
  obtain ⟨top, tail, rfl⟩ := List.exists_cons_of_ne_nil hne
  have hstart : SortInvariant sorter segment.metaCandidates segment.candidates nextId [] []
      segment.candidates [] ⟨segment.candidates, nextId, 0, []⟩ := .start _ _
  obtain ⟨forms, hforms, front, rest, copies, s, hloop, h⟩ := hstart.loop top.score
    ((top :: tail).take kMaxRerankSize) fun score hscore => hmem score (List.mem_of_mem_take hscore)
  rw [List.nil_append] at h
  have hclose : forms.map Prod.fst = closeScores (top :: tail) := by
    rw [hforms, closeScores]
    simp
  have hfst : front.map Prod.fst = (promotions forms).map Prod.fst := by
    rw [← h.ofForms, List.map_map]
    rfl
  have hsublist : (front.map Prod.fst).Sublist ((top :: tail).take kMaxRerankSize) := by
    rw [hfst]
    refine ((promotions_sublist forms).map _).trans ?_
    rw [hforms]
    exact List.takeWhile_sublist _
  refine ⟨s.candidates, ?_, forms, front, rest, copies, h.toPromoted, hclose, ?_, ?_, ?_, ?_⟩
  · rw [sortCandidates]
    simp only [List.head?_cons, bind, Option.bind_some]
    rw [hloop]
    rfl
  · intro hnil
    have hne : forms ≠ [] := by
      intro hforms'
      rw [hforms'] at hclose
      simp [closeScores, kMaxRerankSize, kScoreGap] at hclose
    exact promotions_ne_nil hne (by rw [← h.ofForms, hnil]; rfl)
  · have hlength := hsublist.length_le
    rw [List.length_map] at hlength
    exact hlength.trans (List.length_take_le _ _)
  · have hnodup := nodup_promotions forms
    rw [← h.ofForms, List.map_map] at hnodup
    exact hnodup
  · exact hsorted.sublist (hsublist.trans (List.take_sublist _ _))

/-- Three candidates, of which the third has been learned best, and a meta candidate. -/
def learnedThird : Segment where
  segmentType := .free
  key := ascii "a"
  candidates := [⟨0, ascii "a", ascii "a", ascii "a", ascii "a", [], 0, 0, 0, 0⟩,
    ⟨1, ascii "a", ascii "b", ascii "a", ascii "b", [], 0, 0, 0, 0⟩,
    ⟨2, ascii "a", ascii "A", ascii "a", ascii "A", [], 0, 0, 0, 0⟩]
  metaCandidates := [⟨3, ascii "a", ascii "B", ascii "a", ascii "B", [], 0, 0, 0, 0⟩]

/-- The scores of the third candidate, of the meta candidate and of the first candidate. -/
def learnedScores : List ScoreCandidate :=
  [⟨⟨36, 9⟩, learnedThird.candidates[2]⟩, ⟨⟨30, 8⟩, learnedThird.metaCandidates[0]⟩,
    ⟨⟨20, 7⟩, learnedThird.candidates[0]⟩]

/-- A sorter whose forms of `a` are `c`. -/
def fromAToC : Sorter where
  forms := ⟨id, fun _ => .other, Candidate.description⟩
  preserveCandidateForm := false
  normalize := fun _ c => if c.value = ascii "a" then ascii "c" else c.value

/-- The third candidate has been learned. -/
theorem learnedThird_sorted :
    ∃ candidates, sortCandidates fromAToC learnedScores learnedThird 4 = some candidates ∧
      Sorted fromAToC learnedThird.metaCandidates learnedThird.candidates 4 learnedScores
        candidates :=
  sortCandidates_sorted fromAToC learnedThird 4 (List.cons_ne_nil _ _)
    (by simp [learnedScores, Score.gt]) (by simp [learnedScores, learnedThird])

/-- The third candidate, the meta candidate and the form of the first one come in front. -/
example : (sortCandidates fromAToC learnedScores learnedThird 4).map (List.map Candidate.value) =
    some [ascii "A", ascii "B", ascii "c", ascii "a", ascii "b"] := by decide

end MozkeySegmentHistory
