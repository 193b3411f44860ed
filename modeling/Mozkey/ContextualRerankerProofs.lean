import Mozkey.OptionListProofs
import Mozkey.SegmentsProofs
import Mozkey.Utf8Proofs

/-! # ContextualCandidateReranker — particles after a noun

    After a conversion, segments whose key is a particle, a compound particle or an
    expression with しか are sorted again: candidates that keep the expression in kana get a
    bonus, the others a penalty, and where another candidate is then first, the whole list
    takes the new order.  The three passes differ in their keys, in the context they ask for
    and in what they call functional. -/

namespace MozkeyReranker

open ByteString MozkeyUtil OptionList
open MozkeyConverter (SegmentType)

/-! ## Text -/

/-- `Util::ScriptType`. -/
inductive ScriptType where
  | unknownScript | katakana | hiragana | kanji | number | alphabet | emoji
  deriving DecidableEq

/-- Is a code point in a closed range? -/
def inRange (c first last : Nat) : Bool := decide (first ≤ c ∧ c ≤ last)

/-- `Util::GetScriptType`. -/
def getScriptType (c : Nat) : ScriptType :=
  if inRange c 0x0030 0x0039 || inRange c 0xFF10 0xFF19 then .number
  else if inRange c 0x0041 0x005A || inRange c 0x0061 0x007A || inRange c 0xFF21 0xFF3A ||
      inRange c 0xFF41 0xFF5A then .alphabet
  else if c == 0x3005 || inRange c 0x3400 0x4DBF || inRange c 0x4E00 0x9FFF ||
      inRange c 0xF900 0xFAFF || inRange c 0x20000 0x2A6DF || inRange c 0x2A700 0x2B73F ||
      inRange c 0x2B740 0x2B81F || inRange c 0x2F800 0x2FA1F then .kanji
  else if inRange c 0x3041 0x309F || c == 0x1B001 then .hiragana
  else if inRange c 0x30A1 0x30FF || inRange c 0x31F0 0x31FF || inRange c 0xFF65 0xFF9F ||
      c == 0x1B000 then .katakana
  else if inRange c 0x02300 0x023F3 || inRange c 0x02700 0x027BF || inRange c 0x1F000 0x1F02F ||
      inRange c 0x1F030 0x1F09F || inRange c 0x1F0A0 0x1F0FF || inRange c 0x1F100 0x1F2FF ||
      inRange c 0x1F200 0x1F2FF || inRange c 0x1F300 0x1F5FF || inRange c 0x1F600 0x1F64F ||
      inRange c 0x1F680 0x1F6FF || inRange c 0x1F700 0x1F77F || c == 0x26CE then .emoji
  else .unknownScript

/-- Does a text have a character of a script? -/
def containsScriptType (text : Bytes) (type : ScriptType) : Bool :=
  (chars32 text).any (fun c => getScriptType c == type)

/-- Does a text have a kanji? -/
def containsKanji (text : Bytes) : Bool := containsScriptType text .kanji

/-- Does a text have katakana? -/
def containsKatakana (text : Bytes) : Bool := containsScriptType text .katakana

/-- Does a text have a number? -/
def containsNumber (text : Bytes) : Bool := containsScriptType text .number

/-- Is a text hiragana throughout, and not empty? -/
def isPureHiragana (text : Bytes) : Bool :=
  !text.isEmpty && (chars32 text).all (fun c => getScriptType c == .hiragana)

/-- Is a text of ASCII letters, digits and some symbols? -/
def isAsciiOrSymbolLike (text : Bytes) : Bool :=
  !text.isEmpty && (chars32 text).all (fun c =>
    getScriptType c == .alphabet || getScriptType c == .number || c == 0x2D || c == 0x5F ||
      c == 0x23 || c == 0x2F || c == 0x2E)

/-- The UTF-8 bytes of a literal of the source. -/
def ja (s : String) : Bytes := s.toList.flatMap (fun c => utf8 c.toNat)

/-- `absl::StartsWith`. -/
def startsWith (text : Bytes) (s : String) : Bool := (ja s).isPrefixOf text

/-- `absl::EndsWith`. -/
def endsWith (text : Bytes) (s : String) : Bool := (ja s).isSuffixOf text

/-! ## Segments -/

/-- A candidate; `rest` is what the reranker does not read. -/
structure Candidate (R : Type) where
  value : Bytes
  contentValue : Bytes
  cost : Int32
  rest : R

/-- `Segment`; what the reranker does not read is of the type `R`. -/
structure Segment (R : Type) where
  segmentType : SegmentType
  key : Bytes
  candidates : List (Candidate R)

variable {R : Type}

/-- A segment that `history_segments_size` counts, at the front. -/
def Segment.isHistory (segment : Segment R) : Bool :=
  segment.segmentType = .history ∨ segment.segmentType = .submitted

/-- The number of history segments, which come first. -/
def historySegmentsSize (segments : List (Segment R)) : Nat :=
  (segments.takeWhile Segment.isHistory).length

/-- The number of segments behind the history. -/
def conversionSegmentsSize (segments : List (Segment R)) : Nat :=
  segments.length - historySegmentsSize segments

/-- A segment by its index behind the history. -/
def conversionSegment (segments : List (Segment R)) (i : Nat) : Option (Segment R) :=
  segments[i + historySegmentsSize segments]?

/-! ## Keys and candidates -/

/-- Is a key the reading of a particle? -/
def isParticleReading (key : Bytes) : Bool :=
  key == ja "に" || key == ja "を" || key == ja "が" || key == ja "は" || key == ja "へ" ||
    key == ja "で" || key == ja "と" || key == ja "の" || key == ja "も"

/-- Is a key the reading of an expression of particles? -/
def isFunctionalParticleExpressionKey (key : Bytes) : Bool :=
  key == ja "には" || key == ja "にも" || key == ja "では" || key == ja "でも" || key == ja "とは"

/-- Is a candidate the particle as it is read? -/
def isPlainParticleSurfaceCandidate (key : Bytes) (candidate : Candidate R) : Bool :=
  isParticleReading key && candidate.value == key && candidate.contentValue == key

/-- Is a candidate another word that is read like the particle? -/
def isSuspiciousHomophoneForParticle (key : Bytes) (candidate : Candidate R) : Bool :=
  isParticleReading key && !isPlainParticleSurfaceCandidate key candidate

/-- Is a candidate the expression as it is read? -/
def isFunctionalParticleExpressionCandidate (key : Bytes) (candidate : Candidate R) : Bool :=
  isFunctionalParticleExpressionKey key && candidate.value == key && candidate.contentValue == key

/-- Is a candidate the expression in another script? -/
def isSuspiciousCandidateForFunctionalParticleExpression (key : Bytes)
    (candidate : Candidate R) : Bool :=
  isFunctionalParticleExpressionKey key && !isFunctionalParticleExpressionCandidate key candidate

/-- `IsShikaIruPrefixKey`. -/
def isShikaIruPrefixKey (key : Bytes) : Bool := startsWith key "しかい"

/-- `IsShikaExplicitNegativePrefixKey`. -/
def isShikaExplicitNegativePrefixKey (key : Bytes) : Bool :=
  startsWith key "しかな" || startsWith key "しかあり" || startsWith key "しかお"

/-- `IsShikaParticleLikeKey`. -/
def isShikaParticleLikeKey (key : Bytes) : Bool := key == ja "しか" || endsWith key "しか"

/-- `IsShikaNegativePrefixKey`. -/
def isShikaNegativePrefixKey (key : Bytes) : Bool :=
  isShikaIruPrefixKey key || isShikaExplicitNegativePrefixKey key

/-- Does a candidate leave the particle しか in hiragana? -/
def isShikaFunctionalCandidate (key : Bytes) (candidate : Candidate R) : Bool :=
  if isShikaParticleLikeKey key then
    endsWith candidate.value "しか" && endsWith candidate.contentValue "しか"
  else if isShikaNegativePrefixKey key then
    startsWith candidate.value "しか" && startsWith candidate.contentValue "しか" &&
      isPureHiragana candidate.value
  else false

/-- Does a candidate turn the particle しか into another word? -/
def isSuspiciousCandidateForShikaNegative (key : Bytes) (candidate : Candidate R) : Bool :=
  if isShikaFunctionalCandidate key candidate then false
  else if isShikaParticleLikeKey key then
    containsKanji candidate.value || containsKatakana candidate.value ||
      containsNumber candidate.value || !isPureHiragana candidate.value
  else if isShikaNegativePrefixKey key then
    containsKanji candidate.value || containsKatakana candidate.value ||
      containsNumber candidate.value || !isPureHiragana candidate.value
  else false

/-- What a particle may cost more and still come first. -/
def particleBonus (key : Bytes) : Int :=
  if key = ja "に" ∨ key = ja "を" ∨ key = ja "が" ∨ key = ja "へ" ∨ key = ja "で" then 5000
  else if key = ja "は" ∨ key = ja "も" then 4000
  else if key = ja "と" ∨ key = ja "の" then 2500
  else 0

/-- What an expression of particles may cost more. -/
def functionalParticleExpressionBonus (key : Bytes) : Int :=
  if key = ja "には" ∨ key = ja "にも" then 5000
  else if key = ja "では" ∨ key = ja "でも" then 4000
  else if key = ja "とは" then 3500
  else 0

/-- What a negation with しか may cost more. -/
def shikaNegativeBonus (key : Bytes) : Int :=
  if isShikaNegativePrefixKey key then 7000
  else if isShikaParticleLikeKey key then 5000
  else 0

/-! ## Context -/

/-- The first candidate of `segment(0)`, if that is a history segment with a candidate. -/
def historyTop (segments : List (Segment R)) : Option (Candidate R) :=
  match segments with
  | [] => none
  | segment :: _ => if segment.segmentType = .history then segment.candidates.head? else none

/-- The value of the candidate before a conversion segment: of the history before the first
    one, else of the segment before. -/
def previousValue (segments : List (Segment R)) (i : Nat) : Option Bytes :=
  (if i = 0 then historyTop segments
    else (conversionSegment segments (i - 1)).bind (fun segment => segment.candidates.head?)).map
    Candidate.value

/-- Does the segment before end in what a particle may follow? -/
def previousContextLooksNounLike (segments : List (Segment R)) (i : Nat) : Bool :=
  match previousValue segments i with
  | none => false
  | some value =>
    if i = 0 then !value.isEmpty
    else !value.isEmpty &&
      (containsKanji value || containsKatakana value || isAsciiOrSymbolLike value)

/-- Does the segment behind look as if the phrase went on? -/
def nextContextLooksPhraseContinuation (segments : List (Segment R)) (i : Nat) : Bool :=
  match conversionSegment segments (i + 1) with
  | none => true
  | some next =>
    match next.candidates.head? with
    | none => false
    | some top =>
      !top.value.isEmpty &&
        (containsKatakana top.value || containsKanji top.value || isPureHiragana top.value)

/-- Does a value end like a counter? -/
def isCounterLikeValue (value : Bytes) : Bool :=
  ["名", "人", "者", "件", "個", "つ", "回", "社", "点", "円", "年", "月", "日", "時", "分", "秒",
    "本", "枚", "台", "冊", "通", "行", "匹", "頭", "羽"].any (endsWith value)

/-- `PreviousValueLooksShikaCompatible`. -/
def previousValueLooksShikaCompatible (value currentKey : Bytes) : Bool :=
  if value.isEmpty then false
  else if endsWith value "の" && isShikaIruPrefixKey currentKey then false
  else if containsNumber value || isCounterLikeValue value then true
  else containsKanji value || containsKatakana value || isAsciiOrSymbolLike value

/-- `PreviousContextLooksShikaCompatible`. -/
def previousContextLooksShikaCompatible (segments : List (Segment R)) (i : Nat)
    (currentKey : Bytes) : Bool :=
  match previousValue segments i with
  | none => false
  | some value => previousValueLooksShikaCompatible value currentKey

/-! ## The passes -/

/-- What a pass sorts by. -/
structure Pass (R : Type) where
  functional : Candidate R → Bool
  suspicious : Candidate R → Bool
  bonus : Int

/-- The adjusted cost of a candidate, `none` where the `int` overflows. -/
def Pass.adjustedCost (pass : Pass R) (candidate : Candidate R) : Option Int :=
  let cost := if pass.functional candidate then candidate.cost.toInt - pass.bonus
    else if pass.suspicious candidate then candidate.cost.toInt + pass.bonus
    else candidate.cost.toInt
  if -2 ^ 31 ≤ cost ∧ cost < 2 ^ 31 then some cost else none

/-- The scores in their new order: adjusted costs with the indices of the candidates, by a
    stable sort. -/
def sortedScores (costs : List Int) : List (Int × Nat) :=
  costs.zipIdx.insertionSort (fun a b => a.1 ≤ b.1)

/-- The common body of the passes; `none` where an adjusted cost overflows. -/
def rerankBy (pass : Pass R) (candidates : List (Candidate R)) : Option (List (Candidate R)) :=
  if candidates.any pass.functional then
    (candidates.mapM pass.adjustedCost).map (fun costs =>
      match (sortedScores costs).head? with
      | none => candidates
      | some top =>
        if top.2 = 0 then candidates
        else (sortedScores costs).filterMap (fun score => candidates[score.2]?))
  else some candidates

/-- The parameters of `RerankParticleSegmentAfterContext`, where it does not return early. -/
def particlePass (segments : List (Segment R)) (i : Nat) (segment : Segment R) : Option (Pass R) :=
  if !isParticleReading segment.key then none
  else if segment.candidates.length ≤ 1 then none
  else if !previousContextLooksNounLike segments i then none
  else if !nextContextLooksPhraseContinuation segments i then none
  else some ⟨isPlainParticleSurfaceCandidate segment.key,
    isSuspiciousHomophoneForParticle segment.key, particleBonus segment.key⟩

/-- The parameters of `RerankFunctionalParticleExpressionAfterContext`. -/
def functionalParticleExpressionPass (segments : List (Segment R)) (i : Nat)
    (segment : Segment R) : Option (Pass R) :=
  if !isFunctionalParticleExpressionKey segment.key then none
  else if segment.candidates.length ≤ 1 then none
  else if !previousContextLooksNounLike segments i then none
  else some ⟨isFunctionalParticleExpressionCandidate segment.key,
    isSuspiciousCandidateForFunctionalParticleExpression segment.key,
    functionalParticleExpressionBonus segment.key⟩

/-- The parameters of `RerankShikaNegativeExpressionAfterContext`. -/
def shikaNegativeExpressionPass (segments : List (Segment R)) (i : Nat) (segment : Segment R) :
    Option (Pass R) :=
  if segment.candidates.length ≤ 1 then none
  else if !isShikaParticleLikeKey segment.key && !isShikaNegativePrefixKey segment.key then none
  else if !previousContextLooksShikaCompatible segments i segment.key then none
  else some ⟨isShikaFunctionalCandidate segment.key,
    isSuspiciousCandidateForShikaNegative segment.key, shikaNegativeBonus segment.key⟩

/-- Run a pass on a conversion segment. -/
def runPass (passOf : List (Segment R) → Nat → Segment R → Option (Pass R))
    (segments : List (Segment R)) (i : Nat) : Option (List (Segment R)) :=
  match conversionSegment segments i with
  | none => some segments
  | some segment =>
    match passOf segments i segment with
    | none => some segments
    | some pass =>
      (rerankBy pass segment.candidates).map (fun candidates =>
        segments.set (i + historySegmentsSize segments)
          { segment with candidates := candidates })

/-- The pass for particles on one segment. -/
def rerankParticleSegmentAfterContext (segments : List (Segment R)) (i : Nat) :
    Option (List (Segment R)) :=
  runPass particlePass segments i

/-- The pass for expressions of particles on one segment. -/
def rerankFunctionalParticleExpressionAfterContext (segments : List (Segment R)) (i : Nat) :
    Option (List (Segment R)) :=
  runPass functionalParticleExpressionPass segments i

/-- The pass for しか on one segment. -/
def rerankShikaNegativeExpressionAfterContext (segments : List (Segment R)) (i : Nat) :
    Option (List (Segment R)) :=
  runPass shikaNegativeExpressionPass segments i

/-- The body of the loop of `Rerank`. -/
def step (segments : List (Segment R)) (i : Nat) : Option (List (Segment R)) :=
  (rerankParticleSegmentAfterContext segments i).bind fun segments =>
    (rerankFunctionalParticleExpressionAfterContext segments i).bind fun segments =>
      rerankShikaNegativeExpressionAfterContext segments i

/-- The segments after the rounds for the first `n` conversion segments. -/
def rerankUpTo (segments : List (Segment R)) (n : Nat) : Option (List (Segment R)) :=
  (List.range n).foldlM step segments

/-- `Rerank`; `none` where an `int` overflows. -/
def rerank (segments : List (Segment R)) : Option (List (Segment R)) :=
  rerankUpTo segments (conversionSegmentsSize segments)

/-! ## What is to hold -/

/-- A functional candidate of a segment, in the sense of one of the passes. -/
def isFunctional (key : Bytes) (candidate : Candidate R) : Bool :=
  isPlainParticleSurfaceCandidate key candidate ||
    isFunctionalParticleExpressionCandidate key candidate ||
      isShikaFunctionalCandidate key candidate

/-- The candidates are the same, in some order. -/
structure Permuted (segment segment' : Segment R) : Prop where
  segmentType : segment'.segmentType = segment.segmentType
  key : segment'.key = segment.key
  perm : segment'.candidates.Perm segment.candidates

/-- If the first candidate changes, the new one is functional. -/
def Promotes (segment segment' : Segment R) : Prop :=
  segment'.candidates.head? = segment.candidates.head? ∨
    ∃ top, segment'.candidates.head? = some top ∧ isFunctional segment.key top = true

/-- The history is untouched, no segment is lost or added, every conversion segment has its
    candidates, and only functional candidates are promoted. -/
structure OnlyPromotes (segments segments' : List (Segment R)) : Prop where
  length : segments'.length = segments.length
  history : ∀ j < historySegmentsSize segments, segments'[j]? = segments[j]?
  conversion : ∀ i segment segment', segments[i + historySegmentsSize segments]? = some segment →
    segments'[i + historySegmentsSize segments]? = some segment' →
      Permuted segment segment' ∧ Promotes segment segment'

/-- The first index of a least cost. -/
def FirstLeast (costs : List Int) (k : Nat) : Prop :=
  ∃ cost, costs[k]? = some cost ∧
    ∀ j other, costs[j]? = some other → cost ≤ other ∧ (other ≤ cost → k ≤ j)

/-- A list of candidates that a pass may sort: no adjusted cost overflows, and the first
    candidate of the least adjusted cost is functional or first already. -/
structure Safe (pass : Pass R) (candidates : List (Candidate R)) : Prop where
  noOverflow : ∀ candidate ∈ candidates, (pass.adjustedCost candidate).isSome = true
  first : ∀ costs k candidate, candidates.mapM pass.adjustedCost = some costs →
    FirstLeast costs k → k ≠ 0 → candidates[k]? = some candidate → pass.functional candidate = true

/-- The pass of a segment, if one applies. -/
def passAt (segments : List (Segment R)) (i : Nat) (segment : Segment R) : Option (Pass R) :=
  match particlePass segments i segment with
  | some pass => some pass
  | none =>
    match functionalParticleExpressionPass segments i segment with
    | some pass => some pass
    | none => shikaNegativeExpressionPass segments i segment

/-- The state before a round: where a pass applies and finds a functional candidate, the
    list is safe. -/
def StepSafe (segments : List (Segment R)) (i : Nat) : Prop :=
  ∀ segment pass, conversionSegment segments i = some segment →
    passAt segments i segment = some pass → segment.candidates.any pass.functional = true →
      Safe pass segment.candidates

/-! ## Sorting -/

theorem head_insertionSort : ∀ {l : List (Int × Nat)} {top : Int × Nat},
    l.Pairwise (fun a b => a.2 < b.2) →
    (l.insertionSort (fun a b => a.1 ≤ b.1)).head? = some top →
    top ∈ l ∧ ∀ s ∈ l, top.1 ≤ s.1 ∧ (s.1 ≤ top.1 → top.2 ≤ s.2) := by
  intro l
  induction l with
  | nil =>
    intro top _ h
    exact absurd h.symm (Option.some_ne_none top)
  | cons a l ih =>
    intro top hpair h
    obtain ⟨hlt, hpair⟩ := List.pairwise_cons.mp hpair
    rw [List.insertionSort_cons] at h
    cases hsort : l.insertionSort (fun a b => a.1 ≤ b.1) with
    | nil =>
      have hnil : l = [] := by
        have hlen := (List.perm_insertionSort (fun a b : Int × Nat => a.1 ≤ b.1) l).length_eq
        rw [hsort, List.length_nil] at hlen
        exact List.length_eq_zero_iff.mp hlen.symm
      rw [hsort, List.orderedInsert_nil, List.head?_cons] at h
      subst hnil
      obtain rfl := Option.some.inj h
      refine ⟨List.mem_cons_self, ?_⟩
      intro s hs
      obtain rfl := List.mem_singleton.mp hs
      exact ⟨Int.le_refl _, fun _ => Nat.le_refl _⟩
    | cons b rest =>
      obtain ⟨hb, hleast⟩ := ih hpair (by rw [hsort, List.head?_cons])
      rw [hsort, List.orderedInsert_cons] at h
      split_ifs at h with hab
      · rw [List.head?_cons] at h
        obtain rfl := Option.some.inj h
        refine ⟨List.mem_cons_self, ?_⟩
        intro s hs
        rcases List.mem_cons.mp hs with rfl | hs
        · exact ⟨Int.le_refl _, fun _ => Nat.le_refl _⟩
        · exact ⟨hab.trans (hleast s hs).1, fun _ => Nat.le_of_lt (hlt s hs)⟩
      · rw [List.head?_cons] at h
        obtain rfl := Option.some.inj h
        refine ⟨List.mem_cons_of_mem a hb, ?_⟩
        intro s hs
        rcases List.mem_cons.mp hs with rfl | hs
        · exact ⟨by omega, fun hsb => absurd hsb hab⟩
        · exact hleast s hs

theorem pairwise_zipIdx (costs : List Int) : ∀ n,
    (costs.zipIdx n).Pairwise (fun a b => a.2 < b.2) := by
  induction costs with
  | nil => intro n; exact List.Pairwise.nil
  | cons cost costs ih =>
    intro n
    rw [List.zipIdx_cons]
    refine List.Pairwise.cons (fun s hs => ?_) (ih (n + 1))
    have hle := (List.mem_zipIdx hs).1
    exact hle

variable {costs : List Int}

theorem sortedScores_head {top : Int × Nat} (h : (sortedScores costs).head? = some top) :
    FirstLeast costs top.2 := by
  obtain ⟨hmem, hleast⟩ := head_insertionSort (pairwise_zipIdx costs 0) h
  refine ⟨top.1, List.mem_zipIdx_iff_getElem?.mp hmem, ?_⟩
  intro j other hj
  exact hleast (other, j) (List.mem_zipIdx_iff_getElem?.mpr hj)

variable {k : Nat}

theorem firstLeast_unique {k' : Nat} (h : FirstLeast costs k) (h' : FirstLeast costs k') :
    k = k' := by
  obtain ⟨cost, hcost, hleast⟩ := h
  obtain ⟨cost', hcost', hleast'⟩ := h'
  obtain ⟨hle, hfirst⟩ := hleast k' cost' hcost'
  obtain ⟨hle', hfirst'⟩ := hleast' k cost hcost
  exact Nat.le_antisymm (hfirst hle') (hfirst' hle)

theorem filterMap_zipIdx (candidates : List (Candidate R)) : ∀ (costs : List Int) (n : Nat),
    (costs.zipIdx n).filterMap (fun score => candidates[score.2]?)
      = (candidates.drop n).take costs.length := by
  intro costs
  induction costs with
  | nil => intro n; rfl
  | cons cost costs ih =>
    intro n
    rw [List.zipIdx_cons, List.filterMap_cons, ih (n + 1)]
    by_cases hn : n < candidates.length
    · rw [List.getElem?_eq_getElem hn, List.drop_eq_getElem_cons hn, List.length_cons,
        List.take_succ_cons]
    · rw [List.getElem?_eq_none (by omega), List.drop_of_length_le (by omega),
        List.drop_of_length_le (by omega), List.take_nil, List.take_nil]

/-! ## One pass -/

theorem perm_reordered {candidates : List (Candidate R)} (hlen : costs.length = candidates.length) :
    ((sortedScores costs).filterMap (fun score => candidates[score.2]?)).Perm candidates := by
  have hperm := (List.perm_insertionSort (fun a b : Int × Nat => a.1 ≤ b.1) costs.zipIdx).filterMap
    (fun score => candidates[score.2]?)
  rw [filterMap_zipIdx, List.drop_zero, hlen, List.take_length] at hperm
  exact hperm

theorem exists_sortedScores_head (h : costs ≠ []) :
    ∃ top, (sortedScores costs).head? = some top := by
  cases hsort : sortedScores costs with
  | nil =>
    have hlen := (List.perm_insertionSort (fun a b : Int × Nat => a.1 ≤ b.1)
      costs.zipIdx).length_eq
    rw [← sortedScores, hsort, List.length_nil, List.length_zipIdx] at hlen
    exact absurd (List.length_eq_zero_iff.mp hlen.symm) h
  | cons top rest => exact ⟨top, List.head?_cons⟩

variable {pass : Pass R} {candidates' : List (Candidate R)}

/-- **A PASS** permutes its candidates. -/
theorem rerankBy_perm {candidates : List (Candidate R)}
    (h : rerankBy pass candidates = some candidates') : candidates'.Perm candidates := by
  rw [rerankBy] at h
  split_ifs at h with hany
  · obtain ⟨costs, hcosts, heq⟩ := Option.map_eq_some_iff.mp h
    cases hhead : (sortedScores costs).head? with
    | none =>
      rw [hhead] at heq
      rw [← heq]
    | some top =>
      rw [hhead] at heq
      dsimp only at heq
      split_ifs at heq with hzero
      · rw [← heq]
      · rw [← heq]
        exact perm_reordered (length_mapM hcosts)
  · rw [← Option.some.inj h]

/-- What is first behind a pass: the candidate of the first least cost. -/
theorem rerankBy_head {candidates : List (Candidate R)}
    (hany : candidates.any pass.functional = true)
    (hcosts : candidates.mapM pass.adjustedCost = some costs) (hk : FirstLeast costs k)
    (h : rerankBy pass candidates = some candidates') :
    candidates'.head? = candidates[k]? := by
  have hlen := length_mapM hcosts
  have hne : costs ≠ [] := by
    rintro rfl
    obtain ⟨cost, hcost, -⟩ := hk
    simp at hcost
  obtain ⟨top, htop⟩ := exists_sortedScores_head hne
  have hfirst := sortedScores_head htop
  obtain rfl := firstLeast_unique hk hfirst
  obtain ⟨cost, hcost, -⟩ := hfirst
  have hlt : top.2 < candidates.length := by
    rw [← hlen]
    exact (List.getElem?_eq_some_iff.mp hcost).1
  rw [rerankBy, if_pos hany, hcosts, Option.map_some, htop] at h
  dsimp only at h
  split_ifs at h with hzero
  · rw [← Option.some.inj h, hzero, List.head?_eq_getElem?]
  · rw [← Option.some.inj h]
    cases hsort : sortedScores costs with
    | nil =>
      rw [hsort] at htop
      exact absurd htop.symm (Option.some_ne_none top)
    | cons first rest =>
      rw [hsort, List.head?_cons] at htop
      obtain rfl := Option.some.inj htop
      rw [List.filterMap_cons, List.getElem?_eq_getElem hlt]
      rfl

/-- A pass that cannot overflow has a result, and a first least cost. -/
theorem exists_firstLeast {candidates : List (Candidate R)}
    (hany : candidates.any pass.functional = true)
    (hno : ∀ candidate ∈ candidates, (pass.adjustedCost candidate).isSome = true) :
    ∃ costs k candidates', candidates.mapM pass.adjustedCost = some costs ∧
      FirstLeast costs k ∧ k < candidates.length ∧ rerankBy pass candidates = some candidates' := by
  obtain ⟨costs, hcosts⟩ := exists_mapM hno
  have hlen := length_mapM hcosts
  have hne : costs ≠ [] := by
    rintro rfl
    obtain ⟨candidate, hmem, -⟩ := List.any_eq_true.mp hany
    rw [List.length_nil] at hlen
    rw [List.length_eq_zero_iff.mp hlen.symm] at hmem
    exact absurd hmem List.not_mem_nil
  obtain ⟨top, htop⟩ := exists_sortedScores_head hne
  have hfirst := sortedScores_head htop
  obtain ⟨cost, hcost, -⟩ := id hfirst
  have hlt := (List.getElem?_eq_some_iff.mp hcost).1
  have hresult : ∃ candidates', rerankBy pass candidates = some candidates' := by
    rw [rerankBy, if_pos hany, hcosts, Option.map_some]
    exact ⟨_, rfl⟩
  obtain ⟨candidates', h⟩ := hresult
  exact ⟨costs, top.2, candidates', hcosts, hfirst, by omega, h⟩

theorem noOverflow_of_rerankBy {candidates : List (Candidate R)}
    (hany : candidates.any pass.functional = true) (h : rerankBy pass candidates = some candidates')
    :
    ∀ candidate ∈ candidates, (pass.adjustedCost candidate).isSome = true := by
  rw [rerankBy, if_pos hany] at h
  obtain ⟨costs, hcosts, -⟩ := Option.map_eq_some_iff.mp h
  intro candidate hmem
  obtain ⟨i, hi⟩ := List.mem_iff_getElem?.mp hmem
  obtain ⟨cost, hcost, -⟩ := getElem?_mapM hcosts hi
  rw [hcost]
  rfl

/-- Candidates with the first least cost behind the first candidate differ from it. -/
theorem ne_of_firstLeast {candidates : List (Candidate R)}
    (hcosts : candidates.mapM pass.adjustedCost = some costs) (hk : FirstLeast costs k)
    (hpos : k ≠ 0) : candidates[k]? ≠ candidates[0]? := by
  have hlen := length_mapM hcosts
  obtain ⟨cost, hcost, hleast⟩ := hk
  have hlt := (List.getElem?_eq_some_iff.mp hcost).1
  intro heq
  obtain ⟨candidate, hcandidate⟩ : ∃ candidate, candidates[k]? = some candidate :=
    ⟨_, List.getElem?_eq_getElem (by omega)⟩
  obtain ⟨y, hf, hy⟩ := getElem?_mapM hcosts hcandidate
  obtain ⟨z, hf', hz⟩ := getElem?_mapM hcosts (heq.symm.trans hcandidate)
  rw [hf] at hf'
  rw [hcost] at hy
  have hle := (hleast 0 z hz).2 (by
    rw [Option.some.inj hy, Option.some.inj hf'])
  omega

/-- **THE CONDITION OF A PASS**: it has a result and promotes a functional candidate only,
    exactly when its list is safe. -/
theorem rerankBy_promotes_iff {candidates : List (Candidate R)}
    (hany : candidates.any pass.functional = true) :
    (∃ candidates', rerankBy pass candidates = some candidates' ∧
      (candidates'.head? = candidates.head? ∨
        ∃ top, candidates'.head? = some top ∧ pass.functional top = true)) ↔
      Safe pass candidates := by
  constructor
  · rintro ⟨candidates', h, hpromotes⟩
    refine ⟨noOverflow_of_rerankBy hany h, ?_⟩
    intro costs k candidate hcosts hk hpos hcandidate
    have hhead := rerankBy_head hany hcosts hk h
    rcases hpromotes with hsame | ⟨top, htop, hfunctional⟩
    · rw [hhead, List.head?_eq_getElem?] at hsame
      exact absurd hsame (ne_of_firstLeast hcosts hk hpos)
    · rw [hhead, hcandidate] at htop
      rw [Option.some.inj htop]
      exact hfunctional
  · rintro ⟨hno, hfirst⟩
    obtain ⟨costs, k, candidates', hcosts, hk, hlt, h⟩ := exists_firstLeast hany hno
    refine ⟨candidates', h, ?_⟩
    have hhead := rerankBy_head hany hcosts hk h
    by_cases hpos : k = 0
    · left
      rw [hhead, hpos, List.head?_eq_getElem?]
    · right
      have hcandidate : candidates[k]? = some candidates[k] := List.getElem?_eq_getElem hlt
      exact ⟨candidates[k], by rw [hhead, hcandidate],
        hfirst costs k candidates[k] hcosts hk hpos hcandidate⟩

/-! ## One key, one pass -/

variable {key : Bytes}

/-- No key of a particle belongs to another pass. -/
theorem keyKind_particle (h : isParticleReading key = true) :
    isFunctionalParticleExpressionKey key = false ∧ isShikaParticleLikeKey key = false ∧
      isShikaNegativePrefixKey key = false := by
  have hall : ∀ key ∈ [ja "に", ja "を", ja "が", ja "は", ja "へ", ja "で", ja "と", ja "の",
      ja "も"], isFunctionalParticleExpressionKey key = false ∧ isShikaParticleLikeKey key = false ∧
        isShikaNegativePrefixKey key = false := by
    decide
  refine hall key ?_
  simp only [isParticleReading, Bool.or_eq_true, beq_iff_eq] at h
  simp only [List.mem_cons, List.not_mem_nil, or_false]
  simp only [or_assoc] at h
  exact h

theorem keyKind_expression (h : isFunctionalParticleExpressionKey key = true) :
    isParticleReading key = false ∧ isShikaParticleLikeKey key = false ∧
      isShikaNegativePrefixKey key = false := by
  have hall : ∀ key ∈ [ja "には", ja "にも", ja "では", ja "でも", ja "とは"],
      isParticleReading key = false ∧ isShikaParticleLikeKey key = false ∧
        isShikaNegativePrefixKey key = false := by
    decide
  refine hall key ?_
  simp only [isFunctionalParticleExpressionKey, Bool.or_eq_true, beq_iff_eq] at h
  simp only [List.mem_cons, List.not_mem_nil, or_false]
  simp only [or_assoc] at h
  exact h

theorem isShikaFunctionalCandidate_of_key (hlike : isShikaParticleLikeKey key = false)
    (hnegative : isShikaNegativePrefixKey key = false) (candidate : Candidate R) :
    isShikaFunctionalCandidate key candidate = false := by
  rw [isShikaFunctionalCandidate, hlike, hnegative, if_neg Bool.false_ne_true,
    if_neg Bool.false_ne_true]

variable {segments : List (Segment R)} {i : Nat} {segment : Segment R}

theorem particlePass_eq (h : particlePass segments i segment = some pass) :
    isParticleReading segment.key = true ∧
      pass.functional = isPlainParticleSurfaceCandidate segment.key := by
  rw [particlePass] at h
  split_ifs at h with h1 h2 h3 h4
  rw [← Option.some.inj h]
  exact ⟨by simpa using h1, rfl⟩

theorem functionalParticleExpressionPass_eq
    (h : functionalParticleExpressionPass segments i segment = some pass) :
    isFunctionalParticleExpressionKey segment.key = true ∧
      pass.functional = isFunctionalParticleExpressionCandidate segment.key := by
  rw [functionalParticleExpressionPass] at h
  split_ifs at h with h1 h2 h3
  rw [← Option.some.inj h]
  exact ⟨by simpa using h1, rfl⟩

theorem shikaNegativeExpressionPass_eq
    (h : shikaNegativeExpressionPass segments i segment = some pass) :
    (isShikaParticleLikeKey segment.key = true ∨ isShikaNegativePrefixKey segment.key = true) ∧
      pass.functional = isShikaFunctionalCandidate segment.key := by
  rw [shikaNegativeExpressionPass] at h
  split_ifs at h with h1 h2 h3
  rw [← Option.some.inj h]
  refine ⟨?_, rfl⟩
  by_contra hno
  rw [not_or, Bool.not_eq_true, Bool.not_eq_true] at hno
  rw [hno.1, hno.2] at h2
  exact h2 rfl

theorem passAt_functional (h : passAt segments i segment = some pass) (candidate : Candidate R) :
    pass.functional candidate = isFunctional segment.key candidate := by
  rw [passAt] at h
  cases hp : particlePass segments i segment with
  | some p =>
    rw [hp] at h
    obtain ⟨hkey, hfunctional⟩ := particlePass_eq hp
    obtain ⟨hexpression, hlike, hnegative⟩ := keyKind_particle hkey
    rw [← Option.some.inj h, hfunctional, isFunctional,
      isShikaFunctionalCandidate_of_key hlike hnegative, isFunctionalParticleExpressionCandidate,
      hexpression]
    simp
  | none =>
    rw [hp] at h
    dsimp only at h
    cases hf : functionalParticleExpressionPass segments i segment with
    | some p =>
      rw [hf] at h
      obtain ⟨hkey, hfunctional⟩ := functionalParticleExpressionPass_eq hf
      obtain ⟨hparticle, hlike, hnegative⟩ := keyKind_expression hkey
      rw [← Option.some.inj h, hfunctional, isFunctional,
        isShikaFunctionalCandidate_of_key hlike hnegative, isPlainParticleSurfaceCandidate,
        hparticle]
      simp
    | none =>
      rw [hf] at h
      obtain ⟨hkey, hfunctional⟩ := shikaNegativeExpressionPass_eq h
      have hparticle : isParticleReading segment.key = false := by
        by_contra hno
        obtain ⟨-, hlike, hnegative⟩ := keyKind_particle (Bool.not_eq_false _ ▸ hno)
        rw [hlike, hnegative] at hkey
        simp at hkey
      have hexpression : isFunctionalParticleExpressionKey segment.key = false := by
        by_contra hno
        obtain ⟨-, hlike, hnegative⟩ := keyKind_expression (Bool.not_eq_false _ ▸ hno)
        rw [hlike, hnegative] at hkey
        simp at hkey
      rw [hfunctional, isFunctional, isPlainParticleSurfaceCandidate, hparticle,
        isFunctionalParticleExpressionCandidate, hexpression]
      simp

/-! ## One segment -/

variable {segments' : List (Segment R)}

theorem historySegmentsSize_eq
    (h : segments'.map Segment.segmentType = segments.map Segment.segmentType) :
    historySegmentsSize segments' = historySegmentsSize segments := by
  have hread : ∀ l : List (Segment R), historySegmentsSize l
      = ((l.map Segment.segmentType).takeWhile
        (fun type => decide (type = .history ∨ type = .submitted))).length := by
    intro l
    rw [List.takeWhile_map, List.length_map]
    rfl
  rw [hread, hread, h]

theorem map_segmentType_set {j : Nat} {segment' : Segment R} (h : segments[j]? = some segment)
    (htype : segment'.segmentType = segment.segmentType) :
    (segments.set j segment').map Segment.segmentType = segments.map Segment.segmentType := by
  obtain ⟨hlt, rfl⟩ := List.getElem?_eq_some_iff.mp h
  have hlt' : j < (segments.map Segment.segmentType).length := by
    rw [List.length_map]
    exact hlt
  have hget : (segments.map Segment.segmentType)[j] = segment'.segmentType := by
    rw [List.getElem_map, htype]
  rw [List.map_set, ← hget, List.set_getElem_self]

theorem conversionSegment_set (h : conversionSegment segments i = some segment)
    (candidates : List (Candidate R)) :
    conversionSegment (segments.set (i + historySegmentsSize segments)
      { segment with candidates := candidates }) i
        = some { segment with candidates := candidates } := by
  rw [conversionSegment] at h
  have hlt := (List.getElem?_eq_some_iff.mp h).1
  have hsize : historySegmentsSize (segments.set (i + historySegmentsSize segments)
      { segment with candidates := candidates }) = historySegmentsSize segments :=
    historySegmentsSize_eq (map_segmentType_set h rfl)
  rw [conversionSegment, hsize, List.getElem?_set_self hlt]

theorem runPass_of_none {passOf : List (Segment R) → Nat → Segment R → Option (Pass R)}
    (h : conversionSegment segments i = some segment) (hnone : passOf segments i segment = none) :
    runPass passOf segments i = some segments := by
  rw [runPass, h]
  dsimp only
  rw [hnone]

theorem functionalParticleExpressionPass_of_key
    (h : isFunctionalParticleExpressionKey segment.key = false) :
    functionalParticleExpressionPass segments i segment = none := by
  rw [functionalParticleExpressionPass, h, if_pos (by rfl)]

theorem shikaNegativeExpressionPass_of_key (hlike : isShikaParticleLikeKey segment.key = false)
    (hnegative : isShikaNegativePrefixKey segment.key = false) :
    shikaNegativeExpressionPass segments i segment = none := by
  simp [shikaNegativeExpressionPass, hlike, hnegative]

/-- **ONE ROUND** runs the one pass of its segment. -/
theorem step_eq (h : conversionSegment segments i = some segment) :
    step segments i =
      match passAt segments i segment with
      | none => some segments
      | some pass =>
        (rerankBy pass segment.candidates).map (fun candidates =>
          segments.set (i + historySegmentsSize segments)
            { segment with candidates := candidates }) := by
  rw [step, rerankParticleSegmentAfterContext, passAt]
  cases hp : particlePass segments i segment with
  | some pass =>
    obtain ⟨hkey, -⟩ := particlePass_eq hp
    obtain ⟨hexpression, hlike, hnegative⟩ := keyKind_particle hkey
    rw [runPass, h]
    dsimp only
    rw [hp]
    dsimp only
    cases rerankBy pass segment.candidates with
    | none => rfl
    | some candidates =>
      have hset := conversionSegment_set h candidates
      rw [Option.map_some, Option.bind_some, rerankFunctionalParticleExpressionAfterContext,
        runPass_of_none hset (functionalParticleExpressionPass_of_key hexpression),
        Option.bind_some, rerankShikaNegativeExpressionAfterContext,
        runPass_of_none hset (shikaNegativeExpressionPass_of_key hlike hnegative)]
  | none =>
    rw [runPass_of_none h hp, Option.bind_some, rerankFunctionalParticleExpressionAfterContext]
    dsimp only
    cases hf : functionalParticleExpressionPass segments i segment with
    | some pass =>
      obtain ⟨hkey, -⟩ := functionalParticleExpressionPass_eq hf
      obtain ⟨-, hlike, hnegative⟩ := keyKind_expression hkey
      rw [runPass, h]
      dsimp only
      rw [hf]
      dsimp only
      cases rerankBy pass segment.candidates with
      | none => rfl
      | some candidates =>
        have hset := conversionSegment_set h candidates
        rw [Option.map_some, Option.bind_some, rerankShikaNegativeExpressionAfterContext,
          runPass_of_none hset (shikaNegativeExpressionPass_of_key hlike hnegative)]
    | none =>
      rw [runPass_of_none h hf, Option.bind_some, rerankShikaNegativeExpressionAfterContext,
        runPass, h]

/-- What a round leaves alone, and what it does to its segment. -/
structure Stepped (segments segments' : List (Segment R)) (i : Nat) : Prop where
  types : segments'.map Segment.segmentType = segments.map Segment.segmentType
  frame : ∀ j, j ≠ i + historySegmentsSize segments → segments'[j]? = segments[j]?
  permuted : ∀ segment segment', conversionSegment segments i = some segment →
    conversionSegment segments' i = some segment' → Permuted segment segment'

theorem Stepped.refl (segments : List (Segment R)) (i : Nat) : Stepped segments segments i where
  types := rfl
  frame _ _ := rfl
  permuted segment segment' h h' := by
    rw [h] at h'
    obtain rfl := Option.some.inj h'
    exact ⟨rfl, rfl, List.Perm.refl _⟩

theorem stepped_set {candidates : List (Candidate R)}
    (h : conversionSegment segments i = some segment) (hperm : candidates.Perm segment.candidates) :
    Stepped segments (segments.set (i + historySegmentsSize segments)
      { segment with candidates := candidates }) i where
  types := map_segmentType_set h rfl
  frame j hj := List.getElem?_set_ne (fun heq => hj heq.symm)
  permuted segment₁ segment' h₁ h' := by
    rw [h] at h₁
    obtain rfl := Option.some.inj h₁
    rw [conversionSegment_set h] at h'
    obtain rfl := Option.some.inj h'
    exact ⟨rfl, rfl, hperm⟩

theorem step_stepped (h : step segments i = some segments') : Stepped segments segments' i := by
  cases hsegment : conversionSegment segments i with
  | none =>
    have hno : ∀ passOf : List (Segment R) → Nat → Segment R → Option (Pass R),
        runPass passOf segments i = some segments := fun passOf => by rw [runPass, hsegment]
    rw [step, rerankParticleSegmentAfterContext, hno, Option.bind_some,
      rerankFunctionalParticleExpressionAfterContext, hno, Option.bind_some,
      rerankShikaNegativeExpressionAfterContext, hno] at h
    rw [← Option.some.inj h]
    exact Stepped.refl segments i
  | some segment =>
    rw [step_eq hsegment] at h
    cases hpass : passAt segments i segment with
    | none =>
      rw [hpass] at h
      rw [← Option.some.inj h]
      exact Stepped.refl segments i
    | some pass =>
      rw [hpass] at h
      obtain ⟨candidates, hcandidates, rfl⟩ := Option.map_eq_some_iff.mp h
      exact stepped_set hsegment (rerankBy_perm hcandidates)

/-- **ONE SEGMENT**: a round has a result and promotes a functional candidate only, exactly
    when the state before it is safe. -/
theorem step_onlyPromotes_iff (h : conversionSegment segments i = some segment) :
    (∃ segments', step segments i = some segments' ∧
      ∀ segment', conversionSegment segments' i = some segment' → Promotes segment segment') ↔
      StepSafe segments i := by
  rw [step_eq h]
  cases hpass : passAt segments i segment with
  | none =>
    constructor
    · intro _ segment₁ pass h₁ hpass₁
      rw [h] at h₁
      rw [← Option.some.inj h₁, hpass] at hpass₁
      exact absurd hpass₁.symm (Option.some_ne_none pass)
    · intro _
      refine ⟨segments, rfl, fun segment' h' => Or.inl ?_⟩
      rw [h] at h'
      rw [Option.some.inj h']
  | some pass =>
    have hfunctional := passAt_functional hpass
    by_cases hany : segment.candidates.any pass.functional = true
    · have hiff := rerankBy_promotes_iff hany
      constructor
      · rintro ⟨segments', hresult, hpromotes⟩ segment₁ pass₁ h₁ hpass₁ _
        rw [h] at h₁
        obtain rfl := Option.some.inj h₁
        rw [hpass] at hpass₁
        obtain rfl := Option.some.inj hpass₁
        obtain ⟨candidates, hcandidates, rfl⟩ := Option.map_eq_some_iff.mp hresult
        refine hiff.mp ⟨candidates, hcandidates, ?_⟩
        rcases hpromotes _ (conversionSegment_set h candidates) with hsame | ⟨top, htop, hf⟩
        · exact Or.inl hsame
        · exact Or.inr ⟨top, htop, (hfunctional top).trans hf⟩
      · intro hsafe
        obtain ⟨candidates, hcandidates, hpromotes⟩ := hiff.mpr (hsafe segment pass h hpass hany)
        refine ⟨_, by dsimp only; rw [hcandidates]; rfl, fun segment' h' => ?_⟩
        rw [conversionSegment_set h] at h'
        obtain rfl := Option.some.inj h'
        rcases hpromotes with hsame | ⟨top, htop, hf⟩
        · exact Or.inl hsame
        · exact Or.inr ⟨top, htop, (hfunctional top).symm.trans hf⟩
    · have hsame : rerankBy pass segment.candidates = some segment.candidates := by
        rw [rerankBy, if_neg hany]
      constructor
      · intro _ segment₁ pass₁ h₁ hpass₁ hany₁
        rw [h] at h₁
        obtain rfl := Option.some.inj h₁
        rw [hpass] at hpass₁
        obtain rfl := Option.some.inj hpass₁
        exact absurd hany₁ hany
      · intro _
        refine ⟨_, by dsimp only; rw [hsame]; rfl, fun segment' h' => Or.inl ?_⟩
        rw [conversionSegment_set h] at h'
        rw [← Option.some.inj h']

/-! ## The run -/

theorem rerankUpTo_succ (segments : List (Segment R)) (n : Nat) :
    rerankUpTo segments (n + 1) = (rerankUpTo segments n).bind (fun state => step state n) := by
  rw [rerankUpTo, List.range_succ, List.foldlM_append, rerankUpTo]
  cases (List.range n).foldlM step segments with
  | none => rfl
  | some state =>
    rw [Option.bind_some]
    show ([n].foldlM step state : Option (List (Segment R))) = step state n
    rw [List.foldlM_cons]
    cases step state n with
    | none => rfl
    | some state' => rfl

/-- What `n` rounds leave alone, and what they do to a segment. -/
structure Ran (segments state : List (Segment R)) (n : Nat) : Prop where
  types : state.map Segment.segmentType = segments.map Segment.segmentType
  history : ∀ j < historySegmentsSize segments, state[j]? = segments[j]?
  behind : ∀ i, n ≤ i → conversionSegment state i = conversionSegment segments i
  permuted : ∀ i segment segment', conversionSegment segments i = some segment →
    conversionSegment state i = some segment' → Permuted segment segment'

theorem Permuted.trans {a b c : Segment R} (h : Permuted a b) (h' : Permuted b c) :
    Permuted a c where
  segmentType := h'.segmentType.trans h.segmentType
  key := h'.key.trans h.key
  perm := h'.perm.trans h.perm

theorem Stepped.conversionSegment_ne {j : Nat} (h : Stepped segments segments' i) (hne : j ≠ i) :
    conversionSegment segments' j = conversionSegment segments j := by
  rw [conversionSegment, conversionSegment, historySegmentsSize_eq h.types]
  exact h.frame _ (fun heq => hne (Nat.add_right_cancel heq))

theorem exists_conversionSegment (h : segments'.map Segment.segmentType
      = segments.map Segment.segmentType) (hsegment : conversionSegment segments i = some segment) :
    ∃ segment', conversionSegment segments' i = some segment' := by
  have hlen : segments'.length = segments.length := by
    rw [← List.length_map Segment.segmentType, h, List.length_map]
  rw [conversionSegment] at hsegment
  have hlt := (List.getElem?_eq_some_iff.mp hsegment).1
  rw [conversionSegment, historySegmentsSize_eq h]
  exact ⟨_, List.getElem?_eq_getElem (by omega)⟩

/-- **THE INVARIANT OF THE RUN.** -/
theorem ran_rerankUpTo : ∀ {n : Nat} {state : List (Segment R)},
    rerankUpTo segments n = some state → Ran segments state n := by
  intro n
  induction n with
  | zero =>
    intro state h
    rw [rerankUpTo, List.range_zero, List.foldlM_nil] at h
    obtain rfl := Option.some.inj h
    refine ⟨rfl, fun _ _ => rfl, fun _ _ => rfl, fun i segment segment' hs hs' => ?_⟩
    rw [hs] at hs'
    obtain rfl := Option.some.inj hs'
    exact ⟨rfl, rfl, List.Perm.refl _⟩
  | succ n ih =>
    intro state h
    rw [rerankUpTo_succ] at h
    obtain ⟨before, hbefore, hstep⟩ := Option.bind_eq_some_iff.mp h
    have hran := ih hbefore
    have hstepped := step_stepped hstep
    have hsize := historySegmentsSize_eq hran.types
    constructor
    · exact hstepped.types.trans hran.types
    · intro j hj
      rw [hstepped.frame j (by omega), hran.history j hj]
    · intro i hi
      rw [hstepped.conversionSegment_ne (by omega), hran.behind i (by omega)]
    · intro i segment segment' hs hs'
      obtain ⟨middle, hmiddle⟩ := exists_conversionSegment hran.types hs
      refine (hran.permuted i segment middle hs hmiddle).trans ?_
      by_cases hi : i = n
      · subst hi
        exact hstepped.permuted middle segment' hmiddle hs'
      · rw [hstepped.conversionSegment_ne hi, hmiddle] at hs'
        obtain rfl := Option.some.inj hs'
        exact ⟨rfl, rfl, List.Perm.refl _⟩

theorem lt_conversionSegmentsSize (h : conversionSegment segments i = some segment) :
    i < conversionSegmentsSize segments := by
  rw [conversionSegment] at h
  have hlt := (List.getElem?_eq_some_iff.mp h).1
  rw [conversionSegmentsSize]
  omega

/-- The conversion segments below `n` promote functional candidates only. -/
def PromotesUpTo (segments state : List (Segment R)) (n : Nat) : Prop :=
  ∀ i < n, ∀ segment segment', conversionSegment segments i = some segment →
    conversionSegment state i = some segment' → Promotes segment segment'

theorem promotesUpTo_succ {state state' : List (Segment R)} {n : Nat} (hran : Ran segments state n)
    (hstep : Stepped state state' n) (hsegment : conversionSegment segments n = some segment) :
    PromotesUpTo segments state' (n + 1) ↔ PromotesUpTo segments state n ∧
      ∀ segment', conversionSegment state' n = some segment' → Promotes segment segment' := by
  constructor
  · intro h
    refine ⟨fun i hi before after hb ha => ?_, fun segment' h' => ?_⟩
    · rw [← hstep.conversionSegment_ne (Nat.ne_of_lt hi)] at ha
      exact h i (by omega) before after hb ha
    · exact h n (Nat.lt_succ_self n) segment segment' hsegment h'
  · rintro ⟨hbelow, hat⟩ i hi before after hb ha
    by_cases hin : i = n
    · subst hin
      rw [hsegment] at hb
      obtain rfl := Option.some.inj hb
      exact hat after ha
    · rw [hstep.conversionSegment_ne hin] at ha
      exact hbelow i (by omega) before after hb ha

/-- **THE RUN, ROUND BY ROUND.** -/
theorem rerankUpTo_promotes_iff (segments : List (Segment R)) : ∀ n,
    n ≤ conversionSegmentsSize segments →
      ((∃ state, rerankUpTo segments n = some state ∧ PromotesUpTo segments state n) ↔
        ∀ i < n, ∀ state, rerankUpTo segments i = some state → StepSafe state i) := by
  intro n
  induction n with
  | zero =>
    intro _
    constructor
    · intro _ i hi
      exact absurd hi (Nat.not_lt_zero i)
    · intro _
      exact ⟨segments, rfl, fun i hi => absurd hi (Nat.not_lt_zero i)⟩
  | succ n ih =>
    intro hn
    have ih := ih (by omega)
    have hlt : n + historySegmentsSize segments < segments.length := by
      rw [conversionSegmentsSize] at hn
      omega
    have hsegment : conversionSegment segments n
        = some segments[n + historySegmentsSize segments] := List.getElem?_eq_getElem hlt
    rw [rerankUpTo_succ]
    constructor
    · rintro ⟨after, hafter, hpromotes⟩
      obtain ⟨state, hstate, hstep⟩ := Option.bind_eq_some_iff.mp hafter
      have hran := ran_rerankUpTo hstate
      obtain ⟨hbelow, hat⟩ :=
        (promotesUpTo_succ hran (step_stepped hstep) hsegment).mp hpromotes
      intro i hi other hother
      by_cases hin : i = n
      · subst hin
        rw [hstate] at hother
        obtain rfl := Option.some.inj hother
        rw [← hran.behind i (Nat.le_refl i)] at hsegment
        exact (step_onlyPromotes_iff hsegment).mp ⟨after, hstep, hat⟩
      · exact ih.mp ⟨state, hstate, hbelow⟩ i (by omega) other hother
    · intro hsafe
      obtain ⟨state, hstate, hbelow⟩ := ih.mpr (fun i hi => hsafe i (by omega))
      have hran := ran_rerankUpTo hstate
      have hsegment' := hsegment
      rw [← hran.behind n (Nat.le_refl n)] at hsegment'
      obtain ⟨after, hstep, hat⟩ :=
        (step_onlyPromotes_iff hsegment').mpr (hsafe n (Nat.lt_succ_self n) state hstate)
      exact ⟨after, by rw [hstate]; exact hstep,
        (promotesUpTo_succ hran (step_stepped hstep) hsegment).mpr ⟨hbelow, hat⟩⟩

/-- Whatever a run gives back: the history as it was, and in every other segment its
    candidates. -/
structure Keeps (segments segments' : List (Segment R)) : Prop where
  length : segments'.length = segments.length
  history : ∀ j < historySegmentsSize segments, segments'[j]? = segments[j]?
  conversion : ∀ i segment segment', segments[i + historySegmentsSize segments]? = some segment →
    segments'[i + historySegmentsSize segments]? = some segment' → Permuted segment segment'

theorem rerank_keeps {after : List (Segment R)} (h : rerank segments = some after) :
    Keeps segments after := by
  have hran := ran_rerankUpTo h
  have hsize := historySegmentsSize_eq hran.types
  constructor
  · rw [← List.length_map Segment.segmentType, hran.types, List.length_map]
  · exact hran.history
  · intro i segment segment' hs hs'
    refine hran.permuted i segment segment' hs ?_
    rw [conversionSegment, hsize]
    exact hs'

/-- **RERANKING.**  Every run that gives a result permutes the candidates inside their
    segments.  It gives a result and promotes functional candidates only, exactly when the
    state before every round is safe. -/
theorem rerank_onlyPromotes_iff (segments : List (Segment R)) :
    (∀ after, rerank segments = some after → Keeps segments after) ∧
      ((∃ after, rerank segments = some after ∧ OnlyPromotes segments after) ↔
        ∀ i < conversionSegmentsSize segments, ∀ state,
          rerankUpTo segments i = some state → StepSafe state i) := by
  refine ⟨fun after h => rerank_keeps h, ?_⟩
  rw [← rerankUpTo_promotes_iff segments _ (Nat.le_refl _)]
  constructor
  · rintro ⟨after, hafter, honly⟩
    have hsize := historySegmentsSize_eq (ran_rerankUpTo hafter).types
    refine ⟨after, hafter, fun i _ segment segment' hs hs' => ?_⟩
    rw [conversionSegment, hsize] at hs'
    exact (honly.conversion i segment segment' hs hs').2
  · rintro ⟨after, hafter, hpromotes⟩
    have hkeeps := rerank_keeps hafter
    have hsize := historySegmentsSize_eq (ran_rerankUpTo hafter).types
    refine ⟨after, hafter, hkeeps.length, hkeeps.history, fun i segment segment' hs hs' => ?_⟩
    refine ⟨hkeeps.conversion i segment segment' hs hs', ?_⟩
    refine hpromotes i (lt_conversionSegmentsSize hs) segment segment' hs ?_
    rw [conversionSegment, hsize]
    exact hs'

/-- A noun, and に behind it with its homophones, the costs not in order. -/
def homophones : List (Segment Unit) :=
  [⟨.history, ja "とうきょう", [⟨ja "東京", ja "東京", 0, ()⟩]⟩,
    ⟨.free, ja "に", [⟨ja "似", ja "似", 5000, ()⟩, ⟨ja "煮", ja "煮", 100, ()⟩,
      ⟨ja "に", ja "に", 20000, ()⟩]⟩]

/-- 煮 takes the first place from 似, and に keeps the last. -/
theorem rerank_homophones : ∃ after, rerank homophones = some after ∧
    ¬ OnlyPromotes homophones after := by
  refine ⟨[⟨.history, ja "とうきょう", [⟨ja "東京", ja "東京", 0, ()⟩]⟩,
    ⟨.free, ja "に", [⟨ja "煮", ja "煮", 100, ()⟩, ⟨ja "似", ja "似", 5000, ()⟩,
      ⟨ja "に", ja "に", 20000, ()⟩]⟩], rfl, ?_⟩
  intro h
  obtain ⟨-, hpromotes⟩ := h.conversion 0 _ _ rfl rfl
  rcases hpromotes with hsame | ⟨top, htop, hfunctional⟩
  · have hvalue := congrArg (Option.map Candidate.value) hsame
    revert hvalue
    decide
  · obtain rfl := Option.some.inj htop
    revert hfunctional
    decide

end MozkeyReranker
