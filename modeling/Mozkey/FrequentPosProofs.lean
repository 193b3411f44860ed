import Mozkey.SortedMapProofs

/-! # BuildFrequentPos — the positions with an id of one byte

    The positions are counted, the counts are counted, and the highest counts are taken as
    long as at most 255 positions have them. -/

namespace MozkeyDictionary

open OrderedMap SortedMap

/-! ## The pass of the source -/

/-- The largest `int`. -/
def intMax : Nat := 2147483647

/-- The loop that computes `num_freq_pos` and `freq_threshold`. -/
def freqThreshold : List (Nat × Nat) → Nat → Nat → Nat × Nat
  | [], numFreqPos, threshold => (numFreqPos, threshold)
  | (freq, count) :: rest, numFreqPos, threshold =>
    if numFreqPos + count > 255 then (numFreqPos, threshold)
    else freqThreshold rest (numFreqPos + count) freq

/-- The loop that collects the frequent positions; the map and `freq_pos_idx`. -/
def collectFrequentPos (threshold : Nat) : List (Nat × Nat) → SortedMap Nat Nat → Nat →
    SortedMap Nat Nat × Nat
  | [], frequentPos, idx => (frequentPos, idx)
  | (pos, freq) :: rest, frequentPos, idx =>
    if freq ≥ threshold then
      collectFrequentPos threshold rest (frequentPos.modify pos 0 (fun _ => idx)) (idx + 1)
    else collectFrequentPos threshold rest frequentPos idx

/-- `BuildFrequentPos` on the combined positions of the tokens; `none` where the `CHECK`
    fails. -/
def buildFrequentPos (poses : List Nat) : Option (SortedMap Nat Nat) :=
  let posMap := countKeys poses
  let freqMap := countKeys (posMap.entries.map Prod.snd)
  let (numFreqPos, threshold) := freqThreshold freqMap.entries.reverse 0 intMax
  let (frequentPos, freqPosIdx) := collectFrequentPos threshold posMap.entries empty 0
  if freqPosIdx = numFreqPos then some frequentPos else none

/-- `frequent_pos_`: the part of speech at each id. -/
def frequentPosArray (frequentPos : SortedMap Nat Nat) : List Nat :=
  frequentPos.entries.foldl (fun array e => array.set e.2 e.1) (List.replicate 256 0)

/-! ## The threshold -/

/-- **THE THRESHOLD** tells which counts were taken. -/
theorem freqThreshold_spec : ∀ {entries : List (Nat × Nat)} {num threshold : Nat},
    entries.Pairwise (fun a b => b.1 < a.1) → (∀ e ∈ entries, e.1 < threshold) →
    (freqThreshold entries num threshold).2 ≤ threshold ∧
      (freqThreshold entries num threshold).1
        = num + ((entries.filter (fun e =>
            decide ((freqThreshold entries num threshold).2 ≤ e.1))).map Prod.snd).sum := by
  intro entries
  induction entries with
  | nil => intro num threshold _ _; exact ⟨Nat.le_refl _, rfl⟩
  | cons e rest ih =>
    intro num threshold hsorted hbelow
    obtain ⟨freq, count⟩ := e
    obtain ⟨hhead, htail⟩ := List.pairwise_cons.mp hsorted
    rw [freqThreshold]
    by_cases hfull : num + count > 255
    · rw [if_pos hfull]
      refine ⟨Nat.le_refl _, ?_⟩
      have hnone : ((freq, count) :: rest).filter (fun e => decide (threshold ≤ e.1)) = [] := by
        rw [List.filter_eq_nil_iff]
        intro e he hle
        exact absurd (of_decide_eq_true hle) (Nat.not_le.mpr (hbelow e he))
      rw [hnone]
      rfl
    · rw [if_neg hfull]
      obtain ⟨hthreshold, heq⟩ := ih htail hhead
      refine ⟨Nat.le_trans hthreshold (Nat.le_of_lt (hbelow _ List.mem_cons_self)), ?_⟩
      rw [List.filter_cons, if_pos (decide_eq_true hthreshold), List.map_cons, List.sum_cons,
        ← Nat.add_assoc]
      exact heq

/-! ## The ids -/

/-- The ids are below a number, and different for different positions. -/
structure Numbered (m : SortedMap Nat Nat) (idx : Nat) : Prop where
  lt : ∀ pos i, m.get? pos = some i → i < idx
  injective : ∀ pos pos' i, m.get? pos = some i → m.get? pos' = some i → pos = pos'

theorem numbered_empty : Numbered empty 0 :=
  ⟨fun _ _ h => (nomatch h), fun _ _ _ h => (nomatch h)⟩

variable {m : SortedMap Nat Nat}

theorem Numbered.modify {idx : Nat} (h : Numbered m idx) (pos : Nat) :
    Numbered (m.modify pos 0 (fun _ => idx)) (idx + 1) := by
  refine ⟨?_, ?_⟩
  · intro pos' i hget
    rw [get?_modify] at hget
    by_cases heq : pos' = pos
    · rw [if_pos heq] at hget
      rw [← Option.some.inj hget]
      exact Nat.lt_succ_self idx
    · rw [if_neg heq] at hget
      exact Nat.lt_succ_of_lt (h.lt _ _ hget)
  · intro pos₁ pos₂ i h₁ h₂
    rw [get?_modify] at h₁ h₂
    by_cases heq₁ : pos₁ = pos
    · by_cases heq₂ : pos₂ = pos
      · rw [heq₁, heq₂]
      · rw [if_pos heq₁] at h₁
        rw [if_neg heq₂] at h₂
        have := h.lt _ _ h₂
        rw [← Option.some.inj h₁] at this
        exact absurd this (Nat.lt_irrefl _)
    · rw [if_neg heq₁] at h₁
      by_cases heq₂ : pos₂ = pos
      · rw [if_pos heq₂] at h₂
        have := h.lt _ _ h₁
        rw [← Option.some.inj h₂] at this
        exact absurd this (Nat.lt_irrefl _)
      · rw [if_neg heq₂] at h₂
        exact h.injective _ _ _ h₁ h₂

theorem collectFrequentPos_spec (threshold : Nat) : ∀ (entries : List (Nat × Nat))
    {m : SortedMap Nat Nat} {idx : Nat}, Numbered m idx →
    Numbered (collectFrequentPos threshold entries m idx).1
        (collectFrequentPos threshold entries m idx).2 ∧
      (collectFrequentPos threshold entries m idx).2
        = idx + entries.countP (fun e => decide (threshold ≤ e.2)) := by
  intro entries
  induction entries with
  | nil => intro m idx h; exact ⟨h, rfl⟩
  | cons e rest ih =>
    intro m idx h
    obtain ⟨pos, freq⟩ := e
    rw [collectFrequentPos, List.countP_cons]
    by_cases hfreq : freq ≥ threshold
    · obtain ⟨hnumbered, heq⟩ := ih (h.modify pos)
      rw [if_pos hfreq, if_pos (decide_eq_true hfreq)]
      exact ⟨hnumbered, by rw [heq]; omega⟩
    · obtain ⟨hnumbered, heq⟩ := ih h
      rw [if_neg hfreq, if_neg (fun hc => hfreq (of_decide_eq_true hc))]
      exact ⟨hnumbered, by rw [heq, Nat.add_zero]⟩

theorem sorted_reverse (m : SortedMap Nat Nat) :
    m.entries.reverse.Pairwise (fun a b => b.1 < a.1) :=
  List.pairwise_reverse.mpr m.sorted

variable {poses : List Nat}

theorem freqThreshold_countKeys (hlen : poses.length < intMax) :
    (freqThreshold (countKeys ((countKeys poses).entries.map Prod.snd)).entries.reverse 0
        intMax).1
      = (countKeys poses).entries.countP (fun e =>
          decide ((freqThreshold
            (countKeys ((countKeys poses).entries.map Prod.snd)).entries.reverse 0 intMax).2
              ≤ e.2)) := by
  have hbelow : ∀ e ∈ (countKeys ((countKeys poses).entries.map Prod.snd)).entries.reverse,
      e.1 < intMax := by
    intro e he
    obtain ⟨e', he', heq⟩ := List.mem_map.mp (mem_of_mem_countKeys (List.mem_reverse.mp he))
    rw [← heq]
    exact Nat.lt_of_le_of_lt (le_of_mem_countKeys he') hlen
  obtain ⟨-, heq⟩ := freqThreshold_spec (sorted_reverse _) hbelow
  generalize (freqThreshold (countKeys ((countKeys poses).entries.map Prod.snd)).entries.reverse 0
    intMax).2 = threshold at heq ⊢
  have hsum := sum_restrict_countKeys (fun freq => decide (threshold ≤ freq))
    ((countKeys poses).entries.map Prod.snd)
  rw [List.countP_map] at hsum
  rw [heq, Nat.zero_add, List.filter_reverse, List.map_reverse, List.sum_reverse]
  exact hsum

/-- **THE CHECK PASSES** as long as the number of tokens is an `int`. -/
theorem buildFrequentPos_isSome (hlen : poses.length < intMax) :
    (buildFrequentPos poses).isSome = true := by
  have heq := (collectFrequentPos_spec (freqThreshold
    (countKeys ((countKeys poses).entries.map Prod.snd)).entries.reverse 0 intMax).2
    (countKeys poses).entries numbered_empty).2
  rw [Nat.zero_add, ← freqThreshold_countKeys hlen] at heq
  rw [buildFrequentPos]
  dsimp only
  rw [if_pos heq]
  rfl

theorem freqThreshold_le : ∀ (entries : List (Nat × Nat)) (num threshold : Nat), num ≤ 255 →
    (freqThreshold entries num threshold).1 ≤ 255 := by
  intro entries
  induction entries with
  | nil => intro num threshold h; exact h
  | cons e rest ih =>
    intro num threshold h
    obtain ⟨freq, count⟩ := e
    rw [freqThreshold]
    by_cases hfull : num + count > 255
    · rw [if_pos hfull]
      exact h
    · rw [if_neg hfull]
      exact ih _ _ (Nat.not_lt.mp hfull)

/-- **THE IDS** of the frequent positions are different, and fit a byte. -/
theorem numbered_buildFrequentPos (h : buildFrequentPos poses = some m) : Numbered m 255 := by
  rw [buildFrequentPos] at h
  dsimp only at h
  split at h
  · rename_i hcheck
    have hle := freqThreshold_le
      (countKeys ((countKeys poses).entries.map Prod.snd)).entries.reverse 0 intMax (by decide)
    obtain ⟨hnumbered, -⟩ := collectFrequentPos_spec (freqThreshold
      (countKeys ((countKeys poses).entries.map Prod.snd)).entries.reverse 0 intMax).2
      (countKeys poses).entries numbered_empty
    rw [Option.some.inj h, hcheck] at hnumbered
    exact ⟨fun pos i hget => Nat.lt_of_lt_of_le (hnumbered.lt pos i hget) hle,
      hnumbered.injective⟩
  · exact nomatch h

/-! ## Few positions -/

/-- Where all counts together are few, all of them are taken. -/
theorem freqThreshold_of_few : ∀ {entries : List (Nat × Nat)} {num threshold : Nat},
    entries.Pairwise (fun a b => b.1 < a.1) → num + (entries.map Prod.snd).sum ≤ 255 →
    ∀ e ∈ entries, (freqThreshold entries num threshold).2 ≤ e.1 := by
  intro entries
  induction entries with
  | nil => intro _ _ _ _ e hmem; exact absurd hmem List.not_mem_nil
  | cons e rest ih =>
    intro num threshold hsorted hfew e' hmem
    obtain ⟨freq, count⟩ := e
    obtain ⟨hhead, htail⟩ := List.pairwise_cons.mp hsorted
    rw [List.map_cons, List.sum_cons] at hfew
    rw [freqThreshold, if_neg (by omega)]
    rcases List.mem_cons.mp hmem with rfl | hmem
    · exact (freqThreshold_spec htail hhead).1
    · exact ih htail (by omega) e' hmem

theorem isSome_collectFrequentPos (threshold : Nat) {pos : Nat} : ∀ (entries : List (Nat × Nat))
    (m : SortedMap Nat Nat) (idx : Nat),
    (m.get? pos).isSome = true ∨ (∃ freq, (pos, freq) ∈ entries ∧ threshold ≤ freq) →
    ((collectFrequentPos threshold entries m idx).1.get? pos).isSome = true := by
  intro entries
  induction entries with
  | nil =>
    rintro m idx (hsome | ⟨_, hmem, -⟩)
    · exact hsome
    · exact absurd hmem List.not_mem_nil
  | cons e rest ih =>
    intro m idx h
    obtain ⟨pos', freq'⟩ := e
    rw [collectFrequentPos]
    split_ifs with htaken
    · refine ih _ _ ?_
      rw [get?_modify]
      rcases h with hsome | ⟨freq, hmem, hle⟩
      · left
        split_ifs
        · rfl
        · exact hsome
      · rcases List.mem_cons.mp hmem with heq | hmem
        · left
          rw [if_pos (Prod.mk.inj heq).1]
          rfl
        · exact Or.inr ⟨freq, hmem, hle⟩
    · refine ih _ _ (h.imp_right ?_)
      rintro ⟨freq, hmem, hle⟩
      rcases List.mem_cons.mp hmem with heq | hmem
      · exact absurd ((Prod.mk.inj heq).2 ▸ hle) htaken
      · exact ⟨freq, hmem, hle⟩

theorem exists_mem_countKeys {pos : Nat} (hmem : pos ∈ poses) :
    ∃ freq, (pos, freq) ∈ (countKeys poses).entries := by
  have hsum := sum_restrict_countKeys (fun k => decide (k = pos)) poses
  have hpositive : 0 < poses.countP (fun k => decide (k = pos)) :=
    List.countP_pos_iff.mpr ⟨pos, hmem, decide_eq_true rfl⟩
  obtain ⟨e, he⟩ := List.exists_mem_of_ne_nil
    ((countKeys poses).restrict (fun k => decide (k = pos))) (by
      intro hnil
      rw [hnil] at hsum
      exact absurd hsum (Nat.ne_of_lt hpositive))
  obtain ⟨he, heq⟩ := List.mem_filter.mp he
  exact ⟨e.2, (of_decide_eq_true heq) ▸ he⟩

/-- **FEW POSITIONS ARE ALL FREQUENT.** -/
theorem exists_get?_buildFrequentPos (h : buildFrequentPos poses = some m) {ps : List Nat}
    (hps : ∀ pos ∈ poses, pos ∈ ps) (hfew : ps.length ≤ 255) {pos : Nat} (hmem : pos ∈ poses) :
    ∃ i, m.get? pos = some i := by
  have hcount : ((countKeys ((countKeys poses).entries.map Prod.snd)).entries.reverse.map
      Prod.snd).sum = (countKeys poses).entries.length := by
    have hsum := sum_restrict_countKeys (fun _ => true) ((countKeys poses).entries.map Prod.snd)
    rw [restrict, List.filter_true, List.countP_true, List.length_map] at hsum
    rw [List.map_reverse, List.sum_reverse, hsum]
  have hlength : (countKeys poses).entries.length ≤ ps.length := by
    have hnodup : ((countKeys poses).entries.map Prod.fst).Nodup :=
      List.pairwise_map.mpr ((countKeys poses).sorted.imp fun hlt => Nat.ne_of_lt hlt)
    have hsubset : (countKeys poses).entries.map Prod.fst ⊆ ps := by
      intro k hk
      obtain ⟨e, he, rfl⟩ := List.mem_map.mp hk
      exact hps _ (mem_of_mem_countKeys he)
    have hle := (List.subperm_of_subset hnodup hsubset).length_le
    rw [List.length_map] at hle
    exact hle
  obtain ⟨freq, hfreq⟩ := exists_mem_countKeys hmem
  obtain ⟨count, hcounted⟩ := @exists_mem_countKeys
    ((countKeys poses).entries.map Prod.snd) _ (List.mem_map_of_mem hfreq)
  have hle := @freqThreshold_of_few _ 0 intMax (sorted_reverse _)
    (by rw [hcount]; omega) _ (List.mem_reverse.mpr hcounted)
  rw [buildFrequentPos] at h
  dsimp only at h
  split_ifs at h
  rw [← Option.some.inj h]
  exact Option.isSome_iff_exists.mp
    (isSome_collectFrequentPos _ _ _ _ (Or.inr ⟨freq, hfreq, hle⟩))

/-! ## The array -/

theorem length_foldl_set {α : Type} : ∀ (entries : List (α × Nat)) (array : List α),
    (entries.foldl (fun array e => array.set e.2 e.1) array).length = array.length := by
  intro entries
  induction entries with
  | nil => intro array; rfl
  | cons e rest ih => intro array; rw [List.foldl_cons, ih, List.length_set]

theorem getElem?_foldl_set_of_not_mem {α : Type} : ∀ {entries : List (α × Nat)}
    {array : List α} {i : Nat}, i ∉ entries.map Prod.snd →
    (entries.foldl (fun array e => array.set e.2 e.1) array)[i]? = array[i]? := by
  intro entries
  induction entries with
  | nil => intro array i _; rfl
  | cons e rest ih =>
    intro array i h
    rw [List.map_cons, List.mem_cons, not_or] at h
    rw [List.foldl_cons, ih h.2, List.getElem?_set_ne (fun heq => h.1 heq.symm)]

theorem getElem?_foldl_set {α : Type} : ∀ (entries : List (α × Nat)) (array : List α),
    (entries.map Prod.snd).Nodup → (∀ e ∈ entries, e.2 < array.length) → ∀ e ∈ entries,
    (entries.foldl (fun array e => array.set e.2 e.1) array)[e.2]? = some e.1 := by
  intro entries
  induction entries with
  | nil => intro array _ _ e he; exact absurd he List.not_mem_nil
  | cons e₀ rest ih =>
    intro array hnodup hlt e he
    rw [List.map_cons, List.nodup_cons] at hnodup
    rw [List.foldl_cons]
    rcases List.mem_cons.mp he with rfl | hmem
    · rw [getElem?_foldl_set_of_not_mem hnodup.1,
        List.getElem?_set_self (hlt e List.mem_cons_self)]
    · refine ih _ hnodup.2 ?_ e hmem
      intro e' he'
      rw [List.length_set]
      exact hlt e' (List.mem_cons_of_mem _ he')

/-- **THE ARRAY HOLDS THE POSITION** of an id. -/
theorem getElem?_frequentPosArray (h : Numbered m 255) {pos i : Nat} (hget : m.get? pos = some i) :
    (frequentPosArray m)[i]? = some pos := by
  have hmem := (m.mem_entries_iff pos i).mpr hget
  refine getElem?_foldl_set _ _ ?_ ?_ (pos, i) hmem
  · refine List.pairwise_map.mpr (m.sorted.imp_of_mem ?_)
    intro a b ha hb hlt heq
    have hget' := (m.mem_entries_iff a.1 a.2).mp ha
    rw [heq] at hget'
    exact absurd (h.injective _ _ _ hget' ((m.mem_entries_iff b.1 b.2).mp hb)) (Nat.ne_of_lt hlt)
  · intro e he
    rw [List.length_replicate]
    have := h.lt _ _ ((m.mem_entries_iff e.1 e.2).mp he)
    omega

end MozkeyDictionary
