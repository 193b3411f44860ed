import Mathlib

/-! # Flat concurrent cache — what is found and what is evicted

    The keys are divided among buckets of a few entries.  A bucket has a clock that goes forward
    when an entry is hit but not when a new one comes in, and the first entry with the least time
    is evicted; times that saturate are halved. -/

namespace FlatConcurrentCache

/-! ## Buckets -/

/-- An entry, with what the parallel arrays have at its index. -/
structure Entry (Key Value : Type) where
  subhash : UInt8
  key : Key
  value : Value
  accessClock : Nat
  deriving DecidableEq

/-- A bucket: its entries and its clock. -/
structure Bucket (Key Value : Type) where
  entries : List (Entry Key Value) := []
  accessClockVal : Nat := 0

variable {Key Value : Type} [DecidableEq Key]

namespace Bucket

variable (bucket : Bucket Key Value)

/-- Where a key stands. -/
def findIndex (k : Key) (hash : UInt8) : Option Nat :=
  bucket.entries.findIdx? fun e => e.subhash == hash && e.key == k

omit [DecidableEq Key] in

/-- `UpdateClock`; the clocks are halved when they run out. -/
def updateClock (index : Nat) : Bucket Key Value :=
  let val := (bucket.accessClockVal + 1) % 2 ^ 8
  if val = 255 then
    { entries := (bucket.entries.map fun e => { e with accessClock := e.accessClock >>> 1 }).modify
        index fun e => { e with accessClock := 128 }
      accessClockVal := 128 }
  else
    { entries := bucket.entries.modify index fun e => { e with accessClock := val }
      accessClockVal := val }

/-- `access_clock[i]`. -/
def clockAt (i : Nat) : Nat := (bucket.entries[i]?.map Entry.accessClock).getD 0

/-- The loop of `Evict`: the index of the lowest `access_clock`. -/
def oldest : Nat :=
  (List.range' 1 (bucket.entries.length - 1)).foldl
    (fun minIdx i => if bucket.clockAt i < bucket.clockAt minIdx then i else minIdx) 0

variable (groupSize : Nat)

/-- `Insert` in a bucket. -/
def insert (k : Key) (v : Value) (hash : UInt8) : Bucket Key Value :=
  match bucket.findIndex k hash with
  | some i =>
    updateClock { bucket with entries := bucket.entries.modify i fun e => { e with value := v } } i
  | none =>
    let entry := ⟨hash, k, v, bucket.accessClockVal⟩
    if bucket.entries.length < groupSize then
      { bucket with entries := bucket.entries ++ [entry] }
    else { bucket with entries := bucket.entries.set bucket.oldest entry }

/-- The entry that `Insert` evicts. -/
def evicted (k : Key) (hash : UInt8) : Option (Entry Key Value) :=
  if (bucket.findIndex k hash).isSome then none
  else if bucket.entries.length < groupSize then none
  else bucket.entries[bucket.oldest]?

/-- `Lookup` in a bucket. -/
def lookup (k : Key) (hash : UInt8) : Option Value × Bucket Key Value :=
  match bucket.findIndex k hash with
  | some i => (bucket.entries[i]?.map Entry.value, bucket.updateClock i)
  | none => (none, bucket)

end Bucket

/-! ## The cache -/

/-- The loop of `CalculateBuckets`. -/
def doubleUntil (target : Nat) : Nat → Nat → Nat
  | 0, pow2 => pow2
  | fuel + 1, pow2 =>
    if pow2 < target then doubleUntil target fuel (pow2 * 2 % 2 ^ 64) else pow2

/-- `CalculateBuckets`; with groups of two the loop ends before the number gets out of range. -/
def calculateBuckets (groupSize n : Nat) : Nat :=
  let target := ((n + groupSize - 1) % 2 ^ 64) / groupSize
  if target ≤ 1 then 1 else doubleUntil target 64 1

variable (groupSize n : Nat) (hasher : Key → UInt64)

/-- The `subhash` of `GetBucket`. -/
def subhashOf (k : Key) : UInt8 := (hasher k &&& 0xff).toUInt8

/-- The index of the bucket of `GetBucket`. -/
def bucketOf (k : Key) : Nat :=
  let hash := hasher k
  let rotated := (hash >>> 8) ||| (hash <<< (64 - 8))
  (rotated &&& UInt64.ofNat (calculateBuckets groupSize n - 1)).toNat

/-- An operation, taken as atomic. -/
inductive Operation (Key Value : Type)
  | insert (k : Key) (v : Value)
  | lookup (k : Key)
  | clear

/-- A cache after some operations, with the key that was used last in each bucket and the value
    that was inserted last for each key. -/
structure State (Key Value : Type) where
  buckets : Nat → Bucket Key Value := fun _ => {}
  usedLast : Nat → Option Key := fun _ => none
  insertedLast : Key → Option Value := fun _ => none

/-- What `Lookup` finds. -/
def State.lookup (state : State Key Value) (k : Key) : Option Value :=
  ((state.buckets (bucketOf groupSize n hasher k)).lookup k (subhashOf hasher k)).1

/-- The entry that `Insert` would evict. -/
def State.evicted (state : State Key Value) (k : Key) : Option (Entry Key Value) :=
  (state.buckets (bucketOf groupSize n hasher k)).evicted groupSize k (subhashOf hasher k)

/-- `Insert` and `Lookup`, in the bucket of the key. -/
def step (state : State Key Value) : Operation Key Value → State Key Value
  | .insert k v =>
    let i := bucketOf groupSize n hasher k
    { buckets := Function.update state.buckets i
        ((state.buckets i).insert groupSize k v (subhashOf hasher k))
      usedLast := Function.update state.usedLast i (some k)
      insertedLast := Function.update state.insertedLast k (some v) }
  | .lookup k =>
    let i := bucketOf groupSize n hasher k
    { buckets := Function.update state.buckets i
        ((state.buckets i).lookup k (subhashOf hasher k)).2
      usedLast := if (state.lookup groupSize n hasher k).isSome then
          Function.update state.usedLast i (some k)
        else state.usedLast
      insertedLast := state.insertedLast }
  | .clear => {}

/-- A run from an empty cache. -/
def run (ops : List (Operation Key Value)) : State Key Value :=
  ops.foldl (step groupSize n hasher) {}

/-! ## The first entry of the least time -/

omit [DecidableEq Key] in
/-- **WHICH ENTRY IS EVICTED**: none has a lesser time; the first, if all have the same. -/
theorem Bucket.oldest_spec (bucket : Bucket Key Value) (hne : bucket.entries ≠ []) :
    bucket.oldest < bucket.entries.length ∧
      (∀ i, i < bucket.entries.length → bucket.clockAt bucket.oldest ≤ bucket.clockAt i) ∧
      ((∀ i, i < bucket.entries.length → bucket.clockAt i = bucket.clockAt 0) →
        bucket.oldest = 0) := by
  have hpos := List.length_pos_iff.mpr hne
  have hloop (k : Nat) (hk : k + 1 ≤ bucket.entries.length) :
      let minIdx := (List.range' 1 k).foldl
        (fun minIdx i => if bucket.clockAt i < bucket.clockAt minIdx then i else minIdx) 0
      minIdx < k + 1 ∧ (∀ i, i < k + 1 → bucket.clockAt minIdx ≤ bucket.clockAt i) ∧
        ((∀ i, i < bucket.entries.length → bucket.clockAt i = bucket.clockAt 0) →
          minIdx = 0) := by
    induction k with
    | zero =>
      refine ⟨Nat.one_pos, fun i hi => ?_, fun _ => rfl⟩
      obtain rfl : i = 0 := by omega
      exact le_rfl
    | succ k ih =>
      obtain ⟨hlt, hle, hfirst⟩ := ih (by omega)
      rw [List.range'_1_concat, List.foldl_append, List.foldl_cons, List.foldl_nil]
      dsimp only
      split_ifs with hless
      · refine ⟨by omega, fun i hi => ?_, fun hall => ?_⟩
        · rcases Nat.lt_succ_iff_lt_or_eq.mp hi with hi | rfl
          · exact hless.le.trans (hle i hi)
          · rw [Nat.add_comm]
        · have := hall (1 + k) (by omega)
          have := hle 0 (by omega)
          omega
      · refine ⟨by omega, fun i hi => ?_, hfirst⟩
        rcases Nat.lt_succ_iff_lt_or_eq.mp hi with hi | rfl
        · exact hle i hi
        · rw [Nat.add_comm k 1]
          omega
  obtain ⟨hlt, hle, hfirst⟩ := hloop (bucket.entries.length - 1) (by omega)
  exact ⟨lt_of_lt_of_le hlt (by omega), fun i hi => hle i (by omega), hfirst⟩

/-! ## What an operation keeps -/

/-- A bucket without its times. -/
def Bucket.contents (bucket : Bucket Key Value) : List (UInt8 × Key × Value) :=
  bucket.entries.map fun e => (e.subhash, e.key, e.value)

/-- What holds of a bucket: of its entries, of the clock, and of the key that was used last. -/
structure Kept (groupSize : Nat) (mine : Key → Prop) (subhash : Key → UInt8)
    (inserted : Key → Option Value) (used : Option Key) (bucket : Bucket Key Value) : Prop where
  nodup : (bucket.contents.map (·.2.1)).Nodup
  length_le : bucket.contents.length ≤ groupSize
  entry : ∀ c ∈ bucket.contents,
    mine c.2.1 ∧ c.1 = subhash c.2.1 ∧ inserted c.2.1 = some c.2.2
  clock : ∀ e ∈ bucket.entries, e.accessClock ≤ bucket.accessClockVal
  val : bucket.accessClockVal ≤ 254
  used : ∀ k, used = some k →
    ∃ e ∈ bucket.entries, e.key = k ∧ e.accessClock = bucket.accessClockVal

variable {groupSize n : Nat} {hasher : Key → UInt64} {mine : Key → Prop} {subhash : Key → UInt8}
  {inserted : Key → Option Value} {used : Option Key} {bucket : Bucket Key Value} {k : Key}
  {i : Nat}

omit [DecidableEq Key] in
theorem Kept.empty : Kept groupSize mine subhash inserted none ({} : Bucket Key Value) :=
  ⟨List.nodup_nil, Nat.zero_le _, by simp [Bucket.contents], by simp, Nat.zero_le _, nofun⟩

theorem findIndex_some {hash : UInt8} (h : bucket.findIndex k hash = some i) :
    ∃ e, bucket.entries[i]? = some e ∧ e.key = k := by
  obtain ⟨hlt, hfound, -⟩ := List.findIdx?_eq_some_iff_getElem.mp h
  exact ⟨_, List.getElem?_eq_getElem hlt, by simpa using (Bool.and_eq_true_iff.mp hfound).2⟩

theorem Bucket.findIndex_eq_none (hash : UInt8) (hnew : ∀ e ∈ bucket.entries, e.key ≠ k) :
    bucket.findIndex k hash = none :=
  List.findIdx?_eq_none_iff.mpr fun e he => by simp [hnew e he]

theorem Kept.not_mem (h : Kept groupSize mine subhash inserted used bucket)
    (hnone : bucket.findIndex k (subhash k) = none) : k ∉ bucket.contents.map (·.2.1) := by
  intro hmem
  obtain ⟨c, hc, rfl⟩ := List.mem_map.mp hmem
  obtain ⟨e, he, rfl⟩ := List.mem_map.mp hc
  have := List.findIdx?_eq_none_iff.mp hnone e he
  have hsub : e.subhash = subhash e.key := (h.entry _ hc).2.1
  simp [hsub] at this

omit [DecidableEq Key] in
/-- **A HIT** leaves the entries but for their times; the entry that is hit has the time of the
    clock. -/
theorem updateClock_spec (hclock : ∀ e ∈ bucket.entries, e.accessClock ≤ bucket.accessClockVal)
    (hval : bucket.accessClockVal ≤ 254) (i : Nat) :
    (bucket.updateClock i).contents = bucket.contents ∧
      (bucket.updateClock i).accessClockVal ≤ 254 ∧
      (∀ e ∈ (bucket.updateClock i).entries,
        e.accessClock ≤ (bucket.updateClock i).accessClockVal) ∧
      ∀ e, bucket.entries[i]? = some e → ∃ e' ∈ (bucket.updateClock i).entries,
        e'.key = e.key ∧ e'.accessClock = (bucket.updateClock i).accessClockVal := by
  have hmodify (entries : List (Entry Key Value)) (val : Nat)
      (hle : ∀ e ∈ entries, e.accessClock ≤ val) :
      let entries' := entries.modify i fun e => { e with accessClock := val }
      (entries'.map fun e => (e.subhash, e.key, e.value)) =
          (entries.map fun e => (e.subhash, e.key, e.value)) ∧
        (∀ e ∈ entries', e.accessClock ≤ val) ∧
        ∀ e, entries[i]? = some e → ∃ e' ∈ entries', e'.key = e.key ∧ e'.accessClock = val := by
    refine ⟨List.ext_getElem? fun j => ?_, fun e he => ?_, fun e he => ?_⟩
    · rw [List.getElem?_map, List.getElem?_modify, List.getElem?_map]
      split_ifs <;> cases entries[j]? <;> rfl
    · obtain ⟨j, hj⟩ := List.mem_iff_getElem?.mp he
      rw [List.getElem?_modify] at hj
      cases hget : entries[j]? with
      | none => simp [hget] at hj
      | some old =>
        rw [hget] at hj
        split_ifs at hj
        · cases hj
          exact le_rfl
        · cases hj
          exact hle _ (List.mem_of_getElem? hget)
    · exact ⟨{ e with accessClock := val },
        List.mem_of_getElem? (i := i) (by rw [List.getElem?_modify, he]; simp), rfl, rfl⟩
  have hmod : (bucket.accessClockVal + 1) % 2 ^ 8 = bucket.accessClockVal + 1 :=
    Nat.mod_eq_of_lt (by omega)
  simp only [Bucket.updateClock, hmod]
  split_ifs with hfull
  · -- the times are halved before the entry is hit
    obtain ⟨hcontents, hle, hhit⟩ := hmodify
      (bucket.entries.map fun e => { e with accessClock := e.accessClock >>> 1 }) 128 (by
        intro e he
        obtain ⟨old, hold, rfl⟩ := List.mem_map.mp he
        have := hclock old hold
        show old.accessClock >>> 1 ≤ 128
        omega)
    refine ⟨?_, by show 128 ≤ 254; omega, hle, fun e he => ?_⟩
    · rw [Bucket.contents, hcontents, List.map_map]
      rfl
    · exact hhit { e with accessClock := e.accessClock >>> 1 } (by rw [List.getElem?_map, he]; rfl)
  · obtain ⟨hcontents, hle, hhit⟩ := hmodify bucket.entries (bucket.accessClockVal + 1)
      fun e he => (hclock e he).trans (Nat.le_succ _)
    exact ⟨hcontents, by show bucket.accessClockVal + 1 ≤ 254; omega, hle, hhit⟩

omit [DecidableEq Key] in
theorem Kept.updateClock (h : Kept groupSize mine subhash inserted used bucket)
    {e : Entry Key Value} (he : bucket.entries[i]? = some e) (hk : e.key = k) :
    Kept groupSize mine subhash inserted (some k) (bucket.updateClock i) := by
  obtain ⟨hcontents, hval, hclock, hhit⟩ := updateClock_spec h.clock h.val i
  obtain ⟨e', hmem, hkey, htime⟩ := hhit e he
  refine ⟨hcontents ▸ h.nodup, hcontents ▸ h.length_le, hcontents ▸ h.entry, hclock, hval, ?_⟩
  rintro k' hk'
  cases hk'
  exact ⟨e', hmem, hkey.trans hk, htime⟩

/-- The entries of a bucket after a value is written where the key is. -/
theorem Kept.setValue (h : Kept groupSize mine subhash inserted used bucket) (v : Value)
    {e : Entry Key Value} (he : bucket.entries[i]? = some e) (hk : e.key = k) :
    Kept groupSize mine subhash (Function.update inserted k (some v)) none
      { bucket with entries := bucket.entries.modify i fun e => { e with value := v } } := by
  have hkeys : ((bucket.entries.modify i fun e => { e with value := v }).map Entry.key) =
      bucket.entries.map Entry.key := by
    refine List.ext_getElem? fun j => ?_
    rw [List.getElem?_map, List.getElem?_modify, List.getElem?_map]
    split_ifs <;> cases bucket.entries[j]? <;> rfl
  have hnodup : (bucket.entries.map Entry.key).Nodup := by
    simpa [Bucket.contents, Function.comp_def] using h.nodup
  have hentry : ∀ e' ∈ bucket.entries.modify i (fun e => { e with value := v }),
      (mine e'.key ∧ e'.subhash = subhash e'.key ∧
        Function.update inserted k (some v) e'.key = some e'.value) ∧
      e'.accessClock ≤ bucket.accessClockVal := by
    intro e' he'
    obtain ⟨j, hj⟩ := List.mem_iff_getElem?.mp he'
    rw [List.getElem?_modify] at hj
    cases hget : bucket.entries[j]? with
    | none => simp [hget] at hj
    | some old =>
      have hmem := List.mem_of_getElem? hget
      obtain ⟨hmine, hsub, hvalue⟩ := h.entry _ (List.mem_map_of_mem hmem)
      rw [hget] at hj
      split_ifs at hj with hij
      · subst hij
        obtain rfl : old = e := Option.some.inj (hget.symm.trans he)
        cases hj
        exact ⟨⟨hmine, hsub, by simp [hk]⟩, h.clock old hmem⟩
      · cases hj
        -- another entry has another key
        have hne : old.key ≠ k := by
          intro hsame
          refine hij ((List.getElem?_inj (by
            rw [List.length_map]; exact (List.getElem?_eq_some_iff.mp he).1) hnodup).mp ?_)
          rw [List.getElem?_map, List.getElem?_map, he, hget, Option.map_some, Option.map_some, hk,
            hsame]
        exact ⟨⟨hmine, hsub, by rw [Function.update_of_ne hne]; exact hvalue⟩, h.clock _ hmem⟩
  refine ⟨?_, ?_, fun c hc => ?_, fun e' he' => (hentry e' he').2, h.val, nofun⟩
  · rw [Bucket.contents, List.map_map]
    exact hkeys ▸ hnodup
  · simpa [Bucket.contents] using h.length_le
  · obtain ⟨e', he', rfl⟩ := List.mem_map.mp hc
    exact (hentry e' he').1

theorem Kept.insert_found (h : Kept groupSize mine subhash inserted used bucket) (v : Value)
    (hfound : bucket.findIndex k (subhash k) = some i) :
    Kept groupSize mine subhash (Function.update inserted k (some v)) (some k)
      (bucket.insert groupSize k v (subhash k)) := by
  obtain ⟨e, he, hk⟩ := findIndex_some hfound
  rw [Bucket.insert, hfound]
  refine (h.setValue v he hk).updateClock (e := { e with value := v }) ?_ hk
  rw [List.getElem?_modify, he]
  simp

/-- **AN INSERTION** keeps what holds of its bucket, with the key as the one used last. -/
theorem Kept.insert (h : Kept groupSize mine subhash inserted used bucket)
    (hgroup : 2 ≤ groupSize) (hmine : mine k) (v : Value) :
    Kept groupSize mine subhash (Function.update inserted k (some v)) (some k)
      (bucket.insert groupSize k v (subhash k)) := by
  cases hfind : bucket.findIndex k (subhash k) with
  | some i => exact h.insert_found v hfind
  | none =>
    have hnew := h.not_mem hfind
    have hentry : ∀ c ∈ bucket.contents, mine c.2.1 ∧ c.1 = subhash c.2.1 ∧
        Function.update inserted k (some v) c.2.1 = some c.2.2 := by
      intro c hc
      have hne : c.2.1 ≠ k := fun hsame => hnew (hsame ▸ List.mem_map_of_mem hc)
      rw [Function.update_of_ne hne]
      exact h.entry c hc
    have hself : mine k ∧ subhash k = subhash k ∧
        Function.update inserted k (some v) k = some v := ⟨hmine, rfl, by simp⟩
    have hlength := h.length_le
    rw [Bucket.contents, List.length_map] at hlength
    simp only [Bucket.insert, hfind]
    split_ifs with hroom
    · have hcontents : ∀ val, (Bucket.mk (bucket.entries ++
            [⟨subhash k, k, v, bucket.accessClockVal⟩]) val).contents =
          bucket.contents ++ [(subhash k, k, v)] := fun val => List.map_append
      refine ⟨?_, ?_, ?_, ?_, h.val, ?_⟩
      · rw [hcontents, List.map_append, List.nodup_append]
        refine ⟨h.nodup, List.nodup_singleton _, ?_⟩
        rintro a ha b hb rfl
        obtain rfl : a = k := List.mem_singleton.mp hb
        exact hnew ha
      · rw [hcontents, List.length_append, Bucket.contents, List.length_map]
        exact hroom
      · rw [hcontents]
        intro c hc
        rcases List.mem_append.mp hc with hc | hc
        · exact hentry c hc
        · obtain rfl := List.mem_singleton.mp hc
          exact hself
      · intro e he
        rcases List.mem_append.mp he with he | he
        · exact h.clock e he
        · obtain rfl := List.mem_singleton.mp he
          exact le_rfl
      · rintro k' hk'
        cases hk'
        exact ⟨_, List.mem_append_right _ (List.mem_singleton.mpr rfl), rfl, rfl⟩
    · have hne : bucket.entries ≠ [] := by
        rw [← List.length_pos_iff]
        omega
      have hcontents : ∀ val, (Bucket.mk (bucket.entries.set bucket.oldest
            ⟨subhash k, k, v, bucket.accessClockVal⟩) val).contents =
          bucket.contents.set bucket.oldest (subhash k, k, v) := fun val => List.map_set
      refine ⟨?_, ?_, ?_, ?_, h.val, ?_⟩
      · rw [hcontents, List.map_set]
        exact h.nodup.set hnew
      · rw [hcontents, List.length_set]
        exact h.length_le
      · rw [hcontents]
        intro c hc
        rcases List.mem_or_eq_of_mem_set hc with hc | rfl
        · exact hentry c hc
        · exact hself
      · intro e he
        rcases List.mem_or_eq_of_mem_set he with he | rfl
        · exact h.clock e he
        · exact le_rfl
      · rintro k' hk'
        cases hk'
        exact ⟨_, List.mem_set (bucket.oldest_spec hne).1 _, rfl, rfl⟩

/-- **A LOOKUP** finds the value inserted last or nothing, and keeps what holds of its bucket. -/
theorem Kept.lookup (h : Kept groupSize mine subhash inserted used bucket) (k : Key) :
    (∀ v, (bucket.lookup k (subhash k)).1 = some v → inserted k = some v) ∧
      Kept groupSize mine subhash inserted
        (if (bucket.lookup k (subhash k)).1.isSome then some k else used)
        (bucket.lookup k (subhash k)).2 := by
  rw [Bucket.lookup]
  cases hfind : bucket.findIndex k (subhash k) with
  | none => exact ⟨nofun, h⟩
  | some i =>
    obtain ⟨e, he, rfl⟩ := findIndex_some hfind
    have hvalue := (h.entry _ (List.mem_map_of_mem (List.mem_of_getElem? he))).2.2
    simp only [he, Option.map_some, Option.isSome_some, if_true, Option.some.injEq]
    refine ⟨?_, h.updateClock he rfl⟩
    rintro v rfl
    exact hvalue

/-! ## Runs -/

/-- **WHAT A RUN KEEPS** in every bucket. -/
theorem kept_run (n : Nat) (hasher : Key → UInt64) (hgroup : 2 ≤ groupSize)
    (ops : List (Operation Key Value)) (i : Nat) :
    Kept groupSize (fun k => bucketOf groupSize n hasher k = i) (subhashOf hasher)
      (run groupSize n hasher ops).insertedLast ((run groupSize n hasher ops).usedLast i)
      ((run groupSize n hasher ops).buckets i) := by
  induction ops using List.reverseRecOn with
  | nil => exact Kept.empty
  | append_singleton ops op ih =>
    rw [run, List.foldl_append, List.foldl_cons, List.foldl_nil]
    change Kept _ _ _ (step groupSize n hasher (run groupSize n hasher ops) op).insertedLast
      ((step groupSize n hasher (run groupSize n hasher ops) op).usedLast i)
      ((step groupSize n hasher (run groupSize n hasher ops) op).buckets i)
    generalize run groupSize n hasher ops = state at ih
    cases op with
    | clear => exact Kept.empty
    | insert k v =>
      by_cases hi : bucketOf groupSize n hasher k = i
      · subst hi
        simpa [step] using ih.insert hgroup rfl v
      · -- what is inserted elsewhere is the value of no key of this bucket
        refine ⟨?_, ?_, ?_, ?_, ?_, ?_⟩ <;> simp only [step, Function.update_of_ne (Ne.symm hi)]
        · exact ih.nodup
        · exact ih.length_le
        · intro c hc
          obtain ⟨hmine, hrest⟩ := ih.entry c hc
          have hne : c.2.1 ≠ k := fun hsame => hi (hsame ▸ hmine)
          exact ⟨hmine, by rwa [Function.update_of_ne hne]⟩
        · exact ih.clock
        · exact ih.val
        · exact ih.used
    | lookup k =>
      by_cases hi : bucketOf groupSize n hasher k = i
      · subst hi
        have hkept := (ih.lookup k).2
        change Kept _ _ _ _ (if (state.lookup groupSize n hasher k).isSome then some k else _) _
          at hkept
        simp only [step, Function.update_self]
        split_ifs at hkept ⊢
        · rwa [Function.update_self]
        · exact hkept
      · simp only [step, Function.update_of_ne (Ne.symm hi)]
        split_ifs
        · rw [Function.update_of_ne (Ne.symm hi)]
          exact ih
        · exact ih

/-- No entry of a bucket has a lesser time than its first, which is the one used last. -/
def Bucket.Tied (bucket : Bucket Key Value) (used : Option Key) : Prop :=
  ∃ e rest, bucket.entries = e :: rest ∧ used = some e.key ∧
    ∀ e' ∈ rest, e'.accessClock = e.accessClock

omit [DecidableEq Key] in
/-- **WHEN THE ENTRY USED LAST IS EVICTED**: it is the first, and the others have its time. -/
theorem Kept.evicted_eq_used_iff (h : Kept groupSize mine subhash inserted used bucket)
    {e : Entry Key Value} (he : bucket.entries[bucket.oldest]? = some e) :
    used = some e.key ↔ bucket.Tied used := by
  have hne : bucket.entries ≠ [] := List.ne_nil_of_mem (List.mem_of_getElem? he)
  obtain ⟨hlt, hle, hfirst⟩ := bucket.oldest_spec hne
  have hclockAt {i : Nat} {e' : Entry Key Value} (hget : bucket.entries[i]? = some e') :
      bucket.clockAt i = e'.accessClock := by
    rw [Bucket.clockAt, hget]
    rfl
  obtain ⟨first, rest, hentries⟩ := List.exists_cons_of_ne_nil hne
  have hzero : bucket.entries[0]? = some first := by rw [hentries]; rfl
  constructor
  · intro hused
    obtain ⟨e', hmem, hkey, htime⟩ := h.used _ hused
    -- the one used last has the time of the clock, and there is one entry of its key
    have hnodup : (bucket.entries.map Entry.key).Nodup := by
      simpa [Bucket.contents, Function.comp_def] using h.nodup
    obtain rfl : e' = e :=
      List.inj_on_of_nodup_map hnodup hmem (List.mem_of_getElem? he) hkey
    have hall : ∀ (i : Nat) (e'' : Entry Key Value), bucket.entries[i]? = some e'' →
        e''.accessClock = bucket.accessClockVal := by
      intro i e'' hget
      have hmin := hle i (List.getElem?_eq_some_iff.mp hget).1
      rw [hclockAt he, hclockAt hget, htime] at hmin
      exact le_antisymm (h.clock e'' (List.mem_of_getElem? hget)) hmin
    have holdest := hfirst fun i hi => by
      rw [hclockAt (List.getElem?_eq_getElem hi), hclockAt hzero,
        hall i _ (List.getElem?_eq_getElem hi), hall 0 _ hzero]
    rw [holdest, hzero] at he
    cases he
    refine ⟨first, rest, hentries, hused, fun e'' he'' => ?_⟩
    obtain ⟨i, hget⟩ := List.mem_iff_getElem?.mp
      (hentries ▸ List.mem_cons_of_mem _ he'' : e'' ∈ bucket.entries)
    rw [hall i e'' hget, htime]
  · rintro ⟨first', rest', hentries', hused, hall⟩
    rw [hentries] at hentries'
    cases hentries'
    have holdest := hfirst fun i hi => by
      have hmem : ∀ e' ∈ bucket.entries, e' = first ∨ e' ∈ rest := by
        rw [hentries]
        exact fun _ => List.mem_cons.mp
      rw [hclockAt (List.getElem?_eq_getElem hi), hclockAt hzero]
      rcases hmem _ (List.getElem_mem hi) with hsame | hrest
      · rw [hsame]
      · exact hall _ hrest
    rw [holdest, hzero] at he
    cases he
    exact hused

variable (groupSize n hasher)

/-- In every state of a run a lookup finds the value inserted last or nothing, a bucket has no
    key twice and no more entries than a group, and no insertion evicts what was used last. -/
structure KeepsUsedLast (ops : List (Operation Key Value)) : Prop where
  lookup : ∀ before after, ops = before ++ after → ∀ k v,
    (run groupSize n hasher before).lookup groupSize n hasher k = some v →
      (run groupSize n hasher before).insertedLast k = some v
  bucket : ∀ before after, ops = before ++ after → ∀ i,
    (((run groupSize n hasher before).buckets i).entries.map Entry.key).Nodup ∧
      ((run groupSize n hasher before).buckets i).entries.length ≤ groupSize
  evicted : ∀ before k v after, ops = before ++ .insert k v :: after → ∀ e,
    (run groupSize n hasher before).evicted groupSize n hasher k = some e →
      (run groupSize n hasher before).usedLast (bucketOf groupSize n hasher k) ≠ some e.key

/-- In a run no new key comes into a full bucket whose first entry was used last while no other
    entry has a lesser time. -/
def NeverTied (ops : List (Operation Key Value)) : Prop :=
  ∀ before k v after, ops = before ++ .insert k v :: after →
    let i := bucketOf groupSize n hasher k
    let state := run groupSize n hasher before
    (∀ e ∈ (state.buckets i).entries, e.key ≠ k) → (state.buckets i).entries.length = groupSize →
      ¬ (state.buckets i).Tied (state.usedLast i)

/-- Two entries come in without a hit in between; the second evicts the first. -/
theorem evicts_usedLast :
    ¬ ∀ ops : List (Operation Nat Nat), KeepsUsedLast 2 1 (fun _ => 0) ops := by
  intro h
  have hspared := (h [.insert 0 0, .insert 1 0, .insert 2 0, .insert 3 0]).evicted
    [.insert 0 0, .insert 1 0, .insert 2 0] 3 0 [] rfl ⟨0, 2, 0, 0⟩ (by decide)
  exact hspared (by decide)

/-- **THE ENTRY USED LAST STAYS** in exactly the runs that are never tied; what else is asked for
    holds in all. -/
theorem keepsUsedLast_iff (hgroup : 2 ≤ groupSize) (ops : List (Operation Key Value)) :
    KeepsUsedLast groupSize n hasher ops ↔ NeverTied groupSize n hasher ops := by
  constructor
  · intro h before k v after hops
    dsimp only
    intro hnew hfull htied
    have hkept := kept_run n hasher hgroup before (bucketOf groupSize n hasher k)
    have hevicted := h.evicted before k v after hops
    generalize hstate : run groupSize n hasher before = state at hkept hevicted hnew hfull htied
    have hnone := Bucket.findIndex_eq_none (subhashOf hasher k) hnew
    obtain ⟨e, he⟩ : ∃ e, (state.buckets (bucketOf groupSize n hasher k)).entries[
        (state.buckets (bucketOf groupSize n hasher k)).oldest]? = some e :=
      ⟨_, List.getElem?_eq_getElem (Bucket.oldest_spec _
        (List.ne_nil_of_length_pos (by omega))).1⟩
    refine hevicted e ?_ ((hkept.evicted_eq_used_iff he).mpr htied)
    rw [State.evicted, Bucket.evicted, hnone, if_neg (by simp), if_neg (by omega), he]
  · intro htied
    refine ⟨fun before after _ k v => ?_, fun before after _ i => ?_,
      fun before k v after hops e he hused => ?_⟩
    · exact ((kept_run n hasher hgroup before (bucketOf groupSize n hasher k)).lookup k).1 v
    · have hkept := kept_run n hasher hgroup before i
      refine ⟨?_, ?_⟩
      · simpa [Bucket.contents, Function.comp_def] using hkept.nodup
      · simpa [Bucket.contents] using hkept.length_le
    · have hkept := kept_run n hasher hgroup before
        (bucketOf groupSize n hasher k)
      rw [State.evicted, Bucket.evicted] at he
      split_ifs at he with hfound hroom
      have hlength := hkept.length_le
      rw [Bucket.contents, List.length_map] at hlength
      refine htied before k v after hops ?_ (by omega) ((hkept.evicted_eq_used_iff he).mp hused)
      intro e' he' hsame
      refine hkept.not_mem (by simpa using hfound) ?_
      rw [Bucket.contents, List.map_map]
      exact List.mem_map.mpr ⟨e', he', hsame⟩

/-- Two keys go into a bucket of two entries: it is not yet full when they come. -/
theorem keepsUsedLast_two :
    KeepsUsedLast 2 1 (fun _ => 0) [Operation.insert 0 0, .insert 1 0] := by
  refine (keepsUsedLast_iff 2 1 (fun _ => 0) (by decide) _).mpr fun before k v after hops => ?_
  match before, hops with
  | [], hops =>
    cases hops
    exact fun _ hfull => absurd hfull (by decide)
  | [_], hops =>
    cases hops
    exact fun _ hfull => absurd hfull (by decide)
  | _ :: _ :: _, hops => simp at hops

end FlatConcurrentCache
