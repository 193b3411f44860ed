import Mozkey.LruRefinementProofs

/-! # LruCache — a list of the last used elements

    The reference is a list of at most so many elements, the last used one first.  A cache
    does what a reference of the size does that its blocks hold in the end, which is not
    always `max_elements`: ten blocks of doubling size hold 1023 times the first one, and the
    constructor takes the first one such that 1024 times it is enough. -/

namespace LruPointers

open LruCache

variable {K V : Type} [DecidableEq K]

/-! ## The operations and the reference -/

/-- The calls of a cache, with what the caller writes through the pointer it gets. -/
inductive Op (K V : Type) where
  | insert (key : K) (value : V)
  | lookup (key : K)
  | mutableLookup (key : K) (write : V → V)
  | lookupWithoutInsert (key : K)
  | mutableLookupWithoutInsert (key : K) (write : V → V)
  | erase (key : K)
  | clear

/-- What an operation returns. -/
inductive Result (V : Type) where
  | done
  | value (value : Option V)
  | erased (erased : Bool)

section

variable [Inhabited K] [Inhabited V]

/-- A call of a cache; `none` where a check fails. -/
def Cache.step (c : Cache K V) : Op K V → Option (Result V × Cache K V)
  | .insert key value => (c.insert key value).map fun c => (.done, c)
  | .lookup key => some (.value (c.lookup key).1, (c.lookup key).2)
  | .mutableLookup key write =>
    some (.value (c.mutableLookup key write).1, (c.mutableLookup key write).2)
  | .lookupWithoutInsert key => some (.value (c.lookupWithoutInsert key), c)
  | .mutableLookupWithoutInsert key write =>
    some (.value (c.mutableLookupWithoutInsert key write).1,
      (c.mutableLookupWithoutInsert key write).2)
  | .erase key => (c.erase key).map fun r => (.erased r.1, r.2)
  | .clear => c.clear.map fun c => (.done, c)

/-- The calls of a cache, one after the other. -/
def Cache.run (c : Cache K V) : List (Op K V) → Option (List (Result V) × Cache K V)
  | [] => some ([], c)
  | op :: ops =>
    (c.step op).bind fun r => (r.2.run ops).map fun rs => (r.1 :: rs.1, rs.2)

end

namespace Reference

/-- The element of a key. -/
def find (l : List (LruElement K V)) (key : K) : Option (LruElement K V) :=
  l.find? fun e => e.key = key

/-- The list without a key. -/
def remove (l : List (LruElement K V)) (key : K) : List (LruElement K V) :=
  l.filter fun e => e.key ≠ key

/-- A write to the value of a key. -/
def write (l : List (LruElement K V)) (key : K) (f : V → V) : List (LruElement K V) :=
  l.map fun e => if e.key = key then { e with value := f e.value } else e

/-- The elements behind the one that is inserted: the last one goes where the key is new and
    the list is full. -/
def kept (max : Nat) (l : List (LruElement K V)) (key : K) : List (LruElement K V) :=
  if (find l key).isSome then remove l key
  else if l.length = max then l.dropLast
  else l

/-- The list with the element of a key at its head. -/
def touch (l : List (LruElement K V)) (key : K) : List (LruElement K V) :=
  match find l key with
  | some e => e :: remove l key
  | none => l

/-- A call of a reference of at most `max` elements. -/
def step (max : Nat) (l : List (LruElement K V)) : Op K V → Result V × List (LruElement K V)
  | .insert key value => (.done, { key, value } :: kept max l key)
  | .lookup key => (.value ((find l key).map LruElement.value), touch l key)
  | .mutableLookup key f =>
    (.value ((find l key).map LruElement.value), write (touch l key) key f)
  | .lookupWithoutInsert key => (.value ((find l key).map LruElement.value), l)
  | .mutableLookupWithoutInsert key f =>
    (.value ((find l key).map LruElement.value), write l key f)
  | .erase key => (.erased (find l key).isSome, remove l key)
  | .clear => (.done, [])

/-- The calls of a reference, one after the other. -/
def run (max : Nat) (l : List (LruElement K V)) :
    List (Op K V) → List (Result V) × List (LruElement K V)
  | [] => ([], l)
  | op :: ops =>
    ((step max l op).1 :: (run max (step max l op).2 ops).1, (run max (step max l op).2 ops).2)

end Reference

/-! ## A cache is a reference of the size of its blocks -/

theorem find_eq (m : LruCache K V) (key : K) :
    LruCache.lookupInternal m key = Reference.find m.lru key := rfl

variable {m : LruCache K V}

theorem remove_eq [Inhabited V] (hs : Sound m) (key : K) :
    LruCache.removeFromLru key m.lru = Reference.remove m.lru key :=
  removeFromLru_eq_filter key hs.nodup

omit [DecidableEq K] in
theorem length_le_total (hs : Sound m) :
    m.lru.length ≤ Blocks.total m.maxElements := by
  obtain ⟨n, hn⟩ := hs.grown
  have hroom := hs.room
  have hle := Blocks.capacity_le_total m.maxElements n
  rw [hn] at hroom
  omega

theorem kept_eq [Inhabited V] (hs : Sound m) (key : K) :
    kept m key = Reference.kept (Blocks.total m.maxElements) m.lru key := by
  have hle := length_le_total hs
  rw [kept, Reference.kept, find_eq, remove_eq hs]
  split_ifs with hfound hlt heq heq
  · rfl
  · omega
  · rfl
  · rfl
  · omega

variable {l : List (LruElement K V)} {key : K}

theorem write_of_find_eq_none (f : V → V) (h : Reference.find l key = none) :
    Reference.write l key f = l := by
  rw [Reference.find, List.find?_eq_none] at h
  rw [Reference.write, List.map_congr_left fun e he => if_neg fun hkey => h e he
    (decide_eq_true hkey), List.map_id']

theorem write_id (l : List (LruElement K V)) (key : K) : Reference.write l key id = l := by
  rw [Reference.write]
  refine (List.map_congr_left fun e _ => ?_).trans (List.map_id l)
  split_ifs <;> rfl

variable {c : Cache K V}

section

variable [Inhabited K] [Inhabited V]

theorem step_mutableLookup (h : Represents c m) (key : K) (f : V → V) :
    ∃ m', m'.maxElements = m.maxElements ∧
      Represents (c.mutableLookup key f).2 m' ∧
      (c.mutableLookup key f).1 = (Reference.find m.lru key).map LruElement.value ∧
      m'.lru = Reference.write (Reference.touch m.lru key) key f := by
  rcases represents_mutableLookup h key f with ⟨value, m', hlookup, hvalue, hrep⟩ | ⟨hlookup, heq⟩
  · obtain ⟨e, he, heq⟩ := Option.map_eq_some_iff.mp hlookup
    obtain ⟨hvalue', hm'⟩ := Prod.mk.inj heq
    rw [find_eq] at he
    have hkey := (lookupInternal_eq_some (c := m) he).2
    refine ⟨LruCache.modifyValue m' key f, by rw [← hm']; rfl, hrep, ?_, ?_⟩
    · rw [hvalue, he, Option.map_some, hvalue']
    · rw [Reference.touch, he, ← remove_eq h.1, ← hkey, ← hm']
      rfl
  · have hnone : Reference.find m.lru key = none := Option.map_eq_none_iff.mp hlookup
    rw [heq]
    refine ⟨m, rfl, h, ?_, ?_⟩
    · rw [hnone]
      rfl
    · rw [Reference.touch, hnone]
      exact (write_of_find_eq_none f hnone).symm

/-- **A CALL** of a cache. -/
theorem step_eq (h : Represents c m) (hpos : 0 < m.maxElements) (hmax : m.maxElements ≤ 2 ^ 63)
    (op : Op K V) :
    ∃ c' m', c.step op = some ((Reference.step (Blocks.total m.maxElements) m.lru op).1, c') ∧
      m'.maxElements = m.maxElements ∧ Represents c' m' ∧
      m'.lru = (Reference.step (Blocks.total m.maxElements) m.lru op).2 := by
  cases op with
  | insert key value =>
    obtain ⟨c', m', hinsert, -, hmax', hlru, hrep⟩ := represents_insert h hpos hmax key value
    refine ⟨c', m', ?_, hmax', hrep, ?_⟩
    · rw [Cache.step, hinsert]
      rfl
    · rw [hlru, kept_eq h.1]
      rfl
  | lookup key =>
    obtain ⟨m', hmax', hrep, hvalue, hlru⟩ := step_mutableLookup h key id
    refine ⟨_, m', ?_, hmax', hrep, ?_⟩
    · rw [Cache.step, Cache.lookup, hvalue]
      rfl
    · rw [hlru, write_id]
      rfl
  | mutableLookup key write =>
    obtain ⟨m', hmax', hrep, hvalue, hlru⟩ := step_mutableLookup h key write
    exact ⟨_, m', by rw [Cache.step, hvalue]; rfl, hmax', hrep, hlru⟩
  | lookupWithoutInsert key =>
    obtain ⟨hs, ps, qs, hrep⟩ := h
    refine ⟨c, m, ?_, rfl, ⟨hs, ps, qs, hrep⟩, rfl⟩
    rw [Cache.step, Reference.step, ← find_eq, hrep.lookupInternal key, Option.map_map]
    rfl
  | mutableLookupWithoutInsert key write =>
    obtain ⟨hvalue, hrep⟩ := represents_mutableLookupWithoutInsert h key write
    exact ⟨_, LruCache.modifyValue m key write, by rw [Cache.step, hvalue]; rfl, rfl, hrep, rfl⟩
  | erase key =>
    obtain ⟨c', herase, hrep⟩ := represents_erase h key
    obtain ⟨-, hmax', hlru⟩ := erase_spec h.1 key
    refine ⟨c', LruCache.erase m key, ?_, hmax', hrep, ?_⟩
    · rw [Cache.step, herase]
      rfl
    · rw [hlru, remove_eq h.1]
      rfl
  | clear =>
    obtain ⟨c', hclear, hrep⟩ := represents_clear h
    exact ⟨c', LruCache.clear m, by rw [Cache.step, hclear]; rfl, rfl, hrep, rfl⟩

/-- **A RUN** of a cache is one of a reference of the size of its blocks, or of any size that
    makes no difference. -/
theorem run_eq {max n : Nat} (hpos : 0 < max) (hmax : max ≤ 2 ^ 63)
    (hn : ∀ m : LruCache K V, Sound m → m.maxElements = max → ∀ op,
      Reference.step (Blocks.total max) m.lru op = Reference.step n m.lru op) :
    ∀ {ops : List (Op K V)} {c : Cache K V} {m : LruCache K V}, Represents c m →
    m.maxElements = max →
    ∃ c' m', c.run ops = some ((Reference.run n m.lru ops).1, c') ∧ Represents c' m' ∧
      m'.maxElements = max ∧ m'.lru = (Reference.run n m.lru ops).2 := by
  intro ops
  induction ops with
  | nil =>
    intro c m h hm
    exact ⟨c, m, rfl, h, hm, rfl⟩
  | cons op ops ih =>
    intro c m h hm
    obtain ⟨c₁, m₁, hstep, hmax₁, hrep₁, hlru₁⟩ :=
      step_eq h (by rw [hm]; exact hpos) (by rw [hm]; exact hmax) op
    rw [hm, hn m h.1 hm op] at hstep hlru₁
    obtain ⟨c', m', hrun, hrep', hmax', hlru'⟩ := ih hrep₁ (hmax₁.trans hm)
    rw [hlru₁] at hrun hlru'
    refine ⟨c', m', ?_, hrep', hmax', hlru'⟩
    rw [Cache.run, hstep, Option.bind_some, hrun]
    rfl

/-! ## The constructor -/

end

variable {max : UInt64}

theorem doubleUntil_unique : ∀ {fuel fuel' : Nat} {next r r' : UInt64},
    doubleUntil max fuel next = some r → doubleUntil max fuel' next = some r' → r = r' := by
  intro fuel
  induction fuel with
  | zero => intro fuel' next r r' h _; cases h
  | succ fuel ih =>
    intro fuel' next r r' h h'
    cases fuel' with
    | zero => cases h'
    | succ fuel' =>
      rw [doubleUntil] at h h'
      split_ifs at h h' with hlt
      · exact ih h h'
      · exact (Option.some.inj h).symm.trans (Option.some.inj h')

theorem toNat_shiftLeft_of_lt {x k : UInt64} (hk : k.toNat < 64)
    (h : x.toNat * 2 ^ k.toNat < 2 ^ 64) : (x <<< k).toNat = x.toNat <<< k.toNat := by
  rw [UInt64.toNat_shiftLeft, Nat.mod_eq_of_lt hk, Nat.mod_eq_of_lt]
  rw [Nat.shiftLeft_eq]
  exact h

/-- The loop ends if the size does not wrap around before it is enough. -/
theorem exists_doubleUntil {max : UInt64} (hmax : max.toNat ≤ 2 ^ 63) :
    ∀ {fuel : Nat} {next : UInt64}, next.toNat * 2 ^ 10 < 2 ^ 64 →
      max.toNat ≤ next.toNat * 2 ^ 10 * 2 ^ fuel →
      ∃ r, doubleUntil max (fuel + 1) next = some r ∧
        r.toNat = Blocks.doubleUntil max.toNat fuel next.toNat := by
  intro fuel
  induction fuel with
  | zero =>
    intro next hnext hle
    have hshift : (next <<< 10).toNat = next.toNat <<< 10 :=
      toNat_shiftLeft_of_lt (k := 10) (by decide) hnext
    refine ⟨next, ?_, rfl⟩
    rw [doubleUntil, if_neg]
    rw [UInt64.lt_iff_toNat_lt, hshift, Nat.shiftLeft_eq]
    rw [Nat.pow_zero, Nat.mul_one] at hle
    exact Nat.not_lt.mpr hle
  | succ fuel ih =>
    intro next hnext hle
    have hshift : (next <<< 10).toNat = next.toNat <<< 10 :=
      toNat_shiftLeft_of_lt (k := 10) (by decide) hnext
    have hdouble : (next <<< 1).toNat = next.toNat <<< 1 := by
      refine toNat_shiftLeft_of_lt (k := 1) (by decide) ?_
      show next.toNat * 2 ^ 1 < 2 ^ 64
      omega
    have hiff : next <<< 10 < max ↔ next.toNat <<< 10 < max.toNat := by
      rw [UInt64.lt_iff_toNat_lt, hshift]
    rw [doubleUntil, Blocks.doubleUntil, ← hdouble]
    by_cases hlt : next.toNat <<< 10 < max.toNat
    · rw [if_pos (hiff.mpr hlt), if_pos hlt]
      rw [Nat.shiftLeft_eq] at hlt hdouble
      have hnext' : (next <<< 1).toNat * 2 ^ 10 < 2 ^ 64 := by
        calc (next <<< 1).toNat * 2 ^ 10 = next.toNat * 2 ^ 10 * 2 := by rw [hdouble]; ring
          _ < 2 ^ 63 * 2 := Nat.mul_lt_mul_of_pos_right (Nat.lt_of_lt_of_le hlt hmax) (by decide)
          _ = 2 ^ 64 := rfl
      refine ih hnext' ?_
      calc max.toNat ≤ next.toNat * 2 ^ 10 * 2 ^ (fuel + 1) := hle
        _ = (next <<< 1).toNat * 2 ^ 10 * 2 ^ fuel := by rw [hdouble, Nat.pow_succ]; ring
    · rw [if_neg (fun h => hlt (hiff.mp h)), if_neg hlt]
      exact ⟨next, rfl, rfl⟩

/-- A power of two, or the zero that it becomes. -/
def IsPower (x : UInt64) : Prop := x.toNat = 0 ∨ ∃ i ≤ 63, x.toNat = 2 ^ i

theorem IsPower.shiftLeft {x : UInt64} (h : IsPower x) {k : UInt64} (hk : k.toNat < 64) :
    IsPower (x <<< k) := by
  rw [IsPower, UInt64.toNat_shiftLeft, Nat.mod_eq_of_lt hk, Nat.shiftLeft_eq]
  rcases h with hzero | ⟨i, -, hpow⟩
  · rw [hzero, Nat.zero_mul]
    exact Or.inl rfl
  · rw [hpow, ← Nat.pow_add]
    rcases Nat.lt_or_ge (i + k.toNat) 64 with hlt | hge
    · rw [Nat.mod_eq_of_lt (Nat.pow_lt_pow_right (by decide) hlt)]
      exact Or.inr ⟨i + k.toNat, Nat.le_of_lt_succ hlt, rfl⟩
    · exact Or.inl (Nat.mod_eq_zero_of_dvd (Nat.pow_dvd_pow 2 hge))

/-- **THE LOOP DOES NOT END** where no power of two is enough. -/
theorem doubleUntil_eq_none (hmax : 2 ^ 63 < max.toNat) :
    ∀ {fuel : Nat} {next : UInt64}, IsPower next → doubleUntil max fuel next = none := by
  intro fuel
  induction fuel with
  | zero => intro next _; rfl
  | succ fuel ih =>
    intro next hnext
    have hlt : next <<< 10 < max := by
      rw [UInt64.lt_iff_toNat_lt]
      rcases hnext.shiftLeft (k := 10) (by decide) with hzero | ⟨i, hi, hpow⟩
      · omega
      · rw [hpow]
        exact Nat.lt_of_le_of_lt (Nat.pow_le_pow_right (by decide) hi) hmax
    rw [doubleUntil, if_pos hlt]
    exact ih (hnext.shiftLeft (by decide))

omit [DecidableEq K] in

/-- Where the loop of the constructor does not end. -/
theorem ofMax_eq_none [Inhabited K] [Inhabited V] (hmax : 2 ^ 63 < max.toNat) (fuel : Nat) :
    Cache.ofMax (K := K) (V := V) fuel max = none := by
  have hlarge : ¬ max ≤ 128 := by
    rw [UInt64.le_iff_toNat_le]
    show ¬ max.toNat ≤ 128
    omega
  rw [Cache.ofMax, if_neg hlarge, doubleUntil_eq_none hmax (Or.inr ⟨6, by decide, rfl⟩)]
  rfl

omit [DecidableEq K] in
/-- **THE CONSTRUCTOR** of a cache whose size a power of two is enough for. -/
theorem exists_ofMax [Inhabited K] [Inhabited V] (hmax : max.toNat ≤ 2 ^ 63) :
    ∃ fuel c, Cache.ofMax (K := K) (V := V) fuel max = some c := by
  by_cases hsmall : max ≤ 128
  · exact ⟨0, _, by rw [Cache.ofMax, if_pos hsmall]; rfl⟩
  · have hfuel := Nat.lt_two_pow_self (n := max.toNat)
    obtain ⟨r, hr, -⟩ := @exists_doubleUntil max hmax max.toNat 64 (by decide) (by
      show max.toNat ≤ 64 * 2 ^ 10 * 2 ^ max.toNat
      omega)
    exact ⟨max.toNat + 1, _, by rw [Cache.ofMax, if_neg hsmall, hr]; rfl⟩

theorem represents_of_ofMax [Inhabited K] [Inhabited V] {fuel : Nat}
    (h : Cache.ofMax fuel max = some c) (hmax : max.toNat ≤ 2 ^ 63) :
    Represents c (LruCache.ofMax max.toNat) := by
  refine represents_ofMax h ?_
  obtain ⟨next, hnext, rfl⟩ := Option.map_eq_some_iff.mp h
  show next.toNat = _
  by_cases hsmall : max ≤ 128
  · rw [if_pos hsmall] at hnext
    rw [Blocks.start_next_of_le (UInt64.le_iff_toNat_le.mp hsmall), Option.some.inj hnext]
  · rw [if_neg hsmall] at hnext
    have hfuel := Nat.lt_two_pow_self (n := max.toNat)
    obtain ⟨r, hr, hr'⟩ := @exists_doubleUntil max hmax max.toNat 64 (by decide) (by
      show max.toNat ≤ 64 * 2 ^ 10 * 2 ^ max.toNat
      omega)
    obtain rfl := doubleUntil_unique hnext hr
    rw [hr', Blocks.start, if_neg]
    · rfl
    · exact fun hle => hsmall (UInt64.le_iff_toNat_le.mpr hle)

/-! ## How much the blocks hold -/

/-- The first block of a cache that is not small is a power of two. -/
theorem exists_start_pow {max : Nat} (h : 128 < max) :
    ∃ j, 6 ≤ j ∧ (Blocks.start max).next = 2 ^ j := by
  have hloop : ∀ {fuel i : Nat}, 6 ≤ i →
      ∃ j, 6 ≤ j ∧ Blocks.doubleUntil max fuel (2 ^ i) = 2 ^ j := by
    intro fuel
    induction fuel with
    | zero => intro i hi; exact ⟨i, hi, rfl⟩
    | succ fuel ih =>
      intro i hi
      rw [Blocks.doubleUntil]
      split_ifs
      · rw [Nat.shiftLeft_eq, ← Nat.pow_add]
        exact ih (by omega)
      · exact ⟨i, hi, rfl⟩
  rw [Blocks.start, if_neg (Nat.not_le.mpr h)]
  exact hloop (i := 6) (Nat.le_refl 6)

/-- A size that ten blocks of doubling size miss, by less than the first one. -/
def Missed (max j : Nat) : Prop := 6 ≤ j ∧ 1023 * 2 ^ j < max ∧ max ≤ 1024 * 2 ^ j

/-- **THE BLOCKS HOLD** all elements unless the size is missed. -/
theorem total_eq_of_not_missed {max : Nat} (h : ∀ j, ¬ Missed max j) :
    Blocks.total max = max := by
  rw [Blocks.total, Nat.min_eq_left]
  rcases Nat.lt_or_ge 128 max with hlarge | hsmall
  · obtain ⟨j, hj, hstart⟩ := exists_start_pow hlarge
    by_contra hlt
    refine h j ⟨hj, ?_, ?_⟩
    · rw [← hstart]
      omega
    · rw [← hstart]
      exact (Blocks.start_next hlarge).2.2
  · have := Blocks.start_next_of_le hsmall
    omega

/-- How many elements the blocks hold where a size is missed. -/
theorem total_eq_of_missed {max j : Nat} (h : Missed max j) :
    Blocks.total max = 1023 * 2 ^ j := by
  obtain ⟨hj, hlt, hle⟩ := h
  have hpow : 2 ^ 6 ≤ 2 ^ j := Nat.pow_le_pow_right (by decide) hj
  have hlarge : 128 < max := by omega
  obtain ⟨hge, hfirst, hmax⟩ := Blocks.start_next hlarge
  obtain ⟨i, hi, hstart⟩ := exists_start_pow hlarge
  rw [hstart] at hge hfirst hmax
  have hij : i = j := by
    rcases Nat.lt_trichotomy i j with hlt' | heq | hgt
    · have := Nat.pow_le_pow_right (show 0 < 2 by decide) (Nat.succ_le_of_lt hlt')
      rw [Nat.pow_succ] at this
      omega
    · exact heq
    · have := Nat.pow_le_pow_right (show 0 < 2 by decide) (Nat.succ_le_of_lt hgt)
      rw [Nat.pow_succ] at this
      omega
  rw [Blocks.total, hstart, hij, Nat.min_eq_right (by omega)]

/-! ## What a reference loses -/

namespace Reference

theorem find_isSome_iff :
    (find l key).isSome ↔ key ∈ l.map LruElement.key := by
  rw [find, List.find?_isSome, List.mem_map]
  constructor
  · rintro ⟨e, he, hkey⟩
    exact ⟨e, he, of_decide_eq_true hkey⟩
  · rintro ⟨e, he, hkey⟩
    exact ⟨e, he, decide_eq_true hkey⟩

theorem keys_write (l : List (LruElement K V)) (key : K) (f : V → V) :
    (write l key f).map LruElement.key = l.map LruElement.key := by
  rw [write, List.map_map]
  refine List.map_congr_left fun e _ => ?_
  show LruElement.key (if e.key = key then _ else e) = e.key
  split_ifs <;> rfl

variable {e : LruElement K V}

theorem mem_remove (he : e ∈ l) (hne : e.key ≠ key) : e ∈ remove l key :=
  List.mem_filter.mpr ⟨he, decide_eq_true hne⟩

theorem key_mem_touch (he : e ∈ l) (key : K) :
    e.key ∈ (touch l key).map LruElement.key := by
  rw [touch]
  cases hfind : find l key with
  | none => exact List.mem_map_of_mem he
  | some e' =>
    rcases eq_or_ne e.key key with heq | hne
    · have hkey : e'.key = key := by simpa using List.find?_some hfind
      exact List.mem_map.mpr ⟨e', List.mem_cons_self, hkey.trans heq.symm⟩
    · exact List.mem_map_of_mem (List.mem_cons_of_mem _ (mem_remove he hne))

/-- **AN ELEMENT IS EVICTED** only by inserting a new key where the list is full. -/
theorem evicted {n : Nat} (he : e ∈ l) {op : Op K V}
    (hgone : e.key ∉ (step n l op).2.map LruElement.key) :
    op = .erase e.key ∨ op = .clear ∨ ∃ key value, op = .insert key value ∧
      key ∉ l.map LruElement.key ∧ l.length = n := by
  have hmem : e.key ∈ l.map LruElement.key := List.mem_map_of_mem he
  cases op with
  | insert key value =>
    refine Or.inr (Or.inr ⟨key, value, rfl, ?_⟩)
    rw [step, List.map_cons, List.mem_cons, not_or] at hgone
    obtain ⟨hne, hgone⟩ := hgone
    rw [kept] at hgone
    split_ifs at hgone with hfind hfull
    · exact absurd (List.mem_map_of_mem (mem_remove he hne)) hgone
    · exact ⟨fun hkey => hfind (find_isSome_iff.mpr hkey), hfull⟩
    · exact absurd hmem hgone
  | lookup key => exact absurd (key_mem_touch he key) hgone
  | mutableLookup key f =>
    rw [step, keys_write] at hgone
    exact absurd (key_mem_touch he key) hgone
  | lookupWithoutInsert key => exact absurd hmem hgone
  | mutableLookupWithoutInsert key f =>
    rw [step, keys_write] at hgone
    exact absurd hmem hgone
  | erase key =>
    rcases eq_or_ne e.key key with rfl | hne
    · exact Or.inl rfl
    · exact absurd (List.mem_map_of_mem (mem_remove he hne)) hgone
  | clear => exact Or.inr (Or.inl rfl)

/-- Keys that are all new are all there behind their inserts, as long as there is room. -/
theorem length_run_insert {n : Nat} (value : V) : ∀ {keys : List K} {l : List (LruElement K V)},
    (keys ++ l.map LruElement.key).Nodup → l.length + keys.length ≤ n →
    (run n l (keys.map fun key => Op.insert key value)).2.length = l.length + keys.length := by
  intro keys
  induction keys with
  | nil => intro l _ _; rfl
  | cons key keys ih =>
    intro l hnodup hle
    rw [List.length_cons] at hle
    obtain ⟨hkey, hnodup'⟩ := List.nodup_cons.mp hnodup
    have hfind : ¬ (find l key).isSome := fun hfind =>
      hkey (List.mem_append_right _ (find_isSome_iff.mp hfind))
    have hkept : (step n l (.insert key value)).2 = { key, value } :: l := by
      rw [step, kept, if_neg hfind, if_neg (by omega)]
    rw [List.map_cons, run, hkept]
    dsimp only
    have hroom : ({ key, value } :: l).length + keys.length ≤ n := by
      rw [List.length_cons]
      omega
    rw [ih (l := { key, value } :: l) (List.nodup_middle.mpr hnodup) hroom, List.length_cons,
      List.length_cons]
    omega

theorem run_append (n : Nat) (op : Op K V) : ∀ (ops : List (Op K V)) (l : List (LruElement K V)),
    (run n l (ops ++ [op])).2 = (step n (run n l ops).2 op).2 := by
  intro ops
  induction ops with
  | nil => intro l; rfl
  | cons op' ops ih => intro l; exact ih _

end Reference

variable [Inhabited K] [Inhabited V]

theorem run_append {op : Op K V} {r : Result V} {c' : Cache K V} :
    ∀ {ops : List (Op K V)} {c₀ c : Cache K V} {rs : List (Result V)},
      c₀.run ops = some (rs, c) → c.step op = some (r, c') →
      c₀.run (ops ++ [op]) = some (rs ++ [r], c') := by
  intro ops
  induction ops with
  | nil =>
    intro c₀ c rs hrun hstep
    obtain ⟨rfl, rfl⟩ := Prod.mk.inj (Option.some.inj hrun)
    rw [List.nil_append, Cache.run, hstep]
    rfl
  | cons op' ops ih =>
    intro c₀ c rs hrun hstep
    rw [Cache.run] at hrun
    obtain ⟨⟨r₁, c₁⟩, hstep₁, hrun⟩ := Option.bind_eq_some_iff.mp hrun
    obtain ⟨⟨rs₂, c₂⟩, hrun₂, heq⟩ := Option.map_eq_some_iff.mp hrun
    obtain ⟨rfl, rfl⟩ := Prod.mk.inj heq
    rw [List.cons_append, Cache.run, hstep₁, Option.bind_some, ih hrun₂ hstep]
    rfl

/-! ## When a cache is exact -/

/-- A cache can be constructed, and in every run its results and its elements in their order
    are those of a reference of `max_elements` elements; an element is evicted only by
    inserting a new key where so many elements are there. -/
def ExactLru (K V : Type) [DecidableEq K] [Inhabited K] [Inhabited V] (max : UInt64) : Prop :=
  ∃ fuel c₀, Cache.ofMax fuel max = some c₀ ∧ ∀ ops : List (Op K V), ∃ c,
    c₀.run ops = some ((Reference.run max.toNat [] ops).1, c) ∧
    c.elements = (Reference.run max.toNat [] ops).2 ∧
    ∀ op r c', c.step op = some (r, c') →
      ∀ e ∈ c.elements, e.key ∉ c'.elements.map LruElement.key →
        op = .erase e.key ∨ op = .clear ∨ ∃ key value, op = .insert key value ∧
          key ∉ c.elements.map LruElement.key ∧ c.elements.length = max.toNat

/-- The constructor ends, and the size is not missed, or there are not as many keys. -/
def BlocksSuffice (K : Type) (max : Nat) : Prop :=
  max ≤ 2 ^ 63 ∧ ∀ j, Missed max j → ∀ keys : List K, keys.Nodup → keys.length ≤ 1023 * 2 ^ j

omit [Inhabited K] [Inhabited V] in
theorem step_total_eq {max : Nat} (h : BlocksSuffice K max) (hs : Sound m) (op : Op K V) :
    Reference.step (Blocks.total max) m.lru op = Reference.step max m.lru op := by
  by_cases hmissed : ∃ j, Missed max j
  · obtain ⟨j, hj⟩ := hmissed
    cases op with
    | insert key value =>
      have hkept : Reference.kept (Blocks.total max) m.lru key
          = Reference.kept max m.lru key := by
        rw [Reference.kept, Reference.kept]
        by_cases hfind : (Reference.find m.lru key).isSome
        · rw [if_pos hfind, if_pos hfind]
        · -- the new key is one more, so the list is not full
          have hkeys := h.2 j hj (key :: m.lru.map LruElement.key) (List.nodup_cons.mpr
            ⟨fun hkey => hfind (Reference.find_isSome_iff.mpr hkey), hs.nodup⟩)
          rw [List.length_cons, List.length_map] at hkeys
          have htotal := total_eq_of_missed hj
          have hlt := hj.2.1
          rw [if_neg hfind, if_neg hfind, if_neg (by omega), if_neg (by omega)]
      rw [Reference.step, Reference.step, hkept]
    | _ => rfl
  · rw [total_eq_of_not_missed fun j hj => hmissed ⟨j, hj⟩]

theorem exactLru_of_suffice (hpos : 0 < max) (h : BlocksSuffice K max.toNat) :
    ExactLru K V max := by
  obtain ⟨fuel, c₀, hc₀⟩ := exists_ofMax (K := K) (V := V) h.1
  have hrep₀ := represents_of_ofMax hc₀ h.1
  have hrun : ∀ ops : List (Op K V), ∃ c, c₀.run ops
      = some ((Reference.run max.toNat [] ops).1, c) ∧
      c.elements = (Reference.run max.toNat [] ops).2 := by
    intro ops
    obtain ⟨c, m, hrun, hrep, -, hlru⟩ := @run_eq K V _ _ _ _ _ (UInt64.lt_iff_toNat_lt.mp hpos)
      h.1 (fun m hs _ op => step_total_eq h hs op) ops _ _ hrep₀ rfl
    exact ⟨c, hrun, (elements_eq hrep).trans hlru⟩
  refine ⟨fuel, c₀, hc₀, fun ops => ?_⟩
  obtain ⟨c, hc, helements⟩ := hrun ops
  refine ⟨c, hc, helements, fun op r c' hstep e he hgone => ?_⟩
  obtain ⟨c₁, hc₁, helements₁⟩ := hrun (ops ++ [op])
  have hc' := run_append hc hstep
  rw [hc₁] at hc'
  obtain rfl : c₁ = c' := (Prod.mk.inj (Option.some.inj hc')).2
  rw [helements₁, Reference.run_append] at hgone
  rw [helements] at he ⊢
  exact Reference.evicted he hgone

theorem suffice_of_exactLru (hpos : 0 < max) (h : ExactLru K V max) :
    BlocksSuffice K max.toNat := by
  obtain ⟨fuel, c₀, hc₀, hexact⟩ := h
  have hmax : max.toNat ≤ 2 ^ 63 := by
    by_contra hlt
    rw [ofMax_eq_none (Nat.lt_of_not_le hlt)] at hc₀
    cases hc₀
  refine ⟨hmax, fun j hj keys hnodup => ?_⟩
  by_contra hlt
  have htotal := total_eq_of_missed hj
  have hsome := hj.2.1
  -- one key more than the blocks hold
  have htake : (keys.take (1023 * 2 ^ j + 1)).length = 1023 * 2 ^ j + 1 := by
    rw [List.length_take]
    omega
  obtain ⟨c, hrun, helements, -⟩ := hexact
    ((keys.take (1023 * 2 ^ j + 1)).map fun key => Op.insert key default)
  obtain ⟨c', m', hrun', hrep', hmax', -⟩ := @run_eq K V _ _ _ _ (Blocks.total max.toNat)
    (UInt64.lt_iff_toNat_lt.mp hpos) hmax (fun _ _ _ _ => rfl)
    ((keys.take (1023 * 2 ^ j + 1)).map fun key => Op.insert key default) _ _
    (represents_of_ofMax hc₀ hmax) rfl
  rw [hrun] at hrun'
  obtain rfl : c = c' := (Prod.mk.inj (Option.some.inj hrun')).2
  have hlength := congrArg List.length helements
  rw [Reference.length_run_insert default (by
      rw [List.map_nil, List.append_nil]
      exact hnodup.sublist (List.take_sublist _ _)) (by rw [List.length_nil, htake]; omega),
    elements_eq hrep', htake, List.length_nil] at hlength
  have hle := length_le_total hrep'.1
  rw [hmax', htotal] at hle
  omega

/-- **A CACHE IS EXACT** unless ten blocks miss its size. -/
theorem exactLru_iff (max : UInt64) (hpos : 0 < max) :
    ExactLru K V max ↔ BlocksSuffice K max.toNat :=
  ⟨suffice_of_exactLru hpos, exactLru_of_suffice hpos⟩

/-- A cache of a hundred elements is exact. -/
theorem exactLru_iff_hundred : (0 : UInt64) < 100 ∧ ExactLru Nat Nat 100 :=
  ⟨by decide, (exactLru_iff 100 (by decide)).mpr
    ⟨by decide, fun j hj => by
      have hlt : 1023 * 2 ^ j < 100 := hj.2.1
      have := Nat.two_pow_pos j
      omega⟩⟩

/-- Ten blocks hold 65472 of 65500 elements. -/
theorem exactLru_missed : ¬ ∀ max : UInt64, 0 < max → ExactLru Nat Nat max := by
  intro h
  have hkeys := (suffice_of_exactLru (by decide) (h 65500 (by decide))).2 6
    ⟨by decide, by decide, by decide⟩ (List.range 65473) List.nodup_range
  rw [List.length_range] at hkeys
  exact absurd hkeys (by decide)

end LruPointers
