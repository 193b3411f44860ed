import Mozkey.TrieDeletionProofs

/-! # Trie — a run of the trie against the finite map of the run

    Keys are bytes here.  A run adds and deletes entries; the map of the run holds the value
    last added for a key and not deleted since. -/

namespace CharTrie

open ByteString MozkeyUtil

variable {α : Type}

/-! ## Keys as bytes -/

/-- The path spells the key. -/
theorem flatMap_path {key : Bytes} (hkey : ValidUtf8 key) : (path key).flatMap utf8 = key := by
  obtain ⟨cs, hcs, rfl⟩ := hkey
  rw [path_flatMap fun c hc => (hcs c hc).lt]

/-- Keys differ by their paths. -/
theorem path_inj {key key' : Bytes} (hkey : ValidUtf8 key) (hkey' : ValidUtf8 key') :
    path key = path key' ↔ key = key' :=
  ⟨fun heq => by rw [← flatMap_path hkey, heq, flatMap_path hkey'], congrArg path⟩

/-- The path of a key that goes on. -/
theorem path_append {key : Bytes} (hkey : ValidUtf8 key) (rest : Bytes) :
    path (key ++ rest) = path key ++ path rest := by
  rw [path, letters_valid_append hkey, List.map_append, path, path]

/-- Fronts of keys are fronts of paths. -/
theorem path_prefix_iff {key key' : Bytes} (hkey : ValidUtf8 key) (hkey' : ValidUtf8 key') :
    path key <+: path key' ↔ key <+: key' := by
  refine ⟨fun hstarts => (prefix_of_path hkey hkey' hstarts).1, ?_⟩
  rintro ⟨rest, rfl⟩
  rw [path_append hkey]
  exact List.prefix_append _ _

theorem path_bounds {key : Bytes} (hkey : ValidUtf8 key) (hnul : (0 : UInt8) ∉ key) :
    ∀ c ∈ path key, c ≠ 0 ∧ c < 0x200000 := by
  obtain ⟨cs, hcs, rfl⟩ := hkey
  have hlt : ∀ c ∈ cs, c < 0x200000 := fun c hc => (hcs c hc).lt
  rw [path_flatMap hlt]
  refine fun c hc => ⟨?_, hlt c hc⟩
  rintro rfl
  exact hnul (zero_mem_flatMap_utf8.mpr hc)

variable {s : Bytes}

/-- Characters other than 0 that a path starts with have been read of their own bytes. -/
theorem exists_append_of_prefix_path {cs : List Nat} (h : cs <+: path s)
    (hcs : ∀ c ∈ cs, c ≠ 0 ∧ c < 0x200000) :
    ∃ rest, s = cs.flatMap utf8 ++ rest ∧ path s = cs ++ path rest := by
  induction cs generalizing s with
  | nil => exact ⟨s, rfl, rfl⟩
  | cons c cs ih =>
    obtain ⟨⟨hne, hlt⟩, hcs⟩ := List.forall_mem_cons.mp hcs
    have hs : s ≠ [] := by
      rintro rfl
      exact List.cons_ne_nil _ _ (List.prefix_nil.mp h)
    rw [path, letters_eq hs, List.map_cons] at h
    obtain ⟨hc, h⟩ := List.cons_prefix_cons.mp h
    dsimp only at hc
    -- What cannot be read counts as the character 0.
    obtain ⟨rest, hread⟩ : ∃ rest, splitFirstChar32 s = some (c, rest) := by
      rw [firstChar] at hc
      cases hread : splitFirstChar32 s with
      | none => rw [hread] at hc; exact absurd hc hne
      | some read => rw [hread] at hc; exact ⟨read.2, by rw [hc]; rfl⟩
    have heq := eq_of_splitFirstChar32 hread hlt
    rw [firstChar, hread] at h
    obtain ⟨rest', hrest, hpath⟩ := ih h hcs
    change rest = _ at hrest
    change path rest = _ at hpath
    refine ⟨rest', ?_, ?_⟩
    · rw [heq, hrest, List.flatMap_cons, List.append_assoc]
    · rw [heq, path, letters_utf8 hlt, List.map_cons, List.cons_append]
      exact congrArg (List.cons c) hpath

/-- A valid key whose path stands at the start of another path stands at the start of the
    bytes, if these are valid or the key has no character 0. -/
theorem starts_of_path_starts {key : Bytes} (hkey : ValidUtf8 key)
    (hs : ValidUtf8 s ∨ (0 : UInt8) ∉ key) (h : path key <+: path s) : key <+: s := by
  rcases hs with hs | hnul
  · exact (path_prefix_iff hkey hs).mp h
  · obtain ⟨rest, heq, -⟩ := exists_append_of_prefix_path h (path_bounds hkey hnul)
    rw [flatMap_path hkey] at heq
    exact ⟨rest, heq.symm⟩

/-- Bytes whose path stands at the start of the path of a valid key without the character 0
    stand at the start of the key. -/
theorem starts_of_path_starts_key {key : Bytes} (hkey : ValidUtf8 key)
    (hs : ValidUtf8 s ∨ (0 : UInt8) ∉ key) (h : path s <+: path key) : s <+: key := by
  rcases hs with hs | hnul
  · exact (path_prefix_iff hs hkey).mp h
  · obtain ⟨rest, heq, hpath⟩ := exists_append_of_prefix_path (List.prefix_refl (path s))
      fun c hc => path_bounds hkey hnul c (h.subset hc)
    -- Nothing is left to read.
    have hrest : rest = [] := by
      by_contra hne
      rw [List.self_eq_append_right, path, letters_eq hne] at hpath
      exact List.cons_ne_nil _ _ hpath
    rw [hrest, List.append_nil] at heq
    obtain ⟨tail, htail⟩ := h
    refine ⟨tail.flatMap utf8, ?_⟩
    rw [← flatMap_path hkey, ← htail, List.flatMap_append, ← heq]

/-! ## The trie and the map -/

/-- What can be done to a trie. -/
inductive Op (α : Type) where
  | addEntry (key : Bytes) (d : α)
  | deleteEntry (key : Bytes)
  deriving DecidableEq

/-- The key of an operation. -/
def Op.key : Op α → Bytes
  | .addEntry key _ => key
  | .deleteEntry key => key

/-- What an operation makes of the trie. -/
def Op.run : Op α → Trie α → Trie α
  | .addEntry key d, t => CharTrie.addEntry (path key) d t
  | .deleteEntry key, t => (CharTrie.deleteEntry (path key) t).2

/-- What an operation makes of a finite map. -/
def Op.store : Op α → (Bytes → Option α) → Bytes → Option α
  | .addEntry key d, m => fun key' => if key' = key then some d else m key'
  | .deleteEntry key, m => fun key' => if key' = key then none else m key'

/-- The trie after a run that starts with an empty one. -/
def runTrie (ops : List (Op α)) : Trie α := ops.foldl (fun t op => op.run t) .empty

/-- The finite map of a run: the value last added for a key and not deleted since. -/
def stored (ops : List (Op α)) : Bytes → Option α :=
  ops.foldl (fun m op => op.store m) fun _ => none

/-- The deletion of `key` spares the other keys of `m`: the empty key is not the only one, and
    every other key on the way to `key` has an extension that does not lie on it. -/
def Spares (m : Bytes → Option α) (key : Bytes) : Prop :=
  (key = [] → ¬ ((m []).isSome = true ∧ ∀ other, (m other).isSome = true → other = [])) ∧
    ∀ front, (m front).isSome = true → front ≠ [] → front ≠ key → front <+: key →
      (m key).isSome = true →
        ∃ other, (m other).isSome = true ∧ front <+: other ∧ ¬ other <+: key

/-- The trie holds the map: what it stores, it stores at the paths of the keys. -/
structure Represents (t : Trie α) (m : Bytes → Option α) : Prop where
  wf : WF t
  valid : ∀ key, (m key).isSome = true → ValidUtf8 key
  lookUp_eq : ∀ key, ValidUtf8 key → lookUp (path key) t = m key
  exists_key : ∀ q, (lookUp q t).isSome = true → ∃ key, ValidUtf8 key ∧ path key = q

/-- The empty trie holds nothing. -/
theorem represents_empty : Represents (Trie.empty : Trie α) fun _ => none where
  wf := wf_empty
  valid _ h := absurd h (by simp)
  lookUp_eq key _ := lookUp_empty (path key)
  exists_key q h := absurd h (by simp)

variable {t : Trie α} {m : Bytes → Option α}

theorem Represents.forall_iff (h : Represents t m) (P : List Nat → Prop) :
    (∀ q, (lookUp q t).isSome = true → P q) ↔
      ∀ key, (m key).isSome = true → P (path key) := by
  constructor
  · intro hall key hkey
    exact hall _ (by rw [h.lookUp_eq key (h.valid key hkey)]; exact hkey)
  · intro hall q hq
    obtain ⟨key, hkey, rfl⟩ := h.exists_key q hq
    rw [h.lookUp_eq key hkey] at hq
    exact hall key hq

theorem validUtf8_nil : ValidUtf8 [] := ⟨[], fun _ hmem => absurd hmem List.not_mem_nil, rfl⟩

theorem path_eq_nil_iff {key : Bytes} (hkey : ValidUtf8 key) : path key = [] ↔ key = [] :=
  path_inj hkey validUtf8_nil

theorem Represents.swept_iff (h : Represents t m) {key front : Bytes} (hkey : ValidUtf8 key)
    (hfront : ValidUtf8 front) :
    Swept (path key) t (path front) ↔ front <+: key ∧ (m key).isSome = true ∧
      ∀ other, (m other).isSome = true → front <+: other → other <+: key := by
  rw [Swept, path_prefix_iff hfront hkey, h.lookUp_eq key hkey,
    h.forall_iff fun q => path front <+: q → q <+: path key]
  refine and_congr_right fun _ => and_congr_right fun _ => forall_congr' fun other =>
    forall_congr' fun hother => ?_
  have hvalid := h.valid other hother
  rw [path_prefix_iff hfront hvalid, path_prefix_iff hvalid hkey]

theorem Represents.spared_iff (h : Represents t m) {key : Bytes} (hkey : ValidUtf8 key) :
    Spared (path key) t ↔ Spares m key := by
  rw [Spared, Spares, path_eq_nil_iff hkey, h.forall_iff fun q => q = [],
    show lookUp [] t = m [] from h.lookUp_eq [] validUtf8_nil]
  refine and_congr (imp_congr_right fun _ => not_congr (and_congr_right fun _ =>
    forall_congr' fun other => imp_congr_right fun hother =>
      path_eq_nil_iff (h.valid other hother))) ?_
  constructor
  · intro hspared front hstored hne hnekey hstarts hkeystored
    have hfront := h.valid front hstored
    have hkeyne : path key ≠ [] := fun heq => by
      rw [(path_eq_nil_iff hkey).mp heq] at hstarts
      exact hne (List.prefix_nil.mp hstarts)
    have hnot := hspared hkeyne (path front)
      (mt (path_eq_nil_iff hfront).mp hne) (mt (path_inj hfront hkey).mp hnekey)
      (by rw [h.lookUp_eq front hfront]; exact hstored)
    rw [h.swept_iff hkey hfront] at hnot
    by_contra hall
    push Not at hall
    exact hnot ⟨hstarts, hkeystored, hall⟩
  · intro hspares _ q hne hnekey hstored hswept
    obtain ⟨front, hfront, rfl⟩ := h.exists_key q hstored
    rw [h.lookUp_eq front hfront] at hstored
    obtain ⟨hstarts, hkeystored, hall⟩ := (h.swept_iff hkey hfront).mp hswept
    obtain ⟨other, hother, hext, hnot⟩ := hspares front hstored
      (mt (path_eq_nil_iff hfront).mpr hne) (mt (path_inj hfront hkey).mpr hnekey) hstarts
      hkeystored
    exact hnot (hall other hother hext)

/-- Adding an entry keeps the trie and the map together. -/
theorem Represents.addEntry (h : Represents t m) {key : Bytes} (hkey : ValidUtf8 key) (d : α) :
    Represents ((Op.addEntry key d).run t) ((Op.addEntry key d).store m) where
  wf := (wf_addEntry (path key) d h.wf).1
  valid := by
    intro key' hkey'
    simp only [Op.store] at hkey'
    split_ifs at hkey' with heq
    · exact heq ▸ hkey
    · exact h.valid key' hkey'
  lookUp_eq := by
    intro key' hkey'
    simp only [Op.run, Op.store, lookUp_addEntry, path_inj hkey' hkey, h.lookUp_eq key' hkey']
  exists_key := by
    intro q hq
    simp only [Op.run, lookUp_addEntry] at hq
    split_ifs at hq with heq
    · exact ⟨key, hkey, heq.symm⟩
    · exact h.exists_key q hq

/-- So does a deletion that spares the other keys. -/
theorem Represents.deleteEntry (h : Represents t m) {key : Bytes} (hkey : ValidUtf8 key)
    (hspares : Spares m key) :
    Represents ((Op.deleteEntry key).run t) ((Op.deleteEntry key).store m) where
  wf := (wf_deleteEntry (path key) h.wf).1
  valid := by
    intro key' hkey'
    simp only [Op.store] at hkey'
    split_ifs at hkey' with heq
    · exact absurd hkey' Bool.false_ne_true
    · exact h.valid key' hkey'
  lookUp_eq := by
    intro key' hkey'
    have hmap := (deleteEntry_map_iff (path key) h.wf).mpr ((h.spared_iff hkey).mpr hspares)
    simp only [Op.run, Op.store, hmap, path_inj hkey' hkey, h.lookUp_eq key' hkey']
  exists_key := by
    intro q hq
    have hmap := (deleteEntry_map_iff (path key) h.wf).mpr ((h.spared_iff hkey).mpr hspares)
    simp only [Op.run, hmap] at hq
    split_ifs at hq with heq
    · exact absurd hq Bool.false_ne_true
    · exact h.exists_key q hq

/-- The trie answers as the map does. -/
structure IsMap (t : Trie α) (m : Bytes → Option α) : Prop where
  /-- `LookUp` finds the value of the key. -/
  lookUp_eq : ∀ key, ValidUtf8 key → lookUp (path key) t = m key
  /-- `LongestMatch` fails where no prefix of `s` is a key. -/
  longestMatch_none : ∀ s, (longestMatch (letters s) t).1 = none →
    ∀ key, key <+: s → m key = none
  /-- Else it finds the longest prefix of `s` that is a key, and its length. -/
  longestMatch_some : ∀ s, (ValidUtf8 s ∨ ∀ key, (m key).isSome = true → (0 : UInt8) ∉ key) →
    ∀ d, (longestMatch (letters s) t).1 = some d → ∃ key, key <+: s ∧ m key = some d ∧
      (longestMatch (letters s) t).2 = key.length ∧
      ∀ key', key' <+: s → (m key').isSome = true → key'.length ≤ key.length
  /-- `LookUpPredictiveAll` gives the values of the keys that start with `s`. -/
  lookUpPredictiveAll_eq : ∀ s,
    (ValidUtf8 s ∨ ∀ key, (m key).isSome = true → (0 : UInt8) ∉ key ∧ ¬ s <+: key) →
    ∃ keys : List Bytes, keys.Nodup ∧
      (∀ key, key ∈ keys ↔ s <+: key ∧ (m key).isSome = true) ∧
      (lookUpPredictiveAll (path s) t).map some = keys.map m

theorem letters_starts {key : Bytes} (hkey : ValidUtf8 key) (h : key <+: s) :
    letters key <+: letters s := by
  obtain ⟨rest, rfl⟩ := h
  rw [letters_valid_append hkey]
  exact List.prefix_append _ _

/-- Look-ups answer as the map does. -/
theorem Represents.isMap (h : Represents t m) :
    IsMap t m where
  lookUp_eq := h.lookUp_eq
  longestMatch_none := by
    intro s hnone key hstarts
    refine Option.not_isSome_iff_eq_none.mp fun hkey => ?_
    have hvalid := h.valid key hkey
    have hall := ((longestMatch_spec (letters s) t).1 hnone).2 _ (letters_starts hvalid hstarts)
    rw [← path, h.lookUp_eq key hvalid] at hall
    rw [hall] at hkey
    exact Bool.false_ne_true hkey
  longestMatch_some := by
    intro s hs d hd
    obtain ⟨front, hfront, hsize, hdata, hmax⟩ := (longestMatch_spec (letters s) t).2 d hd
    obtain ⟨key, hkey, hpath⟩ := h.exists_key (front.map Prod.fst) (by rw [hdata]; rfl)
    rw [← hpath, h.lookUp_eq key hkey] at hdata
    have hstarts : key <+: s := by
      refine starts_of_path_starts hkey (hs.imp_right fun hnul => hnul key (by rw [hdata]; rfl)) ?_
      rw [hpath]
      exact hfront.map Prod.fst
    have hlen : front.length = (letters key).length := by
      rw [← List.length_map (f := Prod.fst), ← hpath, path, List.length_map]
    have heq : front = letters key :=
      (List.prefix_of_prefix_length_le hfront (letters_starts hkey hstarts) hlen.le).eq_of_length
        hlen
    refine ⟨key, hstarts, hdata, ?_, fun key' hstarts' hstored => ?_⟩
    · rw [hsize, heq, (size_letters key).1]
    · have hkey' := h.valid key' hstored
      have hletters := letters_starts hkey' hstarts'
      have hle := hmax _ hletters
        (by rw [← path, h.lookUp_eq key' hkey']; exact hstored)
      rw [heq] at hle
      have hpaths :=
        (List.prefix_of_prefix_length_le hletters (letters_starts hkey hstarts) hle).map Prod.fst
      exact ((path_prefix_iff hkey' hkey).mp hpaths).length_le
  lookUpPredictiveAll_eq := by
    intro s hs
    obtain ⟨keys, hnodup, hmem, hdata⟩ := lookUpPredictiveAll_spec (path s) h.wf
    have hkeys : ∀ q ∈ keys, ∃ key, ValidUtf8 key ∧ path key = q :=
      fun q hq => h.exists_key q ((hmem q).mp hq).2
    refine ⟨keys.map fun q => q.flatMap utf8, ?_, ?_, ?_⟩
    · refine hnodup.map_on fun q hq q' hq' heq => ?_
      obtain ⟨key, hkey, rfl⟩ := hkeys q hq
      obtain ⟨key', hkey', rfl⟩ := hkeys q' hq'
      rw [flatMap_path hkey, flatMap_path hkey'] at heq
      rw [heq]
    · intro key
      rw [List.mem_map]
      constructor
      · rintro ⟨q, hq, rfl⟩
        obtain ⟨key, hkey, rfl⟩ := hkeys q hq
        obtain ⟨hstarts, hstored⟩ := (hmem _).mp hq
        rw [h.lookUp_eq key hkey] at hstored
        rw [flatMap_path hkey]
        exact ⟨starts_of_path_starts_key hkey (hs.imp_right fun hall => (hall key hstored).1)
          hstarts, hstored⟩
      · rintro ⟨hstarts, hstored⟩
        have hkey := h.valid key hstored
        refine ⟨path key, (hmem _).mpr ⟨?_, by rw [h.lookUp_eq key hkey]; exact hstored⟩,
          flatMap_path hkey⟩
        rcases hs with hs | hall
        · exact (path_prefix_iff hs hkey).mpr hstarts
        · exact absurd hstarts (hall key hstored).2
    · rw [hdata, List.map_map]
      refine List.map_congr_left fun q hq => ?_
      obtain ⟨key, hkey, rfl⟩ := hkeys q hq
      rw [h.lookUp_eq key hkey, Function.comp_apply, flatMap_path hkey]

/-- The deletions of a run are safe. -/
def SafeRun (ops : List (Op α)) : Prop :=
  ∀ done key rest, ops = done ++ Op.deleteEntry key :: rest → Spares (stored done) key

theorem runTrie_append (ops : List (Op α)) (op : Op α) :
    runTrie (ops ++ [op]) = op.run (runTrie ops) := by
  rw [runTrie, List.foldl_append]
  rfl

theorem stored_append (ops : List (Op α)) (op : Op α) :
    stored (ops ++ [op]) = op.store (stored ops) := by
  rw [stored, List.foldl_append]
  rfl

/-- The trie of a run whose deletions are safe holds the map of the run. -/
theorem represents_run {ops : List (Op α)} (hkeys : ∀ op ∈ ops, ValidUtf8 op.key)
    (hsafe : SafeRun ops) : Represents (runTrie ops) (stored ops) := by
  induction ops using List.reverseRecOn with
  | nil => exact represents_empty
  | append_singleton ops op ih =>
    have h := ih (fun op hop => hkeys op (List.mem_append_left _ hop))
      fun done key rest heq => hsafe done key (rest ++ [op]) (by rw [heq, List.append_assoc]; rfl)
    have hkey := hkeys op (List.mem_append_right _ List.mem_cons_self)
    rw [runTrie_append, stored_append]
    cases op with
    | addEntry key d => exact h.addEntry hkey d
    | deleteEntry key => exact h.deleteEntry hkey (hsafe ops key [] rfl)

/-- **THE TRIE IS A FINITE MAP** in every state of a run whose deletions are safe, and none of
    its deletions changes what another key finds. -/
theorem trie_finite_map (ops : List (Op α)) (hkeys : ∀ op ∈ ops, ValidUtf8 op.key)
    (hsafe : SafeRun ops) :
    (∀ done rest, ops = done ++ rest → IsMap (runTrie done) (stored done)) ∧
      ∀ done key rest, ops = done ++ Op.deleteEntry key :: rest →
        ∀ key', ValidUtf8 key' → key' ≠ key →
          lookUp (path key') (runTrie (done ++ [Op.deleteEntry key])) =
            lookUp (path key') (runTrie done) := by
  have hrun : ∀ done rest, ops = done ++ rest → Represents (runTrie done) (stored done) := by
    intro done rest heq
    refine represents_run (fun op hop => hkeys op (heq ▸ List.mem_append_left _ hop)) ?_
    intro done' key rest' heq'
    exact hsafe done' key (rest' ++ rest) (by rw [heq, heq', List.append_assoc]; rfl)
  refine ⟨fun done rest heq => (hrun done rest heq).isMap, ?_⟩
  intro done key rest heq key' hkey' hne
  have hdone := (hrun done (Op.deleteEntry key :: rest) heq).lookUp_eq key' hkey'
  have hafter := (hrun (done ++ [Op.deleteEntry key]) rest
    (by rw [heq, List.append_assoc]; rfl)).lookUp_eq key' hkey'
  rw [hafter, hdone, stored_append]
  exact if_neg hne

theorem validUtf8_ascii {key : Bytes} (cs : List Nat) (hcs : ∀ c ∈ cs, c < 0x80)
    (hkey : key = cs.flatMap utf8) : ValidUtf8 key :=
  ⟨cs, fun c hc => .inl (Nat.lt_trans (hcs c hc) (by decide)), hkey⟩

/-- `ab` can be deleted beside `a` and `ac`. -/
theorem trie_finite_map_ab :
    IsMap (runTrie [Op.addEntry [0x61] 1, .addEntry [0x61, 0x62] 2, .addEntry [0x61, 0x63] 3,
        .deleteEntry [0x61, 0x62]])
      (stored [Op.addEntry [0x61] 1, .addEntry [0x61, 0x62] 2, .addEntry [0x61, 0x63] 3,
        .deleteEntry [0x61, 0x62]]) := by
  refine (trie_finite_map _ ?_ ?_).1 _ [] (List.append_nil _).symm
  · have ha : ValidUtf8 [0x61] := validUtf8_ascii [0x61] (by decide) rfl
    have hab : ValidUtf8 [0x61, 0x62] := validUtf8_ascii [0x61, 0x62] (by decide) rfl
    have hac : ValidUtf8 [0x61, 0x63] := validUtf8_ascii [0x61, 0x63] (by decide) rfl
    simp [Op.key, ha, hab, hac]
  · intro done key rest heq
    obtain _ | ⟨_, _ | ⟨_, _ | ⟨_, _ | ⟨_, done⟩⟩⟩⟩ := done <;>
      simp only [List.nil_append, List.cons_append, List.cons.injEq, reduceCtorEq, false_and,
        and_false, Op.deleteEntry.injEq, List.nil_eq, List.append_eq_nil_iff, List.cons_ne_nil]
        at heq
    obtain ⟨rfl, rfl, rfl, rfl, -⟩ := heq
    refine ⟨fun hnil => absurd hnil (by decide), fun front _ hne hnekey hstarts _ => ?_⟩
    obtain ⟨c, front, rfl⟩ := List.exists_cons_of_ne_nil hne
    obtain ⟨rfl, htail⟩ := List.cons_prefix_cons.mp hstarts
    cases front with
    | nil => exact ⟨[0x61, 0x63], by decide, by decide, by decide⟩
    | cons c front =>
      obtain ⟨rfl, hnil⟩ := List.cons_prefix_cons.mp htail
      rw [List.prefix_nil.mp hnil] at hnekey
      exact absurd rfl hnekey

/-- The deletion of `ab` deletes `a`. -/
theorem trie_deletion_loses_prefix :
    ¬ ∀ ops : List (Op Nat), (∀ op ∈ ops, ValidUtf8 op.key) →
      ∀ key, ValidUtf8 key → lookUp (path key) (runTrie ops) = stored ops key := by
  intro hall
  have ha : ValidUtf8 [0x61] := validUtf8_ascii [0x61] (by decide) rfl
  have hab : ValidUtf8 [0x61, 0x62] := validUtf8_ascii [0x61, 0x62] (by decide) rfl
  have hlost := hall [.addEntry [0x61] 1, .addEntry [0x61, 0x62] 2, .deleteEntry [0x61, 0x62]]
    (by simp [Op.key, ha, hab]) [0x61] ha
  exact absurd hlost (by decide)

end CharTrie
