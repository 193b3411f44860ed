import Mozkey.LruCacheProofs
import Mozkey.UserHistoryLearningProofs

/-! # UserHistoryStorage — learned words between memory and disk

    `Save` tests the dirty flag, copies the entries under the lock, writes the file and
    clears the flag; the main thread inserts, edits and erases entries under the same lock
    at any time in between, and sets the flag. -/

namespace MozkeyUserHistory

open ByteString MozkeyUtil
open MozkeyHistory (Entry kLruCacheSize)

/-! ## The storage -/

/-- The cache of the history. -/
abbrev DicCache := LruCache UInt64 Entry

/-- `UserHistoryStorage`; the file is what it reads back as, if it is there. -/
structure UserHistoryStorage where
  dic : DicCache
  needsSync : Bool
  file : Option (List Entry)

/-- The hash functions of the base library. -/
structure Fingerprints where
  city : Bytes → UInt64
  legacy32 : Bytes → UInt32

section

variable (f : Fingerprints)

/-- `Fingerprint(key, value)`, of an entry. -/
def Fingerprints.entry (entry : Entry) : UInt64 :=
  f.city (entry.key ++ ascii "\t" ++ entry.value)

/-- `FingerprintDepereated(key, value)`, of an entry. -/
def Fingerprints.entryDepereated (entry : Entry) : UInt32 :=
  f.legacy32 (entry.key ++ ascii "\t" ++ entry.value)

/-- The entry that `old2new_fp` holds for an old fingerprint: the last one wins. -/
def old2newFp (proto : List Entry) (old : UInt32) : Option UInt64 :=
  (proto.reverse.find? fun entry => f.entryDepereated entry = old).map f.entry

/-- `MigrateNextEntries`. -/
def migrateNextEntries (proto : List Entry) : List Entry :=
  if proto.all (fun entry => entry.nextEntriesDeprecated.isEmpty) then proto
  else proto.map fun entry =>
    { entry with
      nextEntryFps := entry.nextEntryFps
        ++ entry.nextEntriesDeprecated.filterMap (old2newFp f proto)
      nextEntriesDeprecated := [] }

/-- One round of the loop of `Load(proto)`. -/
def loadEntry (dic : DicCache) (entry : Entry) : Option DicCache :=
  if entry.value.isEmpty || entry.key.isEmpty then some dic
  else if isValidUtf8 entry.value = false then some dic
  else
    let entry := { entry with
      suggestionFreq := max entry.suggestionFreq entry.conversionFreqDeprecated
      conversionFreqDeprecated := 0 }
    dic.insert (f.entry entry) (fun _ => entry)

/-- `Load(proto)` that is not cancelled. -/
def loadProto (dic : DicCache) (proto : List Entry) : Option DicCache :=
  proto.foldlM (loadEntry f) dic.clear

/-- `Load`; a file that is not there leaves the entries as they are. -/
def load (s : UserHistoryStorage) : Option UserHistoryStorage :=
  match s.file with
  | none => some s
  | some proto =>
    (loadProto f s.dic (migrateNextEntries f proto)).map fun dic =>
      { s with dic := dic, needsSync := false }

/-- The constructor over a file, and its completed load. -/
def openStorage (file : Option (List Entry)) : Option UserHistoryStorage :=
  load f { dic := LruCache.ofMax kLruCacheSize, needsSync := false, file := file }

end

/-- What `Save` copies: at most `kLruCacheSize` entries, reversed. -/
def copyEntries (dic : DicCache) : List Entry :=
  ((dic.lru.take kLruCacheSize).map LruElement.value).reverse

/-- What `Save` does to the file; an empty one is removed. -/
def writeFile (proto : List Entry) : Option (List Entry) :=
  if proto.isEmpty then none else some proto

/-! ## Two threads -/

/-- Where a `Save` on the task thread is. -/
inductive SavePhase where
  | idle
  | tested
  | copied (proto : List Entry)
  | written
  deriving DecidableEq

/-- The storage and the `Save` that runs on it. -/
structure System where
  storage : UserHistoryStorage
  save : SavePhase

/-- A step of either thread. -/
inductive Step where
  | saveTest
  | saveCopy
  | saveWrite
  | saveClear
  | insert (fp : UInt64) (write : Entry → Entry)
  | insertEntry (entry : Entry)
  | mutableLookup (fp : UInt64) (write : Entry → Entry)
  | erase (fps : List UInt64)
  | clear

/-- An edit of the entries; it sets the flag under the same lock. -/
def edit (s : System) (dic : DicCache) : System :=
  { s with storage := { s.storage with dic := dic, needsSync := true } }

/-- One step; `none` where the thread is not there, or a check fails. -/
def step (f : Fingerprints) (s : System) : Step → Option System
  | .saveTest =>
    match s.save with
    | .idle => some (if s.storage.needsSync then { s with save := .tested } else s)
    | _ => none
  | .saveCopy =>
    match s.save with
    | .tested => some { s with save := .copied (copyEntries s.storage.dic) }
    | _ => none
  | .saveWrite =>
    match s.save with
    | .copied proto =>
      some
        { storage := { s.storage with file := writeFile proto }
          -- without entries `Save` returns here
          save := if proto.isEmpty then .idle else .written }
    | _ => none
  | .saveClear =>
    match s.save with
    | .written => some { storage := { s.storage with needsSync := false }, save := .idle }
    | _ => none
  | .insert fp write => (s.storage.dic.insert fp write).map (edit s)
  | .insertEntry entry =>
    (s.storage.dic.insert (f.entry entry) (fun _ => entry)).map (edit s)
  | .mutableLookup fp write => some (edit s (s.storage.dic.modifyValue fp write))
  | .erase fps =>
    some (if fps.isEmpty then s else edit s (fps.foldl LruCache.erase s.storage.dic))
  | .clear =>
    -- the flag is set, so the `Save` in it comes to the empty file and returns
    some
      { s with
        storage := { dic := LruCache.ofMax kLruCacheSize, needsSync := true
                     file := writeFile [] } }

/-- An entry as the program keeps it: valid, without the fields that loading migrates. -/
structure Valid (entry : Entry) : Prop where
  key_ne : entry.key ≠ []
  value_ne : entry.value ≠ []
  utf8 : isValidUtf8 entry.value = true
  migrated : entry.conversionFreqDeprecated = 0 ∧ entry.nextEntriesDeprecated = []

/-- Every entry is valid and is kept under its own fingerprint. -/
def EntriesValid (f : Fingerprints) (dic : DicCache) : Prop :=
  ∀ e ∈ dic.lru, e.key = f.entry e.value ∧ Valid e.value

/-- The runs from a completed load; `allows` restricts the steps. -/
inductive Reachable (f : Fingerprints)
    (allows : System → System → Prop) : System → Prop where
  | loaded {file : Option (List Entry)} {storage : UserHistoryStorage} :
      openStorage f file = some storage →
      Reachable f allows { storage := storage, save := .idle }
  | step {s s' : System} (a : Step) :
      Reachable f allows s →
      step f s a = some s' → EntriesValid f s'.storage.dic →
      allows s s' → Reachable f allows s'

/-- `Save` has copied the entries and has not cleared the flag yet. -/
def SavePhase.copiedNotCleared : SavePhase → Bool
  | .copied _ => true
  | .written => true
  | _ => false

/-- No entry changes between the copy and the clearing of the flag. -/
def Undisturbed (s s' : System) : Prop :=
  s.save.copiedNotCleared = true → s'.storage.dic.lru = s.storage.dic.lru

/-! ## What is loaded -/

section

variable {f : Fingerprints}

/-- An entry is kept under its fingerprint. -/
def elementOf (f : Fingerprints) (entry : Entry) : LruElement UInt64 Entry :=
  { key := f.entry entry, value := entry }

theorem loadEntry_of_valid {entry : Entry} (h : Valid entry) (dic : DicCache) :
    loadEntry f dic entry = dic.insert (f.entry entry) (fun _ => entry) := by
  obtain ⟨hkey, hvalue, hutf8, hconversion, -⟩ := h
  have hentry : { entry with
      suggestionFreq := max entry.suggestionFreq entry.conversionFreqDeprecated
      conversionFreqDeprecated := 0 } = entry := by
    rw [hconversion, Nat.max_zero]
    cases entry
    cases hconversion
    rfl
  have hne : (entry.value.isEmpty || entry.key.isEmpty) = false := by
    simp [hkey, hvalue]
  rw [loadEntry, if_neg (by rw [hne]; exact Bool.false_ne_true), if_neg (by simp [hutf8])]
  simp only [hentry]

theorem migrateNextEntries_of_valid {proto : List Entry} (h : ∀ entry ∈ proto, Valid entry) :
    migrateNextEntries f proto = proto := by
  refine if_pos (List.all_eq_true.mpr ?_)
  intro entry hentry
  rw [(h entry hentry).migrated.2]
  rfl

theorem foldlM_loadEntry_of_valid {proto : List Entry} : ∀ {dic : DicCache},
    dic.Sound → dic.maxElements = kLruCacheSize → (∀ entry ∈ proto, Valid entry) →
    (proto.map f.entry ++ dic.lru.map LruElement.key).Nodup →
    proto.length + dic.lru.length ≤ kLruCacheSize →
    ∃ dic', proto.foldlM (loadEntry f) dic = some dic' ∧
      dic'.lru = (proto.map (elementOf f)).reverse ++ dic.lru := by
  induction proto with
  | nil => intro dic _ _ _ _ _; exact ⟨dic, rfl, rfl⟩
  | cons entry proto ih =>
    intro dic hsound hmax hvalid hnodup hroom
    rw [List.map_cons, List.cons_append, List.nodup_cons] at hnodup
    rw [List.length_cons] at hroom
    have hkey : f.entry entry ∉ dic.lru.map LruElement.key :=
      fun hmem => hnodup.1 (List.mem_append_right _ hmem)
    obtain ⟨dic₁, old, hinsert, hsound₁, hmax₁, hlru₁, -⟩ :=
      LruCache.insert_spec hsound (by rw [hmax]; exact LruCache.Blocks.fills_10000)
        (by rw [hmax]; decide) (f.entry entry) (fun _ => entry)
    have hlru : dic₁.lru = elementOf f entry :: dic.lru := by
      rw [hlru₁, LruCache.keptBy, if_pos (Or.inr (by rw [hmax]; omega)),
        LruCache.removeFromLru_of_notMem hkey]
      rfl
    have hnodup₁ : (proto.map f.entry
        ++ dic₁.lru.map LruElement.key).Nodup := by
      rw [hlru, List.map_cons]
      exact List.nodup_middle.mpr (List.nodup_cons.mpr ⟨hnodup.1, hnodup.2⟩)
    obtain ⟨dic', hrest, hlru'⟩ := ih hsound₁ (hmax₁.trans hmax)
      (fun e he => hvalid e (List.mem_cons_of_mem _ he)) hnodup₁
      (by rw [hlru, List.length_cons]; omega)
    refine ⟨dic', ?_, ?_⟩
    · rw [List.foldlM_cons, loadEntry_of_valid (hvalid entry (List.mem_cons_self ..)), hinsert]
      exact hrest
    · rw [hlru', hlru, List.map_cons, List.reverse_cons, List.append_assoc]
      rfl

/-- **THE FILE IS LOADED BACK**: the values of a cache, written in reverse order, are loaded
    as the same elements in the same order. -/
theorem load_values_reverse {dic : DicCache} (hsound : dic.Sound)
    (hmax : dic.maxElements = kLruCacheSize) (hvalid : EntriesValid f dic) :
    ∃ loaded, openStorage f (writeFile (copyEntries dic)) = some loaded ∧
      loaded.dic.lru = dic.lru := by
  have hle : dic.lru.length ≤ kLruCacheSize := hmax ▸ hsound.length_le
  have hcopy : copyEntries dic = (dic.lru.map LruElement.value).reverse := by
    rw [copyEntries, List.take_of_length_le hle]
  have helements : (copyEntries dic).map (elementOf f) = dic.lru.reverse := by
    rw [hcopy, List.map_reverse, List.map_map]
    congr 1
    refine (List.map_congr_left ?_).trans (List.map_id _)
    intro e he
    show elementOf f e.value = e
    rw [elementOf, ← (hvalid e he).1]
  have hproto : ∀ entry ∈ copyEntries dic, Valid entry := by
    intro entry hentry
    rw [hcopy, List.mem_reverse] at hentry
    obtain ⟨e, he, rfl⟩ := List.mem_map.mp hentry
    exact (hvalid e he).2
  have hkeys : (copyEntries dic).map f.entry
      = (dic.lru.map LruElement.key).reverse := by
    rw [← List.map_reverse, ← helements, List.map_map]
    rfl
  rw [writeFile]
  split
  · rename_i hempty
    have hnil : dic.lru = [] := by
      rw [List.isEmpty_iff] at hempty
      rw [hempty] at helements
      exact List.reverse_eq_nil_iff.mp helements.symm
    exact ⟨_, rfl, hnil.symm⟩
  · obtain ⟨dic', hload, hlru⟩ := foldlM_loadEntry_of_valid
      (LruCache.sound_ofMax kLruCacheSize).clear rfl hproto
      (by rw [hkeys]; simpa [LruCache.clear] using List.nodup_reverse.mpr hsound.nodup)
      (by simp [LruCache.clear, copyEntries])
    refine ⟨{ dic := dic', needsSync := false, file := some (copyEntries dic) }, ?_, ?_⟩
    · rw [openStorage, load]
      simp only [migrateNextEntries_of_valid hproto, loadProto, hload, Option.map_some]
    · show dic'.lru = dic.lru
      rw [hlru, helements, List.reverse_reverse]
      exact List.append_nil _

theorem loadEntry_keeps {dic : DicCache} (hsound : dic.Sound)
    (hmax : dic.maxElements = kLruCacheSize) (hvalid : EntriesValid f dic)
    {entry : Entry} (hentry : entry.nextEntriesDeprecated = []) :
    ∃ dic', loadEntry f dic entry = some dic' ∧ dic'.Sound ∧
      dic'.maxElements = kLruCacheSize ∧ EntriesValid f dic' := by
  rw [loadEntry]
  split
  · exact ⟨dic, rfl, hsound, hmax, hvalid⟩
  · rename_i hne
    split
    · exact ⟨dic, rfl, hsound, hmax, hvalid⟩
    · rename_i hutf8
      obtain ⟨dic', old, hinsert, hsound', hmax', hlru, -⟩ :=
        LruCache.insert_spec hsound (by rw [hmax]; exact LruCache.Blocks.fills_10000)
          (by rw [hmax]; decide) (f.entry entry) (fun _ =>
            { entry with
              suggestionFreq := max entry.suggestionFreq entry.conversionFreqDeprecated
              conversionFreqDeprecated := 0 })
      refine ⟨dic', hinsert, hsound', hmax'.trans hmax, ?_⟩
      intro e he
      rw [hlru] at he
      rcases List.mem_cons.mp he with rfl | he
      · have hkey : entry.key ≠ [] := by rintro h; simp [h] at hne
        have hvalue : entry.value ≠ [] := by rintro h; simp [h] at hne
        exact ⟨rfl, hkey, hvalue, by simpa using hutf8, rfl, hentry⟩
      · refine hvalid e ?_
        rw [LruCache.keptBy] at he
        split at he
        · exact List.eraseP_sublist.subset he
        · exact List.dropLast_subset _ he

/-- **A COMPLETED LOAD**: the cache is sound, and every entry is valid. -/
theorem openStorage_spec {file : Option (List Entry)} {storage : UserHistoryStorage}
    (h : openStorage f file = some storage) :
    storage.dic.Sound ∧ storage.dic.maxElements = kLruCacheSize ∧
      EntriesValid f storage.dic ∧ storage.needsSync = false ∧
      storage.file = file := by
  have hnone : EntriesValid f (LruCache.ofMax kLruCacheSize : DicCache) :=
    fun e he => absurd he List.not_mem_nil
  cases file with
  | none =>
    obtain rfl := Option.some.inj h
    exact ⟨LruCache.sound_ofMax _, rfl, hnone, rfl, rfl⟩
  | some proto =>
    obtain ⟨dic, hdic, rfl⟩ := Option.map_eq_some_iff.mp h
    have hmigrated : ∀ entry ∈ migrateNextEntries f proto,
        entry.nextEntriesDeprecated = [] := by
      intro entry hentry
      rw [migrateNextEntries] at hentry
      split at hentry
      · rename_i hall
        exact List.isEmpty_iff.mp (List.all_eq_true.mp hall entry hentry)
      · obtain ⟨e, -, rfl⟩ := List.mem_map.mp hentry
        rfl
    -- the induction is on the entries that are still to be loaded
    have hrun : ∀ (entries : List Entry) (c : DicCache),
        (∀ entry ∈ entries, entry.nextEntriesDeprecated = []) → c.Sound →
        c.maxElements = kLruCacheSize → EntriesValid f c →
        entries.foldlM (loadEntry f) c = some dic →
        dic.Sound ∧ dic.maxElements = kLruCacheSize ∧ EntriesValid f dic := by
      intro entries
      induction entries with
      | nil =>
        intro c _ hsound hmax hvalid hload
        obtain rfl := Option.some.inj hload
        exact ⟨hsound, hmax, hvalid⟩
      | cons entry entries ih =>
        intro c hentries hsound hmax hvalid hload
        obtain ⟨c', hstep, hsound', hmax', hvalid'⟩ :=
          loadEntry_keeps hsound hmax hvalid (hentries entry (List.mem_cons_self ..))
        rw [List.foldlM_cons, hstep] at hload
        exact ih c' (fun e he => hentries e (List.mem_cons_of_mem _ he)) hsound' hmax' hvalid'
          hload
    obtain ⟨hsound, hmax, hvalid⟩ := hrun _ _ hmigrated (LruCache.sound_ofMax _).clear rfl
      (fun e he => absurd he List.not_mem_nil) hdic
    exact ⟨hsound, hmax, hvalid, rfl, rfl⟩

end

/-! ## What every step keeps -/

section

variable {f : Fingerprints}

/-- The file loads as the entries of the cache. -/
def OnDisk (f : Fingerprints) (storage : UserHistoryStorage) : Prop :=
  ∃ loaded, openStorage f storage.file = some loaded ∧ loaded.dic.lru = storage.dic.lru

/-- What an undisturbed run keeps: the flag is set as long as a `Save` runs, and what it
    copied is what the cache holds. -/
structure Invariant (f : Fingerprints) (s : System) : Prop where
  sound : s.storage.dic.Sound
  max_eq : s.storage.dic.maxElements = kLruCacheSize
  valid : EntriesValid f s.storage.dic
  idle : s.save = .idle → s.storage.needsSync = false → OnDisk f s.storage
  running : s.save ≠ .idle → s.storage.needsSync = true
  copied : ∀ proto, s.save = .copied proto → proto = copyEntries s.storage.dic
  written : s.save = .written → copyEntries s.storage.dic ≠ [] ∧
    s.storage.file = some (copyEntries s.storage.dic)

theorem copyEntries_congr {dic dic' : DicCache} (h : dic'.lru = dic.lru) :
    copyEntries dic' = copyEntries dic := by
  rw [copyEntries, copyEntries, h]

theorem foldl_erase_spec (fps : List UInt64) : ∀ {dic : DicCache}, dic.Sound →
    (fps.foldl LruCache.erase dic).Sound ∧
      (fps.foldl LruCache.erase dic).maxElements = dic.maxElements := by
  induction fps with
  | nil => intro dic h; exact ⟨h, rfl⟩
  | cons fp fps ih =>
    intro dic h
    obtain ⟨hsound, hmax, -⟩ := LruCache.erase_spec h fp
    obtain ⟨hsound', hmax'⟩ := ih hsound
    exact ⟨hsound', hmax'.trans hmax⟩

/-- What a step of either thread can do. -/
inductive Moves (s : System) : System → Prop where
  | stays : Moves s s
  | edits {dic : DicCache} : dic.Sound → dic.maxElements = kLruCacheSize → Moves s (edit s dic)
  | empties : Moves s
      { s with
        storage := { dic := LruCache.ofMax kLruCacheSize, needsSync := true
                     file := writeFile [] } }
  | tests : s.storage.needsSync = true → Moves s { s with save := .tested }
  | copies : s.save = .tested → Moves s { s with save := .copied (copyEntries s.storage.dic) }
  | writes {proto : List Entry} : s.save = .copied proto → Moves s
      { storage := { s.storage with file := writeFile proto }
        save := if proto.isEmpty then .idle else .written }
  | clearsFlag : s.save = .written → Moves s
      { storage := { s.storage with needsSync := false }, save := .idle }

section

variable {s s' : System} (hsound : s.storage.dic.Sound)
  (hmax : s.storage.dic.maxElements = kLruCacheSize)
include hsound hmax

theorem moves_of_insert {fp : UInt64} {write : Entry → Entry}
    (hstep : (s.storage.dic.insert fp write).map (edit s) = some s') : Moves s s' := by
  obtain ⟨dic, old, hinsert, hsound', hmax', -, -⟩ :=
    LruCache.insert_spec hsound (by rw [hmax]; exact LruCache.Blocks.fills_10000)
      (by rw [hmax]; decide) fp write
  rw [hinsert] at hstep
  obtain rfl := Option.some.inj hstep
  exact .edits hsound' (hmax'.trans hmax)

/-- **ONE STEP** of either thread. -/
theorem step_moves {a : Step} (hstep : step f s a = some s') : Moves s s' := by
  cases a with
  | saveTest =>
    simp only [step] at hstep
    split at hstep
    case h_2 => cases hstep
    obtain rfl := Option.some.inj hstep
    split
    · rename_i hsync
      exact .tests hsync
    · exact .stays
  | saveCopy =>
    simp only [step] at hstep
    split at hstep
    case h_2 => cases hstep
    rename_i htested
    obtain rfl := Option.some.inj hstep
    exact .copies htested
  | saveWrite =>
    simp only [step] at hstep
    split at hstep
    case h_2 => cases hstep
    rename_i proto hcopied
    obtain rfl := Option.some.inj hstep
    exact .writes hcopied
  | saveClear =>
    simp only [step] at hstep
    split at hstep
    case h_2 => cases hstep
    rename_i hwritten
    obtain rfl := Option.some.inj hstep
    exact .clearsFlag hwritten
  | insert fp write => exact moves_of_insert hsound hmax hstep
  | insertEntry entry => exact moves_of_insert hsound hmax hstep
  | mutableLookup fp write =>
    obtain rfl := Option.some.inj hstep
    exact .edits (hsound.modifyValue fp write) hmax
  | erase fps =>
    simp only [step] at hstep
    split at hstep
    · obtain rfl := Option.some.inj hstep
      exact .stays
    · obtain rfl := Option.some.inj hstep
      obtain ⟨hsound', hmax'⟩ := foldl_erase_spec fps hsound
      exact .edits hsound' (hmax'.trans hmax)
  | clear =>
    obtain rfl := Option.some.inj hstep
    exact .empties

omit hmax hsound in
theorem Moves.sound (h : Moves s s') (hsound : s.storage.dic.Sound)
    (hmax : s.storage.dic.maxElements = kLruCacheSize) :
    s'.storage.dic.Sound ∧ s'.storage.dic.maxElements = kLruCacheSize := by
  cases h with
  | edits hsound' hmax' => exact ⟨hsound', hmax'⟩
  | empties => exact ⟨LruCache.sound_ofMax kLruCacheSize, rfl⟩
  | _ => exact ⟨hsound, hmax⟩

end

/-- **WHAT A MOVE KEEPS** that does not disturb a `Save`. -/
theorem Invariant.step {s s' : System} (h : Invariant f s) (hmoves : Moves s s')
    (hvalid : EntriesValid f s'.storage.dic) (hundisturbed : Undisturbed s s') :
    Invariant f s' := by
  obtain ⟨hsound, hmax⟩ := hmoves.sound h.sound h.max_eq
  cases hmoves with
  | stays => exact h
  | @edits dic _ _ =>
    have hsame (hsave : s.save.copiedNotCleared = true) :
        copyEntries dic = copyEntries s.storage.dic := copyEntries_congr (hundisturbed hsave)
    refine ⟨hsound, hmax, hvalid, (fun _ hclean => by cases hclean), fun _ => rfl, ?_, ?_⟩
    · intro proto hsave
      exact (h.copied proto hsave).trans (hsame (by rw [show s.save = _ from hsave]; rfl)).symm
    · intro hsave
      show copyEntries dic ≠ [] ∧ s.storage.file = some (copyEntries dic)
      rw [hsame (by rw [show s.save = _ from hsave]; rfl)]
      exact h.written hsave
  | empties =>
    have hsame (hsave : s.save.copiedNotCleared = true) :
        copyEntries s.storage.dic = [] := (copyEntries_congr (hundisturbed hsave)).symm
    refine ⟨hsound, hmax, hvalid, (fun _ hclean => by cases hclean), fun _ => rfl, ?_, ?_⟩
    · intro proto hsave
      exact (h.copied proto hsave).trans (hsame (by rw [show s.save = _ from hsave]; rfl))
    · intro hsave
      -- a `Save` that has written had entries to write
      exact absurd (hsame (by rw [show s.save = _ from hsave]; rfl)) (h.written hsave).1
  | tests hsync =>
    exact ⟨hsound, hmax, hvalid, (fun hsave => by cases hsave), fun _ => hsync,
      (fun _ hsave => by cases hsave), (fun hsave => by cases hsave)⟩
  | copies htested =>
    exact ⟨hsound, hmax, hvalid, (fun hsave => by cases hsave),
      fun _ => h.running (by rw [htested]; intro hne; cases hne),
      (fun proto hsave => by cases hsave; rfl), (fun hsave => by cases hsave)⟩
  | @writes proto hcopied =>
    have hsync : s.storage.needsSync = true :=
      h.running (by rw [hcopied]; intro hne; cases hne)
    obtain rfl := h.copied proto hcopied
    cases hempty : (copyEntries s.storage.dic).isEmpty with
    | true =>
      -- the file was removed, and the flag is still set
      exact ⟨hsound, hmax, hvalid, fun _ hclean => absurd (hsync.symm.trans hclean) (by decide),
        fun _ => hsync, (fun _ hsave => by cases hsave), (fun hsave => by cases hsave)⟩
    | false =>
      exact ⟨hsound, hmax, hvalid, (fun hsave => by cases hsave), fun _ => hsync,
        (fun _ hsave => by cases hsave), fun _ => ⟨by simpa using hempty, by
          show writeFile (copyEntries s.storage.dic) = _
          rw [writeFile, hempty]
          rfl⟩⟩
  | clearsFlag hwritten =>
    obtain ⟨hne, hfile⟩ := h.written hwritten
    obtain ⟨loaded, hloaded, hlru⟩ := load_values_reverse h.sound h.max_eq h.valid
    refine ⟨hsound, hmax, hvalid, fun _ _ => ⟨loaded, ?_, hlru⟩, fun hsave => absurd rfl hsave,
      (fun _ hsave => by cases hsave), (fun hsave => by cases hsave)⟩
    rw [← hloaded, writeFile, if_neg (by simpa using hne)]
    exact congrArg _ hfile

theorem Reachable.invariant {s : System} (h : Reachable f Undisturbed s) : Invariant f s := by
  induction h with
  | loaded hopen =>
    obtain ⟨hsound, hmax, hvalid, -, hfile⟩ := openStorage_spec hopen
    exact
      { sound := hsound
        max_eq := hmax
        valid := hvalid
        idle := fun _ _ => ⟨_, by rw [hfile]; exact hopen, rfl⟩
        running := fun hsave => absurd rfl hsave
        copied := (fun _ hsave => by cases hsave)
        written := fun hsave => by cases hsave }
  | step a _ hstep hvalid hundisturbed ih =>
    exact ih.step (step_moves ih.sound ih.max_eq hstep) hvalid hundisturbed

end

/-- **NO LEARNED WORD IS LOST** in a run in which no entry changes between the copy of a
    `Save` and its clearing of the flag: where the flag is clear and no `Save` runs, the file
    loads as the entries in memory, in the same order. -/
theorem saved_entries_load (f : Fingerprints) (s : System) (h : Reachable f Undisturbed s)
    (hclean : s.storage.needsSync = false) (hidle : s.save = .idle) :
    ∃ loaded, openStorage f s.storage.file = some loaded ∧ loaded.dic.lru = s.storage.dic.lru :=
  h.invariant.idle hidle hclean

/-! ## Runs on concrete words -/

instance (entry : Entry) : Decidable (Valid entry) :=
  decidable_of_iff
    (entry.key ≠ [] ∧ entry.value ≠ [] ∧ isValidUtf8 entry.value = true ∧
      entry.conversionFreqDeprecated = 0 ∧ entry.nextEntriesDeprecated = [])
    ⟨fun h => ⟨h.1, h.2.1, h.2.2.1, h.2.2.2⟩, fun h => ⟨h.1, h.2, h.3, h.4⟩⟩

instance (f : Fingerprints) (dic : DicCache) : Decidable (EntriesValid f dic) :=
  inferInstanceAs (Decidable (∀ e ∈ dic.lru, _ ∧ _))

instance (s s' : System) : Decidable (Undisturbed s s') :=
  inferInstanceAs (Decidable (_ → _))

/-- A run of the steps of a list; `none` where one is not allowed. -/
def run (f : Fingerprints) (allows : System → System → Prop)
    [∀ s s', Decidable (allows s s')] (s : System) (steps : List Step) : Option System :=
  steps.foldlM (fun s a => (step f s a).filter fun s' =>
    EntriesValid f s'.storage.dic ∧ allows s s') s

theorem reachable_of_run {f : Fingerprints} {allows : System → System → Prop}
    [∀ s s', Decidable (allows s s')] {steps : List Step} : ∀ {s s' : System},
    Reachable f allows s → run f allows s steps = some s' → Reachable f allows s' := by
  induction steps with
  | nil =>
    intro s s' h hrun
    obtain rfl := Option.some.inj hrun
    exact h
  | cons a steps ih =>
    intro s s' h hrun
    rw [run, List.foldlM_cons, Option.bind_eq_bind] at hrun
    obtain ⟨s₁, hs₁, hrun⟩ := Option.bind_eq_some_iff.mp hrun
    obtain ⟨hstep, hcheck⟩ := Option.filter_eq_some_iff.mp hs₁
    obtain ⟨hvalid, hallows⟩ := of_decide_eq_true hcheck
    exact ih (.step a h hstep hvalid hallows) hrun

/-- The bytes of a short string as a number. -/
def shortFingerprint : Fingerprints where
  city bytes := bytes.foldl (fun n c => 256 * n + c.toUInt64) 0
  legacy32 _ := 0

/-- A word that was learned once. -/
def word (key value : String) : Entry :=
  { key := ascii key, value := ascii value, suggestionFreq := 1 }

/-- A word is learned and saved. -/
def savedRun : List Step :=
  [.insertEntry (word "a" "A"), .saveTest, .saveCopy, .saveWrite, .saveClear]

/-- Another one is learned before the file is written. -/
def lostRun : List Step :=
  [.insertEntry (word "a" "A"), .saveTest, .saveCopy, .insertEntry (word "b" "B"), .saveWrite,
    .saveClear]

/-- A run from a storage without a file. -/
def runFromEmpty (allows : System → System → Prop) [∀ s s', Decidable (allows s s')]
    (steps : List Step) : Option System :=
  (openStorage shortFingerprint none).bind fun storage =>
    run shortFingerprint allows { storage := storage, save := .idle } steps

theorem reachable_of_runFromEmpty {allows : System → System → Prop}
    [∀ s s', Decidable (allows s s')] {steps : List Step} {s : System}
    (h : runFromEmpty allows steps = some s) : Reachable shortFingerprint allows s := by
  obtain ⟨storage, hopen, hrun⟩ := Option.bind_eq_some_iff.mp h
  exact reachable_of_run (.loaded hopen) hrun

/-- A word that was saved is loaded. -/
theorem saved_word_loads :
    ∃ s : System, runFromEmpty Undisturbed savedRun = some s ∧
      ∃ loaded, openStorage shortFingerprint s.storage.file = some loaded ∧
        loaded.dic.lru = s.storage.dic.lru := by
  have hrun : ((runFromEmpty Undisturbed savedRun).any fun s =>
      s.storage.needsSync = false ∧ s.save = .idle) = true := by decide +kernel
  obtain ⟨s, hs, hend⟩ := (Option.any_eq_true _ _).mp hrun
  obtain ⟨hclean, hidle⟩ := of_decide_eq_true hend
  exact ⟨s, hs, saved_entries_load shortFingerprint s (reachable_of_runFromEmpty hs) hclean hidle⟩

/-- **A LEARNED WORD IS LOST**: it is learned between the copy and the clearing of the flag,
    and is not in the file when the flag is clear. -/
theorem saved_entries_lost :
    ¬ ∀ (f : Fingerprints) (s : System), Reachable f (fun _ _ => True) s →
      s.storage.needsSync = false → s.save = .idle →
      ∃ loaded, openStorage f s.storage.file = some loaded ∧
        loaded.dic.lru = s.storage.dic.lru := by
  intro hall
  have hrun : ((runFromEmpty (fun _ _ => True) lostRun).any fun s =>
      (s.storage.needsSync = false ∧ s.save = .idle) ∧
        (openStorage shortFingerprint s.storage.file).all fun loaded =>
          loaded.dic.lru ≠ s.storage.dic.lru) = true := by decide +kernel
  obtain ⟨s, hs, hend⟩ := (Option.any_eq_true _ _).mp hrun
  obtain ⟨⟨hclean, hidle⟩, hlost⟩ := of_decide_eq_true hend
  obtain ⟨loaded, hloaded, hsame⟩ := hall shortFingerprint s
    (reachable_of_runFromEmpty hs) hclean hidle
  rw [hloaded] at hlost
  exact of_decide_eq_true hlost hsame

end MozkeyUserHistory
