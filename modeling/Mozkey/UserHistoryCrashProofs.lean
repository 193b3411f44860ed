import Mozkey.UserHistoryStorageProofs

/-! # UserHistoryStorage — what is left after a crash

    A `Save` may be anywhere when the program dies: the entries are copied and not written, or
    they are written and have changed since.  The file is replaced as a whole, so that it holds
    what the memory held at one moment.

    `file_loads_moment` says what the next start loads, along every run. -/

namespace MozkeyUserHistory

open ByteString
open MozkeyHistory (Entry kLruCacheSize)

variable {f : Fingerprints}

/-- A file is loaded as the entries of a cache, in their order. -/
def Loads (f : Fingerprints) (file : Option (List Entry)) (dic : DicCache) : Prop :=
  ∃ loaded, openStorage f file = some loaded ∧ loaded.dic.lru = dic.lru

/-- The runs of both threads, with the caches of all moments, the last first. -/
inductive Runs (f : Fingerprints) : List DicCache → System → Prop where
  | loaded {file : Option (List Entry)} {storage : UserHistoryStorage} :
      openStorage f file = some storage →
      Runs f [storage.dic] { storage := storage, save := .idle }
  | step {moments : List DicCache} {s s' : System} (a : Step) :
      Runs f moments s → step f s a = some s' →
      EntriesValid f s'.storage.dic →
      Runs f (s'.storage.dic :: moments) s'

variable {s s' : System}

/-- What every run keeps, whatever the order of its steps: the file, and what a `Save` is about
    to write, are loaded as the cache of some moment. -/
structure Recoverable (f : Fingerprints) (moments : List DicCache) (s : System) : Prop where
  sound : s.storage.dic.Sound
  max_eq : s.storage.dic.maxElements = kLruCacheSize
  valid : EntriesValid f s.storage.dic
  current : s.storage.dic ∈ moments
  file : ∃ dic ∈ moments, Loads f s.storage.file dic
  copied : ∀ proto, s.save = .copied proto →
    ∃ dic ∈ moments, Loads f (writeFile proto) dic

theorem Recoverable.step {moments : List DicCache} (h : Recoverable f moments s)
    (hmoves : Moves s s') (hvalid : EntriesValid f s'.storage.dic) :
    Recoverable f (s'.storage.dic :: moments) s' := by
  obtain ⟨hsound, hmax⟩ := hmoves.sound h.sound h.max_eq
  have hearlier : ∀ {file}, (∃ dic ∈ moments, Loads f file dic) →
      ∃ dic ∈ s'.storage.dic :: moments, Loads f file dic :=
    fun ⟨dic, hdic, hloads⟩ => ⟨dic, List.mem_cons_of_mem _ hdic, hloads⟩
  have hcopied (proto : List Entry) (hsave : s.save = .copied proto) :
      ∃ dic ∈ s'.storage.dic :: moments, Loads f (writeFile proto) dic :=
    hearlier (h.copied proto hsave)
  refine ⟨hsound, hmax, hvalid, List.mem_cons_self .., ?_, ?_⟩
  · cases hmoves with
    | empties => exact ⟨_, List.mem_cons_self .., _, rfl, rfl⟩
    | writes hsave => exact hcopied _ hsave
    | _ => exact hearlier h.file
  · cases hmoves with
    | tests | clearsFlag => intro _ hsave; cases hsave
    | copies =>
      rintro _ ⟨⟩
      exact hearlier ⟨_, h.current, load_values_reverse h.sound h.max_eq h.valid⟩
    | writes =>
      intro _ hsave
      dsimp only at hsave
      split at hsave <;> cases hsave
    | _ => exact hcopied

/-- **AFTER A CRASH**: at any moment of any run of the two threads, the file is loaded as the
    entries that the memory held at one moment of the run, all of them and in their order. -/
theorem file_loads_moment (f : Fingerprints) (moments : List DicCache) (s : System)
    (h : Runs f moments s) :
    ∃ dic ∈ moments, ∃ loaded,
      openStorage f s.storage.file = some loaded ∧ loaded.dic.lru = dic.lru := by
  have hrecoverable : Recoverable f moments s := by
    induction h with
    | @loaded file storage hopen =>
      obtain ⟨hsound, hmax, hvalid, -, hfile⟩ := openStorage_spec hopen
      exact ⟨hsound, hmax, hvalid, List.mem_cons_self ..,
        ⟨_, List.mem_cons_self .., storage, by rw [hfile]; exact hopen, rfl⟩,
        fun _ hsave => by cases hsave⟩
    | step a _ hstep hvalid ih => exact ih.step (step_moves ih.sound ih.max_eq hstep) hvalid
  exact hrecoverable.file

theorem Reachable.runs {allows : System → System → Prop} (h : Reachable f allows s) :
    ∃ moments, Runs f moments s := by
  induction h with
  | loaded hopen => exact ⟨_, .loaded hopen⟩
  | step a _ hstep hvalid _ ih =>
    obtain ⟨moments, hruns⟩ := ih
    exact ⟨_, hruns.step a hstep hvalid⟩

/-- A word that is learned between the copy and the writing: the file is that of the copy. -/
theorem file_loads_moment_copied :
    ∃ (moments : List DicCache) (s : System), s.save = .written ∧
      ∃ dic ∈ moments, ∃ loaded,
        openStorage shortFingerprint s.storage.file = some loaded ∧ loaded.dic.lru = dic.lru := by
  have hrun : ((runFromEmpty (fun _ _ => True) (lostRun.take 5)).any fun s =>
      s.save = .written) = true := by decide +kernel
  obtain ⟨s, hs, hend⟩ := (Option.any_eq_true _ _).mp hrun
  obtain ⟨moments, hruns⟩ := (reachable_of_runFromEmpty hs).runs
  exact ⟨moments, s, of_decide_eq_true hend,
    file_loads_moment shortFingerprint moments s hruns⟩

end MozkeyUserHistory
