import Mathlib

/-! # Rewriting the front of a list

    A system of rules finds at the front of a list a part that it replaces.  The replacement
    may be found again, alone or with what follows it. -/

namespace PrefixRewriting

variable {α : Type} (find : List α → Option (List α × Nat))

/-- `q` is found as a whole, and `q'` replaces it. -/
def Linked (q' q : List α) : Prop := find q = some (q', q.length)

/-- One step from `q` in front of `rest`: what is found reaches to the end of `q` at least, and
    nothing is put behind it; or the rest gets shorter. -/
inductive Step : List α × List α → List α × List α → Prop
  | rewrite {q rest q' rest' : List α} {n : Nat} (hfind : find (q ++ rest) = some (q', n))
      (hlen : q.length ≤ n) (hrest : rest' <:+ (q ++ rest).drop n) : Step (q', rest') (q, rest)
  | skip {q rest rest' : List α} (hrest : rest'.length < rest.length) : Step (q, rest') (q, rest)

/-- One rewriting of a list; what follows the part that is found stays or is dropped. -/
def Feeds (key' key : List α) : Prop :=
  ∃ q n, find key = some (q, n) ∧ (key' = q ++ key.drop n ∨ key' = q)

/-- The replacements of the rules are found as a whole, with more or not at all. -/
structure System (replacement : Set (List α)) : Prop where
  pos : ∀ {key q n}, find key = some (q, n) → 0 < n
  le_length : ∀ {key q n}, find key = some (q, n) → n ≤ key.length
  mem : ∀ {key q n}, find key = some (q, n) → q ∈ replacement
  held : ∀ {q rest q' n}, q ∈ replacement → find (q ++ rest) = some (q', n) →
    q.length ≤ n ∧ (n = q.length → Linked find q' q)
  acc : ∀ q ∈ replacement, Acc (Linked find) q

variable {find} {replacement : Set (List α)}

/-- From a replacement of the system: by the length of the rest, and for rests of one length by
    the chain of replacements that are found as a whole. -/
theorem acc_step_replacement (hsys : System find replacement) (q : List α) (hq : q ∈ replacement)
    (rest : List α) : Acc (Step find) (q, rest) := by
  induction hn : rest.length using Nat.strong_induction_on generalizing q rest with
  | _ n ihrest =>
    have hacc := hsys.acc q hq
    induction hacc generalizing rest with
    | intro q _ ihq =>
      refine Acc.intro _ ?_
      rintro _ (⟨hfind, hlen, hrest⟩ | hrest)
      · rename_i q' rest' m
        have hmem := hsys.mem hfind
        obtain ⟨-, hwhole⟩ := hsys.held hq hfind
        have hdrop : rest'.length ≤ (q ++ rest).length - m :=
          hrest.length_le.trans_eq List.length_drop
        rw [List.length_append] at hdrop
        have hle := hsys.le_length hfind
        rw [List.length_append] at hle
        by_cases hshort : rest'.length < n
        · exact ihrest _ hshort q' hmem rest' rfl
        · exact ihq q' (hwhole (by omega)) hmem rest' (by omega)
      · exact ihrest _ (hn ▸ hrest) q hq _ rfl

/-- **THE STEPS END** from every pair: the first rewriting leads to a replacement. -/
theorem acc_step (hsys : System find replacement) (q rest : List α) :
    Acc (Step find) (q, rest) := by
  induction hn : rest.length using Nat.strong_induction_on generalizing rest with
  | _ n ih =>
    refine Acc.intro _ ?_
    rintro _ (⟨hfind, -, -⟩ | hrest)
    · exact acc_step_replacement hsys _ (hsys.mem hfind) _
    · exact ih _ (hn ▸ hrest) _ rfl

theorem acc_feeds_append (hsys : System find replacement) {pair : List α × List α}
    (hacc : Acc (Step find) pair) (hq : pair.1 = [] ∨ pair.1 ∈ replacement) :
    Acc (Feeds find) (pair.1 ++ pair.2) := by
  induction hacc with
  | intro pair _ ih =>
    obtain ⟨q, rest⟩ := pair
    refine Acc.intro _ ?_
    rintro key' ⟨q', n, hfind, hkey⟩
    have hlen : q.length ≤ n := by
      rcases hq with rfl | hq
      · exact Nat.zero_le _
      · exact (hsys.held hq hfind).1
    rcases hkey with rfl | rfl
    · exact ih (q', _) (.rewrite hfind hlen List.suffix_rfl) (.inr (hsys.mem hfind))
    · have hstep := ih (key', []) (.rewrite hfind hlen List.nil_suffix) (.inr (hsys.mem hfind))
      rwa [List.append_nil] at hstep

/-- **REWRITING ENDS** from every list. -/
theorem acc_feeds (hsys : System find replacement) (key : List α) : Acc (Feeds find) key :=
  acc_feeds_append hsys (acc_step hsys [] key) (.inl rfl)

/-- No endless chain starts where the steps end. -/
theorem not_endless_of_acc {β : Type} {r : β → β → Prop} {x : β} (hacc : Acc r x) :
    ¬ ∃ chain : Nat → β, chain 0 = x ∧ ∀ n, r (chain (n + 1)) (chain n) := by
  induction hacc with
  | intro x _ ih =>
    rintro ⟨chain, rfl, hchain⟩
    exact ih (chain 1) (hchain 0) ⟨fun n => chain (n + 1), rfl, fun n => hchain (n + 1)⟩

end PrefixRewriting
