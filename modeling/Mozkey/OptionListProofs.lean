import Mathlib

/-! # Mappings that may fail

    `List.mapM` in `Option` succeeds when every element is mapped, and then maps place by
    place. -/

namespace OptionList

theorem getElem?_mapM {α β : Type} {f : α → Option β} {l : List α} {l' : List β}
    (h : l.mapM f = some l') {k : Nat} {a : α} (hk : l[k]? = some a) :
    ∃ b, f a = some b ∧ l'[k]? = some b := by
  induction l generalizing l' k with
  | nil => cases hk
  | cons first rest ih =>
    rw [List.mapM_cons, Option.bind_eq_bind, Option.bind_eq_some_iff] at h
    obtain ⟨b, hb, h⟩ := h
    rw [Option.bind_eq_bind, Option.bind_eq_some_iff] at h
    obtain ⟨bs, hbs, h⟩ := h
    cases h
    cases k with
    | zero => cases hk; exact ⟨b, hb, rfl⟩
    | succ k => exact ih hbs hk

theorem length_mapM {α β : Type} {f : α → Option β} {l : List α} {l' : List β}
    (h : l.mapM f = some l') : l'.length = l.length := by
  induction l generalizing l' with
  | nil => cases h; rfl
  | cons first rest ih =>
    rw [List.mapM_cons, Option.bind_eq_bind, Option.bind_eq_some_iff] at h
    obtain ⟨b, -, h⟩ := h
    rw [Option.bind_eq_bind, Option.bind_eq_some_iff] at h
    obtain ⟨bs, hbs, h⟩ := h
    cases h
    rw [List.length_cons, List.length_cons, ih hbs]

theorem exists_mapM {α β : Type} {f : α → Option β} {l : List α}
    (h : ∀ a ∈ l, (f a).isSome = true) : ∃ l', l.mapM f = some l' := by
  induction l with
  | nil => exact ⟨[], rfl⟩
  | cons first rest ih =>
    obtain ⟨b, hb⟩ := Option.isSome_iff_exists.mp (h first List.mem_cons_self)
    obtain ⟨bs, hbs⟩ := ih (fun a ha => h a (List.mem_cons_of_mem first ha))
    exact ⟨b :: bs, by rw [List.mapM_cons, hb, hbs]; rfl⟩

end OptionList
