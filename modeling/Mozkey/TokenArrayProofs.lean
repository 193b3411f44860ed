import Mozkey.ArrayBuilderProofs
import Mozkey.DictionaryPassesProofs

/-! # BuildTokenArray — the tokens of a key at the id of the key

    The keys are put into a table by their ids, and the tokens of each are an element of
    the array. -/

namespace MozkeyDictionary

open ByteString MozkeyLouds MozkeySuccinct

/-- The ids number the keys. -/
structure NumberedKeys (keyInfoList : List KeyInfo) : Prop where
  nodup : (keyInfoList.map (fun keyInfo => keyInfo.idInKeyTrie.toNat)).Nodup
  nonneg : ∀ keyInfo ∈ keyInfoList, 0 ≤ keyInfo.idInKeyTrie
  lt : ∀ keyInfo ∈ keyInfoList, keyInfo.idInKeyTrie < (keyInfoList.length : Int)

theorem NumberedKeys.perm_range {l : List KeyInfo} (h : NumberedKeys l) :
    (l.map (fun keyInfo => keyInfo.idInKeyTrie.toNat)).Perm (List.range l.length) := by
  refine (List.subperm_of_subset h.nodup ?_).perm_of_length_le ?_
  · intro i hmem
    obtain ⟨keyInfo, hmem', rfl⟩ := List.mem_map.mp hmem
    have h0 := h.nonneg keyInfo hmem'
    have h1 := h.lt keyInfo hmem'
    exact List.mem_range.mpr (by omega)
  · rw [List.length_map, List.length_range]

/-- The checks of the loop pass, and the table has the length of the list. -/
theorem foldlM_table : ∀ (rest : List KeyInfo) (table : List (Option KeyInfo)),
    (∀ keyInfo ∈ rest, 0 ≤ keyInfo.idInKeyTrie ∧ keyInfo.idInKeyTrie < (table.length : Int)) →
    rest.foldlM (fun (table : List (Option KeyInfo)) keyInfo =>
        if 0 ≤ keyInfo.idInKeyTrie ∧ keyInfo.idInKeyTrie < (table.length : Int) then
          some (table.set keyInfo.idInKeyTrie.toNat (some keyInfo))
        else none) table
      = some ((rest.map (fun keyInfo => (some keyInfo, keyInfo.idInKeyTrie.toNat))).foldl
          (fun table e => table.set e.2 e.1) table) := by
  intro rest
  induction rest with
  | nil => intro table _; rfl
  | cons keyInfo rest ih =>
    intro table h
    rw [List.foldlM_cons, if_pos (h keyInfo List.mem_cons_self), List.map_cons, List.foldl_cons]
    refine ih _ ?_
    intro keyInfo' hmem
    rw [List.length_set]
    exact h keyInfo' (List.mem_cons_of_mem _ hmem)

theorem exists_map_some {α : Type} : ∀ {l : List (Option α)}, (∀ x ∈ l, ∃ a, x = some a) →
    ∃ as : List α, l = as.map some := by
  intro l
  induction l with
  | nil => intro _; exact ⟨[], rfl⟩
  | cons x rest ih =>
    intro h
    obtain ⟨a, rfl⟩ := h x List.mem_cons_self
    obtain ⟨as, rfl⟩ := ih (fun y hy => h y (List.mem_cons_of_mem _ hy))
    exact ⟨a :: as, rfl⟩

/-- **THE TABLE IS FULL**, and has a key at its id. -/
theorem idToKeyInfoTable_eq {l : List KeyInfo} (h : NumberedKeys l) :
    ∃ byId : List KeyInfo, idToKeyInfoTable l = some (byId.map some) ∧ byId.Perm l ∧
      ∀ keyInfo ∈ l, byId[keyInfo.idInKeyTrie.toNat]? = some keyInfo := by
  have hfold := foldlM_table l (List.replicate l.length none)
    (fun keyInfo hmem => by
      rw [List.length_replicate]
      exact ⟨h.nonneg keyInfo hmem, h.lt keyInfo hmem⟩)
  have hlen := length_foldl_set
    (l.map (fun keyInfo => (some keyInfo, keyInfo.idInKeyTrie.toNat)))
    (List.replicate l.length none)
  have hget := getElem?_foldl_set
    (l.map (fun keyInfo => (some keyInfo, keyInfo.idInKeyTrie.toNat)))
    (List.replicate l.length none)
    (by rw [List.map_map]; exact h.nodup)
    (by
      intro e hmem
      obtain ⟨keyInfo, hmem', rfl⟩ := List.mem_map.mp hmem
      have h0 := h.nonneg keyInfo hmem'
      have h1 := h.lt keyInfo hmem'
      rw [List.length_replicate]
      show keyInfo.idInKeyTrie.toNat < l.length
      omega)
  generalize (l.map (fun keyInfo => (some keyInfo, keyInfo.idInKeyTrie.toNat))).foldl
    (fun table e => table.set e.2 e.1) (List.replicate l.length none) = table at hfold hlen hget
  rw [List.length_replicate] at hlen
  have hkey : ∀ keyInfo ∈ l, table[keyInfo.idInKeyTrie.toNat]? = some (some keyInfo) :=
    fun keyInfo hmem => hget _ (List.mem_map_of_mem hmem)
  have hall : ∀ i < l.length, ∃ keyInfo ∈ l, keyInfo.idInKeyTrie.toNat = i := by
    intro i hi
    exact List.mem_map.mp (h.perm_range.mem_iff.mpr (List.mem_range.mpr hi))
  obtain ⟨byId, rfl⟩ : ∃ byId : List KeyInfo, table = byId.map some := by
    refine exists_map_some ?_
    intro x hmem
    obtain ⟨i, hi, rfl⟩ := List.mem_iff_getElem.mp hmem
    obtain ⟨keyInfo, hmem', rfl⟩ := hall i (by omega)
    have hsome := hkey keyInfo hmem'
    rw [List.getElem?_eq_getElem hi] at hsome
    exact ⟨keyInfo, Option.some.inj hsome⟩
  rw [List.length_map] at hlen
  have hbyId : ∀ keyInfo ∈ l, byId[keyInfo.idInKeyTrie.toNat]? = some keyInfo := by
    intro keyInfo hmem
    have hsome := hkey keyInfo hmem
    rw [List.getElem?_map, Option.map_eq_some_iff] at hsome
    obtain ⟨keyInfo', hget', heq⟩ := hsome
    rw [hget', Option.some.inj heq]
  refine ⟨byId, hfold, ?_, hbyId⟩
  have hsubset : l ⊆ byId := fun keyInfo hmem => List.mem_of_getElem? (hbyId keyInfo hmem)
  have hnodup : l.Nodup := List.Nodup.of_map _ h.nodup
  exact ((List.subperm_of_subset hnodup hsubset).perm_of_length_le (Nat.le_of_eq hlen)).symm

theorem foldlM_table_bounds : ∀ {rest : List KeyInfo} {table table' : List (Option KeyInfo)},
    rest.foldlM (fun (table : List (Option KeyInfo)) keyInfo =>
        if 0 ≤ keyInfo.idInKeyTrie ∧ keyInfo.idInKeyTrie < (table.length : Int) then
          some (table.set keyInfo.idInKeyTrie.toNat (some keyInfo))
        else none) table = some table' →
    (∀ keyInfo ∈ rest, 0 ≤ keyInfo.idInKeyTrie ∧ keyInfo.idInKeyTrie < (table.length : Int)) ∧
      table'.length = table.length ∧ ∀ i keyInfo, table'[i]? = some (some keyInfo) →
        table[i]? = some (some keyInfo) ∨ keyInfo ∈ rest ∧ keyInfo.idInKeyTrie.toNat = i := by
  intro rest
  induction rest with
  | nil =>
    intro table table' h
    rw [← Option.some.inj h]
    exact ⟨fun _ hmem => absurd hmem List.not_mem_nil, rfl, fun _ _ hget => Or.inl hget⟩
  | cons head rest ih =>
    intro table table' h
    rw [List.foldlM_cons] at h
    by_cases hin : 0 ≤ head.idInKeyTrie ∧ head.idInKeyTrie < (table.length : Int)
    · rw [if_pos hin] at h
      obtain ⟨hbounds, hlen, hget⟩ := ih h
      rw [List.length_set] at hbounds hlen
      refine ⟨?_, hlen, ?_⟩
      · intro keyInfo hmem
        rcases List.mem_cons.mp hmem with rfl | hmem
        · exact hin
        · exact hbounds keyInfo hmem
      · intro i keyInfo hsome
        rcases hget i keyInfo hsome with hset | ⟨hmem, heq⟩
        · by_cases hi : head.idInKeyTrie.toNat = i
          · rw [← hi, List.getElem?_set_self (by omega)] at hset
            rw [← Option.some.inj (Option.some.inj hset)]
            exact Or.inr ⟨List.mem_cons_self, hi⟩
          · rw [List.getElem?_set_ne hi] at hset
            exact Or.inl hset
        · exact Or.inr ⟨List.mem_cons_of_mem _ hmem, heq⟩
    · rw [if_neg hin] at h
      exact nomatch h

/-- A table without a hole was filled with ids that number the keys. -/
theorem numberedKeys_of_table {l : List KeyInfo} {table : List (Option KeyInfo)}
    (h : idToKeyInfoTable l = some table) (hfull : ∀ entry ∈ table, entry ≠ none) :
    NumberedKeys l := by
  obtain ⟨hbounds, hlen, hget⟩ := foldlM_table_bounds h
  rw [List.length_replicate] at hbounds hlen
  have hsubset : List.range l.length
      ⊆ l.map (fun keyInfo => keyInfo.idInKeyTrie.toNat) := by
    intro i hi
    have hlt : i < table.length := by
      rw [hlen]
      exact List.mem_range.mp hi
    obtain ⟨keyInfo, hentry⟩ := Option.ne_none_iff_exists'.mp
      (hfull _ (List.getElem_mem hlt))
    rcases hget i keyInfo (by rw [List.getElem?_eq_getElem hlt, hentry]) with hold | ⟨hmem, heq⟩
    · rw [List.getElem?_replicate] at hold
      split_ifs at hold
      exact nomatch Option.some.inj hold
    · exact List.mem_map.mpr ⟨keyInfo, hmem, heq⟩
  have hperm := (List.subperm_of_subset List.nodup_range hsubset).perm_of_length_le (by
    rw [List.length_map, List.length_range])
  exact ⟨hperm.nodup_iff.mp List.nodup_range, fun keyInfo hmem => (hbounds keyInfo hmem).1,
    fun keyInfo hmem => (hbounds keyInfo hmem).2⟩

theorem exists_encoded_of_foldlM : ∀ {table : List (Option KeyInfo)}
    {b b' : BitVectorBasedArrayBuilder},
    table.foldlM (fun (b : BitVectorBasedArrayBuilder) entry => do
        let keyInfo ← entry
        let element ← encodeTokens keyInfo.tokens
        b.add element) b = some b' →
    ∀ entry ∈ table, ∃ keyInfo, entry = some keyInfo ∧
      ∃ element, encodeTokens keyInfo.tokens = some element := by
  intro table
  induction table with
  | nil => intro b b' _ entry hmem; exact absurd hmem List.not_mem_nil
  | cons head rest ih =>
    intro b b' h entry hmem
    rw [List.foldlM_cons] at h
    obtain ⟨mid, hmid, hrest⟩ := Option.bind_eq_some_iff.mp h
    rcases List.mem_cons.mp hmem with rfl | hmem
    · obtain ⟨keyInfo, rfl, hkey⟩ := Option.bind_eq_some_iff.mp hmid
      obtain ⟨element, helement, -⟩ := Option.bind_eq_some_iff.mp hkey
      exact ⟨keyInfo, rfl, element, helement⟩
    · exact ih hrest entry hmem

/-- **A TOKEN ARRAY IS ONLY BUILT** from ids that number the keys, and of tokens that are
    encoded. -/
theorem encoded_of_buildTokenArray {l : List KeyInfo} {built : BitVectorBasedArrayBuilder}
    (h : buildTokenArray l {} = some built) :
    NumberedKeys l ∧ ∀ keyInfo ∈ l, ∃ element, encodeTokens keyInfo.tokens = some element := by
  obtain ⟨table, htable, h⟩ := Option.bind_eq_some_iff.mp h
  obtain ⟨b, hfold, -⟩ := Option.bind_eq_some_iff.mp h
  have hencoded := exists_encoded_of_foldlM hfold
  have hnumbered : NumberedKeys l := numberedKeys_of_table htable (fun entry hmem => by
    obtain ⟨keyInfo, rfl, -⟩ := hencoded entry hmem
    exact Option.some_ne_none keyInfo)
  obtain ⟨byId, htable', hperm, -⟩ := idToKeyInfoTable_eq hnumbered
  cases htable.symm.trans htable'
  refine ⟨hnumbered, fun keyInfo hmem => ?_⟩
  obtain ⟨keyInfo', heq, element, helement⟩ :=
    hencoded (some keyInfo) (List.mem_map_of_mem (hperm.mem_iff.mpr hmem))
  cases heq
  exact ⟨element, helement⟩

theorem foldlM_add_elements {element : KeyInfo → Bytes} : ∀ {byId : List KeyInfo}
    {b : BitVectorBasedArrayBuilder}, b.built = false →
    (∀ keyInfo ∈ byId, encodeTokens keyInfo.tokens = some (element keyInfo)) →
    (byId.map some).foldlM (fun (b : BitVectorBasedArrayBuilder) entry => do
        let keyInfo ← entry
        let element ← encodeTokens keyInfo.tokens
        b.add element) b
      = some { b with elements := b.elements ++ byId.map element } := by
  intro byId
  induction byId with
  | nil => intro b _ _; rw [List.map_nil, List.map_nil, List.append_nil]; rfl
  | cons keyInfo rest ih =>
    intro b hb h
    have hadd : b.add (element keyInfo)
        = some { b with elements := b.elements ++ [element keyInfo] } := by
      rw [BitVectorBasedArrayBuilder.add, if_neg (by rw [hb]; exact Bool.false_ne_true)]
    have hih := ih (b := { b with elements := b.elements ++ [element keyInfo] }) hb
      (fun keyInfo' hmem => h keyInfo' (List.mem_cons_of_mem _ hmem))
    rw [List.append_assoc] at hih
    rw [List.map_cons, List.foldlM_cons, Option.bind_eq_bind, Option.bind_eq_bind,
      Option.bind_some, h keyInfo List.mem_cons_self, Option.bind_eq_bind, Option.bind_some, hadd]
    exact hih

theorem size_elements {l byId : List KeyInfo} (element : KeyInfo → Bytes) (hperm : byId.Perm l) :
    (byId.map element ++ [[kTokenTerminationFlag]]).length
        + (byId.map element ++ [[kTokenTerminationFlag]]).flatten.length
      = (l.map (fun keyInfo => (element keyInfo).length + 1)).sum + 2 := by
  have hsum : (byId.map element).length + (byId.map element).flatten.length
      = (l.map (fun keyInfo => (element keyInfo).length + 1)).sum := by
    rw [← (hperm.map _).sum_eq]
    clear hperm
    induction byId with
    | nil => rfl
    | cons keyInfo rest ih =>
      rw [List.map_cons, List.flatten_cons, List.length_append, List.length_cons, List.map_cons,
        List.sum_cons, ← ih]
      omega
  rw [List.flatten_append, List.length_append, List.length_append]
  show (byId.map element).length + 1 + ((byId.map element).flatten.length + 1) = _
  omega

section

variable {l : List KeyInfo} (hnumbered : NumberedKeys l) {element : KeyInfo → Bytes}
  (helement : ∀ keyInfo ∈ l, encodeTokens keyInfo.tokens = some (element keyInfo))
include hnumbered helement

theorem buildTokenArray_eq : ∃ byId : List KeyInfo, byId.Perm l ∧
    (∀ keyInfo ∈ l, byId[keyInfo.idInKeyTrie.toNat]? = some keyInfo) ∧
    buildTokenArray l {} = BitVectorBasedArrayBuilder.build
      { elements := byId.map element ++ [[kTokenTerminationFlag]] } := by
  obtain ⟨byId, htable, hperm, hget⟩ := idToKeyInfoTable_eq hnumbered
  refine ⟨byId, hperm, hget, ?_⟩
  have hfold := foldlM_add_elements
    (b := ({} : BitVectorBasedArrayBuilder)) rfl
    (fun keyInfo hmem => helement keyInfo (hperm.mem_iff.mp hmem))
  rw [buildTokenArray, htable, Option.bind_eq_bind, Option.bind_some, hfold]
  rfl

/-- **THE ELEMENT OF A KEY** stands at its id. -/
theorem bytesFrom_of_buildTokenArray {built : BitVectorBasedArrayBuilder}
    (h : buildTokenArray l {} = some built) (hsize : built.image.length < intLimit)
    {array : BitVectorBasedArray} (hopen : BitVectorBasedArray.openArray built.image = some array) :
    ∀ keyInfo ∈ l, ∃ rest,
      array.bytesFrom keyInfo.idInKeyTrie.toNat = element keyInfo ++ rest := by
  obtain ⟨byId, -, hget, heq⟩ := buildTokenArray_eq hnumbered helement
  rw [heq] at h
  intro keyInfo hmem
  have hkey : (byId.map element ++ [[kTokenTerminationFlag]])[keyInfo.idInKeyTrie.toNat]?
      = some (element keyInfo) := by
    have hbyId := hget keyInfo hmem
    rw [List.getElem?_append_left (by
      rw [List.length_map]
      exact (List.getElem?_eq_some_iff.mp hbyId).1), List.getElem?_map, hbyId, Option.map_some]
  obtain ⟨hi, hvalue⟩ := List.getElem?_eq_some_iff.mp hkey
  rw [bytesFrom_of_build rfl rfl rfl rfl h hsize hopen hi]
  show ∃ rest, ((byId.map element ++ [[kTokenTerminationFlag]]).drop _).flatMap padded4 = _
  rw [List.drop_eq_getElem_cons hi, List.flatMap_cons, hvalue, padded4, List.append_assoc]
  exact ⟨_, rfl⟩

/-- **THE ARRAY IS BUILT** if its sizes fit the header. -/
theorem buildTokenArray_isSome
    (hsize : (l.map (fun keyInfo => (element keyInfo).length + 1)).sum + 2 < 2 ^ 32) :
    (buildTokenArray l {}).isSome = true := by
  obtain ⟨byId, hperm, -, heq⟩ := buildTokenArray_eq hnumbered helement
  rw [heq]
  refine build_isSome rfl rfl rfl ?_
  show (byId.map element ++ [[kTokenTerminationFlag]]).length
    + (byId.map element ++ [[kTokenTerminationFlag]]).flatten.length < 2 ^ 32
  rw [size_elements element hperm]
  exact hsize

/-- **A BUILT ARRAY OPENS** if its bytes are counted by an `int`. -/
theorem exists_openTokenArray
    (hsize : (l.map (fun keyInfo => (element keyInfo).length + 1)).sum < 2 ^ 28)
    {built : BitVectorBasedArrayBuilder} (h : buildTokenArray l {} = some built) :
    built.image.length < intLimit ∧
      ∃ array, BitVectorBasedArray.openArray built.image = some array := by
  obtain ⟨byId, hperm, -, heq⟩ := buildTokenArray_eq hnumbered helement
  rw [heq] at h
  have hsum := size_elements element hperm
  have hlimit : intLimit = 2147483648 := rfl
  refine ⟨?_, exists_openArray rfl rfl rfl rfl h ?_⟩
  · obtain ⟨-, -, rfl⟩ := layout_of_build rfl rfl rfl rfl h
    have hle := length_layout_le
      (b := { elements := byId.map element ++ [[kTokenTerminationFlag]] }) rfl rfl
    dsimp only at hle ⊢
    omega
  · dsimp only
    omega

end

end MozkeyDictionary
