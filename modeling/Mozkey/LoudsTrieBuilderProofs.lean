import Mozkey.BitStreamProofs
import Mozkey.PrefixLevelsProofs
import Mozkey.UnaryTreeProofs

/-! # LoudsTrieBuilder — writing a trie level by level

    `Build` sorts the words and writes the levels of their trie: a 1-bit, a character and
    a terminal bit for every new node, and a 0-bit behind the last word of a parent.  The
    words of a level stay in the list for one more level, to write the 0-bits of leaves. -/

namespace MozkeyLouds

open ByteString PrefixLevels UnaryTree

/-! ## The builder of the source -/

/-- `std::unique` behind an element that is kept. -/
def uniqueFrom (w : Bytes) : List Bytes → List Bytes
  | [] => [w]
  | v :: rest => if w = v then uniqueFrom w rest else w :: uniqueFrom v rest

/-- `std::unique` with the `erase` behind it. -/
def unique : List Bytes → List Bytes
  | [] => []
  | w :: rest => uniqueFrom w rest

/-- `std::vector::resize`. -/
def resize (l : List Int) (n : Nat) (value : Int) : List Int :=
  l.take n ++ List.replicate (n - l.length) value

/-- `Entry`: a word and its index in the sorted list. -/
structure Entry where
  word : Bytes
  originalIndex : Nat

/-- The streams and ids that `Build` writes. -/
structure Output where
  trieStream : BitStream
  terminalStream : BitStream
  edgeCharacter : Bytes
  idList : List Int
  id : Int

/-- An edge and its node. -/
def Output.pushEdge (depth : Nat) (entry : Entry) (out : Output) : Output :=
  let out := { out with
    trieStream := out.trieStream.pushBit true
    edgeCharacter := out.edgeCharacter ++ [entry.word.getD depth 0] }
  if entry.word.length = depth + 1 then
    { out with
      terminalStream := out.terminalStream.pushBit true
      idList := out.idList.set entry.originalIndex out.id
      id := out.id + 1 }
  else
    { out with terminalStream := out.terminalStream.pushBit false }

/-- The stop bit of a parent. -/
def Output.pushStop (out : Output) : Output :=
  { out with trieStream := out.trieStream.pushBit false }

/-- The inner loop of `Build`: the entries of a level behind the previous one. -/
def outputLevel (depth : Nat) : Option Entry → List Entry → Output → Output
  | _, [], out => out
  | prev, entry :: rest, out =>
    let out :=
      if decide (entry.word.length > depth) && prev.all (fun p =>
          entry.word.take (depth + 1) != p.word.take (depth + 1)) then
        out.pushEdge depth entry
      else out
    let out :=
      if rest.head?.all (fun next => entry.word.take depth != next.word.take depth) then
        out.pushStop
      else out
    outputLevel depth (some entry) rest out

/-- The outer loop of `Build`; words of length `depth` leave the list behind the level, so
    their total length is fuel enough. -/
def outputLevels : Nat → Nat → List Entry → Output → Output
  | 0, _, _, out => out
  | fuel + 1, depth, entryList, out =>
    if entryList.isEmpty then out
    else outputLevels fuel (depth + 1)
      (entryList.filter (fun entry => ¬ entry.word.length < depth + 1))
      (outputLevel depth none entryList out)

/-- `LoudsTrieBuilder`. -/
structure LoudsTrieBuilder where
  built : Bool
  wordList : List Bytes
  idList : List Int
  image : Bytes

namespace LoudsTrieBuilder

/-- `LoudsTrieBuilder()`. -/
def new : LoudsTrieBuilder := { built := false, wordList := [], idList := [], image := [] }

/-- `Add`; `none` where a `CHECK` fails. -/
def add (b : LoudsTrieBuilder) (word : Bytes) : Option LoudsTrieBuilder :=
  if b.built then none
  else if word.isEmpty then none
  else some { b with wordList := b.wordList ++ [word] }

/-- The two root bits, and what stands beside them. -/
def rootOutput (idList : List Int) : Output :=
  { trieStream := (BitStream.empty.pushBit true).pushBit false
    terminalStream := BitStream.empty.pushBit false
    edgeCharacter := [0]
    idList := idList
    id := 0 }

/-- What `Build` writes for a sorted list of words, before the padding. -/
def outputWords (wordList : List Bytes) (idList : List Int) : Output :=
  outputLevels (wordList.flatten.length + 1) 0
    (wordList.zipIdx.map (fun w => { word := w.1, originalIndex := w.2 }))
    (rootOutput (resize idList wordList.length (-1)))

/-- `Build`; `none` where a `CHECK` fails. -/
def build (b : LoudsTrieBuilder) : Option LoudsTrieBuilder :=
  if b.built then none
  else do
    let wordList := unique (b.wordList.insertionSort (· ≤ ·))
    let out := outputWords wordList b.idList
    let trieStream := out.trieStream.fillPadding32
    let terminalStream := out.terminalStream.fillPadding32
    let image ← pushInt32 trieStream.byteSize b.image
    let image ← pushInt32 terminalStream.byteSize image
    let image ← pushInt32 8 image
    let image ← pushInt32 out.edgeCharacter.length image
    some
      { built := true
        wordList := wordList
        idList := out.idList
        image := image ++ trieStream.image ++ terminalStream.image ++ out.edgeCharacter }

/-- `GetId`; `none` where the `CHECK` fails. -/
def getId (b : LoudsTrieBuilder) (word : Bytes) : Option Int :=
  if ¬ b.built then none
  else
    -- `std::lower_bound`
    let pos := b.wordList.findIdx (fun w => ¬ w < word)
    if b.wordList[pos]? ≠ some word then some (-1)
    else some (b.idList.getD pos (-1))

end LoudsTrieBuilder

/-! ## The sorted words -/

theorem mem_uniqueFrom {p : Bytes} : ∀ {l : List Bytes} {w : Bytes},
    p ∈ uniqueFrom w l ↔ p = w ∨ p ∈ l := by
  intro l
  induction l with
  | nil =>
    intro w
    rw [uniqueFrom, List.mem_cons]
  | cons v rest ih =>
    intro w
    rw [uniqueFrom, List.mem_cons]
    by_cases h : w = v
    · rw [if_pos h, ih, h]
      exact ⟨Or.imp_right Or.inr, fun h => h.elim Or.inl id⟩
    · rw [if_neg h, List.mem_cons, ih]

theorem pairwise_uniqueFrom : ∀ {l : List Bytes} {w : Bytes}, (w :: l).Pairwise (· ≤ ·) →
    (uniqueFrom w l).Pairwise (· < ·) := by
  intro l
  induction l with
  | nil => intro w _; exact List.pairwise_singleton _ _
  | cons v rest ih =>
    intro w h
    obtain ⟨hw, hrest⟩ := List.pairwise_cons.mp h
    rw [uniqueFrom]
    by_cases heq : w = v
    · rw [if_pos heq, heq]
      exact ih hrest
    · rw [if_neg heq]
      refine List.pairwise_cons.mpr ⟨?_, ih hrest⟩
      intro p hp
      have hwv := lt_of_le_of_ne (hw v List.mem_cons_self) heq
      rcases mem_uniqueFrom.mp hp with rfl | hp
      · exact hwv
      · exact lt_of_lt_of_le hwv ((List.pairwise_cons.mp hrest).1 p hp)

theorem mem_sortedWords {words : List Bytes} {p : Bytes} :
    p ∈ unique (words.insertionSort (· ≤ ·)) ↔ p ∈ words := by
  rw [← List.mem_insertionSort (r := (· ≤ ·)) (l := words)]
  cases words.insertionSort (· ≤ ·) with
  | nil => exact Iff.rfl
  | cons w rest => rw [unique, mem_uniqueFrom, List.mem_cons]

theorem pairwise_sortedWords (words : List Bytes) :
    (unique (words.insertionSort (· ≤ ·))).Pairwise (· < ·) := by
  have h := List.pairwise_insertionSort (· ≤ ·) words
  cases hsort : words.insertionSort (· ≤ ·) with
  | nil => exact List.Pairwise.nil
  | cons w rest =>
    rw [hsort] at h
    exact pairwise_uniqueFrom h

/-! ## The passes write rows -/

section Rows

variable (words : List Bytes)

/-- The bits and the label of a child. -/
def Output.pushChild (out : Output) (p : Bytes) : Output :=
  let out := { out with
    trieStream := out.trieStream.pushBit true
    edgeCharacter := out.edgeCharacter ++ [p.getLastD 0] }
  if p ∈ words then
    { out with
      terminalStream := out.terminalStream.pushBit true
      idList := out.idList.set (words.idxOf p) out.id
      id := out.id + 1 }
  else
    { out with terminalStream := out.terminalStream.pushBit false }

/-- The children of a node, and a 0-bit. -/
def Output.pushRow (out : Output) (row : Bytes × List Bytes) : Output :=
  (row.2.foldl (Output.pushChild words) out).pushStop

/-- The entries of a level: words with their index in the list. -/
structure IsEntry (entry : Entry) : Prop where
  mem : entry.word ∈ words
  index : words.idxOf entry.word = entry.originalIndex

variable {words}

theorem getLastD_take {w : Bytes} {depth : Nat} (h : depth < w.length) :
    (w.take (depth + 1)).getLastD 0 = w.getD depth 0 := by
  rw [List.take_succ_eq_append_getElem h, List.getLastD_concat, List.getD_eq_getElem?_getD,
    List.getElem?_eq_getElem h]
  rfl

theorem pushEdge_eq {depth : Nat} {entry : Entry} (out : Output) (hentry : IsEntry words entry)
    (hlen : depth < entry.word.length)
    (hfirst : entry.word.take (depth + 1) ∈ words → entry.word.take (depth + 1) = entry.word) :
    out.pushEdge depth entry = out.pushChild words (entry.word.take (depth + 1)) := by
  rw [Output.pushEdge, Output.pushChild, getLastD_take hlen]
  by_cases hterm : entry.word.length = depth + 1
  · have htake : entry.word.take (depth + 1) = entry.word := by
      rw [← hterm, List.take_length]
    rw [if_pos hterm, htake, if_pos hentry.mem, hentry.index]
  · have hnot : entry.word.take (depth + 1) ∉ words := by
      intro hmem
      have := congrArg List.length (hfirst hmem)
      rw [List.length_take] at this
      omega
    rw [if_neg hterm, if_neg hnot]

/-- **A PASS OVER THE ENTRIES** of a level writes its rows.  The entries before the current
    one are `front`, and the nodes of its parent written so far are `children`. -/
theorem outputLevel_eq (depth : Nat) : ∀ (entries front : List Entry) (children : List Bytes)
    (out : Output), ((front ++ entries).map Entry.word).Pairwise (· < ·) →
    (∀ p ∈ words, depth < p.length → p ∈ (front ++ entries).map Entry.word) →
    (∀ entry ∈ entries, IsEntry words entry) → entries ≠ [] ∨ children = [] →
    outputLevel depth front.getLast? entries (children.foldl (Output.pushChild words) out)
      = (levelRows depth (front.getLast?.map Entry.word) children
          (entries.map Entry.word)).foldl (Output.pushRow words) out := by
  intro entries
  induction entries with
  | nil =>
    intro front children out _ _ _ h
    rw [h.resolve_left (fun hne => hne rfl)]
    rfl
  | cons entry rest ih =>
    intro front children out hsorted hmem hentries _
    have hentry := hentries entry List.mem_cons_self
    have hfront : front ++ entry :: rest = (front ++ [entry]) ++ rest := by
      rw [List.append_assoc]
      rfl
    have hstart : (decide (entry.word.length > depth) && front.getLast?.all (fun p =>
          entry.word.take (depth + 1) != p.word.take (depth + 1)))
        = startsNode depth (front.getLast?.map Entry.word) entry.word := by
      rw [startsNode]
      cases front.getLast? <;> rfl
    have hend : rest.head?.all (fun next => entry.word.take depth != next.word.take depth)
        = endsNode depth entry.word (rest.map Entry.word) := by
      rw [endsNode, List.head?_map]
      cases rest.head? <;> rfl
    -- the children of the parent behind this entry
    have hchildren : (if startsNode depth (front.getLast?.map Entry.word) entry.word = true then
          (children.foldl (Output.pushChild words) out).pushEdge depth entry
        else children.foldl (Output.pushChild words) out)
        = (if startsNode depth (front.getLast?.map Entry.word) entry.word = true then
            children ++ [entry.word.take (depth + 1)]
          else children).foldl (Output.pushChild words) out := by
      by_cases hs : startsNode depth (front.getLast?.map Entry.word) entry.word = true
      · have hlen := lt_length_of_startsNode hs
        have hs' := hs
        rw [← List.getLast?_map] at hs'
        rw [List.map_append, List.map_cons] at hsorted hmem
        rw [if_pos hs, if_pos hs, List.foldl_append, pushEdge_eq _ hentry hlen]
        · rfl
        · intro hword
          refine eq_of_startsNode hsorted hs' (hmem _ hword ?_)
          rw [List.length_take]
          omega
      · rw [if_neg hs, if_neg hs]
    have hprev : (front ++ [entry]).getLast? = some entry := List.getLast?_concat
    rw [hfront] at hsorted hmem
    rw [outputLevel, List.map_cons, levelRows]
    rw [hstart, hend, hchildren]
    generalize (if startsNode depth (front.getLast?.map Entry.word) entry.word = true then
      children ++ [entry.word.take (depth + 1)] else children) = children'
    by_cases he : endsNode depth entry.word (rest.map Entry.word) = true
    · rw [if_pos he, if_pos he, List.foldl_cons]
      have hih := ih (front ++ [entry]) []
        (Output.pushRow words out (entry.word.take depth, children')) hsorted hmem
        (fun e he => hentries e (List.mem_cons_of_mem entry he)) (Or.inr rfl)
      rw [hprev] at hih
      exact hih
    · rw [if_neg he, if_neg he]
      obtain ⟨v, rest', hv, -⟩ := ne_nil_of_not_endsNode he
      have hne : rest ≠ [] := by
        intro hnil
        rw [hnil] at hv
        cases hv
      have hih := ih (front ++ [entry]) children' out hsorted hmem
        (fun e he => hentries e (List.mem_cons_of_mem entry he)) (Or.inl hne)
      rw [hprev] at hih
      exact hih

/-- **ALL PASSES** write the rows of the levels. -/
theorem outputLevels_eq : ∀ (fuel depth : Nat) {entries : List Entry} (out : Output),
    (entries.map Entry.word).Pairwise (· < ·) →
    (∀ p ∈ words, depth ≤ p.length → p ∈ entries.map Entry.word) →
    (∀ entry ∈ entries, IsEntry words entry) →
    outputLevels fuel depth entries out
      = (levels fuel depth (entries.map Entry.word)).foldl (Output.pushRow words) out := by
  intro fuel
  induction fuel with
  | zero => intro depth entries out _ _ _; rfl
  | succ fuel ih =>
    intro depth entries out hsorted hmem hentries
    rw [outputLevels, levels, List.isEmpty_map]
    by_cases hempty : entries.isEmpty = true
    · rw [if_pos hempty, if_pos hempty]
      rfl
    · have hfilter : (entries.filter (fun e => ¬ e.word.length < depth + 1)).map Entry.word
          = (entries.map Entry.word).filter (fun w => ¬ w.length < depth + 1) := by
        rw [List.filter_map]
        rfl
      have hlevel := outputLevel_eq depth entries [] [] out hsorted
        (fun p hp hlen => hmem p hp (Nat.le_of_lt hlen)) hentries (Or.inr rfl)
      change outputLevel depth none entries out = _ at hlevel
      rw [if_neg hempty, if_neg hempty, List.foldl_append, hlevel, ← hfilter]
      refine ih (depth + 1) _ ?_ ?_ ?_
      · rw [hfilter]
        exact hsorted.filter _
      · intro p hp hlen
        rw [hfilter]
        exact List.mem_filter.mpr ⟨hmem p hp (by omega), decide_eq_true (by omega)⟩
      · exact fun e he => hentries e (List.mem_of_mem_filter he)

/-! ## What the rows write -/

/-- The terminal bit of a node. -/
def isWord (words : List Bytes) (p : Bytes) : Bool := decide (p ∈ words)

/-- The streams and ids behind the nodes `paths`. -/
structure Written (words : List Bytes) (bits : List Bool) (paths : List Bytes) (out : Output) :
    Prop where
  trie : Holds out.trieStream bits
  terminal : Holds out.terminalStream (false :: paths.map (isWord words))
  edge : out.edgeCharacter = 0 :: paths.map (·.getLastD 0)
  id : out.id = paths.countP (isWord words)
  length : out.idList.length = words.length
  idList : ∀ w ∈ words, w ∈ paths →
    out.idList[words.idxOf w]? = some ((paths.take (paths.idxOf w)).countP (isWord words) : Int)

theorem idxOf_concat_of_mem {paths : List Bytes} {w : Bytes} (p : Bytes) (h : w ∈ paths) :
    (paths ++ [p]).take ((paths ++ [p]).idxOf w) = paths.take (paths.idxOf w) := by
  rw [List.idxOf_append_of_mem h,
    List.take_append_of_le_length (Nat.le_of_lt (List.idxOf_lt_length_of_mem h))]

theorem idxOf_concat_self {paths : List Bytes} {p : Bytes} (h : p ∉ paths) :
    (paths ++ [p]).take ((paths ++ [p]).idxOf p) = paths := by
  rw [List.idxOf_append_of_notMem h, List.idxOf_cons_self, Nat.add_zero, List.take_left]

/-- **A NODE** is written behind the others. -/
theorem written_pushChild {bits : List Bool} {paths : List Bytes} {out : Output} {p : Bytes}
    (h : Written words bits paths out) (hp : p ∉ paths) :
    Written words (bits ++ [true]) (paths ++ [p]) (out.pushChild words p) := by
  have hedge : out.edgeCharacter ++ [p.getLastD 0] = 0 :: (paths ++ [p]).map (·.getLastD 0) := by
    rw [h.edge, List.map_append]
    rfl
  have hterminal := holds_pushBit h.terminal (isWord words p)
  have hbits : (false :: paths.map (isWord words)) ++ [isWord words p]
      = false :: (paths ++ [p]).map (isWord words) := by
    rw [List.map_append]
    rfl
  rw [hbits] at hterminal
  rw [Output.pushChild]
  by_cases hword : p ∈ words
  · have htrue : isWord words p = true := decide_eq_true hword
    rw [htrue] at hterminal
    rw [if_pos hword]
    refine ⟨holds_pushBit h.trie true, hterminal, hedge, ?_, ?_, ?_⟩
    · show out.id + 1 = _
      rw [h.id, List.countP_append, List.countP_singleton, htrue]
      rfl
    · show (out.idList.set _ _).length = _
      rw [List.length_set, h.length]
    · intro w hw hmem
      show (out.idList.set (words.idxOf p) out.id)[words.idxOf w]? = _
      by_cases heq : w = p
      · rw [heq, List.getElem?_set_self (by rw [h.length]; exact List.idxOf_lt_length_of_mem hword),
          idxOf_concat_self hp, h.id]
      · have hw' := (List.mem_append.mp hmem).resolve_right
          (fun h => heq (List.mem_singleton.mp h))
        rw [List.getElem?_set_ne (fun h => heq ((List.idxOf_inj hword).mp h).symm),
          idxOf_concat_of_mem p hw']
        exact h.idList w hw hw'
  · have hfalse : isWord words p = false := decide_eq_false hword
    rw [hfalse] at hterminal
    rw [if_neg hword]
    refine ⟨holds_pushBit h.trie true, hterminal, hedge, ?_, h.length, ?_⟩
    · show out.id = _
      rw [h.id, List.countP_append, List.countP_singleton, hfalse]
      rfl
    · intro w hw hmem
      have hw' := (List.mem_append.mp hmem).resolve_right
        (fun h => hword (List.mem_singleton.mp h ▸ hw))
      rw [idxOf_concat_of_mem p hw']
      exact h.idList w hw hw'

theorem written_pushChildren : ∀ {cs paths : List Bytes} {bits : List Bool} {out : Output},
    Written words bits paths out → (paths ++ cs).Nodup →
    Written words (bits ++ List.replicate cs.length true) (paths ++ cs)
      (cs.foldl (Output.pushChild words) out) := by
  intro cs
  induction cs with
  | nil =>
    intro paths bits out h _
    rw [List.append_nil, List.length_nil, List.replicate_zero, List.append_nil]
    exact h
  | cons c cs ih =>
    intro paths bits out h hnodup
    have hc : c ∉ paths := fun hmem =>
      (List.nodup_append.mp hnodup).2.2 c hmem c List.mem_cons_self rfl
    have hassoc : ∀ {β : Type} (l : List β) (x : β) (l' : List β),
        l ++ x :: l' = (l ++ [x]) ++ l' := fun l x l' => List.append_cons l x l'
    rw [List.length_cons, List.replicate_succ, hassoc, hassoc paths]
    exact ih (written_pushChild h hc) (by rw [← hassoc]; exact hnodup)

/-- **THE ROWS** are written as the unary sequence of their degrees. -/
theorem written_rows : ∀ {rows : List (Bytes × List Bytes)} {paths : List Bytes}
    {bits : List Bool} {out : Output}, Written words bits paths out →
    (paths ++ rows.flatMap Prod.snd).Nodup →
    Written words (bits ++ unary (rows.map (fun r => r.2.length))) (paths ++ rows.flatMap Prod.snd)
      (rows.foldl (Output.pushRow words) out) := by
  intro rows
  induction rows with
  | nil =>
    intro paths bits out h _
    rw [List.flatMap_nil, List.append_nil, List.map_nil, unary, List.flatMap_nil,
      List.append_nil]
    exact h
  | cons row rows ih =>
    intro paths bits out h hnodup
    rw [List.flatMap_cons, ← List.append_assoc] at hnodup
    have hchildren := written_pushChildren h (List.nodup_append.mp hnodup).1
    have hrow : Written words (bits ++ List.replicate row.2.length true ++ [false])
        (paths ++ row.2) (out.pushRow words row) :=
      { hchildren with trie := holds_pushBit hchildren.trie false }
    have hih := ih hrow hnodup
    rw [List.append_assoc bits, List.append_assoc bits, List.append_assoc paths] at hih
    exact hih

end Rows

/-! ## Looking up ids -/

/-- **THE BINARY SEARCH** finds the id of a word of the sorted list, and no other. -/
theorem getId_eq {b : LoudsTrieBuilder} (hbuilt : b.built = true)
    (hsorted : b.wordList.Pairwise (· < ·)) (word : Bytes) :
    b.getId word
      = some (if word ∈ b.wordList then b.idList.getD (b.wordList.idxOf word) (-1) else -1) := by
  rw [LoudsTrieBuilder.getId, if_neg (fun h => h hbuilt)]
  dsimp only
  by_cases hword : word ∈ b.wordList
  · have hpos : b.wordList.findIdx (fun w => ¬ w < word) = b.wordList.idxOf word := by
      have hlt := List.idxOf_lt_length_of_mem hword
      refine (List.findIdx_eq hlt).mpr ⟨?_, ?_⟩
      · rw [List.getElem_idxOf hlt]
        exact decide_eq_true (lt_irrefl word)
      · intro i hi
        have := List.pairwise_iff_getElem.mp hsorted i _ (Nat.lt_trans hi hlt) hlt hi
        rw [List.getElem_idxOf hlt] at this
        exact decide_eq_false (fun h => h this)
    rw [hpos, List.getElem?_eq_getElem (List.idxOf_lt_length_of_mem hword), List.getElem_idxOf,
      if_neg (fun h => h rfl), if_pos hword]
  · rw [if_pos (fun h => hword (List.mem_of_getElem? h)), if_neg hword]

end MozkeyLouds
