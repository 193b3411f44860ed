import Mozkey.BucketTableProofs
import Mozkey.DictionaryEndToEndProofs
import Mozkey.DictionaryPrefixProofs

/-! # SystemDictionary — reverse lookups

    `LookupReverse` reports the tokens whose value starts a string, with keys and values
    swapped.  A first pass walks the key trie over the string in hiragana, for the values
    that are not stored; a second one looks for the prefixes of the string in the value
    trie, and decodes the block of every token that the scan has found with their ids.
    What the scan has found is kept in an index, in a cache, or not at all. -/

namespace MozkeyDictionary

open ByteString OrderedMap MozkeyUtil MozkeyLouds MozkeySuccinct BucketTable

/-! ## The results of the source -/

/-- `ReverseLookupResult`. -/
structure ReverseLookupResult where
  tokensOffset : Int := -1
  idInKeyTrie : Int := -1
deriving DecidableEq

/-- What a result of the scan is kept as. -/
def ScanResult.toReverseLookupResult (result : ScanResult) : ReverseLookupResult :=
  { tokensOffset := result.tokensOffset, idInKeyTrie := result.index }

/-- `ReverseLookupCache`; the entries of an id stand in the order of their insertion. -/
structure ReverseLookupCache where
  results : List (Int × ReverseLookupResult) := []

namespace ReverseLookupCache

/-- `results.emplace`. -/
def emplace (cache : ReverseLookupCache) (id : Int) (result : ReverseLookupResult) :
    ReverseLookupCache := { results := cache.results ++ [(id, result)] }

/-- `results.equal_range`. -/
def equalRange (cache : ReverseLookupCache) (id : Int) : List ReverseLookupResult :=
  (cache.results.filter (fun entry => decide (entry.1 = id))).map Prod.snd

/-- `IsAvailable`: all of the ids are there. -/
def isAvailable (cache : ReverseLookupCache) (idSet : List Int) : Bool :=
  idSet.all (fun id => cache.results.any (fun entry => decide (entry.1 = id)))

end ReverseLookupCache

/-- `ReverseLookupIndex`; an element is a `ReverseLookupResultArray`. -/
structure ReverseLookupIndex where
  index : List (List ReverseLookupResult)

/-- The array of a result, unless it has no id. -/
def valueIdSlot (result : ScanResult) : Option Nat :=
  if result.valueId = -1 then none else some result.valueId.toNat

namespace ReverseLookupIndex

/-- The constructor; `none` where a `CHECK` fails or a scan does not end.  The three scans
    find the same. -/
def build (fuel : Nat) (tokenArray : BitVectorBasedArray) : Option ReverseLookupIndex :=
  (scanTokens fuel tokenArray).bind (fun results =>
    let valueIdMax := results.foldl (fun valueIdMax result => max valueIdMax result.valueId) (-1)
    if ¬ 0 ≤ valueIdMax then none
    else
      some
        { index := fillBuckets {} valueIdSlot ScanResult.toReverseLookupResult
            (valueIdMax + 1).toNat results })

/-- `FillResultMap`; `none` where an id has no array. -/
def fillResultMap (index : ReverseLookupIndex) (idSet : List Int) : Option ReverseLookupCache :=
  idSet.foldlM (fun resultMap id =>
    (index.index[id.toNat]?).map (fun resultArray =>
      resultArray.foldl (fun resultMap result => resultMap.emplace id result) resultMap))
    ({} : ReverseLookupCache)

end ReverseLookupIndex

/-- `reverse_lookup_index_` and `reverse_lookup_cache_`. -/
structure ReverseLookup where
  index : Option ReverseLookupIndex := none
  cache : Option ReverseLookupCache := none

/-- An id in a `btree_set`. -/
def insertId (id : Int) (ids : List Int) : List Int :=
  if id ∈ ids then ids else ids.orderedInsert (· ≤ ·) id

/-- `AddKeyIdsOfAllPrefixes`. -/
def addKeyIdsOfAllPrefixes (trie : LoudsTrie) (key : Bytes) (keyIds : List Int) : List Int :=
  (trie.prefixSearch key).foldl
    (fun keyIds call => insertId (trie.getKeyIdOfTerminalNode call.2) keyIds) keyIds

namespace SystemDictionary

variable (dict : SystemDictionary) (fuel : Nat)

/-- `ScanTokens`; `none` where the scan does not end. -/
def scanTokens (idSet : List Int) : Option ReverseLookupCache :=
  (MozkeyDictionary.scanTokens fuel dict.tokenArray).map (fun results =>
    results.foldl (fun cache result =>
      if result.valueId ≠ -1 ∧ result.valueId ∈ idSet then
        cache.emplace result.valueId result.toReverseLookupResult
      else cache) {})

/-- The ids of all substrings; the loop over the suffixes of `PopulateReverseLookupCache`. -/
def idsOfSuffixes : Nat → Bytes → List Int → List Int
  | 0, _, idSet => idSet
  | _ + 1, [], idSet => idSet
  | fuel + 1, c :: suffix, idSet =>
    idsOfSuffixes fuel ((c :: suffix).drop (oneCharLen c))
      (addKeyIdsOfAllPrefixes dict.valueTrie (encodeValue (c :: suffix)) idSet)

/-- `PopulateReverseLookupCache`. -/
def populateReverseLookupCache (reverse : ReverseLookup) (str : Bytes) : Option ReverseLookup :=
  if reverse.index.isSome then some reverse
  else
    (scanTokens dict fuel (idsOfSuffixes dict str.length str [])).map
      (fun cache => { reverse with cache := some cache })

end SystemDictionary

/-! ## The lookup of the source -/

/-- A token with its key and value swapped. -/
def Token.swap (token : Token) : Token := { token with key := token.value, value := token.key }

section

variable {σ : Type} (hiraganaToKatakana katakanaToHiragana : Bytes → Bytes)
  (dict : SystemDictionary) (callback : Callback σ)

/-- `ReverseLookupCallbackWrapper`; it forwards the tokens only. -/
def reverseLookupCallbackWrapper : Callback σ where
  onKey _ s := (.traverseContinue, s)
  onActualKey _ _ _ s := (.traverseContinue, s)
  onToken key actualKey token s := callback.onToken key actualKey token.swap s

/-- The loop of `RunCallbackOnEachPrefix` over the tokens of a key, and whether the search
    goes on; `none` where the loop does not end. -/
def runTokens (tokenFilter : TokenInfo → Bool) (pre : Bytes) :
    Nat → TokenDecodeIterator → σ → Option (σ × Bool)
  | 0, _, _ => none
  | fuel + 1, it, s =>
    if it.state = .done then some (s, true)
    else if tokenFilter it.tokenInfo = false then
      (it.next hiraganaToKatakana dict).bind (fun it => runTokens tokenFilter pre fuel it s)
    else
      let (result, s) := callback.onToken pre pre it.tokenInfo.token s
      if result = .traverseDone ∨ result = .traverseCull then some (s, false)
      else if result = .traverseNextKey then some (s, true)
      else (it.next hiraganaToKatakana dict).bind (fun it => runTokens tokenFilter pre fuel it s)

/-- The loop of `RunCallbackOnEachPrefix` over what is left of the encoded key. -/
def runCallbackOnEachPrefix (fuel : Nat) (key encodedKey : Bytes) (tokenFilter : TokenInfo → Bool) :
    Bytes → Nat → Node → σ → Option σ
  | [], _, _, s => some s
  | label :: rest, i, node, s =>
    match dict.keyTrie.moveToChildByLabel label node with
    | none => some s
    | some node =>
      if dict.keyTrie.isTerminalNode node = false then
        runCallbackOnEachPrefix fuel key encodedKey tokenFilter rest (i + 1) node s
      else
        let pre := key.take (getDecodedKeyLength (encodedKey.take (i + 1)))
        let (result, s) := callback.onKey pre s
        if result = .traverseDone ∨ result = .traverseCull then some s
        else if result = .traverseNextKey then
          runCallbackOnEachPrefix fuel key encodedKey tokenFilter rest (i + 1) node s
        else
          let (result, s) := callback.onActualKey pre pre 0 s
          if result = .traverseDone ∨ result = .traverseCull then some s
          else if result = .traverseNextKey then
            runCallbackOnEachPrefix fuel key encodedKey tokenFilter rest (i + 1) node s
          else
            let keyId := dict.keyTrie.getKeyIdOfTerminalNode node
            ((TokenDecodeIterator.init pre (dict.tokenArray.bytesFrom keyId)).nextInternal
              hiraganaToKatakana dict).bind (fun it =>
                (runTokens hiraganaToKatakana dict callback tokenFilter pre fuel it s).bind
                  (fun (s, goesOn) =>
                    if goesOn then
                      runCallbackOnEachPrefix fuel key encodedKey tokenFilter rest (i + 1)
                        node s
                    else some s))

/-- The filter of `RegisterReverseLookupTokensForT13N`. -/
def t13nFilter (info : TokenInfo) : Bool :=
  if isSpelling info then false
  else if info.valueType ≠ .asIsHiragana ∧ info.valueType ≠ .asIsKatakana then
    decide (info.token.key = katakanaToHiragana info.token.value)
  else true

/-- `RegisterReverseLookupTokensForT13N`. -/
def registerReverseLookupTokensForT13N (fuel : Nat) (value : Bytes) (s : σ) : Option σ :=
  let hiraganaValue := katakanaToHiragana value
  let encodedKey := encodeKey hiraganaValue
  runCallbackOnEachPrefix hiraganaToKatakana dict callback fuel hiraganaValue encodedKey
    (t13nFilter katakanaToHiragana) encodedKey 0 {} s

/-- The loop of `RegisterReverseLookupResults` over the tokens of a key; `none` where it
    does not end. -/
def registerTokens (valueId : Int) (tokensKey : Bytes) :
    Nat → TokenDecodeIterator → σ → Option σ
  | 0, _, _ => none
  | fuel + 1, it, s =>
    if it.state = .done then some s
    else
      let s :=
        if isSpelling it.tokenInfo = true ∨ it.tokenInfo.idInValueTrie ≠ valueId then s
        else (callback.onToken tokensKey tokensKey it.tokenInfo.token s).2
      (it.next hiraganaToKatakana dict).bind
        (fun it => registerTokens valueId tokensKey fuel it s)

/-- The body of the loops of `RegisterReverseLookupResults`. -/
def registerResult (fuel : Nat) (valueId : Int) (s : σ) (result : ReverseLookupResult) :
    Option σ := do
  let encodedKey ← dict.keyTrie.restoreKeyString result.idInKeyTrie
  let tokensKey := decodeKey encodedKey
  let (answer, s) := callback.onKey tokensKey s
  if answer ≠ .traverseContinue then some s
  else
    let ptr := (dict.tokenArray.bytesFrom 0).drop result.tokensOffset.toNat
    let it ← (TokenDecodeIterator.init tokensKey ptr).nextInternal hiraganaToKatakana dict
    registerTokens hiraganaToKatakana dict callback valueId tokensKey fuel it s

/-- `RegisterReverseLookupResults`. -/
def registerReverseLookupResults (fuel : Nat) (idSet : List Int) (cache : ReverseLookupCache)
    (s : σ) : Option σ :=
  idSet.foldlM (fun s valueId =>
    (cache.equalRange valueId).foldlM
      (registerResult hiraganaToKatakana dict callback fuel valueId) s) s

/-- The results that `RegisterReverseLookupTokensForValue` goes through. -/
def reverseLookupResults (fuel : Nat) (reverse : ReverseLookup) (idSet : List Int) :
    Option ReverseLookupCache :=
  match reverse.index with
  | some index => index.fillResultMap idSet
  | none =>
    match reverse.cache.filter (fun cache => cache.isAvailable idSet) with
    | some cache => some cache
    | none => dict.scanTokens fuel idSet

/-- `RegisterReverseLookupTokensForValue`. -/
def registerReverseLookupTokensForValue (fuel : Nat) (reverse : ReverseLookup) (value : Bytes)
    (s : σ) : Option σ :=
  let idSet := addKeyIdsOfAllPrefixes dict.valueTrie (encodeValue value) []
  (reverseLookupResults dict fuel reverse idSet).bind (fun results =>
    registerReverseLookupResults hiraganaToKatakana dict callback fuel idSet results s)

/-- `LookupReverse`: the state of the callback; `none` where a loop does not end or reads
    outside of the index. -/
def lookupReverse (fuel : Nat) (reverse : ReverseLookup) (str : Bytes) (s : σ) : Option σ :=
  (registerReverseLookupTokensForT13N hiraganaToKatakana katakanaToHiragana dict
    (reverseLookupCallbackWrapper callback) fuel str s).bind
      (registerReverseLookupTokensForValue hiraganaToKatakana dict
        (reverseLookupCallbackWrapper callback) fuel reverse str)

end

/-! ## What the iterator gets from a block -/

/-- The id that the iterator has for a token behind one with an id. -/
def decodedId (prevId : Int) (info : TokenInfo) : Int :=
  match info.valueType with
  | .defaultValue => info.idInValueTrie
  | .sameAsPrevValue => prevId
  | .asIsHiragana => -1
  | .asIsKatakana => -1

/-- The ids that the iterator has for tokens. -/
def decodedIds : Int → List TokenInfo → List Int
  | _, [] => []
  | prevId, info :: rest => decodedId prevId info :: decodedIds (decodedId prevId info) rest

/-- The value of a token is in the trie, if it is looked up there. -/
def StoredIn (dict : SystemDictionary) (info : TokenInfo) : Prop :=
  info.valueType = .defaultValue → ∃ value, lookupValue dict info.idInValueTrie = some value

section

variable {hiraganaToKatakana : Bytes → Bytes} {dict : SystemDictionary}

variable (hiraganaToKatakana) in
theorem fillValue_isSome {info : TokenInfo} (hstored : StoredIn dict info) (read : TokenInfo)
    (htype : read.valueType = info.valueType)
    (hid : read.idInValueTrie = if info.valueType = .defaultValue then info.idInValueTrie else -1)
    (key keyKatakana : Bytes) (prevId : Int) :
    ∃ filled keyKatakana', fillValue hiraganaToKatakana dict key keyKatakana prevId read
        = some (filled, keyKatakana') ∧
      filled.idInValueTrie = decodedId prevId info ∧ filled.valueType = info.valueType := by
  rw [fillValue, decodedId]
  cases hvalue : info.valueType with
  | defaultValue =>
    rw [hvalue, if_pos rfl] at hid
    obtain ⟨value, hlookup⟩ := hstored hvalue
    rw [htype, hvalue]
    dsimp only
    rw [hid, hlookup]
    exact ⟨_, _, rfl, hid, htype.trans hvalue⟩
  | sameAsPrevValue =>
    rw [htype, hvalue]
    exact ⟨_, _, rfl, rfl, rfl⟩
  | asIsHiragana =>
    rw [hvalue, if_neg (by decide)] at hid
    rw [htype, hvalue]
    exact ⟨_, _, rfl, hid, htype.trans hvalue⟩
  | asIsKatakana =>
    rw [hvalue, if_neg (by decide)] at hid
    rw [htype, hvalue]
    exact ⟨_, _, rfl, hid, htype.trans hvalue⟩

theorem fillAccent_spec (info : TokenInfo) : (fillAccent info).idInValueTrie = info.idInValueTrie ∧
    (fillAccent info).valueType = info.valueType := by
  rw [fillAccent]
  split_ifs
  · exact ⟨rfl, rfl⟩
  · exact ⟨rfl, rfl⟩

variable (dict) in
theorem fillPos_spec (info : TokenInfo) :
    (fillPos dict info).idInValueTrie = info.idInValueTrie ∧
      (fillPos dict info).valueType = info.valueType := by
  rw [fillPos]
  split_ifs
  · exact ⟨rfl, rfl⟩
  · exact ⟨rfl, rfl⟩

variable (hiraganaToKatakana) in
/-- **A TOKEN IS DECODED UNDER ANY KEY**, with its id and the type of its value. -/
theorem nextInternal_isSome {info : TokenInfo} (hstored : StoredIn dict info)
    {it : TokenDecodeIterator} {last : Bool} {output rest : Bytes}
    (hread : ReadsToken info last output) (hptr : it.ptr = output ++ rest) :
    ∃ it', it.nextInternal hiraganaToKatakana dict = some it' ∧
      it'.tokenInfo.idInValueTrie = decodedId it.tokenInfo.idInValueTrie info ∧
      it'.tokenInfo.valueType = info.valueType ∧
      it'.state = (if last then .lastToken else it.state) ∧ it'.ptr = rest := by
  generalize htoken : ({ it.tokenInfo.token with attributes := attributeNone } : Token) = token
  have hdecode : decodeToken it.ptr { token := token }
      = (readToken info { token := token }, output.length, !last) := by
    rw [hptr]
    exact hread rest _
  have hcleared := readToken_cleared info token
  generalize readToken info { token := token } = read at hdecode hcleared
  obtain ⟨filled, keyKatakana, hfill, hid, htype⟩ :=
    fillValue_isSome hiraganaToKatakana hstored read (by rw [hcleared]) (by rw [hcleared]) it.key
      it.keyKatakana it.tokenInfo.idInValueTrie
  obtain ⟨haccentId, haccentType⟩ := fillAccent_spec filled
  obtain ⟨hposId, hposType⟩ := fillPos_spec dict (fillAccent filled)
  refine ⟨{ it with
      keyKatakana := keyKatakana
      state := if !last then it.state else .lastToken
      ptr := it.ptr.drop output.length
      tokenInfo := fillPos dict (fillAccent filled) }, ?_, hposId.trans (haccentId.trans hid),
    hposType.trans (haccentType.trans htype), ?_, ?_⟩
  · rw [TokenDecodeIterator.nextInternal]
    dsimp only
    rw [htoken, hdecode]
    dsimp only
    rw [hfill]
  · cases last <;> rfl
  · rw [hptr]
    exact List.drop_left

variable (hiraganaToKatakana dict) in
/-- The tokens that an iterator gets until it is done. -/
def Yields : TokenDecodeIterator → List TokenInfo → Prop
  | it, [] => it.state = .done
  | it, info :: infos => it.state ≠ .done ∧ it.tokenInfo = info ∧
      ∃ it', it.next hiraganaToKatakana dict = some it' ∧ Yields it' infos

/-- **THE TOKENS OF A BLOCK** under any key, and under one that allows for decoding them;
    the induction is on the tokens that are not yet decoded. -/
theorem exists_yields_of_reads : ∀ {infos : List TokenInfo} {outputs : List Bytes}
    {it : TokenDecodeIterator} {rest : Bytes}, infos ≠ [] → (∀ info ∈ infos, StoredIn dict info) →
    ReadsTokens infos outputs → it.ptr = outputs.flatten ++ rest → it.state = .hasNext →
    ∃ it' decoded, it.nextInternal hiraganaToKatakana dict = some it' ∧
      Yields hiraganaToKatakana dict it' decoded ∧
      decoded.map TokenInfo.idInValueTrie = decodedIds it.tokenInfo.idInValueTrie infos ∧
      decoded.map TokenInfo.valueType = infos.map TokenInfo.valueType ∧
      ∀ {key : Bytes} {prev : Option Token}, key ≠ [] → Holds hiraganaToKatakana key prev it →
        Chain (Decodable hiraganaToKatakana dict key) prev infos →
        decoded.map TokenInfo.token = infos.map (report key) := by
  intro infos
  induction infos with
  | nil => intro _ _ _ hne; exact absurd rfl hne
  | cons info infos ih =>
    intro outputs it rest _ hstored hreads hptr hstate
    cases outputs with
    | nil => exact absurd hreads id
    | cons output outputs =>
      rw [List.flatten_cons, List.append_assoc] at hptr
      obtain ⟨it', hnext, hid, htype, hstate', hptr'⟩ :=
        nextInternal_isSome hiraganaToKatakana (hstored info List.mem_cons_self) hreads.1 hptr
      -- what the iterator holds behind the token
      have hholds : ∀ {key : Bytes} {prev : Option Token}, key ≠ [] →
          Holds hiraganaToKatakana key prev it →
          Decodable hiraganaToKatakana dict key prev info →
          Holds hiraganaToKatakana key (some info.token) it' ∧
            it'.tokenInfo.token = report key info := by
        intro key prev hkey hholds hdecodable
        obtain ⟨it'', hnext', hholds', htoken, -, -⟩ :=
          nextInternal_eq hkey hholds hdecodable hreads.1 hptr
        obtain rfl := Option.some.inj (hnext.symm.trans hnext')
        exact ⟨hholds', htoken⟩
      have hopen : it'.state ≠ .done := by
        rw [hstate', hstate]
        cases infos.isEmpty <;> decide
      cases infos with
      | nil =>
        have hlast : it'.state = .lastToken := hstate'
        refine ⟨it', [it'.tokenInfo], hnext,
          ⟨hopen, rfl, { it' with state := .done }, ?_, rfl⟩, ?_, ?_, ?_⟩
        · rw [TokenDecodeIterator.next, if_pos hlast]
        · rw [List.map_singleton, hid]
          rfl
        · rw [List.map_singleton, htype]
          rfl
        · intro key prev hkey hheld hchain
          rw [List.map_singleton, (hholds hkey hheld hchain.1).2]
          rfl
      | cons info' infos =>
        have hmore : it'.state = .hasNext := hstate'.trans hstate
        obtain ⟨it'', decoded, hnext', hyields, hids, htypes, htokens⟩ :=
          ih (List.cons_ne_nil _ _) (fun i hi => hstored i (List.mem_cons_of_mem _ hi))
            hreads.2 hptr' hmore
        refine ⟨it', it'.tokenInfo :: decoded, hnext, ⟨hopen, rfl, it'', ?_, hyields⟩,
          ?_, ?_, ?_⟩
        · rw [TokenDecodeIterator.next, if_neg (by rw [hmore]; decide), hnext']
        · rw [List.map_cons, hids, hid]
          rfl
        · rw [List.map_cons, htypes, htype]
          rfl
        · intro key prev hkey hheld hchain
          obtain ⟨hheld', htoken⟩ := hholds hkey hheld hchain.1
          rw [List.map_cons, htokens hkey hheld' hchain.2, htoken]
          rfl

/-! ## The loops over a block -/

section

variable {σ : Type} (callback : Callback σ)

/-- **THE FIRST PASS OVER A BLOCK**: a callback that continues gets the tokens that the
    filter lets through. -/
theorem runTokens_eq (tokenFilter : TokenInfo → Bool) (pre : Bytes) :
    ∀ {decoded : List TokenInfo} {it : TokenDecodeIterator} {fuel : Nat} (s : σ),
      Yields hiraganaToKatakana dict it decoded → decoded.length < fuel →
      ∃ s' goesOn, runTokens hiraganaToKatakana dict callback tokenFilter pre fuel it s
          = some (s', goesOn) ∧
        (callback.Continues → goesOn = true ∧ s' = afterTokens callback pre
          ((decoded.filter tokenFilter).map TokenInfo.token) s) := by
  intro decoded
  induction decoded with
  | nil =>
    intro it fuel s hyields hfuel
    obtain ⟨fuel, rfl⟩ := Nat.exists_eq_succ_of_ne_zero (Nat.ne_of_gt hfuel)
    refine ⟨s, true, ?_, fun _ => ⟨rfl, rfl⟩⟩
    rw [runTokens, if_pos (show it.state = .done from hyields)]
  | cons info decoded ih =>
    intro it fuel s hyields hfuel
    obtain ⟨hopen, rfl, it', hnext, hrest⟩ := hyields
    obtain ⟨fuel, rfl⟩ := Nat.exists_eq_succ_of_ne_zero (Nat.ne_of_gt (Nat.zero_lt_of_lt hfuel))
    have hfuel' : decoded.length < fuel := Nat.lt_of_succ_lt_succ hfuel
    rw [runTokens, if_neg hopen, hnext, Option.bind_some]
    by_cases hfilter : tokenFilter it.tokenInfo = false
    · rw [if_pos hfilter, List.filter_cons, if_neg (by rw [hfilter]; decide)]
      exact ih s hrest hfuel'
    · rw [if_neg hfilter, List.filter_cons, if_pos (Bool.of_not_eq_false hfilter)]
      obtain ⟨s', goesOn, hrun, hcontinues⟩ :=
        ih (callback.onToken pre pre it.tokenInfo.token s).2 hrest hfuel'
      dsimp only
      split_ifs with hdone hkey
      · refine ⟨_, _, rfl, fun hc => absurd (hc.onToken pre pre it.tokenInfo.token s) ?_⟩
        rcases hdone with h | h
        · rw [h]; decide
        · rw [h]; decide
      · refine ⟨_, _, rfl, fun hc => absurd (hc.onToken pre pre it.tokenInfo.token s) ?_⟩
        rw [hkey]
        decide
      · exact ⟨s', goesOn, hrun, hcontinues⟩

/-- **THE SECOND PASS OVER A BLOCK** reports the tokens with the id. -/
theorem registerTokens_eq (valueId : Int) (tokensKey : Bytes) :
    ∀ {decoded : List TokenInfo} {it : TokenDecodeIterator} {fuel : Nat} (s : σ),
      Yields hiraganaToKatakana dict it decoded → decoded.length < fuel →
      registerTokens hiraganaToKatakana dict callback valueId tokensKey fuel it s
        = some (afterTokens callback tokensKey
            ((decoded.filter (fun info => !isSpelling info && info.idInValueTrie == valueId)).map
              TokenInfo.token) s) := by
  intro decoded
  induction decoded with
  | nil =>
    intro it fuel s hyields hfuel
    obtain ⟨fuel, rfl⟩ := Nat.exists_eq_succ_of_ne_zero (Nat.ne_of_gt hfuel)
    rw [registerTokens, if_pos (show it.state = .done from hyields)]
    rfl
  | cons info decoded ih =>
    intro it fuel s hyields hfuel
    obtain ⟨hopen, rfl, it', hnext, hrest⟩ := hyields
    obtain ⟨fuel, rfl⟩ := Nat.exists_eq_succ_of_ne_zero (Nat.ne_of_gt (Nat.zero_lt_of_lt hfuel))
    rw [registerTokens, if_neg hopen, hnext, Option.bind_some,
      ih _ hrest (Nat.lt_of_succ_lt_succ hfuel), List.filter_cons]
    by_cases hskip : isSpelling it.tokenInfo = true ∨ it.tokenInfo.idInValueTrie ≠ valueId
    · rw [if_pos hskip, if_neg]
      rw [Bool.and_eq_true, Bool.not_eq_true', beq_iff_eq]
      rintro ⟨hspelling, hid⟩
      rcases hskip with h | h
      · exact absurd (hspelling.symm.trans h) (by decide)
      · exact h hid
    · rw [not_or, not_not, Bool.not_eq_true] at hskip
      rw [if_neg (by rw [not_or, not_not, Bool.not_eq_true]; exact hskip), if_pos]
      · rfl
      · rw [Bool.and_eq_true, Bool.not_eq_true', beq_iff_eq]
        exact hskip

/-- **THE FIRST PASS**: every key that starts the encoded string is gone through; the
    induction is on what is left of the encoded string. -/
theorem runCallbackOnEachPrefix_eq {fuel : Nat} {key encodedKey : Bytes}
    (tokenFilter : TokenInfo → Bool) (block : Nat → List TokenInfo) :
    ∀ (rest : Bytes) (i : Nat) (node : Node) (s : σ),
      (∀ call ∈ dict.keyTrie.prefixSearchLoop rest i node, ∃ it,
        (TokenDecodeIterator.init (key.take (getDecodedKeyLength (encodedKey.take call.1)))
          (dict.tokenArray.bytesFrom (dict.keyTrie.getKeyIdOfTerminalNode call.2))).nextInternal
            hiraganaToKatakana dict = some it ∧
        Yields hiraganaToKatakana dict it (block call.1) ∧ (block call.1).length < fuel) →
      ∃ s', runCallbackOnEachPrefix hiraganaToKatakana dict callback fuel key encodedKey tokenFilter
          rest i node s = some s' ∧
        (callback.Continues → s' = (dict.keyTrie.prefixSearchLoop rest i node).foldl
          (fun s call => afterKey callback
            (key.take (getDecodedKeyLength (encodedKey.take call.1)))
            (((block call.1).filter tokenFilter).map TokenInfo.token) s) s) := by
  intro rest
  induction rest with
  | nil => intro i node s _; exact ⟨s, rfl, fun _ => rfl⟩
  | cons label rest ih =>
    intro i node s hblock
    rw [LoudsTrie.prefixSearchLoop] at hblock ⊢
    rw [runCallbackOnEachPrefix]
    cases hmove : dict.keyTrie.moveToChildByLabel label node with
    | none => exact ⟨s, rfl, fun _ => rfl⟩
    | some child =>
      rw [hmove] at hblock
      dsimp only at hblock ⊢
      have hrest := fun call hcall => hblock call (List.mem_append_right _ hcall)
      by_cases hterminal : dict.keyTrie.isTerminalNode child = false
      · rw [if_pos hterminal, if_neg (by rw [hterminal]; decide), List.nil_append]
        exact ih (i + 1) child s hrest
      · rw [Bool.not_eq_false] at hterminal
        rw [if_neg (by rw [hterminal]; decide), if_pos hterminal, List.singleton_append]
        rw [if_pos hterminal] at hblock
        obtain ⟨it, hnext, hyields, hfuel⟩ := hblock (i + 1, child) List.mem_cons_self
        dsimp only at hnext
        generalize hpre : key.take (getDecodedKeyLength (encodedKey.take (i + 1))) = pre
          at hnext ⊢
        rw [hnext, Option.bind_some, List.foldl_cons, hpre, afterKey]
        dsimp only
        have hkey := fun hc : callback.Continues => hc.onKey pre s
        generalize hs₁ : (callback.onKey pre s).2 = s₁
        have hactual := fun hc : callback.Continues => hc.onActualKey pre pre 0 s₁
        generalize hs₂ : (callback.onActualKey pre pre 0 s₁).2 = s₂
        split_ifs with hdone hnextKey hdone' hnextKey'
        · refine ⟨_, rfl, fun hc => absurd (hkey hc) ?_⟩
          rcases hdone with h | h
          · rw [h]; decide
          · rw [h]; decide
        · obtain ⟨s', hrun, -⟩ := ih (i + 1) child s₁ hrest
          exact ⟨s', hrun, fun hc => absurd (hkey hc) (by rw [hnextKey]; decide)⟩
        · refine ⟨_, rfl, fun hc => absurd (hactual hc) ?_⟩
          rcases hdone' with h | h
          · rw [h]; decide
          · rw [h]; decide
        · obtain ⟨s', hrun, -⟩ := ih (i + 1) child s₂ hrest
          exact ⟨s', hrun, fun hc => absurd (hactual hc) (by rw [hnextKey']; decide)⟩
        · obtain ⟨s₃, goesOn, htokens, hcontinues⟩ :=
            runTokens_eq callback tokenFilter pre s₂ hyields hfuel
          rw [htokens, Option.bind_some]
          dsimp only
          obtain ⟨s', hrun, hafter⟩ := ih (i + 1) child s₃ hrest
          cases goesOn with
          | false => exact ⟨s₃, rfl, fun hc => absurd (hcontinues hc).1 (by decide)⟩
          | true =>
            refine ⟨s', hrun, fun hc => ?_⟩
            rw [← (hcontinues hc).2]
            exact hafter hc

end

end

end MozkeyDictionary
