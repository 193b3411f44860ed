import Mozkey.ReverseScanProofs

/-! # Reverse lookups — the index, the cache and the scan

    The results for the ids of a string come out of an index that was built at opening, out
    of a cache that was populated for any other string, or out of a scan. -/

namespace MozkeyDictionary

open ByteString OrderedMap MozkeyUtil MozkeyLouds MozkeySuccinct BucketTable

/-! ## The results of an id -/

/-- The results of a scan with an id. -/
def hits (results : List ScanResult) (id : Int) : List ReverseLookupResult :=
  (results.filter (fun result => decide (result.valueId = id))).map
    ScanResult.toReverseLookupResult

/-- The tokens of a key that the second pass reports for an id, before they are swapped. -/
def reverseTokens (hiraganaToKatakana : Bytes → Bytes) (idOfValue : Bytes → Int) (valueId : Int)
    (keyInfo : KeyInfo) : List Token :=
  (keyInfo.tokens.filter (fun info => !isSpelling info &&
    storedIdOf hiraganaToKatakana idOfValue info.token == valueId)).map (report keyInfo.key)

section

variable {hiraganaToKatakana : Bytes → Bytes} {tokens : List Token} {l : List KeyInfo}
  {dict : SystemDictionary} {idOfValue : Bytes → Int} {byId : List KeyInfo}
  (h : Scanned hiraganaToKatakana tokens l dict idOfValue byId)
  {σ : Type} (callback : Callback σ) {fuel : Nat} (hfuel : tokens.length < fuel)
include h hfuel

/-- **A RESULT REPORTS THE TOKENS OF ITS BLOCK** that have the id. -/
theorem registerResult_eq (valueId : Int) {result : ScanResult} {pair : KeyInfo × TokenInfo}
    (hlocates : Locates (dict.tokenArray.bytesFrom 0) byId result pair) (hmem : pair.1 ∈ l)
    (s : σ) :
    registerResult hiraganaToKatakana dict (reverseLookupCallbackWrapper callback) fuel valueId s
        result.toReverseLookupResult
      = some (afterTokens (reverseLookupCallbackWrapper callback) pair.1.key
          (reverseTokens hiraganaToKatakana idOfValue valueId pair.1) s) := by
  obtain ⟨encodedKey, hrestore, hdecode⟩ := Option.map_eq_some_iff.mp (h.restore_eq hmem)
  obtain ⟨rest, hbytes⟩ := hlocates.bytes
  have hindex : result.toReverseLookupResult.idInKeyTrie = pair.1.idInKeyTrie :=
    (h.at_id result.index pair.1 hlocates.index).symm
  obtain ⟨it, decoded, hnext, hyields, hlen, hdecoded⟩ := h.exists_yields hmem hbytes pair.1.key
  have htokens : (decoded.filter
      (fun info => !isSpelling info && info.idInValueTrie == valueId)).map TokenInfo.token
      = reverseTokens hiraganaToKatakana idOfValue valueId pair.1 := by
    -- both sides are filtered by the token and the id
    have hfilter := congrArg (fun entries : List (Token × Int × ValueType) =>
      (entries.filter (fun entry => !decide (entry.1.attributes &&& attributeSpellingCorrection ≠ 0)
        && entry.2.1 == valueId)).map Prod.fst) (hdecoded rfl)
    simp only [List.filter_map, List.map_map] at hfilter
    exact hfilter
  have hpointer : (dict.tokenArray.bytesFrom 0).drop result.toReverseLookupResult.tokensOffset.toNat
      = (dict.tokenArray.bytesFrom 0).drop result.tokensOffset := rfl
  rw [registerResult, hindex, hrestore, hpointer]
  simp only [Option.bind_eq_bind, Option.bind_some, hdecode]
  rw [hnext, Option.bind_some, registerTokens_eq _ valueId pair.1.key _ hyields (by omega), htokens]
  rfl

/-- The results of an id report the tokens of their blocks; the induction is on the results. -/
theorem foldlM_hits (valueId : Int) : ∀ {results : List ScanResult}
    {pairs : List (KeyInfo × TokenInfo)},
    List.Forall₂ (Locates (dict.tokenArray.bytesFrom 0) byId) results pairs →
    (∀ pair ∈ pairs, pair.1 ∈ l) → ∀ s : σ,
    (hits results valueId).foldlM (registerResult hiraganaToKatakana dict
        (reverseLookupCallbackWrapper callback) fuel valueId) s
      = some ((pairs.filter (fun pair => decide (valueIdOf pair.2 = valueId))).foldl
          (fun s pair => afterTokens (reverseLookupCallbackWrapper callback) pair.1.key
            (reverseTokens hiraganaToKatakana idOfValue valueId pair.1) s) s) := by
  intro results pairs hlocates
  induction hlocates with
  | nil => intro _ s; rfl
  | @cons result pair results pairs hhead _ ih =>
    intro hmem s
    have hrest := ih (fun pair hpair => hmem pair (List.mem_cons_of_mem _ hpair))
    rw [hits, List.filter_cons, List.filter_cons, hhead.valueId]
    split_ifs with hid
    · rw [List.map_cons, List.foldlM_cons, List.foldl_cons,
        registerResult_eq h callback hfuel valueId hhead (hmem pair List.mem_cons_self)]
      exact hrest _
    · exact hrest s

omit hfuel in
theorem fst_mem_of_mem_visitedPairs {pair : KeyInfo × TokenInfo}
    (hmem : pair ∈ visitedPairs byId) : pair.1 ∈ l ∧ pair.2 ∈ visitedIn l pair.1 := by
  rw [visitedPairs_eq h.perm h.at_id] at hmem
  obtain ⟨keyInfo, hkey, hpair⟩ := List.mem_flatMap.mp hmem
  obtain ⟨info, hinfo, rfl⟩ := List.mem_map.mp hpair
  exact ⟨h.perm.mem_iff.mp hkey, hinfo⟩

/-- The state behind the second pass. -/
def afterValues (hiraganaToKatakana : Bytes → Bytes) (idOfValue : Bytes → Int)
    (byId : List KeyInfo) (callback : Callback σ) (idSet : List Int) (s : σ) : σ :=
  idSet.foldl (fun s valueId =>
    ((visitedPairs byId).filter (fun pair => decide (valueIdOf pair.2 = valueId))).foldl
      (fun s pair => afterTokens (reverseLookupCallbackWrapper callback) pair.1.key
        (reverseTokens hiraganaToKatakana idOfValue valueId pair.1) s) s) s

/-- **WHAT IS REPORTED** depends on the results of the ids. -/
theorem registerReverseLookupResults_eq {cache : ReverseLookupCache} : ∀ {idSet : List Int},
    (∀ id ∈ idSet, cache.equalRange id = hits (scanResults elementOf 0 0 byId) id) → ∀ s : σ,
    registerReverseLookupResults hiraganaToKatakana dict (reverseLookupCallbackWrapper callback)
        fuel idSet cache s
      = some (afterValues hiraganaToKatakana idOfValue byId callback idSet s) := by
  intro idSet
  induction idSet with
  | nil => intro _ s; rfl
  | cons id idSet ih =>
    intro hcache s
    rw [registerReverseLookupResults, List.foldlM_cons, hcache id List.mem_cons_self,
      foldlM_hits h callback hfuel id h.locates
        (fun pair hpair => (fst_mem_of_mem_visitedPairs h hpair).1)]
    exact ih (fun id' hid' => hcache id' (List.mem_cons_of_mem _ hid')) _

end

/-! ## The scan and the cache -/

theorem equalRange_emplace (cache : ReverseLookupCache) (id id' : Int)
    (result : ReverseLookupResult) : (cache.emplace id result).equalRange id'
      = cache.equalRange id' ++ if id = id' then [result] else [] := by
  rw [ReverseLookupCache.equalRange, ReverseLookupCache.emplace, List.filter_append,
    List.map_append, List.filter_singleton]
  refine congrArg _ ?_
  by_cases heq : id = id'
  · rw [if_pos heq, heq]
    simp
  · rw [if_neg heq]
    simp [heq]

/-- **THE RESULTS OF AN ID BEHIND A SCAN** for a set of ids. -/
theorem equalRange_foldl_scan (idSet : List Int) (id : Int) : ∀ (results : List ScanResult)
    (cache : ReverseLookupCache),
    (results.foldl (fun cache result =>
      if result.valueId ≠ -1 ∧ result.valueId ∈ idSet then
        cache.emplace result.valueId result.toReverseLookupResult
      else cache) cache).equalRange id
      = cache.equalRange id ++ if id ≠ -1 ∧ id ∈ idSet then hits results id else [] := by
  intro results
  induction results with
  | nil => intro cache; rw [hits]; simp
  | cons result results ih =>
    intro cache
    rw [List.foldl_cons, ih]
    by_cases hvalue : result.valueId = id
    · subst hvalue
      by_cases hid : result.valueId ≠ -1 ∧ result.valueId ∈ idSet
      · rw [if_pos hid, if_pos hid, if_pos hid, equalRange_emplace, if_pos rfl, hits, hits,
          List.filter_cons, if_pos (decide_eq_true rfl), List.append_assoc]
        rfl
      · rw [if_neg hid, if_neg hid, if_neg hid]
    · have hhits : hits (result :: results) id = hits results id := by
        rw [hits, List.filter_cons, if_neg (by simp [hvalue])]
        rfl
      rw [hhits]
      split_ifs
      · rw [equalRange_emplace, if_neg hvalue, List.append_nil]
      · rw [equalRange_emplace, if_neg hvalue, List.append_nil]
      · rfl
      · rfl

theorem isAvailable_iff {cache : ReverseLookupCache} {idSet : List Int} :
    cache.isAvailable idSet = true ↔ ∀ id ∈ idSet, cache.equalRange id ≠ [] := by
  rw [ReverseLookupCache.isAvailable, List.all_eq_true]
  refine forall₂_congr ?_
  intro id _
  rw [List.any_eq_true, ReverseLookupCache.equalRange, ne_eq, List.map_eq_nil_iff,
    List.filter_eq_nil_iff]
  simp

/-! ## The index -/

theorem foldl_max_spec : ∀ (results : List ScanResult) (m : Int),
    let max' := results.foldl (fun valueIdMax result => max valueIdMax result.valueId) m
    m ≤ max' ∧ (∀ result ∈ results, result.valueId ≤ max') ∧
      (max' = m ∨ ∃ result ∈ results, result.valueId = max') := by
  intro results
  induction results with
  | nil => intro m; exact ⟨le_refl _, fun _ h => absurd h List.not_mem_nil, Or.inl rfl⟩
  | cons result results ih =>
    intro m
    obtain ⟨hle, hall, hmax⟩ := ih (max m result.valueId)
    refine ⟨le_trans (le_max_left _ _) hle, ?_, ?_⟩
    · intro r hr
      rcases List.mem_cons.mp hr with rfl | hr
      · exact le_trans (le_max_right _ _) hle
      · exact hall r hr
    · rcases hmax with heq | ⟨r, hr, heq⟩
      · rcases max_choice m result.valueId with hm | hm
        · exact Or.inl (heq.trans hm)
        · exact Or.inr ⟨result, List.mem_cons_self, (heq.trans hm).symm⟩
      · exact Or.inr ⟨r, List.mem_cons_of_mem _ hr, heq⟩

/-- **THE INDEX IS BUILT** where the scan has found an id, and has an array for every id up
    to the largest one. -/
theorem build_eq {fuel : Nat} {tokenArray : BitVectorBasedArray} {results : List ScanResult}
    (hscan : scanTokens fuel tokenArray = some results)
    (hids : ∀ result ∈ results, -1 ≤ result.valueId) :
    ((ReverseLookupIndex.build fuel tokenArray).isSome = true ↔
      ∃ result ∈ results, 0 ≤ result.valueId) ∧
    ∀ index, ReverseLookupIndex.build fuel tokenArray = some index →
      ∀ id : Int, 0 ≤ id → index.index[id.toNat]?
        = if ∃ result ∈ results, id ≤ result.valueId then some (hits results id) else none := by
  obtain ⟨hle, hall, hmax⟩ := foldl_max_spec results (-1)
  rw [ReverseLookupIndex.build, hscan, Option.bind_some]
  dsimp only
  generalize results.foldl (fun valueIdMax result => max valueIdMax result.valueId) (-1) = top
    at hle hall hmax
  by_cases htop : 0 ≤ top
  · obtain ⟨result, hresult, heq⟩ := hmax.resolve_left (by omega)
    rw [if_neg (not_not.mpr htop)]
    refine ⟨⟨fun _ => ⟨result, hresult, heq ▸ htop⟩, fun _ => rfl⟩, ?_⟩
    intro index hindex id hid
    rw [← Option.some.inj hindex]
    dsimp only
    by_cases hin : ∃ result ∈ results, id ≤ result.valueId
    · obtain ⟨r, hr, hidle⟩ := hin
      have hidtop := hall r hr
      rw [if_pos ⟨r, hr, hidle⟩, getElem?_fillBuckets valueIdSlot ?_ (by omega), hits]
      · refine congrArg (fun l => some (l.map ScanResult.toReverseLookupResult))
          (List.filter_congr ?_)
        intro r' hr'
        have := hids r' hr'
        refine decide_eq_decide.mpr ?_
        rw [valueIdSlot]
        split_ifs with hnone
        · rw [hnone]
          exact ⟨fun hc => absurd hc (by simp), fun hc => by omega⟩
        · rw [Option.some.injEq]
          omega
      · intro r' _ hblank
        have hoffset := congrArg ReverseLookupResult.tokensOffset hblank
        change ((r'.tokensOffset : Nat) : Int) = -1 at hoffset
        omega
    · rw [if_neg hin, List.getElem?_eq_none]
      rw [length_fillBuckets]
      have hlt : top < id := by
        refine Int.not_le.mp (fun hc => hin ⟨result, hresult, ?_⟩)
        rw [heq]
        exact hc
      omega
  · rw [if_pos htop]
    refine ⟨⟨fun hc => absurd hc (by decide), ?_⟩, fun index hindex => by cases hindex⟩
    rintro ⟨result, hresult, hpos⟩
    exact absurd (le_trans hpos (hall result hresult)) htop

theorem equalRange_foldl_emplace (id id' : Int) : ∀ (resultArray : List ReverseLookupResult)
    (resultMap : ReverseLookupCache),
    (resultArray.foldl (fun resultMap result => resultMap.emplace id result)
        resultMap).equalRange id'
      = resultMap.equalRange id' ++ if id = id' then resultArray else [] := by
  intro resultArray
  induction resultArray with
  | nil => intro resultMap; simp
  | cons result resultArray ih =>
    intro resultMap
    rw [List.foldl_cons, ih, equalRange_emplace]
    split_ifs
    · rw [List.append_assoc]
      rfl
    · simp

/-- **THE RESULTS OUT OF THE INDEX**: those of every id, unless an id has no array. -/
theorem fillResultMap_eq {index : ReverseLookupIndex} {results : List ScanResult}
    {inIndex : Int → Prop} [DecidablePred inIndex] : ∀ {idSet : List Int}
    (resultMap : ReverseLookupCache), idSet.Nodup →
    (∀ id ∈ idSet, index.index[id.toNat]? = if inIndex id then some (hits results id) else none) →
    ((∀ id ∈ idSet, inIndex id) → ∃ resultMap', idSet.foldlM (fun resultMap id =>
        (index.index[id.toNat]?).map (fun resultArray =>
          resultArray.foldl (fun resultMap result => resultMap.emplace id result) resultMap))
            resultMap = some resultMap' ∧
      ∀ id, resultMap'.equalRange id
        = resultMap.equalRange id ++ if id ∈ idSet then hits results id else []) ∧
    ((∃ id ∈ idSet, ¬ inIndex id) → idSet.foldlM (fun resultMap id =>
        (index.index[id.toNat]?).map (fun resultArray =>
          resultArray.foldl (fun resultMap result => resultMap.emplace id result) resultMap))
            resultMap = none) := by
  intro idSet
  induction idSet with
  | nil =>
    intro resultMap _ _
    refine ⟨fun _ => ⟨resultMap, rfl, fun id => by simp⟩, ?_⟩
    rintro ⟨id, hid, -⟩
    exact absurd hid List.not_mem_nil
  | cons id idSet ih =>
    intro resultMap hnodup hindex
    obtain ⟨hnot, hnodup⟩ := List.nodup_cons.mp hnodup
    rw [List.foldlM_cons, hindex id List.mem_cons_self]
    by_cases hin : inIndex id
    · rw [if_pos hin, Option.map_some, Option.bind_eq_bind, Option.bind_some]
      obtain ⟨hsome, hnone⟩ := ih ((hits results id).foldl
        (fun resultMap result => resultMap.emplace id result) resultMap) hnodup
        (fun id' hid' => hindex id' (List.mem_cons_of_mem _ hid'))
      refine ⟨fun hall => ?_, ?_⟩
      · obtain ⟨resultMap', heq, hrange⟩ :=
          hsome (fun id' hid' => hall id' (List.mem_cons_of_mem _ hid'))
        refine ⟨resultMap', heq, fun id' => ?_⟩
        rw [hrange, equalRange_foldl_emplace, List.append_assoc]
        refine congrArg _ ?_
        by_cases heq : id = id'
        · subst heq
          rw [if_pos rfl, if_neg hnot, if_pos List.mem_cons_self, List.append_nil]
        · rw [if_neg heq, List.nil_append]
          simp [List.mem_cons, Ne.symm heq]
      · rintro ⟨id', hid', hout⟩
        rcases List.mem_cons.mp hid' with rfl | hid'
        · exact absurd hin hout
        · exact hnone ⟨id', hid', hout⟩
    · rw [if_neg hin]
      exact ⟨fun hall => absurd (hall id List.mem_cons_self) hin, fun _ => rfl⟩

/-! ## The first pass -/

/-- The key of a prefix of an encoded string. -/
def prefixOf (key : Bytes) (n : Nat) : Bytes :=
  key.take (getDecodedKeyLength ((encodeKey key).take n))

/-- The lengths of the encoded keys that start an encoded string. -/
def keyLengths (l : List KeyInfo) (encodedKey : Bytes) : List Nat :=
  (List.range (encodedKey.length + 1)).filter
    (fun n => encodedKey.take n ∈ l.map (fun keyInfo => encodeKey keyInfo.key))

section

variable {hiraganaToKatakana : Bytes → Bytes} {tokens : List Token} {l : List KeyInfo}
  {dict : SystemDictionary} {idOfValue : Bytes → Int} {byId : List KeyInfo}
  (h : Scanned hiraganaToKatakana tokens l dict idOfValue byId)
include h

omit h in
theorem exists_of_forall₂ {α β : Type} {R : α → β → Prop} {as : List α} {bs : List β}
    (hrel : List.Forall₂ R as bs) :
    (∀ a ∈ as, ∃ b ∈ bs, R a b) ∧ ∀ b ∈ bs, ∃ a ∈ as, R a b := by
  induction hrel with
  | nil => exact ⟨fun _ h => absurd h List.not_mem_nil, fun _ h => absurd h List.not_mem_nil⟩
  | @cons a b as bs hab _ ih =>
    refine ⟨?_, ?_⟩
    · intro a' ha'
      rcases List.mem_cons.mp ha' with rfl | ha'
      · exact ⟨b, List.mem_cons_self, hab⟩
      · obtain ⟨b', hb', hrel⟩ := ih.1 a' ha'
        exact ⟨b', List.mem_cons_of_mem _ hb', hrel⟩
    · intro b' hb'
      rcases List.mem_cons.mp hb' with rfl | hb'
      · exact ⟨a, List.mem_cons_self, hab⟩
      · obtain ⟨a', ha', hrel⟩ := ih.2 b' hb'
        exact ⟨a', List.mem_cons_of_mem _ ha', hrel⟩

theorem eq_of_encodeKey_eq {keyInfo keyInfo' : KeyInfo} (hmem : keyInfo ∈ l) (hmem' : keyInfo' ∈ l)
    (heq : encodeKey keyInfo.key = encodeKey keyInfo'.key) : keyInfo = keyInfo' :=
  List.inj_on_of_nodup_map h.keys_nodup hmem hmem'
    (encodeKey_injective (h.spelled keyInfo hmem).1 (h.spelled keyInfo' hmem').1 heq)

/-- **THE BLOCKS OF THE KEYS** that start an encoded string can be decoded, those whose key is
    cut out of the string to their tokens. -/
theorem exists_blocks {fuel : Nat} (hfuel : tokens.length < fuel) (key encodedKey : Bytes) :
    ∃ block : Nat → List TokenInfo,
      (∀ keyInfo ∈ l, ∀ n, encodedKey.take n = encodeKey keyInfo.key →
        key.take (getDecodedKeyLength (encodedKey.take n)) = keyInfo.key →
        (block n).map (fun info => (info.token, info.idInValueTrie, info.valueType))
          = keyInfo.tokens.map (Scanned.decodedAs hiraganaToKatakana idOfValue keyInfo.key)) ∧
      ∀ call ∈ dict.keyTrie.prefixSearchLoop encodedKey 0 {}, ∃ it,
        (TokenDecodeIterator.init (key.take (getDecodedKeyLength (encodedKey.take call.1)))
          (dict.tokenArray.bytesFrom (dict.keyTrie.getKeyIdOfTerminalNode call.2))).nextInternal
            hiraganaToKatakana dict = some it ∧
        Yields hiraganaToKatakana dict it (block call.1) ∧ (block call.1).length < fuel := by
  -- the block of a key, if one has the code
  have hblock : ∀ n, ∃ decoded : List TokenInfo, ∀ keyInfo ∈ l,
      encodedKey.take n = encodeKey keyInfo.key →
      (∃ it, (TokenDecodeIterator.init (key.take (getDecodedKeyLength (encodedKey.take n)))
          (dict.tokenArray.bytesFrom keyInfo.idInKeyTrie.toNat)).nextInternal hiraganaToKatakana
            dict = some it ∧
        Yields hiraganaToKatakana dict it decoded ∧ decoded.length < fuel) ∧
      (key.take (getDecodedKeyLength (encodedKey.take n)) = keyInfo.key →
        decoded.map (fun info => (info.token, info.idInValueTrie, info.valueType))
          = keyInfo.tokens.map (Scanned.decodedAs hiraganaToKatakana idOfValue keyInfo.key)) := by
    intro n
    by_cases hcode : ∃ keyInfo ∈ l, encodedKey.take n = encodeKey keyInfo.key
    · obtain ⟨keyInfo, hmem, heq⟩ := hcode
      obtain ⟨rest, hbytes⟩ := h.element keyInfo hmem
      obtain ⟨it, decoded, hnext, hyields, hlen, hdecoded⟩ :=
        h.exists_yields hmem hbytes (key.take (getDecodedKeyLength (encodedKey.take n)))
      refine ⟨decoded, ?_⟩
      intro keyInfo' hmem' heq'
      obtain rfl := eq_of_encodeKey_eq h hmem hmem' (heq.symm.trans heq')
      exact ⟨⟨it, hnext, hyields, by omega⟩, fun hpre => hpre ▸ hdecoded hpre⟩
    · exact ⟨[], fun keyInfo hmem heq => absurd ⟨keyInfo, hmem, heq⟩ hcode⟩
  choose block hblock using hblock
  refine ⟨block, fun keyInfo hmem n hcode hpre => (hblock n keyInfo hmem hcode).2 hpre, ?_⟩
  obtain ⟨_, idOfKey, hagree, hid⟩ := h.keys
  have hcalls := hagree.prefixSearch_eq encodedKey
  rw [LoudsTrie.prefixSearch] at hcalls
  intro call hcall
  have hmem : (call.1, (dict.keyTrie.getKeyIdOfTerminalNode call.2 : Int))
      ∈ (dict.keyTrie.prefixSearchLoop encodedKey 0 {}).map (fun call =>
        (call.1, (dict.keyTrie.getKeyIdOfTerminalNode call.2 : Int))) :=
    List.mem_map.mpr ⟨call, hcall, rfl⟩
  rw [hcalls] at hmem
  obtain ⟨n, hn, heq⟩ := List.mem_map.mp hmem
  obtain ⟨rfl, hnode⟩ := Prod.mk.inj heq
  obtain ⟨keyInfo, hkey, hcode⟩ := List.mem_map.mp (of_decide_eq_true (List.mem_filter.mp hn).2)
  have hkeyId : keyInfo.idInKeyTrie.toNat = dict.keyTrie.getKeyIdOfTerminalNode call.2 := by
    rw [hid keyInfo hkey, hcode, hnode, Int.toNat_natCast]
  obtain ⟨it, hnext, hyields, hlen⟩ := (hblock call.1 keyInfo hkey hcode.symm).1
  rw [hkeyId] at hnext
  exact ⟨it, hnext, hyields, hlen⟩

theorem lengths_prefixSearchLoop (encodedKey : Bytes) :
    (dict.keyTrie.prefixSearchLoop encodedKey 0 {}).map Prod.fst = keyLengths l encodedKey := by
  obtain ⟨_, idOfKey, hagree, -⟩ := h.keys
  have hfst := congrArg (List.map Prod.fst) (hagree.prefixSearch_eq encodedKey)
  rw [List.map_map, List.map_map] at hfst
  exact hfst.trans (List.map_id' _)

/-- **THE FIRST PASS ENDS**, and goes through the blocks of the keys that start the string. -/
theorem exists_registerT13N (katakanaToHiragana : Bytes → Bytes) {fuel : Nat}
    (hfuel : tokens.length < fuel) (value : Bytes) :
    ∃ block : Nat → List TokenInfo,
      (∀ keyInfo ∈ l, ∀ n, (encodeKey (katakanaToHiragana value)).take n = encodeKey keyInfo.key →
        prefixOf (katakanaToHiragana value) n = keyInfo.key →
        (block n).map (fun info => (info.token, info.idInValueTrie, info.valueType))
          = keyInfo.tokens.map (Scanned.decodedAs hiraganaToKatakana idOfValue keyInfo.key)) ∧
      ∀ {σ : Type} (callback : Callback σ) (s : σ), ∃ s',
        registerReverseLookupTokensForT13N hiraganaToKatakana katakanaToHiragana dict callback fuel
          value s = some s' ∧
        (callback.Continues → s' = (keyLengths l (encodeKey (katakanaToHiragana value))).foldl
          (fun s n => afterKey callback (prefixOf (katakanaToHiragana value) n)
            (((block n).filter (t13nFilter katakanaToHiragana)).map TokenInfo.token) s) s) := by
  generalize hvalue : katakanaToHiragana value = hiraganaValue
  obtain ⟨block, hdecoded, hyields⟩ :=
    exists_blocks h hfuel hiraganaValue (encodeKey hiraganaValue)
  refine ⟨block, hdecoded, ?_⟩
  intro σ callback s
  obtain ⟨s', hrun, hcontinues⟩ := runCallbackOnEachPrefix_eq callback
    (t13nFilter katakanaToHiragana) block (encodeKey hiraganaValue) 0 {} s hyields
  refine ⟨s', ?_, ?_⟩
  · rw [registerReverseLookupTokensForT13N, hvalue]
    exact hrun
  · intro hc
    rw [hcontinues hc, ← lengths_prefixSearchLoop h, List.foldl_map]
    rfl

end

/-! ## Agreement -/

/-- A lookup ends, and reports the same with an index, with a cache that was populated for
    any string, and with neither. -/
def PathsAgree (hiraganaToKatakana katakanaToHiragana : Bytes → Bytes) (dict : SystemDictionary)
    (fuel : Nat) (str : Bytes) : Prop :=
  ∃ index, ReverseLookupIndex.build fuel dict.tokenArray = some index ∧
    ∀ t : Bytes, ∃ reverse, dict.populateReverseLookupCache fuel {} t = some reverse ∧
      ∀ (σ : Type) (callback : Callback σ) (s : σ), ∃ s',
        lookupReverse hiraganaToKatakana katakanaToHiragana dict callback fuel {} str s = some s' ∧
        lookupReverse hiraganaToKatakana katakanaToHiragana dict callback fuel reverse str s
          = some s' ∧
        lookupReverse hiraganaToKatakana katakanaToHiragana dict callback fuel
          { index := some index } str s = some s'

/-- The scan visits a token with an id, and for every value that starts the string one with
    an id that is as large. -/
structure ReachesIds (l : List KeyInfo) (str : Bytes) : Prop where
  some_id : ∃ keyInfo ∈ l, ∃ info ∈ visitedIn l keyInfo, info.valueType = .defaultValue
  reaches : ∀ keyInfo ∈ l, ∀ info ∈ keyInfo.tokens, info.valueType = .defaultValue →
    encodeValue info.token.value <+: encodeValue str →
      ∃ k ∈ l, ∃ i ∈ visitedIn l k, i.valueType = .defaultValue ∧
        info.idInValueTrie ≤ i.idInValueTrie

section

variable {hiraganaToKatakana : Bytes → Bytes} {tokens : List Token} {l : List KeyInfo}
  {dict : SystemDictionary} {idOfValue : Bytes → Int} {byId : List KeyInfo}
  (h : Scanned hiraganaToKatakana tokens l dict idOfValue byId)
include h

/-- The ids that the scan finds are those of the tokens that it visits. -/
theorem exists_result_iff (p : Int → Prop) :
    (∃ result ∈ scanResults elementOf 0 0 byId, p result.valueId) ↔
      ∃ keyInfo ∈ l, ∃ info ∈ visitedIn l keyInfo, p (valueIdOf info) := by
  have hlocates := h.locates
  constructor
  · rintro ⟨result, hresult, hp⟩
    obtain ⟨pair, hpair, hlocated⟩ := (exists_of_forall₂ hlocates).1 result hresult
    obtain ⟨hkey, hinfo⟩ := fst_mem_of_mem_visitedPairs h hpair
    rw [hlocated.valueId] at hp
    exact ⟨pair.1, hkey, pair.2, hinfo, hp⟩
  · rintro ⟨keyInfo, hkey, info, hinfo, hp⟩
    have hpair : (keyInfo, info) ∈ visitedPairs byId := by
      rw [visitedPairs_eq h.perm h.at_id]
      exact List.mem_flatMap.mpr
        ⟨keyInfo, h.perm.mem_iff.mpr hkey, List.mem_map_of_mem hinfo⟩
    obtain ⟨result, hresult, hlocated⟩ := (exists_of_forall₂ hlocates).2 _ hpair
    exact ⟨result, hresult, hlocated.valueId ▸ hp⟩

theorem le_valueId : ∀ result ∈ scanResults elementOf 0 0 byId, -1 ≤ result.valueId := by
  by_contra hc
  simp only [not_forall] at hc
  obtain ⟨result, hresult, hlt⟩ := hc
  obtain ⟨keyInfo, hkey, info, hinfo, hlt⟩ :=
    (exists_result_iff h (fun id => ¬ -1 ≤ id)).mp ⟨result, hresult, hlt⟩
  refine hlt ?_
  rw [valueIdOf]
  split_ifs with htype
  · obtain ⟨hstored, hid⟩ := h.valueTypes keyInfo hkey info (mem_of_mem_visitedIn hinfo)
    rw [hid htype]
    have hpos := (h.idOfValue_spec hkey (mem_of_mem_visitedIn hinfo)
      (hstored.mp (Or.inl htype))).1
    omega
  · exact le_refl _

variable {fuel : Nat} (hfuel : tokens.length < fuel)
include hfuel

/-- **THE RESULTS BEHIND A SCAN** for a set of ids. -/
theorem equalRange_scanTokens (idSet : List Int) : ∃ cache,
    dict.scanTokens fuel idSet = some cache ∧
      ∀ id, cache.equalRange id
        = if id ≠ -1 ∧ id ∈ idSet then hits (scanResults elementOf 0 0 byId) id else [] := by
  have hscan := congrArg (Option.map (fun results : List ScanResult =>
    results.foldl (fun cache result =>
      if result.valueId ≠ -1 ∧ result.valueId ∈ idSet then
        ReverseLookupCache.emplace cache result.valueId result.toReverseLookupResult
      else cache) {})) (h.scan fuel hfuel)
  refine ⟨_, hscan, fun id => ?_⟩
  rw [equalRange_foldl_scan]
  rfl

/-- **THE CACHE ANSWERS AS A SCAN**, for whatever string it was populated. -/
theorem exists_results_of_cache {t : Bytes} {reverse : ReverseLookup} {idSet : List Int}
    (hids : ∀ id ∈ idSet, id ≠ -1)
    (hreverse : reverse = {} ∨ dict.populateReverseLookupCache fuel {} t = some reverse) :
    ∃ cache, reverseLookupResults dict fuel reverse idSet = some cache ∧
      ∀ id ∈ idSet, cache.equalRange id = hits (scanResults elementOf 0 0 byId) id := by
  obtain ⟨scanned, hscan, hrange⟩ := equalRange_scanTokens h hfuel idSet
  have hscanned : ∀ id ∈ idSet,
      scanned.equalRange id = hits (scanResults elementOf 0 0 byId) id := by
    intro id hid
    rw [hrange, if_pos ⟨hids id hid, hid⟩]
  rcases hreverse with rfl | hreverse
  · exact ⟨scanned, hscan, hscanned⟩
  · obtain ⟨cache, hcache, hcacheRange⟩ :=
      equalRange_scanTokens h hfuel (dict.idsOfSuffixes t.length t [])
    rw [SystemDictionary.populateReverseLookupCache, if_neg (by decide), hcache] at hreverse
    rw [← Option.some.inj hreverse, reverseLookupResults]
    by_cases havailable : cache.isAvailable idSet = true
    · refine ⟨cache, ?_, fun id hid => ?_⟩
      · dsimp only
        rw [Option.filter_some, if_pos havailable]
      · have hne := isAvailable_iff.mp havailable id hid
        rw [hcacheRange] at hne ⊢
        exact if_pos (by_contra (fun hc => hne (if_neg hc)))
    · refine ⟨scanned, ?_, hscanned⟩
      dsimp only
      rw [Option.filter_some, if_neg havailable]
      exact hscan

theorem lookupReverse_of_results {hiraganaToKatakana' : Bytes → Bytes} {str : Bytes}
    {reverse : ReverseLookup} {cache : ReverseLookupCache}
    (hresults : reverseLookupResults dict fuel reverse
      (addKeyIdsOfAllPrefixes dict.valueTrie (encodeValue str) []) = some cache)
    (hrange : ∀ id ∈ addKeyIdsOfAllPrefixes dict.valueTrie (encodeValue str) [],
      cache.equalRange id = hits (scanResults elementOf 0 0 byId) id)
    {σ : Type} {callback : Callback σ} {s s' : σ}
    (hfirst : registerReverseLookupTokensForT13N hiraganaToKatakana hiraganaToKatakana' dict
      (reverseLookupCallbackWrapper callback) fuel str s = some s') :
    lookupReverse hiraganaToKatakana hiraganaToKatakana' dict callback fuel reverse str s
      = some (afterValues hiraganaToKatakana idOfValue byId callback
          (addKeyIdsOfAllPrefixes dict.valueTrie (encodeValue str) []) s') := by
  rw [lookupReverse, hfirst, Option.bind_some, registerReverseLookupTokensForValue, hresults,
    Option.bind_some]
  exact registerReverseLookupResults_eq h callback hfuel hrange s'

omit hfuel in
theorem prefixIds_spec (str : Bytes) :
    (addKeyIdsOfAllPrefixes dict.valueTrie (encodeValue str) []).Nodup ∧
      ∀ id ∈ addKeyIdsOfAllPrefixes dict.valueTrie (encodeValue str) [], 0 ≤ id := by
  constructor
  · rw [addKeyIdsOfAllPrefixes_eq]
    exact nodup_foldl_insertId _ List.nodup_nil
  · intro id hid
    rw [h.mem_prefixIds] at hid
    obtain ⟨keyInfo, hkey, info, hinfo, htype, -, rfl⟩ := hid
    exact (h.idOfValue_spec hkey hinfo htype).1

theorem isSome_build_iff : (ReverseLookupIndex.build fuel dict.tokenArray).isSome = true ↔
    ∃ keyInfo ∈ l, ∃ info ∈ visitedIn l keyInfo, info.valueType = .defaultValue := by
  rw [(build_eq (h.scan fuel hfuel) (le_valueId h)).1, exists_result_iff h (fun id => 0 ≤ id)]
  constructor
  · rintro ⟨keyInfo, hkey, info, hinfo, hle⟩
    refine ⟨keyInfo, hkey, info, hinfo, by_contra fun hc => ?_⟩
    rw [valueIdOf, if_neg hc] at hle
    omega
  · rintro ⟨keyInfo, hkey, info, hinfo, htype⟩
    obtain ⟨hstored, hid⟩ := h.valueTypes keyInfo hkey info (mem_of_mem_visitedIn hinfo)
    refine ⟨keyInfo, hkey, info, hinfo, ?_⟩
    rw [valueIdOf, if_pos htype, hid htype]
    exact (h.idOfValue_spec hkey (mem_of_mem_visitedIn hinfo) (hstored.mp (Or.inl htype))).1

omit hfuel in
/-- The ids of the string are in the index where the scan visits one that is as large. -/
theorem forall_exists_result_iff (str : Bytes) :
    (∀ id ∈ addKeyIdsOfAllPrefixes dict.valueTrie (encodeValue str) [],
      ∃ result ∈ scanResults elementOf 0 0 byId, id ≤ result.valueId) ↔
      ∀ keyInfo ∈ l, ∀ info ∈ keyInfo.tokens, info.valueType = .defaultValue →
        encodeValue info.token.value <+: encodeValue str →
          ∃ k ∈ l, ∃ i ∈ visitedIn l k, i.valueType = .defaultValue ∧
            info.idInValueTrie ≤ i.idInValueTrie := by
  constructor
  · intro hall keyInfo hkey info hinfo htype hprefix
    obtain ⟨hstored, hid⟩ := h.valueTypes keyInfo hkey info hinfo
    have hstored := hstored.mp (Or.inl htype)
    have hmem : info.idInValueTrie
        ∈ addKeyIdsOfAllPrefixes dict.valueTrie (encodeValue str) [] := by
      rw [h.mem_prefixIds]
      exact ⟨keyInfo, hkey, info, hinfo, hstored, hprefix, (hid htype).symm⟩
    obtain ⟨k, hk, i, hi, hle⟩ := (exists_result_iff h (fun id => info.idInValueTrie ≤ id)).mp
      (hall _ hmem)
    have hidPos := (prefixIds_spec h str).2 _ hmem
    rw [valueIdOf] at hle
    split_ifs at hle with hdefault
    · exact ⟨k, hk, i, hi, hdefault, hle⟩
    · omega
  · intro hall id hid
    rw [h.mem_prefixIds] at hid
    obtain ⟨keyInfo, hkey, info, hinfo, hstored, hprefix, rfl⟩ := hid
    obtain ⟨info', hinfo', htype, hvalue⟩ := h.first keyInfo hkey info hinfo hstored
    obtain ⟨k, hk, i, hi, hdefault, hle⟩ :=
      hall keyInfo hkey info' hinfo' htype (by rw [hvalue]; exact hprefix)
    rw [(h.valueTypes keyInfo hkey info' hinfo').2 htype, hvalue] at hle
    refine (exists_result_iff h (fun id => _ ≤ id)).mpr ⟨k, hk, i, hi, ?_⟩
    rw [valueIdOf, if_pos hdefault]
    exact hle

/-- **THE INDEX ANSWERS AS A SCAN** where it has the ids of the string, and else not at all. -/
theorem results_of_index {index : ReverseLookupIndex}
    (hbuilt : ReverseLookupIndex.build fuel dict.tokenArray = some index) (str : Bytes) :
    (ReachesIds l str → ∃ cache, reverseLookupResults dict fuel { index := some index }
        (addKeyIdsOfAllPrefixes dict.valueTrie (encodeValue str) []) = some cache ∧
      ∀ id ∈ addKeyIdsOfAllPrefixes dict.valueTrie (encodeValue str) [],
        cache.equalRange id = hits (scanResults elementOf 0 0 byId) id) ∧
    (¬ ReachesIds l str → reverseLookupResults dict fuel { index := some index }
        (addKeyIdsOfAllPrefixes dict.valueTrie (encodeValue str) []) = none) := by
  obtain ⟨hnodup, hpos⟩ := prefixIds_spec h str
  have hindex := (build_eq (h.scan fuel hfuel) (le_valueId h)).2
  obtain ⟨hfilled, hnone⟩ := fillResultMap_eq {} hnodup
    (fun id hid => hindex index hbuilt id (hpos id hid))
  constructor
  · intro hreaches
    obtain ⟨filled, hfilled, hrange⟩ :=
      hfilled ((forall_exists_result_iff h str).mpr hreaches.reaches)
    refine ⟨filled, hfilled, fun id hid => ?_⟩
    rw [hrange, if_pos hid]
    rfl
  · intro hnot
    refine hnone ?_
    by_contra hc
    refine hnot ⟨(isSome_build_iff h hfuel).mp (by rw [hbuilt]; rfl),
      (forall_exists_result_iff h str).mp (fun id hid => ?_)⟩
    by_contra hout
    exact hc ⟨id, hid, hout⟩

/-- **WHEN THE PATHS AGREE**, for a dictionary that is known by its blocks. -/
theorem pathsAgree_iff (katakanaToHiragana : Bytes → Bytes) (str : Bytes) :
    PathsAgree hiraganaToKatakana katakanaToHiragana dict fuel str ↔ ReachesIds l str := by
  constructor
  · rintro ⟨index, hbuilt, hagree⟩
    by_contra hnot
    obtain ⟨reverse, -, hall⟩ := hagree []
    obtain ⟨s', -, -, hindexed⟩ := hall Unit
      ⟨fun _ s => (.traverseContinue, s), fun _ _ _ s => (.traverseContinue, s),
        fun _ _ _ s => (.traverseContinue, s)⟩ ()
    rw [lookupReverse, Option.bind_eq_some_iff] at hindexed
    obtain ⟨s₁, -, hvalue⟩ := hindexed
    rw [registerReverseLookupTokensForValue, (results_of_index h hfuel hbuilt str).2 hnot] at hvalue
    cases hvalue
  · intro hreaches
    have hne : ∀ id ∈ addKeyIdsOfAllPrefixes dict.valueTrie (encodeValue str) [], id ≠ -1 := by
      intro id hid
      have hpos := (prefixIds_spec h str).2 id hid
      omega
    obtain ⟨index, hbuilt⟩ :=
      Option.isSome_iff_exists.mp ((isSome_build_iff h hfuel).mpr hreaches.some_id)
    refine ⟨index, hbuilt, fun t => ?_⟩
    obtain ⟨cache, hcache, -⟩ :=
      equalRange_scanTokens h hfuel (dict.idsOfSuffixes t.length t [])
    have hpopulate : dict.populateReverseLookupCache fuel {} t = some { cache := some cache } := by
      rw [SystemDictionary.populateReverseLookupCache, if_neg (by decide), hcache]
      rfl
    refine ⟨_, hpopulate, ?_⟩
    intro σ callback s
    obtain ⟨_, -, hfirst⟩ := exists_registerT13N h katakanaToHiragana hfuel str
    obtain ⟨s₁, hrun, -⟩ := hfirst (reverseLookupCallbackWrapper callback) s
    obtain ⟨scanned, hscan, hscanRange⟩ :=
      exists_results_of_cache h hfuel (t := t) hne (Or.inl rfl)
    obtain ⟨cached, hcached, hcachedRange⟩ :=
      exists_results_of_cache h hfuel hne (Or.inr hpopulate)
    obtain ⟨filled, hindexed, hfilledRange⟩ := (results_of_index h hfuel hbuilt str).1 hreaches
    exact ⟨_, lookupReverse_of_results h hfuel hscan hscanRange hrun,
      lookupReverse_of_results h hfuel hcached hcachedRange hrun,
      lookupReverse_of_results h hfuel hindexed hfilledRange hrun⟩

end

/-- **WHEN THE PATHS AGREE.**  Whatever tokens a dictionary is built from, for any string
    the index, the cache and the scan report the same just where the scan visits a token
    with an id, and for every value that starts the string one with an id that is as large. -/
theorem lookupReverse_agrees_iff (hiraganaToKatakana katakanaToHiragana : Bytes → Bytes)
    (minKeyLen : Nat) (tokens : List Token) (hacceptable : ∀ token ∈ tokens, Acceptable token)
    (hfew : (storedValuesOf hiraganaToKatakana tokens).dedup.length ≤ 2 ^ 22) :
    ∀ keyInfoList b, buildFromTokens hiraganaToKatakana minKeyLen tokens = some (keyInfoList, b) →
      (totalSize tokens < 2 ^ 28 → (openDictionaryFile b).isSome = true) ∧
      ∀ dict, openDictionaryFile b = some dict →
        ∀ (str : Bytes) (fuel : Nat), tokens.length < fuel →
          (PathsAgree hiraganaToKatakana katakanaToHiragana dict fuel str ↔
            ReachesIds keyInfoList str) := by
  intro keyInfoList b hbuild
  refine ⟨fun hsize => isSome_openDictionaryFile hacceptable hfew hsize hbuild, ?_⟩
  intro dict hopen str fuel hfuel
  obtain ⟨idOfValue, byId, hscanned⟩ := scanned_of_build hacceptable hfew hbuild hopen
  exact pathsAgree_iff hscanned hfuel katakanaToHiragana str

/-! ## As many values as have small ids -/

section

variable {hiraganaToKatakana : Bytes → Bytes} {tokens : List Token} {l : List KeyInfo}
  {dict : SystemDictionary} {idOfValue : Bytes → Int} {byId : List KeyInfo}
  (h : Scanned hiraganaToKatakana tokens l dict idOfValue byId)
include h

theorem idInValueTrie_lt {keyInfo : KeyInfo} (hkey : keyInfo ∈ l) {info : TokenInfo}
    (hinfo : info ∈ keyInfo.tokens) (htype : info.valueType = .defaultValue) :
    info.idInValueTrie < ((storedValuesOf hiraganaToKatakana tokens).dedup.length : Int) := by
  obtain ⟨added, _, hagree, hadded⟩ := h.values
  obtain ⟨hstored, hid⟩ := h.valueTypes keyInfo hkey info hinfo
  have hmem := (hadded _).mpr ⟨keyInfo, hkey, info, hinfo, hstored.mp (Or.inl htype), rfl⟩
  have hsubset : added.dedup
      ⊆ (storedValuesOf hiraganaToKatakana tokens).dedup.map encodeValue := by
    intro w hw
    obtain ⟨k, hk, i, hi, htype', rfl⟩ := (hadded w).mp (List.mem_dedup.mp hw)
    refine List.mem_map_of_mem (List.mem_dedup.mpr (List.mem_map_of_mem
      (List.mem_filter.mpr ⟨?_, decide_eq_true htype'⟩)))
    exact h.infos.mem_iff.mp (List.mem_map_of_mem (List.mem_flatMap.mpr ⟨k, hk, hi⟩))
  have hle := (List.subperm_of_subset (List.nodup_dedup _) hsubset).length_le
  rw [List.length_map] at hle
  have hlt := (hagree.bijOn.mapsTo hmem).2
  rw [hid htype]
  omega

/-- **WITH FEW STORED VALUES** no block looks like the end, and the scan visits all tokens. -/
theorem visitedIn_of_few
    (hsmall : (storedValuesOf hiraganaToKatakana tokens).dedup.length ≤ 0x3f0000)
    {keyInfo : KeyInfo} (hkey : keyInfo ∈ l) : visitedIn l keyInfo = keyInfo.tokens := by
  have hends : ∀ keyInfo ∈ l, ¬ EndsScan keyInfo.tokens := by
    rintro keyInfo hkey ⟨info, hlast, hlooks⟩
    have hlt := idInValueTrie_lt h hkey (List.mem_of_getLast? hlast) hlooks.valueType
    have hle := hlooks.id
    omega
  have hnone : ¬ ∃ k ∈ l, k.idInKeyTrie < keyInfo.idInKeyTrie ∧ EndsScan k.tokens := by
    rintro ⟨k, hk, -, hc⟩
    exact hends k hk hc
  rw [visitedIn, if_neg hnone, if_neg (hends keyInfo hkey)]

theorem reachesIds_of_few {token : Token} (hmem : token ∈ tokens)
    (htype : getValueType hiraganaToKatakana token = .defaultValue)
    (hsmall : (storedValuesOf hiraganaToKatakana tokens).dedup.length ≤ 0x3f0000) (str : Bytes) :
    ReachesIds l str := by
  obtain ⟨info, hinfo, rfl⟩ := List.mem_map.mp (h.infos.mem_iff.mpr hmem)
  obtain ⟨keyInfo, hkey, hinfo⟩ := List.mem_flatMap.mp hinfo
  obtain ⟨info', hinfo', htype', -⟩ := h.first keyInfo hkey info hinfo htype
  refine ⟨⟨keyInfo, hkey, info', ?_, htype'⟩, ?_⟩
  · rw [visitedIn_of_few h hsmall hkey]
    exact hinfo'
  · intro k hk i hi htype _
    refine ⟨k, hk, i, ?_, htype, le_refl _⟩
    rw [visitedIn_of_few h hsmall hk]
    exact hi

end

/-- The paths agree for a dictionary of three tokens. -/
theorem lookupReverse_agrees_stored : ∃ built b dict,
    buildFromTokens id 0 storedTokens = some (built, b) ∧ openDictionaryFile b = some dict ∧
      ∀ str fuel, 3 < fuel → PathsAgree id id dict fuel str := by
  obtain ⟨built, b, dict, hbuild, hopen⟩ :=
    exists_opened_of_few id acceptable_storedTokens (by decide) (by decide)
  have hiff := (lookupReverse_agrees_iff id id 0 storedTokens acceptable_storedTokens (by decide)
    built b hbuild).2 dict hopen
  obtain ⟨_, _, hscanned⟩ :=
    scanned_of_build acceptable_storedTokens (by decide) hbuild hopen
  exact ⟨built, b, dict, hbuild, hopen, fun str fuel hfuel => (hiff str fuel hfuel).mpr
    (reachesIds_of_few hscanned List.mem_cons_self (by decide) (by decide) str)⟩

/-! ## Few positions -/

/-- The tokens of a build with few positions are written with them as frequent ones, or as
    those of the tokens before. -/
theorem posType_ne_defaultPos {hiraganaToKatakana : Bytes → Bytes} {minKeyLen : Nat}
    {tokens : List Token} {built : List KeyInfo} {b : SystemDictionaryBuilder}
    (hbuild : buildFromTokens hiraganaToKatakana minKeyLen tokens = some (built, b))
    (hacceptable : ∀ token ∈ tokens, Acceptable token) {ps : List Nat}
    (hps : ∀ token ∈ tokens, token.pos ∈ ps) (hfew : ps.length ≤ 255) :
    ∀ keyInfo ∈ built, ∀ info ∈ keyInfo.tokens, info.token ∈ tokens →
      info.posType ≠ .defaultPos := by
  obtain ⟨keyInfoList, hlist, hread⟩ := @exists_readFrom hiraganaToKatakana tokens hacceptable
  simp only [buildFromTokens, hlist, Option.bind_eq_bind, Option.bind_some,
    Option.bind_eq_some_iff] at hbuild
  obtain ⟨frequentPos, hfrequent, _, -, _, -, withValues, -, withKeys, -, _, -, heq⟩ := hbuild
  obtain ⟨rfl, -⟩ := Prod.mk.inj (Option.some.inj heq)
  have hposes : (combinedPoses keyInfoList).Perm (tokens.map Token.pos) := by
    have hperm := hread.infos.map (fun info => info.token.pos)
    rw [List.map_map, List.map_flatMap] at hperm
    exact hperm
  have hall : ∀ pos ∈ combinedPoses keyInfoList, pos ∈ ps := by
    intro pos hmem
    obtain ⟨token, htoken, rfl⟩ := List.mem_map.mp (hposes.mem_iff.mp hmem)
    exact hps token htoken
  have hget : ∀ token ∈ tokens, ∃ i, frequentPos.get? token.pos = some i := fun token hmem =>
    exists_get?_buildFrequentPos hfrequent hall hfew
      (hposes.mem_iff.mpr (List.mem_map_of_mem hmem))
  have hbody : ∀ prev info, True → (setPosTypeOf frequentPos prev info).token ∈ tokens →
      (setPosTypeOf frequentPos prev info).posType ≠ .defaultPos := by
    intro prev info _ hinfo
    rw [token_setPosTypeOf] at hinfo
    obtain ⟨i, hi⟩ := hget info.token hinfo
    rw [setPosTypeOf, hi]
    split_ifs
    · show PosType.sameAsPrevPos ≠ .defaultPos
      decide
    · show PosType.frequentPos ≠ .defaultPos
      decide
  have hvalue : ∀ prev info, (info.token ∈ tokens → info.posType ≠ .defaultPos) →
      (setValueTypeOf prev info).token ∈ tokens →
        (setValueTypeOf prev info).posType ≠ .defaultPos := by
    intro prev info h
    rw [setValueTypeOf]
    split_ifs
    · exact h
    · exact h
  intro keyInfo hkey info hinfo
  rw [List.map_map, List.map_map] at hkey
  obtain ⟨k, -, rfl⟩ := List.mem_map.mp hkey
  have hchain : ∀ k : KeyInfo, Chain (fun _ info => info.token ∈ tokens →
      info.posType ≠ .defaultPos) none (setValueType (setPosType frequentPos k)).tokens :=
    fun k => (chain_overTokens token_setValueTypeOf hvalue
      (chain_overTokens token_setPosTypeOf hbody
        (chain_of_forall none (fun _ _ _ => trivial))).2).2
  obtain ⟨index, hget⟩ := List.mem_iff_getElem?.mp hinfo
  obtain ⟨_, hinfo, -⟩ := (hchain _).getElem? hget
  exact hinfo

/-! ## The order of two tokens -/

/-- The passes behind the sort keep the order of the tokens. -/
theorem tokens_passes (idOfValue idOfKey : Bytes → Int) (minKeyLen : Nat) (values : List Bytes)
    (frequentPos : SortedMap Nat Nat) (keyInfo : KeyInfo) :
    (passes idOfValue idOfKey minKeyLen values frequentPos keyInfo).tokens.map TokenInfo.token
      = (sortTokenInfo (withIds idOfValue idOfKey keyInfo)).tokens.map TokenInfo.token := by
  obtain ⟨-, -, hcost, -⟩ := @setCostType_spec id idOfValue minKeyLen values
    (sortTokenInfo (withIds idOfValue idOfKey keyInfo))
  have hkeep : ∀ {body : Option Token → TokenInfo → TokenInfo},
      (∀ prev info, (body prev info).token = info.token) → ∀ infos : List TokenInfo,
      (overTokens body none infos).map TokenInfo.token = infos.map TokenInfo.token :=
    fun htoken infos => (@chain_overTokens _ (fun _ _ => True) (fun _ _ => True) htoken
      (fun _ _ _ => trivial) infos none (chain_of_forall none (fun _ _ _ => trivial))).1
  exact (hkeep token_setValueTypeOf _).trans ((hkeep token_setPosTypeOf _).trans hcost)

/-- Of two tokens, the one with the larger left id comes first. -/
theorem tokens_sortTokenInfo {keyInfo : KeyInfo} {first last : Token}
    (hperm : (keyInfo.tokens.map TokenInfo.token).Perm [first, last])
    (hlid : last.lid < first.lid) :
    (sortTokenInfo keyInfo).tokens.map TokenInfo.token = [first, last] := by
  have hlength := hperm.length_eq
  rw [List.length_map] at hlength
  obtain ⟨x, y, htokens⟩ := List.length_eq_two.mp hlength
  rw [htokens] at hperm
  have hsort : (sortTokenInfo keyInfo).tokens
      = if tokenLess y x = false then [x, y] else [y, x] := by
    rw [sortTokenInfo, htokens]
    rfl
  have hless : ∀ {lhs rhs : TokenInfo}, rhs.token.lid < lhs.token.lid →
      tokenLess lhs rhs = true ∧ tokenLess rhs lhs = false := by
    intro lhs rhs hlt
    rw [tokenLess, tokenLess, decide_eq_true hlt, decide_eq_false (Nat.lt_asymm hlt),
      decide_eq_false (Nat.ne_of_gt hlt)]
    exact ⟨rfl, rfl⟩
  have hx : x.token = first ∨ x.token = last :=
    List.mem_pair.mp (hperm.mem_iff.mp List.mem_cons_self)
  rw [hsort]
  rcases hx with hx | hx
  · rw [List.map_cons, hx] at hperm
    have hy : y.token = last := List.singleton_perm_singleton.mp hperm.cons_inv
    rw [if_pos (hless (by rw [hx, hy]; exact hlid)).2, List.map_cons, hx, List.map_singleton, hy]
  · rw [List.map_cons, hx] at hperm
    have hy : y.token = first :=
      List.singleton_perm_singleton.mp (hperm.trans (List.Perm.swap last first [])).cons_inv
    rw [if_neg (by rw [(hless (by rw [hx, hy]; exact hlid)).1]; decide), List.map_cons, hy,
      List.map_singleton, hx]

/-! ## As many values as have large ids -/

/-- A key of two kanji. -/
def kanjiKey (i : Nat) : List Nat := [0x4e00 + i / 4096, 0x4e00 + i % 4096]

/-- A token with a key of two kanji, and a value of one more. -/
def kanjiToken (i : Nat) : Token :=
  { key := (kanjiKey i).flatMap codepointToUtf8
    value := (0x4e01 :: kanjiKey i).flatMap codepointToUtf8
    cost := 0, lid := 1, rid := 2, attributes := attributeNone }

/-- The token of the key itself, with a larger left id. -/
def readingToken (i : Nat) : Token :=
  { key := (kanjiKey i).flatMap codepointToUtf8
    value := (kanjiKey i).flatMap codepointToUtf8
    cost := 0, lid := 3, rid := 2, attributes := attributeNone }

theorem getValueType_readingToken (i : Nat) :
    getValueType id (readingToken i) = .asIsHiragana := if_pos rfl

/-- Two tokens for each of as many keys. -/
def kanjiTokens (n : Nat) : List Token :=
  (List.range n).flatMap (fun i => [readingToken i, kanjiToken i])

theorem kanjiKey_bounds {i : Nat} (hi : i < 2 ^ 24) :
    ∀ c ∈ 0x4e01 :: kanjiKey i, 0x4e00 ≤ c ∧ c < 0x6000 := by
  intro c hc
  simp only [kanjiKey, List.mem_cons, List.not_mem_nil, or_false] at hc
  omega

theorem codepointToUtf8_three {c : Nat} (h : 0x800 ≤ c ∧ c < 0x10000) :
    (codepointToUtf8 c).length = 3 ∧ (0 : UInt8) ∉ codepointToUtf8 c := by
  refine ⟨?_, zero_notMem_codepointToUtf8 (by omega)⟩
  rw [length_codepointToUtf8 (by omega) h.2, if_neg (by omega), if_neg (by omega)]

theorem length_encodeValueChar_le (c : Nat) : (encodeValueChar c).length ≤ 4 := by
  unfold encodeValueChar
  dsimp only
  split_ifs <;> simp

theorem length_flatMap_le {α : Type} {f : α → Bytes} {n : Nat} (cs : List α)
    (h : ∀ c ∈ cs, (f c).length ≤ n) : (cs.flatMap f).length ≤ n * cs.length := by
  rw [List.length_flatMap, Nat.mul_comm]
  refine List.sum_le_card_nsmul _ n ?_ |>.trans_eq ?_
  · intro x hx
    obtain ⟨c, hc, rfl⟩ := List.mem_map.mp hx
    exact h c hc
  · rw [List.length_map, smul_eq_mul]

theorem kanji_spec {cs : List Nat} (h : ∀ c ∈ cs, 0x4e00 ≤ c ∧ c < 0x6000) :
    ValidUtf8 (cs.flatMap codepointToUtf8) ∧ (0 : UInt8) ∉ cs.flatMap codepointToUtf8 ∧
      chars32 (cs.flatMap codepointToUtf8) = cs ∧
      (encodeKey (cs.flatMap codepointToUtf8)).length ≤ 3 * cs.length ∧
      (encodeValue (cs.flatMap codepointToUtf8)).length ≤ 4 * cs.length := by
  have hchars : chars32 (cs.flatMap codepointToUtf8) = cs := by
    refine chars32_flatMap (fun c hc => ?_)
    have := h c hc
    omega
  refine ⟨⟨cs, ?_, ?_⟩, ?_, hchars, ?_, ?_⟩
  · intro c hc
    have := h c hc
    exact Or.inl (by omega)
  · refine List.flatMap_congr ?_
    intro c hc
    have := h c hc
    rw [utf8, if_neg (by omega)]
  · intro hc
    obtain ⟨c, hc, hmem⟩ := List.mem_flatMap.mp hc
    have := h c hc
    exact (codepointToUtf8_three (by omega)).2 hmem
  · rw [encodeKey, encodeDecodeKeyImpl, hchars]
    refine length_flatMap_le cs ?_
    intro c hc
    have hcode := h c hc
    have hswap : swapKeyCode c = c := by
      unfold swapKeyCode
      dsimp only
      split_ifs <;> omega
    rw [hswap, (codepointToUtf8_three (by omega)).1]
  · rw [encodeValue, hchars]
    exact length_flatMap_le cs (fun c _ => length_encodeValueChar_le c)

theorem acceptable_kanjiToken {i : Nat} (hi : i < 2 ^ 24) :
    Acceptable (kanjiToken i) ∧ Acceptable (readingToken i) := by
  obtain ⟨hvalid, hnul, -, -, hdepth⟩ := kanji_spec (kanjiKey_bounds hi)
  obtain ⟨hvalid', hnul', hchars, hdepth', hdepth''⟩ :=
    kanji_spec (fun c hc => kanjiKey_bounds hi c (List.mem_cons_of_mem _ hc))
  have hne : ∀ {c : Nat} {cs : List Nat}, 0 < c → (c :: cs).flatMap codepointToUtf8 ≠ [] := by
    intro c cs hc
    rw [List.flatMap_cons]
    exact List.append_ne_nil_of_left_ne_nil (codepointToUtf8_ne_nil hc) _
  have hkanji : Acceptable (kanjiToken i) :=
    { key_ne := hne (by omega)
      value_ne := hne (by omega)
      key_valid := hvalid'
      value_valid := hvalid
      key_nul := hnul'
      value_nul := hnul
      lid_le := show 1 ≤ kPosMax by decide
      rid_le := show 2 ≤ kPosMax by decide
      cost_nonneg := le_refl 0
      cost_le := show 0 ≤ kCostMax by decide
      key_depth := le_trans hdepth' (show 3 * 2 ≤ kMaxDepth by decide)
      value_depth := le_trans hdepth (show 4 * 3 ≤ kMaxDepth by decide)
      attributes := Or.inl rfl }
  exact ⟨hkanji,
    { hkanji with
      value_ne := hkanji.key_ne
      value_valid := hvalid'
      value_nul := hnul'
      lid_le := show 3 ≤ kPosMax by decide
      value_depth := le_trans hdepth'' (show 4 * 2 ≤ kMaxDepth by decide) }⟩

theorem kanjiToken_spec {i : Nat} (hi : i < 2 ^ 24) :
    getValueType id (kanjiToken i) = .defaultValue ∧
      (tokenSize (kanjiToken i) ≤ 28 ∧ tokenSize (readingToken i) ≤ 28) ∧
      ∀ j < 2 ^ 24, ((kanjiToken i).key = (kanjiToken j).key → i = j) ∧
        ((kanjiToken i).value = (kanjiToken j).value → i = j) := by
  have hchars : ∀ j < 2 ^ 24, chars32 (kanjiToken j).key = kanjiKey j ∧
      chars32 (kanjiToken j).value = 0x4e01 :: kanjiKey j := fun j hj =>
    ⟨(kanji_spec (fun c hc => kanjiKey_bounds hj c (List.mem_cons_of_mem _ hc))).2.2.1,
      (kanji_spec (kanjiKey_bounds hj)).2.2.1⟩
  have hinj : ∀ j, kanjiKey i = kanjiKey j → i = j := by
    intro j heq
    simp only [kanjiKey, List.cons.injEq] at heq
    omega
  refine ⟨?_, ?_, fun j hj => ⟨fun heq => ?_, fun heq => ?_⟩⟩
  · have hne : (kanjiToken i).value ≠ (kanjiToken i).key := by
      intro heq
      have hlen := congrArg (fun s => (chars32 s).length) heq
      simp only [(hchars i hi).1, (hchars i hi).2] at hlen
      exact absurd hlen (by simp [kanjiKey])
    rw [getValueType, if_neg hne]
    exact if_neg hne
  · obtain ⟨-, -, -, -, hdepth⟩ := kanji_spec (kanjiKey_bounds hi)
    obtain ⟨-, -, -, hdepth', hdepth''⟩ :=
      kanji_spec (fun c hc => kanjiKey_bounds hi c (List.mem_cons_of_mem _ hc))
    change (encodeKey (kanjiToken i).key).length ≤ 6 at hdepth'
    change (encodeValue (kanjiToken i).value).length ≤ 12 at hdepth
    change (encodeValue (kanjiToken i).key).length ≤ 8 at hdepth''
    refine ⟨?_, ?_⟩
    · rw [tokenSize]
      omega
    · show 10 + (encodeKey (kanjiToken i).key).length + (encodeValue (kanjiToken i).key).length
        ≤ 28
      omega
  · refine hinj j ?_
    rw [← (hchars i hi).1, ← (hchars j hj).1, heq]
  · refine hinj j (List.cons.inj (?_ : 0x4e01 :: kanjiKey i = 0x4e01 :: kanjiKey j)).2
    rw [← (hchars i hi).2, ← (hchars j hj).2, heq]

theorem mem_kanjiTokens {n : Nat} {token : Token} :
    token ∈ kanjiTokens n ↔ ∃ i < n, token = readingToken i ∨ token = kanjiToken i := by
  rw [kanjiTokens, List.mem_flatMap]
  constructor
  · rintro ⟨i, hi, hmem⟩
    exact ⟨i, List.mem_range.mp hi, List.mem_pair.mp hmem⟩
  · rintro ⟨i, hi, hmem⟩
    exact ⟨i, List.mem_range.mpr hi, List.mem_pair.mpr hmem⟩

theorem acceptable_kanjiTokens {n : Nat} (hn : n ≤ 2 ^ 22) :
    ∀ token ∈ kanjiTokens n, Acceptable token := by
  intro token hmem
  obtain ⟨i, hi, rfl | rfl⟩ := mem_kanjiTokens.mp hmem
  · exact (acceptable_kanjiToken (by omega)).2
  · exact (acceptable_kanjiToken (by omega)).1

/-- The tokens of a key are its two. -/
theorem filter_kanjiTokens {n : Nat} (hn : n ≤ 2 ^ 22) {i : Nat} (hi : i < n) :
    (kanjiTokens n).filter (fun token => decide (token.key = (kanjiToken i).key))
      = [readingToken i, kanjiToken i] := by
  have hone : ∀ j < n, [readingToken j, kanjiToken j].filter
      (fun token => decide (token.key = (kanjiToken i).key))
        = if j = i then [readingToken i, kanjiToken i] else [] := by
    intro j hj
    by_cases heq : j = i
    · rw [if_pos heq, heq]
      exact List.filter_eq_self.mpr (fun token hmem => decide_eq_true (by
        rcases List.mem_pair.mp hmem with rfl | rfl <;> rfl))
    · rw [if_neg heq, List.filter_eq_nil_iff]
      intro token hmem hkey
      refine heq (((kanjiToken_spec (i := j) (by omega)).2.2 i (by omega)).1 ?_)
      rw [← of_decide_eq_true hkey]
      rcases List.mem_pair.mp hmem with rfl | rfl <;> rfl
  rw [kanjiTokens, List.filter_flatMap]
  have hcongr : (List.range n).flatMap (fun j => [readingToken j, kanjiToken j].filter
      (fun token => decide (token.key = (kanjiToken i).key)))
        = (List.range n).flatMap
            (fun j => if j = i then [readingToken i, kanjiToken i] else []) :=
    List.flatMap_congr (fun j hj => hone j (List.mem_range.mp hj))
  rw [hcongr]
  clear hcongr hone hn
  induction n with
  | zero => exact absurd hi (Nat.not_lt_zero i)
  | succ n ih =>
    rw [List.range_succ, List.flatMap_append, List.flatMap_singleton]
    by_cases heq : n = i
    · have hnone : (List.range n).flatMap
          (fun j => if j = i then [readingToken i, kanjiToken i] else []) = [] :=
        List.flatMap_eq_nil_iff.mpr (fun j hj => if_neg (by
          have := List.mem_range.mp hj
          omega))
      rw [hnone, if_pos heq, List.nil_append]
    · rw [if_neg heq, List.append_nil]
      exact ih (by omega)

theorem storedValuesOf_kanjiTokens {n : Nat} (hn : n ≤ 2 ^ 22) :
    storedValuesOf id (kanjiTokens n) = (List.range n).map (fun i => (kanjiToken i).value) := by
  rw [storedValuesOf, kanjiTokens, List.filter_flatMap, List.map_flatMap, List.map_eq_flatMap]
  refine List.flatMap_congr ?_
  intro i hi
  have hreading : ¬ decide (getValueType id (readingToken i) = .defaultValue) = true := by
    rw [getValueType_readingToken]
    decide
  have hkanji : decide (getValueType id (kanjiToken i) = .defaultValue) = true :=
    decide_eq_true (kanjiToken_spec (i := i) (by
      have := List.mem_range.mp hi
      omega)).1
  rw [List.filter_cons, if_neg hreading, List.filter_cons, if_pos hkanji]
  rfl

section

variable {n : Nat} (hn : n ≤ 2 ^ 22) {minKeyLen : Nat} {l : List KeyInfo}
  {b : SystemDictionaryBuilder}
  (hbuild : buildFromTokens id minKeyLen (kanjiTokens n) = some (l, b))
include hn hbuild

/-- **EVERY KEY** has its own token first and the stored one behind it. -/
theorem exists_tokens_eq_pair {keyInfo : KeyInfo} (hkey : keyInfo ∈ l) :
    ∃ i < n, ∃ first last, keyInfo.tokens = [first, last] ∧ first.token = readingToken i ∧
      last.token = kanjiToken i := by
  have hfew : (storedValuesOf id (kanjiTokens n)).dedup.length ≤ 2 ^ 22 := by
    refine le_trans (List.dedup_sublist _).length_le ?_
    rw [storedValuesOf_kanjiTokens hn, List.length_map, List.length_range]
    exact hn
  obtain ⟨keyInfoList, idOfValue, idOfKey, hparts, -, -, -, rfl, -⟩ :=
    buildParts_of_buildFromTokens (acceptable_kanjiTokens hn) hfew hbuild
  obtain ⟨k, hk, rfl⟩ := List.mem_map.mp hkey
  obtain ⟨token, htoken, heq⟩ := hparts.exists_token hk
  obtain ⟨i, hi, htoken⟩ := mem_kanjiTokens.mp htoken
  have hkeyEq : (kanjiToken i).key = k.key := by
    rcases htoken with rfl | rfl
    · exact heq
    · exact heq
  have hperm := hparts.read.perm_infosOf k.key
  rw [infosOf_of_mem hparts.read.keys_nodup hk, ← hkeyEq, filter_kanjiTokens hn hi] at hperm
  have hsorted := @tokens_sortTokenInfo (withIds idOfValue idOfKey k) _ _ (by
    show ((k.tokens.map _).map TokenInfo.token).Perm _
    rw [List.map_map]
    exact hperm) (show 1 < 3 by decide)
  rw [← tokens_passes] at hsorted
  obtain ⟨first, _, htokens, hfirst, hrest⟩ := List.map_eq_cons_iff.mp hsorted
  obtain ⟨last, rfl, hlast⟩ := List.map_eq_singleton_iff.mp hrest
  exact ⟨i, hi, first, last, htokens, hfirst, hlast⟩

variable {dict : SystemDictionary} {idOfValue : Bytes → Int} {byId : List KeyInfo}
  (h : Scanned id (kanjiTokens n) l dict idOfValue byId)
include h

/-- **A LARGE ID** ends the scan before its token is visited. -/
theorem lt_of_mem_visitedIn {keyInfo : KeyInfo} (hkey : keyInfo ∈ l) {info : TokenInfo}
    (hinfo : info ∈ visitedIn l keyInfo) (htype : info.valueType = .defaultValue) :
    info.idInValueTrie < 0x3f0000 := by
  obtain ⟨i, hi, first, last, htokens, hfirst, hlast⟩ := exists_tokens_eq_pair hn hbuild hkey
  have hmem := mem_of_mem_visitedIn hinfo
  have hchain := h.decodable keyInfo hkey
  -- the token of the key itself is not stored
  have hne : info ≠ first := by
    rintro rfl
    have hstored := ((h.valueTypes keyInfo hkey info hmem).1).mp (Or.inl htype)
    rw [hfirst, getValueType_readingToken] at hstored
    cases hstored
  rw [htokens] at hmem hchain
  obtain rfl := (List.mem_pair.mp hmem).resolve_left hne
  by_contra hlarge
  have hposes : ∀ token ∈ kanjiTokens n,
      token.pos ∈ [(kanjiToken 0).pos, (readingToken 0).pos] := by
    intro token hmem
    obtain ⟨j, -, rfl | rfl⟩ := mem_kanjiTokens.mp hmem
    · exact List.mem_pair.mpr (Or.inr rfl)
    · exact List.mem_pair.mpr (Or.inl rfl)
  have hposType : info.posType = .frequentPos := by
    have hdefault := posType_ne_defaultPos hbuild (acceptable_kanjiTokens hn) hposes (by decide)
      keyInfo hkey info (mem_of_mem_visitedIn hinfo)
      (hlast ▸ mem_kanjiTokens.mpr ⟨i, hi, Or.inr rfl⟩)
    cases hpos : info.posType with
    | defaultPos => exact absurd hpos hdefault
    | sameAsPrevPos =>
      obtain ⟨p, hp, hlid, -⟩ := hchain.2.1.samePos hpos
      rw [← Option.some.inj hp, hfirst, hlast] at hlid
      exact absurd hlid (show (3 : Nat) ≠ 1 by decide)
    | frequentPos => rfl
  have hspelling : isSpelling info = false := by
    rw [isSpelling, hlast]
    show decide (attributeNone &&& attributeSpellingCorrection ≠ 0) = false
    decide
  have hends : EndsScan keyInfo.tokens := by
    rw [htokens]
    exact ⟨info, rfl, hposType, htype, hspelling, not_lt.mp hlarge⟩
  rw [visitedIn] at hinfo
  split_ifs at hinfo
  · exact absurd hinfo List.not_mem_nil
  · rw [htokens] at hinfo
    exact hne (List.mem_singleton.mp hinfo)

omit hbuild in
theorem exists_large (hlarge : 0x3f0000 < n) : ∃ keyInfo ∈ l, ∃ info ∈ keyInfo.tokens,
    info.valueType = .defaultValue ∧ info.idInValueTrie = 0x3f0000 := by
  obtain ⟨added, _, hagree, hadded⟩ := h.values
  have hsubset : (List.range n).map (fun i => encodeValue (kanjiToken i).value) ⊆ added.dedup := by
    intro w hw
    obtain ⟨i, hi, rfl⟩ := List.mem_map.mp hw
    have hi' := List.mem_range.mp hi
    obtain ⟨info, hinfo, heq⟩ := List.mem_map.mp
      (h.infos.mem_iff.mpr (mem_kanjiTokens.mpr ⟨i, hi', Or.inr rfl⟩))
    obtain ⟨keyInfo, hkey, hinfo⟩ := List.mem_flatMap.mp hinfo
    refine List.mem_dedup.mpr ((hadded _).mpr ⟨keyInfo, hkey, info, hinfo, ?_, ?_⟩)
    · rw [heq]
      exact (kanjiToken_spec (by omega)).1
    · rw [heq]
  have hnodup : ((List.range n).map (fun i => encodeValue (kanjiToken i).value)).Nodup := by
    refine List.Nodup.map_on ?_ List.nodup_range
    intro i hi j hj heq
    have hi := List.mem_range.mp hi
    have hj := List.mem_range.mp hj
    have hvalue := encodeValue_injective (acceptable_kanjiToken (i := i) (by omega)).1.value_spelled
      (acceptable_kanjiToken (i := j) (by omega)).1.value_spelled heq
    exact ((kanjiToken_spec (i := i) (by omega)).2.2 j (by omega)).2 hvalue
  have hlen := (List.subperm_of_subset hnodup hsubset).length_le
  rw [List.length_map, List.length_range] at hlen
  obtain ⟨w, hw, hid⟩ := hagree.bijOn.surjOn
    (show (0x3f0000 : Int) ∈ Set.Ico 0 (added.dedup.length : Int) from ⟨by decide, by omega⟩)
  obtain ⟨keyInfo, hkey, info, hinfo, htype, rfl⟩ := (hadded w).mp hw
  obtain ⟨first, hfirst, hdefault, hvalue⟩ := h.first keyInfo hkey info hinfo htype
  refine ⟨keyInfo, hkey, first, hfirst, hdefault, ?_⟩
  rw [(h.valueTypes keyInfo hkey first hfirst).2 hdefault, hvalue]
  exact hid

end

/-- **A DICTIONARY WITH 0x3f0001 VALUES**, each behind another token of its key, builds and
    opens, and for one of its values the index does not report what the scan does. -/
theorem lookupReverse_disagrees : ∃ tokens : List Token, (∀ token ∈ tokens, Acceptable token) ∧
    (storedValuesOf id tokens).dedup.length ≤ 2 ^ 22 ∧ storedValuesOf id tokens ≠ [] ∧
    ∃ built b dict, buildFromTokens id 0 tokens = some (built, b) ∧
      openDictionaryFile b = some dict ∧
      ∃ token ∈ tokens, ∀ fuel, tokens.length < fuel →
        ¬ PathsAgree id id dict fuel token.value := by
  obtain ⟨n, hn⟩ : ∃ n, n = 0x3f0001 := ⟨_, rfl⟩
  have hle : n ≤ 2 ^ 22 := by omega
  have hacceptable := acceptable_kanjiTokens hle
  have hstored := storedValuesOf_kanjiTokens hle
  have hfew : (storedValuesOf id (kanjiTokens n)).dedup.length ≤ 2 ^ 22 := by
    refine le_trans (List.dedup_sublist _).length_le ?_
    rw [hstored, List.length_map, List.length_range]
    exact hle
  have hsize : totalSize (kanjiTokens n) < 2 ^ 28 := by
    have hsum : totalSize (kanjiTokens n) ≤ ((kanjiTokens n).map tokenSize).length • 28 := by
      refine List.sum_le_card_nsmul _ _ ?_
      intro size hmem
      obtain ⟨token, htoken, rfl⟩ := List.mem_map.mp hmem
      obtain ⟨i, hi, rfl | rfl⟩ := mem_kanjiTokens.mp htoken
      · exact (kanjiToken_spec (i := i) (by omega)).2.1.2
      · exact (kanjiToken_spec (i := i) (by omega)).2.1.1
    have hlength : (kanjiTokens n).length = 2 * n := by
      rw [kanjiTokens, List.length_flatMap]
      show ((List.range n).map (fun _ => 2)).sum = 2 * n
      rw [List.map_const', List.sum_replicate, List.length_range, smul_eq_mul, Nat.mul_comm]
    rw [List.length_map, hlength, smul_eq_mul] at hsum
    omega
  have hpasses : PassesCheck id (kanjiTokens n) := by
    intro _ _ _ _ _ _ token hmem hfails
    obtain ⟨i, hi, htoken⟩ := mem_kanjiTokens.mp hmem
    have hkey : token.key = (kanjiToken i).key := by rcases htoken with rfl | rfl <;> rfl
    have halone := congrArg List.length hfails.alone
    rw [hkey, filter_kanjiTokens hle hi] at halone
    exact absurd halone (show 2 ≠ 1 by decide)
  obtain ⟨⟨built, b⟩, hbuild⟩ := Option.isSome_iff_exists.mp
    (buildFromTokens_isSome 0 hacceptable hfew (lt_trans hsize (by decide)) hpasses)
  obtain ⟨dict, hopen⟩ :=
    Option.isSome_iff_exists.mp (isSome_openDictionaryFile hacceptable hfew hsize hbuild)
  obtain ⟨idOfValue, byId, hscanned⟩ := scanned_of_build hacceptable hfew hbuild hopen
  obtain ⟨keyInfo, hkey, info, hinfo, htype, hid⟩ := exists_large hle hscanned (by omega)
  have htoken : info.token ∈ kanjiTokens n :=
    hscanned.infos.mem_iff.mp (List.mem_map_of_mem (List.mem_flatMap.mpr ⟨keyInfo, hkey, hinfo⟩))
  refine ⟨kanjiTokens n, hacceptable, hfew, ?_, built, b, dict, hbuild, hopen, info.token, htoken,
    ?_⟩
  · rw [hstored]
    exact List.ne_nil_of_mem (List.mem_map_of_mem (List.mem_range.mpr (show 0 < n by omega)))
  · intro fuel hfuel hagree
    obtain ⟨k, hk, i, hi, hdefault, hle'⟩ := ((pathsAgree_iff hscanned hfuel id
      info.token.value).mp hagree).reaches keyInfo hkey info hinfo htype (List.prefix_refl _)
    have hlt := lt_of_mem_visitedIn hle hbuild hscanned hk hi hdefault
    omega

end MozkeyDictionary
