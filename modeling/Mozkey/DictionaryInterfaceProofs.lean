import Mozkey.KeyExpansionProofs
import Mozkey.ReverseLookupTokensProofs

/-! # SystemDictionary — the keys, the values and the prefixes of a key

    What the dictionary interface answers about a dictionary that was built from tokens.
    Values that can be told from their key are not in the value trie, so `HasValue` looks for
    them among the tokens of the value in hiragana. -/

namespace MozkeyDictionary

open ByteString MozkeyUtil MozkeyLouds

/-! ## The prefixes of a key -/

section

variable {σ : Type} (hiraganaToKatakana : Bytes → Bytes) (dict : SystemDictionary)
  (callback : Callback σ)

end

section

variable {hiraganaToKatakana : Bytes → Bytes} {tokens : List Token} {l : List KeyInfo}
  {dict : SystemDictionary} {idOfValue : Bytes → Int} {byId : List KeyInfo}
  (h : Scanned hiraganaToKatakana tokens l dict idOfValue byId)
include h

end

/-- `LoudsTrie::HasKey`. -/
def LoudsTrie.hasKey (trie : LoudsTrie) (key : Bytes) : Bool :=
  match trie.traverse key {} with
  | none => false
  | some node => trie.isTerminalNode node

section

variable (hiraganaToKatakana katakanaToHiragana : Bytes → Bytes) (dict : SystemDictionary)

/-- `SystemDictionary::HasKey`. -/
def hasKey (key : Bytes) : Bool := LoudsTrie.hasKey dict.keyTrie (encodeKey key)

end

section

variable {hiraganaToKatakana : Bytes → Bytes} {tokens : List Token} {l : List KeyInfo}
  {dict : SystemDictionary} {idOfValue : Bytes → Int} {byId : List KeyInfo}
  (h : Scanned hiraganaToKatakana tokens l dict idOfValue byId)
include h

end

end MozkeyDictionary
