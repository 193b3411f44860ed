import Mozkey.ConvertPositionProofs
import Mozkey.EngineConverterProofs
import Mozkey.TypingProofs

/-! # KeyEvent — one key of the client

    A key event may bring a key code, a key string, a special key, modifiers and a mode.  The
    composer checks the timeout, sets the mode, looks for SHIFT among the modifiers of an event
    without a key code, and inserts what the event stands for.  The loop over the modifiers is
    bounded by whether there are any, not by how many. -/

namespace MozkeyComposer

open ByteString MozkeyUtil
open MozkeyEngine (TransliterationType)

/-! ## The messages -/

/-- `Config::ShiftKeyModeSwitch`. -/
inductive ShiftKeyModeSwitch where
  | off | asciiInputMode | katakanaInputMode
  deriving DecidableEq

/-- `Config::PreeditMethod`. -/
inductive PreeditMethod where
  | roman | kana
  deriving DecidableEq

/-- What a composer is given: the parts of its configuration, its table, and what it calls. -/
structure ComposerEnv where
  japanese : JapaneseUtil
  table : Table
  shiftKeyModeSwitch : ShiftKeyModeSwitch
  autoSwitchCompositionMode : Bool
  preeditMethod : PreeditMethod
  /-- `KeyParser::GetSpecialKeyString`. -/
  getSpecialKeyString : Nat → Bytes
  /-- `Clock::GetAbslTime`, in milliseconds. -/
  now : Int

/-! ## The composer -/

/-- `Composer`, as far as keys change it. -/
structure Composer where
  position : Nat
  inputMode : TransliterationType
  outputMode : TransliterationType
  comebackInputMode : TransliterationType
  shiftedSequenceCount : Nat
  isInShiftedAsciiRevertContext : Bool
  maxLength : Nat
  timeoutThresholdMsec : Int
  timestampMsec : Int
  composition : Composition
  isNewInput : Bool

/-- `GetTransliterator`. -/
def getTransliterator : TransliterationType → Transliterator
  | .halfAscii | .halfAsciiUpper | .halfAsciiLower | .halfAsciiCapitalized => .halfAscii
  | .fullAscii | .fullAsciiUpper | .fullAsciiLower | .fullAsciiCapitalized => .fullAscii
  | .halfKatakana => .halfKatakana
  | .fullKatakana => .fullKatakana
  | .hiragana => .hiragana

namespace Composer

/-- `Composer::SetInputMode`. -/
def setInputMode (s : Composer) (mode : TransliterationType) : Composer :=
  { s with
    comebackInputMode := mode
    inputMode := mode
    shiftedSequenceCount := 0
    isInShiftedAsciiRevertContext := false
    isNewInput := true
    composition := { s.composition with inputT12r := getTransliterator mode } }

/-- `Composer::EnableInsert`. -/
def enableInsert (j : JapaneseUtil) (s : Composer) : Bool :=
  s.composition.getLength j < s.maxLength

end Composer

/-! ## Switching modes -/

namespace Composer

end Composer

namespace Composer

end Composer

variable {env : ComposerEnv} {s : Composer} {key : KeyEvent}

/-! ## The modifiers -/

/-- The input is not inserted, or the composition is ready for it. -/
def Composer.Ready (env : ComposerEnv) (s : Composer) (input : CompositionInput) : Prop :=
  s.enableInsert env.japanese = true →
    s.composition.Ready env.japanese env.table s.position input

/-- A composer as it is built, with an empty table. -/
def Composer.initial : Composer where
  position := 0
  inputMode := .hiragana
  outputMode := .hiragana
  comebackInputMode := .hiragana
  shiftedSequenceCount := 0
  isInShiftedAsciiRevertContext := false
  maxLength := 256
  timeoutThresholdMsec := 0
  timestampMsec := 0
  composition := ⟨[], .hiragana⟩
  isNewInput := true

/-- An environment without rules. -/
def ComposerEnv.plain : ComposerEnv where
  japanese := plainJapanese
  table := .new
  shiftKeyModeSwitch := .asciiInputMode
  autoSwitchCompositionMode := true
  preeditMethod := .roman
  getSpecialKeyString _ := []
  now := 0

/-- The table of one rule, and a composer that has got its first letter. -/
def ComposerEnv.ka : ComposerEnv :=
  { ComposerEnv.plain with table := kaTable }

end MozkeyComposer
