import Mozkey.SortedMapProofs
import Mozkey.ByteStringProofs
import Mozkey.FeedbackRecordProofs
import Mozkey.FeedbackDecisionProofs
import Mozkey.LruRunProofs
import Mozkey.AdoptionTerminationProofs
import Mozkey.AdoptionPreservationProofs
import Mozkey.LruImageProofs
import Mozkey.SuccinctIndexProofs
import Mozkey.DictionaryEndToEndProofs
import Mozkey.DictionaryFileProofs
import Mozkey.DictionaryInterfaceProofs
import Mozkey.TokenScanProofs
import Mozkey.ZenzValidatorProofs
import Mozkey.PredictionViterbiProofs
import Mozkey.ReverseLookupTokensProofs
import Mozkey.SegmenterTableProofs
import Mozkey.UserHistoryStorageProofs
import Mozkey.UserHistoryCrashProofs
import Mozkey.SessionHandlerProofs
import Mozkey.SessionIsolationProofs
import Mozkey.UserDictionaryImportProofs
import Mozkey.OptionListProofs
import Mozkey.WordArrayProofs
import Mozkey.ZenzAnswerProofs
import Mozkey.EngineRangeProofs
import Mozkey.DataSetProofs
import Mozkey.LruExactProofs
import Mozkey.PredictiveNodesProofs
import Mozkey.TypingProofs
import Mozkey.JsonFieldProofs
import Mozkey.SymbolStyleProofs
import Mozkey.ZenzContextProofs
import Mozkey.ContextualRerankerProofs
import Mozkey.ExistenceFilterProofs
import Mozkey.LruStructureProofs
import Mozkey.ChunkIndexProofs
import Mozkey.ArrayBuilderProofs
import Mozkey.InnerSegmentProofs
import Mozkey.SegmentsResizeProofs
import Mozkey.ConvertPositionProofs
import Mozkey.KeyEventProofs
import Mozkey.SubstringProofs
import Mathlib
import Mozkey.PendingTextProofs
import Mozkey.DeleteAtProofs
import Mozkey.ViterbiPathProofs
import Mozkey.CsvProofs
import Mozkey.CharSlicesProofs
import Mozkey.Utf8ExtendedProofs
import Mozkey.SpellingDistanceProofs
import Mozkey.BoundaryHistoryProofs
import Mozkey.FeedbackCandidateProofs
import Mozkey.TrieMapProofs
import Mathlib.Tactic
import Mozkey.KanjiNumberProofs
import Mozkey.ReverseLearningProofs
import Mozkey.ZenzCandidatesProofs
import Mozkey.SessionUndoProofs
import Mozkey.CommandSequenceProofs
import Mozkey.UndoLogProofs
import Mozkey.UserHistoryLearningProofs
import Mozkey.UserHistoryRevertProofs
import Mozkey.ProtectedSpansProofs
import Mozkey.LruDeleteProofs
import Mozkey.SegmentHistoryForgettingProofs
import Mozkey.SegmentHistoryLearningProofs
import Mozkey.SegmentHistoryRevertProofs
import Mozkey.SegmentHistorySortProofs
import Mozkey.StringArrayProofs
import Mozkey.RomanFuzzyProofs
import Mozkey.FunctionalReachabilityProofs
import Mozkey.TextPrivacyProofs
import Mozkey.Aes256Proofs
import Mozkey.EncryptorProofs
import Mozkey.FlatConcurrentCacheProofs
import Mozkey.CharacterFormProofs
import Mozkey.UserHistoryLoopsProofs
