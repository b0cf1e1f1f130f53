import YaraAhoCorasick.Tokens
import YaraAhoCorasick.TokenBuffer
import YaraAhoCorasick.Automaton
import YaraAhoCorasick.AddString
import YaraAhoCorasick.FailureLinks
import YaraAhoCorasick.Trie
import YaraAhoCorasick.MatchList
import YaraAhoCorasick.Insertions
import YaraAhoCorasick.OwnRecords
import YaraAhoCorasick.Levels
import YaraAhoCorasick.FailureInvariant
import YaraAhoCorasick.FailureSteps
import YaraAhoCorasick.FailureRun
import YaraAhoCorasick.SiblingLinks
import YaraAhoCorasick.TokenMatching
import YaraAhoCorasick.HexWindow
import YaraAhoCorasick.CaseCombinations
import YaraAhoCorasick.LinkedQueue
import YaraAhoCorasick.BfsOrder
import YaraAhoCorasick.FailedAdd
import YaraAhoCorasick.FailureTargets
import YaraAhoCorasick.HexSoundness
import YaraAhoCorasick.HexBounds
import YaraAhoCorasick.TextTokens
import YaraAhoCorasick.RegexTokens
import YaraAhoCorasick.Occurrences
import YaraAhoCorasick.FailureQueue
import YaraAhoCorasick.FailureReports
