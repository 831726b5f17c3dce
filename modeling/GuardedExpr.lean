import GuardedExpr.Main
import GuardedExpr.Token.Balance
import GuardedExpr.Token.Highlight
import GuardedExpr.Proofs.Contract
import GuardedExpr.Proofs.NodeContract
import GuardedExpr.Proofs.Gate
import GuardedExpr.Proofs.Nesting
import GuardedExpr.Proofs.NestingBound
import GuardedExpr.Proofs.Scanning
import GuardedExpr.Proofs.Placement
import GuardedExpr.Proofs.Reading
import GuardedExpr.Proofs.Precedence
import GuardedExpr.Proofs.NestingLimit
import GuardedExpr.Proofs.Composition
import GuardedExpr.Proofs.CutOff
import GuardedExpr.Proofs.HostProtocol
import GuardedExpr.Proofs.LineBreak
import GuardedExpr.Proofs.Lines
import GuardedExpr.Proofs.LineByLine
import GuardedExpr.Proofs.BalancedReading
import GuardedExpr.Proofs.Buffer
import GuardedExpr.Proofs.SkippedOperands
import GuardedExpr.Proofs.Rescanning
import GuardedExpr.Proofs.ReadingBack
import GuardedExpr.Proofs.Spelling
import GuardedExpr.Proofs.Numerals
import GuardedExpr.Proofs.IntegerTexts
import GuardedExpr.Proofs.PrintedValues
import GuardedExpr.Proofs.Literals
import GuardedExpr.Proofs.Lexed
import GuardedExpr.Proofs.Legible
import GuardedExpr.Proofs.Building
import GuardedExpr.Proofs.Rendering
import GuardedExpr.Proofs.Outline
import GuardedExpr.Proofs.OutlineReader
import GuardedExpr.Proofs.OutlineReading
import GuardedExpr.Proofs.Separators
import GuardedExpr.Proofs.IntegerLiterals
import GuardedExpr.Proofs.Keeping
import GuardedExpr.Proofs.ErrorPlaces
import GuardedExpr.Proofs.UnreadableNumbers
import GuardedExpr.Proofs.StringReading
import GuardedExpr.Proofs.BracedReading
import GuardedExpr.Proofs.EscapeGrammar
import GuardedExpr.Proofs.IntegerArithmetic
import GuardedExpr.Proofs.IntegerPowers
import GuardedExpr.Proofs.NumberOrder
import GuardedExpr.Proofs.Tables
import GuardedExpr.Proofs.StringDecoding
import GuardedExpr.Proofs.ComputedNames
import GuardedExpr.Proofs.BareNames
import GuardedExpr.Proofs.LooseEquality
import GuardedExpr.Proofs.LooseOrder
import GuardedExpr.Proofs.DistinctKeys
import GuardedExpr.Proofs.NumericGrammar
import GuardedExpr.Proofs.NumericStrings
import GuardedExpr.Proofs.Keys
import GuardedExpr.Proofs.OrderedTables
import GuardedExpr.Proofs.LineIndexes
import GuardedExpr.Proofs.Substrings
import GuardedExpr.Proofs.Highlighting
import GuardedExpr.Proofs.Splitting
import GuardedExpr.Proofs.ResultSizes
import GuardedExpr.Proofs.Extremes
import GuardedExpr.Proofs.Operators
import GuardedExpr.Proofs.Counting
import GuardedExpr.Proofs.Tracking
import GuardedExpr.Proofs.Progress
