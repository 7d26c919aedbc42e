import Reckon.Text.CharSet
import Reckon.Text.Digit
import Reckon.Text.WordChar
import Reckon.Text.Casing
import Reckon.Text.Blank
import Reckon.Text.LowerCase
import Reckon.Pattern.Basic
import Reckon.Pattern.Replacement
import Reckon.Wording
import Reckon.Number.Dyadic
import Reckon.Number.Numeral
import Reckon.Number.Display
import Reckon.Number.Round
import Reckon.Number.Power
import Reckon.Number.CubeRoot
import Reckon.Formula.Token
import Reckon.Formula.Scan
import Reckon.Formula.Postfix
import Reckon.Formula.Value
import Reckon.Error
import Reckon.Formula.Evaluate
import Reckon.Text.Split
import Reckon.Conversion.Query
import Reckon.Conversion.MeasureUnit
import Reckon.Conversion.Rule
import Reckon.Conversion.Temperature
import Reckon.Calendar.Date
import Reckon.Calendar.Moment
import Reckon.DatePhrase.Vocabulary
import Reckon.DatePhrase.Query
import Reckon.DatePhrase.Resolve
import Reckon.Interpreter
import Reckon.Json.Basic
import Reckon.Json.Reader
import Reckon.Command.Settings
import Reckon.Command.Arguments
import Reckon.Command.Timestamp
import Reckon.Command.Run
import Reckon.Main
import Reckon.Proofs.Expression
import Reckon.Proofs.Grammar
import Reckon.Proofs.Climbing
import Reckon.Proofs.Acceptance
import Reckon.Proofs.Brackets
import Reckon.Proofs.Postorder
import Reckon.Proofs.SignedProduct
import Reckon.Proofs.Words
import Reckon.Proofs.Search
import Reckon.Proofs.Weight
import Reckon.Proofs.Spelling
import Reckon.Proofs.Lexicon
import Reckon.Proofs.PowerForms
import Reckon.Proofs.FormulaSearch
import Reckon.Proofs.PowerPass
import Reckon.Proofs.Regrouping
import Reckon.Proofs.NormalForm
import Reckon.Proofs.PowerChain
import Reckon.Proofs.Legible
import Reckon.Proofs.Lowered
import Reckon.Proofs.FixedPoint
import Reckon.Proofs.Mark
import Reckon.Proofs.ConversionMark
import Reckon.Proofs.Vocabulary
import Reckon.Proofs.ConversionReading
import Reckon.Proofs.DateMark
import Reckon.Proofs.Resolvers
import Reckon.Proofs.SameWords
import Reckon.Proofs.PlainFormula
import Reckon.Proofs.PhraseShapes
import Reckon.Proofs.ShiftReading
import Reckon.Proofs.DoubleBits
import Reckon.Proofs.NonFinite
import Reckon.Proofs.Nearest
import Reckon.Proofs.NearestRoot
import Reckon.Proofs.DisplayText
import Reckon.Proofs.DisplayRoundTrip
import Reckon.Proofs.RuleChain
import Reckon.Proofs.DayNumber
import Reckon.Proofs.CivilTime
import Reckon.Proofs.MonthDay
import Reckon.Proofs.OrdinalWeekday
import Reckon.Proofs.DayShift
import Reckon.Proofs.NamedWeekday
import Reckon.Proofs.MonthShift
import Reckon.Proofs.CommandLine
import Reckon.Proofs.TimestampText
import Reckon.Proofs.NamedInstant
import Reckon.Proofs.DoubleOrder
import Reckon.Proofs.DoubleProduct
import Reckon.Proofs.PrintedDecimal
import Reckon.Proofs.RoundedPlaces
import Reckon.Proofs.AlternateChoice
import Reckon.Proofs.TakenText
import Reckon.Proofs.Reflection
import Reckon.Proofs.DigitRuns
import Reckon.Proofs.WordEnds
import Reckon.Proofs.KeptRuns
import Reckon.Proofs.JoinedRuns
import Reckon.Proofs.LongForm
import Reckon.Proofs.LiteralDate
import Reckon.Proofs.Passes
import Reckon.Proofs.Cut
import Reckon.Proofs.BlankEnds
import Reckon.Proofs.Surroundings
import Reckon.Proofs.StandAlone
import Reckon.Proofs.SpacedSign
import Reckon.Proofs.OperatorWords
import Reckon.Proofs.Crosses
