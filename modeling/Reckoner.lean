import Reckoner.Formula.Grouping
import Reckoner.Main
import Reckoner.Session
import Reckoner.Proofs.AcceptedLanguage
import Reckoner.Proofs.LookedUpNames
import Reckoner.Proofs.RemainingFailures
import Reckoner.Proofs.CacheTransparency
import Reckoner.Proofs.RequestDiscipline
import Reckoner.Proofs.EndToEnd
import Reckoner.Proofs.WaysOfSupply
import Reckoner.Proofs.BlankInvariance
import Reckoner.Proofs.OwnNames
import Reckoner.Proofs.TextualSubstitution
import Reckoner.Proofs.FirstDefect
import Reckoner.Proofs.EarliestError
import Reckoner.Proofs.NestingLimit
import Reckoner.Proofs.PrintedTrees
import Reckoner.Proofs.GluedOperands
import Reckoner.Proofs.NoSpecialNames
import Reckoner.Proofs.Reevaluation
import Reckoner.Proofs.MissingValues
import Reckoner.Proofs.ConsoleDialogue
import Reckoner.Proofs.LetterRuns
import Reckoner.Proofs.Formula.CursorDescent
import Reckoner.Proofs.LongestPrefix
import Reckoner.Proofs.Validity.Rules
import Reckoner.Proofs.Decimal.ReadBack
import Reckoner.Proofs.TableHistories
