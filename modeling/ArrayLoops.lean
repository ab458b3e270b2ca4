import ArrayLoops.CommandLine.Command
import ArrayLoops.Equivalence
import ArrayLoops.Fixture.Folder
import ArrayLoops.LogFormat
import ArrayLoops.Main
import ArrayLoops.Token.Cursor
import ArrayLoops.Token.Scanner
import ArrayLoops.Proofs.ParsedTree
import ArrayLoops.Proofs.Steps
import ArrayLoops.Proofs.EvaluatedOnce
import ArrayLoops.Proofs.SafePlaces
import ArrayLoops.Proofs.Application
import ArrayLoops.Proofs.LoweredTree
import ArrayLoops.Proofs.LoopCode
import ArrayLoops.Proofs.PassRun
import ArrayLoops.Proofs.PassRecords
import ArrayLoops.Proofs.PassTree
import ArrayLoops.Proofs.Occurrences
import ArrayLoops.Proofs.Hygiene
import ArrayLoops.Proofs.ParsedPhrases
import ArrayLoops.Proofs.Openings
import ArrayLoops.Proofs.Rereading
import ArrayLoops.Proofs.PassChanges
import ArrayLoops.Proofs.ShownOnce
import ArrayLoops.Proofs.OneTree
import ArrayLoops.Proofs.Written
import ArrayLoops.Proofs.Documents
import ArrayLoops.Proofs.Printed
import ArrayLoops.Proofs.GeneratedCode
import ArrayLoops.Proofs.AppliedText
import ArrayLoops.Proofs.AppliedPhrases
import ArrayLoops.Proofs.LoweredText
import ArrayLoops.Proofs.Restored
import ArrayLoops.Proofs.Ranges
import ArrayLoops.Proofs.ParsedFiles
import ArrayLoops.Proofs.ReadAgain
import ArrayLoops.Proofs.SecondPass
import ArrayLoops.Proofs.Tiling
import ArrayLoops.Proofs.Precedence
import ArrayLoops.Proofs.Places
import ArrayLoops.Proofs.LoopOrder
import ArrayLoops.Proofs.Snapshots
import ArrayLoops.Proofs.SpelledText
import ArrayLoops.Proofs.NameScopes
import ArrayLoops.Proofs.FilledTemplates
import ArrayLoops.Proofs.FirstDifference
import ArrayLoops.Proofs.LinePositions
import ArrayLoops.Proofs.NestingLimit
import ArrayLoops.Proofs.ArrowLookAhead
import ArrayLoops.Proofs.Reports
import ArrayLoops.Proofs.Hoisting
import ArrayLoops.Proofs.ArrayKeys
import ArrayLoops.Proofs.KeptOutputs
import ArrayLoops.Proofs.LoopMethod
import ArrayLoops.Proofs.RunsEnd
