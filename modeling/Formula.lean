import Formula.Text.Characters
import Formula.Text.Source
import Formula.Number.Double
import Formula.Number.Decimal
import Formula.Number.Written
import Formula.Number.Numeral
import Formula.Token
import Formula.Token.Scan
import Formula.Token.Cursor
import Formula.Operator
import Formula.Node
import Formula.Node.Printer
import Formula.Grammar
import Formula.Node.Reader
import Formula.SyntaxError
import Formula.Node.Code
import Formula.Context
import Formula.Context.Cascade
import Formula.Context.Standard
import Formula.Context.Bindings
import Formula.Context.Interface
import Formula.Context.Layer
import Formula.Evaluation
import Formula.Command.Log
import Formula.Command
import Formula.Command.Arguments
import Formula.Main
import Formula.Proofs.Grammar
import Formula.Proofs.Descent
import Formula.Proofs.Reading
import Formula.Proofs.Track
import Formula.Proofs.Viable
import Formula.Proofs.Brackets
import Formula.Proofs.TrackState
import Formula.Proofs.Offsets
import Formula.Proofs.Diagnosis
import Formula.Proofs.ErrorPlace
import Formula.Proofs.Doubles
import Formula.Proofs.Nearest
import Formula.Proofs.Numerals
import Formula.Proofs.Borders
import Formula.Proofs.Printing
import Formula.Proofs.Postorder
import Formula.Proofs.Simulation
import Formula.Proofs.Record
import Formula.Proofs.Machine
import Formula.Proofs.Signs
import Formula.Proofs.Meaning
import Formula.Proofs.Leaves
import Formula.Proofs.Tiling
import Formula.Proofs.ByteCursor
import Formula.Proofs.Predictable
import Formula.Proofs.Known
import Formula.Proofs.Lookup
import Formula.Proofs.History
import Formula.Proofs.Replay
import Formula.Proofs.Blame
import Formula.Proofs.Hosts
import Formula.Proofs.Shadowing
import Formula.Proofs.Substitution
import Formula.Proofs.Relexing
import Formula.Proofs.Splicing
import Formula.Proofs.Correspondence
import Formula.Proofs.Respacing
import Formula.Proofs.Environment
import Formula.Proofs.LongestMatch
import Formula.Proofs.Written
import Formula.Proofs.Outcomes
import Formula.Proofs.Calls
import Formula.Proofs.Lexicon
import Formula.Proofs.Marks
import Formula.Proofs.Templates
import Formula.Proofs.Constants
import Formula.Proofs.Displays
import Formula.Proofs.Listing
import Formula.Proofs.Snapshots
import Formula.Proofs.Readable
import Formula.Proofs.Feedback
import Formula.Proofs.Joining
import Formula.Proofs.DoubleOrder
import Formula.Proofs.Clamping
import Formula.Proofs.Greedy
import Formula.Proofs.Walk
import Formula.Proofs.Consumption
