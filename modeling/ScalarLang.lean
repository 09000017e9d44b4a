import ScalarLang.Main
import ScalarLang.Probe
import ScalarLang.Proofs.Binary.Exact
import ScalarLang.Proofs.Engine.Likeness
import ScalarLang.Proofs.Engine.Loading
import ScalarLang.Proofs.Engine.Residency
import ScalarLang.Proofs.Ir.Building
import ScalarLang.Proofs.Ir.Dominance
import ScalarLang.Proofs.Ir.Execution
import ScalarLang.Proofs.Ir.Machine
import ScalarLang.Proofs.Ir.Representation
import ScalarLang.Proofs.Ir.Twin
import ScalarLang.Proofs.Ir.WellBuilt
import ScalarLang.Proofs.Lower.Checking
import ScalarLang.Proofs.Lower.Conditional
import ScalarLang.Proofs.Lower.Expression
import ScalarLang.Proofs.Lower.Forms
import ScalarLang.Proofs.Lower.Function
import ScalarLang.Proofs.Lower.Interchange
import ScalarLang.Proofs.Lower.Linking
import ScalarLang.Proofs.Lower.Operation
import ScalarLang.Proofs.Lower.Ranking
import ScalarLang.Proofs.Lower.Simulation
import ScalarLang.Proofs.Lower.SlotOrder
import ScalarLang.Proofs.Lower.Tables
import ScalarLang.Proofs.Lower.Tagging
import ScalarLang.Proofs.Parse.Literals
import ScalarLang.Proofs.Parse.Words
import ScalarLang.Proofs.Scalar.Table
import ScalarLang.Proofs.Session.Bookkeeping
import ScalarLang.Proofs.Session.Halting
import ScalarLang.Proofs.Session.History
import ScalarLang.Proofs.Session.Linking
import ScalarLang.Proofs.Session.Lowering
import ScalarLang.Proofs.Session.Meaning
import ScalarLang.Proofs.Session.Names
import ScalarLang.Proofs.Session.Noninterference
import ScalarLang.Proofs.Session.Representation
import ScalarLang.Proofs.Session.Residue
import ScalarLang.Proofs.Session.Running
import ScalarLang.Proofs.Session.Splitting
import ScalarLang.Proofs.Session.Switching
import ScalarLang.Proofs.Lower.Numbering
import ScalarLang.Proofs.Session.SharedTypes
import ScalarLang.Proofs.Parse.Derivations
import ScalarLang.Proofs.Parse.Printer
import ScalarLang.Proofs.Parse.RoundTrip
import ScalarLang.Proofs.Token.Lossless
import ScalarLang.Proofs.Token.Proper
import ScalarLang.Proofs.Token.LongestMatch
import ScalarLang.Proofs.Token.Joining
import ScalarLang.Proofs.Parse.Joining
import ScalarLang.Proofs.Parse.Contents
import ScalarLang.Proofs.Parse.Recovery
import ScalarLang.Proofs.Binary.Interval
import ScalarLang.Proofs.Decimal.Shortest
import ScalarLang.Proofs.Decimal.Numeral
import ScalarLang.Proofs.Session.Fresh
import ScalarLang.Proofs.Session.ReadBack
import ScalarLang.Proofs.Session.Diagnostics
import ScalarLang.Proofs.Parse.Agreement
import ScalarLang.Proofs.Lower.Division
import ScalarLang.Proofs.Parse.Placement
import ScalarLang.Proofs.Parse.Refusal
import ScalarLang.Proofs.Session.Integers
import ScalarLang.Proofs.Session.Halves
import ScalarLang.Proofs.Session.Caret
import ScalarLang.Proofs.Source.Location
import ScalarLang.Proofs.Scalar.Requests
import ScalarLang.Proofs.Checkpoints
import ScalarLang.Proofs.Command.Completeness
