import Lox.Bindings
import Lox.CommandLine
import Lox.Description
import Lox.Diagnostic
import Lox.Heap
import Lox.Host.Basic
import Lox.Host.FileSystem
import Lox.Machine.Basic
import Lox.Machine.Builtins
import Lox.Machine.Evaluation
import Lox.Machine.Operators
import Lox.Main
import Lox.Number.Basic
import Lox.Number.Rounding
import Lox.Number.Shortest
import Lox.Number.Text
import Lox.Parser.Basic
import Lox.Parser.Expression
import Lox.Parser.Statement
import Lox.Proofs.Bindings
import Lox.Proofs.Computation
import Lox.Proofs.Grammar.Basic
import Lox.Proofs.Grammar.Contained
import Lox.Proofs.Grammar.Kept
import Lox.Proofs.Grammar.Lemmas
import Lox.Proofs.Grammar.Levels
import Lox.Proofs.Grammar.Nearest
import Lox.Proofs.Grammar.Orderly
import Lox.Proofs.Grammar.Rules
import Lox.Proofs.Heap.Likeness
import Lox.Proofs.Machine.Access
import Lox.Proofs.Machine.Agreement
import Lox.Proofs.Machine.Census
import Lox.Proofs.Machine.Conduct
import Lox.Proofs.Machine.Construction
import Lox.Proofs.Machine.Containment
import Lox.Proofs.Machine.Course
import Lox.Proofs.Machine.Demands
import Lox.Proofs.Machine.Diary
import Lox.Proofs.Machine.Discipline
import Lox.Proofs.Machine.Fields
import Lox.Proofs.Machine.ForLoop
import Lox.Proofs.Machine.Frame
import Lox.Proofs.Machine.Fuel
import Lox.Proofs.Machine.Grounding
import Lox.Proofs.Machine.Guard
import Lox.Proofs.Machine.Homes
import Lox.Proofs.Machine.Host
import Lox.Proofs.Machine.Housing
import Lox.Proofs.Machine.Lexical
import Lox.Proofs.Machine.Likeness
import Lox.Proofs.Machine.Mirror
import Lox.Proofs.Machine.Operators
import Lox.Proofs.Machine.Oversight
import Lox.Proofs.Machine.Pedigree
import Lox.Proofs.Machine.Receivers
import Lox.Proofs.Machine.Recording
import Lox.Proofs.Machine.Rounds
import Lox.Proofs.Machine.Simulation
import Lox.Proofs.Machine.Steady
import Lox.Proofs.Machine.Unaddressed
import Lox.Proofs.Machine.Untouched
import Lox.Proofs.Machine.Upholding
import Lox.Proofs.Machine.Watch
import Lox.Proofs.Number.Numerals
import Lox.Proofs.Number.Rounding
import Lox.Proofs.Number.Shortest
import Lox.Proofs.Parser.Acceptance
import Lox.Proofs.Parser.Bounds
import Lox.Proofs.Parser.Completeness
import Lox.Proofs.Parser.Identifiers
import Lox.Proofs.Parser.Likeness
import Lox.Proofs.Parser.Linearisation
import Lox.Proofs.Parser.Locality
import Lox.Proofs.Parser.Printing
import Lox.Proofs.Parser.Soundness
import Lox.Proofs.Parser.Termination
import Lox.Proofs.Resolution.Addresses
import Lox.Proofs.Resolution.Likeness
import Lox.Proofs.Resolution.Occurrences
import Lox.Proofs.Resolution.Readiness
import Lox.Proofs.Resolution.Receivers
import Lox.Proofs.Resolution.Recordings
import Lox.Proofs.Resolution.Sites
import Lox.Proofs.Resolution.Supers
import Lox.Proofs.Resolution.Violations
import Lox.Proofs.Resolution.Walk
import Lox.Proofs.Session.Assignment
import Lox.Proofs.Session.Construction
import Lox.Proofs.Session.Containment
import Lox.Proofs.Session.Evaluation
import Lox.Proofs.Session.Grounding
import Lox.Proofs.Session.Growth
import Lox.Proofs.Session.Identifiers
import Lox.Proofs.Session.Input
import Lox.Proofs.Session.Lasting
import Lox.Proofs.Session.Layout
import Lox.Proofs.Session.Lexical
import Lox.Proofs.Session.Likeness
import Lox.Proofs.Session.Methods
import Lox.Proofs.Session.Outcomes
import Lox.Proofs.Session.Receivers
import Lox.Proofs.Session.Redeclaration
import Lox.Proofs.Session.Rejection
import Lox.Proofs.Session.Reporting
import Lox.Proofs.Session.Request
import Lox.Proofs.Session.Scoping
import Lox.Proofs.Session.Splitting
import Lox.Proofs.Session.Standing
import Lox.Proofs.Session.Steps
import Lox.Proofs.Text.Lines
import Lox.Proofs.Token.Alone
import Lox.Proofs.Token.Boundaries
import Lox.Proofs.Token.ByteScanner
import Lox.Proofs.Token.Bytes
import Lox.Proofs.Token.Concatenation
import Lox.Proofs.Token.Cursor
import Lox.Proofs.Token.Numbers
import Lox.Proofs.Token.Ranges
import Lox.Proofs.Token.Reading
import Lox.Proofs.Token.Rescanning
import Lox.Proofs.Token.Spelling
import Lox.Proofs.Token.Strays
import Lox.Proofs.Tree.Alike
import Lox.Proofs.Tree.Flatten
import Lox.Proofs.Tree.Form
import Lox.Proofs.Tree.Orderly
import Lox.Proofs.Tree.Proper
import Lox.Proofs.Tree.Rules
import Lox.Resolution
import Lox.Session
import Lox.Text.CodeRange
import Lox.Text.Extending
import Lox.Text.Hidden
import Lox.Text.Quoted
import Lox.Text.Unassigned
import Lox.Text.Utf8
import Lox.Token.Basic
import Lox.Token.Scan
import Lox.Token.Segment
import Lox.Token.Tiling
import Lox.Tree.Basic
import Lox.Tree.Printing
import Lox.Value
