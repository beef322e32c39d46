import StackLang.Code.Generate
import StackLang.Code.Image
import StackLang.Code.Label
import StackLang.Code.Listing
import StackLang.Code.Op
import StackLang.Code.Stream
import StackLang.Code.StringPool
import StackLang.Code.Symbolic
import StackLang.Code.Varint
import StackLang.Command.Arguments
import StackLang.Command.Path
import StackLang.Command.Report
import StackLang.Command.Session
import StackLang.Command.Task
import StackLang.Compile
import StackLang.Double.Basic
import StackLang.Double.Reading
import StackLang.Double.Shortest
import StackLang.Double.Text
import StackLang.Literal
import StackLang.Machine.Basic
import StackLang.Machine.Fault
import StackLang.Machine.Input
import StackLang.Machine.Run
import StackLang.Machine.Step
import StackLang.Main
import StackLang.Naming
import StackLang.Parse.Cursor
import StackLang.Parse.Error
import StackLang.Parse.Expr
import StackLang.Parse.Stmt
import StackLang.Program.Basic
import StackLang.Program.Layout
import StackLang.Program.Printout
import StackLang.Program.View
import StackLang.Proofs.Analysis.Bound
import StackLang.Proofs.Analysis.Cells
import StackLang.Proofs.Analysis.Checked
import StackLang.Proofs.Analysis.Deciding
import StackLang.Proofs.Analysis.Declaring
import StackLang.Proofs.Analysis.FrameLayout
import StackLang.Proofs.Analysis.FrameSizes
import StackLang.Proofs.Analysis.Lexical
import StackLang.Proofs.Analysis.Links
import StackLang.Proofs.Analysis.Names
import StackLang.Proofs.Analysis.Nesting
import StackLang.Proofs.Analysis.Repeating
import StackLang.Proofs.Analysis.Scopes
import StackLang.Proofs.Analysis.Scoping
import StackLang.Proofs.Analysis.ScopingWalk
import StackLang.Proofs.Analysis.TypeRules
import StackLang.Proofs.Analysis.TypeSystem
import StackLang.Proofs.Analysis.TypingEdits
import StackLang.Proofs.Analysis.TypingWalk
import StackLang.Proofs.Code.Assembled
import StackLang.Proofs.Code.Backpatching
import StackLang.Proofs.Code.Building
import StackLang.Proofs.Code.CallSites
import StackLang.Proofs.Code.Decoding
import StackLang.Proofs.Code.Emission
import StackLang.Proofs.Code.Generation
import StackLang.Proofs.Code.Labels
import StackLang.Proofs.Code.Listing
import StackLang.Proofs.Code.Shape
import StackLang.Proofs.Code.Soundness
import StackLang.Proofs.Code.Starts
import StackLang.Proofs.Code.Verified
import StackLang.Proofs.Image.Roundtrip
import StackLang.Proofs.Machine.Alike
import StackLang.Proofs.Machine.Boundaries
import StackLang.Proofs.Machine.CallReturn
import StackLang.Proofs.Machine.Keeping
import StackLang.Proofs.Machine.Output
import StackLang.Proofs.Machine.Resources
import StackLang.Proofs.Machine.Saving
import StackLang.Proofs.Machine.Steps
import StackLang.Proofs.Machine.Trace
import StackLang.Proofs.Machine.View
import StackLang.Proofs.Machine.Watched
import StackLang.Proofs.Parse.Alike
import StackLang.Proofs.Parse.Completeness
import StackLang.Proofs.Parse.Grammar
import StackLang.Proofs.Parse.Reading
import StackLang.Proofs.Parse.Recursion
import StackLang.Proofs.Parse.Soundness
import StackLang.Proofs.Program.Edits
import StackLang.Proofs.Program.Grounded
import StackLang.Proofs.Program.Held
import StackLang.Proofs.Program.Laying
import StackLang.Proofs.Program.Notes
import StackLang.Proofs.Program.Ownership
import StackLang.Proofs.Safety.Assignment
import StackLang.Proofs.Safety.Calls
import StackLang.Proofs.Safety.CodeLayout
import StackLang.Proofs.Safety.Continuations
import StackLang.Proofs.Safety.Flow
import StackLang.Proofs.Safety.Frames
import StackLang.Proofs.Safety.Independence
import StackLang.Proofs.Safety.Locality
import StackLang.Proofs.Safety.Preservation
import StackLang.Proofs.Safety.Routines
import StackLang.Proofs.Safety.Runs
import StackLang.Proofs.Safety.StackMap
import StackLang.Proofs.Safety.TruthValues
import StackLang.Proofs.Safety.TypedCode
import StackLang.Proofs.Safety.TypedFrames
import StackLang.Proofs.Safety.TypedSteps
import StackLang.Proofs.Safety.WordTypes
import StackLang.Proofs.Semantics.Calls
import StackLang.Proofs.Semantics.Correctness
import StackLang.Proofs.Semantics.Evaluation
import StackLang.Proofs.Semantics.Expressions
import StackLang.Proofs.Semantics.Following
import StackLang.Proofs.Semantics.Instructions
import StackLang.Proofs.Semantics.Statements
import StackLang.Proofs.Text.Lines
import StackLang.Proofs.Token.Cover
import StackLang.Proofs.Tree.Bare
import StackLang.Proofs.Tree.Formed
import StackLang.Proofs.Tree.Induction
import StackLang.Scope
import StackLang.Text.Alphabetic
import StackLang.Text.Blank
import StackLang.Text.CharClass
import StackLang.Text.GraphemeExtend
import StackLang.Text.Ignorable
import StackLang.Text.Numeric
import StackLang.Text.Outline
import StackLang.Text.Padding
import StackLang.Text.Printable
import StackLang.Text.Quoted
import StackLang.Text.Utf8
import StackLang.Token.Basic
import StackLang.Token.Names
import StackLang.Token.Report
import StackLang.Token.Scan
import StackLang.Tree.Basic
import StackLang.Typing
import StackLang.ValueType
import StackLang.Word
import StackLang.Proofs.Image.Truncation
import StackLang.Proofs.Code.StringKeys
import StackLang.Proofs.Machine.Indexing
import StackLang.Proofs.Machine.Interning
import StackLang.Proofs.Token.Layout
