import MiniC.Position
import MiniC.Token
import MiniC.Lexeme
import MiniC.Lexeme.Scan
import MiniC.Lexeme.Stream
import MiniC.Lexeme.Lexer
import MiniC.Lexeme.Lookahead
import MiniC.Decimal.Digits
import MiniC.Decimal.Integer
import MiniC.Decimal.Binary
import MiniC.Decimal.Read
import MiniC.Decimal.Shortest
import MiniC.Decimal.Layout
import MiniC.Text.Blank
import MiniC.Text.Escape
import MiniC.Text.Utf8
import MiniC.Builtin
import MiniC.Syntax.Operator
import MiniC.Syntax.Tree
import MiniC.Syntax.Same
import MiniC.Parse.Basic
import MiniC.Parse.Expr
import MiniC.Parse.Statement
import MiniC.Parse.Program
import MiniC.Value.Basic
import MiniC.Value.Render
import MiniC.Value.Array
import MiniC.Value.Convert
import MiniC.Value.Operation
import MiniC.Fault
import MiniC.Function
import MiniC.Scope
import MiniC.Console.Source
import MiniC.Console.Sink
import MiniC.Machine
import MiniC.Eval.Builtin
import MiniC.Eval.Place
import MiniC.Eval.Statement
import MiniC.Eval.Program
import MiniC.CommandLine
import MiniC.Main
import MiniC.Proofs.Value.Shape
import MiniC.Proofs.Value.Type
import MiniC.Proofs.Value.Leaves
import MiniC.Proofs.Scope.Frame
import MiniC.Proofs.Scope.Kept
import MiniC.Proofs.Run.Simulated
import MiniC.Proofs.Run.Done
import MiniC.Proofs.Scope.WellFormed
import MiniC.Proofs.Scope.Sized
import MiniC.Proofs.Parse.Declared
import MiniC.Proofs.Eval.Coupling
import MiniC.Proofs.Eval.Steps
import MiniC.Proofs.Eval.Isolation
import MiniC.Proofs.Eval.Kept
import MiniC.Proofs.Eval.Typing
import MiniC.Proofs.Eval.WellFormed
import MiniC.Proofs.Eval.Reachable
import MiniC.Proofs.Eval.Balanced
import MiniC.Proofs.Parse.Gives
import MiniC.Proofs.Parse.Grammar
import MiniC.Proofs.Parse.Sound
import MiniC.Proofs.Parse.Complete
import MiniC.Proofs.Parse.Lookahead
import MiniC.Proofs.Lexeme.Delivered
import MiniC.Proofs.Parse.Accepted
import MiniC.Proofs.Syntax.Print
import MiniC.Proofs.Lexeme.Spelled
import MiniC.Proofs.Lexeme.Layout
import MiniC.Proofs.Lexeme.OnDemand
import MiniC.Proofs.Lexeme.Calls
import MiniC.Proofs.Lexeme.Buffered
import MiniC.Proofs.Lexeme.Tiled
import MiniC.Proofs.Lexeme.Relexed
import MiniC.Proofs.Parse.Written
import MiniC.Proofs.Parse.Unplaced
import MiniC.Proofs.Parse.Printed
import MiniC.Proofs.Parse.Completed
import MiniC.Proofs.Parse.Viable
import MiniC.Proofs.Run.Resolved
import MiniC.Proofs.Syntax.Scoped
import MiniC.Proofs.Scope.Models
import MiniC.Proofs.Eval.Resolved
import MiniC.Proofs.Eval.Scoped
import MiniC.Proofs.Scope.Flat
import MiniC.Proofs.Syntax.Jumps
import MiniC.Proofs.Run.Agreed
import MiniC.Proofs.Eval.Watched
import MiniC.Proofs.Eval.Composed
import MiniC.Proofs.Eval.Limited
import MiniC.Proofs.Syntax.Lexemes
import MiniC.Proofs.Parse.Cited
import MiniC.Proofs.Parse.Refused
import MiniC.Proofs.Eval.Attributed
import MiniC.Proofs.Eval.Jumps
import MiniC.Proofs.Eval.Located
import MiniC.Proofs.Eval.Proper
import MiniC.Proofs.Eval.Sized
import MiniC.Proofs.Scope.Unplaced
import MiniC.Proofs.Run.Unplaced
import MiniC.Proofs.Eval.Unplaced
import MiniC.Proofs.Eval.Layout
import MiniC.Proofs.Console.Chunks
import MiniC.Proofs.Scope.SameBindings
import MiniC.Proofs.Eval.Reordered
import MiniC.Proofs.Value.Path
import MiniC.Proofs.Eval.Pure
import MiniC.Proofs.Eval.Atomic
import MiniC.Proofs.Eval.Compound
import MiniC.Proofs.Value.Slot
import MiniC.Proofs.Eval.Padded
import MiniC.Proofs.Eval.Loops
import MiniC.Proofs.Value.Filled
import MiniC.Proofs.Value.Integer
import MiniC.Proofs.Decimal.Zero
import MiniC.Proofs.Value.Classified
import MiniC.Proofs.Eval.ReadBack
import MiniC.Proofs.Text.Unescaped
import MiniC.Proofs.Decimal.Numeral
import MiniC.Proofs.Eval.Numerals
import MiniC.Proofs.Parse.Skipped
import MiniC.Proofs.Parse.Ended
import MiniC.Proofs.Parse.Descends
import MiniC.Proofs.Parse.Ended
