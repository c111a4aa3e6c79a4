import Monkey.Text.Alphabetic
import Monkey.Text.Blank
import Monkey.Text.Quoted
import Monkey.Source.Span
import Monkey.Token.Basic
import Monkey.Token.Lexer
import Monkey.Program.Basic
import Monkey.Program.Equality
import Monkey.Program.ParseError
import Monkey.Program.Precedence
import Monkey.Program.Parser
import Monkey.Program.Printer
import Monkey.Scope.Id
import Monkey.Value.RuntimeError
import Monkey.Value.Basic
import Monkey.Value.Operator
import Monkey.Scope.Heap
import Monkey.Scope.Reclaim
import Monkey.Eval.Sink
import Monkey.Eval.Builtin
import Monkey.Eval.Machine
import Monkey.Repl.Settings
import Monkey.Repl.Input
import Monkey.Repl.Session
import Monkey.Main
import Monkey.Proofs.Token.Terminal
import Monkey.Proofs.Token.Spelling
import Monkey.Proofs.Token.Longest
import Monkey.Proofs.Token.Layout
import Monkey.Proofs.Token.Append
import Monkey.Proofs.Program.Success
import Monkey.Proofs.Program.Ahead
import Monkey.Proofs.Program.Forward
import Monkey.Proofs.Program.Grammar
import Monkey.Proofs.Program.WellFormed
import Monkey.Proofs.Program.Written
import Monkey.Proofs.Program.Reading
import Monkey.Proofs.Program.RoundTrip
import Monkey.Proofs.Program.Recovered
import Monkey.Proofs.Program.Fusion
import Monkey.Proofs.Program.Compact
import Monkey.Proofs.Program.Absorb
import Monkey.Proofs.Program.Sound
import Monkey.Proofs.Program.Complete
import Monkey.Proofs.Program.Chain
import Monkey.Proofs.Program.Brackets
import Monkey.Proofs.Program.Lockstep
import Monkey.Proofs.Program.Progress
import Monkey.Proofs.Program.Parallel
import Monkey.Proofs.Program.Compose
import Monkey.Proofs.Program.Spacing
import Monkey.Proofs.Program.Places
import Monkey.Proofs.Program.Literal
import Monkey.Proofs.Scope.Sound
import Monkey.Proofs.Scope.Path
import Monkey.Proofs.Scope.Sweep
import Monkey.Proofs.Scope.Reach
import Monkey.Proofs.Scope.Stored
import Monkey.Proofs.Scope.Arena
import Monkey.Proofs.Scope.Ancestry
import Monkey.Proofs.Scope.Window
import Monkey.Proofs.Value.Alike
import Monkey.Proofs.Value.Equality
import Monkey.Proofs.Eval.Arithmetic
import Monkey.Proofs.Eval.Context
import Monkey.Proofs.Eval.Simulation
import Monkey.Proofs.Eval.Safety
import Monkey.Proofs.Eval.Visit
import Monkey.Proofs.Eval.Exact
import Monkey.Proofs.Eval.Frame
import Monkey.Proofs.Eval.Checked
import Monkey.Proofs.Eval.Unmarked
import Monkey.Proofs.Eval.Renaming
import Monkey.Proofs.Eval.Split
import Monkey.Proofs.Eval.Output
import Monkey.Proofs.Eval.Located
import Monkey.Proofs.Eval.Nesting
import Monkey.Proofs.Eval.Identity
import Monkey.Proofs.Repl.Gathering
import Monkey.Proofs.Repl.Unclosed
