import Monkey.Eval.Machine
import Monkey.Program.Parser
import Monkey.Repl.Input
import Monkey.Repl.Settings

/-! Running inputs one after another and reporting what became of them. -/
namespace Monkey.Repl

structure Session where
  machine : Machine
  /-- Whether each program is printed before it runs. -/
  echo : Bool
  deriving DecidableEq

/-- What was written for one input, in order: what stands before the program's own output, that
output, and what follows it. A session stops at the first write that fails. -/
structure Report where
  opening : String
  printed : String
  closing : String
  ok : Bool
  deriving DecidableEq, Repr

namespace Report

def text (r : Report) : String := r.opening ++ r.printed ++ r.closing

end Report

def errorReport (errors : List ParseError) : String :=
  "parser errors:\n" ++
    String.join (errors.map fun e => "\t" ++ e.message ++ " " ++ e.span.renderAt ++ "\n")

/-- The line for a result; `null` has none. -/
def resultLine (v : Value) : String := if v = .null then "" else v.display ++ "\n"

namespace Session

def start (sink : Sink) (echo : Bool) : Session := ⟨.start sink, echo⟩

/-- Runs a program; `opening` is already written. -/
def evaluate (s : Session) (program : Program) (opening : String) (writable : Bool) :
    Option (Report × Session) := do
  let sink := { s.machine.sink with text := "" }
  let (v, m) ← { s.machine with sink }.run program
  let line := resultLine v
  let report :=
    if writable then ⟨opening, m.sink.text, line, true⟩
    else ⟨opening, m.sink.text, "", line == ""⟩
  return (report, { s with machine := m })

/-- Reads and runs one input and reports to an output, `writable` or not. There is no outcome if
calls go too deep. -/
def run (s : Session) (source : String) (writable : Bool) : Option (Report × Session) :=
  let parsed := parse source
  let opening :=
    if parsed.errors ≠ [] then errorReport parsed.errors
    else if s.echo then parsed.program.render .compact ++ "\n"
    else ""
  if opening ≠ "" ∧ ¬writable then some (⟨"", "", "", false⟩, s)
  else if parsed.errors ≠ [] then some (⟨opening, "", "", true⟩, s)
  else s.evaluate parsed.program opening writable

/-- All that is written for the inputs. -/
def transcript (s : Session) : List String → Option String
  | [] => some ""
  | source :: rest => do
    let (report, s) ← s.run source true
    return report.text ++ (← s.transcript rest)

end Session

/-- The line that greets the user. -/
def banner : String := "Monkey v0.1.0\n"

/-- All that is written when `input` is read line by line from something that is no terminal. -/
def transcript (settings : Settings) (input : String) : Option String :=
  ((Session.start .working settings.echo).transcript (sources {} (lines input))).map (banner ++ ·)

end Monkey.Repl
