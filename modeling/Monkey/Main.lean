import Monkey.Repl.Session

/-! The command line: an interactive session on standard input and output. -/
namespace Monkey.Repl

/-- Writes what one input leads to; there is no session after calls that go too deep. -/
def report (s : Session) (source : String) : IO (Option Session) := do
  match s.run source true with
  | some (report, s) =>
    IO.print report.text
    return some s
  | none =>
    IO.eprintln "calls are nested too deep"
    return none

partial def interact (settings : Settings) (s : Session) (p : Pending) : IO Unit := do
  let input ← IO.getStdin
  let output ← IO.getStdout
  if ← input.isTty then
    IO.print (if p.isEmpty then settings.prompt else settings.continuation)
  output.flush
  let line ← input.getLine
  if line == "" then
    if let some source := p.finish.1 then
      discard (report s source)
  else
    match step p line with
    | .quit => return
    | .wait p => interact settings s p
    | .run source p =>
      if let some s ← report s source then
        interact settings s p

end Monkey.Repl

def main : IO Unit := do
  let history ← IO.getEnv Monkey.Repl.Settings.historyVariable
  let echo ← IO.getEnv Monkey.Repl.Settings.echoVariable
  let settings := Monkey.Repl.Settings.ofVariables history echo
  IO.print Monkey.Repl.banner
  Monkey.Repl.interact settings (.start .working settings.echo) {}
