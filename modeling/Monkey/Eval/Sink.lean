/-! Where programs print. -/
namespace Monkey

/-- Where programs print: the text written so far, and whether writing succeeds at all. -/
structure Sink where
  accepts : Bool
  text : String
  deriving DecidableEq, Repr

namespace Sink

def working : Sink := ⟨true, ""⟩

def broken : Sink := ⟨false, ""⟩

/-- A write that fails leaves no trace. -/
def write (s : Sink) (text : String) : Sink :=
  if s.accepts then { s with text := s.text ++ text } else s

def writeLine (s : Sink) (line : String) : Sink := s.write (line ++ "\n")

end Sink

end Monkey
