import Monkey.Eval.Sink
import Monkey.Value.Basic

/-! What the builtin functions do. -/
namespace Monkey

namespace Builtin

def single (args : List Value) : Except RuntimeError Value :=
  match args with
  | [arg] => .ok arg
  | _ => .error (.wrongArgCount 1 args.length)

/-- The length of a string is counted in bytes of its UTF-8 form. -/
def length : Value → Except RuntimeError Value
  | .str s => .ok (.int (Int64.ofNat s.utf8ByteSize))
  | v => .error (.unsupportedArg len.name v.tag)

/-- What the builtin answers, and the sink after what it wrote. -/
def apply (b : Builtin) (args : List Value) (sink : Sink) : Except RuntimeError Value × Sink :=
  match b with
  | len => (single args >>= length, sink)
  | type => ((fun v => .str v.tag.name) <$> single args, sink)
  | puts => (.ok .null, args.foldl (fun sink v => sink.writeLine v.display) sink)

end Builtin
end Monkey
