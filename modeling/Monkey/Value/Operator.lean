import Monkey.Value.Basic

/-! What operators do to values. Integers are words of 64 bits, so sums, differences, products,
negations and the one quotient that does not fit wrap around. -/
namespace Monkey

namespace UnaryOp

def apply : UnaryOp → Value → Value
  | not, .bool b => .bool (!b)
  | not, .null => .bool true
  | not, _ => .bool false
  | negate, .int a => .int (-a)
  | negate, v => .error (.unknownUnary negate v.tag)

end UnaryOp

namespace BinaryOp

/-- On integers; the quotient goes toward zero. -/
def onInts (op : BinaryOp) (a b : Int64) : Value :=
  match op with
  | add => .int (a + b)
  | sub => .int (a - b)
  | mul => .int (a * b)
  | div => if b = 0 then .error .divisionByZero else .int (a / b)
  | less => .bool (decide (a < b))
  | greater => .bool (decide (b < a))
  | equal => .bool (a == b)
  | notEqual => .bool (a != b)

def onStrings (op : BinaryOp) (a b : String) : Value :=
  match op with
  | add => .str (a ++ b)
  | equal => .bool (a == b)
  | notEqual => .bool (a != b)
  | op => .error (.unknownBinary .string op .string)

/-- On two integers and on two strings by their own rules; else all values compare, and nothing
else is defined. -/
def apply (op : BinaryOp) (left right : Value) : Value :=
  match left, right with
  | .int a, .int b => op.onInts a b
  | .str a, .str b => op.onStrings a b
  | _, _ =>
    match op with
    | equal => .bool (left.equal right)
    | notEqual => .bool (!left.equal right)
    | _ =>
      if left.tag = right.tag then .error (.unknownBinary left.tag op right.tag)
      else .error (.typeMismatch left.tag op right.tag)

end BinaryOp
end Monkey
