import Monkey.Token.Basic

/-! How tightly operators bind. -/
namespace Monkey

/-- Binding strengths, the weakest first. -/
inductive Precedence where
  | lowest | equality | comparison | sum | product | unary | call
  deriving DecidableEq, Repr

namespace Precedence

def rank : Precedence → Nat
  | lowest => 0
  | equality => 1
  | comparison => 2
  | sum => 3
  | product => 4
  | unary => 5
  | call => 6

instance : LT Precedence := ⟨fun p q => p.rank < q.rank⟩

instance (p q : Precedence) : Decidable (p < q) := inferInstanceAs (Decidable (p.rank < q.rank))

/-- The strength with which a token behind an operand holds on to it. Only binary operators and
the parenthesis of a call do. -/
def ofKind : Token.Kind → Precedence
  | .equal | .notEqual => equality
  | .less | .greater => comparison
  | .plus | .minus => sum
  | .asterisk | .slash => product
  | .lparen => call
  | _ => lowest

end Precedence
end Monkey
