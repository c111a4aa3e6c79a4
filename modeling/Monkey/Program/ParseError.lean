import Monkey.Token.Basic

/-! What can be wrong with a source text, and where. -/
namespace Monkey

inductive ParseError where
  /-- Another kind of token was needed next. -/
  | unexpected (expected got : Token.Kind) (span : Span)
  /-- No expression starts with this token. -/
  | noOperand (got : Token.Kind) (span : Span)
  /-- The number is too large for an integer. -/
  | intOutOfRange (literal : String) (span : Span)
  deriving DecidableEq, Repr

namespace ParseError

def span : ParseError → Span
  | unexpected _ _ span => span
  | noOperand _ span => span
  | intOutOfRange _ span => span

def message : ParseError → String
  | unexpected expected got _ =>
    "expected next token to be " ++ expected.name ++ ", got " ++ got.name ++ " instead"
  | noOperand got _ => "no prefix parse function for " ++ got.name ++ " found"
  | intOutOfRange literal _ => "could not parse \"" ++ literal ++ "\" as integer"

end ParseError
end Monkey
