import Monkey.Program.Basic

/-! What can go wrong while a program runs. -/
namespace Monkey

/-- The types that values have at run time. -/
inductive Value.Tag where
  | integer | boolean | string | null | returned | error | function | builtin
  deriving DecidableEq, Repr

namespace Value.Tag

def name : Tag → String
  | integer => "INTEGER"
  | boolean => "BOOLEAN"
  | string => "STRING"
  | null => "NULL"
  | returned => "RETURN_VALUE"
  | error => "ERROR"
  | function => "FUNCTION"
  | builtin => "BUILTIN"

def all : List Tag := [integer, boolean, string, null, returned, error, function, builtin]

def ofName? (text : String) : Option Tag := all.find? (·.name == text)

end Value.Tag

inductive RuntimeError where
  /-- The operands of a binary operator are of two types. -/
  | typeMismatch (left : Value.Tag) (op : BinaryOp) (right : Value.Tag)
  /-- The operator is not defined for its operand. -/
  | unknownUnary (op : UnaryOp) (right : Value.Tag)
  /-- The operator is not defined for operands of their type. -/
  | unknownBinary (left : Value.Tag) (op : BinaryOp) (right : Value.Tag)
  | unbound (name : String)
  | notCallable (got : Value.Tag)
  | divisionByZero
  | wrongArgCount (expected got : Nat)
  /-- The named builtin takes no argument of this type. -/
  | unsupportedArg (builtin : String) (got : Value.Tag)
  deriving DecidableEq, Repr

def RuntimeError.message : RuntimeError → String
  | typeMismatch left op right =>
    "type mismatch: " ++ left.name ++ " " ++ op.symbol ++ " " ++ right.name
  | unknownUnary op right => "unknown operator: " ++ op.symbol ++ right.name
  | unknownBinary left op right =>
    "unknown operator: " ++ left.name ++ " " ++ op.symbol ++ " " ++ right.name
  | unbound name => "identifier not found: " ++ name
  | notCallable got => "not a function: " ++ got.name
  | divisionByZero => "division by zero"
  | wrongArgCount expected got =>
    "wrong number of arguments: expected " ++ toString expected ++ ", got " ++ toString got
  | unsupportedArg builtin got =>
    "argument to `" ++ builtin ++ "` not supported, got " ++ got.name

end Monkey
