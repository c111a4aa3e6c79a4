import Monkey.Token.Basic

/-! The trees that programs are: operators, expressions and statements. -/
namespace Monkey

inductive UnaryOp where
  | not | negate
  deriving DecidableEq, Repr

inductive BinaryOp where
  | add | sub | mul | div | less | greater | equal | notEqual
  deriving DecidableEq, Repr

namespace UnaryOp

def symbol : UnaryOp → String
  | not => "!"
  | negate => "-"

def ofKind? : Token.Kind → Option UnaryOp
  | .bang => some not
  | .minus => some negate
  | _ => none

end UnaryOp

namespace BinaryOp

def symbol : BinaryOp → String
  | add => "+"
  | sub => "-"
  | mul => "*"
  | div => "/"
  | less => "<"
  | greater => ">"
  | equal => "=="
  | notEqual => "!="

def ofKind? : Token.Kind → Option BinaryOp
  | .plus => some add
  | .minus => some sub
  | .asterisk => some mul
  | .slash => some div
  | .less => some less
  | .greater => some greater
  | .equal => some equal
  | .notEqual => some notEqual
  | _ => none

end BinaryOp

mutual

inductive Expr where
  | ident (name : String)
  | int (value : Int64)
  | str (value : String)
  | bool (value : Bool)
  | unary (op : UnaryOp) (operand : Expr)
  | binary (op : BinaryOp) (left right : Expr)
  /-- A conditional; without an `else` branch the last field is `none`. -/
  | cond (test : Expr) (yes : List Stmt) (no : Option (List Stmt))
  | function (params : List String) (body : List Stmt)
  | call (callee : Expr) (args : List Expr)

inductive Stmt where
  | define (name : String) (value : Expr)
  | ret (value : Expr)
  | expr (value : Expr)
  | block (body : List Stmt)

end

abbrev Block := List Stmt

abbrev Program := List Stmt

end Monkey
