import Monkey.Program.Basic
import Monkey.Text.Quoted

/-! The two written forms of a program. The canonical form ends every statement with a semicolon;
the compact form leaves it out after an expression. -/
namespace Monkey

inductive Style where
  | compact | canonical
  deriving DecidableEq, Repr

namespace Style

/-- What follows an expression used as a statement. -/
def terminator : Style → String
  | compact => ""
  | canonical => ";"

/-- What stands between the statements of a program. -/
def separator : Style → String
  | compact => ""
  | canonical => " "

end Style

/-- Statements in braces. -/
def braced : List String → String
  | [] => "\x7b \x7d"
  | pieces => "\x7b " ++ " ".intercalate pieces ++ " \x7d"

mutual

def Expr.render (style : Style) : Expr → String
  | .ident name => name
  | .int value => toString value.toInt
  | .str value => Text.Quoted.encode value
  | .bool value => toString value
  | .unary op operand => "(" ++ op.symbol ++ operand.render style ++ ")"
  | .binary op left right =>
    "(" ++ left.render style ++ op.symbol ++ right.render style ++ ")"
  | .cond test yes no =>
    "if (" ++ test.render style ++ ") " ++ braced (renderEach style yes) ++ renderElse style no
  | .function params body =>
    "fn(" ++ ", ".intercalate params ++ ") " ++ braced (renderEach style body)
  | .call callee args =>
    callee.render style ++ "(" ++ ", ".intercalate (renderArgs style args) ++ ")"

def Stmt.render (style : Style) : Stmt → String
  | .define name value => "let " ++ name ++ " = " ++ value.render style ++ ";"
  | .ret value => "return " ++ value.render style ++ ";"
  | .expr value => value.render style ++ style.terminator
  | .block body => braced (renderEach style body)

def renderEach (style : Style) : List Stmt → List String
  | [] => []
  | s :: rest => s.render style :: renderEach style rest

def renderArgs (style : Style) : List Expr → List String
  | [] => []
  | e :: rest => e.render style :: renderArgs style rest

def renderElse (style : Style) : Option (List Stmt) → String
  | none => ""
  | some body => " else " ++ braced (renderEach style body)

end

def Block.render (style : Style) (body : Block) : String := braced (renderEach style body)

def Program.render (style : Style) (program : Program) : String :=
  style.separator.intercalate (renderEach style program)

/-- The text that names an expression's outermost construct. -/
def Expr.headText : Expr → String
  | .ident name => name
  | .int value => toString value.toInt
  | .str value => value
  | .bool value => toString value
  | .unary op _ => op.symbol
  | .binary op _ _ => op.symbol
  | .cond .. => "if"
  | .function .. => "fn"
  | .call .. => "("

def Stmt.headText : Stmt → String
  | .define .. => "let"
  | .ret _ => "return"
  | .expr value => value.headText
  | .block _ => "\x7b"

/-- That of the first statement; an empty program has none. -/
def Program.headText : Program → String
  | [] => ""
  | s :: _ => s.headText

end Monkey
