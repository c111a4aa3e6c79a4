import Monkey.Source.Span

/-! Tokens: kinds, their display names, and the keywords among the words. -/
namespace Monkey

inductive Token.Kind where
  | illegal | eof | ident | int | string
  | assign | plus | minus | bang | asterisk | slash | less | greater | equal | notEqual
  | comma | semicolon | lparen | rparen | lbrace | rbrace
  | kwFn | kwLet | kwTrue | kwFalse | kwIf | kwElse | kwReturn
  deriving DecidableEq, Repr

namespace Token.Kind

/-- The name that messages use. -/
def name : Kind → String
  | illegal => "ILLEGAL"
  | eof => "EOF"
  | ident => "IDENT"
  | int => "INT"
  | string => "STRING"
  | assign => "="
  | plus => "+"
  | minus => "-"
  | bang => "!"
  | asterisk => "*"
  | slash => "/"
  | less => "<"
  | greater => ">"
  | equal => "=="
  | notEqual => "!="
  | comma => ","
  | semicolon => ";"
  | lparen => "("
  | rparen => ")"
  | lbrace => "\x7b"
  | rbrace => "\x7d"
  | kwFn => "FUNCTION"
  | kwLet => "LET"
  | kwTrue => "TRUE"
  | kwFalse => "FALSE"
  | kwIf => "IF"
  | kwElse => "ELSE"
  | kwReturn => "RETURN"

def all : List Kind :=
  [illegal, eof, ident, int, string,
   assign, plus, minus, bang, asterisk, slash, less, greater, equal, notEqual,
   comma, semicolon, lparen, rparen, lbrace, rbrace,
   kwFn, kwLet, kwTrue, kwFalse, kwIf, kwElse, kwReturn]

def ofName? (text : String) : Option Kind := all.find? (·.name == text)

/-- The kind of a word: a keyword's own kind, and `ident` for every other word. -/
def ofWord : String → Kind
  | "fn" => kwFn
  | "let" => kwLet
  | "true" => kwTrue
  | "false" => kwFalse
  | "if" => kwIf
  | "else" => kwElse
  | "return" => kwReturn
  | _ => ident

end Token.Kind

/-- A piece of source text. The literal is the text itself, except for a quoted text, where it
is what stands between the quotes with its escapes resolved. -/
structure Token where
  kind : Token.Kind
  literal : String
  span : Span
  deriving DecidableEq, Repr

namespace Token

/-- The token that stands at, and everywhere after, the end of a source of `length` bytes. -/
def eof (length : Nat) : Token := ⟨.eof, "", ⟨length, length⟩⟩

def render (t : Token) : String := if t.kind = .eof then "EOF" else t.literal

end Token
end Monkey
