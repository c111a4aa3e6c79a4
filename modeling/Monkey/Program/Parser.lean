import Monkey.Program.Equality
import Monkey.Program.ParseError
import Monkey.Program.Precedence
import Monkey.Token.Lexer

/-! Reading programs from tokens, by recursive descent and operator precedence. A statement that
cannot be read is dropped with its error recorded, and reading resumes behind the token where it
failed. Every function that repeats takes a number of rounds; as many rounds as there are tokens
left are always enough, for each round takes one. -/
namespace Monkey

namespace TokenStream

def current (s : TokenStream) : Token := s.tokens.headD s.eof

def advance (s : TokenStream) : TokenStream := { s with tokens := s.tokens.tail }

/-- The token after the current one. -/
def peek (s : TokenStream) : Token := s.advance.current

end TokenStream

namespace Parser

/-- The tokens from the current one on, and the errors recorded so far. -/
structure State where
  stream : TokenStream
  errors : List ParseError
  deriving DecidableEq, Repr

namespace State

def ofStream (stream : TokenStream) : State := ⟨stream, []⟩

def advance (s : State) : State := { s with stream := s.stream.advance }

def record (s : State) (e : ParseError) : State := { s with errors := s.errors ++ [e] }

end State
end Parser

/-- A failing parser leaves the tokens where it failed. -/
abbrev Parser := EStateM ParseError Parser.State

namespace Parser

def current : Parser Token := return (← get).stream.current

def peek : Parser Token := return (← get).stream.peek

def advance : Parser Unit := modify State.advance

def record (e : ParseError) : Parser Unit := modify (·.record e)

/-- Moves to the next token if it is of the given kind, and fails on it otherwise. -/
def expect (kind : Token.Kind) : Parser Unit := do
  let t ← peek
  if t.kind = kind then advance else throw (.unexpected kind t.kind t.span)

/-- Moves to the next token if it is of the given kind. -/
def skip (kind : Token.Kind) : Parser Unit := do
  if (← peek).kind = kind then advance

/-- Moves to the next token, which has to be a name. -/
def expectName : Parser String := do
  expect .ident
  return (← current).literal

def noOperand {α : Type} : Parser α := do
  let t ← current
  throw (.noOperand t.kind t.span)

/-- The names behind a first one. -/
def moreNames : Nat → Parser (List String)
  | 0 => return []
  | n + 1 => do
    if (← peek).kind = .comma then
      advance
      let name ← expectName
      return name :: (← moreNames n)
    else return []

/-- The parameters of a function, from the opening parenthesis to the closing one. -/
def params (n : Nat) : Parser (List String) := do
  if (← peek).kind = .rparen then
    advance
    return []
  else
    let name ← expectName
    let names ← moreNames n
    expect .rparen
    return name :: names

/-- The least number that is no integer, two to the power 63. -/
def intBound : Nat := 9223372036854775808

def intLiteral (t : Token) : Parser Expr :=
  let value := Nat.ofDigitChars 10 t.literal.toList 0
  if value < intBound then return .int (Int64.ofNat value)
  else throw (.intOutOfRange t.literal t.span)

section
variable (expr : Precedence → Parser Expr)

/-- A statement, up to its last token; a semicolon behind it belongs to it. -/
def statement : Parser Stmt := do
  match (← current).kind with
  | .kwLet =>
    let name ← expectName
    expect .assign
    advance
    let value ← expr .lowest
    skip .semicolon
    return .define name value
  | .kwReturn =>
    advance
    let value ← expr .lowest
    skip .semicolon
    return .ret value
  | _ =>
    let value ← expr .lowest
    skip .semicolon
    return .expr value

/-- Statements up to a closing brace or the end of the input. -/
def statements : Nat → Parser (List Stmt)
  | 0 => return []
  | n + 1 => do
    let kind := (← current).kind
    if kind = .rbrace ∨ kind = .eof then return []
    else
      let s ← statement expr
      advance
      return s :: (← statements n)

/-- The statements behind an opening brace. -/
def block (n : Nat) : Parser Block := do
  advance
  statements expr n

/-- The arguments behind a first one. -/
def moreArgs : Nat → Parser (List Expr)
  | 0 => return []
  | n + 1 => do
    if (← peek).kind = .comma then
      advance
      advance
      let arg ← expr .lowest
      return arg :: (← moreArgs n)
    else return []

/-- The arguments of a call, from the opening parenthesis to the closing one. -/
def args (n : Nat) : Parser (List Expr) := do
  if (← peek).kind = .rparen then
    advance
    return []
  else
    advance
    let arg ← expr .lowest
    let rest ← moreArgs expr n
    expect .rparen
    return arg :: rest

/-- The arguments of a call; if they cannot be read, the error is recorded and there are none. -/
def argsOrNone (n : Nat) : Parser (List Expr) :=
  tryCatch (args expr n) fun e => do
    record e
    return []

def grouped : Parser Expr := do
  advance
  let e ← expr .lowest
  expect .rparen
  return e

def branch (n : Nat) : Parser (Option Block) := do
  if (← peek).kind = .kwElse then
    advance
    expect .lbrace
    return some (← block expr n)
  else return none

def conditional (n : Nat) : Parser Expr := do
  expect .lparen
  advance
  let test ← expr .lowest
  expect .rparen
  expect .lbrace
  let yes ← block expr n
  let no ← branch expr n
  return .cond test yes no

def function (n : Nat) : Parser Expr := do
  expect .lparen
  let names ← params n
  expect .lbrace
  let body ← block expr n
  return .function names body

/-- What an expression starts with: unary operators are applied, binary ones are not. -/
def operand (n : Nat) : Parser Expr := do
  let t ← current
  match UnaryOp.ofKind? t.kind with
  | some op =>
    advance
    return .unary op (← expr .unary)
  | none =>
    match t.kind with
    | .ident => return .ident t.literal
    | .int => intLiteral t
    | .string => return .str t.literal
    | .kwTrue => return .bool true
    | .kwFalse => return .bool false
    | .lparen => grouped expr
    | .kwIf => conditional expr n
    | .kwFn => function expr n
    | _ => noOperand

/-- Extends `left` by calls and binary operators that bind tighter than `min`. The right operand
of an operator takes only what binds tighter still, so equal operators group to the left. -/
def extend (min : Precedence) : Nat → Expr → Parser Expr
  | 0, left => return left
  | n + 1, left => do
    let kind := (← peek).kind
    if min < .ofKind kind then
      if kind = .lparen then
        advance
        let args ← argsOrNone expr n
        extend min n (.call left args)
      else
        match BinaryOp.ofKind? kind with
        | some op =>
          advance
          advance
          let right ← expr (.ofKind kind)
          extend min n (.binary op left right)
        | none => return left
    else return left

end

/-- An expression of operators that bind tighter than `min`. -/
def expression : Nat → Precedence → Parser Expr
  | 0, _ => noOperand
  | n + 1, min => do
    let left ← operand (expression n) n
    extend (expression n) min n left

/-- Reads statements to the end of the input. -/
def programUpTo : Nat → State → Program × State
  | 0, s => ([], s)
  | n + 1, s =>
    if s.stream.current.kind = .eof then ([], s)
    else
      match statement (expression (n + 1)) s with
      | .ok stmt s =>
        let (rest, s) := programUpTo n s.advance
        (stmt :: rest, s)
      | .error e s => programUpTo n (s.record e).advance

/-- Reads the whole input. -/
def program (s : State) : Program × State := programUpTo s.stream.tokens.length s

end Parser

/-- The program that could be read, and the errors met on the way. -/
structure Parsed where
  program : Program
  errors : List ParseError
  deriving DecidableEq

def TokenStream.parse (stream : TokenStream) : Parsed :=
  let (program, s) := Parser.program (.ofStream stream)
  ⟨program, s.errors⟩

def parse (source : String) : Parsed := (TokenStream.ofSource source).parse

end Monkey
