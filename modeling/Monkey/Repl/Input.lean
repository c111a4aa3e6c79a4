import Monkey.Text.Blank
import Monkey.Token.Lexer

/-! Which lines make up one input: lines are gathered until every bracket is closed. -/
namespace Monkey.Repl

def bracketWeight : Token.Kind → Int
  | .lparen | .lbrace => 1
  | .rparen | .rbrace => -1
  | _ => 0

/-- Opening brackets less closing ones. -/
def balance : List Token → Int
  | [] => 0
  | t :: rest => bracketWeight t.kind + balance rest

def openBrackets (source : String) : Int := balance (TokenStream.ofSource source).tokens

def isUnclosed (source : String) : Bool := decide (0 < openBrackets source)

/-- The lines that wait for a bracket to be closed. -/
structure Pending where
  text : String := ""
  deriving DecidableEq, Repr

namespace Pending

def isEmpty (p : Pending) : Bool := p.text == ""

/-- Adds a line, and gives out the whole input once no bracket is open. -/
def push (p : Pending) (line : String) : Option String × Pending :=
  let text := p.text ++ line ++ "\n"
  if isUnclosed text then (none, ⟨text⟩) else (some text, {})

/-- What waits when there are no more lines. -/
def finish (p : Pending) : Option String × Pending :=
  (if Text.trim p.text = "" then none else some p.text, {})

end Pending

/-- What a line leads to. -/
inductive Step where
  | quit
  | wait (pending : Pending)
  | run (source : String) (pending : Pending)
  deriving DecidableEq, Repr

/-- Between inputs, a blank line is skipped and two words end the session. -/
def step (p : Pending) (line : String) : Step :=
  let word := Text.trim line
  if p.isEmpty ∧ (word = "exit" ∨ word = "quit") then .quit
  else if p.isEmpty ∧ word = "" then .wait p
  else
    match p.push line with
    | (some source, p) => .run source p
    | (none, p) => .wait p

/-- The inputs that the lines make up. -/
def sources (p : Pending) : List String → List String
  | [] => p.finish.1.toList
  | line :: lines =>
    match step p line with
    | .quit => []
    | .wait p => sources p lines
    | .run source p => source :: sources p lines

/-- The lines of a text, each with the line feed that ends it. -/
def splitLines : List Char → List (List Char)
  | [] => []
  | c :: rest =>
    if c = '\n' then [c] :: splitLines rest
    else
      match splitLines rest with
      | [] => [[c]]
      | line :: lines => (c :: line) :: lines

def lines (text : String) : List String := (splitLines text.toList).map String.ofList

theorem flatten_splitLines (text : List Char) : (splitLines text).flatten = text := by
  induction text with
  | nil => rfl
  | cons c rest ih =>
    unfold splitLines
    split
    · simp [ih]
    · split
      · next h => simpa [h] using ih
      · next h => simpa [h] using ih

end Monkey.Repl
