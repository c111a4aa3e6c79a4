import Monkey.Program.Printer
import Monkey.Proofs.Token.Spelling

/-! The programs that can be written down, and the tokens of their written forms. -/
namespace Monkey

mutual

/-- Names are names, numbers are not negative, and no block stands as a statement. -/
def Expr.isWellFormed : Expr → Bool
  | .ident name => isName name
  | .int value => decide (0 ≤ value.toInt)
  | .str _ => true
  | .bool _ => true
  | .unary _ operand => operand.isWellFormed
  | .binary _ left right => left.isWellFormed && right.isWellFormed
  | .cond test yes no => test.isWellFormed && areWellFormed yes && isWellFormedElse no
  | .function params body => params.all isName && areWellFormed body
  | .call callee args => callee.isWellFormed && areWellFormedArgs args

def Stmt.isWellFormed : Stmt → Bool
  | .define name value => isName name && value.isWellFormed
  | .ret value => value.isWellFormed
  | .expr value => value.isWellFormed
  | .block _ => false

def areWellFormed : List Stmt → Bool
  | [] => true
  | s :: rest => s.isWellFormed && areWellFormed rest

def areWellFormedArgs : List Expr → Bool
  | [] => true
  | e :: rest => e.isWellFormed && areWellFormedArgs rest

def isWellFormedElse : Option (List Stmt) → Bool
  | none => true
  | some body => areWellFormed body

end

def UnaryOp.kind : UnaryOp → Token.Kind
  | not => .bang
  | negate => .minus

def BinaryOp.kind : BinaryOp → Token.Kind
  | add => .plus
  | sub => .minus
  | mul => .asterisk
  | div => .slash
  | less => .less
  | greater => .greater
  | equal => .equal
  | notEqual => .notEqual

@[simp] theorem UnaryOp.ofKind?_kind (op : UnaryOp) : ofKind? op.kind = some op := by
  cases op <;> rfl

@[simp] theorem BinaryOp.ofKind?_kind (op : BinaryOp) : ofKind? op.kind = some op := by
  cases op <;> rfl

/-- The tokens that follow an expression used as a statement. -/
def Style.terminators : Style → List Terminal
  | compact => []
  | canonical => [.of .semicolon]

/-- Names with commas between them. -/
def nameTerminals (names : List String) : List Terminal :=
  [Terminal.of .comma].intercalate (names.map fun name => [⟨.ident, name⟩])

mutual

def Expr.terminals (style : Style) : Expr → List Terminal
  | .ident name => [⟨.ident, name⟩]
  | .int value => [⟨.int, toString value.toInt⟩]
  | .str value => [⟨.string, value⟩]
  | .bool value => [.of (if value then .kwTrue else .kwFalse)]
  | .unary op operand => .of .lparen :: .of op.kind :: (operand.terminals style ++ [.of .rparen])
  | .binary op left right =>
    .of .lparen ::
      (left.terminals style ++ .of op.kind :: (right.terminals style ++ [.of .rparen]))
  | .cond test yes no =>
    .of .kwIf :: .of .lparen :: (test.terminals style ++ .of .rparen :: .of .lbrace ::
      (blockTerminals style yes ++ .of .rbrace :: elseTerminals style no))
  | .function params body =>
    .of .kwFn :: .of .lparen :: (nameTerminals params ++ .of .rparen :: .of .lbrace ::
      (blockTerminals style body ++ [.of .rbrace]))
  | .call callee args =>
    callee.terminals style ++
      .of .lparen :: ([Terminal.of .comma].intercalate (argTerminals style args) ++ [.of .rparen])

def Stmt.terminals (style : Style) : Stmt → List Terminal
  | .define name value =>
    .of .kwLet :: ⟨.ident, name⟩ :: .of .assign :: (value.terminals style ++ [.of .semicolon])
  | .ret value => .of .kwReturn :: (value.terminals style ++ [.of .semicolon])
  | .expr value => value.terminals style ++ style.terminators
  | .block body => .of .lbrace :: (blockTerminals style body ++ [.of .rbrace])

def blockTerminals (style : Style) : List Stmt → List Terminal
  | [] => []
  | s :: rest => s.terminals style ++ blockTerminals style rest

def argTerminals (style : Style) : List Expr → List (List Terminal)
  | [] => []
  | e :: rest => e.terminals style :: argTerminals style rest

def elseTerminals (style : Style) : Option (List Stmt) → List Terminal
  | none => []
  | some body => .of .kwElse :: .of .lbrace :: (blockTerminals style body ++ [.of .rbrace])

end
end Monkey
