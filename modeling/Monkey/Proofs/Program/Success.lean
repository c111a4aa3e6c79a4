import Mathlib.Tactic.Common
import Monkey.Program.Parser

/-! When the parts of the parser succeed, and with what: one characterisation for each part, in
terms of the expressions that it reads. -/
namespace Monkey

namespace Parser

@[simp] theorem State.advance_stream (s : State) : s.advance.stream = s.stream.advance := rfl

variable {α β : Type} {s s' : State}

lemma bind_eq_ok {x : Parser α} {f : α → Parser β} {b : β} :
    (x >>= f) s = .ok b s' ↔ ∃ a t, x s = .ok a t ∧ f a t = .ok b s' := by
  change EStateM.bind x f s = _ ↔ _
  unfold EStateM.bind
  cases x s <;> simp

/-- What follows a success goes on from there. -/
lemma bind_of_ok {x : Parser α} {a : α} {t : State} (h : x s = .ok a t) (f : α → Parser β) :
    (x >>= f) s = f a t := by
  change EStateM.bind x f s = _
  rw [EStateM.bind, h]

lemma pure_eq_ok {a b : α} : (pure a : Parser α) s = .ok b s' ↔ a = b ∧ s = s' := by
  change EStateM.Result.ok a s = .ok b s' ↔ _
  simp

lemma throw_ne_ok {e : ParseError} {a : α} : (throw e : Parser α) s ≠ .ok a s' := by
  change EStateM.Result.error e s ≠ .ok a s'
  simp

lemma noOperand_ne_ok {a : α} : (noOperand : Parser α) s ≠ .ok a s' := by
  change EStateM.Result.error _ s ≠ .ok a s'
  simp

@[simp] theorem bind_current (f : Token → Parser β) :
    (current >>= f) s = f s.stream.current s := rfl

@[simp] theorem bind_peek (f : Token → Parser β) : (peek >>= f) s = f s.stream.peek s := rfl

@[simp] theorem bind_advance (f : Unit → Parser β) : (advance >>= f) s = f () s.advance := rfl

lemma advance_eq_ok {u : Unit} : advance s = .ok u s' ↔ s.advance = s' := by
  change EStateM.Result.ok () s.advance = .ok u s' ↔ _
  simp

lemma expect_eq_ok {k : Token.Kind} {u : Unit} :
    expect k s = .ok u s' ↔ s.stream.peek.kind = k ∧ s.advance = s' := by
  rw [expect, bind_peek]
  split
  · next h => simp [h, advance_eq_ok]
  · next h => simp [h, throw_ne_ok]

/-- Where the parser stands after an optional token. -/
def State.skip (s : State) (k : Token.Kind) : State :=
  if s.stream.peek.kind = k then s.advance else s

lemma State.skip_of_ne {k : Token.Kind} (h : s.stream.peek.kind ≠ k) : s.skip k = s := if_neg h

lemma skip_eq_ok {k : Token.Kind} {u : Unit} : skip k s = .ok u s' ↔ s.skip k = s' := by
  rw [Parser.skip, State.skip, bind_peek]
  split
  · exact advance_eq_ok
  · simp [pure_eq_ok]

lemma expectName_eq_ok {name : String} :
    expectName s = .ok name s' ↔
      s.stream.peek.kind = .ident ∧ s.stream.peek.literal = name ∧ s.advance = s' := by
  rw [expectName, bind_eq_ok]
  simp only [expect_eq_ok, bind_current, pure_eq_ok]
  constructor
  · rintro ⟨_, _, ⟨hk, rfl⟩, hname, hs⟩
    exact ⟨hk, hname, hs⟩
  · rintro ⟨hk, hname, hs⟩
    exact ⟨(), _, ⟨hk, rfl⟩, hname, hs⟩

lemma moreNames_stop (h : s.stream.peek.kind ≠ .comma) (n : Nat) : moreNames n s = .ok [] s := by
  cases n with
  | zero => rfl
  | succ n =>
    rw [moreNames, bind_peek, if_neg h]
    rfl

lemma moreNames_comma (h : s.stream.peek.kind = .comma) {n : Nat} {names : List String} :
    moreNames (n + 1) s = .ok names s' ↔ s.advance.stream.peek.kind = .ident ∧
      ∃ rest, moreNames n s.advance.advance = .ok rest s' ∧
        names = s.advance.stream.peek.literal :: rest := by
  simp only [moreNames, bind_peek, h, if_true, bind_advance, expectName_eq_ok, bind_eq_ok,
    pure_eq_ok]
  grind

lemma params_rparen (h : s.stream.peek.kind = .rparen) (n : Nat) :
    params n s = .ok [] s.advance := by
  rw [params, bind_peek, if_pos h]
  rfl

lemma params_eq_ok (h : s.stream.peek.kind ≠ .rparen) {n : Nat} {names : List String} :
    params n s = .ok names s' ↔ s.stream.peek.kind = .ident ∧
      ∃ rest t, moreNames n s.advance = .ok rest t ∧ t.stream.peek.kind = .rparen ∧
        names = s.stream.peek.literal :: rest ∧ s' = t.advance := by
  simp only [params, bind_peek, h, if_false, expectName_eq_ok, expect_eq_ok, bind_eq_ok,
    pure_eq_ok]
  grind

section
variable {expr : Precedence → Parser Expr}

lemma statement_let (h : s.stream.current.kind = .kwLet) {stmt : Stmt} :
    statement expr s = .ok stmt s' ↔
      s.stream.peek.kind = .ident ∧ s.advance.stream.peek.kind = .assign ∧
        ∃ value t, expr .lowest s.advance.advance.advance = .ok value t ∧
          stmt = .define s.stream.peek.literal value ∧ s' = t.skip .semicolon := by
  simp only [statement, bind_current, h, expectName_eq_ok, expect_eq_ok, bind_advance,
    bind_eq_ok, skip_eq_ok, pure_eq_ok]
  grind

lemma statement_return (h : s.stream.current.kind = .kwReturn) {stmt : Stmt} :
    statement expr s = .ok stmt s' ↔
      ∃ value t, expr .lowest s.advance = .ok value t ∧
        stmt = .ret value ∧ s' = t.skip .semicolon := by
  simp only [statement, bind_current, h, bind_advance, bind_eq_ok, skip_eq_ok, pure_eq_ok]
  grind

lemma statement_expr (hlet : s.stream.current.kind ≠ .kwLet)
    (hreturn : s.stream.current.kind ≠ .kwReturn) {stmt : Stmt} :
    statement expr s = .ok stmt s' ↔
      ∃ value t, expr .lowest s = .ok value t ∧
        stmt = .expr value ∧ s' = t.skip .semicolon := by
  simp only [statement, bind_current, bind_eq_ok, skip_eq_ok, pure_eq_ok]
  grind

lemma statements_stop (h : s.stream.current.kind = .rbrace ∨ s.stream.current.kind = .eof)
    (n : Nat) : statements expr n s = .ok [] s := by
  cases n with
  | zero => rfl
  | succ n =>
    rw [statements, bind_current, if_pos h]
    rfl

lemma statements_succ (h : ¬(s.stream.current.kind = .rbrace ∨ s.stream.current.kind = .eof))
    {n : Nat} {body : List Stmt} :
    statements expr (n + 1) s = .ok body s' ↔
      ∃ stmt t rest, statement expr s = .ok stmt t ∧ statements expr n t.advance = .ok rest s' ∧
        body = stmt :: rest := by
  simp only [statements, bind_current, h, if_false, bind_advance, bind_eq_ok, pure_eq_ok]
  grind

lemma block_apply (n : Nat) : block expr n s = statements expr n s.advance := rfl

lemma moreArgs_stop (h : s.stream.peek.kind ≠ .comma) (n : Nat) :
    moreArgs expr n s = .ok [] s := by
  cases n with
  | zero => rfl
  | succ n =>
    rw [moreArgs, bind_peek, if_neg h]
    rfl

lemma moreArgs_comma (h : s.stream.peek.kind = .comma) {n : Nat} {args : List Expr} :
    moreArgs expr (n + 1) s = .ok args s' ↔
      ∃ arg t rest, expr .lowest s.advance.advance = .ok arg t ∧
        moreArgs expr n t = .ok rest s' ∧ args = arg :: rest := by
  simp only [moreArgs, bind_peek, h, if_true, bind_advance, bind_eq_ok, pure_eq_ok]
  grind

lemma args_rparen (h : s.stream.peek.kind = .rparen) (n : Nat) :
    args expr n s = .ok [] s.advance := by
  rw [args, bind_peek, if_pos h]
  rfl

lemma args_eq_ok (h : s.stream.peek.kind ≠ .rparen) {n : Nat} {list : List Expr} :
    args expr n s = .ok list s' ↔
      ∃ arg t rest u, expr .lowest s.advance = .ok arg t ∧ moreArgs expr n t = .ok rest u ∧
        u.stream.peek.kind = .rparen ∧ list = arg :: rest ∧ s' = u.advance := by
  simp only [args, bind_peek, h, if_false, bind_advance, expect_eq_ok, bind_eq_ok, pure_eq_ok]
  grind

lemma argsOrNone_eq_ok {n : Nat} {list : List Expr} :
    argsOrNone expr n s = .ok list s' ↔ args expr n s = .ok list s' ∨
      ∃ e t, args expr n s = .error e t ∧ list = [] ∧ s' = t.record e := by
  change EStateM.tryCatch (args expr n) _ s = _ ↔ _
  unfold EStateM.tryCatch
  cases h : args expr n s with
  | ok a t => simp
  | error e t =>
    change EStateM.Result.ok [] (t.record e) = .ok list s' ↔ _
    simp [eq_comm]

lemma grouped_eq_ok {e : Expr} :
    grouped expr s = .ok e s' ↔
      ∃ t, expr .lowest s.advance = .ok e t ∧ t.stream.peek.kind = .rparen ∧ s' = t.advance := by
  simp only [grouped, bind_advance, expect_eq_ok, bind_eq_ok, pure_eq_ok]
  grind

lemma branch_stop (h : s.stream.peek.kind ≠ .kwElse) (n : Nat) : branch expr n s = .ok none s := by
  rw [branch, bind_peek, if_neg h]
  rfl

lemma branch_else (h : s.stream.peek.kind = .kwElse) {n : Nat} {no : Option Block} :
    branch expr n s = .ok no s' ↔ s.advance.stream.peek.kind = .lbrace ∧
      ∃ body, statements expr n s.advance.advance.advance = .ok body s' ∧ no = some body := by
  simp only [branch, bind_peek, h, if_true, bind_advance, expect_eq_ok, bind_eq_ok, pure_eq_ok,
    block_apply]
  grind

lemma conditional_eq_ok {n : Nat} {e : Expr} :
    conditional expr n s = .ok e s' ↔ s.stream.peek.kind = .lparen ∧
      ∃ test t, expr .lowest s.advance.advance = .ok test t ∧ t.stream.peek.kind = .rparen ∧
        t.advance.stream.peek.kind = .lbrace ∧
        ∃ yes u, statements expr n t.advance.advance.advance = .ok yes u ∧
          ∃ no, branch expr n u = .ok no s' ∧ e = .cond test yes no := by
  simp only [conditional, bind_advance, expect_eq_ok, bind_eq_ok, pure_eq_ok, block_apply]
  grind

lemma function_eq_ok {n : Nat} {e : Expr} :
    function expr n s = .ok e s' ↔ s.stream.peek.kind = .lparen ∧
      ∃ names t, params n s.advance = .ok names t ∧ t.stream.peek.kind = .lbrace ∧
        ∃ body, statements expr n t.advance.advance = .ok body s' ∧ e = .function names body := by
  simp only [function, expect_eq_ok, bind_eq_ok, pure_eq_ok, block_apply]
  grind

lemma operand_unary {op : UnaryOp} (h : UnaryOp.ofKind? s.stream.current.kind = some op) {n : Nat}
    {e : Expr} :
    operand expr n s = .ok e s' ↔
      ∃ inner, expr .unary s.advance = .ok inner s' ∧ e = .unary op inner := by
  simp only [operand, bind_current, h, bind_advance, bind_eq_ok, pure_eq_ok]
  grind

lemma operand_ident (h : s.stream.current.kind = .ident) (n : Nat) :
    operand expr n s = .ok (.ident s.stream.current.literal) s := by
  simp only [operand, bind_current, h, UnaryOp.ofKind?]
  rfl

lemma operand_string (h : s.stream.current.kind = .string) (n : Nat) :
    operand expr n s = .ok (.str s.stream.current.literal) s := by
  simp only [operand, bind_current, h, UnaryOp.ofKind?]
  rfl

lemma operand_true (h : s.stream.current.kind = .kwTrue) (n : Nat) :
    operand expr n s = .ok (.bool true) s := by
  simp only [operand, bind_current, h, UnaryOp.ofKind?]
  rfl

lemma operand_false (h : s.stream.current.kind = .kwFalse) (n : Nat) :
    operand expr n s = .ok (.bool false) s := by
  simp only [operand, bind_current, h, UnaryOp.ofKind?]
  rfl

/-- The number that the digits of a literal stand for. -/
def digitsValue (literal : String) : Nat := Nat.ofDigitChars 10 literal.toList 0

lemma operand_int (h : s.stream.current.kind = .int) {n : Nat} {e : Expr} :
    operand expr n s = .ok e s' ↔ digitsValue s.stream.current.literal < intBound ∧
      e = .int (Int64.ofNat (digitsValue s.stream.current.literal)) ∧ s' = s := by
  simp only [operand, bind_current, h, UnaryOp.ofKind?, intLiteral, digitsValue]
  split
  · next hlt =>
    simp only [pure_eq_ok, hlt, true_and]
    exact and_congr eq_comm eq_comm
  · next hlt => simp [throw_ne_ok, hlt]

lemma operand_lparen (h : s.stream.current.kind = .lparen) (n : Nat) :
    operand expr n s = grouped expr s := by
  simp only [operand, bind_current, h, UnaryOp.ofKind?]

lemma operand_if (h : s.stream.current.kind = .kwIf) (n : Nat) :
    operand expr n s = conditional expr n s := by
  simp only [operand, bind_current, h, UnaryOp.ofKind?]

lemma operand_fn (h : s.stream.current.kind = .kwFn) (n : Nat) :
    operand expr n s = function expr n s := by
  simp only [operand, bind_current, h, UnaryOp.ofKind?]

/-- What an expression starts with decides how its first operand is read. -/
lemma kind_of_operand_eq_ok {n : Nat} {e : Expr} (h : operand expr n s = .ok e s') :
    (∃ op, UnaryOp.ofKind? s.stream.current.kind = some op) ∨
      s.stream.current.kind ∈ [Token.Kind.ident, .int, .string, .kwTrue, .kwFalse, .lparen, .kwIf,
        .kwFn] := by
  cases hk : s.stream.current.kind <;> simp_all [operand, UnaryOp.ofKind?, noOperand_ne_ok]

lemma extend_stop {min : Precedence} (h : ¬min < .ofKind s.stream.peek.kind) (n : Nat)
    (left : Expr) : extend expr min n left s = .ok left s := by
  cases n with
  | zero => rfl
  | succ n =>
    rw [extend, bind_peek, if_neg h]
    rfl

lemma extend_call {min : Precedence} (h : s.stream.peek.kind = .lparen) (hmin : min < .call)
    (n : Nat) (left : Expr) :
    extend expr min (n + 1) left s =
      (argsOrNone expr n >>= fun list => extend expr min n (.call left list)) s.advance := by
  rw [extend, bind_peek, if_pos (by rw [h]; exact hmin), if_pos h, bind_advance]

lemma extend_binary {min : Precedence} {op : BinaryOp}
    (h : BinaryOp.ofKind? s.stream.peek.kind = some op) (hmin : min < .ofKind s.stream.peek.kind)
    (n : Nat) (left : Expr) :
    extend expr min (n + 1) left s =
      (expr (.ofKind s.stream.peek.kind) >>= fun right =>
        extend expr min n (.binary op left right)) s.advance.advance := by
  have hne : s.stream.peek.kind ≠ .lparen := by
    intro hk
    rw [hk] at h
    contradiction
  simp only [extend, bind_peek, if_pos hmin, if_neg hne, h, bind_advance]

/-- Only a parenthesis and binary operators bind at all. -/
lemma kind_of_lt_ofKind {min : Precedence} {k : Token.Kind} (h : min < .ofKind k) :
    k = .lparen ∨ ∃ op, BinaryOp.ofKind? k = some op := by
  cases k <;> first
    | exact .inl rfl
    | exact .inr ⟨_, rfl⟩
    | exact absurd h (Nat.not_lt_zero _)

end

/-- The loop over operators and calls takes over from the first operand. -/
lemma expression_of_operand {t : State} {n : Nat} {e : Expr}
    (h : operand (expression n) n s = .ok e t) (min : Precedence) :
    expression (n + 1) min s = extend (expression n) min n e t := bind_of_ok h _

lemma programUpTo_of_eof {s : State} (h : s.stream.current.kind = .eof) (n : Nat) :
    programUpTo n s = ([], s) := by
  cases n with
  | zero => rfl
  | succ n => rw [programUpTo, if_pos h]

lemma programUpTo_of_ok {s t : State} {n : Nat} {stmt : Stmt} (h : s.stream.current.kind ≠ .eof)
    (hstmt : statement (expression (n + 1)) s = .ok stmt t) : programUpTo (n + 1) s =
      (stmt :: (programUpTo n t.advance).1, (programUpTo n t.advance).2) := by
  rw [programUpTo, if_neg h, hstmt]

lemma programUpTo_of_error {s t : State} {n : Nat} {e : ParseError}
    (h : s.stream.current.kind ≠ .eof)
    (hstmt : statement (expression (n + 1)) s = .error e t) :
    programUpTo (n + 1) s = programUpTo n (t.record e).advance := by
  rw [programUpTo, if_neg h, hstmt]

end Parser
end Monkey
