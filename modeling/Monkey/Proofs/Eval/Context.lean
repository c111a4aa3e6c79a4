import Mathlib.Tactic.Common
import Monkey.Eval.Machine

/-! A `return` or an error ends all that is being evaluated around it. Contexts are phrases with a
hole for an expression. If evaluation gets to the hole, and what stands there gives such a value,
then the whole phrase gives this very value, and the machine is left as it is then. -/
namespace Monkey

/-- The sorts of program text that are evaluated. -/
inductive Phrase where
  | expr | stmt | block
  deriving DecidableEq, Repr

abbrev Phrase.Term : Phrase → Type
  | expr => Expr
  | stmt => Stmt
  | block => List Stmt

/-- A phrase with a hole, which does not stand in the body of a function. -/
inductive Context : Phrase → Type
  | hole : Context .expr
  | operand (op : UnaryOp) (c : Context .expr) : Context .expr
  | left (op : BinaryOp) (c : Context .expr) (r : Expr) : Context .expr
  | right (op : BinaryOp) (l : Expr) (c : Context .expr) : Context .expr
  | test (c : Context .expr) (yes : List Stmt) (no : Option (List Stmt)) : Context .expr
  | yes (test : Expr) (c : Context .block) (no : Option (List Stmt)) : Context .expr
  | no (test : Expr) (yes : List Stmt) (c : Context .block) : Context .expr
  | callee (c : Context .expr) (args : List Expr) : Context .expr
  | arg (f : Expr) (before : List Expr) (c : Context .expr) (after : List Expr) : Context .expr
  | define (name : String) (c : Context .expr) : Context .stmt
  | ret (c : Context .expr) : Context .stmt
  | expr (c : Context .expr) : Context .stmt
  | block (c : Context .block) : Context .stmt
  | statement (before : List Stmt) (c : Context .stmt) (after : List Stmt) : Context .block

/-- The phrase with `x` in its hole. -/
def Context.fill (x : Expr) {p : Phrase} : Context p → p.Term
  | .hole => x
  | .operand op c => Expr.unary op (c.fill x)
  | .left op c r => Expr.binary op (c.fill x) r
  | .right op l c => Expr.binary op l (c.fill x)
  | .test c body other => Expr.cond (c.fill x) body other
  | .yes e c other => Expr.cond e (c.fill x) other
  | .no e body c => Expr.cond e body (some (c.fill x))
  | .callee c args => Expr.call (c.fill x) args
  | .arg f before c after => Expr.call f (before ++ c.fill x :: after)
  | .define name c => Stmt.define name (c.fill x)
  | .ret c => Stmt.ret (c.fill x)
  | .expr c => Stmt.expr (c.fill x)
  | .block c => Stmt.block (c.fill x)
  | .statement before c after => before ++ c.fill x :: after

/-- One after the other gives an ordinary value. -/
inductive Completes {α : Type} (eval : α → Eval Value) : List α → Machine → Machine → Prop
  | nil {m : Machine} : Completes eval [] m m
  | cons {a : α} {rest : List α} {m m₁ n : Machine} {v : Value} (ha : eval a m = some (v, m₁))
      (hv : v.isAbrupt = false) (hrest : Completes eval rest m₁ n) : Completes eval (a :: rest) m n

section
variable (call : Closure → List Value → Eval Value)

def Phrase.eval : (p : Phrase) → p.Term → Eval Value
  | .expr, e => Expr.eval call e
  | .stmt, s => Stmt.eval call s
  | .block, body => evalBlock call body .null

/-- Evaluation that starts in the one machine gets to the hole in the other: what it meets before
gives ordinary values, and of two branches it takes the one with the hole. -/
inductive Context.Arrives : {p : Phrase} → Context p → Machine → Machine → Prop
  | hole {m : Machine} : Arrives .hole m m
  | operand {op : UnaryOp} {c : Context .expr} {m n : Machine} (hc : Arrives c m n) :
      Arrives (.operand op c) m n
  | left {op : BinaryOp} {c : Context .expr} {r : Expr} {m n : Machine} (hc : Arrives c m n) :
      Arrives (.left op c r) m n
  | right {op : BinaryOp} {l : Expr} {c : Context .expr} {m m₁ n : Machine} {v : Value}
      (hl : l.eval call m = some (v, m₁)) (hv : v.isAbrupt = false) (hc : Arrives c m₁ n) :
      Arrives (.right op l c) m n
  | test {c : Context .expr} {yes : List Stmt} {no : Option (List Stmt)} {m n : Machine}
      (hc : Arrives c m n) : Arrives (.test c yes no) m n
  | yes {test : Expr} {c : Context .block} {no : Option (List Stmt)} {m m₁ n : Machine} {v : Value}
      (htest : test.eval call m = some (v, m₁)) (hv : v.isAbrupt = false)
      (htrue : v.isTruthy = true) (hc : Arrives c m₁ n) : Arrives (.yes test c no) m n
  | no {test : Expr} {yes : List Stmt} {c : Context .block} {m m₁ n : Machine} {v : Value}
      (htest : test.eval call m = some (v, m₁)) (hv : v.isAbrupt = false)
      (hfalse : v.isTruthy = false) (hc : Arrives c m₁ n) : Arrives (.no test yes c) m n
  | callee {c : Context .expr} {args : List Expr} {m n : Machine} (hc : Arrives c m n) :
      Arrives (.callee c args) m n
  | arg {f : Expr} {before after : List Expr} {c : Context .expr} {m m₁ m₂ n : Machine} {v : Value}
      (hf : f.eval call m = some (v, m₁)) (hv : v.isAbrupt = false)
      (hbefore : Completes (Expr.eval call) before m₁ m₂) (hc : Arrives c m₂ n) :
      Arrives (.arg f before c after) m n
  | define {name : String} {c : Context .expr} {m n : Machine} (hc : Arrives c m n) :
      Arrives (.define name c) m n
  | ret {c : Context .expr} {m n : Machine} (hc : Arrives c m n) : Arrives (.ret c) m n
  | expr {c : Context .expr} {m n : Machine} (hc : Arrives c m n) : Arrives (.expr c) m n
  | block {c : Context .block} {m n : Machine} (hc : Arrives c m n) : Arrives (.block c) m n
  | statement {before after : List Stmt} {c : Context .stmt} {m m₁ n : Machine}
      (hbefore : Completes (Stmt.eval call) before m m₁) (hc : Arrives c m₁ n) :
      Arrives (.statement before c after) m n

end

section
variable {call : Closure → List Value → Eval Value} {m m₁ n : Machine} {v : Value}

/-- The arguments behind one that ends the evaluation are not evaluated. -/
lemma evalArgs_of_abrupt {before : List Expr} (hbefore : Completes (Expr.eval call) before m m₁)
    {e : Expr} (he : e.eval call m₁ = some (v, n)) (hv : v.isAbrupt = true) (after : List Expr) :
    evalArgs call (before ++ e :: after) m = some (.error v, n) := by
  induction hbefore with
  | @nil m =>
    change (e.eval call m).bind _ = _
    rw [he]
    change (if v.isAbrupt then _ else _ : Eval _) n = _
    rw [hv]
    rfl
  | @cons a rest m m₁ m₂ u ha hu hrest ih =>
    change (a.eval call m).bind _ = _
    rw [ha]
    change (if u.isAbrupt then _ else _ : Eval _) m₁ = _
    rw [hu]
    change (evalArgs call (rest ++ e :: after) m₁).bind _ = _
    rw [ih he]
    rfl

/-- Nor are the statements behind such a one. -/
lemma evalBlock_of_abrupt {before : List Stmt} (hbefore : Completes (Stmt.eval call) before m m₁)
    {s : Stmt} (hs : s.eval call m₁ = some (v, n)) (hv : v.isAbrupt = true) (after : List Stmt)
    (last : Value) : evalBlock call (before ++ s :: after) last m = some (v, n) := by
  induction hbefore generalizing last with
  | nil => exact Eval.andThen_of_abrupt hs hv _
  | @cons a rest m m₁ m₂ u ha hu hrest ih =>
    exact (Eval.andThen_of_ordinary ha hu _).trans (ih hs u)

/-- What ends the evaluation of an expression ends the evaluation of every phrase around it, with
the same value and in the same machine. -/
theorem Context.eval_fill_of_abrupt {p : Phrase} (c : Context p) (x : Expr) {start here : Machine}
    (harrives : c.Arrives call start here) (hx : x.eval call here = some (v, n))
    (hv : v.isAbrupt = true) : p.eval call (c.fill x) start = some (v, n) := by
  induction harrives with
  | hole => exact hx
  | operand _ ih => exact Eval.andThen_of_abrupt (ih hx) hv _
  | left _ ih => exact Eval.andThen_of_abrupt (ih hx) hv _
  | right hl hu _ ih =>
    refine (Eval.andThen_of_ordinary hl hu _).trans ?_
    exact Eval.andThen_of_abrupt (ih hx) hv _
  | test _ ih => exact Eval.andThen_of_abrupt (ih hx) hv _
  | yes htest hu htrue _ ih =>
    refine (Eval.andThen_of_ordinary htest hu _).trans ?_
    rw [if_pos htrue]
    exact ih hx
  | no htest hu hfalse _ ih =>
    refine (Eval.andThen_of_ordinary htest hu _).trans ?_
    rw [if_neg (by rw [hfalse]; nofun)]
    exact ih hx
  | callee _ ih => exact Eval.andThen_of_abrupt (ih hx) hv _
  | @arg f before after c m m₁ m₂ n u hf hu hbefore _ ih =>
    refine (Eval.andThen_of_ordinary hf hu _).trans ?_
    change (evalArgs call _ m₁).bind _ = _
    rw [evalArgs_of_abrupt hbefore (ih hx) hv]
    rfl
  | define _ ih => exact Eval.andThen_of_abrupt (ih hx) hv _
  | ret _ ih => exact Eval.andThen_of_abrupt (ih hx) hv _
  | expr _ ih => exact ih hx
  | block _ ih => exact ih hx
  | statement hbefore _ ih => exact evalBlock_of_abrupt hbefore (ih hx) hv _ _

end

/-- A hole on the right of an operator, inside the second argument of a call whose value is to be
defined, with something to print before, between and behind. -/
def Context.betweenPrints : Context .block :=
  let puts (text : String) : Expr := .call (.ident "puts") [.str text]
  .statement [.expr (puts "a")]
    (.define "y" (.arg (.ident "len") [puts "b"] (.operand .not (.right .add (.int 1) .hole))
      [puts "c"]))
    [.expr (puts "d")]

/-- A `return` in that hole leaves what stands behind it unprinted, and the name undefined. -/
theorem Context.eval_fill_of_abrupt_betweenPrints :
    ∃ here n, Arrives (Closure.call .eager 1) betweenPrints (.start .working) here ∧
      Phrase.eval (Closure.call .eager 1) .block
          (betweenPrints.fill (.cond (.bool true) [.ret (.int 7)] none)) (.start .working) =
        some (.returned (.int 7), n) ∧
      n.sink.text = "a\nb\n" ∧ n.heap.lookup n.scope "y" = none := by
  have harrives : ∃ here,
      Arrives (Closure.call .eager 1) betweenPrints (.start .working) here ∧
      here.sink.text = "a\nb\n" ∧ here.heap.lookup here.scope "y" = none :=
    ⟨_, .statement (.cons rfl rfl .nil) (.define (.arg rfl rfl (.cons rfl rfl .nil)
      (.operand (.right rfl rfl .hole)))), rfl, rfl⟩
  obtain ⟨here, harrives, htext, hy⟩ := harrives
  exact ⟨here, here, harrives, eval_fill_of_abrupt _ _ harrives rfl rfl, htext, hy⟩

end Monkey
