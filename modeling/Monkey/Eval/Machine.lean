import Monkey.Eval.Builtin
import Monkey.Scope.Reclaim
import Monkey.Value.Operator

/-! Evaluation by recursion on the program. Only calls leave the program text, so a bound on the
depth of calls is all that evaluation needs to end. -/
namespace Monkey

structure Machine where
  heap : Heap
  /-- The scope that the program is in. -/
  scope : ScopeId
  /-- The identity of the next function. -/
  fresh : Nat
  sink : Sink
  deriving DecidableEq

def Machine.start (sink : Sink) : Machine := ⟨.empty, .global, 0, sink⟩

/-- A computation that changes the machine. It has no outcome if calls go too deep. -/
abbrev Eval := StateT Machine Option

namespace Eval

/-- Goes on with an ordinary value; `return` and errors pass through. -/
def andThen (x : Eval Value) (f : Value → Eval Value) : Eval Value := do
  let v ← x
  if v.isAbrupt then return v else f v

theorem andThen_of_abrupt {x : Eval Value} {m n : Machine} {v : Value} (hx : x m = some (v, n))
    (hv : v.isAbrupt = true) (f : Value → Eval Value) : x.andThen f m = some (v, n) := by
  change (x m).bind _ = _
  rw [hx]
  change (if v.isAbrupt then _ else _ : Eval Value) n = _
  rw [hv]
  rfl

theorem andThen_of_ordinary {x : Eval Value} {m n : Machine} {v : Value} (hx : x m = some (v, n))
    (hv : v.isAbrupt = false) (f : Value → Eval Value) : x.andThen f m = f v n := by
  change (x m).bind _ = _
  rw [hx]
  change (if v.isAbrupt then _ else _ : Eval Value) n = _
  rw [hv]
  rfl

/-- A name means its nearest binding, then a builtin. -/
def resolve (name : String) : Eval Value := do
  let m ← get
  match m.heap.lookup m.scope name with
  | some v => return v
  | none =>
    match Builtin.ofName? name with
    | some b => return .builtin b
    | none => return .error (.unbound name)

def define (name : String) (value : Value) : Eval Value := do
  modify fun m => { m with heap := m.heap.bind m.scope name value }
  return .null

/-- A new function of the current scope. -/
def close (params : List String) (body : Block) : Eval Value := do
  let m ← get
  set { m with fresh := m.fresh + 1 }
  return .function ⟨m.fresh, params, body, m.scope⟩

def applyBuiltin (b : Builtin) (args : List Value) : Eval Value := do
  let m ← get
  let (answer, sink) := b.apply args m.sink
  set { m with sink }
  match answer with
  | .ok v => return v
  | .error cause => return .error cause

/-- What the end of a call needs from its start. -/
structure Frame where
  caller : ScopeId
  mark : Nat
  deriving DecidableEq, Repr

/-- Moves into a new scope inside the one that `c` was made in, which binds the parameters. -/
def enter (c : Closure) (args : List Value) : Eval Frame :=
  modifyGet fun m =>
    let frame := ⟨m.scope, m.heap.mark⟩
    let (scope, heap) := m.heap.alloc c.scope
    (frame, { m with heap := heap.bindAll scope (c.params.zip args), scope })

/-- Moves back to the scope of the caller and frees what the call made, as far as the result does
not reach it. -/
def leave (policy : Reclamation) (frame : Frame) (result : Value) : Eval Unit :=
  modify fun m =>
    { m with heap := policy.afterCall m.heap frame.mark result, scope := frame.caller }

/-- Runs the body of `c` in a scope of its own. One `return` is unwrapped. -/
def runIn (policy : Reclamation) (c : Closure) (args : List Value) (body : Eval Value) :
    Eval Value := do
  let frame ← enter c args
  let result := (← body).unwrap
  leave policy frame result
  return result

/-- Applies a value to arguments; `call` runs the body of a function. -/
def apply (call : Closure → List Value → Eval Value) (callee : Value) (args : List Value) :
    Eval Value :=
  match callee with
  | .function c =>
    if args.length = c.params.length then call c args
    else return .error (.wrongArgCount c.params.length args.length)
  | .builtin b => applyBuiltin b args
  | v => return .error (.notCallable v.tag)

end Eval

section
variable (call : Closure → List Value → Eval Value)

mutual

def Expr.eval : Expr → Eval Value
  | .ident name => .resolve name
  | .int value => return .int value
  | .str value => return .str value
  | .bool value => return .bool value
  | .unary op operand => (operand.eval).andThen fun v => return op.apply v
  | .binary op left right =>
    (left.eval).andThen fun l => (right.eval).andThen fun r => return op.apply l r
  | .cond test yes no =>
    (test.eval).andThen fun v => if v.isTruthy then evalBlock yes .null else evalElse no
  | .function params body => .close params body
  | .call callee args =>
    (callee.eval).andThen fun f => do
      match ← evalArgs args with
      | .ok vs => .apply call f vs
      | .error v => return v

def Stmt.eval : Stmt → Eval Value
  | .define name value => (value.eval).andThen fun v => .define name v
  | .ret value => (value.eval).andThen fun v => return .returned v
  | .expr value => value.eval
  | .block body => evalBlock body .null

/-- The value of the last statement, or `last` if there is none. -/
def evalBlock : List Stmt → Value → Eval Value
  | [], last => return last
  | s :: rest, _ => (s.eval).andThen fun v => evalBlock rest v

def evalElse : Option (List Stmt) → Eval Value
  | none => return .null
  | some body => evalBlock body .null

/-- The values from left to right, or the first that ends the evaluation. -/
def evalArgs : List Expr → Eval (Except Value (List Value))
  | [] => return .ok []
  | e :: rest => do
    let v ← e.eval
    if v.isAbrupt then return .error v
    else return (v :: ·) <$> (← evalArgs rest)

end
end

/-- Calls nested no deeper than the bound. -/
def Closure.call (policy : Reclamation) : Nat → Closure → List Value → Eval Value
  | 0, _, _ => failure
  | depth + 1, c, args =>
    .runIn policy c args (evalBlock (Closure.call policy depth) c.body .null)

/-- The value of a program, which a `return` can give early; afterwards all scopes that neither
the global one nor the value reaches are freed. -/
def Program.eval (policy : Reclamation) (depth : Nat) (program : Program) : Eval Value := do
  let result := (← evalBlock (Closure.call policy depth) program .null).unwrap
  modify fun m => { m with heap := policy.afterProgram m.heap result }
  return result

/-- Calls may nest this deep. -/
def callDepthLimit : Nat := 1000000

def Machine.run (m : Machine) (program : Program) : Option (Value × Machine) :=
  (program.eval .eager callDepthLimit).run m

end Monkey
