import Monkey.Proofs.Eval.Visit
import Monkey.Proofs.Scope.Stored

/-! `return` and errors go nowhere but outwards. Evaluation is compared with a checked one, which
stops as soon as such a value is used: as an operand, a condition, a callee or an argument, in a
binding, or inside another `return`. It also stops when an application or a program ends in a
`return`. It never does stop. -/
namespace Monkey

/-- What a value can be used for. -/
inductive Use where
  | operand | condition | callee | argument | binding | wrapping | application | answer
  deriving DecidableEq, Repr

/-- An evaluation that stops where a value is used that must not be. -/
abbrev Checked := StateT Machine (ExceptT Use Option)

namespace Checked

variable {α β : Type}

def lift (x : Eval α) : Checked α := fun m => ExceptT.mk ((x m).map .ok)

def demand (use : Use) (fits : Bool) : Checked Unit := if fits then return () else throw use

/-- No error is among the values, and nothing that `return` carries. -/
def ordinary (use : Use) (values : List Value) : Checked Unit :=
  demand use (values.all fun v => !v.isAbrupt)

/-- The value is not carried by `return` any more. -/
def arrived (use : Use) (v : Value) : Checked Unit := demand use (v.tag != .returned)

def andThen (x : Checked Value) (f : Value → Checked Value) : Checked Value := do
  let v ← x
  if v.isAbrupt then return v else f v

def unary (op : UnaryOp) (v : Value) : Checked Value := do
  ordinary .operand [v]
  return op.apply v

def binary (op : BinaryOp) (left right : Value) : Checked Value := do
  ordinary .operand [left, right]
  return op.apply left right

def truth (v : Value) : Checked Bool := do
  ordinary .condition [v]
  return v.isTruthy

def wrap (v : Value) : Checked Value := do
  ordinary .wrapping [v]
  return .returned v

def define (name : String) (v : Value) : Checked Value := do
  ordinary .binding [v]
  lift (.define name v)

def enter (c : Closure) (args : List Value) : Checked Eval.Frame := do
  ordinary .binding args
  lift (.enter c args)

def dispatch (call : Closure → List Value → Checked Value) (callee : Value) (args : List Value) :
    Checked Value :=
  match callee with
  | .function c =>
    if args.length = c.params.length then call c args
    else return .error (.wrongArgCount c.params.length args.length)
  | .builtin b => lift (.applyBuiltin b args)
  | v => return .error (.notCallable v.tag)

def apply (call : Closure → List Value → Checked Value) (callee : Value) (args : List Value) :
    Checked Value := do
  ordinary .callee [callee]
  ordinary .argument args
  let v ← dispatch call callee args
  arrived .application v
  return v

end Checked

section
variable (call : Closure → List Value → Checked Value)

mutual

def Expr.check : Expr → Checked Value
  | .ident name => .lift (.resolve name)
  | .int value => return .int value
  | .str value => return .str value
  | .bool value => return .bool value
  | .unary op operand => (operand.check).andThen fun v => .unary op v
  | .binary op left right =>
    (left.check).andThen fun l => (right.check).andThen fun r => .binary op l r
  | .cond test yes no =>
    (test.check).andThen fun v => do
      if ← Checked.truth v then checkBlock yes .null else checkElse no
  | .function params body => .lift (.close params body)
  | .call callee args =>
    (callee.check).andThen fun f => do
      match ← checkArgs args with
      | .ok vs => .apply call f vs
      | .error v => return v

def Stmt.check : Stmt → Checked Value
  | .define name value => (value.check).andThen fun v => .define name v
  | .ret value => (value.check).andThen fun v => .wrap v
  | .expr value => value.check
  | .block body => checkBlock body .null

def checkBlock : List Stmt → Value → Checked Value
  | [], last => return last
  | s :: rest, _ => (s.check).andThen fun v => checkBlock rest v

def checkElse : Option (List Stmt) → Checked Value
  | none => return .null
  | some body => checkBlock body .null

def checkArgs : List Expr → Checked (Except Value (List Value))
  | [] => return .ok []
  | e :: rest => do
    let v ← e.check
    if v.isAbrupt then return .error v
    else return (v :: ·) <$> (← checkArgs rest)

end
end

def Closure.check : Nat → Closure → List Value → Checked Value
  | 0, _, _ => .lift failure
  | depth + 1, c, args => do
    let frame ← Checked.enter c args
    let result := (← checkBlock (Closure.check depth) c.body .null).unwrap
    Checked.lift (.leave .eager frame result)
    return result

def Program.check (depth : Nat) (program : Program) : Checked Value := do
  let result := (← checkBlock (Closure.check depth) program .null).unwrap
  modify fun m => { m with heap := m.heap.reclaim result }
  Checked.arrived .answer result
  return result

/-! ### Scopes that bind ordinary values -/

/-- Neither an error nor carried by `return`; or carried once. -/
def Value.isOutcome : Value → Bool
  | returned v => !v.isAbrupt
  | _ => true

namespace Heap

/-- No error is bound, and nothing that `return` carries. -/
def Ordinary (h : Heap) : Prop :=
  ∀ id s, h.scope? id = some s → ∀ b ∈ s.bindings, b.2.isAbrupt = false

variable {h : Heap}

lemma ordinary_iff : h.Ordinary ↔ ∀ v ∈ h.values, v.isAbrupt = false := by
  constructor
  · intro hh v hv
    obtain ⟨id, s, hs, b, hb, rfl⟩ := mem_values_iff.mp hv
    exact hh id s hs b hb
  · exact fun hh id s hs b hb => hh b.2 (mem_values_iff.mpr ⟨id, s, hs, b, hb, rfl⟩)

lemma ordinary_empty : empty.Ordinary := by
  rw [ordinary_iff, values_empty]
  exact List.forall_mem_nil _

lemma Ordinary.bind (hh : h.Ordinary) {v : Value} (hv : v.isAbrupt = false) (id : ScopeId)
    (name : String) : (h.bind id name v).Ordinary := by
  rw [ordinary_iff] at hh ⊢
  intro w hw
  rcases mem_values_bind hw with rfl | hw
  · exact hv
  · exact hh w hw

lemma Ordinary.bindAll (hh : h.Ordinary) (id : ScopeId) {bindings : List (String × Value)}
    (hb : ∀ b ∈ bindings, b.2.isAbrupt = false) : (h.bindAll id bindings).Ordinary := by
  rw [ordinary_iff] at hh ⊢
  intro w hw
  rcases mem_values_bindAll hw with ⟨b, hmem, rfl⟩ | hw
  · exact hb b hmem
  · exact hh w hw

lemma Ordinary.alloc (hh : h.Ordinary) (outer : ScopeId) : (h.alloc outer).2.Ordinary := by
  rw [ordinary_iff] at hh ⊢
  exact fun w hw => hh w (mem_values_alloc hw)

lemma Ordinary.sweep (hh : h.Ordinary) (mark : Nat) (roots : List Value) :
    (h.sweep mark roots).Ordinary := by
  rw [ordinary_iff] at hh ⊢
  exact fun w hw => hh w (mem_values_sweep hw)

lemma Ordinary.lookup (hh : h.Ordinary) {id : ScopeId} {name : String} {v : Value}
    (hv : h.lookup id name = some v) : v.isAbrupt = false :=
  ordinary_iff.mp hh v (mem_values_of_lookup hv)

end Heap

namespace Value

variable {v : Value}

lemma isOutcome_of_ordinary (h : v.isAbrupt = false) : v.isOutcome = true := by
  cases v <;> first | rfl | cases h

lemma isOutcome_of_arrived (h : v.tag ≠ .returned) : v.isOutcome = true := by
  cases v <;> first | rfl | exact absurd rfl h

/-- One `return` is all there is to unwrap. -/
lemma arrived_unwrap (h : v.isOutcome = true) : v.unwrap.tag ≠ .returned := by
  cases v with
  | returned w =>
    cases w with
    | returned => cases h
    | _ => nofun
  | _ => nofun

end Value

/-! ### Agreement -/

namespace Checked

variable {α β : Type} {R : α → Prop} {R' : β → Prop}

/-- From machines whose scopes bind ordinary values: the checked evaluation does not stop and gives
what the other gives, an answer with the property in a machine of the same kind. -/
def Agrees (R : α → Prop) (x : Eval α) (y : Checked α) : Prop :=
  ∀ m : Machine, m.heap.Ordinary →
    (y m).run = (x m).map .ok ∧ ∀ a n, x m = some (a, n) → R a ∧ n.heap.Ordinary

lemma Agrees.pure {a : α} (h : R a) : Agrees R (Pure.pure a) (Pure.pure a) := by
  intro m hm
  refine ⟨rfl, fun b n heq => ?_⟩
  obtain ⟨rfl, rfl⟩ := Prod.mk.inj (Option.some.inj heq)
  exact ⟨h, hm⟩

lemma Agrees.lift {x : Eval α} (h : ∀ m : Machine, m.heap.Ordinary → ∀ a n,
    x m = some (a, n) → R a ∧ n.heap.Ordinary) : Agrees R x (lift x) :=
  fun m hm => ⟨rfl, h m hm⟩

lemma Agrees.bind {x : Eval α} {y : Checked α} {f : α → Eval β} {g : α → Checked β}
    (h : Agrees R x y) (hfg : ∀ a, R a → Agrees R' (f a) (g a)) :
    Agrees R' (x >>= f) (y >>= g) := by
  intro m hm
  obtain ⟨hrun, hR⟩ := h m hm
  have hy : ((y >>= g) m).run = (y m).run.bind (ExceptT.bindCont fun r => g r.1 r.2) := rfl
  have hx : (x >>= f) m = (x m).bind fun r => f r.1 r.2 := rfl
  rw [hy, hx, hrun]
  cases hxm : x m with
  | none => exact ⟨rfl, nofun⟩
  | some r =>
    obtain ⟨hr, hn⟩ := hR r.1 r.2 hxm
    exact hfg r.1 hr r.2 hn

lemma Agrees.mono {P : α → Prop} {x : Eval α} {y : Checked α} (h : Agrees R x y)
    (hRP : ∀ a, R a → P a) : Agrees P x y := by
  intro m hm
  obtain ⟨hrun, hR⟩ := h m hm
  exact ⟨hrun, fun a n hx => ⟨hRP a (hR a n hx).1, (hR a n hx).2⟩⟩

lemma Agrees.andThen {x : Eval Value} {y : Checked Value} {f : Value → Eval Value}
    {g : Value → Checked Value} (h : Agrees (·.isOutcome = true) x y)
    (hfg : ∀ v, v.isAbrupt = false → Agrees (·.isOutcome = true) (f v) (g v)) :
    Agrees (·.isOutcome = true) (x.andThen f) (y.andThen g) := by
  refine h.bind fun v hv => ?_
  split
  · exact .pure hv
  · next hordinary => exact hfg v (Bool.eq_false_iff.mpr hordinary)

/-! Demands that are met do nothing. -/

section
variable {v w : Value} {vs : List Value} {use : Use}

lemma ordinary_bind (h : ∀ v ∈ vs, v.isAbrupt = false) (f : Unit → Checked β) :
    (ordinary use vs >>= f) = f () := by
  have hall : vs.all (fun v => !v.isAbrupt) = true :=
    List.all_eq_true.mpr fun v hv => by rw [h v hv]; rfl
  rw [ordinary, demand, if_pos hall, pure_bind]

lemma arrived_bind (h : v.tag ≠ .returned) (f : Unit → Checked β) :
    (arrived use v >>= f) = f () := by
  rw [arrived, demand, if_pos (bne_iff_ne.mpr h), pure_bind]

lemma unary_eq (op : UnaryOp) (h : v.isAbrupt = false) : unary op v = pure (op.apply v) :=
  ordinary_bind (List.forall_mem_singleton.mpr h) _

lemma binary_eq (op : BinaryOp) (hv : v.isAbrupt = false) (hw : w.isAbrupt = false) :
    binary op v w = pure (op.apply v w) :=
  ordinary_bind (List.forall_mem_cons.mpr ⟨hv, List.forall_mem_singleton.mpr hw⟩) _

lemma truth_eq (h : v.isAbrupt = false) : truth v = pure v.isTruthy :=
  ordinary_bind (List.forall_mem_singleton.mpr h) _

lemma wrap_eq (h : v.isAbrupt = false) : wrap v = pure (.returned v) :=
  ordinary_bind (List.forall_mem_singleton.mpr h) _

lemma define_eq (name : String) (h : v.isAbrupt = false) : define name v = lift (.define name v) :=
  ordinary_bind (List.forall_mem_singleton.mpr h) _

lemma enter_eq (c : Closure) (h : ∀ v ∈ vs, v.isAbrupt = false) :
    enter c vs = lift (.enter c vs) := ordinary_bind h _

end

/-! ### The parts of evaluation -/

lemma agrees_resolve (name : String) :
    Agrees (·.isOutcome = true) (.resolve name) (lift (.resolve name)) := by
  refine .lift fun m hm v n h => ?_
  rw [Eval.resolve_apply] at h
  obtain ⟨rfl, rfl⟩ := Prod.mk.inj (Option.some.inj h)
  refine ⟨?_, hm⟩
  cases hv : m.heap.lookup m.scope name with
  | some v => exact Value.isOutcome_of_ordinary (hm.lookup hv)
  | none => cases Builtin.ofName? name <;> rfl

lemma agrees_close (params : List String) (body : Block) :
    Agrees (·.isOutcome = true) (.close params body) (lift (.close params body)) := by
  refine .lift fun m hm v n h => ?_
  obtain ⟨rfl, rfl⟩ := Prod.mk.inj (Option.some.inj h)
  exact ⟨rfl, hm⟩

lemma agrees_define (name : String) {v : Value} (hv : v.isAbrupt = false) :
    Agrees (·.isOutcome = true) (.define name v) (define name v) := by
  rw [define_eq name hv]
  refine .lift fun m hm w n h => ?_
  obtain ⟨rfl, rfl⟩ := Prod.mk.inj (Option.some.inj h)
  exact ⟨rfl, hm.bind hv m.scope name⟩

lemma agrees_applyBuiltin (b : Builtin) (args : List Value) :
    Agrees (·.tag ≠ .returned) (.applyBuiltin b args) (lift (.applyBuiltin b args)) := by
  refine .lift fun m hm v n h => ?_
  rw [Eval.applyBuiltin_apply] at h
  obtain ⟨rfl, rfl⟩ := Prod.mk.inj (Option.some.inj h)
  refine ⟨?_, hm⟩
  split
  · next v hv => exact Value.tag_of_isPlain (Builtin.isPlain_of_apply hv)
  · nofun

lemma agrees_enter (c : Closure) {args : List Value} (h : ∀ v ∈ args, v.isAbrupt = false) :
    Agrees (fun _ => True) (.enter c args) (enter c args) := by
  rw [enter_eq c h]
  refine .lift fun m hm frame n heq => ?_
  obtain ⟨rfl, rfl⟩ := Prod.mk.inj (Option.some.inj heq)
  exact ⟨trivial, (hm.alloc c.scope).bindAll _ fun b hb => h b.2 (List.of_mem_zip hb).2⟩

lemma agrees_leave (frame : Eval.Frame) (v : Value) :
    Agrees (fun _ => True) (.leave .eager frame v) (lift (.leave .eager frame v)) := by
  refine .lift fun m hm _ n h => ?_
  obtain ⟨-, rfl⟩ := Prod.mk.inj (Option.some.inj h)
  exact ⟨trivial, hm.sweep frame.mark [v]⟩

section
variable {call : Closure → List Value → Eval Value} {check : Closure → List Value → Checked Value}

/-- Calls agree as long as the arguments are ordinary, and their value has arrived. -/
def Calls (call : Closure → List Value → Eval Value)
    (check : Closure → List Value → Checked Value) : Prop :=
  ∀ c args, (∀ v ∈ args, v.isAbrupt = false) → Agrees (·.tag ≠ .returned) (call c args)
    (check c args)

lemma agrees_dispatch (hcalls : Calls call check) (f : Value) {args : List Value}
    (hargs : ∀ v ∈ args, v.isAbrupt = false) :
    Agrees (·.tag ≠ .returned) (.apply call f args) (dispatch check f args) := by
  cases f with
  | function c =>
    rw [Eval.apply, dispatch]
    split
    · exact hcalls c args hargs
    · exact .pure (Value.tag_of_isPlain rfl)
  | builtin b => exact agrees_applyBuiltin b args
  | _ => exact .pure (Value.tag_of_isPlain rfl)

lemma agrees_apply (hcalls : Calls call check) {f : Value} {args : List Value}
    (hf : f.isAbrupt = false) (hargs : ∀ v ∈ args, v.isAbrupt = false) :
    Agrees (·.tag ≠ .returned) (.apply call f args) (apply check f args) := by
  rw [apply, ordinary_bind (List.forall_mem_singleton.mpr hf), ordinary_bind hargs,
    ← bind_pure (Eval.apply call f args)]
  refine (agrees_dispatch hcalls f hargs).bind fun v hv => ?_
  rw [arrived_bind hv]
  exact .pure hv

/-- Ordinary values of arguments, or the outcome that ended their evaluation. -/
def Arguments : Except Value (List Value) → Prop
  | .ok vs => ∀ v ∈ vs, v.isAbrupt = false
  | .error v => v.isOutcome = true

mutual

theorem agrees_expr (hcalls : Calls call check) :
    ∀ e : Expr, Agrees (·.isOutcome = true) (e.eval call) (e.check check)
  | .ident name => agrees_resolve name
  | .int value => .pure rfl
  | .str value => .pure rfl
  | .bool value => .pure rfl
  | .unary op operand => by
    refine (agrees_expr hcalls operand).andThen fun v hv => ?_
    rw [unary_eq op hv]
    exact .pure (Value.isOutcome_of_arrived (Value.tag_of_isPlain (Value.isPlain_unary op v)))
  | .binary op left right => by
    refine (agrees_expr hcalls left).andThen fun l hl => ?_
    refine (agrees_expr hcalls right).andThen fun r hr => ?_
    rw [binary_eq op hl hr]
    exact .pure (Value.isOutcome_of_arrived (Value.tag_of_isPlain (Value.isPlain_binary op l r)))
  | .cond test yes no => by
    refine (agrees_expr hcalls test).andThen fun v hv => ?_
    rw [truth_eq hv, pure_bind]
    split
    · exact agrees_block hcalls yes rfl
    · exact agrees_else hcalls no
  | .function params body => agrees_close params body
  | .call callee args => by
    refine (agrees_expr hcalls callee).andThen fun f hf => ?_
    refine (agrees_args hcalls args).bind fun x hx => ?_
    match x, hx with
    | .ok vs, hvs => exact (agrees_apply hcalls hf hvs).mono fun _ => Value.isOutcome_of_arrived
    | .error v, hv => exact .pure hv

theorem agrees_stmt (hcalls : Calls call check) :
    ∀ s : Stmt, Agrees (·.isOutcome = true) (s.eval call) (s.check check)
  | .define name value =>
    (agrees_expr hcalls value).andThen fun _ hv => agrees_define name hv
  | .ret value => by
    refine (agrees_expr hcalls value).andThen fun v hv => ?_
    rw [wrap_eq hv]
    refine .pure ?_
    rw [Value.isOutcome, hv]
    rfl
  | .expr value => agrees_expr hcalls value
  | .block body => agrees_block hcalls body rfl

theorem agrees_block (hcalls : Calls call check) : ∀ (body : List Stmt) {last : Value},
    last.isAbrupt = false →
      Agrees (·.isOutcome = true) (evalBlock call body last) (checkBlock check body last)
  | [], _, hlast => .pure (Value.isOutcome_of_ordinary hlast)
  | s :: rest, _, _ => (agrees_stmt hcalls s).andThen fun _ hv => agrees_block hcalls rest hv

theorem agrees_else (hcalls : Calls call check) : ∀ no : Option (List Stmt),
    Agrees (·.isOutcome = true) (evalElse call no) (checkElse check no)
  | none => .pure rfl
  | some body => agrees_block hcalls body rfl

theorem agrees_args (hcalls : Calls call check) : ∀ args : List Expr,
    Agrees Arguments (evalArgs call args) (checkArgs check args)
  | [] => .pure (List.forall_mem_nil _)
  | e :: rest => by
    refine (agrees_expr hcalls e).bind fun v hv => ?_
    split
    · exact .pure hv
    · next hordinary =>
      refine (agrees_args hcalls rest).bind fun x hx => .pure ?_
      match x, hx with
      | .ok vs, hvs =>
        exact List.forall_mem_cons.mpr ⟨Bool.eq_false_iff.mpr hordinary, hvs⟩
      | .error w, hw => exact hw

end
end

/-- Calls agree to any depth. -/
theorem calls (depth : Nat) : Calls (Closure.call .eager depth) (Closure.check depth) := by
  induction depth with
  | zero => exact fun c args _ => .lift fun m _ v n h => nomatch h
  | succ depth ih =>
    intro c args hargs
    refine (agrees_enter c hargs).bind fun frame _ => ?_
    refine (agrees_block ih c.body rfl).bind fun v hv => ?_
    refine (agrees_leave frame v.unwrap).bind fun _ _ => ?_
    exact .pure (Value.arrived_unwrap hv)

theorem agrees_program (program : Program) (depth : Nat) :
    Agrees (·.tag ≠ .returned) (program.eval .eager depth) (program.check depth) := by
  refine (agrees_block (calls depth) program rfl).bind fun v hv => ?_
  have hmodify : Agrees (fun _ => True)
      (modify fun m => { m with heap := Reclamation.eager.afterProgram m.heap v.unwrap })
      (modify fun m => { m with heap := m.heap.reclaim v.unwrap }) := by
    intro m hm
    refine ⟨rfl, fun _ n h => ?_⟩
    obtain ⟨-, rfl⟩ := Prod.mk.inj (Option.some.inj h)
    exact ⟨trivial, hm.sweep 0 _⟩
  refine hmodify.bind fun _ _ => ?_
  rw [arrived_bind (Value.arrived_unwrap hv)]
  exact .pure (Value.arrived_unwrap hv)

end Checked

end Monkey
