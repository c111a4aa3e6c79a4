import Monkey.Eval.Machine
import Monkey.Proofs.Value.Alike

/-! One induction over programs for all that is proved of evaluations. Two machines are compared
in a world, which says what their scopes have to do with each other; it grows while evaluation
goes on, and a call may bring it back to what the caller can see of it. -/
namespace Monkey

namespace Machine

/-- The machine in the body of a call. -/
def entered (m : Machine) (c : Closure) (args : List Value) : Machine :=
  let (scope, heap) := m.heap.alloc c.scope
  { m with heap := heap.bindAll scope (c.params.zip args), scope }

/-- The machine after a call that was made in `m` and ended in `last`. -/
def resumed (m : Machine) (policy : Reclamation) (result : Value) (last : Machine) : Machine :=
  { last with heap := policy.afterCall last.heap m.heap.mark result, scope := m.scope }

end Machine

lemma Eval.runIn_apply (policy : Reclamation) (c : Closure) (args : List Value)
    (body : Eval Value) (m : Machine) :
    runIn policy c args body m = (body (m.entered c args)).bind fun r =>
      some (r.1.unwrap, m.resumed policy r.1.unwrap r.2) := rfl

lemma Eval.resolve_apply (name : String) (m : Machine) :
    resolve name m = some ((m.heap.lookup m.scope name).getD
      (((Builtin.ofName? name).map Value.builtin).getD (.error (.unbound name))), m) := by
  have hget : (get : Eval Machine) m = some (m, m) := rfl
  simp only [resolve, bind, StateT.bind, hget, Option.bind]
  cases m.heap.lookup m.scope name with
  | some v => rfl
  | none => cases Builtin.ofName? name <;> rfl

lemma Eval.applyBuiltin_apply (b : Builtin) (args : List Value) (m : Machine) :
    applyBuiltin b args m = some (match (b.apply args m.sink).1 with
      | .ok v => v
      | .error cause => .error cause, { m with sink := (b.apply args m.sink).2 }) := by
  have hget : (get : Eval Machine) m = some (m, m) := rfl
  simp only [applyBuiltin, bind, StateT.bind, hget, Option.bind]
  cases (b.apply args m.sink).1 <;> rfl

lemma optionRel_mono {α β : Type} {P Q : α → β → Prop} {x : Option α} {y : Option β}
    (h : Option.Rel P x y) (hPQ : ∀ a b, P a b → Q a b) : Option.Rel Q x y := by
  cases h with
  | none => exact .none
  | some h => exact .some (hPQ _ _ h)

lemma optionRel_bind {α β γ δ : Type} {P : α → β → Prop} {Q : γ → δ → Prop} {x : Option α}
    {y : Option β} {f : α → Option γ} {g : β → Option δ} (h : Option.Rel P x y)
    (hfg : ∀ a b, P a b → Option.Rel Q (f a) (g b)) : Option.Rel Q (x.bind f) (y.bind g) := by
  cases h with
  | none => exact .none
  | some h => exact hfg _ _ h

/-- What evaluation needs of a way to compare machines, one under each policy. -/
structure Simulation (p q : Reclamation) where
  World : Type
  le : World → World → Prop
  scopes : World → ScopeId → ScopeId → Prop
  machines : World → Machine → Machine → Prop
  le_refl (w : World) : le w w
  le_trans {w₁ w₂ w₃ : World} : le w₁ w₂ → le w₂ w₃ → le w₁ w₃
  scopes_mono {w₁ w₂ : World} {a b : ScopeId} : le w₁ w₂ → scopes w₁ a b → scopes w₂ a b
  current {w : World} {m n : Machine} : machines w m n → scopes w m.scope n.scope
  fresh {w : World} {m n : Machine} : machines w m n → m.fresh = n.fresh
  sink {w : World} {m n : Machine} : machines w m n → m.sink = n.sink
  lookup {w : World} {m n : Machine} (h : machines w m n) (name : String) :
    Option.Rel (Value.Alike (scopes w)) (m.heap.lookup m.scope name) (n.heap.lookup n.scope name)
  define {w : World} {m n : Machine} {a b : Value} (h : machines w m n)
    (hab : a.Alike (scopes w) b) (name : String) :
    ∃ w₁, le w w₁ ∧ machines w₁ { m with heap := m.heap.bind m.scope name a }
      { n with heap := n.heap.bind n.scope name b }
  close {w : World} {m n : Machine} (h : machines w m n) :
    ∃ w₁, le w w₁ ∧ machines w₁ { m with fresh := m.fresh + 1 } { n with fresh := n.fresh + 1 }
  write {w : World} {m n : Machine} (h : machines w m n) (sink : Sink) :
    ∃ w₁, le w w₁ ∧ machines w₁ { m with sink } { n with sink }
  /-- The world of a call's body, and the way back from where it has got to. -/
  call {w : World} {m n : Machine} {c d : Closure} {vs us : List Value} (h : machines w m n)
    (hcd : (Value.function c).Alike (scopes w) (.function d))
    (hargs : List.Forall₂ (Value.Alike (scopes w)) vs us) :
    ∃ w₁, machines w₁ (m.entered c vs) (n.entered d us) ∧
      ∀ {w₂ : World} {m₂ n₂ : Machine} {a b : Value}, le w₁ w₂ → machines w₂ m₂ n₂ →
        a.Alike (scopes w₂) b →
        ∃ w₃, le w w₃ ∧ machines w₃ (m.resumed p a m₂) (n.resumed q b n₂) ∧ a.Alike (scopes w₃) b

namespace Simulation

variable {p q : Reclamation} (S : Simulation p q) {α β : Type}

def Values (w : S.World) (a b : Value) : Prop := a.Alike (S.scopes w) b

variable {S} {w w₁ : S.World} {a b : Value}

lemma Values.mono (h : S.Values w a b) (hw : S.le w w₁) : S.Values w₁ a b :=
  Value.Alike.mono h fun _ _ => S.scopes_mono hw

variable (S)

/-- The two computations have an outcome or none together, with related answers in related
machines, from any world that `w` can have grown to. -/
def Follows (w : S.World) (R : S.World → α → α → Prop) (x y : Eval α) : Prop :=
  ∀ w₁, S.le w w₁ → ∀ m n, S.machines w₁ m n →
    Option.Rel (fun r s => ∃ w₂, S.le w₁ w₂ ∧ S.machines w₂ r.2 s.2 ∧ R w₂ r.1 s.1) (x m) (y n)

variable {S} {R : S.World → α → α → Prop} {R' : S.World → β → β → Prop}

lemma Follows.pure {x y : α} (h : ∀ w₁, S.le w w₁ → R w₁ x y) :
    S.Follows w R (Pure.pure x) (Pure.pure y) :=
  fun w₁ hw₁ _ _ hmn => .some ⟨w₁, S.le_refl w₁, hmn, h w₁ hw₁⟩

lemma Follows.bind {x y : Eval α} {f g : α → Eval β} (h : S.Follows w R x y)
    (hfg : ∀ w₁ a b, S.le w w₁ → R w₁ a b → S.Follows w₁ R' (f a) (g b)) :
    S.Follows w R' (x >>= f) (y >>= g) := by
  intro w₁ hw₁ m n hmn
  change Option.Rel _ ((x m).bind fun r => f r.1 r.2) ((y n).bind fun s => g s.1 s.2)
  refine optionRel_bind (h w₁ hw₁ m n hmn) ?_
  rintro ⟨a, m₂⟩ ⟨b, n₂⟩ ⟨w₂, hw₂, hmn₂, hR⟩
  have hw := S.le_trans hw₁ hw₂
  have hrest := hfg w₂ a b hw hR w₂ (S.le_refl w₂) m₂ n₂ hmn₂
  refine optionRel_mono hrest ?_
  rintro r s ⟨w₃, hw₃, hmn₃, hR'⟩
  exact ⟨w₃, S.le_trans hw₂ hw₃, hmn₃, hR'⟩

lemma Follows.andThen {x y : Eval Value} {f g : Value → Eval Value} (h : S.Follows w S.Values x y)
    (hfg : ∀ w₁ a b, S.le w w₁ → S.Values w₁ a b → S.Follows w₁ S.Values (f a) (g b)) :
    S.Follows w S.Values (x.andThen f) (y.andThen g) := by
  refine h.bind fun w₁ a b hw hab => ?_
  rw [Value.Alike.isAbrupt_eq hab]
  split
  · exact .pure fun w₂ hw₂ => hab.mono hw₂
  · exact hfg w₁ a b hw hab

lemma follows_pure (h : S.Values w a b) : S.Follows w S.Values (Pure.pure a) (Pure.pure b) :=
  .pure fun _ hw => h.mono hw

lemma follows_resolve (name : String) : S.Follows w S.Values (.resolve name) (.resolve name) := by
  intro w₁ _ m n hmn
  have hlookup := S.lookup hmn name
  rw [Eval.resolve_apply, Eval.resolve_apply]
  generalize m.heap.lookup m.scope name = x, n.heap.lookup n.scope name = y at hlookup
  refine .some ⟨w₁, S.le_refl w₁, hmn, ?_⟩
  cases hlookup with
  | some h => exact h
  | none => cases Builtin.ofName? name with
    | none => exact .error _
    | some b => exact .builtin b

lemma follows_define (name : String) (h : S.Values w a b) :
    S.Follows w S.Values (.define name a) (.define name b) := by
  intro w₁ hw₁ m n hmn
  obtain ⟨w₂, hw₂, hmn₂⟩ := S.define hmn (h.mono hw₁) name
  exact .some ⟨w₂, hw₂, hmn₂, .null⟩

lemma follows_close (params : List String) (body : Block) :
    S.Follows w S.Values (.close params body) (.close params body) := by
  intro w₁ _ m n hmn
  obtain ⟨w₂, hw₂, hmn₂⟩ := S.close hmn
  refine .some ⟨w₂, hw₂, hmn₂, ?_⟩
  change Value.Alike _ (.function ⟨m.fresh, params, body, m.scope⟩) (.function ⟨n.fresh, _, _, _⟩)
  rw [S.fresh hmn]
  exact .function _ _ _ (S.scopes_mono hw₂ (S.current hmn))

lemma follows_applyBuiltin (builtin : Builtin) {vs us : List Value}
    (h : List.Forall₂ (S.Values w) vs us) :
    S.Follows w S.Values (.applyBuiltin builtin vs) (.applyBuiltin builtin us) := by
  intro w₁ _ m n hmn
  rw [Eval.applyBuiltin_apply, Eval.applyBuiltin_apply, ← S.sink hmn,
    Builtin.apply_eq builtin h m.sink]
  obtain ⟨w₂, hw₂, hmn₂⟩ := S.write hmn (builtin.apply us m.sink).2
  refine .some ⟨w₂, hw₂, hmn₂, ?_⟩
  dsimp only
  split
  · next v hv => exact .of_plain (Value.captured?_of_isPlain (Builtin.isPlain_of_apply hv))
  · exact .error _

section
variable {call call' : Closure → List Value → Eval Value}

/-- Two ways to run the body of a function follow each other. -/
def Calls (S : Simulation p q) (call call' : Closure → List Value → Eval Value) : Prop :=
  ∀ (w : S.World) (c d : Closure) (vs us : List Value), S.Values w (.function c) (.function d) →
    List.Forall₂ (S.Values w) vs us → S.Follows w S.Values (call c vs) (call' d us)

lemma follows_apply (hcall : S.Calls call call') {vs us : List Value} (h : S.Values w a b)
    (hargs : List.Forall₂ (S.Values w) vs us) :
    S.Follows w S.Values (.apply call a vs) (.apply call' b us) := by
  cases h with
  | @function id params body a b hab =>
    rw [Eval.apply, Eval.apply, hargs.length_eq]
    split
    · exact hcall w _ _ vs us (.function id params body hab) hargs
    · exact follows_pure (.error _)
  | builtin b => exact follows_applyBuiltin b hargs
  | int value => exact follows_pure (.error _)
  | bool value => exact follows_pure (.error _)
  | str value => exact follows_pure (.error _)
  | null => exact follows_pure (.error _)
  | error cause => exact follows_pure (.error _)
  | returned h => exact follows_pure (.error _)

/-- The values of arguments, or the one that ended their evaluation. -/
def Args (S : Simulation p q) (w : S.World) :
    Except Value (List Value) → Except Value (List Value) → Prop
  | .ok vs, .ok us => List.Forall₂ (S.Values w) vs us
  | .error a, .error b => S.Values w a b
  | _, _ => False

mutual

theorem follows_expr (hcall : S.Calls call call') (w : S.World) :
    ∀ e : Expr, S.Follows w S.Values (e.eval call) (e.eval call')
  | .ident name => follows_resolve name
  | .int value => follows_pure (.int value)
  | .str value => follows_pure (.str value)
  | .bool value => follows_pure (.bool value)
  | .unary op operand =>
    (follows_expr hcall w operand).andThen fun _ _ _ _ h => follows_pure (h.unary op)
  | .binary op left right =>
    (follows_expr hcall w left).andThen fun w₁ _ _ _ hl =>
      (follows_expr hcall w₁ right).andThen fun _ _ _ hw hr =>
        follows_pure ((hl.mono hw).binary op hr)
  | .cond test yes no => by
    refine (follows_expr hcall w test).andThen fun w₁ a b _ h => ?_
    rw [Value.Alike.isTruthy_eq h]
    split
    · exact follows_block hcall w₁ yes .null
    · exact follows_else hcall w₁ no
  | .function params body => follows_close params body
  | .call callee args => by
    refine (follows_expr hcall w callee).andThen fun w₁ a b _ h => ?_
    refine (follows_args hcall w₁ args).bind fun w₂ x y hw hxy => ?_
    match x, y, hxy with
    | .ok vs, .ok us, hvs => exact follows_apply hcall (h.mono hw) hvs
    | .error a, .error b, hab => exact follows_pure hab

theorem follows_stmt (hcall : S.Calls call call') (w : S.World) :
    ∀ s : Stmt, S.Follows w S.Values (s.eval call) (s.eval call')
  | .define name value =>
    (follows_expr hcall w value).andThen fun _ _ _ _ h => follows_define name h
  | .ret value =>
    (follows_expr hcall w value).andThen fun _ _ _ _ h => follows_pure (.returned h)
  | .expr value => follows_expr hcall w value
  | .block body => follows_block hcall w body .null

theorem follows_block (hcall : S.Calls call call') (w : S.World) :
    ∀ (body : List Stmt) {a b : Value}, S.Values w a b →
      S.Follows w S.Values (evalBlock call body a) (evalBlock call' body b)
  | [], _, _, h => follows_pure h
  | s :: rest, _, _, _ =>
    (follows_stmt hcall w s).andThen fun w₁ _ _ _ h => follows_block hcall w₁ rest h

theorem follows_else (hcall : S.Calls call call') (w : S.World) :
    ∀ no : Option (List Stmt), S.Follows w S.Values (evalElse call no) (evalElse call' no)
  | none => follows_pure .null
  | some body => follows_block hcall w body .null

theorem follows_args (hcall : S.Calls call call') (w : S.World) :
    ∀ args : List Expr, S.Follows w S.Args (evalArgs call args) (evalArgs call' args)
  | [] => .pure fun _ _ => .nil
  | e :: rest => by
    refine (follows_expr hcall w e).bind fun w₁ a b _ h => ?_
    rw [Value.Alike.isAbrupt_eq h]
    split
    · exact .pure fun _ hw => h.mono hw
    · refine (follows_args hcall w₁ rest).bind fun w₂ x y hw hxy => .pure fun w₃ hw₃ => ?_
      match x, y, hxy with
      | .ok vs, .ok us, hvs =>
        exact .cons (h.mono (S.le_trans hw hw₃)) (hvs.imp fun _ _ hab => Values.mono hab hw₃)
      | .error a, .error b, hab => exact Values.mono hab hw₃

end
end

/-- Calls follow each other to any depth. -/
theorem calls (S : Simulation p q) (depth : Nat) :
    S.Calls (Closure.call p depth) (Closure.call q depth) := by
  induction depth with
  | zero => exact fun w c d vs us _ _ w₁ _ m n _ => .none
  | succ depth ih =>
    intro w c d vs us hcd hargs w₁ hw₁ m n hmn
    obtain ⟨w₂, hmn₂, hback⟩ := S.call hmn (Values.mono hcd hw₁)
      (hargs.imp fun _ _ hab => Values.mono hab hw₁)
    have hbody : c.body = d.body := by
      cases hcd
      rfl
    rw [Closure.call, Closure.call, Eval.runIn_apply, Eval.runIn_apply, ← hbody]
    refine optionRel_bind (follows_block ih w₂ c.body .null w₂ (S.le_refl w₂) _ _ hmn₂) ?_
    rintro ⟨a, m₃⟩ ⟨b, n₃⟩ ⟨w₃, hw₃, hmn₃, hab⟩
    obtain ⟨w₄, hw₄, hmn₄, hab₄⟩ := hback hw₃ hmn₃ hab.unwrap
    exact .some ⟨w₄, hw₄, hmn₄, hab₄⟩

end Simulation
end Monkey
