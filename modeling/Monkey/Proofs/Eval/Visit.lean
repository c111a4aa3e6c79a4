import Mathlib.Logic.Relation
import Monkey.Proofs.Eval.Safety

/-! Every state that an evaluation passes through. A visit is the start of an expression, a
statement, a block or a call somewhere inside a program, with the values that the computations
around it still hold. -/
namespace Monkey

/-- What evaluation can be about to do. -/
inductive Task where
  | expr (e : Expr)
  | stmt (s : Stmt)
  | block (body : List Stmt) (last : Value)
  | call (c : Closure) (args : List Value)

namespace Task

def run (policy : Reclamation) (depth : Nat) : Task → Eval Value
  | expr e => e.eval (Closure.call policy depth)
  | stmt s => s.eval (Closure.call policy depth)
  | block body last => evalBlock (Closure.call policy depth) body last
  | call c args => Closure.call policy depth c args

/-- The values that the task is given. -/
def inputs : Task → List Value
  | expr _ => []
  | stmt _ => []
  | block _ last => [last]
  | call c args => .function c :: args

end Task

/-- What a task is given decides what it does. -/
lemma Simulation.follows_task {p q : Reclamation} {S : Simulation p q} {w : S.World} (t : Task)
    (ht : ∀ v ∈ t.inputs, S.Values w v v) (depth : Nat) :
    S.Follows w S.Values (t.run p depth) (t.run q depth) := by
  have hcalls := S.calls depth
  cases t with
  | expr e => exact follows_expr hcalls w e
  | stmt s => exact follows_stmt hcalls w s
  | block body last => exact follows_block hcalls w body (ht last List.mem_cons_self)
  | call c args =>
    refine hcalls w c c args args (ht _ List.mem_cons_self) ?_
    exact List.forall₂_same.mpr fun u hu => ht u (List.mem_cons_of_mem _ hu)

section
variable {m n : Machine} {depth : Nat} {v : Value}

lemma Simulation.diagonal_spec {α : Type} {R : Machine → α → α → Prop} {x : Eval α} {a : α}
    (hx : Simulation.diagonal.Follows m R x x) (hm : m.Sound) (h : x m = some (a, n)) :
    n.Sound ∧ m.Extends n ∧ R n a a := by
  have hrel := hx m (.refl m) m m ⟨rfl, rfl, hm⟩
  rw [h] at hrel
  cases hrel with
  | some hrel =>
    obtain ⟨w, hw, ⟨rfl, -, hn⟩, hR⟩ := hrel
    exact ⟨hn, hw, hR⟩

/-- A value like itself holds on to a live scope. -/
lemma holds_of_values (h : Simulation.diagonal.Values m v v) : m.Holds v := h.eq_of_diagonal.2

lemma values_of_holds (h : m.Holds v) : Simulation.diagonal.Values m v v :=
  .of_captured fun id hid => ⟨rfl, h id hid⟩

/-- Whatever the task, evaluation keeps the machine sound, only adds to it, and gives a value that
holds on to a live scope. -/
theorem Task.run_spec {t : Task} (hm : m.Sound) (ht : ∀ u ∈ t.inputs, m.Holds u)
    (h : t.run .eager depth m = some (v, n)) : n.Sound ∧ m.Extends n ∧ n.Holds v := by
  have hfollows : Simulation.diagonal.Follows m Simulation.diagonal.Values (t.run .eager depth)
      (t.run .eager depth) :=
    Simulation.follows_task t (fun u hu => values_of_holds (ht u hu)) depth
  obtain ⟨hn, hext, hv⟩ := Simulation.diagonal_spec hfollows hm h
  exact ⟨hn, hext, holds_of_values hv⟩

lemma evalArgs_spec {args : List Expr} {vs : List Value} (hm : m.Sound)
    (h : evalArgs (Closure.call .eager depth) args m = some (.ok vs, n)) :
    n.Sound ∧ m.Extends n ∧ ∀ v ∈ vs, n.Holds v := by
  have hfollows := Simulation.follows_args (Simulation.diagonal.calls depth) m args
  obtain ⟨hn, hext, hvs⟩ := Simulation.diagonal_spec hfollows hm h
  exact ⟨hn, hext, (Value.Alike.forall₂_eq_of_diagonal hvs).2⟩

end

/-- A task at its start, and the values that the computations around it hold. -/
structure Visit where
  depth : Nat
  task : Task
  machine : Machine
  held : List Value

namespace Visit

/-- The tasks that a task starts itself, each where it starts it. -/
inductive Starts : Visit → Visit → Prop
  | operand {depth : Nat} {m : Machine} {held : List Value} {op : UnaryOp} {e : Expr} :
      Starts ⟨depth, .expr (.unary op e), m, held⟩ ⟨depth, .expr e, m, held⟩
  | left {depth : Nat} {m : Machine} {held : List Value} {op : BinaryOp} {l r : Expr} :
      Starts ⟨depth, .expr (.binary op l r), m, held⟩ ⟨depth, .expr l, m, held⟩
  | right {depth : Nat} {m m₁ : Machine} {held : List Value} {op : BinaryOp} {l r : Expr}
      {v : Value} (hl : (Task.expr l).run .eager depth m = some (v, m₁))
      (hv : v.isAbrupt = false) :
      Starts ⟨depth, .expr (.binary op l r), m, held⟩ ⟨depth, .expr r, m₁, v :: held⟩
  | test {depth : Nat} {m : Machine} {held : List Value} {test : Expr} {yes : List Stmt}
      {no : Option (List Stmt)} :
      Starts ⟨depth, .expr (.cond test yes no), m, held⟩ ⟨depth, .expr test, m, held⟩
  | yes {depth : Nat} {m m₁ : Machine} {held : List Value} {test : Expr} {yes : List Stmt}
      {no : Option (List Stmt)} {v : Value}
      (ht : (Task.expr test).run .eager depth m = some (v, m₁)) (hv : v.isAbrupt = false)
      (htrue : v.isTruthy = true) :
      Starts ⟨depth, .expr (.cond test yes no), m, held⟩ ⟨depth, .block yes .null, m₁, held⟩
  | no {depth : Nat} {m m₁ : Machine} {held : List Value} {test : Expr} {yes no : List Stmt}
      {v : Value} (ht : (Task.expr test).run .eager depth m = some (v, m₁))
      (hv : v.isAbrupt = false) (hfalse : v.isTruthy = false) :
      Starts ⟨depth, .expr (.cond test yes (some no)), m, held⟩ ⟨depth, .block no .null, m₁, held⟩
  | callee {depth : Nat} {m : Machine} {held : List Value} {f : Expr} {args : List Expr} :
      Starts ⟨depth, .expr (.call f args), m, held⟩ ⟨depth, .expr f, m, held⟩
  | arg {depth : Nat} {m m₁ m₂ : Machine} {held : List Value} {f e : Expr}
      {before after : List Expr} {g : Value} {vs : List Value}
      (hf : (Task.expr f).run .eager depth m = some (g, m₁)) (hg : g.isAbrupt = false)
      (hbefore : evalArgs (Closure.call .eager depth) before m₁ = some (.ok vs, m₂)) :
      Starts ⟨depth, .expr (.call f (before ++ e :: after)), m, held⟩
        ⟨depth, .expr e, m₂, g :: vs ++ held⟩
  | call {depth : Nat} {m m₁ m₂ : Machine} {held : List Value} {f : Expr} {args : List Expr}
      {c : Closure} {vs : List Value}
      (hf : (Task.expr f).run .eager depth m = some (.function c, m₁))
      (hargs : evalArgs (Closure.call .eager depth) args m₁ = some (.ok vs, m₂))
      (hlen : vs.length = c.params.length) :
      Starts ⟨depth, .expr (.call f args), m, held⟩
        ⟨depth, .call c vs, m₂, .function c :: vs ++ held⟩
  | body {depth : Nat} {m : Machine} {held : List Value} {c : Closure} {vs : List Value} :
      Starts ⟨depth + 1, .call c vs, m, held⟩
        ⟨depth, .block c.body .null, m.entered c vs, held⟩
  | define {depth : Nat} {m : Machine} {held : List Value} {name : String} {value : Expr} :
      Starts ⟨depth, .stmt (.define name value), m, held⟩ ⟨depth, .expr value, m, held⟩
  | ret {depth : Nat} {m : Machine} {held : List Value} {value : Expr} :
      Starts ⟨depth, .stmt (.ret value), m, held⟩ ⟨depth, .expr value, m, held⟩
  | expr {depth : Nat} {m : Machine} {held : List Value} {value : Expr} :
      Starts ⟨depth, .stmt (.expr value), m, held⟩ ⟨depth, .expr value, m, held⟩
  | block {depth : Nat} {m : Machine} {held : List Value} {body : List Stmt} :
      Starts ⟨depth, .stmt (.block body), m, held⟩ ⟨depth, .block body .null, m, held⟩
  | first {depth : Nat} {m : Machine} {held : List Value} {s : Stmt} {rest : List Stmt}
      {last : Value} :
      Starts ⟨depth, .block (s :: rest) last, m, held⟩ ⟨depth, .stmt s, m, held⟩
  | rest {depth : Nat} {m m₁ : Machine} {held : List Value} {s : Stmt} {rest : List Stmt}
      {last v : Value} (hs : (Task.stmt s).run .eager depth m = some (v, m₁))
      (hv : v.isAbrupt = false) :
      Starts ⟨depth, .block (s :: rest) last, m, held⟩ ⟨depth, .block rest v, m₁, held⟩

variable {depth : Nat} {m m₁ m₂ : Machine} {held : List Value}

/-- What holds at every visit: the machine is sound, and neither the task nor what is around it
holds on to a freed scope. -/
structure Sound (V : Visit) : Prop where
  machine : V.machine.Sound
  inputs : ∀ v ∈ V.task.inputs, V.machine.Holds v
  held : ∀ v ∈ V.held, V.machine.Holds v

lemma holds_of_plain {m : Machine} {v : Value} (h : v.captured? = none) : m.Holds v := by
  intro id hid
  rw [h] at hid
  cases hid

/-- A task without values of its own, in the machine of the task that starts it. -/
lemma Sound.same {t t' : Task} (h : Sound ⟨depth, t, m, held⟩)
    (ht : ∀ v ∈ t'.inputs, v.captured? = none) : Sound ⟨depth, t', m, held⟩ :=
  ⟨h.machine, fun v hv => holds_of_plain (ht v hv), h.held⟩

/-- A task started after an expression or a statement has been evaluated. -/
lemma Sound.after {t t₁ t' : Task} {v : Value} (h : Sound ⟨depth, t, m, held⟩)
    (ht₁ : t₁.inputs = []) (hrun : t₁.run .eager depth m = some (v, m₁)) {held' : List Value}
    (ht' : ∀ u ∈ t'.inputs, u = v ∨ u.captured? = none) (hheld : ∀ u ∈ held', u = v ∨ u ∈ held) :
    Sound ⟨depth, t', m₁, held'⟩ := by
  obtain ⟨hm₁, hext, hv⟩ := Task.run_spec h.machine (by rw [ht₁]; nofun) hrun
  refine ⟨hm₁, fun u hu => ?_, fun u hu => ?_⟩
  · rcases ht' u hu with rfl | hplain
    · exact hv
    · exact holds_of_plain hplain
  · rcases hheld u hu with rfl | hmem
    · exact hv
    · exact (h.held u hmem).extends hext

/-- After the callee and arguments, both are held and so is all that was held before. -/
lemma Sound.after_args {t : Task} {f : Expr} {args : List Expr} {g : Value} {vs : List Value}
    (h : Sound ⟨depth, t, m, held⟩) (hf : (Task.expr f).run .eager depth m = some (g, m₁))
    (hargs : evalArgs (Closure.call .eager depth) args m₁ = some (.ok vs, m₂)) :
    m₂.Sound ∧ ∀ u ∈ g :: vs ++ held, m₂.Holds u := by
  obtain ⟨hm₁, hext₁, hg⟩ := Task.run_spec (t := .expr f) h.machine nofun hf
  obtain ⟨hm₂, hext₂, hvs⟩ := evalArgs_spec hm₁ hargs
  refine ⟨hm₂, fun u hu => ?_⟩
  rcases List.mem_append.mp hu with hu | hu
  · rcases List.mem_cons.mp hu with rfl | hu
    · exact hg.extends hext₂
    · exact hvs u hu
  · exact (h.held u hu).extends (hext₁.trans hext₂)

theorem Starts.sound {V W : Visit} (h : Starts V W) (hV : V.Sound) : W.Sound := by
  cases h with
  | operand => exact hV.same nofun
  | left => exact hV.same nofun
  | right hl hv => exact hV.after rfl hl nofun (by simp)
  | test => exact hV.same nofun
  | yes ht hv htrue =>
    exact hV.after rfl ht (by simp [Task.inputs, Value.captured?]) fun u hu => .inr hu
  | no ht hv hfalse =>
    exact hV.after rfl ht (by simp [Task.inputs, Value.captured?]) fun u hu => .inr hu
  | callee => exact hV.same nofun
  | arg hf hg hbefore =>
    obtain ⟨hm₂, hheld⟩ := hV.after_args hf hbefore
    exact ⟨hm₂, nofun, hheld⟩
  | call hf hargs hlen =>
    obtain ⟨hm₂, hheld⟩ := hV.after_args hf hargs
    exact ⟨hm₂, fun u hu => hheld u (List.mem_append_left _ hu), hheld⟩
  | @body depth m held c vs =>
    have hc : m.heap.IsLive c.scope := hV.inputs (.function c) List.mem_cons_self c.scope rfl
    have hvs : ∀ v ∈ vs, m.Holds v := fun v hv => hV.inputs v (List.mem_cons_of_mem _ hv)
    refine ⟨hV.machine.entered hc hvs, ?_, fun u hu id hid => ?_⟩
    · intro v hv
      rw [List.mem_singleton.mp hv]
      exact holds_of_plain rfl
    · exact (hV.machine.opens c vs).live (hV.held u hu id hid)
  | define => exact hV.same nofun
  | ret => exact hV.same nofun
  | expr => exact hV.same nofun
  | block => exact hV.same (by simp [Task.inputs, Value.captured?])
  | first => exact hV.same nofun
  | rest hs hv => exact hV.after rfl hs (by simp [Task.inputs]) fun u hu => .inr hu

end Visit

lemma Program.eval_apply (policy : Reclamation) (depth : Nat) (program : Program) (m : Machine) :
    program.eval policy depth m =
      (evalBlock (Closure.call policy depth) program .null m).bind fun r =>
        some (r.1.unwrap, { r.2 with heap := policy.afterProgram r.2.heap r.1.unwrap }) := rfl

/-- A block starts with nothing to hold on to. -/
lemma Task.holds_block_inputs (m : Machine) (body : Block) :
    ∀ u ∈ (Task.block body .null).inputs, m.Holds u :=
  List.forall_mem_singleton.mpr (Visit.holds_of_plain rfl)

namespace Machine

/-- The machines that programs leave, run one after another from the start. -/
inductive Reachable (sink : Sink) : Machine → Prop
  | start : Reachable sink (.start sink)
  | program {m n : Machine} {program : Program} {depth : Nat} {v : Value} :
      Reachable sink m → program.eval .eager depth m = some (v, n) → Reachable sink n

lemma Holds.unwrap {m : Machine} {v : Value} (h : m.Holds v) : m.Holds v.unwrap := by
  cases v <;> exact h

/-- Where a program ends, before anything is freed. -/
lemma exists_last_of_program {m n : Machine} {program : Program} {depth : Nat} {v : Value}
    (hm : m.Sound) (h : program.eval .eager depth m = some (v, n)) :
    ∃ u last, (Task.block program .null).run .eager depth m = some (u, last) ∧ last.Sound ∧
      m.Extends last ∧ v = u.unwrap ∧ last.Holds v ∧
      n = { last with heap := last.heap.reclaim v } := by
  rw [Program.eval_apply] at h
  obtain ⟨⟨u, last⟩, hrun, h⟩ := Option.bind_eq_some_iff.mp h
  obtain ⟨hlast, hext, hu⟩ := Task.run_spec (t := .block program .null) hm
    (Task.holds_block_inputs m program) hrun
  obtain ⟨rfl, rfl⟩ := Prod.mk.inj (Option.some.inj h)
  exact ⟨u, last, hrun, hlast, hext, rfl, hu.unwrap, rfl⟩

lemma Sound.program {m n : Machine} (hm : m.Sound) (hscope : m.scope = .global)
    {program : Program} {depth : Nat} {v : Value}
    (h : program.eval .eager depth m = some (v, n)) : n.Sound ∧ n.scope = .global := by
  obtain ⟨u, last, -, hlast, hext, -, hv, rfl⟩ := exists_last_of_program hm h
  have hglobal := hext.scope.trans hscope
  exact ⟨(hlast.reclaims_program hglobal hv).sound, hglobal⟩

lemma Reachable.sound {sink : Sink} {m : Machine} (h : Reachable sink m) :
    m.Sound ∧ m.scope = .global := by
  induction h with
  | start => exact ⟨sound_start sink, rfl⟩
  | program _ hrun ih => exact ih.1.program ih.2 hrun

/-- Nothing in the machine refers to a freed scope. -/
structure Safe (m : Machine) : Prop where
  current : m.heap.IsLive m.scope
  outer {id o : ScopeId} (ho : m.heap.outer? id = some o) : m.heap.IsLive o
  stored {id : ScopeId} {s : Scope} {name : String} {c : Closure}
    (hs : m.heap.scope? id = some s) (hc : (name, .function c) ∈ s.bindings) :
    m.heap.IsLive c.scope
  /-- A lookup passes live scopes only, and the last of them has no outer one. -/
  path {id : ScopeId} (hid : m.heap.IsLive id) :
    (∀ i ∈ m.heap.path id, m.heap.IsLive i) ∧
      ∃ i ∈ (m.heap.path id).getLast?, m.heap.outer? i = none

lemma Sound.safe {m : Machine} (hm : m.Sound) : m.Safe where
  current := hm.current
  outer ho := hm.heap.chained.isLive_outer ho
  stored hs hc := hm.holds_of_mem hs hc _ rfl
  path hid := hm.heap.chained.path_spec hid

end Machine

namespace Visit

/-- A visit that no freed scope has to do with. -/
structure Safe (V : Visit) : Prop where
  start : V.machine.Safe
  held : ∀ v ∈ V.task.inputs ++ V.held, V.machine.Holds v
  /-- Whatever is evaluated from here, what is live stays where it is in the log. -/
  finish {t : Task} (ht : ∀ u ∈ t.inputs, V.machine.Holds u) {depth : Nat} {v : Value}
    {n : Machine} (h : t.run .eager depth V.machine = some (v, n)) :
    n.Safe ∧ V.machine.Extends n ∧ n.Holds v ∧ ∀ u ∈ V.task.inputs ++ V.held, n.Holds u
  /-- The binding of a definition goes into a live scope. -/
  define {name : String} {value : Expr} (h : V.task = .stmt (.define name value)) {v : Value}
    {n : Machine} (hv : (Task.expr value).run .eager V.depth V.machine = some (v, n)) :
    n.heap.IsLive n.scope
  /-- And so do the bindings of parameters. -/
  params {c : Closure} {args : List Value} (h : V.task = .call c args)
    (bindings : List (String × Value)) :
    ((V.machine.heap.alloc c.scope).2.bindAll (V.machine.heap.alloc c.scope).1 bindings).IsLive
      (V.machine.heap.alloc c.scope).1

lemma Sound.safe {V : Visit} (hV : V.Sound) : V.Safe := by
  have hheld : ∀ v ∈ V.task.inputs ++ V.held, V.machine.Holds v := fun v hv =>
    (List.mem_append.mp hv).elim (hV.inputs v) (hV.held v)
  refine ⟨hV.machine.safe, hheld, ?_, ?_, ?_⟩
  · intro t ht depth v n h
    obtain ⟨hn, hext, hv⟩ := Task.run_spec hV.machine ht h
    exact ⟨hn.safe, hext, hv, fun u hu => (hheld u hu).extends hext⟩
  · intro name value _ v n hv
    exact (Task.run_spec (t := .expr value) hV.machine nofun hv).1.current
  · intro c args _ bindings
    rw [(Heap.rebinds_bindAll _ _ bindings).isLive_iff,
      (hV.machine.heap.tidy.adds_alloc _).isLive_iff]
    exact .inl rfl

/-- In every state that any sequence of programs passes through, nothing refers to a freed scope,
and what evaluation does from there only adds to the log of live scopes. -/
theorem safe_of_reachable {sink : Sink} {m : Machine} (hm : m.Reachable sink) (program : Program)
    (depth : Nat) {V : Visit}
    (hV : Relation.ReflTransGen Starts ⟨depth, .block program .null, m, []⟩ V) : V.Safe := by
  suffices V.Sound from this.safe
  induction hV with
  | refl =>
    exact ⟨hm.sound.1, List.forall_mem_singleton.mpr (holds_of_plain rfl), nofun⟩
  | tail _ hstarts ih => exact hstarts.sound ih

/-- Inside a function that a function has returned: the scope of the call that made it is freed
for nobody, though that call has ended. -/
theorem safe_of_reachable_returned :
    ∃ V : Visit, V.task = .block [.expr (.ident "x")] .null ∧ V.held.length = 2 ∧
      V.machine.heap.created = [⟨1⟩, ⟨2⟩] ∧ V.Safe := by
  have hvisit : ∃ V, Relation.ReflTransGen Starts ⟨2, .block
      [.define "f" (.function ["x"] [.expr (.function ["y"] [.expr (.ident "x")])]),
        .expr (.call (.call (.ident "f") [.int 1]) [.int 2])] .null, .start .working, []⟩ V ∧
      V.task = .block [.expr (.ident "x")] .null ∧ V.held.length = 2 ∧
      V.machine.heap.created = [⟨1⟩, ⟨2⟩] := by
    refine ⟨_, .tail (.tail (.tail (.tail (.tail .refl (.rest rfl rfl)) .first) .expr)
      (.call rfl rfl rfl)) .body, ?_, ?_, ?_⟩
    · rfl
    · rfl
    · rfl
  obtain ⟨V, hV, htask, hheld, hcreated⟩ := hvisit
  exact ⟨V, htask, hheld, hcreated, safe_of_reachable .start _ _ hV⟩

end Visit
end Monkey
