import Monkey.Proofs.Eval.Renaming

/-! Output does not influence evaluation. Whatever is evaluated writes one text to any sink, and
answers and changes the heap as if the sink were another; so a run where no write succeeds passes
through the same states as one where all do. -/
namespace Monkey

namespace Sink

@[simp] lemma write_empty (s : Sink) : s.write "" = s := by
  unfold write
  split <;> simp

@[simp] lemma write_write (s : Sink) (first second : String) :
    (s.write first).write second = s.write (first ++ second) := by
  unfold write
  split <;> simp [*, String.append_assoc]

lemma exists_text_write (s : Sink) (text : String) :
    ∃ printed, (s.write text).text = s.text ++ printed := by
  unfold write
  split
  · exact ⟨text, rfl⟩
  · exact ⟨"", by simp⟩

end Sink

/-- Each builtin gives one answer, and writes one text, for all sinks. -/
lemma Builtin.exists_apply_eq (b : Builtin) (args : List Value) :
    ∃ answer text, ∀ s, b.apply args s = (answer, s.write text) := by
  cases b with
  | len => exact ⟨single args >>= length, "", fun s => by simp [apply]⟩
  | type => exact ⟨(fun v => .str v.tag.name) <$> single args, "", fun s => by simp [apply]⟩
  | puts =>
    have hlines : ∃ text, ∀ s : Sink,
        args.foldl (fun sink v => sink.writeLine v.display) s = s.write text := by
      induction args with
      | nil => exact ⟨"", fun s => s.write_empty.symm⟩
      | cons v rest ih =>
        obtain ⟨text, ih⟩ := ih
        exact ⟨v.display ++ "\n" ++ text, fun s => by
          rw [List.foldl_cons, ih, Sink.writeLine, Sink.write_write]⟩
    obtain ⟨text, hlines⟩ := hlines
    exact ⟨.ok .null, text, fun s => congrArg (Prod.mk _) (hlines s)⟩

/-- The same machine, but for where it prints. -/
def Machine.withSink (m : Machine) (sink : Sink) : Machine := { m with sink }

namespace Eval

/-- Each outcome of the computation comes with a text: to any sink it would write this text, and
have the same outcome otherwise. -/
def Prints {α : Type} (x : Eval α) : Prop :=
  ∀ ⦃m n : Machine⦄ ⦃a : α⦄, x m = some (a, n) →
    ∃ text, n.sink = m.sink.write text ∧
      ∀ s, x (m.withSink s) = some (a, n.withSink (s.write text))

namespace Prints

variable {α β : Type}

/-- A computation that always goes on, and neither reads nor changes the sink. -/
lemma of_silent {x : Eval α} (f : Machine → α × Machine) (hx : ∀ m, x m = some (f m))
    (hf : ∀ m s, f (m.withSink s) = ((f m).1, (f m).2.withSink s)) : Prints x := by
  intro m n a h
  have hfm : f m = (a, n) := Option.some.inj ((hx m).symm.trans h)
  have hsame : ∀ s, f (m.withSink s) = (a, n.withSink s) := fun s => by rw [hf, hfm]
  have hsink : n.sink = m.sink := congrArg (·.2.sink) (hfm.symm.trans (hsame m.sink))
  exact ⟨"", by simp [hsink], fun s => by rw [hx, hsame, Sink.write_empty]⟩

protected lemma pure (a : α) : Prints (Pure.pure a : Eval α) :=
  .of_silent (fun m => (a, m)) (fun _ => rfl) fun _ _ => rfl

lemma bind {x : Eval α} {f : α → Eval β} (hx : Prints x) (hf : ∀ a, Prints (f a)) :
    Prints (x >>= f) := by
  intro m n b h
  obtain ⟨⟨a, m₁⟩, h₁, h₂⟩ := Option.bind_eq_some_iff.mp h
  obtain ⟨first, hsink₁, hrun₁⟩ := hx h₁
  obtain ⟨second, hsink₂, hrun₂⟩ := hf a h₂
  refine ⟨first ++ second, by rw [hsink₂, hsink₁, Sink.write_write], fun s => ?_⟩
  change (x (m.withSink s)).bind (fun r => f r.1 r.2) = _
  rw [hrun₁ s, ← Sink.write_write]
  exact hrun₂ (s.write first)

lemma andThen {x : Eval Value} {f : Value → Eval Value} (hx : Prints x) (hf : ∀ v, Prints (f v)) :
    Prints (x.andThen f) := by
  refine hx.bind fun v => ?_
  split
  · exact .pure v
  · exact hf v

end Prints

lemma prints_resolve (name : String) : Prints (resolve name) :=
  .of_silent (fun m => (_, m)) (resolve_apply name) fun _ _ => rfl

lemma prints_define (name : String) (v : Value) : Prints (define name v) :=
  .of_silent (fun m => (.null, { m with heap := m.heap.bind m.scope name v })) (fun _ => rfl)
    fun _ _ => rfl

lemma prints_close (params : List String) (body : Block) : Prints (close params body) :=
  .of_silent (fun m => (.function ⟨m.fresh, params, body, m.scope⟩,
    { m with fresh := m.fresh + 1 })) (fun _ => rfl) fun _ _ => rfl

lemma prints_applyBuiltin (b : Builtin) (args : List Value) : Prints (applyBuiltin b args) := by
  obtain ⟨answer, text, happly⟩ := b.exists_apply_eq args
  intro m n v h
  rw [applyBuiltin_apply, happly] at h
  cases h
  refine ⟨text, rfl, fun s => ?_⟩
  rw [applyBuiltin_apply, happly]
  rfl

lemma prints_enter (c : Closure) (args : List Value) : Prints (enter c args) :=
  .of_silent (fun m => (⟨m.scope, m.heap.mark⟩, m.entered c args)) (fun _ => rfl) fun _ _ => rfl

lemma prints_leave (policy : Reclamation) (frame : Frame) (result : Value) :
    Prints (leave policy frame result) :=
  .of_silent (fun m => ((), { m with
    heap := policy.afterCall m.heap frame.mark result, scope := frame.caller })) (fun _ => rfl)
    fun _ _ => rfl

lemma prints_runIn (policy : Reclamation) (c : Closure) (args : List Value) {body : Eval Value}
    (hbody : Prints body) : Prints (runIn policy c args body) := by
  refine (prints_enter c args).bind fun frame => hbody.bind fun v => ?_
  exact (prints_leave policy frame v.unwrap).bind fun _ => .pure _

section
variable {call : Closure → List Value → Eval Value}

lemma prints_apply (hcall : ∀ c args, Prints (call c args)) (f : Value) (args : List Value) :
    Prints (apply call f args) := by
  cases f with
  | function c =>
    rw [apply]
    split
    · exact hcall c args
    · exact .pure _
  | builtin b => exact prints_applyBuiltin b args
  | _ => exact .pure _

mutual

theorem prints_expr (hcall : ∀ c args, Prints (call c args)) : ∀ e : Expr, Prints (e.eval call)
  | .ident name => prints_resolve name
  | .int _ | .str _ | .bool _ => .pure _
  | .unary _ operand => (prints_expr hcall operand).andThen fun _ => .pure _
  | .binary _ left right =>
    (prints_expr hcall left).andThen fun _ => (prints_expr hcall right).andThen fun _ => .pure _
  | .cond test yes no => by
    refine (prints_expr hcall test).andThen fun v => ?_
    split
    · exact prints_block hcall yes .null
    · exact prints_else hcall no
  | .function params body => prints_close params body
  | .call callee args => by
    refine (prints_expr hcall callee).andThen fun f => (prints_args hcall args).bind fun vs => ?_
    cases vs with
    | ok vs => exact prints_apply hcall f vs
    | error v => exact .pure v

theorem prints_stmt (hcall : ∀ c args, Prints (call c args)) : ∀ s : Stmt, Prints (s.eval call)
  | .define name value => (prints_expr hcall value).andThen (prints_define name)
  | .ret value => (prints_expr hcall value).andThen fun _ => .pure _
  | .expr value => prints_expr hcall value
  | .block body => prints_block hcall body .null

theorem prints_block (hcall : ∀ c args, Prints (call c args)) :
    ∀ (body : List Stmt) (last : Value), Prints (evalBlock call body last)
  | [], last => .pure last
  | s :: rest, _ => (prints_stmt hcall s).andThen (prints_block hcall rest)

theorem prints_else (hcall : ∀ c args, Prints (call c args)) :
    ∀ no : Option (List Stmt), Prints (evalElse call no)
  | none => .pure _
  | some body => prints_block hcall body .null

theorem prints_args (hcall : ∀ c args, Prints (call c args)) :
    ∀ args : List Expr, Prints (evalArgs call args)
  | [] => .pure _
  | e :: rest => by
    refine (prints_expr hcall e).bind fun v => ?_
    split
    · exact .pure _
    · exact (prints_args hcall rest).bind fun _ => .pure _

end
end

theorem prints_call (policy : Reclamation) (depth : Nat) (c : Closure) (args : List Value) :
    Prints (Closure.call policy depth c args) := by
  induction depth generalizing c args with
  | zero => exact fun m n v h => nomatch h
  | succ depth ih => exact prints_runIn policy c args (prints_block ih c.body .null)

end Eval

theorem Task.prints (policy : Reclamation) (depth : Nat) (t : Task) :
    Eval.Prints (t.run policy depth) := by
  cases t with
  | expr e => exact Eval.prints_expr (Eval.prints_call policy depth) e
  | stmt s => exact Eval.prints_stmt (Eval.prints_call policy depth) s
  | block body last => exact Eval.prints_block (Eval.prints_call policy depth) body last
  | call c args => exact Eval.prints_call policy depth c args

theorem Program.prints (policy : Reclamation) (depth : Nat) (program : Program) :
    Eval.Prints (program.eval policy depth) := by
  refine (Task.prints policy depth (.block program .null)).bind fun v => ?_
  exact .of_silent (fun m => (v.unwrap,
    { m with heap := policy.afterProgram m.heap v.unwrap })) (fun _ => rfl) fun _ _ => rfl

/-- The same machine where nothing can be written, and nothing has been. -/
def Machine.silenced (m : Machine) : Machine := m.withSink .broken

/-- The same outcome where nothing can be written. -/
def silencedOutcome {α : Type} : α × Machine → α × Machine := Prod.map id Machine.silenced

namespace Eval.Prints

variable {α : Type} {x : Eval α} {m n : Machine} {a : α}

lemma silenced (hx : Prints x) (m : Machine) :
    x m.silenced = (x m).map silencedOutcome := by
  -- An outcome with either of the two sinks gives one with the other.
  cases hm : x m with
  | some r =>
    obtain ⟨text, -, hsame⟩ := hx hm
    exact hsame .broken
  | none =>
    cases hbroken : x m.silenced with
    | none => rfl
    | some r =>
      obtain ⟨text, -, hsame⟩ := hx hbroken
      exact absurd ((hsame m.sink).symm.trans hm) nofun

/-- What is written comes behind what was there. -/
lemma exists_text_eq (hx : Prints x) (h : x m = some (a, n)) :
    ∃ printed, n.sink.text = m.sink.text ++ printed := by
  obtain ⟨text, hsink, -⟩ := hx h
  rw [hsink]
  exact m.sink.exists_text_write text

end Eval.Prints

lemma Program.evalEach_silenced (policy : Reclamation) (depth : Nat) (programs : List Program)
    (m : Machine) :
    evalEach policy depth programs m.silenced =
      (evalEach policy depth programs m).map (List.map silencedOutcome) := by
  induction programs generalizing m with
  | nil => rfl
  | cons program rest ih =>
    rw [evalEach, evalEach, (program.prints policy depth).silenced]
    cases program.eval policy depth m with
    | none => rfl
    | some r =>
      change (evalEach policy depth rest r.2.silenced).bind _ =
        ((evalEach policy depth rest r.2).bind _).map _
      rw [ih]
      cases evalEach policy depth rest r.2 <;> rfl

namespace Visit

def withSink (V : Visit) (sink : Sink) : Visit := { V with machine := V.machine.withSink sink }

def silenced (V : Visit) : Visit := V.withSink .broken

/-- On the way from `V` to `W` one text is written, and it would be to any other sink. -/
def Along (R : Visit → Visit → Prop) (V W : Visit) : Prop :=
  ∃ text, W.machine.sink = V.machine.sink.write text ∧
    ∀ s, R (V.withSink s) (W.withSink (s.write text))

lemma Along.of_same {R : Visit → Visit → Prop} {V W : Visit}
    (hsink : W.machine.sink = V.machine.sink) (h : ∀ s, R (V.withSink s) (W.withSink s)) :
    Along R V W := ⟨"", by simp [hsink], by simpa using h⟩

/-- The callee and the arguments write one text after the other. -/
lemma exists_text_of_args {depth : Nat} {m m₁ m₂ : Machine} {f : Expr} {args : List Expr}
    {g : Value} {vs : Except Value (List Value)}
    (hf : (Task.expr f).run .eager depth m = some (g, m₁))
    (hargs : evalArgs (Closure.call .eager depth) args m₁ = some (vs, m₂)) :
    ∃ text, m₂.sink = m.sink.write text ∧ ∀ s, ∃ s₁,
      (Task.expr f).run .eager depth (m.withSink s) = some (g, m₁.withSink s₁) ∧
      evalArgs (Closure.call .eager depth) args (m₁.withSink s₁) =
        some (vs, m₂.withSink (s.write text)) := by
  obtain ⟨first, hsink₁, hrun₁⟩ := Task.prints _ _ _ hf
  obtain ⟨second, hsink₂, hrun₂⟩ := Eval.prints_args (Eval.prints_call _ _) _ hargs
  refine ⟨first ++ second, by rw [hsink₂, hsink₁, Sink.write_write], fun s => ?_⟩
  rw [← Sink.write_write]
  exact ⟨s.write first, hrun₁ s, hrun₂ (s.write first)⟩

theorem Starts.along {V W : Visit} (h : Starts V W) : Along Starts V W := by
  cases h with
  | operand => exact .of_same rfl fun _ => .operand
  | left => exact .of_same rfl fun _ => .left
  | right hl hv =>
    obtain ⟨text, hsink, hrun⟩ := Task.prints _ _ _ hl
    exact ⟨text, hsink, fun s => .right (hrun s) hv⟩
  | test => exact .of_same rfl fun _ => .test
  | yes ht hv htrue =>
    obtain ⟨text, hsink, hrun⟩ := Task.prints _ _ _ ht
    exact ⟨text, hsink, fun s => .yes (hrun s) hv htrue⟩
  | no ht hv hfalse =>
    obtain ⟨text, hsink, hrun⟩ := Task.prints _ _ _ ht
    exact ⟨text, hsink, fun s => .no (hrun s) hv hfalse⟩
  | callee => exact .of_same rfl fun _ => .callee
  | arg hf hg hbefore =>
    obtain ⟨text, hsink, hrun⟩ := exists_text_of_args hf hbefore
    refine ⟨text, hsink, fun s => ?_⟩
    obtain ⟨s₁, hf, hbefore⟩ := hrun s
    exact .arg hf hg hbefore
  | call hf hargs hlen =>
    obtain ⟨text, hsink, hrun⟩ := exists_text_of_args hf hargs
    refine ⟨text, hsink, fun s => ?_⟩
    obtain ⟨s₁, hf, hargs⟩ := hrun s
    exact .call hf hargs hlen
  | body => exact .of_same rfl fun _ => .body
  | define => exact .of_same rfl fun _ => .define
  | ret => exact .of_same rfl fun _ => .ret
  | expr => exact .of_same rfl fun _ => .expr
  | block => exact .of_same rfl fun _ => .block
  | first => exact .of_same rfl fun _ => .first
  | rest hs hv =>
    obtain ⟨text, hsink, hrun⟩ := Task.prints _ _ _ hs
    exact ⟨text, hsink, fun s => .rest (hrun s) hv⟩

theorem along_of_visits {V W : Visit} (h : Relation.ReflTransGen Starts V W) :
    Along (Relation.ReflTransGen Starts) V W := by
  induction h with
  | refl => exact .of_same rfl fun _ => .refl
  | tail _ hstep ih =>
    obtain ⟨first, hsink₁, hrun₁⟩ := ih
    obtain ⟨second, hsink₂, hrun₂⟩ := hstep.along
    refine ⟨first ++ second, by rw [hsink₂, hsink₁, Sink.write_write], fun s => ?_⟩
    rw [← Sink.write_write]
    exact .tail (hrun₁ s) (hrun₂ (s.write first))

/-- Both directions come from the same fact: the one run has a sink like any other. -/
lemma silenced_iff {R : Visit → Visit → Prop} (hR : ∀ {V W}, R V W → Along R V W) (V W : Visit) :
    R V.silenced W ↔ ∃ U, R V U ∧ W = U.silenced := by
  constructor
  · intro h
    obtain ⟨text, hsink, hrun⟩ := hR h
    have hW : W = W.withSink (Sink.broken.write text) := congrArg W.withSink hsink
    exact ⟨_, hrun V.machine.sink, hW⟩
  · rintro ⟨U, hU, rfl⟩
    obtain ⟨text, -, hrun⟩ := hR hU
    exact hrun .broken

/-- The visit goes on in the same way if nothing can be written, and what it prints otherwise only
adds to the output. -/
structure InStep (V : Visit) : Prop where
  starts (W : Visit) : Starts V.silenced W ↔ ∃ U, Starts V U ∧ W = U.silenced
  visits (W : Visit) : Relation.ReflTransGen Starts V.silenced W ↔
    ∃ U, Relation.ReflTransGen Starts V U ∧ W = U.silenced
  run : V.task.run .eager V.depth V.silenced.machine =
    (V.task.run .eager V.depth V.machine).map silencedOutcome
  text_visits {W : Visit} (hW : Relation.ReflTransGen Starts V W) :
    ∃ printed, W.machine.sink.text = V.machine.sink.text ++ printed
  text_run {v : Value} {n : Machine} (h : V.task.run .eager V.depth V.machine = some (v, n)) :
    ∃ printed, n.sink.text = V.machine.sink.text ++ printed

lemma inStep (V : Visit) : V.InStep where
  starts := silenced_iff Starts.along V
  visits := silenced_iff along_of_visits V
  run := (Task.prints .eager V.depth V.task).silenced V.machine
  text_visits hW := by
    obtain ⟨text, hsink, -⟩ := along_of_visits hW
    rw [hsink]
    exact V.machine.sink.exists_text_write text
  text_run h := (Task.prints .eager V.depth V.task).exists_text_eq h

end Visit

/-- Programs that are run where no write succeeds have the outcomes that they have where every
write does, with nothing printed. They pass through the same states on the way; and where writes
succeed, each step and each program leaves the output as it was but for what it adds. -/
theorem Program.evalEach_broken (depth : Nat) :
    (∀ programs, evalEach .eager depth programs (.start .broken) =
      (evalEach .eager depth programs (.start .working)).map (List.map silencedOutcome)) ∧
      (∀ (program : Program) (m n : Machine) v, program.eval .eager depth m = some (v, n) →
        ∃ printed, n.sink.text = m.sink.text ++ printed) ∧
      ∀ V : Visit, V.InStep :=
  ⟨fun programs => evalEach_silenced .eager depth programs (.start .working),
    fun program _ _ _ h => (program.prints .eager depth).exists_text_eq h, Visit.inStep⟩

/-- The second program prints through another name of a builtin, from inside a function. -/
def printsThroughAlias : List Program :=
  [[.define "say" (.ident "puts"),
      .define "f" (.function ["x"]
        [.expr (.call (.ident "say") [.ident "x", .ident "len"]), .expr (.ident "x")])],
    [.expr (.call (.ident "f") [.str "a"]), .expr (.call (.ident "f") [.str "b"])]]

theorem Program.evalEach_broken_printsThroughAlias :
    ∃ outcomes, evalEach .eager 1 printsThroughAlias (.start .working) = some outcomes ∧
      outcomes.map (·.2.sink.text) =
        ["", "a\nbuiltin function len\nb\nbuiltin function len\n"] ∧
      evalEach .eager 1 printsThroughAlias (.start .broken) =
        some (outcomes.map silencedOutcome) := by
  obtain ⟨houtcomes, -, -⟩ := evalEach_broken 1
  have heval : (evalEach .eager 1 printsThroughAlias (.start .working)).map
      (List.map (·.2.sink.text)) =
        some ["", "a\nbuiltin function len\nb\nbuiltin function len\n"] := by decide +kernel
  obtain ⟨outcomes, hworking, htexts⟩ := Option.map_eq_some_iff.mp heval
  refine ⟨outcomes, hworking, htexts, ?_⟩
  rw [houtcomes, hworking]
  rfl

end Monkey
