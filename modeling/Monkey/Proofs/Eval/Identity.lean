import Monkey.Proofs.Eval.Located
import Monkey.Proofs.Eval.Visit
import Monkey.Proofs.Value.Equality

/-! Functions are told apart by their ids. Each time that a function literal is evaluated it takes
the next id, so of the functions that are bound or held in a state no two have the same one. The
values of every state that evaluation passes through are therefore the contents of objects. -/
namespace Monkey

/-- If the value is a function, it is one of the values given. -/
def Value.IsGiven (given : List Value) (v : Value) : Prop :=
  ∀ c ∈ v.function?, ∃ w ∈ given, w.function? = some c

lemma Value.isGiven_of_mem {given : List Value} {v : Value} (h : v ∈ given) : v.IsGiven given :=
  fun _ hc => ⟨v, h, hc⟩

lemma Value.isGiven_of_plain {given : List Value} {v : Value} (h : v.function? = none) :
    v.IsGiven given := by
  intro c hc
  rw [h] at hc
  cases hc

namespace Machine

/-- The functions that are bound in the machine or held. -/
def functions (m : Machine) (held : List Value) : List Closure :=
  (m.heap.values ++ held).filterMap Value.function?

/-- Their ids have been given out, each to one function. -/
structure Numbers (m : Machine) (held : List Value) : Prop where
  lt_fresh : ∀ c ∈ m.functions held, c.id < m.fresh
  unique : ∀ c ∈ m.functions held, ∀ d ∈ m.functions held, c.id = d.id → c = d

variable {m n : Machine} {held held' : List Value} {c : Closure} {v : Value}

lemma mem_functions :
    c ∈ m.functions held ↔ ∃ v, (v ∈ m.heap.values ∨ v ∈ held) ∧ v.function? = some c := by
  simp only [functions, List.mem_filterMap, List.mem_append]

lemma mem_functions_of_held (hv : v ∈ held) (hc : v.function? = some c) : c ∈ m.functions held :=
  mem_functions.mpr ⟨v, .inr hv, hc⟩

lemma mem_functions_of_bound (hv : v ∈ m.heap.values) (hc : v.function? = some c) :
    c ∈ m.functions held := mem_functions.mpr ⟨v, .inl hv, hc⟩

namespace Numbers

/-- A state with no other functions than one before it. -/
lemma of_known (h : m.Numbers held) (hfresh : m.fresh ≤ n.fresh)
    (hbound : ∀ v ∈ n.heap.values, ∀ c ∈ v.function?, c ∈ m.functions held)
    (hheld : ∀ v ∈ held', ∀ c ∈ v.function?, c ∈ m.functions held) : n.Numbers held' := by
  have hknown : n.functions held' ⊆ m.functions held := by
    intro c hc
    obtain ⟨v, hv | hv, hvc⟩ := mem_functions.mp hc
    · exact hbound v hv c hvc
    · exact hheld v hv c hvc
  exact ⟨fun c hc => Nat.lt_of_lt_of_le (h.lt_fresh c (hknown hc)) hfresh,
    fun c hc d hd => h.unique c (hknown hc) d (hknown hd)⟩

/-- Other values may be held instead, if their functions are among these. -/
lemma hold (h : m.Numbers held) (hgiven : ∀ v ∈ held', v.IsGiven held) : m.Numbers held' := by
  refine h.of_known (Nat.le_refl _) (fun _ hv _ => mem_functions_of_bound hv) fun v hv c hc => ?_
  obtain ⟨w, hw, hwc⟩ := hgiven v hv c hc
  exact mem_functions_of_held hw hwc

lemma subset (h : m.Numbers held) (hsubset : held' ⊆ held) : m.Numbers held' :=
  h.hold fun _ hv => Value.isGiven_of_mem (hsubset hv)

/-- What is known is held together with what is held already. -/
lemma append (h : m.Numbers held) (hknown : ∀ v ∈ held', ∀ c ∈ v.function?, c ∈ m.functions held) :
    m.Numbers (held' ++ held) := by
  refine h.of_known (Nat.le_refl _) (fun _ hv _ => mem_functions_of_bound hv) fun v hv => ?_
  rcases List.mem_append.mp hv with hv | hv
  · exact hknown v hv
  · exact fun _ => mem_functions_of_held hv

lemma plain (h : m.Numbers held) (hv : v.function? = none) : m.Numbers (v :: held) :=
  h.hold (List.forall_mem_cons.mpr ⟨Value.isGiven_of_plain hv, fun _ => Value.isGiven_of_mem⟩)

lemma unwrap (h : m.Numbers (v :: held)) : m.Numbers (v.unwrap :: held) := by
  refine h.hold (List.forall_mem_cons.mpr ⟨fun c hc => ?_, fun w hw => ?_⟩)
  · rw [Value.function?_unwrap] at hc
    exact ⟨v, List.mem_cons_self, hc⟩
  · exact Value.isGiven_of_mem (List.mem_cons_of_mem _ hw)

/-! What each change of the machine does to this. -/

lemma define (h : m.Numbers held) (hv : v ∈ held) (name : String) :
    Numbers { m with heap := m.heap.bind m.scope name v } held := by
  refine h.of_known (Nat.le_refl _) (fun w hw c hc => ?_) fun _ hw _ => mem_functions_of_held hw
  rcases Heap.mem_values_bind hw with rfl | hw
  · exact mem_functions_of_held hv hc
  · exact mem_functions_of_bound hw hc

/-- A new function has an id that no other one has. -/
lemma close (h : m.Numbers held) (params : List String) (body : Block) :
    Numbers { m with fresh := m.fresh + 1 }
      (.function ⟨m.fresh, params, body, m.scope⟩ :: held) := by
  have hcases : ∀ c ∈ functions { m with fresh := m.fresh + 1 }
      (.function ⟨m.fresh, params, body, m.scope⟩ :: held),
      c = ⟨m.fresh, params, body, m.scope⟩ ∨ c ∈ m.functions held := by
    intro c hc
    obtain ⟨v, hv | hv, hvc⟩ := mem_functions.mp hc
    · exact .inr (mem_functions_of_bound hv hvc)
    · rcases List.mem_cons.mp hv with rfl | hv
      · exact .inl (Option.some.inj hvc).symm
      · exact .inr (mem_functions_of_held hv hvc)
  constructor
  · intro c hc
    change c.id < m.fresh + 1
    rcases hcases c hc with rfl | hc
    · exact Nat.lt_succ_self _
    · exact Nat.lt_succ_of_lt (h.lt_fresh c hc)
  · intro c hc d hd hid
    rcases hcases c hc with rfl | hc <;> rcases hcases d hd with rfl | hd
    · rfl
    · exact absurd hid (Nat.ne_of_gt (h.lt_fresh d hd))
    · exact absurd hid (Nat.ne_of_lt (h.lt_fresh c hc))
    · exact h.unique c hc d hd hid

lemma write (h : m.Numbers held) (sink : Sink) : Numbers { m with sink } held :=
  h.of_known (Nat.le_refl _) (fun _ hv _ => mem_functions_of_bound hv)
    fun _ hv _ => mem_functions_of_held hv

lemma entered (h : m.Numbers held) {args : List Value} (hargs : args ⊆ held) (c : Closure) :
    (m.entered c args).Numbers held := by
  refine h.of_known (Nat.le_refl _) (fun v hv d hd => ?_) fun _ hv _ => mem_functions_of_held hv
  rcases Heap.mem_values_bindAll hv with ⟨b, hb, rfl⟩ | hv
  · exact mem_functions_of_held (hargs (List.of_mem_zip hb).2) hd
  · exact mem_functions_of_bound (Heap.mem_values_alloc hv) hd

lemma swept (h : m.Numbers held) (mark : Nat) (roots : List Value) (scope : ScopeId) :
    Numbers { m with heap := m.heap.sweep mark roots, scope } held :=
  h.of_known (Nat.le_refl _) (fun _ hv _ => mem_functions_of_bound (Heap.mem_values_sweep hv))
    fun _ hv _ => mem_functions_of_held hv

end Numbers
end Machine

namespace Eval

variable {α β : Type} {given : List Value} {answer : α → List Value} {answer' : β → List Value}

/-- Whatever is held meanwhile, what is given included, the computation keeps functions apart, and
from those in its answer. -/
def Numbers (given : List Value) (answer : α → List Value) (x : Eval α) : Prop :=
  ∀ held m a n, given ⊆ held → m.Numbers held → x m = some (a, n) → n.Numbers (answer a ++ held)

/-- As above, of a computation that gives a value. -/
abbrev NumbersValue (given : List Value) (x : Eval Value) : Prop := Numbers given (fun v => [v]) x

namespace Numbers

lemma pure {a : α} (h : ∀ v ∈ answer a, v.IsGiven given) :
    Numbers given answer (Pure.pure a) := by
  intro held m b n hgiven hm heq
  obtain ⟨rfl, rfl⟩ := Prod.mk.inj (Option.some.inj heq)
  apply hm.append
  intro v hv c hc
  obtain ⟨w, hw, hwc⟩ := h v hv c hc
  exact Machine.mem_functions_of_held (hgiven hw) hwc

lemma bind {x : Eval α} {f : α → Eval β} (hx : Numbers given answer x)
    (hf : ∀ a, Numbers (answer a ++ given) answer' (f a)) : Numbers given answer' (x >>= f) := by
  intro held m b n hgiven hm heq
  change (x m).bind (fun r => f r.1 r.2) = some (b, n) at heq
  obtain ⟨⟨a, m₁⟩, hxm, hfm⟩ := Option.bind_eq_some_iff.mp heq
  have hm₁ := hx held m a m₁ hgiven hm hxm
  have hgiven₁ : answer a ++ given ⊆ answer a ++ held := by
    intro v hv
    simp only [List.mem_append] at hv ⊢
    exact hv.imp_right fun hv => hgiven hv
  apply (hf a _ m₁ b n hgiven₁ hm₁ hfm).subset
  intro v hv
  simp only [List.mem_append] at hv ⊢
  exact hv.imp_right .inr

lemma mono {given' : List Value} {x : Eval α} (hx : Numbers given answer x)
    (h : given ⊆ given') : Numbers given' answer x :=
  fun held m a n hgiven => hx held m a n (List.Subset.trans h hgiven)

lemma andThen {x : Eval Value} {f : Value → Eval Value} (hx : NumbersValue given x)
    (hf : ∀ v, NumbersValue (v :: given) (f v)) : NumbersValue given (x.andThen f) := by
  refine hx.bind fun v => ?_
  split
  · exact .pure fun _ hv => Value.isGiven_of_mem (List.mem_append_left _ hv)
  · exact hf v

end Numbers

/-! ### The parts of evaluation -/

lemma numbers_value {v : Value} (h : v.IsGiven given) : NumbersValue given (Pure.pure v) :=
  .pure (List.forall_mem_singleton.mpr h)

lemma numbers_plain {v : Value} (h : v.function? = none) : NumbersValue given (Pure.pure v) :=
  numbers_value (Value.isGiven_of_plain h)

lemma numbers_resolve (name : String) : NumbersValue given (resolve name) := by
  intro held m v n _ hm heq
  rw [resolve_apply] at heq
  obtain ⟨rfl, rfl⟩ := Prod.mk.inj (Option.some.inj heq)
  cases hv : m.heap.lookup m.scope name with
  | some v =>
    apply hm.append
    simp only [List.mem_singleton, Option.getD_some, forall_eq]
    exact fun c hc => Machine.mem_functions_of_bound (Heap.mem_values_of_lookup hv) hc
  | none => cases Builtin.ofName? name <;> exact hm.plain rfl

lemma numbers_define (name : String) {v : Value} (hv : v ∈ given) :
    NumbersValue given (define name v) := by
  intro held m w n hgiven hm heq
  obtain ⟨rfl, rfl⟩ := Prod.mk.inj (Option.some.inj heq)
  exact (hm.define (hgiven hv) name).plain rfl

lemma numbers_close (params : List String) (body : Block) :
    NumbersValue given (close params body) := by
  intro held m v n _ hm heq
  obtain ⟨rfl, rfl⟩ := Prod.mk.inj (Option.some.inj heq)
  exact hm.close params body

lemma numbers_applyBuiltin (b : Builtin) (args : List Value) :
    NumbersValue given (applyBuiltin b args) := by
  intro held m v n _ hm heq
  rw [applyBuiltin_apply] at heq
  obtain ⟨rfl, rfl⟩ := Prod.mk.inj (Option.some.inj heq)
  refine (hm.write _).plain ?_
  split
  · next v hv => exact Value.function?_of_isPlain (Builtin.isPlain_of_apply hv)
  · rfl

section
variable {call : Closure → List Value → Eval Value}

/-- Calls keep functions apart, whatever function is called. -/
def CallsNumber (call : Closure → List Value → Eval Value) : Prop :=
  ∀ c args, NumbersValue args (call c args)

lemma numbers_apply (hcall : CallsNumber call) (f : Value) {args : List Value}
    (hargs : args ⊆ given) : NumbersValue given (apply call f args) := by
  cases f with
  | function c =>
    rw [apply]
    split
    · exact (hcall c args).mono hargs
    · exact numbers_plain rfl
  | builtin b => exact numbers_applyBuiltin b args
  | _ => exact numbers_plain rfl

/-- The values of arguments, or the one that ended their evaluation. -/
def argumentValues : Except Value (List Value) → List Value
  | .ok vs => vs
  | .error v => [v]

mutual

theorem numbers_expr (hcall : CallsNumber call) (given : List Value) :
    ∀ e : Expr, NumbersValue given (e.eval call)
  | .ident name => numbers_resolve name
  | .int value => numbers_plain rfl
  | .str value => numbers_plain rfl
  | .bool value => numbers_plain rfl
  | .unary op operand => by
    refine (numbers_expr hcall given operand).andThen fun v => ?_
    exact numbers_plain (Value.function?_of_isPlain (Value.isPlain_unary op v))
  | .binary op left right => by
    refine (numbers_expr hcall given left).andThen fun l => ?_
    refine (numbers_expr hcall _ right).andThen fun r => ?_
    exact numbers_plain (Value.function?_of_isPlain (Value.isPlain_binary op l r))
  | .cond test yes no => by
    refine (numbers_expr hcall given test).andThen fun v => ?_
    split
    · exact numbers_block hcall _ yes (Value.isGiven_of_plain rfl)
    · exact numbers_else hcall _ no
  | .function params body => numbers_close params body
  | .call callee args => by
    refine (numbers_expr hcall given callee).andThen fun f => ?_
    refine (numbers_args hcall _ args).bind fun x => ?_
    match x with
    | .ok vs => exact numbers_apply hcall f (List.subset_append_left _ _)
    | .error v => exact numbers_value (Value.isGiven_of_mem List.mem_cons_self)

theorem numbers_stmt (hcall : CallsNumber call) (given : List Value) :
    ∀ s : Stmt, NumbersValue given (s.eval call)
  | .define name value => (numbers_expr hcall given value).andThen fun _ =>
      numbers_define name List.mem_cons_self
  | .ret value => (numbers_expr hcall given value).andThen fun v =>
      numbers_value fun _ hc => ⟨v, List.mem_cons_self, hc⟩
  | .expr value => numbers_expr hcall given value
  | .block body => numbers_block hcall given body (Value.isGiven_of_plain rfl)

theorem numbers_block (hcall : CallsNumber call) (given : List Value) :
    ∀ (body : List Stmt) {last : Value}, last.IsGiven given →
      NumbersValue given (evalBlock call body last)
  | [], _, h => numbers_value h
  | s :: rest, _, _ => (numbers_stmt hcall given s).andThen fun _ =>
      numbers_block hcall _ rest (Value.isGiven_of_mem List.mem_cons_self)

theorem numbers_else (hcall : CallsNumber call) (given : List Value) :
    ∀ no : Option (List Stmt), NumbersValue given (evalElse call no)
  | none => numbers_plain rfl
  | some body => numbers_block hcall given body (Value.isGiven_of_plain rfl)

theorem numbers_args (hcall : CallsNumber call) (given : List Value) :
    ∀ args : List Expr, Numbers given argumentValues (evalArgs call args)
  | [] => .pure (List.forall_mem_nil _)
  | e :: rest => by
    refine (numbers_expr hcall given e).bind fun v => ?_
    split
    · exact .pure fun _ hw => Value.isGiven_of_mem (List.mem_append_left _ hw)
    · refine (numbers_args hcall _ rest).bind fun x => .pure fun w hw => Value.isGiven_of_mem ?_
      match x with
      | .ok vs =>
        rcases List.mem_cons.mp hw with rfl | hw
        · exact List.mem_append_right _ List.mem_cons_self
        · exact List.mem_append_left _ hw
      | .error u => exact List.mem_append_left _ hw

end
end

/-- Calls keep functions apart to any depth. -/
theorem callsNumber (depth : Nat) : CallsNumber (Closure.call .eager depth) := by
  induction depth with
  | zero => exact fun c args held m v n _ _ heq => nomatch heq
  | succ depth ih =>
    intro c args held m v n hargs hm heq
    rw [Closure.call, runIn_apply] at heq
    obtain ⟨⟨u, last⟩, hbody, heq⟩ := Option.bind_eq_some_iff.mp heq
    obtain ⟨rfl, rfl⟩ := Prod.mk.inj (Option.some.inj heq)
    have hlast : last.Numbers (u :: held) :=
      numbers_block ih [] c.body (Value.isGiven_of_plain rfl) held _ u last (List.nil_subset _)
        (hm.entered hargs c) hbody
    exact hlast.unwrap.swept _ _ _

end Eval

lemma Task.numbers (t : Task) (depth : Nat) :
    Eval.NumbersValue t.inputs (t.run .eager depth) := by
  have hcall := Eval.callsNumber depth
  cases t with
  | expr e => exact Eval.numbers_expr hcall _ e
  | stmt s => exact Eval.numbers_stmt hcall _ s
  | block body last =>
    exact Eval.numbers_block hcall _ body (Value.isGiven_of_mem List.mem_cons_self)
  | call c args => exact (hcall c args).mono (List.subset_cons_self _ _)

lemma Machine.Reachable.numbers {sink : Sink} {m : Machine} (h : m.Reachable sink) :
    m.Numbers [] := by
  induction h with
  | start => exact ⟨nofun, nofun⟩
  | @program m n program depth v _ hrun ih =>
    rw [Program.eval_apply] at hrun
    obtain ⟨⟨u, last⟩, hblock, hrun⟩ := Option.bind_eq_some_iff.mp hrun
    obtain ⟨rfl, rfl⟩ := Prod.mk.inj (Option.some.inj hrun)
    have hlast : last.Numbers [u, .null] :=
      (Task.block program .null).numbers depth _ m u last (List.Subset.refl _) (ih.plain rfl) hblock
    exact (hlast.subset (List.nil_subset _)).swept _ _ last.scope

/-! ### Visits -/

namespace Visit

/-- No two functions of the state have the same id. -/
def Numbered (V : Visit) : Prop := V.machine.Numbers (V.task.inputs ++ V.held)

lemma Numbered.held {V : Visit} (h : V.Numbered) : V.machine.Numbers V.held :=
  Machine.Numbers.subset h (List.subset_append_right _ _)

variable {depth : Nat} {m m₁ m₂ : Machine} {held : List Value} {t t₁ : Task} {v : Value}

/-- After an expression or a statement its value is held as well. -/
lemma Numbered.after (h : Numbered ⟨depth, t, m, held⟩) (ht₁ : t₁.inputs = [])
    (hrun : t₁.run .eager depth m = some (v, m₁)) : m₁.Numbers (v :: held) := by
  have hnone : t₁.inputs ⊆ held := by
    rw [ht₁]
    exact List.nil_subset held
  exact t₁.numbers depth held m v m₁ hnone h.held hrun

/-- After the callee and the arguments these are. -/
lemma Numbered.after_args {f : Expr} {args : List Expr} {g : Value} {vs : List Value}
    (h : Numbered ⟨depth, t, m, held⟩) (hf : (Task.expr f).run .eager depth m = some (g, m₁))
    (hargs : evalArgs (Closure.call .eager depth) args m₁ = some (.ok vs, m₂)) :
    m₂.Numbers (g :: vs ++ held) := by
  have hm₂ : m₂.Numbers (vs ++ g :: held) := Eval.numbers_args (Eval.callsNumber depth) [] args
    _ m₁ _ m₂ (List.nil_subset _) (h.after rfl hf) hargs
  apply hm₂.subset
  intro u hu
  simp only [List.cons_append, List.mem_cons, List.mem_append] at hu ⊢
  tauto

theorem Starts.numbered {V W : Visit} (h : Starts V W) (hV : V.Numbered) : W.Numbered := by
  cases h with
  | operand => exact hV.held
  | left => exact hV.held
  | right hl hv => exact hV.after rfl hl
  | test => exact hV.held
  | yes ht hv htrue => exact ((hV.after rfl ht).subset (List.subset_cons_self _ _)).plain rfl
  | no ht hv hfalse => exact ((hV.after rfl ht).subset (List.subset_cons_self _ _)).plain rfl
  | callee => exact hV.held
  | arg hf hg hbefore => exact hV.after_args hf hbefore
  | @call _ _ _ _ _ _ _ c vs hf hargs hlen =>
    refine (hV.after_args hf hargs).subset (List.append_subset.mpr ⟨?_, List.Subset.refl _⟩)
    exact List.subset_append_left _ _
  | @body depth m held c vs =>
    have hvs : vs ⊆ (Task.call c vs).inputs ++ held := fun v hv =>
      List.mem_append_left _ (List.mem_cons_of_mem _ hv)
    have hentered := Machine.Numbers.entered hV hvs c
    exact (hentered.subset (List.subset_append_right _ _)).plain rfl
  | define => exact hV.held
  | ret => exact hV.held
  | expr => exact hV.held
  | block => exact hV.held.plain rfl
  | first => exact hV.held
  | rest hs hv => exact hV.after rfl hs

end Visit

lemma Machine.Numbers.areContents {m : Machine} {held : List Value} (h : m.Numbers held) :
    AreContents (m.heap.values ++ held) := by
  refine areContents_of_unique fun c d hc hd => h.unique c ?_ d ?_
  · exact mem_functions.mpr ⟨_, List.mem_append.mp hc, rfl⟩
  · exact mem_functions.mpr ⟨_, List.mem_append.mp hd, rfl⟩

/-- Equality is consistent on all objects. In every state of every run, where a task starts and
where it ends, the values that are bound or held are contents of objects, so that functions are
equal there just if the same evaluation of a literal made them. -/
theorem equality_consistent :
    (∀ S : Objects, S.Consistent) ∧
      ∀ (sink : Sink) (m : Machine) (program : Program) (depth : Nat) (V : Visit),
        m.Reachable sink →
        Relation.ReflTransGen Visit.Starts ⟨depth, .block program .null, m, []⟩ V →
        AreContents (V.machine.heap.values ++ (V.task.inputs ++ V.held)) ∧
          ∀ v n, V.task.run .eager V.depth V.machine = some (v, n) →
            AreContents (n.heap.values ++ v :: (V.task.inputs ++ V.held)) := by
  refine ⟨Objects.consistent, fun sink m program depth V hm hV => ?_⟩
  have hnumbered : V.Numbered := by
    induction hV with
    | refl => exact hm.numbers.plain rfl
    | tail _ hstarts ih => exact hstarts.numbered ih
  refine ⟨Machine.Numbers.areContents hnumbered, fun v n hrun => ?_⟩
  have hn := V.task.numbers V.depth _ _ v n (List.subset_append_left _ _) hnumbered hrun
  exact Machine.Numbers.areContents hn

/-- Two functions from one literal are compared. -/
def Program.comparesTwins : Program :=
  [.define "make" (.function [] [.expr (.function ["x"] [.expr (.ident "x")])]),
    .define "f" (.call (.ident "make") []), .define "g" (.call (.ident "make") []),
    .expr (.binary .equal (.ident "f") (.ident "g"))]

/-- They look the same and are not equal. -/
theorem equality_consistent_twins :
    ∃ (S : Objects) (i j : Nat), (S.content i).tag = .function ∧
      (S.content i).display = (S.content j).display ∧
      (S.handle i).equal (S.handle j) = false ∧ (S.handle i).equal (S.handle i) = true ∧
      BinaryOp.equal.apply (S.content i) (S.content j) = .bool false := by
  have hvisit : ∃ (V : Visit) (n : Machine) (c d : Closure),
      Relation.ReflTransGen Visit.Starts
        ⟨1, .block Program.comparesTwins .null, .start .working, []⟩ V ∧
      V.held = [.function c] ∧ V.task.run .eager V.depth V.machine = some (.function d, n) ∧
      c.id = 1 ∧ d.id = 2 ∧ c.display = d.display :=
    ⟨_, _, _, _, .tail (.tail (.tail (.tail (.tail (.tail .refl (.rest rfl rfl)) (.rest rfl rfl))
      (.rest rfl rfl)) .first) .expr) (.right rfl rfl), rfl, rfl, rfl, rfl, rfl⟩
  obtain ⟨V, n, c, d, hV, hheld, hrun, hc, hd, hdisplay⟩ := hvisit
  obtain ⟨S, hS⟩ := (equality_consistent.2 _ _ _ _ V .start hV).2 _ n hrun
  obtain ⟨i, hi⟩ := hS (.function c) (by simp [hheld])
  obtain ⟨j, hj⟩ := hS (.function d) (by simp)
  have htag : (S.content i).tag = .function := by rw [hi]; rfl
  have hne : i ≠ j := by
    rintro rfl
    obtain rfl : c = d := Value.function.inj (hi.symm.trans hj)
    omega
  have hconsistent := equality_consistent.1 S
  have hequal : (S.handle i).equal (S.handle j) = false :=
    Bool.eq_false_iff.mpr fun h => hne ((hconsistent.functions htag).mp h)
  refine ⟨S, i, j, htag, ?_, hequal, hconsistent.equivalence.refl i, ?_⟩
  · rw [hi, hj]
    exact hdisplay
  · rw [← hequal]
    exact (hconsistent.operators (by rw [hi]; rfl) (by rw [hj]; rfl)).1

end Monkey
