import Monkey.Proofs.Eval.Checked

/-! No error and no `return` on its way is ever bound or held, in any state that an evaluation
passes through, and none gets past the call or the program that it belongs to. -/
namespace Monkey

/-- What a task gives, and where, when it is given ordinary values. -/
lemma Task.run_unmarked {t : Task} {m n : Machine} {depth : Nat} {v : Value}
    (hm : m.heap.Ordinary) (ht : ∀ u ∈ t.inputs, u.isAbrupt = false)
    (h : t.run .eager depth m = some (v, n)) :
    n.heap.Ordinary ∧ v.isOutcome = true ∧ ∀ c args, t = .call c args → v.tag ≠ .returned := by
  have hcalls := Checked.calls depth
  cases t with
  | expr e =>
    obtain ⟨hv, hn⟩ := (Checked.agrees_expr hcalls e m hm).2 v n h
    exact ⟨hn, hv, nofun⟩
  | stmt s =>
    obtain ⟨hv, hn⟩ := (Checked.agrees_stmt hcalls s m hm).2 v n h
    exact ⟨hn, hv, nofun⟩
  | block body last =>
    obtain ⟨hv, hn⟩ :=
      (Checked.agrees_block hcalls body (ht last List.mem_cons_self) m hm).2 v n h
    exact ⟨hn, hv, nofun⟩
  | call c args =>
    obtain ⟨hv, hn⟩ :=
      (hcalls c args (fun u hu => ht u (List.mem_cons_of_mem _ hu)) m hm).2 v n h
    exact ⟨hn, Value.isOutcome_of_arrived hv, fun _ _ _ => hv⟩

lemma Machine.Reachable.ordinary {sink : Sink} {m : Machine} (h : m.Reachable sink) :
    m.heap.Ordinary := by
  induction h with
  | start => exact Heap.ordinary_empty
  | program _ hrun ih => exact ((Checked.agrees_program _ _ _ ih).2 _ _ hrun).2

namespace Visit

/-- No scope binds an error or something that `return` carries, and no such value is held. -/
structure Unmarked (V : Visit) : Prop where
  machine : V.machine.heap.Ordinary
  values : ∀ v ∈ V.task.inputs ++ V.held, v.isAbrupt = false

lemma Unmarked.held {V : Visit} (h : V.Unmarked) : ∀ v ∈ V.held, v.isAbrupt = false :=
  fun v hv => h.values v (List.mem_append_right _ hv)

variable {depth : Nat} {m m₁ m₂ : Machine} {held : List Value}

lemma Unmarked.same {t t' : Task} (h : Unmarked ⟨depth, t, m, held⟩)
    (ht : ∀ v ∈ t'.inputs, v.isAbrupt = false) : Unmarked ⟨depth, t', m, held⟩ :=
  ⟨h.machine, List.forall_mem_append.mpr ⟨ht, h.held⟩⟩

/-- A task started after an expression or a statement has been evaluated. -/
lemma Unmarked.after {t t₁ t' : Task} {v : Value} (h : Unmarked ⟨depth, t, m, held⟩)
    (ht₁ : t₁.inputs = []) (hrun : t₁.run .eager depth m = some (v, m₁)) {held' : List Value}
    (ht' : ∀ u ∈ t'.inputs, u.isAbrupt = false)
    (hheld : ∀ u ∈ held', u.isAbrupt = false ∨ u ∈ held) : Unmarked ⟨depth, t', m₁, held'⟩ := by
  obtain ⟨hm₁, -⟩ := Task.run_unmarked h.machine (by rw [ht₁]; nofun) hrun
  refine ⟨hm₁, List.forall_mem_append.mpr ⟨ht', fun u hu => ?_⟩⟩
  exact (hheld u hu).elim id (h.held u)

lemma Unmarked.after_args {t : Task} {f : Expr} {args : List Expr} {g : Value} {vs : List Value}
    (h : Unmarked ⟨depth, t, m, held⟩) (hf : (Task.expr f).run .eager depth m = some (g, m₁))
    (hg : g.isAbrupt = false)
    (hargs : evalArgs (Closure.call .eager depth) args m₁ = some (.ok vs, m₂)) :
    m₂.heap.Ordinary ∧ ∀ u ∈ g :: vs ++ held, u.isAbrupt = false := by
  obtain ⟨hm₁, -⟩ := Task.run_unmarked (t := .expr f) h.machine nofun hf
  obtain ⟨hvs, hm₂⟩ := (Checked.agrees_args (Checked.calls depth) args m₁ hm₁).2 _ _ hargs
  exact ⟨hm₂, List.forall_mem_append.mpr ⟨List.forall_mem_cons.mpr ⟨hg, hvs⟩, h.held⟩⟩

theorem Starts.unmarked {V W : Visit} (h : Starts V W) (hV : V.Unmarked) : W.Unmarked := by
  have hnull : ∀ v ∈ [Value.null], v.isAbrupt = false := List.forall_mem_singleton.mpr rfl
  cases h with
  | operand => exact hV.same nofun
  | left => exact hV.same nofun
  | right hl hv =>
    exact hV.after rfl hl nofun (List.forall_mem_cons.mpr ⟨.inl hv, fun _ => .inr⟩)
  | test => exact hV.same nofun
  | yes ht hv htrue => exact hV.after rfl ht hnull fun _ => .inr
  | no ht hv hfalse => exact hV.after rfl ht hnull fun _ => .inr
  | callee => exact hV.same nofun
  | arg hf hg hbefore =>
    obtain ⟨hm₂, hheld⟩ := hV.after_args hf hg hbefore
    exact ⟨hm₂, hheld⟩
  | call hf hargs hlen =>
    obtain ⟨hm₂, hheld⟩ := hV.after_args hf rfl hargs
    refine ⟨hm₂, List.forall_mem_append.mpr ⟨fun u hu => ?_, hheld⟩⟩
    exact hheld u (List.mem_append_left _ hu)
  | @body depth m held c vs =>
    have hvs : ∀ v ∈ vs, v.isAbrupt = false := fun v hv =>
      hV.values v (List.mem_append_left _ (List.mem_cons_of_mem _ hv))
    refine ⟨?_, List.forall_mem_append.mpr ⟨hnull, hV.held⟩⟩
    exact (hV.machine.alloc c.scope).bindAll _ fun b hb => hvs b.2 (List.of_mem_zip hb).2
  | define => exact hV.same nofun
  | ret => exact hV.same nofun
  | expr => exact hV.same nofun
  | block => exact hV.same hnull
  | first => exact hV.same nofun
  | rest hs hv => exact hV.after rfl hs (List.forall_mem_singleton.mpr hv) fun _ => .inr

/-- Whatever programs have run before: checked evaluation of the next one does not stop, it gives
no `return`, and in every state that it passes through nothing is bound or held that is an error or
that `return` carries. What a task gives is carried by one `return` at most, and by none after a
call. -/
theorem unmarked_of_reachable {sink : Sink} {m : Machine} (hm : m.Reachable sink)
    (program : Program) (depth : Nat) :
    (program.check depth m).run = (program.eval .eager depth m).map .ok ∧
      (∀ v n, program.eval .eager depth m = some (v, n) →
        v.tag ≠ .returned ∧ n.heap.Ordinary) ∧
      ∀ V, Relation.ReflTransGen Starts ⟨depth, .block program .null, m, []⟩ V → V.Unmarked ∧
        ∀ v n, V.task.run .eager V.depth V.machine = some (v, n) →
          n.heap.Ordinary ∧ v.isOutcome = true ∧
            ∀ c args, V.task = .call c args → v.tag ≠ .returned := by
  obtain ⟨hcheck, hresult⟩ := Checked.agrees_program program depth m hm.ordinary
  refine ⟨hcheck, hresult, fun V hV => ?_⟩
  have hunmarked : V.Unmarked := by
    induction hV with
    | refl => exact ⟨hm.ordinary, List.forall_mem_singleton.mpr rfl⟩
    | tail _ hstarts ih => exact hstarts.unmarked ih
  refine ⟨hunmarked, fun v n h => ?_⟩
  exact Task.run_unmarked hunmarked.machine
    (fun u hu => hunmarked.values u (List.mem_append_left _ hu)) h

/-- A function that returns from inside an operand of what it returns. -/
def returnsInside : Program :=
  [.define "f" (.function ["x"]
      [.ret (.binary .add (.cond (.ident "x") [.ret (.int 1)] none) (.int 2))]),
    .ret (.call (.ident "f") [.bool true])]

theorem unmarked_of_reachable_returnsInside :
    (∃ n, (returnsInside.check 1 (.start .working)).run = some (.ok (.int 1, n)) ∧
      n.heap.Ordinary) ∧
    ∃ V : Visit, V.task = .block [.ret (.int 1)] .null ∧ V.held.length = 2 ∧ V.Unmarked ∧
      ∃ n, V.task.run .eager V.depth V.machine = some (.returned (.int 1), n) := by
  have hstart : (Machine.start .working).Reachable .working := .start
  obtain ⟨hcheck, hresult, hvisits⟩ := unmarked_of_reachable hstart returnsInside 1
  constructor
  · exact ⟨_, hcheck, (hresult _ _ rfl).2⟩
  · have hV : ∃ V, Relation.ReflTransGen Starts
        ⟨1, .block returnsInside .null, .start .working, []⟩ V ∧
        V.task = .block [.ret (.int 1)] .null ∧ V.held.length = 2 ∧
        ∃ n, V.task.run .eager V.depth V.machine = some (.returned (.int 1), n) := by
      refine ⟨_, .tail (.tail (.tail (.tail (.tail (.tail (.tail (.tail (.tail .refl
        (.rest rfl rfl)) .first) .ret) (.call rfl rfl rfl)) .body) .first) .ret) .left)
        (.yes rfl rfl rfl), rfl, rfl, _, rfl⟩
    obtain ⟨V, hV, htask, hheld, hrun⟩ := hV
    exact ⟨V, htask, hheld, (hvisits V hV).1, hrun⟩

end Visit
end Monkey
