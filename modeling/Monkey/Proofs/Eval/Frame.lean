import Monkey.Proofs.Eval.Exact

/-! What evaluation cannot change. A call leaves all scopes from before it as they were, and any
evaluation changes of them at most the bindings of the current one. What the values hold on to does
not matter: this holds even of functions whose scope has been freed. -/
namespace Monkey

lemma Heap.kept_tidy : Heap.Kept Heap.Tidy where
  alloc ht outer := (ht.adds_alloc outer).tidy ht
  bind ht := ht.bind
  sweep _ ht := ht.sweep

lemma Machine.tidy_entered {m : Machine} (hm : m.heap.Tidy) (c : Closure) (args : List Value) :
    (m.entered c args).heap.Tidy :=
  Heap.kept_tidy.bindAll (Heap.kept_tidy.alloc hm c.scope) _ _

/-- A machine compared with itself, to see what it keeps whatever values hold on to. -/
def Simulation.framing : Simulation .eager .eager where
  World := Machine
  le := Machine.Extends
  scopes _ a b := a = b
  machines w m n := m = w ∧ n = w ∧ w.heap.Tidy
  le_refl := .refl
  le_trans := .trans
  scopes_mono _ hab := hab
  current := by
    rintro _ _ m ⟨rfl, rfl, -⟩
    rfl
  fresh := by
    rintro _ _ m ⟨rfl, rfl, -⟩
    rfl
  sink := by
    rintro _ _ m ⟨rfl, rfl, -⟩
    rfl
  lookup := by
    rintro _ _ m ⟨rfl, rfl, -⟩ name
    cases m.heap.lookup m.scope name with
    | none => exact .none
    | some v => exact .some (Value.Alike.eq_iff.mpr rfl)
  define := by
    rintro _ _ m a b ⟨rfl, rfl, hw⟩ hab name
    obtain rfl := Value.Alike.eq_iff.mp hab
    exact ⟨_, m.extends_define name a, rfl, rfl, hw.bind m.scope name a⟩
  close := by
    rintro _ _ m ⟨rfl, rfl, hw⟩
    exact ⟨{ m with fresh := m.fresh + 1 }, .of_eq rfl rfl, rfl, rfl, hw⟩
  write := by
    rintro _ _ m ⟨rfl, rfl, hw⟩ sink
    exact ⟨{ m with sink }, .of_eq rfl rfl, rfl, rfl, hw⟩
  call := by
    rintro _ _ m c d vs us ⟨rfl, rfl, hw⟩ hcd hargs
    obtain rfl := Value.function.inj (Value.Alike.eq_iff.mp hcd)
    obtain rfl : vs = us :=
      List.forall₂_eq_eq_eq ▸ hargs.imp fun _ _ hab => Value.Alike.eq_iff.mp hab
    refine ⟨m.entered c vs, ⟨rfl, rfl, Machine.tidy_entered hw c vs⟩, ?_⟩
    rintro _ _ last a b hlast ⟨rfl, rfl, hs⟩ hab
    have hintact := (Machine.opens_of_tidy hw c vs).intact hw hlast hs a
    obtain rfl := Value.Alike.eq_iff.mp hab
    exact ⟨_, hintact.extends, ⟨rfl, rfl, hs.sweep _ _⟩, hab⟩

section
variable {m n : Machine} {depth : Nat} {v : Value}

/-- Whatever the task is given, of what was there only bindings of the current scope change. -/
theorem Task.run_extends {t : Task} (hm : m.heap.Tidy) (h : t.run .eager depth m = some (v, n)) :
    m.Extends n ∧ n.heap.Tidy := by
  have hfollows : Simulation.framing.Follows m Simulation.framing.Values (t.run .eager depth)
      (t.run .eager depth) :=
    Simulation.follows_task (S := .framing) t (fun _ _ => Value.Alike.eq_iff.mpr rfl) depth
  have hrel := hfollows m (.refl m) m m ⟨rfl, rfl, hm⟩
  rw [h] at hrel
  cases hrel with
  | some hrel =>
    obtain ⟨w, hw, ⟨rfl, -, hn⟩, -⟩ := hrel
    exact ⟨hw, hn⟩

namespace Machine

lemma Intact.of_eq (hheap : n.heap = m.heap) (hscope : n.scope = m.scope) : m.Intact n where
  created := hheap ▸ List.prefix_refl _
  scope := hscope
  scope?_eq _ := by rw [hheap]

/-- The body of a call has a scope of its own to bind in. -/
theorem intact_of_call {c : Closure} {args : List Value} (hm : m.heap.Tidy)
    (h : Closure.call .eager depth c args m = some (v, n)) : m.Intact n := by
  cases depth with
  | zero => cases h
  | succ depth =>
    rw [Closure.call, Eval.runIn_apply] at h
    obtain ⟨⟨u, last⟩, hbody, h⟩ := Option.bind_eq_some_iff.mp h
    obtain ⟨rfl, rfl⟩ := Prod.mk.inj (Option.some.inj h)
    obtain ⟨hlast, hs⟩ :=
      Task.run_extends (t := .block c.body .null) (tidy_entered hm c args) hbody
    exact (opens_of_tidy hm c args).intact hm hlast hs u.unwrap

theorem intact_of_apply {f : Value} {args : List Value} (hm : m.heap.Tidy)
    (h : Eval.apply (Closure.call .eager depth) f args m = some (v, n)) : m.Intact n := by
  cases f with
  | function c =>
    rw [Eval.apply] at h
    split at h
    · exact intact_of_call hm h
    · cases h
      exact .of_eq rfl rfl
  | builtin b =>
    rw [Eval.apply, Eval.applyBuiltin_apply] at h
    cases h
    exact .of_eq rfl rfl
  | _ =>
    cases h
    exact .of_eq rfl rfl

/-- The states that programs pass through, run one after another from the start: wherever a task
starts, and wherever it ends. -/
inductive Passed (sink : Sink) : Machine → Prop
  | starts {m : Machine} {program : Program} {depth : Nat} {V : Visit} (hm : m.Reachable sink)
      (hV : Relation.ReflTransGen Visit.Starts ⟨depth, .block program .null, m, []⟩ V) :
      Passed sink V.machine
  | ends {m n : Machine} {program : Program} {depth : Nat} {V : Visit} {v : Value}
      (hm : m.Reachable sink)
      (hV : Relation.ReflTransGen Visit.Starts ⟨depth, .block program .null, m, []⟩ V)
      (h : V.task.run .eager V.depth V.machine = some (v, n)) : Passed sink n

lemma Passed.sound {sink : Sink} (hm : m.Passed sink) : m.Sound := by
  cases hm with
  | starts hm hV => exact (Visit.sound_of_reachable hm hV).machine
  | ends hm hV h =>
    have hsound := Visit.sound_of_reachable hm hV
    exact (Task.run_spec hsound.machine hsound.inputs h).1

/-- Wherever a value is applied to arguments, however many and however the body ends: all scopes
are afterwards as they were. Any other evaluation touches the bindings of the current scope only. -/
theorem frame_of_passed {sink : Sink} (hm : m.Passed sink) (depth : Nat) :
    (∀ f args v n, Eval.apply (Closure.call .eager depth) f args m = some (v, n) → m.Intact n) ∧
      ∀ (t : Task) v n, t.run .eager depth m = some (v, n) → m.Extends n :=
  ⟨fun _ _ _ _ h => intact_of_apply hm.sound.heap.tidy h,
    fun _ _ _ h => (Task.run_extends hm.sound.heap.tidy h).1⟩

/-- Inside the call of `f`, a call of `g` rebinds `x` for itself and then fails; a definition there
does change the scope of `f`. -/
theorem frame_of_passed_shadowed :
    ∃ (m : Machine) (g : Closure) (v : Value), m.Passed .working ∧ m.heap.created = [⟨1⟩] ∧
      g.scope = m.scope ∧
      (∃ n, Eval.apply (Closure.call .eager 1) (.function g) [v] m =
        some (.error (.unbound "z"), n) ∧ m.Intact n) ∧
      ∃ n, (Task.stmt (.define "x" (.int 2))).run .eager 1 m = some (.null, n) ∧
        n.heap.lookup m.scope "x" = some (.int 2) ∧ m.Extends n := by
  have hvisit : ∃ (V : Visit) (g : Closure) (v : Value),
      Relation.ReflTransGen Visit.Starts ⟨2, .block
        [.define "f" (.function ["x"]
          [.define "g" (.function ["y"] [.define "x" (.ident "y"), .expr (.ident "z")]),
            .expr (.call (.ident "g") [.ident "x"])]),
        .expr (.call (.ident "f") [.int 1])] .null, .start .working, []⟩ V ∧
      V.task = .call g [v] ∧ V.machine.heap.created = [⟨1⟩] ∧ g.scope = V.machine.scope ∧
      (∃ n, Eval.apply (Closure.call .eager 1) (.function g) [v] V.machine =
        some (.error (.unbound "z"), n)) ∧
      ∃ n, (Task.stmt (.define "x" (.int 2))).run .eager 1 V.machine = some (.null, n) ∧
        n.heap.lookup V.machine.scope "x" = some (.int 2) := by
    exact ⟨_, _, _, .head (.rest rfl rfl) (.head .first (.head .expr (.head (.call rfl rfl rfl)
      (.head .body (.head (.rest rfl rfl) (.head .first (.head .expr
        (.single (.call rfl rfl rfl))))))))), rfl, rfl, rfl, ⟨_, rfl⟩, _, rfl, rfl⟩
  obtain ⟨V, g, v, hV, -, hcreated, hscope, ⟨n, hcall⟩, n', hdefine, hx⟩ := hvisit
  have hm : V.machine.Passed .working := .starts .start hV
  obtain ⟨hcalls, htasks⟩ := frame_of_passed hm 1
  exact ⟨V.machine, g, v, hm, hcreated, hscope, ⟨n, hcall, hcalls _ _ _ _ hcall⟩,
    n', hdefine, hx, htasks _ _ _ hdefine⟩

end Machine
end
end Monkey
