import Monkey.Proofs.Eval.Exact
import Monkey.Proofs.Eval.Renaming

/-! A program can be given in parts. Its statements have the same outcome in one program and in two
that run one after the other, although the end of the first frees scopes and the second uses their
slots again. Both runs are mirrored by the one that frees nothing, which does not notice where a
program ends; and of that one, each of them has kept exactly what can still be reached. -/
namespace Monkey

/-! ### What the mirror of a machine reaches -/

namespace Mirrors

variable {f : ScopeId → ScopeId} {m k : Machine} {id : ScopeId} {roots : List Value}

lemma references (h : Mirrors f m k) (hid : m.heap.IsLive id) :
    k.heap.references (f id) = (m.heap.references id).map f := by
  obtain ⟨s, hs⟩ := Heap.isLive_iff.mp hid
  have himage : k.heap.scope? (f id) = some (s.rename f) := by rw [h.scope? hid, hs]; rfl
  rw [Heap.references_of_scope? himage, Heap.references_of_scope? hs, s.references_rename]

/-- Renamed values reach the images of what the values reach. -/
lemma reaches_iff (h : Mirrors f m k) (hroots : ∀ v ∈ roots, m.Holds v) (c : ScopeId) :
    k.heap.Reaches (roots.map (Value.rename f)) c ↔ ∃ a, m.heap.Reaches roots a ∧ f a = c := by
  constructor
  · intro hreach
    refine hreach.mem_of_closed (P := fun c => ∃ a, m.heap.Reaches roots a ∧ f a = c)
      (fun c hc => ?_) ?_
    · obtain ⟨_, hu, hcap⟩ := List.mem_filterMap.mp hc
      obtain ⟨v, hv, rfl⟩ := List.mem_map.mp hu
      rw [Value.captured?_rename] at hcap
      obtain ⟨a, ha, rfl⟩ := Option.map_eq_some_iff.mp hcap
      exact ⟨a, .captured hv ha, rfl⟩
    · rintro _ ⟨a, ha, rfl⟩ r hr
      rw [h.references (h.sound.isLive_of_reaches hroots ha)] at hr
      obtain ⟨b, hb, rfl⟩ := List.mem_map.mp hr
      exact ⟨b, ha.reference hb, rfl⟩
  · rintro ⟨a, ha, rfl⟩
    refine (ha.mem_of_closed (P := fun a => m.heap.IsLive a ∧
      k.heap.Reaches (roots.map (Value.rename f)) (f a)) (fun a ha => ?_) fun a ha r hr => ?_).2
    · obtain ⟨v, hv, hcap⟩ := List.mem_filterMap.mp ha
      refine ⟨hroots v hv a hcap, .captured (List.mem_map_of_mem hv) ?_⟩
      rw [Value.captured?_rename, hcap]
      rfl
    · refine ⟨h.sound.heap.closed hr, ha.2.reference ?_⟩
      rw [h.references ha.1]
      exact List.mem_map_of_mem hr

/-- The way back from a mirror. -/
lemma exists_back (h : Mirrors f m k) :
    ∃ back : ScopeId → ScopeId, (∀ {a}, m.heap.IsLive a → back (f a) = a) ∧
      (∀ {v : Value}, m.Holds v → (v.rename f).rename back = v) ∧
      ∀ a, ((m.heap.scope? a).map (Scope.rename f)).map (Scope.rename back) = m.heap.scope? a := by
  have : Nonempty ScopeId := ⟨.global⟩
  let back := Function.invFunOn f {a | m.heap.IsLive a}
  have hback : ∀ {a}, m.heap.IsLive a → back (f a) = a := fun ha =>
    Set.InjOn.leftInvOn_invFunOn (fun _ ha _ hb hab => h.injective ha hb hab) ha
  refine ⟨back, hback, fun {v} hv => ?_, fun a => ?_⟩
  · have hlive : v.rename (back ∘ f) = v.rename id :=
      Value.rename_congr fun a ha => hback (hv a ha)
    rw [Value.rename_rename, hlive, Value.rename_id]
  · rw [Option.map_map]
    refine (Option.map_congr fun s hs => ?_).trans Option.map_id'
    have hlive : s.rename (back ∘ f) = s.rename id := Scope.rename_congr fun r hr =>
      hback (h.sound.heap.closed (Heap.references_of_scope? hs ▸ hr))
    exact (s.rename_rename f back).trans (hlive.trans s.rename_id)

/-- Two machines have one mirror, and there the scopes of the first are among those of the second.
Then the second mirrors the first: from there to the common mirror, and back. -/
lemma meet {g : ScopeId → ScopeId} {n : Machine} (hm : Mirrors f m k) (hn : Mirrors g n k)
    (hsub : ∀ {a}, m.heap.IsLive a → ∃ b, n.heap.IsLive b ∧ g b = f a) :
    ∃ across, Mirrors across m n ∧
      ∀ {v u : Value}, n.Holds u → u.rename g = v.rename f → u = v.rename across := by
  obtain ⟨back, hback, hvalue, hscope⟩ := hn.exists_back
  refine ⟨back ∘ f, ⟨hm.sound, hn.sound, fun {a a'} ha ha' heq => ?_, fun {a} ha => ?_, ?_, ?_, ?_⟩,
    fun {v u} hu huv => ?_⟩
  · obtain ⟨b, hb, hba⟩ := hsub ha
    obtain ⟨b', hb', hba'⟩ := hsub ha'
    rw [Function.comp, Function.comp, ← hba, ← hba', hback hb, hback hb'] at heq
    exact hm.injective ha ha' (hba ▸ hba' ▸ congrArg g heq)
  · obtain ⟨b, hb, hba⟩ := hsub ha
    calc n.heap.scope? (back (f a))
      _ = n.heap.scope? b := by rw [← hba, hback hb]
      _ = ((n.heap.scope? b).map (Scope.rename g)).map (Scope.rename back) := (hscope b).symm
      _ = (k.heap.scope? (f a)).map (Scope.rename back) := by rw [← hn.scope? hb, hba]
      _ = ((m.heap.scope? a).map (Scope.rename f)).map (Scope.rename back) := by rw [hm.scope? ha]
      _ = (m.heap.scope? a).map (Scope.rename (back ∘ f)) := by
        rw [Option.map_map]
        exact Option.map_congr fun s _ => s.rename_rename f back
  · rw [Function.comp, ← hm.current, hn.current, hback hn.sound.current]
  · exact hn.fresh.symm.trans hm.fresh
  · exact hn.sink.symm.trans hm.sink
  · rw [← hvalue hu, huv, Value.rename_rename]

end Mirrors

namespace Machine

variable {m : Machine} {v : Value}

lemma Sound.count_eq_ncard (hm : m.Sound) (hfilled : m.heap.Filled) :
    m.heap.count = Set.ncard {id | m.heap.IsLive id} := by
  have hset : {id | m.heap.IsLive id} = (m.heap.log.toFinset : Set ScopeId) := by
    ext id
    rw [Set.mem_ofPred_eq, Finset.mem_coe, List.mem_toFinset, hm.heap.live_iff]
  rw [hset, Set.ncard_coe_finset, List.toFinset_card_of_nodup hm.heap.nodup, hfilled.count_eq,
    Heap.log, List.length_cons, Nat.add_comm]

/-- With the result of a program, everything that it holds on to is kept. -/
lemma Exact.holds (h : m.Exact v) (hglobal : m.heap.IsLive .global) : m.Holds v := by
  intro id hid
  by_cases heq : id = .global
  · exact heq ▸ hglobal
  · exact (h.live_iff heq).mpr
      (.captured (List.mem_append_right _ (List.mem_singleton_self v)) hid)

end Machine

namespace Between

variable {f g : ScopeId → ScopeId} {m n k : Machine} {v u : Value}

lemma isLive_global (h : Between f m k) : m.heap.IsLive .global :=
  h.scope ▸ h.mirrors.sound.current

lemma global (h : Between f m k) : f .global = .global := by
  have hcurrent := h.mirrors.current
  rw [h.scope, h.image] at hcurrent
  exact hcurrent.symm

lemma globals (h : Between f m k) : k.heap.globals = m.heap.globals.map (Value.rename f) := by
  have hscope := h.mirrors.scope? h.isLive_global
  rw [h.global] at hscope
  rw [Heap.globals, Heap.globals, hscope]
  cases m.heap.scope? .global with
  | none => rfl
  | some s =>
    change (s.bindings.map _).map _ = (s.bindings.map _).map _
    rw [List.map_map, List.map_map]
    rfl

/-- Where the live scopes of an exact machine are in its mirror follows from the mirror alone. -/
lemma image_isLive (h : Between f m k) (hexact : m.Exact v) :
    f '' {id | m.heap.IsLive id} =
      {c | c = .global ∨ k.heap.Reaches (k.heap.globals ++ [v.rename f]) c} := by
  have hroots : ∀ u ∈ m.heap.globals ++ [v], m.Holds u := List.forall_mem_append.mpr
    ⟨h.mirrors.sound.holds_globals, List.forall_mem_singleton.mpr (hexact.holds h.isLive_global)⟩
  have hmap : k.heap.globals ++ [v.rename f] = (m.heap.globals ++ [v]).map (Value.rename f) := by
    rw [h.globals, List.map_append]
    rfl
  ext c
  rw [Set.mem_ofPred_eq, hmap, h.mirrors.reaches_iff hroots]
  constructor
  · rintro ⟨a, ha, rfl⟩
    by_cases hglobal : a = .global
    · exact .inl (hglobal ▸ h.global)
    · exact .inr ⟨a, (hexact.live_iff hglobal).mp ha, rfl⟩
  · rintro (rfl | ⟨a, ha, rfl⟩)
    · exact ⟨.global, h.isLive_global, h.global⟩
    · exact ⟨a, h.mirrors.sound.isLive_of_reaches hroots ha, rfl⟩

/-- Two outcomes that one run without freeing mirrors are the same, if neither of them holds on to
more than can be reached: scope for scope, and so as many. -/
theorem meet {sink sink' : Sink} (hm : Between f m k) (hn : Between g n k)
    (hreach : m.Reachable sink) (hreach' : n.Reachable sink') (hv : m.Exact v) (hu : n.Exact u)
    (hvu : v.rename f = u.rename g) :
    ∃ across, Between across m n ∧ Renames across (v, m) (u, n) ∧ n.heap.count = m.heap.count := by
  have himage : f '' {id | m.heap.IsLive id} = g '' {id | n.heap.IsLive id} := by
    rw [hm.image_isLive hv, hn.image_isLive hu, hvu]
  obtain ⟨across, hacross, hvalue⟩ := hm.mirrors.meet hn.mirrors fun {a} ha =>
    (himage ▸ Set.mem_image_of_mem f ha : f a ∈ g '' {id | n.heap.IsLive id})
  have hbetween : Between across m n := ⟨hacross, hm.scope, hn.scope⟩
  obtain rfl : u = v.rename across := hvalue (hu.holds hn.isLive_global) hvu.symm
  refine ⟨across, hbetween, hbetween.renames v, ?_⟩
  calc n.heap.count
    _ = Set.ncard {id | n.heap.IsLive id} := hreach'.sound.1.count_eq_ncard hreach'.filled
    _ = Set.ncard (g '' {id | n.heap.IsLive id}) :=
      (Set.InjOn.ncard_image fun _ ha _ hb => hn.mirrors.injective ha hb).symm
    _ = Set.ncard (f '' {id | m.heap.IsLive id}) := by rw [himage]
    _ = Set.ncard {id | m.heap.IsLive id} :=
      Set.InjOn.ncard_image fun _ ha _ hb => hm.mirrors.injective ha hb
    _ = m.heap.count := (hreach.sound.1.count_eq_ncard hreach.filled).symm

end Between

lemma Machine.Reachable.between {sink : Sink} {m : Machine} (h : m.Reachable sink) :
    ∃ f k, Between f m k := by
  induction h with
  | start => exact ⟨id, _, between_start sink⟩
  | @program m n program depth v _ hrun ih =>
    obtain ⟨f, k, hk⟩ := ih
    have hprogram := hk.program program depth
    rw [hrun] at hprogram
    generalize program.eval .never depth k = y at hprogram
    cases hprogram with
    | some hy =>
      obtain ⟨g, hg, -⟩ := hy
      exact ⟨g, _, hg⟩

/-! ### One program after another -/

/-- Every statement of the program is evaluated, and none of them ends it with a `return` or an
error. -/
inductive Program.RunsThrough (depth : Nat) : Program → Machine → Prop
  | nil {m : Machine} : RunsThrough depth [] m
  | cons {s : Stmt} {rest : Program} {m n : Machine} {v : Value}
      (hs : s.eval (Closure.call .eager depth) m = some (v, n)) (hv : v.isAbrupt = false)
      (hrest : RunsThrough depth rest n) : RunsThrough depth (s :: rest) m

section
variable {call : Closure → List Value → Eval Value} {v last : Value} {m n : Machine}

lemma evalBlock_cons {s : Stmt} (hs : s.eval call m = some (v, n)) (hv : v.isAbrupt = false)
    (rest : List Stmt) (last : Value) :
    evalBlock call (s :: rest) last m = evalBlock call rest v n :=
  Eval.andThen_of_ordinary hs hv _

/-- A block that runs to its end goes on with what stands behind. -/
lemma evalBlock_append {body : List Stmt} (h : evalBlock call body last m = some (v, n))
    (hv : v.isAbrupt = false) (rest : List Stmt) :
    evalBlock call (body ++ rest) last m = evalBlock call rest v n := by
  induction body generalizing last m with
  | nil =>
    obtain ⟨rfl, rfl⟩ := Prod.mk.inj (Option.some.inj h)
    rfl
  | cons s body ih =>
    obtain ⟨⟨a, m₁⟩, hs, -⟩ := Option.bind_eq_some_iff.mp h
    cases ha : a.isAbrupt with
    | false =>
      rw [evalBlock_cons hs ha] at h
      rw [List.cons_append, evalBlock_cons hs ha, ih h]
    | true =>
      have habrupt := h.symm.trans (Eval.andThen_of_abrupt hs ha _)
      obtain ⟨rfl, rfl⟩ := Prod.mk.inj (Option.some.inj habrupt)
      rw [hv] at ha
      cases ha

end

lemma Program.RunsThrough.evalBlock {depth : Nat} {program : Program} {m : Machine}
    (h : program.RunsThrough depth m) (last : Value) (hlast : last.isAbrupt = false) :
    ∃ v n, Monkey.evalBlock (Closure.call .eager depth) program last m = some (v, n) ∧
      v.isAbrupt = false := by
  induction h generalizing last with
  | nil => exact ⟨last, _, rfl, hlast⟩
  | cons hs hv _ ih =>
    rw [evalBlock_cons hs hv]
    exact ih _ hv

/-- Where nothing is freed, the end of a program leaves no trace. -/
lemma Between.never_append {f : ScopeId → ScopeId} {m k : Machine} {p : Program} {depth : Nat}
    (h : Between f m k) (hp : p.RunsThrough depth m) :
    ∃ u k', p.eval .never depth k = some (u, k') ∧
      ∀ {q : Program}, q ≠ [] → (p ++ q).eval .never depth k = q.eval .never depth k' := by
  obtain ⟨v, last, hblock, hv⟩ := hp.evalBlock .null rfl
  have hrun := Simulation.follows_block (Simulation.renaming.calls depth) (f, m) p
    (a := .null) (b := .null) .null (f, m) (Simulation.renaming.le_refl _) m k ⟨rfl, h.mirrors⟩
  rw [hblock] at hrun
  generalize hy : evalBlock _ p .null k = y at hrun
  cases hrun with
  | @some _ s hrs =>
    obtain ⟨u, k'⟩ := s
    obtain ⟨_, _, _, hab⟩ := hrs
    have hu : u.isAbrupt = false := (Value.Alike.isAbrupt_eq hab).symm.trans hv
    refine ⟨u.unwrap, k', ?_, fun {q} hq => ?_⟩
    · rw [Program.eval_apply, hy]
      rfl
    · rw [Program.eval_apply, Program.eval_apply, evalBlock_append hy hu]
      cases q with
      | nil => exact absurd rfl hq
      | cons s rest => rfl

/-- Whatever programs have run before: a program whose statements all run, and then another one,
have the outcome of both as one program. The value, what is printed and the bindings are the same
up to the handles of scopes, and so are all scopes that are left, which are as many. -/
theorem eval_append {sink : Sink} {m : Machine} (hm : m.Reachable sink) {p q : Program}
    {depth : Nat} (hp : p.RunsThrough depth m) (hq : q ≠ []) :
    ∃ v n, p.eval .eager depth m = some (v, n) ∧
      Option.Rel (fun x y => ∃ f, Renames f x y ∧ Between f x.2 y.2 ∧
          y.2.heap.count = x.2.heap.count)
        (q.eval .eager depth n) ((p ++ q).eval .eager depth m) := by
  obtain ⟨f, k, hk⟩ := hm.between
  obtain ⟨u, k', hnever, happend⟩ := hk.never_append hp
  have hfirst := hk.program p depth
  rw [hnever] at hfirst
  generalize hr : p.eval .eager depth m = r at hfirst
  cases hfirst with
  | @some r _ hru =>
    obtain ⟨v, n⟩ := r
    obtain ⟨g, hg, -⟩ := hru
    refine ⟨v, n, rfl, ?_⟩
    have hn : n.Reachable sink := hm.program hr
    have hsplit := hg.program q depth
    have hjoined := hk.program (p ++ q) depth
    rw [happend hq] at hjoined
    generalize hx : q.eval .eager depth n = x, hy : (p ++ q).eval .eager depth m = y,
      q.eval .never depth k' = z at hsplit hjoined
    cases hsplit with
    | none =>
      cases hjoined
      exact .none
    | some hxz =>
      cases hjoined with
      | some hyz =>
        obtain ⟨f₁, hf₁, hx₁⟩ := hxz
        obtain ⟨f₂, hf₂, hy₂⟩ := hyz
        obtain ⟨f, hf, hrenames, hcount⟩ := hf₁.meet hf₂ (hn.program hx) (hm.program hy)
          (Machine.exact_of_program hn hx) (Machine.exact_of_program hm hy) (hx₁.symm.trans hy₂)
        exact .some ⟨f, hrenames, hf, hcount⟩

/-- Makes a function inside a call and drops it. -/
def dropsOne : Program :=
  [.define "f" (.function ["x"] [.expr (.function ["y"] [.expr (.ident "x")])]),
    .expr (.call (.ident "f") [.int 1]),
    .expr (.int 0)]

/-- Makes another such function. -/
def makesAnother : Program := [.expr (.call (.ident "f") [.int 2])]

/-- As a program of its own, the second part uses the slot again that the first has left. -/
theorem eval_append_reusedSlot :
    ∃ v n x y f, dropsOne.eval .eager 1 (.start .working) = some (v, n) ∧
      makesAnother.eval .eager 1 n = some x ∧
      (dropsOne ++ makesAnother).eval .eager 1 (.start .working) = some y ∧
      x.1.captured? = some ⟨1⟩ ∧ y.1.captured? = some ⟨2⟩ ∧
      Renames f x y ∧ Between f x.2 y.2 ∧ y.2.heap.count = x.2.heap.count := by
  have hstart : (Machine.start .working).Reachable .working := .start
  have hruns : dropsOne.RunsThrough 1 (.start .working) :=
    .cons rfl rfl (.cons rfl rfl (.cons rfl rfl .nil))
  obtain ⟨v, n, hfirst, hrel⟩ := eval_append hstart hruns (q := makesAnother) nofun
  have hsplit : (dropsOne.eval .eager 1 (.start .working)).bind (fun r =>
      (makesAnother.eval .eager 1 r.2).bind (·.1.captured?)) = some ⟨1⟩ := by decide +kernel
  have hjoined : ((dropsOne ++ makesAnother).eval .eager 1 (.start .working)).bind
      (·.1.captured?) = some ⟨2⟩ := by decide +kernel
  rw [hfirst, Option.bind_some] at hsplit
  obtain ⟨x, hx, hcaptured⟩ := Option.bind_eq_some_iff.mp hsplit
  obtain ⟨y, hy, hcaptured'⟩ := Option.bind_eq_some_iff.mp hjoined
  rw [hx, hy] at hrel
  cases hrel with
  | some hxy =>
    obtain ⟨f, hf⟩ := hxy
    exact ⟨v, n, x, y, f, hfirst, hx, hy, hcaptured, hcaptured', hf⟩

end Monkey
