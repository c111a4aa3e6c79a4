import Monkey.Proofs.Eval.Located
import Monkey.Proofs.Eval.Renaming
import Monkey.Proofs.Eval.Visit

/-! A scope is as deep as the code that runs in it is nested, whoever calls it and from where: the
located evaluation never stops. -/
namespace Monkey

/-! ### Agreement -/

namespace Located

variable {α β : Type} {programs : List Program} {k : Nat} {t : Chart}

/-- From any chart that `t` can have grown to and that is in place for code at level `k`: the
located evaluation does not stop and gives what the other gives, in a chart in place for the same
level. -/
def Agrees (programs : List Program) (k : Nat) (t : Chart) (R : Chart → α → Prop) (x : Eval α)
    (y : Located α) : Prop :=
  ∀ u, t.Grows u → u.Placed programs k →
    Option.Rel (fun r s => ∃ w : Chart, s = .ok (r.1, w) ∧ w.machine = r.2 ∧ u.Grows w ∧
      w.Placed programs k ∧ R w r.1) (x u.machine) (y u).run

variable {R : Chart → α → Prop} {R' : Chart → β → Prop}

lemma Agrees.pure {a : α} (h : ∀ u, t.Grows u → R u a) :
    Agrees programs k t R (Pure.pure a) (Pure.pure a) :=
  fun u hu hp => .some ⟨u, rfl, rfl, .refl u, hp, h u hu⟩

lemma Agrees.bind {x : Eval α} {y : Located α} {f : α → Eval β} {g : α → Located β}
    (h : Agrees programs k t R x y)
    (hfg : ∀ u a, t.Grows u → R u a → Agrees programs k u R' (f a) (g a)) :
    Agrees programs k t R' (x >>= f) (y >>= g) := by
  intro u hu hp
  change Option.Rel _ ((x u.machine).bind fun r => f r.1 r.2)
    ((y u).run.bind (ExceptT.bindCont fun r => g r.1 r.2))
  refine optionRel_bind (h u hu hp) ?_
  rintro ⟨a, _⟩ _ ⟨w, rfl, rfl, huw, hw, hR⟩
  have hrest := hfg w a (hu.trans huw) hR w (.refl w) hw
  refine optionRel_mono hrest ?_
  rintro r s ⟨w', hs, hr, hww', hw', hR'⟩
  exact ⟨w', hs, hr, huw.trans hww', hw', hR'⟩

/-- An operation of the machine alone. -/
lemma Agrees.lift {x : Eval α} (h : ∀ u, t.Grows u → u.Placed programs k → ∀ a n,
    x u.machine = some (a, n) →
      u.Grows ⟨n, u.levels⟩ ∧ Chart.Placed ⟨n, u.levels⟩ programs k ∧ R ⟨n, u.levels⟩ a) :
    Agrees programs k t R x (lift x) := by
  intro u hu hp
  change Option.Rel _ (x u.machine)
    ((x u.machine).map fun r => Except.ok (r.1, { u with machine := r.2 }))
  cases hx : x u.machine with
  | none => exact .none
  | some r =>
    obtain ⟨hgrows, hplaced, hR⟩ := h u hu hp r.1 r.2 hx
    exact .some ⟨_, rfl, rfl, hgrows, hplaced, hR⟩

lemma Agrees.andThen {x : Eval Value} {y : Located Value} {f : Value → Eval Value}
    {g : Value → Located Value} (h : Agrees programs k t (Chart.Admits programs) x y)
    (hfg : ∀ u v, t.Grows u → u.Admits programs v →
      Agrees programs k u (Chart.Admits programs) (f v) (g v)) :
    Agrees programs k t (Chart.Admits programs) (x.andThen f) (y.andThen g) := by
  refine h.bind fun u v hu hv => ?_
  split
  · exact .pure fun w hw => hw.admits hv
  · exact hfg u v hu hv

/-- A demand that is met does nothing. -/
lemma demand_bind {misfit : Misfit} {fits : Chart → Prop} [DecidablePred fits] (h : fits t)
    (f : Unit → Located α) : (demand misfit fits >>= f) t = f () t := by
  change ((if fits t then Pure.pure () else throw misfit : Located Unit) >>= f) t = _
  rw [if_pos h, pure_bind]

lemma check_bind (hp : t.Placed programs k) {vs : List Value}
    (hvs : ∀ v ∈ vs, t.Admits programs v) (f : Unit → Located α) :
    (check programs k vs >>= f) t = f () t := by
  have hvalues : ∀ v ∈ t.machine.heap.values ++ vs, t.Admits programs v :=
    List.forall_mem_append.mpr ⟨hp.stored, hvs⟩
  rw [check, bind_assoc, demand_bind hp.depth, demand_bind hvalues]

lemma Agrees.inside {x : Eval Value} {y : Located Value}
    (h : Agrees programs k t (Chart.Admits programs) x y) :
    Agrees programs k t (Chart.Admits programs) x (inside programs k y) := by
  intro u hu hp
  rw [Located.inside, check_bind hp (List.forall_mem_nil _), ← bind_pure x]
  refine h.bind (fun w v _ hv => ?_) u hu hp
  intro w' hw' hp'
  rw [check_bind hp' (List.forall_mem_singleton.mpr (hw'.admits hv))]
  exact .some ⟨w', rfl, rfl, .refl w', hp', hw'.admits hv⟩

/-! ### The parts of evaluation -/

lemma agrees_plain {v : Value} (h : v.function? = none) :
    Agrees programs k t (Chart.Admits programs) (Pure.pure v) (Pure.pure v) :=
  .pure fun _ _ => Chart.admits_of_plain h

lemma agrees_resolve (name : String) :
    Agrees programs k t (Chart.Admits programs) (.resolve name) (lift (.resolve name)) := by
  refine .lift fun u _ hp v n h => ?_
  rw [Eval.resolve_apply] at h
  obtain ⟨rfl, rfl⟩ := Prod.mk.inj (Option.some.inj h)
  refine ⟨.refl u, hp, ?_⟩
  cases hv : u.machine.heap.lookup u.machine.scope name with
  | some v => exact hp.stored v (Heap.mem_values_of_lookup hv)
  | none => cases Builtin.ofName? name <;> exact Chart.admits_of_plain rfl

lemma agrees_define (name : String) {v : Value} (hv : t.Admits programs v) :
    Agrees programs k t (Chart.Admits programs) (.define name v) (lift (.define name v)) := by
  refine .lift fun u hu hp w n h => ?_
  obtain ⟨rfl, rfl⟩ := Prod.mk.inj (Option.some.inj h)
  obtain ⟨hgrows, hplaced⟩ := hp.define (hu.admits hv) name
  exact ⟨hgrows, hplaced, Chart.admits_of_plain rfl⟩

lemma agrees_applyBuiltin (b : Builtin) (args : List Value) :
    Agrees programs k t (Chart.Admits programs) (.applyBuiltin b args)
      (lift (.applyBuiltin b args)) := by
  refine .lift fun u _ hp v n h => ?_
  rw [Eval.applyBuiltin_apply] at h
  obtain ⟨rfl, rfl⟩ := Prod.mk.inj (Option.some.inj h)
  obtain ⟨hgrows, hplaced⟩ := hp.write (b.apply args u.machine.sink).2
  refine ⟨hgrows, hplaced, Chart.admits_of_plain ?_⟩
  split
  · next v hv => exact Value.function?_of_isPlain (Builtin.isPlain_of_apply hv)
  · rfl

/-- The level that is noted is that of the literal, since functions are numbered in turn. -/
lemma agrees_close {params : List String} {body : Block}
    (h : ⟨params, body, k⟩ ∈ literals programs) :
    Agrees programs k t (Chart.Admits programs) (.close params body) (close k params body) := by
  intro u _ hp
  obtain ⟨hgrows, hplaced⟩ := hp.close
  refine .some ⟨_, rfl, rfl, hgrows, hplaced, ?_⟩
  rintro _ ⟨⟩
  refine ⟨k, ?_, h, hgrows.live hp.sound.current, hplaced.depth⟩
  change (u.levels ++ [k])[u.machine.fresh]? = some k
  rw [← hp.levels]
  exact List.getElem?_concat_length

section
variable {call : Closure → List Value → Eval Value}
  {locate : Closure → List Value → Located Value}

/-- Calls of functions that fit agree, wherever they are made. -/
def Calls (programs : List Program) (call : Closure → List Value → Eval Value)
    (locate : Closure → List Value → Located Value) : Prop :=
  ∀ k t c args, t.Explains programs c → (∀ v ∈ args, t.Admits programs v) →
    Agrees programs k t (Chart.Admits programs) (call c args) (locate c args)

lemma agrees_apply (hcalls : Calls programs call locate) {f : Value} {args : List Value}
    (hf : t.Admits programs f) (hargs : ∀ v ∈ args, t.Admits programs v) :
    Agrees programs k t (Chart.Admits programs) (.apply call f args) (apply locate f args) := by
  cases f with
  | function c =>
    rw [Eval.apply, apply]
    split
    · exact hcalls k t c args (hf c rfl) hargs
    · exact agrees_plain rfl
  | builtin b => exact agrees_applyBuiltin b args
  | _ => exact agrees_plain rfl

/-- The values of arguments, or the one that ended their evaluation. -/
def Arguments (programs : List Program) (w : Chart) : Except Value (List Value) → Prop
  | .ok vs => ∀ v ∈ vs, w.Admits programs v
  | .error v => w.Admits programs v

mutual

theorem agrees_expr (hcalls : Calls programs call locate) (t : Chart) : ∀ e : Expr,
    e.literals k ⊆ literals programs →
      Agrees programs k t (Chart.Admits programs) (e.eval call) (e.locate programs locate k)
  | .ident name, _ => .inside (agrees_resolve name)
  | .int value, _ => .inside (agrees_plain rfl)
  | .str value, _ => .inside (agrees_plain rfl)
  | .bool value, _ => .inside (agrees_plain rfl)
  | .unary op operand, h => by
    refine .inside ((agrees_expr hcalls t operand h).andThen fun u v _ _ => ?_)
    exact agrees_plain (Value.function?_of_isPlain (Value.isPlain_unary op v))
  | .binary op left right, h => by
    obtain ⟨hleft, hright⟩ := List.append_subset.mp h
    refine .inside ((agrees_expr hcalls t left hleft).andThen fun u l _ _ => ?_)
    refine (agrees_expr hcalls u right hright).andThen fun w r _ _ => ?_
    exact agrees_plain (Value.function?_of_isPlain (Value.isPlain_binary op l r))
  | .cond test yes no, h => by
    obtain ⟨htest, h⟩ := List.append_subset.mp h
    obtain ⟨hyes, hno⟩ := List.append_subset.mp h
    refine .inside ((agrees_expr hcalls t test htest).andThen fun u v _ _ => ?_)
    split
    · exact agrees_block hcalls u yes hyes (Chart.admits_of_plain rfl)
    · exact agrees_else hcalls u no hno
  | .function params body, h => .inside (agrees_close (h List.mem_cons_self))
  | .call callee args, h => by
    obtain ⟨hcallee, hargs⟩ := List.append_subset.mp h
    refine .inside ((agrees_expr hcalls t callee hcallee).andThen fun u f _ hf => ?_)
    refine (agrees_args hcalls u args hargs).bind fun w x hw hx => ?_
    match x, hx with
    | .ok vs, hvs => exact agrees_apply hcalls (hw.admits hf) hvs
    | .error v, hv => exact .pure fun _ hw => hw.admits hv

theorem agrees_stmt (hcalls : Calls programs call locate) (t : Chart) : ∀ s : Stmt,
    s.literals k ⊆ literals programs →
      Agrees programs k t (Chart.Admits programs) (s.eval call) (s.locate programs locate k)
  | .define name value, h =>
    .inside ((agrees_expr hcalls t value h).andThen fun _ _ _ hv => agrees_define name hv)
  | .ret value, h =>
    .inside ((agrees_expr hcalls t value h).andThen fun _ _ _ hv => .pure fun _ hw => hw.admits hv)
  | .expr value, h => .inside (agrees_expr hcalls t value h)
  | .block body, h => .inside (agrees_block hcalls t body h (Chart.admits_of_plain rfl))

theorem agrees_block (hcalls : Calls programs call locate) (t : Chart) :
    ∀ (body : List Stmt) {last : Value}, blockLiterals body k ⊆ literals programs →
      t.Admits programs last →
      Agrees programs k t (Chart.Admits programs) (evalBlock call body last)
        (locateBlock programs locate k body last)
  | [], _, _, hlast => .inside (.pure fun _ hu => hu.admits hlast)
  | s :: rest, _, h, _ => by
    obtain ⟨hs, hrest⟩ := List.append_subset.mp h
    exact .inside ((agrees_stmt hcalls t s hs).andThen fun u _ _ hv =>
      agrees_block hcalls u rest hrest hv)

theorem agrees_else (hcalls : Calls programs call locate) (t : Chart) :
    ∀ no : Option (List Stmt), elseLiterals no k ⊆ literals programs →
      Agrees programs k t (Chart.Admits programs) (evalElse call no)
        (locateElse programs locate k no)
  | none, _ => agrees_plain rfl
  | some body, h => agrees_block hcalls t body h (Chart.admits_of_plain rfl)

theorem agrees_args (hcalls : Calls programs call locate) (t : Chart) :
    ∀ args : List Expr, argLiterals args k ⊆ literals programs →
      Agrees programs k t (Arguments programs) (evalArgs call args)
        (locateArgs programs locate k args)
  | [], _ => .pure fun _ _ => List.forall_mem_nil _
  | e :: rest, h => by
    obtain ⟨he, hrest⟩ := List.append_subset.mp h
    refine (agrees_expr hcalls t e he).bind fun u v _ hv => ?_
    split
    · exact .pure fun _ hw => hw.admits hv
    · refine (agrees_args hcalls u rest hrest).bind fun w x hw hx => .pure fun w' hw' => ?_
      match x, hx with
      | .ok vs, hvs =>
        refine List.forall_mem_cons.mpr ⟨(hw.trans hw').admits hv, fun r hr => ?_⟩
        exact hw'.admits (hvs r hr)
      | .error r, hr => exact hw'.admits hr

end
end

lemma levelOf_bind {c : Closure} (h : t.levels[c.id]? = some k) (f : Nat → Located α) :
    (levelOf c >>= f) t = f k t := by
  change ((t.levels[c.id]?.elim (throw .callee) Pure.pure : Located Nat) >>= f) t = _
  rw [h, Option.elim_some, pure_bind]

/-- Calls agree to any depth. -/
theorem calls (programs : List Program) (depth : Nat) :
    Calls programs (Closure.call .eager depth) (Closure.locate programs depth) := by
  induction depth with
  | zero => exact fun k t c args _ _ u _ _ => .none
  | succ depth ih =>
    -- The level `k` of the caller is not that of the body: it comes back at the end of the call.
    intro k t c args hc hargs u hu hp
    obtain ⟨j, hj, hliteral, hlive, hdepth⟩ := hu.explains hc
    have hentered := hp.entered hlive hdepth fun v hv => hu.admits (hargs v hv)
    have hbody := agrees_block ih _ c.body (closed_literals programs _ hliteral)
      (Chart.admits_of_plain (v := .null) rfl) _ (.refl _) hentered
    rw [Closure.call, Eval.runIn_apply, Closure.locate, levelOf_bind hj]
    change Option.Rel _ _ ((locateBlock _ _ (j + 1) c.body .null
      ⟨u.machine.entered c args, u.levels⟩).run.bind (ExceptT.bindCont fun r => _))
    refine optionRel_bind hbody ?_
    rintro ⟨v, _⟩ _ ⟨last, rfl, rfl, hgrows, hplaced, hv⟩
    obtain ⟨hback, hplaced, hv⟩ := hp.resumed hgrows hplaced hv.unwrap
    exact .some ⟨_, rfl, rfl, hback, hplaced, hv⟩

end Located

/-! ### Sequences of programs -/

namespace Chart

variable {t : Chart} {programs : List Program}

/-- What one program leaves behind for the next. -/
structure Rests (t : Chart) (programs : List Program) : Prop where
  placed : t.Placed programs 0
  scope : t.machine.scope = .global

lemma rests_start (sink : Sink) : Rests ⟨.start sink, []⟩ [] :=
  ⟨⟨Machine.sound_start sink, rfl, List.forall_mem_nil _, rfl⟩, rfl⟩

/-- More programs have more literals. -/
lemma Rests.mono (h : t.Rests programs) (more : List Program) : t.Rests (programs ++ more) := by
  refine ⟨⟨h.placed.sound, h.placed.levels, fun v hv c hc => ?_, h.placed.depth⟩, h.scope⟩
  obtain ⟨k, hk, hliteral, hfits⟩ := h.placed.stored v hv c hc
  refine ⟨k, hk, ?_, hfits⟩
  rw [literals, List.flatMap_append]
  exact List.mem_append_left _ hliteral

/-- One program, which may make functions from its own literals and call those from earlier ones. -/
theorem Rests.program (h : t.Rests programs) {program : Program} (hmem : program ∈ programs)
    (depth : Nat) :
    Option.Rel (fun r s => ∃ w : Chart, s = .ok (r.1, w) ∧ w.machine = r.2 ∧ w.Rests programs ∧
        w.Admits programs r.1)
      (program.eval .eager depth t.machine) (program.locate programs depth t).run := by
  have hliterals : blockLiterals program 0 ⊆ literals programs :=
    fun l hl => List.mem_flatMap.mpr ⟨program, hmem, hl⟩
  have hblock := Located.agrees_block (Located.calls programs depth) t program hliterals
    (admits_of_plain (v := .null) rfl) t (.refl t) h.placed
  rw [Program.eval_apply]
  change Option.Rel _ _ ((locateBlock _ _ 0 program .null t).run.bind
    (ExceptT.bindCont fun r => _))
  refine optionRel_bind hblock ?_
  rintro ⟨v, _⟩ _ ⟨last, rfl, rfl, hgrows, hplaced, hv⟩
  have hscope : last.machine.scope = .global := hgrows.machine.scope.trans h.scope
  have hreclaims := hplaced.sound.reclaims_program hscope hv.unwrap.holds
  obtain ⟨hstored, hvalue⟩ := hplaced.reclaimed hv.unwrap hreclaims
  have hdepth : (last.machine.heap.reclaim v.unwrap).depth last.machine.scope = 1 := by
    rw [hscope]
    exact Heap.depth_of_outermost hreclaims.sound.heap.chained.outer_global
  let w : Chart :=
    ⟨{ last.machine with heap := last.machine.heap.reclaim v.unwrap }, last.levels⟩
  have hrests : w.Rests programs := ⟨⟨hreclaims.sound, hplaced.levels, hstored, hdepth⟩, hscope⟩
  change Option.Rel _ _
    ((Located.check programs 0 [v.unwrap] >>= fun _ => Pure.pure v.unwrap : Located Value) w).run
  rw [Located.check_bind hrests.placed (List.forall_mem_singleton.mpr hvalue)]
  exact .some ⟨w, rfl, rfl, hrests, hvalue⟩

end Chart

/-- The function fits a literal of the programs. -/
def Machine.Nests (m : Machine) (programs : List Program) (c : Closure) : Prop :=
  ∃ l ∈ literals programs, l.params = c.params ∧ l.body = c.body ∧
    m.heap.depth c.scope = l.level + 1

lemma Chart.Explains.nests {t : Chart} {programs : List Program} {c : Closure}
    (h : t.Explains programs c) : t.machine.Nests programs c := by
  obtain ⟨k, -, hliteral, -, hdepth⟩ := h
  exact ⟨⟨c.params, c.body, k⟩, hliteral, rfl, rfl, hdepth⟩

/-- Every function that is bound in a live scope after a program, or that the program gives, fits a
literal of it or of a program before it. -/
def NestsEach (before programs : List Program) (outcomes : List (Value × Machine)) : Prop :=
  ∀ (i : Nat) (r : Value × Machine), outcomes[i]? = some r →
    ∀ c, .function c ∈ r.1 :: r.2.heap.values → r.2.Nests (before ++ programs.take (i + 1)) c

lemma Chart.Rests.nestsEach_cons {w : Chart} {before rest : List Program} {program : Program}
    {v : Value} {outcomes : List (Value × Machine)} (h : w.Rests (before ++ [program]))
    (hv : w.Admits (before ++ [program]) v)
    (hrest : NestsEach (before ++ [program]) rest outcomes) :
    NestsEach before (program :: rest) ((v, w.machine) :: outcomes) := by
  intro i r hr c hc
  cases i with
  | zero =>
    obtain rfl := Option.some.inj hr
    have hall := List.forall_mem_cons.mpr ⟨hv, h.placed.stored⟩
    exact (hall _ hc c rfl).nests
  | succ i =>
    have hnests := hrest i r hr c hc
    rwa [List.append_assoc] at hnests

/-- The run of programs one after another, by what one of them leaves behind for the next. -/
theorem Chart.Rests.programs {t : Chart} {before : List Program} (h : t.Rests before)
    (rest : List Program) (depth : Nat) :
    Option.Rel (fun outcomes s => s = .ok outcomes ∧ NestsEach before rest outcomes)
      (Program.evalEach .eager depth rest t.machine)
      (Program.locateEach depth before rest t).run := by
  induction rest generalizing before t with
  | nil => exact .some ⟨rfl, fun _ _ hr => nomatch hr⟩
  | cons program rest ih =>
    have hmem : program ∈ before ++ [program] := List.mem_append_right _ List.mem_cons_self
    have hprogram := (h.mono [program]).program hmem depth
    rw [Program.evalEach, Program.locateEach]
    change Option.Rel _ _ ((program.locate (before ++ [program]) depth t).run.bind
      (ExceptT.bindCont fun r => _))
    refine optionRel_bind hprogram ?_
    rintro ⟨v, _⟩ _ ⟨w, rfl, rfl, hw, hv⟩
    change Option.Rel _ ((Program.evalEach .eager depth rest w.machine).bind _)
      ((Program.locateEach depth (before ++ [program]) rest w).run.bind
        (ExceptT.bindCont fun rs => _))
    refine optionRel_bind (ih hw) ?_
    rintro outcomes _ ⟨rfl, hnests⟩
    exact .some ⟨rfl, hw.nestsEach_cons hv hnests⟩

/-- Whatever programs run one after another: the located evaluation does not stop and gives what
evaluation gives. So each part of a program runs one scope deeper than it is nested, also where
calls go too deep in the end. After each program all functions fit literals of the programs so
far. -/
theorem Program.locateEach_eq (programs : List Program) (depth : Nat) (sink : Sink) :
    (Program.locateEach depth [] programs ⟨.start sink, []⟩).run =
        (Program.evalEach .eager depth programs (.start sink)).map .ok ∧
      ∀ outcomes, Program.evalEach .eager depth programs (.start sink) = some outcomes →
        ∀ (i : Nat) (r : Value × Machine), outcomes[i]? = some r →
          ∀ c, .function c ∈ r.1 :: r.2.heap.values → r.2.Nests (programs.take (i + 1)) c := by
  have hrun := (Chart.rests_start sink).programs programs depth
  change Option.Rel _ (Program.evalEach .eager depth programs (.start sink)) _ at hrun
  generalize Program.evalEach _ _ _ _ = x, (Program.locateEach _ _ _ _).run = y at hrun
  cases hrun with
  | none => exact ⟨rfl, nofun⟩
  | some h =>
    obtain ⟨rfl, hnests⟩ := h
    refine ⟨rfl, ?_⟩
    rintro _ ⟨⟩
    exact hnests

/-- The first program makes a function inside a call. The second hands it to another function, which
calls it in a condition and then gives it back. -/
def handsOn : List Program :=
  [[.define "make" (.function ["x"] [.expr (.function ["y"] [.expr (.ident "x")])]),
      .define "f" (.call (.ident "make") [.int 1])],
    [.expr (.call (.function ["g"] [.expr (.cond (.call (.ident "g") [.int 2])
      [.expr (.ident "g")] none)]) [.ident "f"])]]

/-- The function is at level 1, and all the while its scope has depth 2. Code that stands in a
function literal would stop at once in the global scope. -/
theorem Program.locateEach_eq_handsOn :
    (∃ outcomes r, (Program.locateEach 2 [] handsOn ⟨.start .working, []⟩).run =
        some (.ok outcomes) ∧ outcomes[1]? = some r ∧
      r.1 = .function ⟨1, ["y"], [.expr (.ident "x")], ⟨1⟩⟩ ∧ r.2.heap.depth ⟨1⟩ = 2 ∧
      r.2.Nests handsOn ⟨1, ["y"], [.expr (.ident "x")], ⟨1⟩⟩) ∧
    ((Expr.int 1).locate [] (Closure.locate [] 0) 1 ⟨.start .working, []⟩).run =
      some (.error .scope) := by
  obtain ⟨hlocate, hnests⟩ := Program.locateEach_eq handsOn 2 .working
  have heval : (Program.evalEach .eager 2 handsOn (.start .working)).map
      (fun outcomes => outcomes[1]?.map fun r => (r.1, r.2.heap.depth ⟨1⟩)) =
        some (some (.function ⟨1, ["y"], [.expr (.ident "x")], ⟨1⟩⟩, 2)) := by decide +kernel
  obtain ⟨outcomes, hrun, hlast⟩ := Option.map_eq_some_iff.mp heval
  obtain ⟨r, hr, hvalue⟩ := Option.map_eq_some_iff.mp hlast
  obtain ⟨hvalue, hdepth⟩ := Prod.mk.inj hvalue
  rw [hrun] at hlocate
  have hmem := hnests outcomes hrun 1 r hr ⟨1, ["y"], [.expr (.ident "x")], ⟨1⟩⟩
    (hvalue ▸ List.mem_cons_self)
  exact ⟨⟨outcomes, r, hlocate, hr, hvalue, hdepth, hmem⟩, rfl⟩

end Monkey
