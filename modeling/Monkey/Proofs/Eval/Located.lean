import Monkey.Proofs.Eval.Safety
import Monkey.Proofs.Program.Literal
import Monkey.Proofs.Scope.Stored

/-! Evaluation that knows where in the text it is: for each part of a program, how many function
literals it stands in. It notes the level of each literal that makes a function, and it stops where
code runs in a scope that is not one deeper than the code is nested, or where there is a function
whose scope does not fit the literal that it comes from. -/
namespace Monkey

/-- The function that a value is, also when `return` carries it. -/
def Value.function? : Value → Option Closure
  | .function c => some c
  | .returned v => v.function?
  | _ => none

instance (h : Heap) (id : ScopeId) : Decidable (h.IsLive id) := inferInstanceAs (Decidable (_ = _))

/-- A machine with the levels of the literals that made its functions, by the identity of these. -/
structure Chart where
  machine : Machine
  levels : List Nat

namespace Chart

/-- The function comes from a literal of the programs, and its scope is live and one deeper than the
literal is nested. -/
def Explains (t : Chart) (programs : List Program) (c : Closure) : Prop :=
  ∃ k ∈ t.levels[c.id]?, ⟨c.params, c.body, k⟩ ∈ literals programs ∧
    t.machine.heap.IsLive c.scope ∧ t.machine.heap.depth c.scope = k + 1

instance (t : Chart) (programs : List Program) (c : Closure) : Decidable (t.Explains programs c) :=
  inferInstanceAs (Decidable (∃ k ∈ t.levels[c.id]?, _))

/-- If the value is a function, it fits its literal. -/
def Admits (programs : List Program) (t : Chart) (v : Value) : Prop :=
  ∀ c ∈ v.function?, t.Explains programs c

instance (programs : List Program) (t : Chart) (v : Value) : Decidable (t.Admits programs v) :=
  inferInstanceAs (Decidable (∀ c ∈ v.function?, _))

end Chart

/-- What the located evaluation stops for. -/
inductive Misfit where
  | scope | value | callee
  deriving DecidableEq, Repr

abbrev Located := StateT Chart (ExceptT Misfit Option)

namespace Located

variable {α : Type}

def lift (x : Eval α) : Located α := fun t =>
  ExceptT.mk ((x t.machine).map fun r => .ok (r.1, { t with machine := r.2 }))

def demand (misfit : Misfit) (fits : Chart → Prop) [DecidablePred fits] : Located Unit := do
  if fits (← get) then return () else throw misfit

/-- The current scope is one deeper than `k`, and all functions that are bound or among the values
fit their literals. -/
def check (programs : List Program) (k : Nat) (values : List Value) : Located Unit := do
  demand .scope fun t => t.machine.heap.depth t.machine.scope = k + 1
  demand .value fun t => ∀ v ∈ t.machine.heap.values ++ values, t.Admits programs v

/-- Code that stands in `k` function literals, checked where it starts and where it ends. -/
def inside (programs : List Program) (k : Nat) (x : Located Value) : Located Value := do
  check programs k []
  let v ← x
  check programs k [v]
  return v

def andThen (x : Located Value) (f : Value → Located Value) : Located Value := do
  let v ← x
  if v.isAbrupt then return v else f v

/-- A function of the current scope, made by a literal at level `k`. -/
def close (k : Nat) (params : List String) (body : Block) : Located Value := do
  modify fun t => { t with levels := t.levels ++ [k] }
  lift (.close params body)

/-- The level of the literal that made the function. -/
def levelOf (c : Closure) : Located Nat := do
  (← get).levels[c.id]?.elim (throw .callee) pure

def apply (call : Closure → List Value → Located Value) (callee : Value) (args : List Value) :
    Located Value :=
  match callee with
  | .function c =>
    if args.length = c.params.length then call c args
    else return .error (.wrongArgCount c.params.length args.length)
  | .builtin b => lift (.applyBuiltin b args)
  | v => return .error (.notCallable v.tag)

end Located

section
variable (programs : List Program) (call : Closure → List Value → Located Value) (k : Nat)

mutual

def Expr.locate (e : Expr) : Located Value := .inside programs k <|
  match e with
  | .ident name => .lift (.resolve name)
  | .int value => return .int value
  | .str value => return .str value
  | .bool value => return .bool value
  | .unary op operand => (operand.locate).andThen fun v => return op.apply v
  | .binary op left right =>
    (left.locate).andThen fun l => (right.locate).andThen fun r => return op.apply l r
  | .cond test yes no =>
    (test.locate).andThen fun v => if v.isTruthy then locateBlock yes .null else locateElse no
  | .function params body => .close k params body
  | .call callee args =>
    (callee.locate).andThen fun f => do
      match ← locateArgs args with
      | .ok vs => .apply call f vs
      | .error v => return v

def Stmt.locate (s : Stmt) : Located Value := .inside programs k <|
  match s with
  | .define name value => (value.locate).andThen fun v => .lift (.define name v)
  | .ret value => (value.locate).andThen fun v => return .returned v
  | .expr value => value.locate
  | .block body => locateBlock body .null

def locateBlock : List Stmt → Value → Located Value
  | [], last => .inside programs k (return last)
  | s :: rest, _ => .inside programs k ((s.locate).andThen fun v => locateBlock rest v)

def locateElse : Option (List Stmt) → Located Value
  | none => return .null
  | some body => locateBlock body .null

def locateArgs : List Expr → Located (Except Value (List Value))
  | [] => return .ok []
  | e :: rest => do
    let v ← e.locate
    if v.isAbrupt then return .error v
    else return (v :: ·) <$> (← locateArgs rest)

end
end

/-- The body of a function stands one level further in than the literal that made the function. -/
def Closure.locate (programs : List Program) : Nat → Closure → List Value → Located Value
  | 0, _, _ => .lift failure
  | depth + 1, c, args => do
    let k ← Located.levelOf c
    let frame ← Located.lift (.enter c args)
    let result :=
      (← locateBlock programs (Closure.locate programs depth) (k + 1) c.body .null).unwrap
    Located.lift (.leave .eager frame result)
    return result

/-- `programs` are those run so far and this one. -/
def Program.locate (programs : List Program) (depth : Nat) (program : Program) :
    Located Value := do
  let result := (← locateBlock programs (Closure.locate programs depth) 0 program .null).unwrap
  modify fun t => { t with machine.heap := t.machine.heap.reclaim result }
  Located.check programs 0 [result]
  return result

/-- Runs programs after those `before`, with what each gives and the machine that it leaves. -/
def Program.locateEach (depth : Nat) :
    List Program → List Program → Chart → ExceptT Misfit Option (List (Value × Machine))
  | _, [], _ => return []
  | before, program :: rest, t => do
    let (v, u) ← program.locate (before ++ [program]) depth t
    return (v, u.machine) :: (← locateEach depth (before ++ [program]) rest u)

/-! ### Functions that fit their literals -/

lemma Value.captured?_eq (v : Value) : v.captured? = v.function?.map (·.scope) := by
  induction v with
  | returned v ih => exact ih
  | _ => rfl

lemma Value.function?_unwrap (v : Value) : v.unwrap.function? = v.function? := by
  cases v <;> rfl

lemma Value.function?_of_isPlain {v : Value} (h : v.isPlain = true) : v.function? = none := by
  cases v <;> first | rfl | cases h

namespace Chart

variable {t u : Chart} {programs : List Program} {k : Nat} {c : Closure} {v : Value}

lemma admits_of_plain (h : v.function? = none) : t.Admits programs v := by
  rw [Admits, h]
  nofun

lemma Admits.holds (h : t.Admits programs v) : t.machine.Holds v := by
  intro id hid
  rw [Value.captured?_eq] at hid
  obtain ⟨c, hc, rfl⟩ := Option.map_eq_some_iff.mp hid
  obtain ⟨k, -, -, hlive, -⟩ := h c hc
  exact hlive

lemma Admits.unwrap (h : t.Admits programs v) : t.Admits programs v.unwrap := by
  rwa [Admits, Value.function?_unwrap]

/-- No scope is freed or moved, and what has been noted stays noted. -/
structure Keeps (t u : Chart) : Prop where
  levels : t.levels <+: u.levels
  live {id : ScopeId} (hid : t.machine.heap.IsLive id) : u.machine.heap.IsLive id
  depth {id : ScopeId} (hid : t.machine.heap.IsLive id) :
    u.machine.heap.depth id = t.machine.heap.depth id

lemma Keeps.explains (h : t.Keeps u) (hc : t.Explains programs c) : u.Explains programs c := by
  obtain ⟨k, hk, hliteral, hlive, hdepth⟩ := hc
  refine ⟨k, ?_, hliteral, h.live hlive, (h.depth hlive).trans hdepth⟩
  obtain ⟨rest, hrest⟩ := h.levels
  obtain ⟨hlt, -⟩ := List.getElem?_eq_some_iff.mp hk
  rw [← hrest, List.getElem?_append_left hlt]
  exact hk

lemma Keeps.admits (h : t.Keeps u) (hv : t.Admits programs v) : u.Admits programs v :=
  fun c hc => h.explains (hv c hc)

/-- What evaluation does to a chart. -/
structure Grows (t u : Chart) : Prop extends Keeps t u where
  machine : t.machine.Extends u.machine

lemma Grows.refl (t : Chart) : t.Grows t := ⟨⟨List.prefix_rfl, id, fun _ => rfl⟩, .refl _⟩

lemma Grows.trans {w : Chart} (h : t.Grows u) (h' : u.Grows w) : t.Grows w where
  levels := h.levels.trans h'.levels
  live hid := h'.live (h.live hid)
  depth hid := (h'.depth (h.live hid)).trans (h.depth hid)
  machine := h.machine.trans h'.machine

lemma Grows.of_sound (ht : t.machine.Sound) (hu : u.machine.Sound)
    (hext : t.machine.Extends u.machine) (hlevels : t.levels <+: u.levels) : t.Grows u where
  levels := hlevels
  live := hext.live
  depth := ht.heap.chained.depth_eq hu.heap.chained fun _ => hext.outer
  machine := hext

/-- What holds while code at level `k` runs. -/
structure Placed (t : Chart) (programs : List Program) (k : Nat) : Prop where
  sound : t.machine.Sound
  levels : t.levels.length = t.machine.fresh
  stored : ∀ v ∈ t.machine.heap.values, t.Admits programs v
  depth : t.machine.heap.depth t.machine.scope = k + 1

/-! What each change of the machine does to this. -/

/-- The current scope stays the same and as deep as it was. -/
lemma Placed.grows (h : t.Placed programs k) (hgrows : t.Grows u) (hu : u.machine.Sound)
    (hlevels : u.levels.length = u.machine.fresh)
    (hstored : ∀ v ∈ u.machine.heap.values, u.Admits programs v) : u.Placed programs k where
  sound := hu
  levels := hlevels
  stored := hstored
  depth := by
    rw [hgrows.machine.scope]
    exact (hgrows.depth h.sound.current).trans h.depth

lemma Placed.define (h : t.Placed programs k) (hv : t.Admits programs v) (name : String) :
    let u : Chart :=
      ⟨{ t.machine with heap := t.machine.heap.bind t.machine.scope name v }, t.levels⟩
    t.Grows u ∧ u.Placed programs k := by
  intro u
  have hu : u.machine.Sound := Machine.sound_define h.sound hv.holds name
  have hgrows : t.Grows u := .of_sound h.sound hu (Machine.extends_define _ _ _) List.prefix_rfl
  refine ⟨hgrows, h.grows hgrows hu h.levels fun w hw => hgrows.admits ?_⟩
  rcases Heap.mem_values_bind hw with rfl | hw
  · exact hv
  · exact h.stored w hw

lemma Placed.close (h : t.Placed programs k) :
    let u : Chart := ⟨{ t.machine with fresh := t.machine.fresh + 1 }, t.levels ++ [k]⟩
    t.Grows u ∧ u.Placed programs k := by
  intro u
  have hu : u.machine.Sound := h.sound.of_eq rfl rfl
  have hgrows : t.Grows u := .of_sound h.sound hu (.of_eq rfl rfl) (List.prefix_append _ _)
  refine ⟨hgrows, h.grows hgrows hu ?_ fun w hw => hgrows.admits (h.stored w hw)⟩
  rw [List.length_append, h.levels, List.length_singleton]

lemma Placed.write (h : t.Placed programs k) (sink : Sink) :
    let u : Chart := ⟨{ t.machine with sink }, t.levels⟩
    t.Grows u ∧ u.Placed programs k := by
  intro u
  have hu : u.machine.Sound := h.sound.of_eq rfl rfl
  have hgrows : t.Grows u := .of_sound h.sound hu (.of_eq rfl rfl) List.prefix_rfl
  exact ⟨hgrows, h.grows hgrows hu h.levels fun w hw => hgrows.admits (h.stored w hw)⟩

/-- The scope of a call is inside the scope that the function was made in, wherever the call is. -/
lemma Placed.entered (h : t.Placed programs k) {j : Nat} (hc : t.machine.heap.IsLive c.scope)
    (hdepth : t.machine.heap.depth c.scope = j + 1) {args : List Value}
    (hargs : ∀ v ∈ args, t.Admits programs v) :
    (⟨t.machine.entered c args, t.levels⟩ : Chart).Placed programs (j + 1) := by
  have hsound := h.sound.entered hc fun v hv => (hargs v hv).holds
  have hopens := h.sound.opens c args
  have hkeeps : t.Keeps ⟨t.machine.entered c args, t.levels⟩ :=
    ⟨List.prefix_rfl, hopens.live, h.sound.heap.chained.depth_eq hsound.heap.chained fun _ hid =>
      congrArg (·.bind (·.outer)) (hopens.others hid)⟩
  refine ⟨hsound, h.levels, fun v hv => hkeeps.admits ?_, ?_⟩
  · rcases Heap.mem_values_bindAll hv with ⟨b, hb, rfl⟩ | hv
    · exact hargs b.2 (List.of_mem_zip hb).2
    · exact h.stored v (Heap.mem_values_alloc hv)
  · have hadds := h.sound.heap.tidy.adds_alloc c.scope
    have houter : (t.machine.entered c args).heap.outer? (t.machine.entered c args).scope =
        some c.scope := by
      rw [Machine.entered_heap, (Heap.rebinds_bindAll _ _ _).outer?_eq, hadds.outer?_eq]
      exact if_pos rfl
    rw [hsound.heap.chained.depth_of_outer houter]
    exact congrArg (· + 1) ((hkeeps.depth hc).trans hdepth)

/-- What is left after scopes have been freed fits as it did. -/
lemma Placed.reclaimed (h : t.Placed programs k) (hv : t.Admits programs v) {n : Machine}
    (hn : Machine.Reclaims t.machine v n) :
    (∀ w ∈ n.heap.values, Admits programs ⟨n, t.levels⟩ w) ∧ Admits programs ⟨n, t.levels⟩ v := by
  have houter : ∀ id, n.heap.IsLive id → t.machine.heap.outer? id = n.heap.outer? id :=
    fun id hid => congrArg (·.bind (·.outer)) (hn.kept hid).2.symm
  have hadmits : ∀ w, n.Holds w → t.Admits programs w → Admits programs ⟨n, t.levels⟩ w := by
    intro w hw hold c hc
    obtain ⟨j, hj, hliteral, -, hdepth⟩ := hold c hc
    have hlive : n.heap.IsLive c.scope := hw c.scope (by rw [Value.captured?_eq, hc]; rfl)
    have hsame := hn.sound.heap.chained.depth_eq h.sound.heap.chained houter hlive
    exact ⟨j, hj, hliteral, hlive, hsame.symm.trans hdepth⟩
  refine ⟨fun w hw => ?_, hadmits v hn.holds hv⟩
  obtain ⟨id, s, hs, b, hb, rfl⟩ := Heap.mem_values_iff.mp hw
  refine hadmits b.2 (hn.sound.holds_of_mem hs hb) (h.stored b.2 ?_)
  have hkept := (hn.kept (Heap.isLive_iff.mpr ⟨s, hs⟩)).2
  exact Heap.mem_values_iff.mpr ⟨id, s, hkept.symm.trans hs, b, hb, rfl⟩

/-- The end of a call: its caller is where it was. -/
lemma Placed.resumed (h : t.Placed programs k) {args : List Value} {j : Nat} {last : Chart}
    (hlast : (⟨t.machine.entered c args, t.levels⟩ : Chart).Grows last)
    (hplaced : last.Placed programs j) (hv : last.Admits programs v) :
    let u : Chart := ⟨t.machine.resumed .eager v last.machine, last.levels⟩
    t.Grows u ∧ u.Placed programs k ∧ u.Admits programs v := by
  intro u
  have hopens := h.sound.opens c args
  obtain ⟨hreclaims, hext⟩ := hopens.reclaims h.sound hlast.machine hplaced.sound hv.holds
  obtain ⟨hstored, hvalue⟩ := hplaced.reclaimed hv hreclaims
  have hgrows : t.Grows u := .of_sound h.sound hreclaims.sound hext hlast.levels
  exact ⟨hgrows, h.grows hgrows hreclaims.sound hplaced.levels hstored, hvalue⟩

end Chart

end Monkey
