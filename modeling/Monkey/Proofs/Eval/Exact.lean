import Mathlib.Data.Set.Card
import Monkey.Proofs.Eval.Visit
import Monkey.Proofs.Scope.Reach

/-! Reclamation is exact. After a program the live scopes are those that the global bindings and
the result of the program reach; and a call leaves behind, of the scopes that it made, those that
its result reaches. -/
namespace Monkey

/-! ### What evaluation keeps of heaps -/

/-- A property that the operations on heaps keep. -/
structure Heap.Kept (P : Heap → Prop) : Prop where
  alloc {h : Heap} (hP : P h) (outer : ScopeId) : P (h.alloc outer).2
  bind {h : Heap} (hP : P h) (id : ScopeId) (name : String) (v : Value) : P (h.bind id name v)
  sweep {h : Heap} (hs : h.Sound) (hP : P h) (mark : Nat) (roots : List Value) :
    P (h.sweep mark roots)

lemma Heap.kept_filled : Heap.Kept Heap.Filled := ⟨.alloc, .bind, fun hs => hs.tidy.filled_sweep⟩

lemma Heap.Kept.bindAll {P : Heap → Prop} (hP : Heap.Kept P) {h : Heap} (hh : P h) (id : ScopeId)
    (bindings : List (String × Value)) : P (h.bindAll id bindings) := by
  induction bindings generalizing h with
  | nil => exact hh
  | cons b rest ih => exact ih (hP.bind hh id b.1 b.2)

/-- A machine compared with itself, to see that its heap keeps a property. -/
def Simulation.keeping {P : Heap → Prop} (hP : Heap.Kept P) : Simulation .eager .eager where
  World := Machine
  le := Machine.Extends
  scopes := Simulation.diagonal.scopes
  machines w m n := Simulation.diagonal.machines w m n ∧ P w.heap
  le_refl := .refl
  le_trans := .trans
  scopes_mono := Simulation.diagonal.scopes_mono
  current h := Simulation.diagonal.current h.1
  fresh h := Simulation.diagonal.fresh h.1
  sink h := Simulation.diagonal.sink h.1
  lookup h := Simulation.diagonal.lookup h.1
  define := by
    rintro w m n a b ⟨h, hw⟩ hab name
    obtain ⟨w₁, hle, h₁⟩ := Simulation.diagonal.define h hab name
    obtain rfl := h₁.1
    obtain rfl := h.1
    exact ⟨_, hle, h₁, hP.bind hw m.scope name a⟩
  close := by
    rintro w m n ⟨h, hw⟩
    obtain ⟨w₁, hle, h₁⟩ := Simulation.diagonal.close h
    obtain rfl := h₁.1
    obtain rfl := h.1
    exact ⟨_, hle, h₁, hw⟩
  write := by
    rintro w m n ⟨h, hw⟩ sink
    obtain ⟨w₁, hle, h₁⟩ := Simulation.diagonal.write h sink
    obtain rfl := h₁.1
    obtain rfl := h.1
    exact ⟨_, hle, h₁, hw⟩
  call := by
    rintro w m n c d vs us ⟨h, hw⟩ hcd hargs
    obtain ⟨w₁, h₁, hback⟩ := Simulation.diagonal.call h hcd hargs
    obtain rfl := h₁.1
    obtain rfl := h.1
    refine ⟨_, ⟨h₁, hP.bindAll (hP.alloc hw c.scope) _ _⟩, ?_⟩
    rintro w₂ last k a b hle ⟨h₂, hw₂⟩ hab
    obtain ⟨w₃, hle₃, h₃, hab₃⟩ := hback hle h₂ hab
    obtain rfl := h₃.1
    obtain rfl := h₂.1
    exact ⟨_, hle₃, ⟨h₃, hP.sweep h₂.2.2.heap hw₂ m.heap.mark [a]⟩, hab₃⟩

lemma Task.run_keeps {P : Heap → Prop} (hP : Heap.Kept P) {t : Task} {m n : Machine} {depth : Nat}
    {v : Value} (hm : m.Sound) (ht : ∀ u ∈ t.inputs, m.Holds u) (hheap : P m.heap)
    (h : t.run .eager depth m = some (v, n)) : P n.heap := by
  have hfollows := Simulation.follows_task (S := .keeping hP) (w := m) t
    (fun u hu => values_of_holds (ht u hu)) depth
  have hrel := hfollows m (.refl m) m m ⟨⟨rfl, rfl, hm⟩, hheap⟩
  rw [h] at hrel
  cases hrel with
  | some hrel =>
    obtain ⟨w, -, ⟨⟨rfl, -, -⟩, hn⟩, -⟩ := hrel
    exact hn

namespace Machine

variable {m n last : Machine} {v : Value}

/-! ### After a program -/

lemma Reachable.filled {sink : Sink} (h : Reachable sink m) : m.heap.Filled := by
  induction h with
  | start => exact Heap.filled_empty
  | program hm hrun ih =>
    obtain ⟨u, last, hblock, hlast, -, -, -, rfl⟩ := exists_last_of_program hm.sound.1 hrun
    have hkept := Task.run_keeps Heap.kept_filled hm.sound.1 (Task.holds_block_inputs _ _) ih hblock
    exact hlast.heap.tidy.filled_sweep hkept _ _

/-- Besides the global scope, those are live that its bindings and the value reach. -/
structure Exact (n : Machine) (v : Value) : Prop where
  live_iff {id : ScopeId} (hid : id ≠ .global) :
    n.heap.IsLive id ↔ n.heap.Reaches (n.heap.globals ++ [v]) id
  count : n.heap.count =
    1 + Set.ncard {id | id ≠ .global ∧ n.heap.Reaches (n.heap.globals ++ [v]) id}

lemma globals_reclaim (hs : last.Sound) (v : Value) :
    (last.heap.reclaim v).globals = last.heap.globals := by
  have hglobal : .global ∉ last.heap.garbage 0 (last.heap.globals ++ [v]) :=
    hs.heap.tidy.not_mem_garbage List.mem_cons_self
  have hscope : (last.heap.reclaim v).scope? .global = last.heap.scope? .global := by
    rw [Heap.reclaim, Heap.scope?_sweep, if_neg hglobal]
  rw [Heap.globals, Heap.globals, hscope]

lemma Sound.isLive_iff_of_ne_global (hm : m.Sound) {id : ScopeId} (hid : id ≠ .global) :
    m.heap.IsLive id ↔ id ∈ m.heap.created := by
  rw [hm.heap.live_iff, Heap.log, List.mem_cons, or_iff_right hid]

lemma Sound.isLive_reclaim_iff (hs : last.Sound) (v : Value) {id : ScopeId} (hid : id ≠ .global) :
    (last.heap.reclaim v).IsLive id ↔
      last.heap.Reaches (last.heap.globals ++ [v]) id ∧ last.heap.IsLive id := by
  constructor
  · intro hlive
    have hlast := ((Heap.isLive_sweep _ _ _ _).mp hlive).2
    have hcreated := (hs.isLive_iff_of_ne_global hid).mp hlast
    exact ⟨(hs.heap.isLive_sweep_iff_reaches (hs.keepsOld v) hcreated).mp hlive, hlast⟩
  · rintro ⟨hreach, hlast⟩
    have hcreated := (hs.isLive_iff_of_ne_global hid).mp hlast
    exact (hs.heap.isLive_sweep_iff_reaches (hs.keepsOld v) hcreated).mpr hreach

/-- What live values reach is live. -/
lemma Sound.isLive_of_reaches (hm : m.Sound) {roots : List Value} (hroots : ∀ v ∈ roots, m.Holds v)
    {id : ScopeId} (hid : m.heap.Reaches roots id) : m.heap.IsLive id := by
  refine hid.mem_of_closed (fun i hi => ?_) fun _ _ r hr => hm.heap.closed hr
  obtain ⟨u, hu, hcap⟩ := List.mem_filterMap.mp hi
  exact hroots u hu i hcap

lemma Sound.holds_globals (hm : m.Sound) : ∀ v ∈ m.heap.globals, m.Holds v := by
  intro v hv
  unfold Heap.globals at hv
  split at hv
  · next s hs =>
    obtain ⟨b, hb, rfl⟩ := List.mem_map.mp hv
    exact hm.holds_of_mem hs hb
  · cases hv

/-- The number of scopes follows from which of them are live. -/
lemma Sound.exact (hn : n.Sound) (hfilled : n.heap.Filled)
    (hlive : ∀ {id : ScopeId}, id ≠ .global →
      (n.heap.IsLive id ↔ n.heap.Reaches (n.heap.globals ++ [v]) id)) : n.Exact v := by
  refine ⟨hlive, ?_⟩
  obtain ⟨hglobal, hnodup⟩ := List.nodup_cons.mp hn.heap.nodup
  have hset : {id | id ≠ .global ∧ n.heap.Reaches (n.heap.globals ++ [v]) id} =
      (n.heap.created.toFinset : Set ScopeId) := by
    ext id
    rw [Set.mem_ofPred_eq, Finset.mem_coe, List.mem_toFinset]
    constructor
    · rintro ⟨hid, hreach⟩
      exact (hn.isLive_iff_of_ne_global hid).mp ((hlive hid).mpr hreach)
    · intro hid
      have hne : id ≠ .global := fun heq => hglobal (heq ▸ hid)
      exact ⟨hne, (hlive hne).mp ((hn.isLive_iff_of_ne_global hne).mpr hid)⟩
  rw [hset, Set.ncard_coe_finset, List.toFinset_card_of_nodup hnodup]
  exact hfilled.count_eq

lemma exact_of_program {program : Program} {depth : Nat} {sink : Sink} (hm : m.Reachable sink)
    (h : program.eval .eager depth m = some (v, n)) : n.Exact v := by
  have hn := hm.program h
  refine hn.sound.1.exact hn.filled fun {id} hid => ?_
  obtain ⟨u, last, -, hs, -, -, hv, rfl⟩ := exists_last_of_program hm.sound.1 h
  have hroots : ∀ u ∈ last.heap.globals ++ [v], last.Holds u :=
    List.forall_mem_append.mpr ⟨hs.holds_globals, List.forall_mem_singleton.mpr hv⟩
  change (last.heap.reclaim v).IsLive id ↔
    (last.heap.reclaim v).Reaches ((last.heap.reclaim v).globals ++ [v]) id
  rw [globals_reclaim hs, hs.isLive_reclaim_iff v hid, Heap.reclaim,
    hs.heap.reaches_sweep (hs.keepsOld v)]
  exact and_iff_left_of_imp (hs.isLive_of_reaches hroots)

/-! ### After a call -/

/-- The scopes that are live in `n` and were not live in `m`. -/
def MadeBetween (m n : Machine) (id : ScopeId) : Prop := n.heap.IsLive id ∧ ¬m.heap.IsLive id

/-- A call made in `m`, whose body ends in `last`, goes on in `n` with the scopes that it made and
its value reaches. -/
structure ExactCall (m last n : Machine) (v : Value) : Prop where
  live_iff (id : ScopeId) : m.MadeBetween n id ↔ m.MadeBetween last id ∧ last.heap.Reaches [v] id
  reaches_iff (id : ScopeId) : n.heap.Reaches [v] id ↔ last.heap.Reaches [v] id

/-- The log behind the mark of a call is what the call made. -/
lemma Opens.madeBetween_iff (hm : m.Sound) (hopens : m.Opens n) (hlast : n.Extends last)
    (hs : last.Sound) (id : ScopeId) :
    m.MadeBetween last id ↔ id ∈ last.heap.created.drop m.heap.mark := by
  have hsplit : last.heap.log = m.heap.log ++ last.heap.created.drop m.heap.mark := by
    have htake := hopens.log_take hlast
    rw [← htake]
    exact (List.take_append_drop (m.heap.mark + 1) last.heap.log).symm
  have hdisjoint := List.disjoint_of_nodup_append (hsplit ▸ hs.heap.nodup)
  rw [MadeBetween, hs.heap.live_iff, hm.heap.live_iff, hsplit, List.mem_append]
  constructor
  · rintro ⟨hid | hid, hout⟩
    · exact absurd hid hout
    · exact hid
  · intro hid
    exact ⟨.inr hid, fun hmem => hdisjoint hmem hid⟩

lemma Opens.exactCall (hm : m.Sound) (hopens : m.Opens n) (hlast : n.Extends last)
    (hs : last.Sound) : m.ExactCall last (m.resumed .eager v last) v where
  live_iff id := by
    have hold := hopens.keepsOld hm hlast hs [v]
    have hmade := hopens.madeBetween_iff hm hlast hs id
    constructor
    · rintro ⟨hlive, hout⟩
      have hwindow : m.MadeBetween last id := ⟨((Heap.isLive_sweep _ _ _ _).mp hlive).2, hout⟩
      exact ⟨hwindow,
        (hs.heap.isLive_sweep_iff_reaches hold (hmade.mp hwindow)).mp hlive⟩
    · rintro ⟨hwindow, hreach⟩
      exact ⟨(hs.heap.isLive_sweep_iff_reaches hold (hmade.mp hwindow)).mpr hreach, hwindow.2⟩
  reaches_iff id := hs.heap.reaches_sweep (hopens.keepsOld hm hlast hs [v]) id

end Machine

namespace Visit

lemma Sound.exactCall {V : Visit} (hV : V.Sound) {c : Closure} {args : List Value} {v : Value}
    {n : Machine} (htask : V.task = .call c args)
    (h : V.task.run .eager V.depth V.machine = some (v, n)) :
    ∃ depth u last, V.depth = depth + 1 ∧
      (Task.block c.body .null).run .eager depth (V.machine.entered c args) = some (u, last) ∧
      v = u.unwrap ∧ V.machine.ExactCall last n v := by
  obtain ⟨depth, t, m, held⟩ := V
  obtain rfl : t = .call c args := htask
  cases depth with
  | zero => cases h
  | succ depth =>
    change Eval.runIn .eager c args _ m = _ at h
    rw [Eval.runIn_apply] at h
    obtain ⟨⟨u, last⟩, hbody, h⟩ := Option.bind_eq_some_iff.mp h
    obtain ⟨rfl, rfl⟩ := Prod.mk.inj (Option.some.inj h)
    have hc : m.heap.IsLive c.scope := hV.inputs (.function c) List.mem_cons_self c.scope rfl
    have hargs : ∀ u ∈ args, m.Holds u := fun u hu => hV.inputs u (List.mem_cons_of_mem _ hu)
    obtain ⟨hlast, hext, -⟩ := Task.run_spec (t := .block c.body .null)
      (hV.machine.entered hc hargs) (Task.holds_block_inputs _ _) hbody
    exact ⟨depth, u, last, rfl, hbody, rfl,
      (hV.machine.opens c args).exactCall hV.machine hext hlast⟩

lemma sound_of_reachable {sink : Sink} {m : Machine} (hm : m.Reachable sink) {program : Program}
    {depth : Nat} {V : Visit}
    (hV : Relation.ReflTransGen Starts ⟨depth, .block program .null, m, []⟩ V) : V.Sound := by
  induction hV with
  | refl => exact ⟨hm.sound.1, Task.holds_block_inputs _ _, nofun⟩
  | tail _ hstarts ih => exact hstarts.sound ih

/-- Whatever programs have run before: after the next one, and after every call inside it, exactly
the scopes are left that can still be reached. -/
theorem exact_of_reachable {sink : Sink} {m : Machine} (hm : m.Reachable sink) (program : Program)
    (depth : Nat) :
    (∀ v n, program.eval .eager depth m = some (v, n) → n.Exact v) ∧
      ∀ V, Relation.ReflTransGen Starts ⟨depth, .block program .null, m, []⟩ V →
        ∀ c args v n, V.task = .call c args →
          V.task.run .eager V.depth V.machine = some (v, n) →
          ∃ depth u last, V.depth = depth + 1 ∧
            (Task.block c.body .null).run .eager depth (V.machine.entered c args) =
              some (u, last) ∧
            v = u.unwrap ∧ V.machine.ExactCall last n v :=
  ⟨fun _ _ h => Machine.exact_of_program hm h,
    fun _ hV _ _ _ _ htask h => (sound_of_reachable hm hV).exactCall htask h⟩

/-- Makes three functions inside calls: a bound one, one that is dropped, and its result. -/
def keepsTwoOfThree : Program :=
  [.define "f" (.function ["x"] [.expr (.function ["y"] [.expr (.ident "x")])]),
    .define "g" (.call (.ident "f") [.int 1]),
    .expr (.call (.ident "f") [.int 2]),
    .expr (.call (.ident "f") [.int 3])]

/-- Each of the three calls leaves its scope behind; the program then frees that of the second. -/
theorem exact_of_reachable_keepsTwoOfThree :
    (∃ v n, keepsTwoOfThree.eval .eager 1 (.start .working) = some (v, n) ∧
      n.heap.created = [⟨1⟩, ⟨3⟩] ∧ n.heap.count = 3 ∧ n.Exact v) ∧
    ∃ (V : Visit) (c : Closure) (args : List Value) (v : Value) (n last : Machine),
      V.task = .call c args ∧
      V.task.run .eager V.depth V.machine = some (v, n) ∧ V.machine.MadeBetween n ⟨1⟩ ∧
      V.machine.ExactCall last n v := by
  have hstart : (Machine.start .working).Reachable .working := .start
  obtain ⟨hprogram, hcalls⟩ := exact_of_reachable hstart keepsTwoOfThree 1
  constructor
  · have heval : (keepsTwoOfThree.eval .eager 1 (.start .working)).map
        (fun r => (r.2.heap.created, r.2.heap.count)) = some ([⟨1⟩, ⟨3⟩], 3) := by decide +kernel
    obtain ⟨⟨v, n⟩, hrun, hheap⟩ := Option.map_eq_some_iff.mp heval
    obtain ⟨hcreated, hcount⟩ := Prod.mk.inj hheap
    exact ⟨v, n, hrun, hcreated, hcount, hprogram v n hrun⟩
  · have hV : ∃ (V : Visit) (c : Closure) (args : List Value) (v : Value) (n : Machine),
        Relation.ReflTransGen Starts
          ⟨1, .block keepsTwoOfThree .null, .start .working, []⟩ V ∧ V.task = .call c args ∧
        V.task.run .eager V.depth V.machine = some (v, n) ∧ V.machine.MadeBetween n ⟨1⟩ :=
      ⟨_, _, _, _, _, .tail (.tail (.tail (.tail .refl (.rest rfl rfl)) .first) .define)
        (.call rfl rfl rfl), rfl, rfl, rfl, nofun⟩
    obtain ⟨V, c, args, v, n, hV, htask, hrun, hmade⟩ := hV
    obtain ⟨_, _, last, -, -, -, hexact⟩ := hcalls V hV c args v n htask hrun
    exact ⟨V, c, args, v, n, last, htask, hrun, hmade, hexact⟩

end Visit
end Monkey
