import Monkey.Proofs.Eval.Simulation
import Monkey.Proofs.Scope.Path
import Monkey.Proofs.Scope.Sweep

/-! Evaluation never holds or follows a freed scope. A call frees scopes younger than its start
only; what is older does not refer to them, because bindings made during the call go into scopes
made during the call. -/
namespace Monkey
namespace Machine

structure Sound (m : Machine) : Prop where
  heap : m.heap.Sound
  current : m.heap.IsLive m.scope

lemma sound_start (sink : Sink) : (start sink).Sound := ⟨Heap.sound_empty, rfl⟩

/-- What evaluation leaves alone: it adds to the log, goes on in the same scope, and of the scopes
that were there changes the bindings of the current one only. -/
structure Extends (m n : Machine) : Prop where
  created : m.heap.created <+: n.heap.created
  scope : n.scope = m.scope
  live {id : ScopeId} (hid : m.heap.IsLive id) : n.heap.IsLive id
  others {id : ScopeId} (hid : m.heap.IsLive id) (hne : id ≠ m.scope) :
    n.heap.scope? id = m.heap.scope? id
  outer {id : ScopeId} (hid : m.heap.IsLive id) : n.heap.outer? id = m.heap.outer? id

variable {m n : Machine}

/-- Only the heap and the scope matter. -/
lemma Extends.of_eq (hheap : n.heap = m.heap) (hscope : n.scope = m.scope) : m.Extends n where
  created := hheap ▸ List.prefix_refl _
  scope := hscope
  live hid := by rwa [hheap]
  others _ _ := by rw [hheap]
  outer _ := by rw [hheap]

lemma Extends.refl (m : Machine) : m.Extends m := .of_eq rfl rfl

lemma Sound.of_eq (hm : m.Sound) (hheap : n.heap = m.heap) (hscope : n.scope = m.scope) :
    n.Sound where
  heap := by rw [hheap]; exact hm.heap
  current := by rw [hheap, hscope]; exact hm.current

lemma Extends.trans {l : Machine} (h : m.Extends n) (h' : n.Extends l) : m.Extends l where
  created := h.created.trans h'.created
  scope := h'.scope.trans h.scope
  live hid := h'.live (h.live hid)
  others hid hne := (h'.others (h.live hid) (h.scope ▸ hne)).trans (h.others hid hne)
  outer hid := (h'.outer (h.live hid)).trans (h.outer hid)

/-- The value holds on to a live scope, if to any. -/
def Holds (m : Machine) (v : Value) : Prop := ∀ id ∈ v.captured?, m.heap.IsLive id

lemma Holds.extends {v : Value} (h : m.Holds v) (hmn : m.Extends n) : n.Holds v :=
  fun id hid => hmn.live (h id hid)

lemma sound_define (hm : m.Sound) {v : Value} (hv : m.Holds v) (name : String) :
    Sound { m with heap := m.heap.bind m.scope name v } where
  heap := hm.heap.bind m.scope name hv
  current := (Heap.isLive_bind _ _ _ _ _).mpr hm.current

lemma extends_define (m : Machine) (name : String) (v : Value) :
    m.Extends { m with heap := m.heap.bind m.scope name v } where
  created := (Heap.created_bind _ _ _ _) ▸ List.prefix_refl _
  scope := rfl
  live hid := (Heap.isLive_bind _ _ _ _ _).mpr hid
  others _ hne := by
    rw [Heap.scope?_bind, if_neg hne]
  outer _ := Heap.outer?_bind _ _ _ _ _

/-! ### Calls -/

section
variable {c : Closure} {args : List Value}

lemma entered_scope (m : Machine) (c : Closure) (args : List Value) :
    (m.entered c args).scope = (m.heap.alloc c.scope).1 := rfl

lemma entered_heap (m : Machine) (c : Closure) (args : List Value) :
    (m.entered c args).heap =
      (m.heap.alloc c.scope).2.bindAll (m.heap.alloc c.scope).1 (c.params.zip args) := rfl

/-- What a call starts with: a new scope, and everything else as it was. -/
structure Opens (m n : Machine) : Prop where
  fresh : ¬m.heap.IsLive n.scope
  created : n.heap.created = m.heap.created ++ [n.scope]
  others {id : ScopeId} (hid : m.heap.IsLive id) : n.heap.scope? id = m.heap.scope? id

lemma opens_of_tidy (ht : m.heap.Tidy) (c : Closure) (args : List Value) :
    m.Opens (m.entered c args) := by
  have hadds := ht.adds_alloc c.scope
  have hbinds := (m.heap.alloc c.scope).2.rebinds_bindAll (m.heap.alloc c.scope).1
    (c.params.zip args)
  refine ⟨hadds.not_isLive, hbinds.created.trans hadds.created, fun {id} hid => ?_⟩
  have hne := hadds.ne_of_isLive hid
  rw [entered_heap, hbinds.scope?_eq hne, hadds.scope?_eq, if_neg hne]

lemma Sound.opens (hm : m.Sound) (c : Closure) (args : List Value) :
    m.Opens (m.entered c args) := opens_of_tidy hm.heap.tidy c args

lemma Opens.live (hm : m.Opens n) {id : ScopeId} (hid : m.heap.IsLive id) : n.heap.IsLive id := by
  rw [Heap.IsLive, hm.others hid]
  exact hid

lemma Sound.entered (hm : m.Sound) (hc : m.heap.IsLive c.scope) (hargs : ∀ v ∈ args, m.Holds v) :
    (m.entered c args).Sound := by
  have hadds := hm.heap.tidy.adds_alloc c.scope
  have hbinds := (m.heap.alloc c.scope).2.rebinds_bindAll (m.heap.alloc c.scope).1
    (c.params.zip args)
  refine ⟨(hadds.sound hm.heap hc).bindAll _ fun b hb r hr => ?_, ?_⟩
  · rw [hadds.isLive_iff]
    exact .inr (hargs b.2 (List.of_mem_zip hb).2 r hr)
  · rw [entered_heap, entered_scope, hbinds.isLive_iff, hadds.isLive_iff]
    exact .inl rfl

variable {last : Machine} {v : Value}

/-- Everything that was live before the call is as old as the mark at its end. -/
lemma Opens.log_take (hm : m.Opens n) (hlast : n.Extends last) :
    last.heap.log.take (m.heap.mark + 1) = m.heap.log := by
  obtain ⟨rest, hrest⟩ := hlast.created
  rw [hm.created, List.append_assoc] at hrest
  rw [Heap.log, ← hrest, List.take_succ_cons, Heap.mark, List.take_left, Heap.log]

/-- No scope from before the call refers to one that the call made. -/
lemma Opens.scope?_eq (hm : m.Opens n) (hlast : n.Extends last) {id : ScopeId}
    (hid : m.heap.IsLive id) : last.heap.scope? id = m.heap.scope? id := by
  have heq := hm.others hid
  have hne : id ≠ n.scope := fun h => hm.fresh (h ▸ hid)
  exact (hlast.others (hm.live hid) hne).trans heq

/-- What reclamation leaves: the value with all that it holds on to, and nothing changed. -/
structure Reclaims (last : Machine) (v : Value) (n : Machine) : Prop where
  sound : n.Sound
  holds : n.Holds v
  kept {id : ScopeId} (hid : n.heap.IsLive id) :
    last.heap.IsLive id ∧ n.heap.scope? id = last.heap.scope? id

lemma Sound.reclaims_sweep (hs : last.Sound) (hv : last.Holds v) {mark : Nat} {roots : List Value}
    (hroot : v ∈ roots) (hheap : n.heap = last.heap.sweep mark roots)
    (hold : last.heap.KeepsOld mark roots)
    (hscope : n.scope ∈ last.heap.log.take (mark + 1)) : Reclaims last v n := by
  have hlive : ∀ id, n.heap.IsLive id ↔
      id ∉ last.heap.garbage mark roots ∧ last.heap.IsLive id := by
    intro id
    rw [hheap]
    exact Heap.isLive_sweep _ _ _ _
  refine ⟨⟨?_, ?_⟩, fun id hid => ?_, fun {id} hid => ?_⟩
  · rw [hheap]
    exact hs.heap.sweep hold
  · refine (hlive _).mpr ⟨hs.heap.tidy.not_mem_garbage hscope, ?_⟩
    exact (hs.heap.live_iff _).mpr (List.mem_of_mem_take hscope)
  · refine (hlive id).mpr ⟨?_, hv id hid⟩
    exact (hs.heap.tidy.cutOff_garbage mark roots).work (List.mem_filterMap.mpr ⟨v, hroot, hid⟩)
  · obtain ⟨hgarbage, hid⟩ := (hlive id).mp hid
    rw [hheap, Heap.scope?_sweep, if_neg hgarbage]
    exact ⟨hid, rfl⟩

/-- What was live before the call stays at its end. -/
lemma Opens.not_mem_garbage (ht : m.heap.Tidy) (hopens : m.Opens n) (hlast : n.Extends last)
    (hs : last.heap.Tidy) {roots : List Value} {id : ScopeId} (hid : m.heap.IsLive id) :
    id ∉ last.heap.garbage m.heap.mark roots := by
  refine hs.not_mem_garbage ?_
  rw [hopens.log_take hlast]
  exact (ht.live_iff id).mp hid

/-- Nothing that was there has changed: not even the bindings of the current scope. -/
structure Intact (m n : Machine) : Prop where
  created : m.heap.created <+: n.heap.created
  scope : n.scope = m.scope
  scope?_eq {id : ScopeId} (hid : m.heap.IsLive id) : n.heap.scope? id = m.heap.scope? id

lemma Intact.extends (h : m.Intact n) : m.Extends n where
  created := h.created
  scope := h.scope
  live hid := (congrArg Option.isSome (h.scope?_eq hid)).trans hid
  others hid _ := h.scope?_eq hid
  outer hid := congrArg (·.bind (·.outer)) (h.scope?_eq hid)

/-- The end of a call frees nothing from before it, whatever the body did. -/
lemma Opens.intact (ht : m.heap.Tidy) (hopens : m.Opens n) (hlast : n.Extends last)
    (hs : last.heap.Tidy) (v : Value) : m.Intact (m.resumed .eager v last) where
  created := by
    have htake : last.heap.created.take m.heap.mark = m.heap.created :=
      (List.cons.inj (hopens.log_take hlast)).2
    exact htake ▸ List.prefix_append _ _
  scope := rfl
  scope?_eq {id} hid := by
    change (last.heap.sweep m.heap.mark [v]).scope? id = m.heap.scope? id
    rw [Heap.scope?_sweep, if_neg (hopens.not_mem_garbage ht hlast hs hid),
      hopens.scope?_eq hlast hid]

/-- The scopes from before the call hold on to nothing that its end frees. -/
lemma Opens.keepsOld (hm : m.Sound) (hopens : m.Opens n) (hlast : n.Extends last)
    (hs : last.Sound) (roots : List Value) : last.heap.KeepsOld m.heap.mark roots := by
  intro id hid r hr
  rw [hopens.log_take hlast] at hid
  have hlive := (hm.heap.live_iff id).mpr hid
  rw [Heap.references_congr (hopens.scope?_eq hlast hlive)] at hr
  exact hopens.not_mem_garbage hm.heap.tidy hlast hs.heap.tidy (hm.heap.closed hr)

/-- The end of a call, whatever its body did. -/
theorem Opens.reclaims (hm : m.Sound) (hopens : m.Opens n) (hlast : n.Extends last)
    (hs : last.Sound) (hv : last.Holds v) :
    Reclaims last v (m.resumed .eager v last) ∧ m.Extends (m.resumed .eager v last) := by
  refine ⟨?_, (hopens.intact hm.heap.tidy hlast hs.heap.tidy v).extends⟩
  refine hs.reclaims_sweep hv List.mem_cons_self rfl (hopens.keepsOld hm hlast hs _) ?_
  rw [hopens.log_take hlast]
  exact (hm.heap.live_iff _).mp hm.current

end

/-- The global scope refers only to what its bindings hold on to, and these are roots. -/
lemma Sound.keepsOld {last : Machine} (hs : last.Sound) (v : Value) :
    last.heap.KeepsOld 0 (last.heap.globals ++ [v]) := by
  intro id hid r hr
  have hlog : last.heap.log.take 1 = [ScopeId.global] := rfl
  rw [hlog, List.mem_singleton] at hid
  rw [hid] at hr
  refine (hs.heap.tidy.cutOff_garbage _ _).work ?_
  rw [List.filterMap_append]
  exact List.mem_append_left _ (hs.heap.chained.references_global hr)

/-- The end of a program. -/
theorem Sound.reclaims_program {last : Machine} {v : Value} (hs : last.Sound)
    (hscope : last.scope = .global) (hv : last.Holds v) :
    Reclaims last v { last with heap := last.heap.reclaim v } := by
  refine hs.reclaims_sweep hv (List.mem_append_right _ List.mem_cons_self) rfl (hs.keepsOld v) ?_
  rw [hscope]
  exact List.mem_cons_self

lemma Sound.holds_of_mem (hm : m.Sound) {id : ScopeId} {s : Scope} (hid : m.heap.scope? id = some s)
    {b : String × Value} (hb : b ∈ s.bindings) : m.Holds b.2 := by
  intro r hr
  have href : r ∈ m.heap.references id := by
    rw [Heap.references_of_scope? hid]
    exact List.mem_append_right _ (List.mem_filterMap.mpr ⟨b, hb, hr⟩)
  exact hm.heap.closed href

/-- What a name means holds on to a live scope. -/
lemma Sound.holds_lookup (hm : m.Sound) {id : ScopeId} {name : String} {v : Value}
    (h : m.heap.lookup id name = some v) : m.Holds v := by
  obtain ⟨i, -, hi⟩ := List.exists_of_findSome?_eq_some h
  obtain ⟨s, hs, hfind⟩ := Option.bind_eq_some_iff.mp hi
  obtain ⟨l₁, l₂, hl, -⟩ := List.lookup_eq_some_iff.mp hfind
  exact hm.holds_of_mem hs (b := (name, v)) (by rw [hl]; simp)

end Machine

/-- A machine compared with itself, to see what evaluation preserves. -/
def Simulation.diagonal : Simulation .eager .eager where
  World := Machine
  le := Machine.Extends
  scopes w a b := a = b ∧ w.heap.IsLive a
  machines w m n := m = w ∧ n = w ∧ w.Sound
  le_refl := .refl
  le_trans := .trans
  scopes_mono hw hab := ⟨hab.1, hw.live hab.2⟩
  current := by
    rintro _ _ m ⟨rfl, rfl, hw⟩
    exact ⟨rfl, hw.current⟩
  fresh := by
    rintro _ _ m ⟨rfl, rfl, -⟩
    rfl
  sink := by
    rintro _ _ m ⟨rfl, rfl, -⟩
    rfl
  lookup := by
    rintro _ _ m ⟨rfl, rfl, hw⟩ name
    cases hv : m.heap.lookup m.scope name with
    | none => exact .none
    | some v => exact .some (.of_captured fun a ha => ⟨rfl, hw.holds_lookup hv a ha⟩)
  define := by
    rintro _ _ m a b ⟨rfl, rfl, hw⟩ hab name
    obtain ⟨rfl, ha⟩ := hab.eq_of_diagonal
    exact ⟨_, m.extends_define name a, rfl, rfl, Machine.sound_define hw ha name⟩
  close := by
    rintro _ _ m ⟨rfl, rfl, hw⟩
    exact ⟨{ m with fresh := m.fresh + 1 }, .of_eq rfl rfl, rfl, rfl, hw.of_eq rfl rfl⟩
  write := by
    rintro _ _ m ⟨rfl, rfl, hw⟩ sink
    exact ⟨{ m with sink }, .of_eq rfl rfl, rfl, rfl, hw.of_eq rfl rfl⟩
  call := by
    rintro _ _ m c d vs us ⟨rfl, rfl, hw⟩ hcd hargs
    obtain ⟨heq, hc⟩ := hcd.eq_of_diagonal
    obtain rfl := Value.function.inj heq
    obtain ⟨rfl, hvs⟩ := Value.Alike.forall₂_eq_of_diagonal hargs
    refine ⟨m.entered c vs, ⟨rfl, rfl, hw.entered (hc c.scope rfl) hvs⟩, ?_⟩
    rintro _ _ last a b hlast ⟨rfl, rfl, hs⟩ hab
    obtain ⟨rfl, ha⟩ := hab.eq_of_diagonal
    obtain ⟨hreclaims, hext⟩ := (hw.opens c vs).reclaims hw hlast hs ha
    exact ⟨_, hext, ⟨rfl, rfl, hreclaims.sound⟩,
      .of_captured fun id hid => ⟨rfl, hreclaims.holds id hid⟩⟩

end Monkey
