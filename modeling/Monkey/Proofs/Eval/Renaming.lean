import Monkey.Proofs.Eval.Visit

/-! Freeing scopes is invisible. A machine that frees scopes is mirrored by one that never does:
its live scopes are there under other handles, and so are the functions that hold on to them. -/
namespace Monkey

/-! ### Renaming scopes -/

namespace Scope

variable {f g : ScopeId → ScopeId}

def rename (f : ScopeId → ScopeId) (s : Scope) : Scope :=
  ⟨s.bindings.map fun b => (b.1, b.2.rename f), s.outer.map f⟩

@[simp] lemma rename_id (s : Scope) : s.rename id = s := by
  simp [rename]

lemma rename_rename (f g : ScopeId → ScopeId) (s : Scope) :
    (s.rename f).rename g = s.rename (g ∘ f) := by
  simp [rename, Function.comp_def, Value.rename_rename]

lemma references_rename (f : ScopeId → ScopeId) (s : Scope) :
    (s.rename f).references = s.references.map f := by
  rw [references, references, rename, List.map_append, List.filterMap_map, List.map_filterMap,
    Option.toList_map]
  exact congrArg _ (List.filterMap_congr fun b _ => b.2.captured?_rename f)

lemma find?_rename (f : ScopeId → ScopeId) (s : Scope) (name : String) :
    (s.rename f).find? name = (s.find? name).map (Value.rename f) := by
  rw [find?, find?, rename]
  induction s.bindings with
  | nil => rfl
  | cons b rest ih =>
    rw [List.map_cons, List.lookup_cons, List.lookup_cons, ih]
    cases name == b.1 <;> rfl

lemma rename_bind (f : ScopeId → ScopeId) (s : Scope) (name : String) (v : Value) :
    (s.bind name v).rename f = (s.rename f).bind name (v.rename f) := by
  rw [rename, rename, bind, bind, List.map_cons, List.filter_map]
  rfl

lemma rename_congr {s : Scope} (h : ∀ id ∈ s.references, f id = g id) :
    s.rename f = s.rename g := by
  have houter : s.outer.map f = s.outer.map g := by
    cases ho : s.outer with
    | none => rfl
    | some o => exact congrArg some (h o (List.mem_append_left _ (by simp [ho])))
  have hbindings : s.bindings.map (fun b => (b.1, b.2.rename f)) =
      s.bindings.map fun b => (b.1, b.2.rename g) := by
    refine List.map_congr_left fun b hb => congrArg (Prod.mk b.1) (Value.rename_congr ?_)
    intro id hid
    exact h id (List.mem_append_right _ (List.mem_filterMap.mpr ⟨b, hb, hid⟩))
  rw [rename, rename, houter, hbindings]

end Scope

/-! ### Mirrored machines -/

/-- `n` has the live scopes of `m` under the handles that `f` gives them. -/
structure Mirrors (f : ScopeId → ScopeId) (m n : Machine) : Prop where
  sound : m.Sound
  image : n.Sound
  injective {a b : ScopeId} (ha : m.heap.IsLive a) (hb : m.heap.IsLive b) (hab : f a = f b) : a = b
  scope? {id : ScopeId} (hid : m.heap.IsLive id) :
    n.heap.scope? (f id) = (m.heap.scope? id).map (Scope.rename f)
  current : n.scope = f m.scope
  fresh : n.fresh = m.fresh
  sink : n.sink = m.sink

namespace Mirrors

variable {f : ScopeId → ScopeId} {m n : Machine}

lemma isLive (h : Mirrors f m n) {id : ScopeId} (hid : m.heap.IsLive id) :
    n.heap.IsLive (f id) := by
  rw [Heap.IsLive, h.scope? hid, Option.isSome_map]
  exact hid

lemma outer? (h : Mirrors f m n) {id : ScopeId} (hid : m.heap.IsLive id) :
    n.heap.outer? (f id) = (m.heap.outer? id).map f := by
  rw [Heap.outer?, h.scope? hid, Heap.outer?]
  cases m.heap.scope? id <;> rfl

lemma find? (h : Mirrors f m n) {id : ScopeId} (hid : m.heap.IsLive id) (name : String) :
    (n.heap.scope? (f id)).bind (·.find? name) =
      ((m.heap.scope? id).bind (·.find? name)).map (Value.rename f) := by
  rw [h.scope? hid]
  cases m.heap.scope? id with
  | none => rfl
  | some s => exact s.find?_rename f name

/-- Names mean the same in both machines. -/
theorem lookup (h : Mirrors f m n) {id : ScopeId} (hid : m.heap.IsLive id) (name : String) :
    n.heap.lookup (f id) name = (m.heap.lookup id name).map (Value.rename f) := by
  refine h.sound.heap.chained.outwards (motive := fun id => n.heap.lookup (f id) name =
    (m.heap.lookup id name).map (Value.rename f)) (fun id hid ih => ?_) hid
  have houter := h.outer? hid
  cases ho : m.heap.outer? id with
  | none =>
    rw [ho] at houter
    rw [Heap.lookup_of_outermost houter, Heap.lookup_of_outermost ho, h.find? hid]
  | some o =>
    rw [ho] at houter
    rw [h.image.heap.chained.lookup_of_outer houter, h.sound.heap.chained.lookup_of_outer ho,
      h.find? hid, ih o ho]
    cases (m.heap.scope? id).bind (·.find? name) <;> rfl

lemma holds (h : Mirrors f m n) {v : Value} (hv : m.Holds v) : n.Holds (v.rename f) := by
  intro id hid
  rw [Value.captured?_rename] at hid
  obtain ⟨i, hi, rfl⟩ := Option.map_eq_some_iff.mp hid
  exact h.isLive (hv i hi)

lemma define (h : Mirrors f m n) {v : Value} (hv : m.Holds v) (name : String) :
    Mirrors f { m with heap := m.heap.bind m.scope name v }
      { n with heap := n.heap.bind n.scope name (v.rename f) } where
  sound := Machine.sound_define h.sound hv name
  image := Machine.sound_define h.image (h.holds hv) name
  injective ha hb :=
    h.injective ((Heap.isLive_bind _ _ _ _ _).mp ha) ((Heap.isLive_bind _ _ _ _ _).mp hb)
  scope? {id} hid := by
    rw [Heap.isLive_bind] at hid
    rw [Heap.scope?_bind, Heap.scope?_bind, h.current]
    by_cases heq : id = m.scope
    · rw [if_pos heq, if_pos (congrArg f heq), h.scope? h.sound.current]
      cases m.heap.scope? m.scope with
      | none => rfl
      | some s => exact congrArg some (s.rename_bind f name v).symm
    · rw [if_neg heq, if_neg fun hf => heq (h.injective hid h.sound.current hf), h.scope? hid]
  current := h.current
  fresh := h.fresh
  sink := h.sink

/-- A new scope on both sides, one the image of the other. -/
lemma opened (h : Mirrors f m n) {o : ScopeId} (ho : m.heap.IsLive o) :
    Mirrors (Function.update f (m.heap.alloc o).1 (n.heap.alloc (f o)).1)
      { m with heap := (m.heap.alloc o).2, scope := (m.heap.alloc o).1 }
      { n with heap := (n.heap.alloc (f o)).2, scope := (n.heap.alloc (f o)).1 } := by
  have hm := h.sound.heap.tidy.adds_alloc o
  have hn := h.image.heap.tidy.adds_alloc (f o)
  have hold : ∀ {id}, m.heap.IsLive id →
      Function.update f (m.heap.alloc o).1 (n.heap.alloc (f o)).1 id = f id := fun hid =>
    Function.update_of_ne (hm.ne_of_isLive hid) _ _
  have hnew : Function.update f (m.heap.alloc o).1 (n.heap.alloc (f o)).1 (m.heap.alloc o).1 =
      (n.heap.alloc (f o)).1 := Function.update_self _ _ _
  refine ⟨⟨hm.sound h.sound.heap ho, (hm.isLive_iff _).mpr (.inl rfl)⟩,
    ⟨hn.sound h.image.heap (h.isLive ho), (hn.isLive_iff _).mpr (.inl rfl)⟩,
    fun {a b} ha hb hab => ?_, fun {id} hid => ?_, hnew.symm, h.fresh, h.sink⟩
  · rcases (hm.isLive_iff a).mp ha with rfl | ha <;> rcases (hm.isLive_iff b).mp hb with rfl | hb
    · rfl
    · rw [hnew, hold hb] at hab
      exact absurd (hab ▸ h.isLive hb) hn.not_isLive
    · rw [hnew, hold ha] at hab
      exact absurd (hab ▸ h.isLive ha) hn.not_isLive
    · rw [hold ha, hold hb] at hab
      exact h.injective ha hb hab
  · rw [hn.scope?_eq, hm.scope?_eq]
    rcases (hm.isLive_iff id).mp hid with rfl | hid
    · rw [hnew, if_pos rfl, if_pos rfl]
      exact congrArg (fun o => some (Scope.mk [] (some o))) (hold ho).symm
    · rw [hold hid, if_neg (hn.ne_of_isLive (h.isLive hid)), if_neg (hm.ne_of_isLive hid),
        h.scope? hid]
      refine Option.map_congr fun s hs => Scope.rename_congr fun r hr => (hold ?_).symm
      exact h.sound.heap.closed (Heap.references_of_scope? hs ▸ hr)

lemma bindAll (h : Mirrors f m n) {bindings : List (String × Value)}
    (hb : ∀ b ∈ bindings, m.Holds b.2) :
    Mirrors f { m with heap := m.heap.bindAll m.scope bindings }
      { n with heap := n.heap.bindAll n.scope (bindings.map fun b => (b.1, b.2.rename f)) } := by
  induction bindings generalizing m n with
  | nil => exact h
  | cons b rest ih =>
    refine ih (h.define (hb b List.mem_cons_self) b.1) fun c hc id hid => ?_
    exact (Heap.isLive_bind _ _ _ _ _).mpr (hb c (List.mem_cons_of_mem _ hc) id hid)

/-- The start of a call. -/
lemma entered (h : Mirrors f m n) {c : Closure} {vs : List Value} (hc : m.heap.IsLive c.scope)
    (hvs : ∀ v ∈ vs, m.Holds v) :
    Mirrors (Function.update f (m.heap.alloc c.scope).1 (n.heap.alloc (f c.scope)).1)
      (m.entered c vs) (n.entered { c with scope := f c.scope } (vs.map (Value.rename f))) := by
  have hadds := h.sound.heap.tidy.adds_alloc c.scope
  have hopened := h.opened hc
  have hrename : ∀ v ∈ vs, v.rename f =
      v.rename (Function.update f (m.heap.alloc c.scope).1 (n.heap.alloc (f c.scope)).1) := by
    intro v hv
    refine Value.rename_congr fun id hid => (Function.update_of_ne ?_ _ _).symm
    exact hadds.ne_of_isLive (hvs v hv id hid)
  have hholds : ∀ b ∈ c.params.zip vs, Machine.Holds
      { m with heap := (m.heap.alloc c.scope).2, scope := (m.heap.alloc c.scope).1 } b.2 :=
    fun b hb id hid => (hadds.isLive_iff id).mpr (.inr (hvs b.2 (List.of_mem_zip hb).2 id hid))
  have hzip : c.params.zip (vs.map (Value.rename f)) = (c.params.zip vs).map fun b =>
      (b.1, b.2.rename
        (Function.update f (m.heap.alloc c.scope).1 (n.heap.alloc (f c.scope)).1)) := by
    rw [List.map_congr_left hrename, List.zip_map_right]
    rfl
  have hbind := hopened.bindAll hholds
  rw [← hzip] at hbind
  exact hbind

/-- Freeing what nothing needs keeps the mirror, though it frees nothing itself. -/
lemma reclaims {last k : Machine} {v : Value} (h : Mirrors f last k) (hr : last.Reclaims v m)
    (hheap : n.heap = k.heap) (hcurrent : n.scope = f m.scope) (hfresh : n.fresh = m.fresh)
    (hsink : n.sink = m.sink) : Mirrors f m n where
  sound := hr.sound
  image := by
    refine ⟨hheap ▸ h.image.heap, ?_⟩
    rw [hheap, hcurrent]
    exact h.isLive (hr.kept hr.sound.current).1
  injective ha hb := h.injective (hr.kept ha).1 (hr.kept hb).1
  scope? hid := by
    rw [hheap, h.scope? (hr.kept hid).1, (hr.kept hid).2]
  current := hcurrent
  fresh := hfresh
  sink := hsink

end Mirrors

/-- A machine that frees scopes, compared with one that never does. -/
def Simulation.renaming : Simulation .eager .never where
  World := (ScopeId → ScopeId) × Machine
  le w w₁ := w.2.Extends w₁.2 ∧ ∀ id, w.2.heap.IsLive id → w₁.1 id = w.1 id
  scopes w a b := w.2.heap.IsLive a ∧ b = w.1 a
  machines w m n := m = w.2 ∧ Mirrors w.1 m n
  le_refl w := ⟨.refl w.2, fun _ _ => rfl⟩
  le_trans h h' := ⟨h.1.trans h'.1, fun id hid => (h'.2 id (h.1.live hid)).trans (h.2 id hid)⟩
  scopes_mono hw hab := ⟨hw.1.live hab.1, hab.2.trans (hw.2 _ hab.1).symm⟩
  current := by
    rintro ⟨f, _⟩ m n ⟨rfl, h⟩
    exact ⟨h.sound.current, h.current⟩
  fresh h := h.2.fresh.symm
  sink h := h.2.sink.symm
  lookup := by
    rintro ⟨f, _⟩ m n ⟨rfl, h⟩ name
    rw [h.current, h.lookup h.sound.current]
    cases hv : m.heap.lookup m.scope name with
    | none => exact .none
    | some v => exact .some (Value.alike_iff.mpr ⟨rfl, h.sound.holds_lookup hv⟩)
  define := by
    rintro ⟨f, _⟩ m n a b ⟨rfl, h⟩ hab name
    obtain ⟨rfl, ha⟩ := Value.alike_iff.mp hab
    exact ⟨(f, _), ⟨m.extends_define name a, fun _ _ => rfl⟩, rfl, h.define ha name⟩
  close := by
    rintro ⟨f, _⟩ m n ⟨rfl, h⟩
    refine ⟨(f, { m with fresh := m.fresh + 1 }), ⟨.of_eq rfl rfl, fun _ _ => rfl⟩, rfl, ?_⟩
    exact ⟨h.sound.of_eq rfl rfl, h.image.of_eq rfl rfl, h.injective, h.scope?, h.current,
      congrArg (· + 1) h.fresh, h.sink⟩
  write := by
    rintro ⟨f, _⟩ m n ⟨rfl, h⟩ sink
    refine ⟨(f, { m with sink }), ⟨.of_eq rfl rfl, fun _ _ => rfl⟩, rfl, ?_⟩
    exact ⟨h.sound.of_eq rfl rfl, h.image.of_eq rfl rfl, h.injective, h.scope?, h.current,
      h.fresh, rfl⟩
  call := by
    rintro ⟨f, _⟩ m n c d vs us ⟨rfl, h⟩ hcd hargs
    obtain ⟨hd, hc⟩ := Value.alike_iff.mp hcd
    obtain rfl := Value.function.inj hd
    obtain ⟨rfl, hvs⟩ := Value.forall₂_alike_iff.mp hargs
    refine ⟨(_, m.entered c vs), ⟨rfl, h.entered (hc c.scope rfl) hvs⟩, ?_⟩
    rintro ⟨g, _⟩ last k a b ⟨hlast, hg⟩ ⟨rfl, hk⟩ hab
    obtain ⟨rfl, ha⟩ := Value.alike_iff.mp hab
    have hopens := h.sound.opens c vs
    obtain ⟨hreclaims, hext⟩ := hopens.reclaims h.sound hlast hk.sound ha
    have hgf : ∀ id, m.heap.IsLive id → g id = f id := fun id hid =>
      (hg id (hopens.live hid)).trans
        (Function.update_of_ne ((h.sound.heap.tidy.adds_alloc c.scope).ne_of_isLive hid) _ _)
    refine ⟨(g, m.resumed .eager a last), ⟨hext, hgf⟩, ⟨rfl, ?_⟩,
      Value.alike_iff.mpr ⟨rfl, hreclaims.holds⟩⟩
    exact hk.reclaims hreclaims rfl (h.current.trans (hgf _ h.sound.current).symm) hk.fresh hk.sink

/-! ### Sequences of programs -/

/-- The values of programs run one after another, each with the machine that it leaves. -/
def Program.evalEach (policy : Reclamation) (depth : Nat) :
    List Program → Machine → Option (List (Value × Machine))
  | [], _ => some []
  | program :: rest, m => do
    let r ← program.eval policy depth m
    return r :: (← evalEach policy depth rest r.2)

/-- The outcomes of a program are the same but for the handles of scopes. -/
structure Renames (f : ScopeId → ScopeId) (x y : Value × Machine) : Prop where
  injective {a b : ScopeId} (ha : x.2.heap.IsLive a) (hb : x.2.heap.IsLive b) (hab : f a = f b) :
    a = b
  value : y.1 = x.1.rename f
  tag : y.1.tag = x.1.tag
  display : y.1.display = x.1.display
  sink : y.2.sink = x.2.sink
  lookup (name : String) :
    y.2.heap.lookup .global name = (x.2.heap.lookup .global name).map (Value.rename f)

/-- What one program leaves behind for the next. -/
structure Between (f : ScopeId → ScopeId) (m n : Machine) : Prop where
  mirrors : Mirrors f m n
  scope : m.scope = .global
  image : n.scope = .global

lemma between_start (sink : Sink) : Between id (.start sink) (.start sink) := by
  refine ⟨⟨Machine.sound_start sink, Machine.sound_start sink, fun _ _ hab => hab, fun {i} _ => ?_,
    rfl, rfl, rfl⟩, rfl, rfl⟩
  change Heap.empty.scope? i = (Heap.empty.scope? i).map _
  rw [Heap.scope?_empty]
  split <;> rfl

lemma Between.renames {f : ScopeId → ScopeId} {m n : Machine} (h : Between f m n) (v : Value) :
    Renames f (v, m) (v.rename f, n) where
  injective := h.mirrors.injective
  value := rfl
  tag := (v.alike_rename f).tag_eq.symm
  display := (v.alike_rename f).display_eq.symm
  sink := h.mirrors.sink
  lookup name := by
    have hlookup := h.mirrors.lookup h.mirrors.sound.current name
    rwa [← h.mirrors.current, h.image, h.scope] at hlookup

/-- One program, with and without freeing. -/
theorem Between.program {f : ScopeId → ScopeId} {m n : Machine} (h : Between f m n)
    (program : Program) (depth : Nat) :
    Option.Rel (fun x y => ∃ g, Between g x.2 y.2 ∧ y.1 = x.1.rename g)
      (program.eval .eager depth m) (program.eval .never depth n) := by
  have hrun := Simulation.follows_block (Simulation.renaming.calls depth) (f, m) program
    (a := .null) (b := .null) .null (f, m) (Simulation.renaming.le_refl _) m n ⟨rfl, h.mirrors⟩
  rw [Program.eval_apply, Program.eval_apply]
  generalize evalBlock _ program .null m = x, evalBlock _ program .null n = y at hrun
  cases hrun with
  | none => exact .none
  | @some r s hrs =>
    obtain ⟨v, last⟩ := r
    obtain ⟨u, k⟩ := s
    obtain ⟨⟨g, _⟩, ⟨hext, hgf⟩, ⟨rfl, hk⟩, hab⟩ := hrs
    obtain ⟨hu, hv⟩ := Value.alike_iff.mp (Value.Alike.unwrap hab)
    have hlast : last.scope = .global := hext.scope.trans h.scope
    have himage : k.scope = .global := calc
      k.scope = g last.scope := hk.current
      _ = g m.scope := congrArg g hext.scope
      _ = f m.scope := hgf _ h.mirrors.sound.current
      _ = n.scope := h.mirrors.current.symm
      _ = .global := h.image
    have hreclaims := hk.sound.reclaims_program hlast hv
    exact .some ⟨g, ⟨hk.reclaims hreclaims rfl hk.current hk.fresh hk.sink, hlast, himage⟩, hu⟩

/-- Whether scopes are freed or not, each program of any sequence has the same outcome. -/
theorem evalEach_renames (programs : List Program) (depth : Nat) (sink : Sink) :
    Option.Rel (List.Forall₂ fun x y => ∃ f, Renames f x y)
      (Program.evalEach .eager depth programs (.start sink))
      (Program.evalEach .never depth programs (.start sink)) := by
  suffices ∀ f m n, Between f m n → Option.Rel (List.Forall₂ fun x y => ∃ f, Renames f x y)
      (Program.evalEach .eager depth programs m) (Program.evalEach .never depth programs n) from
    this id _ _ (between_start sink)
  induction programs with
  | nil => exact fun _ _ _ _ => .some .nil
  | cons program rest ih =>
    intro f m n h
    have hprogram := h.program program depth
    rw [Program.evalEach, Program.evalEach]
    generalize program.eval .eager depth m = x, program.eval .never depth n = y at hprogram
    cases hprogram with
    | none => exact .none
    | @some r s hrs =>
      obtain ⟨v, m₁⟩ := r
      obtain ⟨_, n₁⟩ := s
      obtain ⟨g, hbetween, rfl⟩ := hrs
      have hrest := ih g m₁ n₁ hbetween
      change Option.Rel _ ((Program.evalEach .eager depth rest m₁).bind _)
        ((Program.evalEach .never depth rest n₁).bind _)
      generalize Program.evalEach .eager depth rest m₁ = x,
        Program.evalEach .never depth rest n₁ = y at hrest
      cases hrest with
      | none => exact .none
      | some hrest => exact .some (.cons ⟨g, hbetween.renames v⟩ hrest)

end Monkey
