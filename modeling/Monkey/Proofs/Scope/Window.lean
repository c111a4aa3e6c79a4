import Mathlib.Logic.Function.Iterate
import Mathlib.Logic.Relation
import Monkey.Proofs.Scope.Arena

/-! What a sweep does to a tidy heap, whatever its scopes hold on to: handles may be those of freed
scopes, and functions may hold on to each other's scopes in circles. The sweep comes to an end,
keeps of its window what the roots reach through the window, and frees the rest from the oldest on.
In which order the scopes list their bindings makes no difference. -/
namespace Monkey

@[simp] lemma Value.captured?_returned (k : Nat) (c : Closure) :
    (returned^[k] (.function c)).captured? = some c.scope := by
  induction k with
  | zero => rfl
  | succ k ih => rw [Function.iterate_succ_apply', captured?, ih]

/-- What a value holds on to is what a function does, with any number of `return`s around it. -/
lemma Value.captured?_eq_some_iff {v : Value} {id : ScopeId} :
    v.captured? = some id ↔ ∃ k c, v = returned^[k] (.function c) ∧ c.scope = id := by
  constructor
  · intro h
    induction v with
    | function c => exact ⟨0, c, rfl, Option.some.inj h⟩
    | returned v ih =>
      obtain ⟨k, c, rfl, hid⟩ := ih h
      exact ⟨k + 1, c, (Function.iterate_succ_apply' _ _ _).symm, hid⟩
    | _ => cases h
  · rintro ⟨k, c, rfl, rfl⟩
    exact captured?_returned k c

lemma eq_filter_of_sublist {α : Type} [DecidableEq α] {l l' : List α} (hl : l.Nodup)
    (h : l'.Sublist l) : l' = l.filter (· ∈ l') := by
  have hsub := h.filter (· ∈ l')
  rw [List.filter_eq_self.mpr (by simp)] at hsub
  have hperm : l'.Perm (l.filter (· ∈ l')) := by
    refine (List.perm_ext_iff_of_nodup (hl.sublist h) (hl.filter _)).mpr fun a => ?_
    simp only [List.mem_filter, decide_eq_true_eq]
    exact ⟨fun ha => ⟨h.subset ha, ha⟩, And.right⟩
  exact hsub.eq_of_length hperm.length_eq

namespace Heap

variable {h : Heap} {id r : ScopeId} {mark : Nat} {window : List ScopeId} {roots : List Value}

/-! ### The turns of the worklist -/

/-- One turn: an id that is pending is taken out and its references become work, and any other id is
passed over. -/
inductive Turn (h : Heap) : List ScopeId × List ScopeId → List ScopeId × List ScopeId → Prop
  | follow {pending work : List ScopeId} {id : ScopeId} (hid : id ∈ pending) :
      Turn h (pending, id :: work) (pending.erase id, h.references id ++ work)
  | pass {pending work : List ScopeId} {id : ScopeId} (hid : id ∉ pending) :
      Turn h (pending, id :: work) (pending, work)

/-- With a round for each root and each reference, the turns go on until no work is left. -/
lemma turns_unreachedIn {n : Nat} {pending work : List ScopeId} (hn : h.rounds pending work ≤ n) :
    Relation.ReflTransGen h.Turn (pending, work) (h.unreachedIn n pending work, []) := by
  induction n generalizing pending work with
  | zero =>
    cases work with
    | nil => exact .refl
    | cons id work =>
      rw [rounds, List.length_cons] at hn
      omega
  | succ n ih =>
    cases work with
    | nil => exact .refl
    | cons id work =>
      rw [unreachedIn]
      split
      · next hid =>
        rw [rounds_cons_of_mem hid] at hn
        exact .head (.follow hid) (ih (Nat.le_of_succ_le_succ hn))
      · next hid =>
        rw [rounds, List.length_cons] at hn
        refine .head (.pass hid) (ih ?_)
        rw [rounds]
        omega

/-! ### What the roots reach -/

/-- The least set of scopes of the window with those that functions among the roots hold on to, with
the outer scopes of its members, and with those that functions bound in its members hold on to. -/
inductive ReachesWithin (h : Heap) (window : List ScopeId) (roots : List Value) : ScopeId → Prop
  | root {k : Nat} {c : Closure} (hv : Value.returned^[k] (.function c) ∈ roots)
      (hw : c.scope ∈ window) : ReachesWithin h window roots c.scope
  | outer {id o : ScopeId} (hid : ReachesWithin h window roots id) (ho : h.outer? id = some o)
      (hw : o ∈ window) : ReachesWithin h window roots o
  | bound {id : ScopeId} {s : Scope} {name : String} {k : Nat} {c : Closure}
      (hid : ReachesWithin h window roots id) (hs : h.scope? id = some s)
      (hv : (name, Value.returned^[k] (.function c)) ∈ s.bindings) (hw : c.scope ∈ window) :
      ReachesWithin h window roots c.scope

namespace ReachesWithin

lemma mem_window (hid : h.ReachesWithin window roots id) : id ∈ window := by
  cases hid <;> assumption

lemma captured (hr : r ∈ roots.filterMap Value.captured?) (hw : r ∈ window) :
    h.ReachesWithin window roots r := by
  obtain ⟨v, hv, hr⟩ := List.mem_filterMap.mp hr
  obtain ⟨k, c, rfl, rfl⟩ := Value.captured?_eq_some_iff.mp hr
  exact .root hv hw

lemma reference (hid : h.ReachesWithin window roots id) (hr : r ∈ h.references id)
    (hw : r ∈ window) : h.ReachesWithin window roots r := by
  obtain ⟨s, hs⟩ := isLive_iff.mp (isLive_of_references hr)
  rw [references_of_scope? hs, Scope.references, List.mem_append, Option.mem_toList] at hr
  rcases hr with hr | hr
  · exact hid.outer (by simpa [outer?, hs] using hr) hw
  · obtain ⟨⟨name, v⟩, hb, hcap⟩ := List.mem_filterMap.mp hr
    obtain ⟨k, c, rfl, rfl⟩ := Value.captured?_eq_some_iff.mp hcap
    exact hid.bound hs hb hw

end ReachesWithin

/-- What is cut off from the work is not reached from it. -/
lemma CutOff.not_mem {left : List ScopeId}
    (hcut : h.CutOff window (roots.filterMap Value.captured?) left)
    (hid : h.ReachesWithin window roots id) : id ∉ left := by
  induction hid with
  | root hv hw =>
    exact hcut.work (List.mem_filterMap.mpr ⟨_, hv, Value.captured?_returned _ _⟩)
  | outer hid ho hw ih => exact hcut.others hid.mem_window ih (mem_references_of_outer? ho)
  | bound hid hs hv hw ih =>
    refine hcut.others hid.mem_window ih ?_
    rw [references_of_scope? hs]
    exact List.mem_append_right _ (List.mem_filterMap.mpr ⟨_, hv, Value.captured?_returned _ _⟩)

lemma Tidy.not_mem_garbage_iff (ht : h.Tidy) (hid : id ∈ h.created.drop mark) :
    id ∉ h.garbage mark roots ↔ h.ReachesWithin (h.created.drop mark) roots id := by
  constructor
  · exact of_not_mem_unreachedIn (fun i hi => .captured hi) (fun i hi r hr => hi.reference hr) hid
  · exact (ht.cutOff_garbage mark roots).not_mem

open Classical in
lemma Tidy.garbage_eq (ht : h.Tidy) (mark : Nat) (roots : List Value) :
    h.garbage mark roots =
      (h.created.drop mark).filter (¬h.ReachesWithin (h.created.drop mark) roots ·) := by
  have hnodup := ht.nodup.of_cons.sublist (List.drop_sublist mark _)
  refine (eq_filter_of_sublist hnodup (ht.cutOff_garbage mark roots).sublist).trans ?_
  refine List.filter_congr fun id hid => ?_
  simp [← ht.not_mem_garbage_iff hid]

open Classical in
/-- What a sweep has to make of a heap. -/
structure Swept (h : Heap) (mark : Nat) (roots : List Value) (h' : Heap) : Prop where
  /-- The scopes up to the mark stay, and those behind it that are reached, all in their order. -/
  created : h'.created = h.created.take mark ++
    (h.created.drop mark).filter (h.ReachesWithin (h.created.drop mark) roots ·)
  /-- The other slots become free one after another, the oldest first. -/
  free : h'.free.reverse = h.free.reverse ++
    (h.created.drop mark).filter (¬h.ReachesWithin (h.created.drop mark) roots ·)
  /-- And they are emptied, with all other slots as they were. -/
  scope? (id : ScopeId) : h'.scope? id =
    if id ∈ h.created.drop mark ∧ ¬h.ReachesWithin (h.created.drop mark) roots id then none
    else h.scope? id

open Classical in
lemma Tidy.swept (ht : h.Tidy) (mark : Nat) (roots : List Value) :
    h.Swept mark roots (h.sweep mark roots) where
  created := by
    have hkept : (h.created.drop mark).filter (· ∉ h.garbage mark roots) =
        (h.created.drop mark).filter (h.ReachesWithin (h.created.drop mark) roots ·) :=
      List.filter_congr fun id hid => by simp [← ht.not_mem_garbage_iff hid]
    exact congrArg (h.created.take mark ++ ·) hkept
  free := by
    change ((h.garbage mark roots).reverse ++ h.free).reverse = _
    rw [List.reverse_append, List.reverse_reverse, ht.garbage_eq]
  scope? id := by
    rw [scope?_sweep]
    refine if_congr ?_ rfl rfl
    rw [ht.garbage_eq, List.mem_filter, decide_eq_true_eq]

/-! ### The order of bindings -/

/-- The same heap, but for the order in which scopes list their bindings. -/
structure Reorders (h k : Heap) : Prop where
  created : k.created = h.created
  free : k.free = h.free
  size : k.slots.size = h.slots.size
  scope? (id : ScopeId) : Option.Rel (fun s t => t.outer = s.outer ∧ t.bindings.Perm s.bindings)
    (h.scope? id) (k.scope? id)

namespace Reorders

variable {k : Heap}

lemma symm (hk : h.Reorders k) : k.Reorders h where
  created := hk.created.symm
  free := hk.free.symm
  size := hk.size.symm
  scope? id := by
    have hscope := hk.scope? id
    generalize h.scope? id = x, k.scope? id = y at hscope
    cases hscope with
    | none => exact .none
    | some hst => exact .some ⟨hst.1.symm, hst.2.symm⟩

lemma isLive_iff (hk : h.Reorders k) (id : ScopeId) : k.IsLive id ↔ h.IsLive id := by
  have hscope := hk.scope? id
  rw [IsLive, IsLive]
  generalize h.scope? id = x, k.scope? id = y at hscope
  cases hscope <;> simp

lemma tidy (hk : h.Reorders k) (ht : h.Tidy) : k.Tidy where
  nodup := by rw [log, hk.created]; exact ht.nodup
  live_iff id := by rw [hk.isLive_iff, ht.live_iff, log, log, hk.created]
  free_nodup := by rw [hk.free]; exact ht.free_nodup
  free_slot {id} hid := by
    rw [hk.free] at hid
    obtain ⟨hindex, hnone⟩ := ht.free_slot hid
    have hdead : ¬k.IsLive id := by
      rw [hk.isLive_iff, IsLive, hnone]
      simp
    exact ⟨hk.size ▸ hindex, Option.not_isSome_iff_eq_none.mp hdead⟩

lemma exists_scope? (hk : h.Reorders k) {s : Scope} (hs : h.scope? id = some s) :
    ∃ t, k.scope? id = some t ∧ t.outer = s.outer ∧ t.bindings.Perm s.bindings := by
  have hscope := hk.scope? id
  rw [hs] at hscope
  generalize k.scope? id = y at hscope
  cases hscope with
  | some hst => exact ⟨_, rfl, hst⟩

lemma reachesWithin (hk : h.Reorders k) {roots' : List Value} (hroots : ∀ v ∈ roots, v ∈ roots')
    (hid : h.ReachesWithin window roots id) : k.ReachesWithin window roots' id := by
  induction hid with
  | root hv hw => exact .root (hroots _ hv) hw
  | outer _ ho hw ih =>
    obtain ⟨s, hs, ho⟩ := Option.bind_eq_some_iff.mp ho
    obtain ⟨t, ht, houter, -⟩ := hk.exists_scope? hs
    exact ih.outer (by simpa [outer?, ht, houter] using ho) hw
  | bound _ hs hv hw ih =>
    obtain ⟨t, ht, -, hperm⟩ := hk.exists_scope? hs
    exact ih.bound ht (hperm.mem_iff.mpr hv) hw

lemma garbage_eq (hk : h.Reorders k) (ht : h.Tidy) {roots' : List Value}
    (hroots : ∀ v, v ∈ roots' ↔ v ∈ roots) : k.garbage mark roots' = h.garbage mark roots := by
  rw [ht.garbage_eq, (hk.tidy ht).garbage_eq, hk.created]
  refine List.filter_congr fun id _ => ?_
  have hiff : k.ReachesWithin (h.created.drop mark) roots' id ↔
      h.ReachesWithin (h.created.drop mark) roots id :=
    ⟨hk.symm.reachesWithin fun v => (hroots v).mp, hk.reachesWithin fun v => (hroots v).mpr⟩
  simp [hiff]

/-- Sweeps of the same heap with its bindings and the roots in other orders do the same. -/
lemma sweep (hk : h.Reorders k) (ht : h.Tidy) {roots' : List Value}
    (hroots : ∀ v, v ∈ roots' ↔ v ∈ roots) :
    (h.sweep mark roots).Reorders (k.sweep mark roots') where
  created := by
    rw [(hk.tidy ht).created_sweep, ht.created_sweep, hk.garbage_eq ht hroots, hk.created]
  free := by
    change (k.garbage mark roots').reverse ++ k.free = (h.garbage mark roots).reverse ++ h.free
    rw [hk.garbage_eq ht hroots, hk.free]
  size := (size_clearAll _ _).trans (hk.size.trans (size_clearAll _ _).symm)
  scope? id := by
    rw [scope?_sweep, scope?_sweep, hk.garbage_eq ht hroots]
    split
    · exact .none
    · exact hk.scope? id

end Reorders

/-- A sweep of a tidy heap ends, does what it has to, and does it in whatever order bindings and
roots are listed. -/
theorem Tidy.sweep_exact (ht : h.Tidy) (mark : Nat) (roots : List Value) :
    Relation.ReflTransGen h.Turn (h.created.drop mark, roots.filterMap Value.captured?)
        (h.garbage mark roots, []) ∧
      h.Swept mark roots (h.sweep mark roots) ∧
      ∀ k roots', h.Reorders k → (∀ v, v ∈ roots' ↔ v ∈ roots) →
        (h.sweep mark roots).Reorders (k.sweep mark roots') :=
  ⟨turns_unreachedIn (Nat.le_refl _), ht.swept mark roots, fun _ _ hk hroots => hk.sweep ht hroots⟩

/-- Four scopes after the bindings given in the third: functions in the second and in the third can
hold on to each other's scopes, and one in the fourth holds on to a scope that never was. -/
def ring (bindings : List (String × Value)) : Heap :=
  after ([.alloc .global, .alloc .global, .alloc ⟨1⟩, .alloc .global,
    .bind ⟨2⟩ "f" (.function ⟨0, [], [], ⟨3⟩⟩), .bind ⟨4⟩ "g" (.function ⟨1, [], [], ⟨9⟩⟩)] ++
      bindings.map fun b => .bind ⟨3⟩ b.1 b.2)

/-- Behind the first scope, a function carried by two `return`s keeps the third scope, and that one
keeps the second. -/
theorem Tidy.sweep_exact_ring :
    let a : String × Value := ("a", .returned (.function ⟨2, [], [], ⟨2⟩⟩))
    let b : String × Value := ("b", .int 0)
    let root : Value := .returned (.returned (.function ⟨3, [], [], ⟨3⟩⟩))
    ((ring [a, b]).sweep 1 [root]).created = [⟨1⟩, ⟨2⟩, ⟨3⟩] ∧
      ((ring [a, b]).sweep 1 [root]).free = [⟨4⟩] ∧
      (ring [a, b]).Swept 1 [root] ((ring [a, b]).sweep 1 [root]) ∧
      ((ring [a, b]).sweep 1 [root]).Reorders ((ring [b, a]).sweep 1 [root]) := by
  intro a b root
  obtain ⟨-, hswept, hreorders⟩ := Tidy.sweep_exact (tidy_after _).1 1 [root]
  refine ⟨by decide +kernel, by decide +kernel, hswept, hreorders (ring [b, a]) _ ?_ fun _ => .rfl⟩
  refine ⟨rfl, rfl, rfl, fun ⟨i⟩ => ?_⟩
  match i with
  | 0 | 1 | 2 | 4 => exact .some ⟨rfl, .refl _⟩
  | 3 => exact .some ⟨rfl, .swap _ _ _⟩
  | i + 5 => exact .none

end Heap
end Monkey
