import Mathlib.Data.List.Perm.Subperm
import Monkey.Proofs.Scope.Sound

/-! The way outwards from a scope of a chained heap. It goes from younger scopes to older ones, so
it ends at a scope that has no outer one, and a lookup goes along all of it. -/
namespace Monkey

lemma idxOf_lt_idxOf_of_sublist {α : Type} [BEq α] [LawfulBEq α] {a b : α} {l : List α}
    (hl : l.Nodup) (h : [a, b].Sublist l) : l.idxOf a < l.idxOf b := by
  induction l with
  | nil => cases h
  | cons c l ih =>
    rw [List.nodup_cons] at hl
    cases h with
    | cons _ h =>
      have hne : ∀ x ∈ [a, b], c ≠ x := fun x hx heq => hl.1 (heq ▸ h.subset hx)
      rw [List.idxOf_cons_ne _ (hne a (by simp)), List.idxOf_cons_ne _ (hne b (by simp))]
      exact Nat.succ_lt_succ (ih hl.2 h)
    | cons_cons _ h =>
      have hne : a ≠ b := fun heq => hl.1 (heq ▸ List.singleton_sublist.mp h)
      rw [List.idxOf_cons_self, List.idxOf_cons_ne _ hne]
      exact Nat.succ_pos _

namespace Heap

variable {h : Heap} {id o : ScopeId}

/-- The age of a scope; the global one is the oldest. -/
def rank (h : Heap) (id : ScopeId) : Nat := h.log.idxOf id

lemma Chained.rank_lt (hc : h.Chained) (ho : h.outer? id = some o) : h.rank o < h.rank id :=
  idxOf_lt_idxOf_of_sublist hc.nodup (hc.outer_older ho)

lemma Chained.outer_global (hc : h.Chained) : h.outer? .global = none := by
  cases ho : h.outer? .global with
  | none => rfl
  | some o =>
    have hlt := hc.rank_lt ho
    rw [rank, rank, log, List.idxOf_cons_self] at hlt
    exact absurd hlt (Nat.not_lt_zero _)

/-- The global scope holds on to nothing but what its bindings do. -/
lemma Chained.references_global (hc : h.Chained) {r : ScopeId} (hr : r ∈ h.references .global) :
    r ∈ h.globals.filterMap Value.captured? := by
  obtain ⟨s, hscope⟩ := isLive_iff.mp (isLive_of_references hr)
  have houter : s.outer = none := by
    have ho := hc.outer_global
    rwa [outer?, hscope] at ho
  rw [references_of_scope? hscope, Scope.references, houter] at hr
  rw [globals, hscope, List.filterMap_map]
  exact hr

/-- There is a slot for each live scope. -/
lemma Tidy.length_log_le (ht : h.Tidy) : h.log.length ≤ h.slots.size := by
  have hnodup : (h.log.map ScopeId.index).Nodup :=
    ht.nodup.map fun a b heq => congrArg ScopeId.mk heq
  have hsub : h.log.map ScopeId.index ⊆ List.range h.slots.size := by
    intro i hi
    obtain ⟨id, hid, rfl⟩ := List.mem_map.mp hi
    exact List.mem_range.mpr (index_lt_of_isLive ((ht.live_iff id).mpr hid))
  have hle := (List.subperm_of_subset hnodup hsub).length_le
  rwa [List.length_map, List.length_range] at hle

lemma Chained.isLive_outer (hc : h.Chained) (ho : h.outer? id = some o) : h.IsLive o :=
  (hc.live_iff o).mpr ((hc.outer_older ho).subset List.mem_cons_self)

/-- What holds of a scope when it holds of its outer one holds of every live scope. -/
lemma Chained.outwards (hc : h.Chained) {motive : ScopeId → Prop}
    (step : ∀ id, h.IsLive id → (∀ o, h.outer? id = some o → motive o) → motive id)
    (hid : h.IsLive id) : motive id := by
  suffices ∀ n id, h.IsLive id → h.rank id < n → motive id from
    this _ id hid (Nat.lt_succ_self _)
  intro n
  induction n with
  | zero => exact fun _ _ hlt => absurd hlt (Nat.not_lt_zero _)
  | succ n ih =>
    intro id hid hlt
    refine step id hid fun o ho => ih o (hc.isLive_outer ho) ?_
    have := hc.rank_lt ho
    omega

lemma Chained.pathUpTo_eq (hc : h.Chained) (hid : h.IsLive id) {n m : Nat} (hn : h.rank id < n)
    (hm : h.rank id < m) : h.pathUpTo n id = h.pathUpTo m id := by
  induction n generalizing m id with
  | zero => exact absurd hn (Nat.not_lt_zero _)
  | succ n ih =>
    cases m with
    | zero => exact absurd hm (Nat.not_lt_zero _)
    | succ m =>
      rw [pathUpTo, pathUpTo]
      cases ho : h.outer? id with
      | none => rfl
      | some o =>
        have := hc.rank_lt ho
        exact congrArg (id :: ·) (ih (hc.isLive_outer ho) (by omega) (by omega))

lemma Chained.rank_lt_size (hc : h.Chained) (hid : h.IsLive id) : h.rank id < h.slots.size :=
  Nat.lt_of_lt_of_le (List.idxOf_lt_length_of_mem ((hc.live_iff id).mp hid))
    hc.tidy.length_log_le

lemma Chained.path_of_outer (hc : h.Chained) (ho : h.outer? id = some o) :
    h.path id = id :: h.path o := by
  have hid := hc.rank_lt_size (isLive_of_outer? ho)
  have hlt := hc.rank_lt ho
  rw [path, pathUpTo, ho]
  exact congrArg (id :: ·) (hc.pathUpTo_eq (hc.isLive_outer ho) (by omega) (by omega))

lemma path_of_outermost (ho : h.outer? id = none) : h.path id = [id] := by
  rw [path, pathUpTo, ho]

lemma Chained.depth_of_outer (hc : h.Chained) (ho : h.outer? id = some o) :
    h.depth id = h.depth o + 1 := by
  rw [depth, hc.path_of_outer ho, List.length_cons, depth]

lemma depth_of_outermost (ho : h.outer? id = none) : h.depth id = 1 := by
  rw [depth, path_of_outermost ho, List.length_singleton]

/-- Where the live scopes keep their outer ones, they are as deep as before. -/
lemma Chained.depth_eq {h' : Heap} (hc : h.Chained) (hc' : h'.Chained)
    (houter : ∀ id, h.IsLive id → h'.outer? id = h.outer? id) (hid : h.IsLive id) :
    h'.depth id = h.depth id := by
  refine hc.outwards (motive := fun id => h'.depth id = h.depth id) (fun id hid ih => ?_) hid
  have hsame := houter id hid
  cases ho : h.outer? id with
  | none => rw [depth_of_outermost ho, depth_of_outermost (hsame.trans ho)]
  | some o => rw [hc.depth_of_outer ho, hc'.depth_of_outer (hsame.trans ho), ih o ho]

/-- A lookup never stops at a freed scope: it goes on to a scope that has no outer one. -/
theorem Chained.path_spec (hc : h.Chained) (hid : h.IsLive id) :
    (∀ i ∈ h.path id, h.IsLive i) ∧ ∃ i ∈ (h.path id).getLast?, h.outer? i = none := by
  refine hc.outwards (motive := fun id => (∀ i ∈ h.path id, h.IsLive i) ∧
    ∃ i ∈ (h.path id).getLast?, h.outer? i = none) ?_ hid
  intro id hid ih
  cases ho : h.outer? id with
  | none =>
    rw [path_of_outermost ho]
    exact ⟨fun i hi => List.mem_singleton.mp hi ▸ hid, id, rfl, ho⟩
  | some o =>
    obtain ⟨hlive, i, hi, hlast⟩ := ih o ho
    rw [hc.path_of_outer ho]
    refine ⟨List.forall_mem_cons.mpr ⟨hid, hlive⟩, i, ?_, hlast⟩
    rw [List.getLast?_cons, Option.mem_def.mp hi]
    rfl

/-- A name that a scope does not bind means what it means in the outer scope. -/
lemma Chained.lookup_of_outer (hc : h.Chained) (ho : h.outer? id = some o) (name : String) :
    h.lookup id name = ((h.scope? id).bind (·.find? name)).or (h.lookup o name) := by
  rw [lookup, hc.path_of_outer ho, List.findSome?_cons]
  cases (h.scope? id).bind (·.find? name) <;> rfl

lemma lookup_of_outermost (ho : h.outer? id = none) (name : String) :
    h.lookup id name = (h.scope? id).bind (·.find? name) := by
  rw [lookup, path_of_outermost ho, List.findSome?_singleton]

end Heap
end Monkey
