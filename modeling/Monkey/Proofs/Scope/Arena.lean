import Mathlib.Data.List.Induction
import Mathlib.Order.Bounds.Basic
import Monkey.Proofs.Scope.Reach

/-! How a heap uses its slots, whatever is done to it. Slots are live or free and never both, a new
scope takes a slot that no scope is in, and there are never more slots than there were scopes live
at once. Nothing is asked of the handles, values and marks that the operations are given. -/
namespace Monkey
namespace Heap

/-- What can be done to a heap. Handles may be those of freed scopes, and any number may stand for a
mark; to take a mark or to look up a name changes nothing. -/
inductive Op where
  | alloc (outer : ScopeId)
  | bind (id : ScopeId) (name : String) (value : Value)
  | reclaimSince (mark : Nat) (result : Value)
  | reclaim (result : Value)

def perform (h : Heap) : Op → Heap
  | .alloc outer => (h.alloc outer).2
  | .bind id name value => h.bind id name value
  | .reclaimSince mark result => h.reclaimSince mark result
  | .reclaim result => h.reclaim result

/-- The heap after a run of operations on a new one. -/
def after (ops : List Op) : Heap := ops.foldl perform empty

@[simp] lemma after_concat (ops : List Op) (op : Op) :
    after (ops ++ [op]) = (after ops).perform op := by simp [after]

variable {h : Heap} {id : ScopeId}

lemma Tidy.perform (ht : h.Tidy) (op : Op) : (h.perform op).Tidy := by
  cases op with
  | alloc outer => exact (ht.adds_alloc outer).tidy ht
  | bind id name value => exact ht.bind id name value
  | reclaimSince mark result => exact ht.sweep mark [result]
  | reclaim result => exact ht.sweep 0 _

lemma Filled.perform (hf : h.Filled) (ht : h.Tidy) (op : Op) : (h.perform op).Filled := by
  cases op with
  | alloc outer => exact hf.alloc outer
  | bind id name value => exact hf.bind id name value
  | reclaimSince mark result => exact ht.filled_sweep hf mark [result]
  | reclaim result => exact ht.filled_sweep hf 0 _

lemma tidy_after (ops : List Op) : (after ops).Tidy ∧ (after ops).Filled := by
  induction ops using List.reverseRecOn with
  | nil => exact ⟨sound_empty.tidy, filled_empty⟩
  | append_singleton ops op ih =>
    rw [after_concat]
    exact ⟨ih.1.perform op, ih.2.perform ih.1 op⟩

/-! ### The slots -/

/-- The live scopes and the free slots are all the slots, each once. -/
lemma Tidy.perm_range (ht : h.Tidy) (hf : h.Filled) :
    ((h.log ++ h.free).map ScopeId.index).Perm (List.range h.slots.size) := by
  have hnodup : (h.log ++ h.free).Nodup := by
    refine List.nodup_append.mpr ⟨ht.nodup, ht.free_nodup, ?_⟩
    rintro a ha b hb rfl
    have hlive := (ht.live_iff a).mpr ha
    rw [IsLive, (ht.free_slot hb).2] at hlive
    cases hlive
  have hsub : (h.log ++ h.free).map ScopeId.index ⊆ List.range h.slots.size := by
    intro i hi
    obtain ⟨id, hid, rfl⟩ := List.mem_map.mp hi
    rw [List.mem_range]
    rcases List.mem_append.mp hid with hid | hid
    · exact index_lt_of_isLive ((ht.live_iff id).mpr hid)
    · exact (ht.free_slot hid).1
  have hsubperm := List.subperm_of_subset (hnodup.map fun a b => congrArg ScopeId.mk) hsub
  refine hsubperm.perm_of_length_le ?_
  rw [List.length_range, List.length_map, List.length_append]
  exact Nat.le_of_eq hf

lemma Tidy.mem_log_or_free_iff (ht : h.Tidy) (hf : h.Filled) (id : ScopeId) :
    id ∈ h.log ∨ id ∈ h.free ↔ id.index < h.slots.size := by
  rw [← List.mem_append, ← List.mem_range, ← (ht.perm_range hf).mem_iff]
  exact (List.mem_map_of_injective fun a b => congrArg ScopeId.mk).symm

/-- What the slots, the log and the free slots have to do with each other. -/
structure Arranged (h : Heap) : Prop where
  global : h.IsLive .global
  created_nodup : h.created.Nodup
  free_nodup : h.free.Nodup
  disjoint : h.created.Disjoint h.free
  /-- Together they are all slots but the first. -/
  mem_iff (id : ScopeId) :
    id ∈ h.created ∨ id ∈ h.free ↔ 1 ≤ id.index ∧ id.index < h.slots.size
  live_iff {id : ScopeId} (hid : id ≠ .global) : h.IsLive id ↔ id ∈ h.created
  count : h.count = 1 + h.created.length
  /-- A slot that is used again is one of the heap. -/
  alloc_slot (outer : ScopeId) (hfree : h.free ≠ []) : (h.alloc outer).1.index < h.slots.size
  alloc_fresh (outer : ScopeId) : ¬h.IsLive (h.alloc outer).1
  alloc_others (outer : ScopeId) {id : ScopeId} (hid : h.IsLive id) :
    (h.alloc outer).2.scope? id = h.scope? id
  /-- Only slots of the heap are freed. -/
  sweep_slot (mark : Nat) (roots : List Value) :
    ∀ id ∈ h.garbage mark roots, id.index < h.slots.size

lemma Tidy.arranged (ht : h.Tidy) (hf : h.Filled) : h.Arranged := by
  obtain ⟨hglobal, hnodup⟩ := List.nodup_cons.mp ht.nodup
  have hlive : h.IsLive .global := (ht.live_iff _).mpr List.mem_cons_self
  have hfree : .global ∉ h.free := by
    intro hmem
    rw [IsLive, (ht.free_slot hmem).2] at hlive
    cases hlive
  refine
    { global := hlive
      created_nodup := hnodup
      free_nodup := ht.free_nodup
      disjoint := ?_
      mem_iff := fun id => ?_
      live_iff := fun {id} hid => ?_
      count := hf.count_eq
      alloc_slot := fun outer hne => ?_
      alloc_fresh := fun outer => (ht.adds_alloc outer).not_isLive
      alloc_others := fun outer {id} hid => ?_
      sweep_slot := fun mark roots id hid => index_lt_of_isLive (ht.isLive_garbage hid) }
  · intro id hcreated hmem
    have hid := (ht.live_iff id).mpr (List.mem_cons_of_mem _ hcreated)
    rw [IsLive, (ht.free_slot hmem).2] at hid
    cases hid
  · rw [← ht.mem_log_or_free_iff hf, log, List.mem_cons]
    have hzero : id = .global ↔ id.index = 0 := ⟨congrArg ScopeId.index, congrArg ScopeId.mk⟩
    by_cases hid : id = .global
    · rw [hzero.mp hid]
      simp [hid, hglobal, hfree]
    · have hpos : 1 ≤ id.index := Nat.one_le_iff_ne_zero.mpr (mt hzero.mpr hid)
      simp [hid, hpos]
  · rw [ht.live_iff, log, List.mem_cons, or_iff_right hid]
  · obtain ⟨i, free, hi⟩ := List.exists_cons_of_ne_nil hne
    have hslot : (h.alloc outer).1 = i := by simp [Heap.alloc, hi]
    rw [hslot]
    exact (ht.free_slot (hi ▸ List.mem_cons_self)).1
  · have hadds := ht.adds_alloc outer
    rw [hadds.scope?_eq, if_neg (hadds.ne_of_isLive hid)]

/-! ### How many slots there are -/

/-- There is a new slot only where all slots are live. -/
lemma size_perform (h : Heap) (op : Op) :
    (h.perform op).slots.size = h.slots.size ∨
      (h.perform op).slots.size = h.slots.size + 1 ∧
        (h.perform op).count = (h.perform op).slots.size := by
  cases op with
  | alloc outer =>
    cases hfree : h.free with
    | nil => simp [perform, alloc, hfree, count]
    | cons id free => simp [perform, alloc, hfree]
  | bind id name value => exact .inl (size_bind h id name value)
  | reclaimSince mark result => exact .inl (size_clearAll _ _)
  | reclaim result => exact .inl (size_clearAll _ _)

/-- The number of slots is the greatest number of scopes that were live at once. -/
lemma isGreatest_size_after (ops : List Op) :
    IsGreatest {n | ∃ before, before <+: ops ∧ (after before).count = n}
      (after ops).slots.size := by
  induction ops using List.reverseRecOn with
  | nil =>
    refine ⟨⟨[], List.prefix_rfl, rfl⟩, ?_⟩
    rintro n ⟨before, hbefore, rfl⟩
    rw [List.prefix_nil.mp hbefore]
    exact Nat.sub_le _ _
  | append_singleton ops op ih =>
    obtain ⟨⟨peak, hpeak, hcount⟩, hbound⟩ := ih
    have hsize := (after ops).size_perform op
    rw [after_concat]
    constructor
    · rcases hsize with hsame | ⟨-, hfull⟩
      · exact ⟨peak, hpeak.trans (List.prefix_append _ _), hcount.trans hsame.symm⟩
      · exact ⟨ops ++ [op], List.prefix_rfl, by rw [after_concat, hfull]⟩
    · rintro n ⟨before, hbefore, rfl⟩
      rcases List.prefix_concat_iff.mp hbefore with rfl | hbefore
      · rw [after_concat]
        exact Nat.sub_le _ _
      · have hle := hbound ⟨before, hbefore, rfl⟩
        omega

/-- After any run of operations the slots, the log and the free slots agree, and there are as many
slots as scopes have been live at once. -/
theorem arranged_after (ops : List Op) :
    (after ops).Arranged ∧ IsGreatest {n | ∃ before, before <+: ops ∧ (after before).count = n}
      (after ops).slots.size := by
  obtain ⟨ht, hf⟩ := tidy_after ops
  exact ⟨ht.arranged hf, isGreatest_size_after ops⟩

end Heap
end Monkey
