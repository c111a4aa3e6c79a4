import Mathlib.Data.List.Nodup
import Monkey.Scope.Reclaim

/-! When a heap is tidy: its log lists the live scopes, and its free slots hold none. It is chained
if also outer scopes are live and older, and sound if besides every scope holds on to live ones
only. New scopes and new bindings keep it so. -/
namespace Monkey
namespace Heap

variable {h : Heap} {id o r : ScopeId}

def IsLive (h : Heap) (id : ScopeId) : Prop := (h.scope? id).isSome = true

lemma isLive_iff : h.IsLive id ↔ ∃ s, h.scope? id = some s := Option.isSome_iff_exists

lemma references_of_scope? {s : Scope} (hs : h.scope? id = some s) :
    h.references id = s.references := by
  rw [references, hs]

lemma references_congr {h' : Heap} (hs : h'.scope? id = h.scope? id) :
    h'.references id = h.references id := by
  rw [references, references, hs]

lemma isLive_of_references (hr : r ∈ h.references id) : h.IsLive id := by
  unfold references at hr
  split at hr
  · next s hs => exact isLive_iff.mpr ⟨s, hs⟩
  · cases hr

lemma isLive_of_outer? (ho : h.outer? id = some o) : h.IsLive id := by
  obtain ⟨s, hs, -⟩ := Option.bind_eq_some_iff.mp ho
  exact isLive_iff.mpr ⟨s, hs⟩

lemma mem_references_of_outer? (ho : h.outer? id = some o) : o ∈ h.references id := by
  obtain ⟨s, hs, ho⟩ := Option.bind_eq_some_iff.mp ho
  simp [references, hs, Scope.references, ho]

lemma index_lt_of_isLive (hid : h.IsLive id) : id.index < h.slots.size := by
  obtain ⟨s, hs⟩ := isLive_iff.mp hid
  by_contra hlt
  rw [scope?, Array.getElem?_eq_none (Nat.le_of_not_lt hlt)] at hs
  cases hs

/-- All live scopes, the oldest first. -/
def log (h : Heap) : List ScopeId := .global :: h.created

/-- The log and the free slots agree with what the slots hold. What scopes hold on to does not
matter. -/
structure Tidy (h : Heap) : Prop where
  nodup : h.log.Nodup
  live_iff (id : ScopeId) : h.IsLive id ↔ id ∈ h.log
  free_nodup : h.free.Nodup
  free_slot {id : ScopeId} (hid : id ∈ h.free) : id.index < h.slots.size ∧ h.scope? id = none

/-- Outer scopes are in the log, and further to the front. What functions hold on to does not
matter. -/
structure Chained (h : Heap) : Prop extends tidy : Tidy h where
  outer_older {id o : ScopeId} (ho : h.outer? id = some o) : [o, id].Sublist h.log

structure Sound (h : Heap) : Prop extends chained : Chained h where
  closed {id r : ScopeId} (hr : r ∈ h.references id) : h.IsLive r

lemma scope?_empty (id : ScopeId) :
    empty.scope? id = if id = .global then some ⟨[], none⟩ else none := by
  obtain ⟨_ | n⟩ := id
  · rfl
  · rw [if_neg (by simp [ScopeId.global])]
    rfl

lemma references_empty (id : ScopeId) : empty.references id = [] := by
  rw [references, scope?_empty]
  by_cases hid : id = .global
  · rw [if_pos hid]
    rfl
  · rw [if_neg hid]

lemma sound_empty : empty.Sound where
  nodup := by decide
  live_iff id := by
    rw [IsLive, scope?_empty, log, List.mem_cons]
    by_cases hid : id = .global <;> simp [hid, empty]
  free_nodup := .nil
  free_slot h := by cases h
  closed hr := by
    rw [references_empty] at hr
    cases hr
  outer_older {id o} ho := by
    have hr := mem_references_of_outer? ho
    rw [references_empty] at hr
    cases hr

/-! ### New scopes -/

lemma scope?_set (slots : Array (Option Scope)) (id i : ScopeId) (s : Option Scope)
    (hid : id.index < slots.size) :
    (slots.setIfInBounds id.index s)[i.index]?.join =
      if i = id then s else slots[i.index]?.join := by
  by_cases heq : i = id
  · rw [if_pos heq, heq, Array.getElem?_setIfInBounds_self_of_lt hid]
    rfl
  · rw [if_neg heq, Array.getElem?_setIfInBounds_ne]
    intro hindex
    exact heq (congrArg ScopeId.mk hindex.symm)

/-- What a new scope changes: it was not live, it is the youngest, and nothing else is touched. -/
structure Adds (h h' : Heap) (id outer : ScopeId) : Prop where
  fresh : h.scope? id = none
  scope?_eq (i : ScopeId) : h'.scope? i = if i = id then some ⟨[], some outer⟩ else h.scope? i
  created : h'.created = h.created ++ [id]
  size : h.slots.size ≤ h'.slots.size
  free : h'.free = h.free.erase id

lemma Tidy.adds_alloc (ht : h.Tidy) (outer : ScopeId) :
    h.Adds (h.alloc outer).2 (h.alloc outer).1 outer := by
  unfold alloc
  cases hfree : h.free with
  | nil =>
    refine ⟨?_, ?_, rfl, ?_, by rw [hfree]; rfl⟩
    · rw [scope?, Array.getElem?_eq_none (Nat.le_refl _)]
      rfl
    · intro i
      change (h.slots.push _)[i.index]?.join = _
      rw [Array.getElem?_push]
      by_cases hi : i.index = h.slots.size
      · have heq : i = ⟨h.slots.size⟩ := congrArg ScopeId.mk hi
        rw [if_pos hi, if_pos heq]
        rfl
      · have hne : i ≠ ⟨h.slots.size⟩ := fun heq => hi (congrArg ScopeId.index heq)
        rw [if_neg hi, if_neg hne]
        rfl
    · change _ ≤ (h.slots.push _).size
      rw [Array.size_push]
      exact Nat.le_succ _
  | cons id free =>
    have hmem : id ∈ h.free := by
      rw [hfree]
      exact List.mem_cons_self
    obtain ⟨hindex, hnone⟩ := ht.free_slot hmem
    refine ⟨hnone, fun i => scope?_set _ id i _ hindex, rfl, ?_, ?_⟩
    · exact Nat.le_of_eq Array.size_setIfInBounds.symm
    · rw [hfree, List.erase_cons_head]

namespace Adds

variable {h' : Heap}

lemma outer?_eq (ha : h.Adds h' id o) (i : ScopeId) :
    h'.outer? i = if i = id then some o else h.outer? i := by
  rw [outer?, ha.scope?_eq]
  split <;> rfl

lemma references_eq (ha : h.Adds h' id o) (i : ScopeId) :
    h'.references i = if i = id then [o] else h.references i := by
  have hscope := ha.scope?_eq i
  by_cases hi : i = id
  · rw [if_pos hi] at hscope ⊢
    exact references_of_scope? hscope
  · rw [if_neg hi] at hscope ⊢
    exact references_congr hscope

lemma isLive_iff (ha : h.Adds h' id o) (i : ScopeId) : h'.IsLive i ↔ i = id ∨ h.IsLive i := by
  rw [IsLive, ha.scope?_eq]
  by_cases hi : i = id
  · simp [hi]
  · simp [hi, IsLive]

lemma not_isLive (ha : h.Adds h' id o) : ¬h.IsLive id := by
  rw [IsLive, ha.fresh]
  nofun

lemma ne_of_isLive (ha : h.Adds h' id o) {i : ScopeId} (hi : h.IsLive i) : i ≠ id :=
  fun heq => ha.not_isLive (heq ▸ hi)

lemma log_eq (ha : h.Adds h' id o) : h'.log = h.log ++ [id] := by
  rw [log, ha.created]
  rfl

lemma tidy (ha : h.Adds h' id o) (ht : h.Tidy) : h'.Tidy where
  nodup := by
    have hnew : id ∉ h.log := mt (ht.live_iff id).mpr ha.not_isLive
    rw [ha.log_eq]
    exact List.nodup_append.mpr ⟨ht.nodup, List.nodup_singleton id, fun a hmem b hb heq =>
      hnew (by rwa [← List.mem_singleton.mp hb, ← heq])⟩
  live_iff i := by
    rw [ha.isLive_iff, ht.live_iff, ha.log_eq, List.mem_append, List.mem_singleton, or_comm]
  free_nodup := by
    rw [ha.free]
    exact ht.free_nodup.erase id
  free_slot {i} hi := by
    rw [ha.free, ht.free_nodup.mem_erase_iff] at hi
    obtain ⟨hindex, hnone⟩ := ht.free_slot hi.2
    rw [ha.scope?_eq, if_neg hi.1]
    exact ⟨Nat.lt_of_lt_of_le hindex ha.size, hnone⟩

lemma chained (ha : h.Adds h' id o) (hc : h.Chained) (ho : h.IsLive o) : h'.Chained where
  tidy := ha.tidy hc.tidy
  outer_older {i p} hp := by
    rw [ha.outer?_eq] at hp
    rw [ha.log_eq]
    split at hp
    · next hi =>
      obtain rfl := Option.some.inj hp
      have hmem := (hc.live_iff o).mp ho
      rw [hi]
      exact (List.singleton_sublist.mpr hmem).append (List.Sublist.refl [id])
    · exact (hc.outer_older hp).trans (List.sublist_append_left _ _)

lemma sound (ha : h.Adds h' id o) (hs : h.Sound) (ho : h.IsLive o) : h'.Sound where
  chained := ha.chained hs.chained ho
  closed {i r} hr := by
    rw [ha.isLive_iff]
    right
    rw [ha.references_eq] at hr
    split at hr
    · rwa [List.mem_singleton.mp hr]
    · exact hs.closed hr

end Adds

/-! ### New bindings -/

lemma scope?_bind (h : Heap) (id i : ScopeId) (name : String) (v : Value) :
    (h.bind id name v).scope? i =
      if i = id then (h.scope? id).map (·.bind name v) else h.scope? i := by
  unfold bind
  cases hid : h.scope? id with
  | none =>
    change h.scope? i = _
    by_cases hi : i = id
    · rw [if_pos hi, hi, hid]
      rfl
    · rw [if_neg hi]
  | some s =>
    exact scope?_set _ id i _ (index_lt_of_isLive (isLive_iff.mpr ⟨s, hid⟩))

lemma created_bind (h : Heap) (id : ScopeId) (name : String) (v : Value) :
    (h.bind id name v).created = h.created := by
  unfold bind
  split <;> rfl

lemma free_bind (h : Heap) (id : ScopeId) (name : String) (v : Value) :
    (h.bind id name v).free = h.free := by
  unfold bind
  split <;> rfl

lemma size_bind (h : Heap) (id : ScopeId) (name : String) (v : Value) :
    (h.bind id name v).slots.size = h.slots.size := by
  unfold bind
  split
  · exact Array.size_setIfInBounds
  · rfl

lemma isLive_bind (h : Heap) (id i : ScopeId) (name : String) (v : Value) :
    (h.bind id name v).IsLive i ↔ h.IsLive i := by
  rw [IsLive, scope?_bind]
  split
  · next hi => rw [hi, Option.isSome_map]; rfl
  · rfl

lemma outer?_bind (h : Heap) (id i : ScopeId) (name : String) (v : Value) :
    (h.bind id name v).outer? i = h.outer? i := by
  rw [outer?, scope?_bind]
  split
  · next hi =>
    rw [hi, outer?]
    cases h.scope? id <;> rfl
  · rfl

lemma mem_references_bind {name : String} {v : Value} {i : ScopeId}
    (hr : r ∈ (h.bind id name v).references i) : r ∈ h.references i ∨ r ∈ v.captured? := by
  obtain ⟨s, hs⟩ := isLive_iff.mp (isLive_of_references hr)
  rw [references_of_scope? hs] at hr
  rw [scope?_bind] at hs
  split at hs
  · next hi =>
    obtain ⟨old, hold, rfl⟩ := Option.map_eq_some_iff.mp hs
    rw [hi, references_of_scope? hold]
    rcases List.mem_append.mp hr with hr | hr
    · exact .inl (List.mem_append_left _ hr)
    · obtain ⟨b, hb, hcap⟩ := List.mem_filterMap.mp hr
      rcases List.mem_cons.mp hb with rfl | hb
      · exact .inr hcap
      · left
        refine List.mem_append_right _ (List.mem_filterMap.mpr ⟨b, ?_, hcap⟩)
        exact List.mem_of_mem_filter hb
  · left
    rwa [references_of_scope? hs]

lemma log_bind (h : Heap) (id : ScopeId) (name : String) (v : Value) :
    (h.bind id name v).log = h.log := by
  rw [log, created_bind, log]

lemma Tidy.bind (ht : h.Tidy) (id : ScopeId) (name : String) (v : Value) :
    (h.bind id name v).Tidy where
  nodup := by rw [log_bind]; exact ht.nodup
  live_iff i := by rw [isLive_bind, log_bind]; exact ht.live_iff i
  free_nodup := by rw [free_bind]; exact ht.free_nodup
  free_slot {i} hi := by
    rw [free_bind] at hi
    obtain ⟨hindex, hnone⟩ := ht.free_slot hi
    rw [size_bind]
    refine ⟨hindex, Option.not_isSome_iff_eq_none.mp ?_⟩
    change ¬(h.bind id name v).IsLive i
    rw [isLive_bind, IsLive, hnone]
    nofun

lemma Chained.bind (hc : h.Chained) (id : ScopeId) (name : String) (v : Value) :
    (h.bind id name v).Chained where
  tidy := hc.tidy.bind id name v
  outer_older {i o} ho := by
    rw [outer?_bind] at ho
    rw [log_bind]
    exact hc.outer_older ho

lemma Sound.bind (hs : h.Sound) (id : ScopeId) (name : String) {v : Value}
    (hv : ∀ r ∈ v.captured?, h.IsLive r) : (h.bind id name v).Sound where
  chained := hs.chained.bind id name v
  closed {i r} hr := by
    rw [isLive_bind]
    exact (mem_references_bind hr).elim hs.closed (hv r)

/-- What bindings in one scope change: nothing but the bindings of that scope. -/
structure Rebinds (h h' : Heap) (id : ScopeId) : Prop where
  scope?_eq {i : ScopeId} (hi : i ≠ id) : h'.scope? i = h.scope? i
  outer?_eq (i : ScopeId) : h'.outer? i = h.outer? i
  isLive_iff (i : ScopeId) : h'.IsLive i ↔ h.IsLive i
  created : h'.created = h.created

lemma Rebinds.refl (h : Heap) (id : ScopeId) : h.Rebinds h id :=
  ⟨fun _ => rfl, fun _ => rfl, fun _ => .rfl, rfl⟩

lemma Rebinds.trans {h' h'' : Heap} (h₁ : h.Rebinds h' id) (h₂ : h'.Rebinds h'' id) :
    h.Rebinds h'' id where
  scope?_eq hi := (h₂.scope?_eq hi).trans (h₁.scope?_eq hi)
  outer?_eq i := (h₂.outer?_eq i).trans (h₁.outer?_eq i)
  isLive_iff i := (h₂.isLive_iff i).trans (h₁.isLive_iff i)
  created := h₂.created.trans h₁.created

lemma rebinds_bind (h : Heap) (id : ScopeId) (name : String) (v : Value) :
    h.Rebinds (h.bind id name v) id where
  scope?_eq {i} hi := by rw [scope?_bind, if_neg hi]
  outer?_eq i := outer?_bind h id i name v
  isLive_iff i := isLive_bind h id i name v
  created := created_bind h id name v

lemma rebinds_bindAll (h : Heap) (id : ScopeId) (bindings : List (String × Value)) :
    h.Rebinds (h.bindAll id bindings) id := by
  induction bindings generalizing h with
  | nil => exact .refl h id
  | cons b rest ih => exact (h.rebinds_bind id b.1 b.2).trans (ih _)

lemma Sound.bindAll (hs : h.Sound) (id : ScopeId) {bindings : List (String × Value)}
    (hv : ∀ b ∈ bindings, ∀ r ∈ b.2.captured?, h.IsLive r) : (h.bindAll id bindings).Sound := by
  induction bindings generalizing h with
  | nil => exact hs
  | cons b rest ih =>
    refine ih (hs.bind id b.1 (hv b List.mem_cons_self)) fun c hc r hr => ?_
    rw [isLive_bind]
    exact hv c (List.mem_cons_of_mem _ hc) r hr

end Heap
end Monkey
