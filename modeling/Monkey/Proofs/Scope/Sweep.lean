import Monkey.Proofs.Scope.Path

/-! What a sweep frees: scopes of its window only, none that its roots name, and none that a scope
of the window that stays holds on to. So the heap stays chained; and where the older scopes hold on
to nothing in the window but through the roots, it stays sound. -/
namespace Monkey
namespace Heap

variable {h : Heap} {id r : ScopeId}

/-- The scopes of `pending` left over are cut off from `work` and from the others. -/
structure CutOff (h : Heap) (pending work left : List ScopeId) : Prop where
  sublist : left.Sublist pending
  work {id : ScopeId} (hid : id ∈ work) : id ∉ left
  others {id r : ScopeId} (hid : id ∈ pending) (hleft : id ∉ left) (hr : r ∈ h.references id) :
    r ∉ left

lemma cutOff_nil (h : Heap) (pending : List ScopeId) : h.CutOff pending [] pending where
  sublist := .refl pending
  work hid := absurd hid List.not_mem_nil
  others hid hleft _ := absurd hid hleft

/-- Following an id that is pending takes a round and makes its references work. -/
lemma rounds_cons_of_mem {pending work : List ScopeId} (hid : id ∈ pending) :
    h.rounds pending (id :: work) = h.rounds (pending.erase id) (h.references id ++ work) + 1 := by
  have hperm := ((List.perm_cons_erase hid).flatMap_right h.references).length_eq
  rw [List.flatMap_cons, List.length_append] at hperm
  rw [rounds, rounds, hperm, List.length_cons, List.length_append]
  omega

theorem cutOff_unreachedIn {n : Nat} {pending work : List ScopeId} (hnodup : pending.Nodup)
    (hn : h.rounds pending work ≤ n) : h.CutOff pending work (h.unreachedIn n pending work) := by
  induction n generalizing pending work with
  | zero =>
    cases work with
    | nil => exact h.cutOff_nil pending
    | cons id work =>
      rw [rounds, List.length_cons] at hn
      omega
  | succ n ih =>
    cases work with
    | nil => exact h.cutOff_nil pending
    | cons id work =>
      rw [unreachedIn]
      split
      · next hid =>
        rw [rounds_cons_of_mem hid] at hn
        have hrec := ih (hnodup.erase id) (Nat.le_of_succ_le_succ hn)
        have hgone : id ∉ h.unreachedIn n (pending.erase id) (h.references id ++ work) :=
          fun hmem => hnodup.not_mem_erase (hrec.sublist.subset hmem)
        refine ⟨hrec.sublist.trans List.erase_sublist, fun {i} hi => ?_,
          fun {i r} hi hleft hr => ?_⟩
        · rcases List.mem_cons.mp hi with rfl | hi
          · exact hgone
          · exact hrec.work (List.mem_append_right _ hi)
        · by_cases heq : i = id
          · exact hrec.work (List.mem_append_left _ (heq ▸ hr))
          · exact hrec.others ((List.mem_erase_of_ne heq).mpr hi) hleft hr
      · next hid =>
        have hround : h.rounds pending work ≤ n := by
          rw [rounds, List.length_cons] at hn
          rw [rounds]
          omega
        have hrec := ih hnodup hround
        refine ⟨hrec.sublist, fun {i} hi => ?_, hrec.others⟩
        rcases List.mem_cons.mp hi with rfl | hi
        · exact fun hmem => hid (hrec.sublist.subset hmem)
        · exact hrec.work hi

/-- Whatever the work has, and references within `pending` hand on, all that is taken out has. -/
lemma of_not_mem_unreachedIn {P : ScopeId → Prop} {n : Nat} {pending work : List ScopeId}
    (hwork : ∀ i ∈ work, i ∈ pending → P i)
    (hclosed : ∀ i, P i → ∀ r ∈ h.references i, r ∈ pending → P r) (hid : id ∈ pending)
    (hout : id ∉ h.unreachedIn n pending work) : P id := by
  induction n generalizing pending work with
  | zero => exact absurd hid hout
  | succ n ih =>
    cases work with
    | nil => exact absurd hid hout
    | cons i work =>
      obtain ⟨hi, hwork⟩ := List.forall_mem_cons.mp hwork
      rw [unreachedIn] at hout
      split at hout
      · next hmem =>
        by_cases heq : id = i
        · exact heq ▸ hi hmem
        · refine ih (fun j hj hpending => ?_) (fun j hj r hr hpending => ?_)
            ((List.mem_erase_of_ne heq).mpr hid) hout
          · have hpending := List.mem_of_mem_erase hpending
            exact (List.mem_append.mp hj).elim (hclosed i (hi hmem) j · hpending)
              (hwork j · hpending)
          · exact hclosed j hj r hr (List.mem_of_mem_erase hpending)
      · exact ih hwork hclosed hid hout

/-- What a sweep frees. -/
def garbage (h : Heap) (mark : Nat) (roots : List Value) : List ScopeId :=
  h.unreached (h.created.drop mark) (roots.filterMap Value.captured?)

variable {mark : Nat} {roots : List Value}

lemma Tidy.cutOff_garbage (ht : h.Tidy) (mark : Nat) (roots : List Value) :
    h.CutOff (h.created.drop mark) (roots.filterMap Value.captured?) (h.garbage mark roots) :=
  cutOff_unreachedIn (ht.nodup.of_cons.sublist (List.drop_sublist _ _)) (Nat.le_refl _)

lemma scope?_clear (slots : Array (Option Scope)) (id i : ScopeId) :
    (slots.setIfInBounds id.index none)[i.index]?.join =
      if i = id then none else slots[i.index]?.join := by
  by_cases hid : id.index < slots.size
  · exact scope?_set slots id i none hid
  · rw [Array.setIfInBounds_eq_of_size_le (Nat.le_of_not_lt hid)]
    by_cases hi : i = id
    · rw [if_pos hi, hi, Array.getElem?_eq_none (Nat.le_of_not_lt hid)]
      rfl
    · rw [if_neg hi]

lemma scope?_clearAll (slots : Array (Option Scope)) (ids : List ScopeId) (i : ScopeId) :
    (ids.foldl (fun slots id => slots.setIfInBounds id.index none) slots)[i.index]?.join =
      if i ∈ ids then none else slots[i.index]?.join := by
  induction ids generalizing slots with
  | nil => simp
  | cons id ids ih =>
    rw [List.foldl_cons, ih, scope?_clear]
    by_cases hi : i = id <;> simp [hi]

lemma size_clearAll (slots : Array (Option Scope)) (ids : List ScopeId) :
    (ids.foldl (fun slots id => slots.setIfInBounds id.index none) slots).size = slots.size := by
  induction ids generalizing slots with
  | nil => rfl
  | cons id ids ih => rw [List.foldl_cons, ih, Array.size_setIfInBounds]

lemma scope?_sweep (h : Heap) (mark : Nat) (roots : List Value) (i : ScopeId) :
    (h.sweep mark roots).scope? i = if i ∈ h.garbage mark roots then none else h.scope? i :=
  scope?_clearAll h.slots (h.garbage mark roots) i

lemma isLive_sweep (h : Heap) (mark : Nat) (roots : List Value) (i : ScopeId) :
    (h.sweep mark roots).IsLive i ↔ i ∉ h.garbage mark roots ∧ h.IsLive i := by
  rw [IsLive, scope?_sweep]
  by_cases hi : i ∈ h.garbage mark roots <;> simp [hi, IsLive]

/-- The scopes that are as old as the mark are not in the window. -/
lemma Tidy.not_mem_garbage (ht : h.Tidy) (hid : id ∈ h.log.take (mark + 1)) :
    id ∉ h.garbage mark roots := by
  intro hmem
  have hwindow : id ∈ h.log.drop (mark + 1) :=
    (ht.cutOff_garbage mark roots).sublist.subset hmem
  exact List.disjoint_take_drop ht.nodup (Nat.le_refl _) hid hwindow

lemma Tidy.log_sweep (ht : h.Tidy) (mark : Nat) (roots : List Value) :
    (h.sweep mark roots).log = h.log.filter (· ∉ h.garbage mark roots) := by
  have hold : (h.log.take (mark + 1)).filter (· ∉ h.garbage mark roots) =
      h.log.take (mark + 1) := by
    refine List.filter_eq_self.mpr fun id hid => ?_
    rw [decide_eq_true_eq]
    exact ht.not_mem_garbage hid
  calc (h.sweep mark roots).log
      = h.log.take (mark + 1) ++ (h.log.drop (mark + 1)).filter (· ∉ h.garbage mark roots) := rfl
    _ = (h.log.take (mark + 1) ++ h.log.drop (mark + 1)).filter (· ∉ h.garbage mark roots) := by
      rw [List.filter_append, hold]
    _ = h.log.filter (· ∉ h.garbage mark roots) := by rw [List.take_append_drop]

/-- The log without the garbage, the global scope left out. -/
lemma Tidy.created_sweep (ht : h.Tidy) (mark : Nat) (roots : List Value) :
    (h.sweep mark roots).created = h.created.filter (· ∉ h.garbage mark roots) := by
  have hlog := ht.log_sweep mark roots
  have hglobal : .global ∉ h.garbage mark roots := ht.not_mem_garbage (by simp [log])
  rw [log, log, List.filter_cons_of_pos (by simpa using hglobal)] at hlog
  exact List.tail_eq_of_cons_eq hlog

lemma outer?_sweep_of_not_mem (hid : id ∉ h.garbage mark roots) :
    (h.sweep mark roots).outer? id = h.outer? id := by
  rw [outer?, scope?_sweep, if_neg hid, outer?]

lemma outer?_sweep {o : ScopeId} (ho : (h.sweep mark roots).outer? id = some o) :
    id ∉ h.garbage mark roots ∧ h.outer? id = some o := by
  obtain ⟨hid, -⟩ := (isLive_sweep _ _ _ _).mp (isLive_of_outer? ho)
  exact ⟨hid, outer?_sweep_of_not_mem hid ▸ ho⟩

lemma references_sweep (hr : r ∈ (h.sweep mark roots).references id) :
    id ∉ h.garbage mark roots ∧ r ∈ h.references id := by
  obtain ⟨hid, -⟩ := (isLive_sweep _ _ _ _).mp (isLive_of_references hr)
  have heq : (h.sweep mark roots).references id = h.references id :=
    references_congr (by rw [scope?_sweep, if_neg hid])
  exact ⟨hid, heq ▸ hr⟩

/-- What a sweep frees was live. -/
lemma Tidy.isLive_garbage (ht : h.Tidy) (hid : id ∈ h.garbage mark roots) : h.IsLive id :=
  (ht.live_iff id).mpr (List.mem_cons_of_mem _
    (List.mem_of_mem_drop ((ht.cutOff_garbage mark roots).sublist.subset hid)))

/-- The freed slots are the ones freed before and those of the garbage. -/
lemma Tidy.sweep (ht : h.Tidy) (mark : Nat) (roots : List Value) : (h.sweep mark roots).Tidy where
  nodup := by
    rw [ht.log_sweep]
    exact ht.nodup.filter _
  live_iff id := by
    rw [isLive_sweep, ht.live_iff, ht.log_sweep, List.mem_filter, decide_eq_true_eq, and_comm]
  free_nodup := by
    have hnodup : (h.garbage mark roots).Nodup := ht.nodup.of_cons.sublist
      ((ht.cutOff_garbage mark roots).sublist.trans (List.drop_sublist _ _))
    refine List.nodup_append.mpr ⟨List.nodup_reverse.mpr hnodup, ht.free_nodup, ?_⟩
    rintro a ha b hb rfl
    have hnone := (ht.free_slot hb).2
    have hsome := ht.isLive_garbage (List.mem_reverse.mp ha)
    rw [IsLive, hnone] at hsome
    cases hsome
  free_slot {id} hid := by
    have hsize : (h.sweep mark roots).slots.size = h.slots.size := size_clearAll _ _
    rw [hsize, scope?_sweep]
    rcases List.mem_append.mp hid with hid | hid
    · rw [List.mem_reverse] at hid
      exact ⟨index_lt_of_isLive (ht.isLive_garbage hid), if_pos hid⟩
    · obtain ⟨hindex, hnone⟩ := ht.free_slot hid
      exact ⟨hindex, by rw [hnone, ite_self]⟩

/-- What is older than a scope on the old side of the mark is there too. -/
lemma Chained.outer_mem_take {o : ScopeId} (hc : h.Chained) (ho : h.outer? id = some o)
    (hid : id ∈ h.log.take (mark + 1)) : o ∈ h.log.take (mark + 1) := by
  have hlog := (hc.outer_older ho).subset
  rw [List.mem_take_iff_idxOf_lt (hlog (by simp))] at hid
  rw [List.mem_take_iff_idxOf_lt (hlog (by simp))]
  exact Nat.lt_trans (hc.rank_lt ho) hid

/-- The outer scope of one that stays is older than the mark, or it has been followed to. -/
lemma Chained.outer_not_mem_garbage {o : ScopeId} (hc : h.Chained)
    (hid : id ∉ h.garbage mark roots) (ho : h.outer? id = some o) :
    o ∉ h.garbage mark roots := by
  have hlog : id ∈ h.log.take (mark + 1) ++ h.log.drop (mark + 1) := by
    rw [List.take_append_drop]
    exact (hc.live_iff id).mp (isLive_of_outer? ho)
  rcases List.mem_append.mp hlog with hmem | hmem
  · exact hc.tidy.not_mem_garbage (hc.outer_mem_take ho hmem)
  · exact (hc.tidy.cutOff_garbage mark roots).others hmem hid (mem_references_of_outer? ho)

/-- Whatever the mark and the roots, no live scope loses its outer one. -/
theorem Chained.sweep (hc : h.Chained) (mark : Nat) (roots : List Value) :
    (h.sweep mark roots).Chained where
  tidy := hc.tidy.sweep mark roots
  outer_older {id o} ho := by
    obtain ⟨hid, ho⟩ := outer?_sweep ho
    have hout := hc.outer_not_mem_garbage hid ho
    have hsub := (hc.outer_older ho).filter (· ∉ h.garbage mark roots)
    rw [List.filter_eq_self.mpr (by simpa using ⟨hout, hid⟩)] at hsub
    rw [hc.tidy.log_sweep]
    exact hsub

/-- The scopes that are as old as the mark hold on to nothing that the sweep frees. -/
def KeepsOld (h : Heap) (mark : Nat) (roots : List Value) : Prop :=
  ∀ id ∈ h.log.take (mark + 1), ∀ r ∈ h.references id, r ∉ h.garbage mark roots

/-- What a scope that stays holds on to stays, whichever side of the mark the scope is on. -/
lemma Sound.references_not_mem_garbage (hs : h.Sound) (hold : h.KeepsOld mark roots)
    (hid : id ∉ h.garbage mark roots) (hr : r ∈ h.references id) : r ∉ h.garbage mark roots := by
  have hlog : id ∈ h.log.take (mark + 1) ++ h.log.drop (mark + 1) := by
    rw [List.take_append_drop]
    exact (hs.live_iff id).mp (isLive_of_references hr)
  rcases List.mem_append.mp hlog with hmem | hmem
  · exact hold id hmem r hr
  · exact (hs.tidy.cutOff_garbage mark roots).others hmem hid hr

theorem Sound.sweep (hs : h.Sound) (hold : h.KeepsOld mark roots) :
    (h.sweep mark roots).Sound where
  chained := hs.chained.sweep mark roots
  closed hr := by
    obtain ⟨hid, hr⟩ := references_sweep hr
    rw [isLive_sweep]
    exact ⟨hs.references_not_mem_garbage hold hid hr, hs.closed hr⟩

end Heap
end Monkey
