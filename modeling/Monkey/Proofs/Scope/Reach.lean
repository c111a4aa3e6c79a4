import Monkey.Proofs.Scope.Path
import Monkey.Proofs.Scope.Sweep

/-! Which scopes values reach, and that a sweep keeps of its window exactly these. The sweep itself
follows references through the window only; the way through older scopes leads nowhere else,
because they hold on to nothing that it frees. -/
namespace Monkey
namespace Heap

/-- The ways from values to scopes: from a function to the scope that it was made in, from a scope
to its outer one, and from a scope to the values bound in it. -/
inductive Reaches (h : Heap) (roots : List Value) : ScopeId → Prop
  | captured {v : Value} {id : ScopeId} (hv : v ∈ roots) (hid : v.captured? = some id) :
      Reaches h roots id
  | outer {id o : ScopeId} (hid : Reaches h roots id) (ho : h.outer? id = some o) :
      Reaches h roots o
  | bound {id r : ScopeId} {s : Scope} {name : String} {v : Value} (hid : Reaches h roots id)
      (hs : h.scope? id = some s) (hv : (name, v) ∈ s.bindings) (hr : v.captured? = some r) :
      Reaches h roots r

variable {h : Heap} {id r : ScopeId} {mark : Nat} {roots : List Value}

lemma Reaches.reference (hid : h.Reaches roots id) (hr : r ∈ h.references id) :
    h.Reaches roots r := by
  obtain ⟨s, hs⟩ := isLive_iff.mp (isLive_of_references hr)
  rw [references_of_scope? hs, Scope.references] at hr
  rcases List.mem_append.mp hr with hr | hr
  · refine hid.outer ?_
    rw [outer?, hs]
    exact Option.mem_toList.mp hr
  · obtain ⟨b, hb, hcap⟩ := List.mem_filterMap.mp hr
    exact hid.bound hs hb hcap

/-- What the roots hold on to, with all that a scope in it holds on to, is all that they reach. -/
lemma Reaches.mem_of_closed {P : ScopeId → Prop}
    (hroots : ∀ id ∈ roots.filterMap Value.captured?, P id)
    (hclosed : ∀ id, P id → ∀ r ∈ h.references id, P r) (hid : h.Reaches roots id) : P id := by
  induction hid with
  | captured hv hid => exact hroots _ (List.mem_filterMap.mpr ⟨_, hv, hid⟩)
  | outer _ ho ih => exact hclosed _ ih _ (mem_references_of_outer? ho)
  | bound _ hs hv hr ih =>
    refine hclosed _ ih _ ?_
    rw [references_of_scope? hs]
    exact List.mem_append_right _ (List.mem_filterMap.mpr ⟨_, hv, hr⟩)

/-! ### The sweep -/

lemma Sound.not_mem_garbage_of_reaches (hs : h.Sound) (hold : h.KeepsOld mark roots)
    (hid : h.Reaches roots id) : id ∉ h.garbage mark roots :=
  hid.mem_of_closed (fun _ hi => (hs.tidy.cutOff_garbage mark roots).work hi) fun _ hi _ hr =>
    hs.references_not_mem_garbage hold hi hr

/-- Of its window a sweep keeps what its roots reach, and nothing else. -/
theorem Sound.isLive_sweep_iff_reaches (hs : h.Sound) (hold : h.KeepsOld mark roots)
    (hid : id ∈ h.created.drop mark) :
    (h.sweep mark roots).IsLive id ↔ h.Reaches roots id := by
  have hlive : h.IsLive id :=
    (hs.live_iff id).mpr (List.mem_cons_of_mem _ (List.mem_of_mem_drop hid))
  rw [isLive_sweep]
  constructor
  · rintro ⟨hout, -⟩
    refine of_not_mem_unreachedIn (fun i hi _ => ?_) (fun i hi r hr _ => hi.reference hr) hid hout
    obtain ⟨v, hv, hcap⟩ := List.mem_filterMap.mp hi
    exact .captured hv hcap
  · intro hreach
    exact ⟨hs.not_mem_garbage_of_reaches hold hreach, hlive⟩

/-- A sweep changes nothing on the way to what its roots reach. -/
theorem Sound.reaches_sweep (hs : h.Sound) (hold : h.KeepsOld mark roots) (id : ScopeId) :
    (h.sweep mark roots).Reaches roots id ↔ h.Reaches roots id := by
  have hroot : ∀ {h' : Heap}, ∀ i ∈ roots.filterMap Value.captured?, h'.Reaches roots i := by
    intro h' i hi
    obtain ⟨v, hv, hcap⟩ := List.mem_filterMap.mp hi
    exact .captured hv hcap
  constructor
  · exact Reaches.mem_of_closed hroot fun i hi r hr => hi.reference (references_sweep hr).2
  · intro hid
    refine (hid.mem_of_closed (P := fun i => (h.sweep mark roots).Reaches roots i ∧
      i ∉ h.garbage mark roots) (fun i hi => ⟨hroot i hi, ?_⟩) fun i hi r hr => ⟨?_, ?_⟩).1
    · exact (hs.tidy.cutOff_garbage mark roots).work hi
    · have heq : (h.sweep mark roots).references i = h.references i :=
        references_congr (by rw [scope?_sweep, if_neg hi.2])
      exact hi.1.reference (heq ▸ hr)
    · exact hs.references_not_mem_garbage hold hi.2 hr

/-! ### Counting -/

/-- Every slot is that of a live scope or free. -/
def Filled (h : Heap) : Prop := h.slots.size = h.log.length + h.free.length

lemma Filled.count_eq (hf : h.Filled) : h.count = 1 + h.created.length := by
  rw [Filled, log, List.length_cons] at hf
  rw [count]
  omega

lemma filled_empty : empty.Filled := rfl

lemma Filled.alloc (hf : h.Filled) (outer : ScopeId) : (h.alloc outer).2.Filled := by
  rw [Filled, log, List.length_cons] at hf
  unfold Heap.alloc
  cases hfree : h.free with
  | nil =>
    rw [hfree, List.length_nil] at hf
    simp only [Filled, log, Array.size_push, List.length_cons, List.length_append, List.length_nil]
    omega
  | cons id free =>
    rw [hfree, List.length_cons] at hf
    simp only [Filled, log, Array.size_setIfInBounds, List.length_cons, List.length_append,
      List.length_nil]
    omega

lemma Filled.bind (hf : h.Filled) (id : ScopeId) (name : String) (v : Value) :
    (h.bind id name v).Filled := by
  rw [Filled, size_bind, log_bind, free_bind]
  exact hf

lemma Tidy.length_log_sweep (ht : h.Tidy) (mark : Nat) (roots : List Value) :
    (h.sweep mark roots).log.length + (h.garbage mark roots).length = h.log.length := by
  have hsub : (h.garbage mark roots).Sublist h.log :=
    (ht.cutOff_garbage mark roots).sublist.trans ((List.drop_sublist _ _).cons _)
  have hperm : (h.log.filter (· ∈ h.garbage mark roots)).Perm (h.garbage mark roots) := by
    refine (List.perm_ext_iff_of_nodup (ht.nodup.filter _) (ht.nodup.sublist hsub)).mpr fun i => ?_
    rw [List.mem_filter, decide_eq_true_eq]
    exact ⟨And.right, fun hi => ⟨hsub.subset hi, hi⟩⟩
  have hsplit := h.log.length_eq_length_filter_add (· ∈ h.garbage mark roots)
  have hnot : h.log.filter (fun i => !decide (i ∈ h.garbage mark roots)) =
      h.log.filter (· ∉ h.garbage mark roots) := List.filter_congr fun i _ => by simp
  rw [ht.log_sweep, hsplit, hperm.length_eq, hnot, Nat.add_comm]

lemma Tidy.filled_sweep (ht : h.Tidy) (hf : h.Filled) (mark : Nat) (roots : List Value) :
    (h.sweep mark roots).Filled := by
  have hsize : (h.sweep mark roots).slots.size = h.slots.size := size_clearAll _ _
  have hlog := ht.length_log_sweep mark roots
  have hfree : (h.sweep mark roots).free.length =
      (h.garbage mark roots).length + h.free.length := by
    change ((h.garbage mark roots).reverse ++ h.free).length = _
    rw [List.length_append, List.length_reverse]
  rw [Filled] at hf
  rw [Filled, hsize, hfree]
  omega

end Heap
end Monkey
