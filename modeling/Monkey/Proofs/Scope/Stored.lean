import Mathlib.Data.List.ReduceOption
import Monkey.Proofs.Scope.Sweep

/-! The values that live scopes bind, and how little each operation on a heap adds to them. -/
namespace Monkey
namespace Heap

variable {h : Heap} {id : ScopeId} {v : Value}

/-- All values bound in live scopes. -/
def values (h : Heap) : List Value :=
  h.slots.toList.reduceOption.flatMap fun s => s.bindings.map (·.2)

lemma mem_values_iff :
    v ∈ h.values ↔ ∃ id s, h.scope? id = some s ∧ ∃ b ∈ s.bindings, b.2 = v := by
  have hslot (s : Scope) : s ∈ h.slots.toList.reduceOption ↔ ∃ id, h.scope? id = some s := by
    rw [List.reduceOption_mem_iff, Array.mem_toList_iff, Array.mem_iff_getElem?]
    constructor
    · rintro ⟨i, hi⟩
      exact ⟨⟨i⟩, Option.join_eq_some_iff.mpr hi⟩
    · rintro ⟨id, hid⟩
      exact ⟨id.index, Option.join_eq_some_iff.mp hid⟩
  simp only [values, List.mem_flatMap, hslot, List.mem_map]
  constructor
  · rintro ⟨s, ⟨id, hid⟩, hb⟩
    exact ⟨id, s, hid, hb⟩
  · rintro ⟨id, s, hid, hb⟩
    exact ⟨s, ⟨id, hid⟩, hb⟩

lemma values_empty : empty.values = [] := rfl

lemma mem_values_of_scope? {h' : Heap} (hv : v ∈ h'.values)
    (hscope : ∀ id s, h'.scope? id = some s → s.bindings = [] ∨ h.scope? id = some s) :
    v ∈ h.values := by
  obtain ⟨id, s, hs, b, hb, hbv⟩ := mem_values_iff.mp hv
  rcases hscope id s hs with hnil | hs
  · rw [hnil] at hb
    cases hb
  · exact mem_values_iff.mpr ⟨id, s, hs, b, hb, hbv⟩

lemma mem_values_bind {name : String} {w : Value} (hv : v ∈ (h.bind id name w).values) :
    v = w ∨ v ∈ h.values := by
  obtain ⟨i, s, hs, b, hb, rfl⟩ := mem_values_iff.mp hv
  rw [scope?_bind] at hs
  split at hs
  · obtain ⟨old, hold, rfl⟩ := Option.map_eq_some_iff.mp hs
    rcases List.mem_cons.mp hb with rfl | hb
    · exact .inl rfl
    · exact .inr (mem_values_iff.mpr ⟨id, old, hold, b, List.mem_of_mem_filter hb, rfl⟩)
  · exact .inr (mem_values_iff.mpr ⟨i, s, hs, b, hb, rfl⟩)

lemma mem_values_bindAll {bindings : List (String × Value)}
    (hv : v ∈ (h.bindAll id bindings).values) : (∃ b ∈ bindings, b.2 = v) ∨ v ∈ h.values := by
  induction bindings generalizing h with
  | nil => exact .inr hv
  | cons b rest ih =>
    rcases ih hv with ⟨a, ha, rfl⟩ | hv
    · exact .inl ⟨a, List.mem_cons_of_mem _ ha, rfl⟩
    · rcases mem_values_bind hv with rfl | hv
      · exact .inl ⟨b, List.mem_cons_self, rfl⟩
      · exact .inr hv

/-- A new scope binds nothing, whichever slot it is in. -/
lemma scope?_alloc {outer i : ScopeId} {s : Scope} (hs : (h.alloc outer).2.scope? i = some s) :
    s.bindings = [] ∨ h.scope? i = some s := by
  unfold alloc at hs
  cases hfree : h.free with
  | nil =>
    simp only [hfree, scope?, Array.getElem?_push] at hs
    split at hs
    · cases hs
      exact .inl rfl
    · exact .inr hs
  | cons id free =>
    simp only [hfree, scope?, Array.getElem?_setIfInBounds] at hs
    split at hs
    · split at hs <;> cases hs
      exact .inl rfl
    · exact .inr hs

lemma mem_values_alloc {outer : ScopeId} (hv : v ∈ (h.alloc outer).2.values) : v ∈ h.values :=
  mem_values_of_scope? hv fun _ _ => scope?_alloc

lemma mem_values_sweep {mark : Nat} {roots : List Value}
    (hv : v ∈ (h.sweep mark roots).values) : v ∈ h.values := by
  refine mem_values_of_scope? hv fun id s hs => ?_
  rw [scope?_sweep] at hs
  split at hs
  · cases hs
  · exact .inr hs

lemma mem_values_of_lookup {name : String} (hv : h.lookup id name = some v) : v ∈ h.values := by
  obtain ⟨i, -, hi⟩ := List.exists_of_findSome?_eq_some hv
  obtain ⟨s, hs, hfind⟩ := Option.bind_eq_some_iff.mp hi
  obtain ⟨before, after, hsplit, -⟩ := List.lookup_eq_some_iff.mp hfind
  exact mem_values_iff.mpr ⟨i, s, hs, (name, v), by rw [hsplit]; simp, rfl⟩

end Heap
end Monkey
