import Monkey.Proofs.Scope.Arena

/-! The chains of outer scopes. As long as every new scope is put inside a live one, each chain
leads to the global scope, whatever is bound and freed in between: outer scopes are older, and a
sweep that keeps a scope keeps the outer one too. So walks outwards end, and a lookup finds the
nearest binding on its way. -/
namespace Monkey
namespace Heap

variable {h : Heap} {id : ScopeId} {name : String} {v : Value}

/-- A new scope is put inside a live one. All other handles, values and marks may be any. -/
def Op.Fits (h : Heap) : Op → Prop
  | .alloc outer => h.IsLive outer
  | _ => True

/-- Each operation fits the heap that it finds. -/
def Careful : Heap → List Op → Prop
  | _, [] => True
  | h, op :: rest => op.Fits h ∧ Careful (h.perform op) rest

/-- Chains lead to older scopes, and only the global one has no outer scope. -/
structure Founded (h : Heap) : Prop where
  chained : h.Chained
  filled : h.Filled
  inside {id : ScopeId} (hid : id ∈ h.created) : ∃ o, h.outer? id = some o

/-! ### What operations keep -/

lemma founded_empty : empty.Founded := ⟨sound_empty.chained, filled_empty, nofun⟩

lemma Chained.perform (hc : h.Chained) {op : Op} (hop : op.Fits h) : (h.perform op).Chained := by
  cases op with
  | alloc outer => exact (hc.tidy.adds_alloc outer).chained hc hop
  | bind id name value => exact hc.bind id name value
  | reclaimSince mark result => exact hc.sweep mark [result]
  | reclaim result => exact hc.sweep 0 _

lemma Founded.inside_sweep (hf : h.Founded) {mark : Nat} {roots : List Value}
    (hid : id ∈ (h.sweep mark roots).created) : ∃ o, (h.sweep mark roots).outer? id = some o := by
  rw [hf.chained.tidy.created_sweep, List.mem_filter, decide_eq_true_eq] at hid
  rw [outer?_sweep_of_not_mem hid.2]
  exact hf.inside hid.1

lemma Founded.perform (hf : h.Founded) {op : Op} (hop : op.Fits h) : (h.perform op).Founded := by
  refine ⟨hf.chained.perform hop, hf.filled.perform hf.chained.tidy op, fun {id} hid => ?_⟩
  cases op with
  | alloc outer =>
    have hadds := hf.chained.tidy.adds_alloc outer
    change ∃ o, (h.alloc outer).2.outer? id = some o
    rw [hadds.outer?_eq]
    split
    · exact ⟨outer, rfl⟩
    · next hne =>
      refine hf.inside ?_
      have hmem : id ∈ h.created ++ [(h.alloc outer).1] := hadds.created ▸ hid
      simpa [hne] using hmem
  | bind i name value =>
    change ∃ o, (h.bind i name value).outer? id = some o
    rw [outer?_bind]
    exact hf.inside (h.created_bind i name value ▸ hid)
  | reclaimSince mark result => exact hf.inside_sweep hid
  | reclaim result => exact hf.inside_sweep hid

/-- What a whole run keeps. -/
lemma Founded.run {ops : List Op} (hf : h.Founded) (hops : h.Careful ops) :
    (ops.foldl Heap.perform h).Founded := by
  induction ops generalizing h with
  | nil => exact hf
  | cons op ops ih => exact ih (hf.perform hops.1) hops.2

/-! ### Chains -/

/-- The scopes from `id` to the global one, each inside the next. -/
inductive OuterChain (h : Heap) : ScopeId → List ScopeId → Prop
  | global (ho : h.outer? .global = none) : OuterChain h .global [.global]
  | inside {id o : ScopeId} {chain : List ScopeId} (ho : h.outer? id = some o)
      (hchain : OuterChain h o chain) : OuterChain h id (id :: chain)

lemma Founded.eq_global (hf : h.Founded) (hid : h.IsLive id) (ho : h.outer? id = none) :
    id = .global := by
  by_contra hne
  have hlog := (hf.chained.live_iff id).mp hid
  obtain ⟨o, hsome⟩ := hf.inside ((List.mem_cons.mp hlog).resolve_left hne)
  simp [ho] at hsome

lemma Founded.outerChain_path (hf : h.Founded) (hid : h.IsLive id) :
    h.OuterChain id (h.path id) := by
  refine hf.chained.outwards (motive := fun id => h.OuterChain id (h.path id)) ?_ hid
  intro id hid ih
  cases ho : h.outer? id with
  | none =>
    obtain rfl := hf.eq_global hid ho
    rw [path_of_outermost ho]
    exact .global ho
  | some o =>
    rw [hf.chained.path_of_outer ho]
    exact .inside ho (ih o ho)

/-- A chain has no more scopes than there are in the log up to where it starts. -/
lemma Chained.depth_le_rank (hc : h.Chained) (hid : h.IsLive id) : h.depth id ≤ h.rank id + 1 := by
  refine hc.outwards (motive := fun id => h.depth id ≤ h.rank id + 1) ?_ hid
  intro id hid ih
  cases ho : h.outer? id with
  | none => simp [depth_of_outermost ho]
  | some o =>
    have hlt := hc.rank_lt ho
    have hle := ih o ho
    rw [hc.depth_of_outer ho]
    omega

lemma Founded.depth_le_count (hf : h.Founded) (hid : h.IsLive id) : h.depth id ≤ h.count := by
  have hrank : h.rank id < h.log.length :=
    List.idxOf_lt_length_of_mem ((hf.chained.live_iff id).mp hid)
  have hdepth := hf.chained.depth_le_rank hid
  rw [log, List.length_cons] at hrank
  rw [hf.filled.count_eq]
  omega

lemma Founded.outer_earlier (hf : h.Founded) (hid : id ∈ h.created) :
    ∃ o, h.outer? id = some o ∧
      (o = .global ∨ o ∈ h.created ∧ h.created.idxOf o < h.created.idxOf id) := by
  obtain ⟨o, ho⟩ := hf.inside hid
  refine ⟨o, ho, ?_⟩
  by_cases hglobal : o = .global
  · exact .inl hglobal
  · have hsub : [o, id].Sublist h.created := by
      cases hf.chained.outer_older ho with
      | cons _ hsub => exact hsub
      | cons_cons _ _ => exact absurd rfl hglobal
    exact .inr ⟨hsub.subset (by simp),
      idxOf_lt_idxOf_of_sublist hf.chained.nodup.of_cons hsub⟩

/-- From a live scope the walk ends at the global one, and from any other where it starts. -/
lemma Chained.path_ends (hc : h.Chained) (id : ScopeId) :
    ∃ last ∈ (h.path id).getLast?, h.outer? last = none := by
  by_cases hid : h.IsLive id
  · exact (hc.path_spec hid).2
  · have ho : h.outer? id = none := by
      cases ho : h.outer? id with
      | none => rfl
      | some o => exact absurd (isLive_of_outer? ho) hid
    exact ⟨id, by simp [path_of_outermost ho], ho⟩

/-! ### Lookups -/

/-- The scope itself binds the name. -/
def Binds (h : Heap) (id : ScopeId) (name : String) (v : Value) : Prop :=
  ∃ s, h.scope? id = some s ∧ s.find? name = some v

/-- The first scope of the chain that binds the name binds it to `v`. -/
def BindsFirst (h : Heap) (chain : List ScopeId) (name : String) (v : Value) : Prop :=
  ∃ inner id rest, chain = inner ++ id :: rest ∧ h.Binds id name v ∧
    ∀ i ∈ inner, ∀ w, ¬h.Binds i name w

lemma binds_iff : h.Binds id name v ↔ (h.scope? id).bind (·.find? name) = some v :=
  Option.bind_eq_some_iff.symm

lemma not_binds_iff :
    (∀ w, ¬h.Binds id name w) ↔ (h.scope? id).bind (·.find? name) = none := by
  simp [binds_iff, Option.eq_none_iff_forall_ne_some]

lemma lookup_eq_some_iff : h.lookup id name = some v ↔ h.BindsFirst (h.path id) name v := by
  simp only [lookup, List.findSome?_eq_some_iff, BindsFirst, not_binds_iff]
  simp only [binds_iff]

lemma lookup_eq_none_iff :
    h.lookup id name = none ↔ ∀ i ∈ h.path id, ∀ w, ¬h.Binds i name w := by
  simp only [lookup, List.findSome?_eq_none_iff, not_binds_iff]

/-- What the chains of outer scopes are like, and what is read off them. -/
structure Ancestry (h : Heap) : Prop where
  /-- The outer scope is the global one or stands earlier in the log. -/
  outer {id : ScopeId} (hid : h.IsLive id) (hne : id ≠ .global) :
    ∃ o, h.outer? id = some o ∧
      (o = .global ∨ o ∈ h.created ∧ h.created.idxOf o < h.created.idxOf id)
  /-- From any handle, a walk outwards goes on until there is no outer scope. -/
  ends (id : ScopeId) : ∃ last ∈ (h.path id).getLast?, h.outer? last = none
  chain {id : ScopeId} (hid : h.IsLive id) : ∃ chain, h.OuterChain id chain ∧
    h.depth id = chain.length ∧ h.depth id ≤ h.count ∧ ∀ name,
      (∀ v, h.lookup id name = some v ↔ h.BindsFirst chain name v) ∧
        (h.lookup id name = none ↔ ∀ i ∈ chain, ∀ v, ¬h.Binds i name v)

/-- After any run that puts new scopes into live ones, every chain leads to the global scope
through ever older scopes; depths and lookups go along it. -/
theorem ancestry_after {ops : List Op} (hops : empty.Careful ops) : (after ops).Ancestry := by
  have hf : (after ops).Founded := founded_empty.run hops
  refine ⟨fun {id} hid hne => hf.outer_earlier ?_, hf.chained.path_ends, fun {id} hid => ?_⟩
  · exact (List.mem_cons.mp ((hf.chained.live_iff id).mp hid)).resolve_left hne
  · exact ⟨_, hf.outerChain_path hid, rfl, hf.depth_le_count hid, fun name =>
      ⟨fun v => lookup_eq_some_iff, lookup_eq_none_iff⟩⟩

/-- The second of three scopes is freed though a function in the first holds on to it, and its slot
is used again inside the third. -/
def slotUsedInside : List Op :=
  [.alloc .global, .alloc ⟨1⟩, .alloc ⟨1⟩, .bind ⟨1⟩ "f" (.function ⟨0, [], [], ⟨2⟩⟩),
    .reclaimSince 1 (.function ⟨1, [], [], ⟨3⟩⟩), .alloc ⟨3⟩]

/-- Here the slots do not tell the age of scopes, and a function of the first scope holds on to the
youngest. -/
theorem ancestry_after_slotUsedInside :
    (after slotUsedInside).created = [⟨1⟩, ⟨3⟩, ⟨2⟩] ∧
      (after slotUsedInside).path ⟨2⟩ = [⟨2⟩, ⟨3⟩, ⟨1⟩, .global] ∧
      (after slotUsedInside).Ancestry := by
  have hcareful : empty.Careful slotUsedInside := ⟨rfl, rfl, rfl, trivial, trivial, rfl, trivial⟩
  exact ⟨by decide +kernel, by decide +kernel, ancestry_after hcareful⟩

end Heap
end Monkey
