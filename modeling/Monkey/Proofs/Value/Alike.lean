import Mathlib.Data.List.Forall2
import Monkey.Eval.Builtin
import Monkey.Scope.Reclaim
import Monkey.Value.Operator

/-! Values that differ at most in the scopes that their functions hold on to, as renamed values
do. Operators and builtins cannot tell them apart. -/
namespace Monkey

/-- The same values, but for scopes that are related by `r`. -/
inductive Value.Alike (r : ScopeId → ScopeId → Prop) : Value → Value → Prop
  | int (value : Int64) : Alike r (.int value) (.int value)
  | bool (value : Bool) : Alike r (.bool value) (.bool value)
  | str (value : String) : Alike r (.str value) (.str value)
  | null : Alike r .null .null
  | error (cause : RuntimeError) : Alike r (.error cause) (.error cause)
  | builtin (b : Builtin) : Alike r (.builtin b) (.builtin b)
  | returned {v w : Value} : Alike r v w → Alike r (.returned v) (.returned w)
  | function (id : Nat) (params : List String) (body : Block) {a b : ScopeId} :
      r a b → Alike r (.function ⟨id, params, body, a⟩) (.function ⟨id, params, body, b⟩)

namespace Value
namespace Alike

variable {r r' : ScopeId → ScopeId → Prop} {v w v' w' : Value}

lemma mono (h : Alike r v w) (hr : ∀ a b, r a b → r' a b) : Alike r' v w := by
  induction h with
  | int value => exact .int value
  | bool value => exact .bool value
  | str value => exact .str value
  | null => exact .null
  | error cause => exact .error cause
  | builtin b => exact .builtin b
  | returned _ ih => exact .returned ih
  | function id params body hab => exact .function id params body (hr _ _ hab)

lemma tag_eq (h : Alike r v w) : v.tag = w.tag := by cases h <;> rfl

lemma isAbrupt_eq (h : Alike r v w) : v.isAbrupt = w.isAbrupt := by cases h <;> rfl

lemma isTruthy_eq (h : Alike r v w) : v.isTruthy = w.isTruthy := by
  cases h with
  | bool value => cases value <;> rfl
  | _ => rfl

lemma display_eq (h : Alike r v w) : v.display = w.display := by
  induction h with
  | returned _ ih => exact ih
  | _ => rfl

lemma unwrap (h : Alike r v w) : Alike r v.unwrap w.unwrap := by
  cases h with
  | returned h => exact h
  | int value => exact .int value
  | bool value => exact .bool value
  | str value => exact .str value
  | null => exact .null
  | error cause => exact .error cause
  | builtin b => exact .builtin b
  | function id params body hab => exact .function id params body hab

end Alike

/-! ### Renaming scopes -/

section
variable {f g : ScopeId → ScopeId} {v w : Value}

def rename (f : ScopeId → ScopeId) : Value → Value
  | function c => function { c with scope := f c.scope }
  | returned v => returned (v.rename f)
  | v => v

@[simp] lemma rename_id (v : Value) : v.rename id = v := by
  induction v with
  | returned v ih => exact congrArg returned ih
  | _ => rfl

lemma rename_rename (f g : ScopeId → ScopeId) (v : Value) :
    (v.rename f).rename g = v.rename (g ∘ f) := by
  induction v with
  | returned v ih => exact congrArg returned ih
  | _ => rfl

lemma captured?_rename (f : ScopeId → ScopeId) (v : Value) :
    (v.rename f).captured? = v.captured?.map f := by
  induction v with
  | returned v ih => exact ih
  | _ => rfl

lemma rename_congr (h : ∀ id ∈ v.captured?, f id = g id) : v.rename f = v.rename g := by
  induction v with
  | returned v ih => exact congrArg returned (ih h)
  | function c =>
    rw [rename, rename, h c.scope rfl]
  | _ => rfl

/-- To be like another value along a function is to be renamed by it. -/
lemma alike_iff {live : ScopeId → Prop} :
    v.Alike (fun a b => live a ∧ b = f a) w ↔ w = v.rename f ∧ ∀ id ∈ v.captured?, live id := by
  constructor
  · intro h
    induction h with
    | returned _ ih => exact ⟨congrArg returned ih.1, ih.2⟩
    | function id params body hab =>
      obtain ⟨hlive, rfl⟩ := hab
      exact ⟨rfl, fun a ha => Option.some.inj ha ▸ hlive⟩
    | _ => exact ⟨rfl, nofun⟩
  · rintro ⟨rfl, hlive⟩
    induction v with
    | int value => exact .int value
    | bool value => exact .bool value
    | str value => exact .str value
    | null => exact .null
    | error cause => exact .error cause
    | builtin b => exact .builtin b
    | returned v ih => exact .returned (ih hlive)
    | function c => exact .function c.id c.params c.body ⟨hlive c.scope rfl, rfl⟩

lemma alike_rename (f : ScopeId → ScopeId) (v : Value) :
    v.Alike (fun a b => True ∧ b = f a) (v.rename f) :=
  alike_iff.mpr ⟨rfl, fun _ _ => trivial⟩

lemma forall₂_alike_iff {live : ScopeId → Prop} {vs ws : List Value} :
    List.Forall₂ (Alike fun a b => live a ∧ b = f a) vs ws ↔
      ws = vs.map (rename f) ∧ ∀ v ∈ vs, ∀ id ∈ v.captured?, live id := by
  constructor
  · intro h
    induction h with
    | nil => exact ⟨rfl, nofun⟩
    | cons hvw _ ih =>
      obtain ⟨rfl, hv⟩ := alike_iff.mp hvw
      obtain ⟨rfl, hvs⟩ := ih
      exact ⟨rfl, List.forall_mem_cons.mpr ⟨hv, hvs⟩⟩
  · rintro ⟨rfl, hvs⟩
    refine List.forall₂_map_right_iff.mpr (List.forall₂_same.mpr fun v hv => ?_)
    exact alike_iff.mpr ⟨rfl, hvs v hv⟩

end

namespace Alike

variable {r : ScopeId → ScopeId → Prop} {v w v' w' : Value}

/-- A value is like itself where its scope is related to itself. -/
lemma of_captured (h : ∀ a ∈ v.captured?, r a a) : Alike r v v := by
  have halike : v.Alike (fun a b => r a a ∧ b = id a) v := alike_iff.mpr ⟨v.rename_id.symm, h⟩
  refine halike.mono ?_
  rintro a _ ⟨ha, rfl⟩
  exact ha

lemma eq_of_diagonal {live : ScopeId → Prop} (h : Alike (fun a b => a = b ∧ live a) v w) :
    v = w ∧ ∀ a ∈ v.captured?, live a := by
  have halike : v.Alike (fun a b => live a ∧ b = id a) w :=
    h.mono fun a b hab => ⟨hab.2, hab.1.symm⟩
  obtain ⟨hw, hlive⟩ := alike_iff.mp halike
  exact ⟨(hw.trans v.rename_id).symm, hlive⟩

lemma forall₂_eq_of_diagonal {live : ScopeId → Prop} {vs ws : List Value}
    (h : List.Forall₂ (Alike fun a b => a = b ∧ live a) vs ws) :
    vs = ws ∧ ∀ v ∈ vs, ∀ a ∈ v.captured?, live a := by
  have halike : List.Forall₂ (Alike fun a b => live a ∧ b = id a) vs ws :=
    h.imp fun v w hvw => hvw.mono fun a b hab => ⟨hab.2, hab.1.symm⟩
  obtain ⟨hws, hlive⟩ := forall₂_alike_iff.mp halike
  rw [List.map_congr_left fun v _ => v.rename_id, List.map_id'] at hws
  exact ⟨hws.symm, hlive⟩

/-- Where scopes are related to themselves only, values are like themselves only. -/
lemma eq_iff : Alike (· = ·) v w ↔ v = w := by
  constructor
  · intro h
    have hdiagonal : Alike (fun a b => a = b ∧ True) v w := h.mono fun a b hab => ⟨hab, trivial⟩
    exact hdiagonal.eq_of_diagonal.1
  · rintro rfl
    exact of_captured fun _ _ => rfl

/-- A value that holds on to no scope is like itself. -/
lemma of_plain (h : v.captured? = none) : Alike r v v :=
  of_captured fun a ha => by rw [h] at ha; cases ha

lemma unary_eq (op : UnaryOp) (h : Alike r v w) : op.apply v = op.apply w := by
  cases op <;> cases h <;> rfl

lemma binary_eq (op : BinaryOp) (h : Alike r v w) (h' : Alike r v' w') :
    op.apply v v' = op.apply w w' := by
  cases h <;> cases h' <;> rfl

end Alike

/-- Data and errors: they hold on to no scope, and `return` does not carry them. -/
def isPlain : Value → Bool
  | int _ | bool _ | str _ | null | error _ => true
  | _ => false

lemma captured?_of_isPlain {v : Value} (h : v.isPlain = true) : v.captured? = none := by
  cases v <;> first | rfl | cases h

lemma tag_of_isPlain {v : Value} (h : v.isPlain = true) : v.tag ≠ .returned := by
  cases v with
  | returned => cases h
  | _ => nofun

lemma isPlain_unary (op : UnaryOp) (v : Value) : (op.apply v).isPlain = true := by
  cases op <;> cases v <;> rfl

lemma isPlain_onInts (op : BinaryOp) (a b : Int64) : (op.onInts a b).isPlain = true := by
  unfold BinaryOp.onInts
  split
  case h_4 => split <;> rfl
  all_goals rfl

lemma isPlain_onStrings (op : BinaryOp) (a b : String) : (op.onStrings a b).isPlain = true := by
  unfold BinaryOp.onStrings
  split <;> rfl

lemma isPlain_binary (op : BinaryOp) (v w : Value) : (op.apply v w).isPlain = true := by
  unfold BinaryOp.apply
  split
  · exact isPlain_onInts op _ _
  · exact isPlain_onStrings op _ _
  · split
    · rfl
    · rfl
    · split <;> rfl

namespace Alike

variable {r : ScopeId → ScopeId → Prop} {v w v' w' : Value}

lemma unary (op : UnaryOp) (h : Alike r v w) : Alike r (op.apply v) (op.apply w) := by
  rw [unary_eq op h]
  exact of_plain (captured?_of_isPlain (isPlain_unary op w))

lemma binary (op : BinaryOp) (h : Alike r v w) (h' : Alike r v' w') :
    Alike r (op.apply v v') (op.apply w w') := by
  rw [binary_eq op h h']
  exact of_plain (captured?_of_isPlain (isPlain_binary op w w'))

end Alike
end Value

/-! ### Builtins -/

namespace Builtin

variable {r : ScopeId → ScopeId → Prop} {vs ws : List Value}

lemma single_alike (h : List.Forall₂ (Value.Alike r) vs ws) :
    (∃ v w, v.Alike r w ∧ single vs = .ok v ∧ single ws = .ok w) ∨
      ∃ e, single vs = .error e ∧ single ws = .error e := by
  have hlen := h.length_eq
  cases h with
  | nil => exact .inr ⟨_, rfl, rfl⟩
  | @cons v w vs ws hvw htail =>
    cases htail with
    | nil => exact .inl ⟨v, w, hvw, rfl, rfl⟩
    | cons _ _ =>
      have hcount := congrArg (RuntimeError.wrongArgCount 1) hlen.symm
      exact .inr ⟨_, rfl, congrArg Except.error hcount⟩

lemma length_eq {v w : Value} (h : v.Alike r w) : length v = length w := by
  cases h <;> rfl

/-- Builtins neither see scopes nor write them. -/
lemma apply_eq (b : Builtin) (h : List.Forall₂ (Value.Alike r) vs ws) (sink : Sink) :
    b.apply vs sink = b.apply ws sink := by
  cases b with
  | len =>
    rw [apply, apply]
    rcases single_alike h with ⟨v, w, hvw, hv, hw⟩ | ⟨e, hv, hw⟩
    · rw [hv, hw]
      exact congrArg (·, sink) (length_eq hvw)
    · rw [hv, hw]
  | type =>
    rw [apply, apply]
    rcases single_alike h with ⟨v, w, hvw, hv, hw⟩ | ⟨e, hv, hw⟩
    · rw [hv, hw]
      exact congrArg (fun t : Value.Tag => (Except.ok (Value.str t.name), sink)) hvw.tag_eq
    · rw [hv, hw]
  | puts =>
    refine congrArg (Prod.mk _) ?_
    induction h generalizing sink with
    | nil => rfl
    | cons hvw _ ih =>
      rw [List.foldl_cons, List.foldl_cons, hvw.display_eq]
      exact ih _

lemma isPlain_of_apply {b : Builtin} {sink : Sink} {v : Value}
    (h : (b.apply vs sink).1 = .ok v) : v.isPlain = true := by
  cases b with
  | len =>
    rw [apply] at h
    cases hw : single vs with
    | error e =>
      rw [hw] at h
      cases h
    | ok w =>
      rw [hw] at h
      cases w <;> cases h
      rfl
  | type =>
    rw [apply] at h
    cases hw : single vs with
    | error e =>
      rw [hw] at h
      cases h
    | ok w =>
      rw [hw] at h
      cases h
      rfl
  | puts =>
    cases h
    rfl

end Builtin
end Monkey
