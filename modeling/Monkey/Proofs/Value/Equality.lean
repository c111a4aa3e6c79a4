import Mathlib.Data.List.Dedup
import Mathlib.Logic.Function.Basic
import Mathlib.Tactic.Common
import Monkey.Value.Operator

/-! One equality for all values. It is decided in three places, for integers, for strings and for
the rest, and for objects their identity comes first; but all of them compare the same facets. On
data, to be equal is to have the same type and to look the same. -/
namespace Monkey

/-! ### Numbers as they are written -/

lemma repr_injective : Function.Injective Nat.repr := by
  have hinverse :
      Function.LeftInverse (fun text : String => Nat.ofDigitChars 10 text.toList 0) Nat.repr := by
    intro n
    simp [Nat.toList_repr, Nat.ofDigitChars_ten_toDigits]
  exact hinverse.injective

/-- Digits do not begin with a sign. -/
lemma repr_ne_minus_append (n : Nat) (text : String) : n.repr ≠ "-" ++ text := by
  intro h
  have hmem : '-' ∈ n.repr.toList := by simp [h]
  rw [Nat.toList_repr] at hmem
  have hdigit := Nat.isDigit_of_mem_toDigits (by decide) (by decide) hmem
  cases hdigit

lemma repr_int_injective : Function.Injective Int.repr := by
  intro i j h
  rw [Int.repr_eq_if, Int.repr_eq_if] at h
  split_ifs at h with hi hj hj
  · have := repr_injective h
    omega
  · exact absurd h (repr_ne_minus_append _ _)
  · exact absurd h.symm (repr_ne_minus_append _ _)
  · have := repr_injective ((String.append_right_inj "-").mp h)
    omega

namespace Value

/-- What equality sees of a value. -/
inductive Facet where
  | int (value : Int64)
  | bool (value : Bool)
  | str (value : String)
  | null
  | function (id : Nat)
  | builtin (b : Builtin)
  deriving DecidableEq

/-- Errors and what `return` carries have no facet. -/
def facet? : Value → Option Facet
  | int value => some (.int value)
  | bool value => some (.bool value)
  | str value => some (.str value)
  | null => some .null
  | function c => some (.function c.id)
  | builtin b => some (.builtin b)
  | returned _ | error _ => none

variable {u v w : Value}

lemma isSome_facet? (v : Value) : v.facet?.isSome = !v.isAbrupt := by cases v <;> rfl

lemma equal_iff : v.equal w = true ↔ v.isAbrupt = false ∧ v.facet? = w.facet? := by
  unfold equal
  cases v <;> cases w <;> simp [facet?, isAbrupt]

lemma equal_self (h : v.isAbrupt = false) : v.equal v = true := equal_iff.mpr ⟨h, rfl⟩

lemma equal_symm (h : v.equal w = true) : w.equal v = true := by
  obtain ⟨hv, hfacet⟩ := equal_iff.mp h
  have hw : w.isAbrupt = false := by
    have := congrArg Option.isSome hfacet
    simpa [isSome_facet?, hv] using this
  exact equal_iff.mpr ⟨hw, hfacet.symm⟩

lemma equal_trans (h : u.equal v = true) (h' : v.equal w = true) : u.equal w = true := by
  obtain ⟨hu, huv⟩ := equal_iff.mp h
  obtain ⟨-, hvw⟩ := equal_iff.mp h'
  exact equal_iff.mpr ⟨hu, huv.trans hvw⟩

/-! The operators compare by the same rule, whichever branch they take. -/

lemma apply_equal (v w : Value) : BinaryOp.equal.apply v w = .bool (v.equal w) := by
  unfold BinaryOp.apply
  split <;> rfl

lemma apply_notEqual (v w : Value) : BinaryOp.notEqual.apply v w = .bool (!v.equal w) := by
  unfold BinaryOp.apply
  split <;> rfl

/-! ### Values that look the same -/

lemma display_int_inj {a b : Int64} : (int a).display = (int b).display ↔ a = b := by
  refine ⟨fun h => ?_, fun h => by rw [h]⟩
  exact Int64.toInt_inj.mp (repr_int_injective h)

lemma display_bool_inj {a b : Bool} : (bool a).display = (bool b).display ↔ a = b := by
  cases a <;> cases b <;> decide

lemma display_builtin_inj {a b : Builtin} : (builtin a).display = (builtin b).display ↔ a = b := by
  cases a <;> cases b <;> decide

/-- What is neither a function nor ends a block is told by its type and its text. -/
lemma equal_iff_display (hv : v.isAbrupt = false) (hfunction : v.tag ≠ .function) :
    v.equal w = true ↔ v.tag = w.tag ∧ v.display = w.display := by
  rw [equal_iff]
  cases v with
  | returned | error => cases hv
  | function => exact absurd rfl hfunction
  | int a =>
    cases w with
    | int b => simp [facet?, tag, isAbrupt, display_int_inj]
    | _ => simp [facet?, tag]
  | bool a =>
    cases w with
    | bool b => simp [facet?, tag, isAbrupt, display_bool_inj]
    | _ => simp [facet?, tag]
  | str a =>
    cases w with
    | str b => simp [facet?, tag, isAbrupt, display]
    | _ => simp [facet?, tag]
  | null => cases w <;> simp [facet?, tag, isAbrupt, display]
  | builtin a =>
    cases w with
    | builtin b => simp [facet?, tag, isAbrupt, display_builtin_inj]
    | _ => simp [facet?, tag]

lemma exists_of_tag_function (h : v.tag = .function) : ∃ c, v = .function c := by
  cases v with
  | function c => exact ⟨c, rfl⟩
  | _ => cases h

lemma exists_of_facet?_function {id : Nat} (h : v.facet? = some (.function id)) :
    ∃ c, v = .function c ∧ c.id = id := by
  cases v with
  | function c =>
    cases h
    exact ⟨c, rfl, rfl⟩
  | _ => cases h

end Value

/-! ### Objects -/

/-- Objects by their identities: each has one content, and a function is the content of one. -/
structure Objects where
  content : Nat → Value
  function_unique {i j : Nat} {c d : Closure} (hi : content i = .function c)
    (hj : content j = .function d) (hid : c.id = d.id) : i = j

namespace Objects

variable (S : Objects) {i j : Nat}

/-- All handles to one object have its content. -/
def handle (i : Nat) : Handle := ⟨i, S.content i⟩

variable {S}

lemma handle_equal_iff : (S.handle i).equal (S.handle j) = true ↔
    i = j ∨ (S.content i).equal (S.content j) = true := by
  simp [Handle.equal, handle]

theorem equivalence (S : Objects) :
    Equivalence fun i j => (S.handle i).equal (S.handle j) = true where
  refl i := handle_equal_iff.mpr (.inl rfl)
  symm h := handle_equal_iff.mpr ((handle_equal_iff.mp h).imp Eq.symm Value.equal_symm)
  trans := by
    intro i j k hij hjk
    rw [handle_equal_iff] at hij hjk ⊢
    obtain rfl | hij := hij
    · exact hjk
    obtain rfl | hjk := hjk
    · exact .inr hij
    exact .inr (Value.equal_trans hij hjk)

/-- Identity says nothing that the contents do not say, unless these end a block. -/
lemma handle_equal (hi : (S.content i).isAbrupt = false) :
    (S.handle i).equal (S.handle j) = (S.content i).equal (S.content j) := by
  rw [Bool.eq_iff_iff, handle_equal_iff]
  constructor
  · rintro (rfl | h)
    · exact Value.equal_self hi
    · exact h
  · exact .inr

/-- A function is equal to itself alone. -/
lemma handle_equal_of_function (hi : (S.content i).tag = .function) :
    (S.handle i).equal (S.handle j) = true ↔ i = j := by
  rw [handle_equal_iff]
  refine ⟨fun h => h.elim id fun h => ?_, .inl⟩
  obtain ⟨c, hc⟩ := Value.exists_of_tag_function hi
  obtain ⟨-, hfacet⟩ := Value.equal_iff.mp h
  rw [hc] at hfacet
  obtain ⟨d, hd, hid⟩ := Value.exists_of_facet?_function hfacet.symm
  exact S.function_unique hc hd hid.symm

/-- So is an error, and what `return` carries. -/
lemma handle_equal_of_abrupt (hi : (S.content i).isAbrupt = true) :
    (S.handle i).equal (S.handle j) = true ↔ i = j := by
  rw [handle_equal_iff, Value.equal_iff, hi]
  simp

/-- Equality of objects is one relation, whoever decides it. -/
structure Consistent (S : Objects) : Prop where
  equivalence : Equivalence fun i j => (S.handle i).equal (S.handle j) = true
  /-- On values of any types the operators decide it and do not fail. -/
  operators {i j : Nat} (hi : (S.content i).isAbrupt = false)
    (hj : (S.content j).isAbrupt = false) :
    BinaryOp.equal.apply (S.content i) (S.content j) = .bool ((S.handle i).equal (S.handle j)) ∧
      BinaryOp.notEqual.apply (S.content i) (S.content j) =
        .bool (!(S.handle i).equal (S.handle j))
  /-- Of what is no function, builtins included, the type and the text decide it. -/
  data {i j : Nat} (hi : (S.content i).isAbrupt = false)
    (hfunction : (S.content i).tag ≠ .function) :
    (S.handle i).equal (S.handle j) = true ↔
      (S.content i).tag = (S.content j).tag ∧ (S.content i).display = (S.content j).display
  /-- A function is equal to itself alone. -/
  functions {i j : Nat} (hi : (S.content i).tag = .function) :
    (S.handle i).equal (S.handle j) = true ↔ i = j
  /-- So is an error, and what `return` carries; no operator ever sees these. -/
  abrupt {i j : Nat} (hi : (S.content i).isAbrupt = true) :
    (S.handle i).equal (S.handle j) = true ↔ i = j

theorem consistent (S : Objects) : S.Consistent where
  equivalence := S.equivalence
  operators hi _ := by
    rw [handle_equal hi]
    exact ⟨Value.apply_equal _ _, Value.apply_notEqual _ _⟩
  data hi hfunction := by
    rw [handle_equal hi]
    exact Value.equal_iff_display hi hfunction
  functions := handle_equal_of_function
  abrupt := handle_equal_of_abrupt

end Objects

/-- The values are contents of objects. -/
def AreContents (vs : List Value) : Prop := ∃ S : Objects, ∀ v ∈ vs, ∃ i, S.content i = v

/-- They are if no two functions among them have the same id. -/
lemma areContents_of_unique {vs : List Value}
    (h : ∀ c d, .function c ∈ vs → .function d ∈ vs → c.id = d.id → c = d) : AreContents vs := by
  have hget {i : Nat} {c : Closure} (hi : vs.dedup[i]?.getD .null = .function c) :
      vs.dedup[i]? = some (.function c) := by
    cases hv : vs.dedup[i]? with
    | none =>
      rw [hv] at hi
      cases hi
    | some v =>
      rw [hv] at hi
      exact congrArg some hi
  -- Each value is the content of one object, at its place in the list without repetitions.
  refine ⟨⟨fun i => vs.dedup[i]?.getD .null, fun {i j c d} hi hj hid => ?_⟩, fun v hv => ?_⟩
  · have hci := hget hi
    have hdj := hget hj
    have hc := List.mem_dedup.mp (List.mem_of_getElem? hci)
    have hd := List.mem_dedup.mp (List.mem_of_getElem? hdj)
    rw [h c d hc hd hid] at hci
    obtain ⟨hlt, -⟩ := List.getElem?_eq_some_iff.mp hci
    exact (List.getElem?_inj hlt (List.nodup_dedup vs)).mp (hci.trans hdj.symm)
  · obtain ⟨i, hi⟩ := List.mem_iff_getElem?.mp (List.mem_dedup.mpr hv)
    refine ⟨i, ?_⟩
    change vs.dedup[i]?.getD .null = v
    rw [hi]
    rfl

end Monkey
