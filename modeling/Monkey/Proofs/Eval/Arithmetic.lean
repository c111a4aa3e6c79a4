import Mathlib.Data.Int.ModEq
import Mathlib.Tactic.Common
import Monkey.Eval.Machine

/-! Arithmetic on words of 64 bits. However often sums, differences, products and negations wrap
around on the way, the word at the end is that of the exact value. Only quotients look at the words
of their operands, and only they can fail. -/
namespace Monkey

/-- The word is the one integer in its range that is congruent to `x`. -/
structure IsWordOf (w : Int64) (x : ℤ) : Prop where
  low : -2 ^ 63 ≤ w.toInt
  high : w.toInt < 2 ^ 63
  congruent : w.toInt ≡ x [ZMOD 2 ^ 64]

lemma isWordOf_ofInt (x : ℤ) : IsWordOf (.ofInt x) x where
  low := Int64.le_toInt _
  high := Int64.toInt_lt _
  congruent := by
    rw [Int64.toInt_ofInt]
    exact Int.bmod_emod

/-- The quotient of words goes toward zero, and the one that does not fit is the lowest word. -/
lemma toInt_quotient (a b : Int64) :
    (a / b).toInt = if a.toInt = -2 ^ 63 ∧ b.toInt = -1 then -2 ^ 63 else a.toInt.tdiv b.toInt := by
  split_ifs with h
  · obtain ⟨ha, hb⟩ := h
    rw [Int64.toInt_div, ha, hb]
    decide
  · by_cases ha : a = Int64.minValue
    · have hb : b ≠ -1 := by
        rintro rfl
        exact h ⟨by rw [ha]; rfl, rfl⟩
      exact Int64.toInt_div_of_ne_right a b hb
    · exact Int64.toInt_div_of_ne_left a b ha

namespace Arith

/-- The operators that give integers. -/
inductive Op where
  | add | sub | mul | div
  deriving DecidableEq, Repr

def Op.toBinary : Op → BinaryOp
  | add => .add
  | sub => .sub
  | mul => .mul
  | div => .div

/-- What the operator gives where integers have no bound. A quotient is that of the words. -/
def Op.exact : Op → ℤ → ℤ → ℤ
  | add, x, y => x + y
  | sub, x, y => x - y
  | mul, x, y => x * y
  | div, x, y => (x.bmod (2 ^ 64)).tdiv (y.bmod (2 ^ 64))

end Arith

/-- Expressions of integers alone. -/
inductive Arith where
  | int (value : Int64)
  | negate (operand : Arith)
  | binary (op : Arith.Op) (left right : Arith)
  deriving DecidableEq, Repr

namespace Arith

def toExpr : Arith → Expr
  | int value => .int value
  | negate operand => .unary .negate operand.toExpr
  | binary op left right => .binary op.toBinary left.toExpr right.toExpr

/-- Whether there is a quotient anywhere in the expression. -/
def hasQuotient : Arith → Bool
  | int _ => false
  | negate operand => operand.hasQuotient
  | binary op left right => op == .div || left.hasQuotient || right.hasQuotient

/-- The value where integers have no bound. -/
def exact : Arith → ℤ
  | int value => value.toInt
  | negate operand => -operand.exact
  | binary op left right => op.exact left.exact right.exact

section
variable (call : Closure → List Value → Eval Value) (m : Machine)

/-- Evaluation gives the word and leaves the machine as it is. -/
def Gives (e : Arith) (w : Int64) : Prop := e.toExpr.eval call m = some (.int w, m)

/-- Evaluation ends in a division by zero and leaves the machine as it is. -/
def Fails (e : Arith) : Prop := e.toExpr.eval call m = some (.error .divisionByZero, m)

/-- On its way through the left operand, the right operand and then the operator, evaluation comes
to a quotient of `a` by `b`. -/
inductive Meets (a b : Int64) : Arith → Prop
  | here {l r : Arith} (hl : l.Gives call m a) (hr : r.Gives call m b) :
      Meets a b (.binary .div l r)
  | operand {e : Arith} (he : Meets a b e) : Meets a b (.negate e)
  | left {op : Op} {l r : Arith} (hl : Meets a b l) : Meets a b (.binary op l r)
  | right {op : Op} {l r : Arith} {w : Int64} (hl : l.Gives call m w) (hr : Meets a b r) :
      Meets a b (.binary op l r)

end

section
variable {call : Closure → List Value → Eval Value} {m : Machine} {e l r : Arith} {a b w : Int64}

lemma Gives.not_fails (h : e.Gives call m w) : ¬e.Fails call m := by
  intro hfails
  rw [Fails, h] at hfails
  cases hfails

/-! ### One operator -/

lemma Op.onInts_ofInt (op : Op) (x y : ℤ) (h : op = .div → Int64.ofInt y ≠ 0) :
    op.toBinary.onInts (.ofInt x) (.ofInt y) = .int (.ofInt (op.exact x y)) := by
  cases op with
  | add => simp [toBinary, BinaryOp.onInts, exact, Int64.ofInt_add]
  | sub => simp [toBinary, BinaryOp.onInts, exact, Int64.ofInt_sub]
  | mul => simp [toBinary, BinaryOp.onInts, exact, Int64.ofInt_mul]
  | div =>
    have hquotient : Int64.ofInt x / Int64.ofInt y = .ofInt (exact .div x y) := by
      apply Int64.toInt_inj.mp
      rw [Int64.toInt_div, Int64.toInt_ofInt, Int64.toInt_ofInt, Int64.toInt_ofInt]
      rfl
    simp only [toBinary, BinaryOp.onInts, if_neg (h rfl), hquotient]

lemma gives_negate {x : ℤ} (h : e.Gives call m (.ofInt x)) :
    (negate e).Gives call m (.ofInt (-x)) := by
  rw [Int64.ofInt_neg]
  exact Eval.andThen_of_ordinary h rfl _

lemma fails_negate (h : e.Fails call m) : (negate e).Fails call m :=
  Eval.andThen_of_abrupt h rfl _

lemma eval_binary (op : Op) (hl : l.Gives call m a) (hr : r.Gives call m b) :
    (binary op l r).toExpr.eval call m = some (op.toBinary.onInts a b, m) :=
  (Eval.andThen_of_ordinary hl rfl _).trans (Eval.andThen_of_ordinary hr rfl _)

lemma fails_left (op : Op) (hl : l.Fails call m) : (binary op l r).Fails call m :=
  Eval.andThen_of_abrupt hl rfl _

lemma fails_right (op : Op) (hl : l.Gives call m a) (hr : r.Fails call m) :
    (binary op l r).Fails call m :=
  (Eval.andThen_of_ordinary hl rfl _).trans (Eval.andThen_of_abrupt hr rfl _)

lemma gives_binary {op : Op} {x y : ℤ} (hl : l.Gives call m (.ofInt x))
    (hr : r.Gives call m (.ofInt y)) (h : op = .div → Int64.ofInt y ≠ 0) :
    (binary op l r).Gives call m (.ofInt (op.exact x y)) := by
  rw [Gives, eval_binary op hl hr, op.onInts_ofInt x y h]

lemma fails_quotient (hl : l.Gives call m a) (hr : r.Gives call m 0) :
    (binary .div l r).Fails call m := eval_binary .div hl hr

lemma gives_quotient (hl : l.Gives call m a) (hr : r.Gives call m b) (hb : b ≠ 0) :
    (binary .div l r).Gives call m (a / b) := by
  have hquotient : BinaryOp.onInts .div a b = .int (a / b) := if_neg hb
  rw [Gives, eval_binary .div hl hr, Op.toBinary, hquotient]

/-! ### Whole expressions -/

/-- A quotient by zero that evaluation comes to ends it, wherever it is. -/
theorem Meets.fails (h : Meets call m a 0 e) : e.Fails call m := by
  induction h with
  | here hl hr => exact fails_quotient hl hr
  | operand _ ih => exact fails_negate ih
  | left _ ih => exact fails_left _ ih
  | right hl _ ih => exact fails_right _ hl ih

/-- Where evaluation comes to no such quotient, it gives the word of the exact value. -/
theorem gives_or_meets (call : Closure → List Value → Eval Value) (m : Machine) (e : Arith) :
    e.Gives call m (.ofInt e.exact) ∨ ∃ a, Meets call m a 0 e := by
  induction e with
  | int value =>
    left
    rw [exact, Int64.ofInt_toInt]
    rfl
  | negate e ih =>
    obtain hgives | ⟨a, hmeets⟩ := ih
    · exact .inl (gives_negate hgives)
    · exact .inr ⟨a, .operand hmeets⟩
  | binary op l r ihl ihr =>
    obtain hl | ⟨a, hmeets⟩ := ihl
    · obtain hr | ⟨a, hmeets⟩ := ihr
      · by_cases h : op = .div ∧ Int64.ofInt r.exact = 0
        · obtain ⟨rfl, hzero⟩ := h
          rw [hzero] at hr
          exact .inr ⟨_, .here hl hr⟩
        · exact .inl (gives_binary hl hr (not_and.mp h))
      · exact .inr ⟨a, .right hl hmeets⟩
    · exact .inr ⟨a, .left hmeets⟩

lemma Meets.hasQuotient (h : Meets call m a b e) : e.hasQuotient = true := by
  induction h with
  | here => rfl
  | operand _ ih => exact ih
  | left _ ih => simp [Arith.hasQuotient, ih]
  | right _ _ ih => simp [Arith.hasQuotient, ih]

end

/-- Without quotients, evaluation gives the word of the exact value. With them, it gives this word
or ends in a division by zero, the latter just if it comes to a quotient by zero; every other
quotient goes toward zero, and the lowest word by minus one is the lowest word again. -/
theorem eval_exact (call : Closure → List Value → Eval Value) (m : Machine) (e : Arith) :
    (e.hasQuotient = false → ∃ w, e.Gives call m w ∧ IsWordOf w e.exact) ∧
      ((∃ w, e.Gives call m w ∧ IsWordOf w e.exact) ∨ e.Fails call m) ∧
      (e.Fails call m ↔ ∃ a, Meets call m a 0 e) ∧
      ∀ (l r : Arith) (a b : Int64), l.Gives call m a → r.Gives call m b → b ≠ 0 →
        ∃ q, (binary .div l r).Gives call m q ∧ q.toInt =
          if a.toInt = -2 ^ 63 ∧ b.toInt = -1 then -2 ^ 63 else a.toInt.tdiv b.toInt := by
  have hgives : (∀ a, ¬Meets call m a 0 e) → ∃ w, e.Gives call m w ∧ IsWordOf w e.exact := by
    intro hmeets
    have h := (gives_or_meets call m e).resolve_right (not_exists.mpr hmeets)
    exact ⟨_, h, isWordOf_ofInt e.exact⟩
  refine ⟨fun h => hgives fun a hmeets => ?_, ?_, ⟨fun hfails => ?_, ?_⟩, ?_⟩
  · rw [hmeets.hasQuotient] at h
    cases h
  · by_cases h : ∃ a, Meets call m a 0 e
    · obtain ⟨a, hmeets⟩ := h
      exact .inr hmeets.fails
    · exact .inl (hgives (not_exists.mp h))
  · exact (gives_or_meets call m e).resolve_left fun h => h.not_fails hfails
  · rintro ⟨a, hmeets⟩
    exact hmeets.fails
  · intro l r a b hl hr hb
    exact ⟨a / b, gives_quotient hl hr hb, toInt_quotient a b⟩

/-- The lowest word, which cannot be written as it is. -/
def lowest : Arith := .binary .sub (.negate (.int 9223372036854775807)) (.int 1)

/-- Its square leaves the range by far, its double is zero and so no divisor, and the quotient by
minus one is the one that does not fit. -/
theorem eval_exact_lowest :
    (∃ w, (binary .mul lowest lowest).Gives (Closure.call .eager 0) (.start .working) w ∧
      IsWordOf w (2 ^ 126)) ∧
    (binary .add (.int 1) (binary .div lowest (binary .mul lowest (.int 2)))).Fails
      (Closure.call .eager 0) (.start .working) ∧
    ∃ q, (binary .div lowest (.negate (.int 1))).Gives (Closure.call .eager 0) (.start .working) q ∧
      q.toInt = -2 ^ 63 := by
  refine ⟨?_, ?_, ?_⟩
  · exact (eval_exact _ _ (binary .mul lowest lowest)).1 rfl
  · exact (eval_exact _ _ _).2.2.1.mpr ⟨Int64.minValue, .right (w := 1) rfl (.here rfl rfl)⟩
  · exact (eval_exact _ _ lowest).2.2.2 lowest (.negate (.int 1)) Int64.minValue (-1) rfl rfl
      (by decide)

end Arith
end Monkey
