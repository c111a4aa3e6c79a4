import Monkey.Program.Basic

/-! Equality of programs is decidable. -/
namespace Monkey

mutual

def Expr.same : Expr → Expr → Bool
  | .ident a, .ident b => a == b
  | .int a, .int b => a == b
  | .str a, .str b => a == b
  | .bool a, .bool b => a == b
  | .unary o a, .unary p b => o == p && a.same b
  | .binary o a c, .binary p b d => o == p && a.same b && c.same d
  | .cond a c e, .cond b d f => a.same b && sameBlock c d && sameBranch e f
  | .function a c, .function b d => a == b && sameBlock c d
  | .call a c, .call b d => a.same b && sameArgs c d
  | _, _ => false

def Stmt.same : Stmt → Stmt → Bool
  | .define a c, .define b d => a == b && c.same d
  | .ret a, .ret b => a.same b
  | .expr a, .expr b => a.same b
  | .block a, .block b => sameBlock a b
  | _, _ => false

def sameBlock : List Stmt → List Stmt → Bool
  | [], [] => true
  | a :: as, b :: bs => a.same b && sameBlock as bs
  | _, _ => false

def sameArgs : List Expr → List Expr → Bool
  | [], [] => true
  | a :: as, b :: bs => a.same b && sameArgs as bs
  | _, _ => false

def sameBranch : Option (List Stmt) → Option (List Stmt) → Bool
  | none, none => true
  | some a, some b => sameBlock a b
  | _, _ => false

end

mutual

theorem Expr.same_iff : ∀ a b : Expr, a.same b = true ↔ a = b
  | .ident _, b => by cases b <;> simp [Expr.same]
  | .int _, b => by cases b <;> simp [Expr.same]
  | .str _, b => by cases b <;> simp [Expr.same]
  | .bool _, b => by cases b <;> simp [Expr.same]
  | .unary _ a, b => by cases b <;> simp [Expr.same, a.same_iff]
  | .binary _ a c, b => by cases b <;> simp [Expr.same, a.same_iff, c.same_iff, and_assoc]
  | .cond a c e, b => by
    cases b <;> simp [Expr.same, a.same_iff, sameBlock_iff c, sameBranch_iff e, and_assoc]
  | .function _ c, b => by cases b <;> simp [Expr.same, sameBlock_iff c]
  | .call a c, b => by cases b <;> simp [Expr.same, a.same_iff, sameArgs_iff c]

theorem Stmt.same_iff : ∀ a b : Stmt, a.same b = true ↔ a = b
  | .define _ c, b => by cases b <;> simp [Stmt.same, c.same_iff]
  | .ret a, b => by cases b <;> simp [Stmt.same, a.same_iff]
  | .expr a, b => by cases b <;> simp [Stmt.same, a.same_iff]
  | .block a, b => by cases b <;> simp [Stmt.same, sameBlock_iff a]

theorem sameBlock_iff : ∀ a b : List Stmt, sameBlock a b = true ↔ a = b
  | [], b => by cases b <;> simp [sameBlock]
  | a :: as, b => by cases b <;> simp [sameBlock, a.same_iff, sameBlock_iff as]

theorem sameArgs_iff : ∀ a b : List Expr, sameArgs a b = true ↔ a = b
  | [], b => by cases b <;> simp [sameArgs]
  | a :: as, b => by cases b <;> simp [sameArgs, a.same_iff, sameArgs_iff as]

theorem sameBranch_iff : ∀ a b : Option (List Stmt), sameBranch a b = true ↔ a = b
  | none, b => by cases b <;> simp [sameBranch]
  | some a, b => by cases b <;> simp [sameBranch, sameBlock_iff a]

end

instance : DecidableEq Expr := fun a b => decidable_of_iff _ (Expr.same_iff a b)

instance : DecidableEq Stmt := fun a b => decidable_of_iff _ (Stmt.same_iff a b)

end Monkey
