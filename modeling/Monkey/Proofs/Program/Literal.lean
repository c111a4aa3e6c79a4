import Mathlib.Data.List.Basic
import Monkey.Program.Equality

/-! The function literals of a program, each with the number of function literals around it. -/
namespace Monkey

/-- A function literal and its level: how many function literals it stands in. -/
structure Literal where
  params : List String
  body : Block
  level : Nat
  deriving DecidableEq

mutual

/-- The function literals of an expression that stands in `k` of them. -/
def Expr.literals : Expr → Nat → List Literal
  | .ident _, _ | .int _, _ | .str _, _ | .bool _, _ => []
  | .unary _ operand, k => operand.literals k
  | .binary _ left right, k => left.literals k ++ right.literals k
  | .cond test yes no, k => test.literals k ++ (blockLiterals yes k ++ elseLiterals no k)
  | .function params body, k => ⟨params, body, k⟩ :: blockLiterals body (k + 1)
  | .call callee args, k => callee.literals k ++ argLiterals args k

def Stmt.literals : Stmt → Nat → List Literal
  | .define _ value, k => value.literals k
  | .ret value, k => value.literals k
  | .expr value, k => value.literals k
  | .block body, k => blockLiterals body k

def blockLiterals : List Stmt → Nat → List Literal
  | [], _ => []
  | s :: rest, k => s.literals k ++ blockLiterals rest k

def elseLiterals : Option (List Stmt) → Nat → List Literal
  | none, _ => []
  | some body, k => blockLiterals body k

def argLiterals : List Expr → Nat → List Literal
  | [], _ => []
  | e :: rest, k => e.literals k ++ argLiterals rest k

end

/-- With each literal, those of its body are there, one level further in. -/
def Literal.Closed (ls : List Literal) : Prop :=
  ∀ l ∈ ls, blockLiterals l.body (l.level + 1) ⊆ ls

namespace Literal.Closed

variable {as bs : List Literal}

lemma nil : Closed [] := nofun

lemma append (ha : Closed as) (hb : Closed bs) : Closed (as ++ bs) := by
  intro l hl
  rcases List.mem_append.mp hl with hl | hl
  · exact fun x hx => List.mem_append_left _ (ha l hl hx)
  · exact fun x hx => List.mem_append_right _ (hb l hl hx)

lemma cons {l : Literal} (h : Closed (blockLiterals l.body (l.level + 1))) :
    Closed (l :: blockLiterals l.body (l.level + 1)) := by
  refine List.forall_mem_cons.mpr ⟨List.subset_cons_self _ _, fun x hx => ?_⟩
  exact List.Subset.trans (h x hx) (List.subset_cons_self _ _)

end Literal.Closed

mutual

theorem Expr.closed_literals : ∀ (e : Expr) (k : Nat), Literal.Closed (e.literals k)
  | .ident _, _ | .int _, _ | .str _, _ | .bool _, _ => .nil
  | .unary _ operand, k => operand.closed_literals k
  | .binary _ left right, k => (left.closed_literals k).append (right.closed_literals k)
  | .cond test yes no, k =>
    (test.closed_literals k).append ((closed_blockLiterals yes k).append (closed_elseLiterals no k))
  | .function params body, k => .cons (l := ⟨params, body, k⟩) (closed_blockLiterals body (k + 1))
  | .call callee args, k => (callee.closed_literals k).append (closed_argLiterals args k)

theorem Stmt.closed_literals : ∀ (s : Stmt) (k : Nat), Literal.Closed (s.literals k)
  | .define _ value, k => value.closed_literals k
  | .ret value, k => value.closed_literals k
  | .expr value, k => value.closed_literals k
  | .block body, k => closed_blockLiterals body k

theorem closed_blockLiterals : ∀ (body : List Stmt) (k : Nat),
    Literal.Closed (blockLiterals body k)
  | [], _ => .nil
  | s :: rest, k => (s.closed_literals k).append (closed_blockLiterals rest k)

theorem closed_elseLiterals : ∀ (no : Option (List Stmt)) (k : Nat),
    Literal.Closed (elseLiterals no k)
  | none, _ => .nil
  | some body, k => closed_blockLiterals body k

theorem closed_argLiterals : ∀ (args : List Expr) (k : Nat), Literal.Closed (argLiterals args k)
  | [], _ => .nil
  | e :: rest, k => (e.closed_literals k).append (closed_argLiterals rest k)

end

/-- The function literals of programs. -/
def literals (programs : List Program) : List Literal := programs.flatMap (blockLiterals · 0)

lemma closed_literals (programs : List Program) : Literal.Closed (literals programs) := by
  induction programs with
  | nil => exact .nil
  | cons program rest ih => exact (closed_blockLiterals program 0).append ih

end Monkey
