import Mathlib.Algebra.Order.Ring.Nat
import Mathlib.Tactic.Common
import Monkey.Proofs.Program.Success
import Monkey.Proofs.Token.Spelling

/-! The grammar of programs, over the tokens without their places. It says nothing of how tightly
operators bind or of which statement a parenthesis belongs to, and is ambiguous. -/
namespace Monkey
namespace Grammar

inductive Nonterminal where
  | program | statement | ending
  | expression | chain | operand | primary
  | calls | callArgs | arguments | moreArguments
  | names | moreNames | block | alternative
  deriving DecidableEq, Repr

def binaryKinds : List Token.Kind :=
  [.plus, .minus, .asterisk, .slash, .less, .greater, .equal, .notEqual]

def unaryKinds : List Token.Kind := [.bang, .minus]

lemma mem_binaryKinds {k : Token.Kind} : k ∈ binaryKinds ↔ ∃ op, BinaryOp.ofKind? k = some op := by
  cases k <;> simp [binaryKinds, BinaryOp.ofKind?]

lemma mem_unaryKinds {k : Token.Kind} : k ∈ unaryKinds ↔ ∃ op, UnaryOp.ofKind? k = some op := by
  cases k <;> simp [unaryKinds, UnaryOp.ofKind?]

/-- The tokens that are an operand by themselves, whatever their text. -/
def atomKinds : List Token.Kind := [.ident, .string, .kwTrue, .kwFalse]

/-- The tokens that primaries, operands and statements start with. -/
def primaryKinds : List Token.Kind := .int :: .lparen :: .kwIf :: .kwFn :: atomKinds

def operandKinds : List Token.Kind := unaryKinds ++ primaryKinds

def statementKinds : List Token.Kind := .kwLet :: .kwReturn :: operandKinds

/-- No operand starts with what ends a block or a list of arguments, or with what starts another
kind of statement. -/
lemma ne_of_mem_operandKinds : ∀ k ∈ operandKinds,
    k ≠ .rbrace ∧ k ≠ .eof ∧ k ≠ .rparen ∧ k ≠ .kwLet ∧ k ≠ .kwReturn := by
  decide

/-- The productions, one line for each choice on the right-hand side of a rule. -/
inductive Derives : Nonterminal → List Terminal → Prop
  | noStatements : Derives .program []
  | statements {u v : List Terminal} :
      Derives .statement u → Derives .program v → Derives .program (u ++ v)
  | define {l x a : Terminal} {u e : List Terminal} :
      l.kind = .kwLet → x.kind = .ident → a.kind = .assign → Derives .expression u →
      Derives .ending e → Derives .statement (l :: x :: a :: (u ++ e))
  | ret {r : Terminal} {u e : List Terminal} :
      r.kind = .kwReturn → Derives .expression u → Derives .ending e →
      Derives .statement (r :: (u ++ e))
  | expr {u e : List Terminal} :
      Derives .expression u → Derives .ending e → Derives .statement (u ++ e)
  | noEnding : Derives .ending []
  | ending {t : Terminal} : t.kind = .semicolon → Derives .ending [t]
  | expression {o c : List Terminal} :
      Derives .operand o → Derives .chain c → Derives .expression (o ++ c)
  | noChain : Derives .chain []
  | chain {t : Terminal} {o c : List Terminal} :
      t.kind ∈ binaryKinds → Derives .operand o → Derives .chain c →
      Derives .chain (t :: (o ++ c))
  | unary {t : Terminal} {o : List Terminal} :
      t.kind ∈ unaryKinds → Derives .operand o → Derives .operand (t :: o)
  | applied {p c : List Terminal} :
      Derives .primary p → Derives .calls c → Derives .operand (p ++ c)
  | noCalls : Derives .calls []
  | calls {a c : List Terminal} :
      Derives .callArgs a → Derives .calls c → Derives .calls (a ++ c)
  | callArgs {l r : Terminal} {a : List Terminal} :
      l.kind = .lparen → Derives .arguments a → r.kind = .rparen →
      Derives .callArgs (l :: (a ++ [r]))
  | noArguments : Derives .arguments []
  | arguments {u m : List Terminal} :
      Derives .expression u → Derives .moreArguments m → Derives .arguments (u ++ m)
  | noMoreArguments : Derives .moreArguments []
  | moreArguments {c : Terminal} {u m : List Terminal} :
      c.kind = .comma → Derives .expression u → Derives .moreArguments m →
      Derives .moreArguments (c :: (u ++ m))
  | atom {t : Terminal} : t.kind ∈ atomKinds → Derives .primary [t]
  | int {t : Terminal} :
      t.kind = .int → Parser.digitsValue t.literal ≤ 2 ^ 63 - 1 → Derives .primary [t]
  | group {l r : Terminal} {u : List Terminal} :
      l.kind = .lparen → Derives .expression u → r.kind = .rparen →
      Derives .primary (l :: (u ++ [r]))
  | cond {i l r : Terminal} {u b a : List Terminal} :
      i.kind = .kwIf → l.kind = .lparen → Derives .expression u → r.kind = .rparen →
      Derives .block b → Derives .alternative a →
      Derives .primary (i :: l :: (u ++ r :: (b ++ a)))
  | function {f l r : Terminal} {n b : List Terminal} :
      f.kind = .kwFn → l.kind = .lparen → Derives .names n → r.kind = .rparen →
      Derives .block b → Derives .primary (f :: l :: (n ++ r :: b))
  | block {l r : Terminal} {u : List Terminal} :
      l.kind = .lbrace → Derives .program u → r.kind = .rbrace →
      Derives .block (l :: (u ++ [r]))
  | noAlternative : Derives .alternative []
  | alternative {e : Terminal} {b : List Terminal} :
      e.kind = .kwElse → Derives .block b → Derives .alternative (e :: b)
  | noNames : Derives .names []
  | names {x : Terminal} {m : List Terminal} :
      x.kind = .ident → Derives .moreNames m → Derives .names (x :: m)
  | noMoreNames : Derives .moreNames []
  | moreNames {c x : Terminal} {m : List Terminal} :
      c.kind = .comma → x.kind = .ident → Derives .moreNames m →
      Derives .moreNames (c :: x :: m)

namespace Derives

variable {t : Terminal} {o u v : List Terminal}

lemma calls_append (hu : Derives .calls u) (hv : Derives .callArgs v) :
    Derives .calls (u ++ v) := by
  generalize hn : Nonterminal.calls = n at hu
  induction hu with
  | noCalls => simpa using calls hv noCalls
  | calls ha _ _ ih =>
    rw [List.append_assoc]
    exact calls ha (ih rfl)
  | _ => cases hn

lemma operand_append (hu : Derives .operand u) (hv : Derives .callArgs v) :
    Derives .operand (u ++ v) := by
  generalize hn : Nonterminal.operand = n at hu
  induction hu with
  | unary ht _ ih => exact unary ht (ih rfl)
  | applied hp hc _ _ =>
    rw [List.append_assoc]
    exact applied hp (hc.calls_append hv)
  | _ => cases hn

lemma of_operand (ho : Derives .operand o) : Derives .expression o := by
  simpa using expression ho noChain

lemma of_primary (hu : Derives .primary u) : Derives .expression u := by
  simpa using of_operand (applied hu noCalls)

lemma operand_binary (ho : Derives .operand o) (ht : t.kind ∈ binaryKinds)
    (hv : Derives .expression v) : Derives .expression (o ++ t :: v) := by
  cases hv with
  | expression ho' hc => exact expression ho (chain ht ho' hc)

lemma expression_unary (ht : t.kind ∈ unaryKinds) (hu : Derives .expression u) :
    Derives .expression (t :: u) := by
  cases hu with
  | expression ho hc => exact expression (unary ht ho) hc

/-- What the loop over operators and calls can put behind an expression. -/
def Extension (v : List Terminal) : Prop :=
  Derives .callArgs v ∨ ∃ t w, v = t :: w ∧ t.kind ∈ binaryKinds ∧ Derives .expression w

/-- The last operand takes a call, and any expression continues a chain. -/
lemma expression_append (hu : Derives .expression u) (hv : Extension v) :
    Derives .expression (u ++ v) := by
  cases hu with
  | @expression o c ho hc =>
    generalize hn : Nonterminal.chain = n at hc
    induction hc generalizing o with
    | noChain =>
      rw [List.append_nil]
      rcases hv with hcall | ⟨t, w, rfl, ht, hw⟩
      · exact of_operand (ho.operand_append hcall)
      · exact ho.operand_binary ht hw
    | chain ht ho' _ _ ih =>
      rw [List.append_assoc, List.cons_append]
      exact ho.operand_binary ht (ih ho' rfl)
    | _ => cases hn

lemma primary_cons (hu : Derives .primary u) : ∃ w ws, u = w :: ws ∧ w.kind ∈ primaryKinds := by
  cases hu with
  | atom ht => exact ⟨_, _, rfl, by simp [primaryKinds, ht]⟩
  | int ht _ => exact ⟨_, _, rfl, by simp [primaryKinds, ht]⟩
  | group hl _ _ => exact ⟨_, _, rfl, by simp [primaryKinds, hl]⟩
  | cond hi _ _ _ _ _ => exact ⟨_, _, rfl, by simp [primaryKinds, hi]⟩
  | function hf _ _ _ _ => exact ⟨_, _, rfl, by simp [primaryKinds, hf]⟩

lemma operand_cons (hu : Derives .operand u) : ∃ w ws, u = w :: ws ∧ w.kind ∈ operandKinds := by
  cases hu with
  | unary ht _ => exact ⟨_, _, rfl, List.mem_append_left _ ht⟩
  | applied hp _ =>
    obtain ⟨w, ws, rfl, hw⟩ := hp.primary_cons
    exact ⟨w, _, rfl, List.mem_append_right _ hw⟩

lemma expression_cons (hu : Derives .expression u) :
    ∃ w ws, u = w :: ws ∧ w.kind ∈ operandKinds := by
  cases hu with
  | expression ho _ =>
    obtain ⟨w, ws, rfl, hw⟩ := ho.operand_cons
    exact ⟨w, _, rfl, hw⟩

lemma statement_cons (hu : Derives .statement u) :
    ∃ w ws, u = w :: ws ∧ w.kind ∈ statementKinds := by
  cases hu with
  | define hl _ _ _ _ => exact ⟨_, _, rfl, by simp [statementKinds, hl]⟩
  | ret hr _ _ => exact ⟨_, _, rfl, by simp [statementKinds, hr]⟩
  | expr hu _ =>
    obtain ⟨w, ws, rfl, hw⟩ := hu.expression_cons
    exact ⟨w, _, rfl, List.mem_cons_of_mem _ (List.mem_cons_of_mem _ hw)⟩

end Derives
end Grammar
end Monkey
