import Mathlib.Data.List.Forall2
import Monkey.Proofs.Program.Lockstep

/-! What is read depends on the kinds and literals of the tokens only. Where the tokens of two
inputs answer to each other one by one, the programs are equal, and the errors stand at tokens that
answer to each other. -/
namespace Monkey
namespace Parser

/-- The tokens ahead answer to each other one by one, and so do the errors so far. -/
structure Parallel (tokens : Token → Token → Prop) (s s' : State) : Prop where
  eof : s.stream.eof.kind = .eof ∧ s'.stream.eof.kind = .eof
  ahead : ∀ i, tokens (s.stream.drop i).current (s'.stream.drop i).current
  errors : List.Forall₂ (ParseError.Alike tokens) s.errors s'.errors

variable {tokens : Token → Token → Prop} {s s' : State} {n n' : Nat}

namespace Parallel

lemma current (h : Parallel tokens s s') : tokens s.stream.current s'.stream.current := h.ahead 0

lemma advance (h : Parallel tokens s s') : Parallel tokens s.advance s'.advance := by
  refine ⟨h.eof, fun i => ?_, h.errors⟩
  have hahead := h.ahead (1 + i)
  simpa only [TokenStream.drop, State.advance_stream, TokenStream.advance, ← List.drop_one,
    List.drop_drop] using hahead

lemma record (h : Parallel tokens s s') {e e' : ParseError} (he : e.Alike tokens e') :
    Parallel tokens (s.record e) (s'.record e') :=
  ⟨h.eof, h.ahead, List.rel_append h.errors (.cons he .nil)⟩

end Parallel

/-- Two runs over tokens of the same kinds and literals. -/
def parallel (tokens : Token → Token → Prop) (htotal : ∀ t, ∃ t', tokens t t')
    (hterminal : ∀ {t t'}, tokens t t' → t.terminal = t'.terminal) : Lockstep where
  states := Parallel tokens
  tokens := tokens
  lost _ := False
  lost_of_moves _ := id
  eof := Parallel.eof
  total := htotal
  alike h := .inl (hterminal h)
  current h := .inr h.current
  peek h := .inr h.advance.current
  advance h := .inr h.advance
  record h he := h.record he

/-- What is read in parallel is the same program, with the errors at the same places. -/
theorem Parallel.program_eq (h : Parallel tokens s s') (htotal : ∀ t, ∃ t', tokens t t')
    (hterminal : ∀ {t t'}, tokens t t' → t.terminal = t'.terminal)
    (hn : s.stream.tokens.length ≤ n) (hn' : s'.stream.tokens.length ≤ n') :
    (programUpTo n s).1 = (programUpTo n' s').1 ∧
      List.Forall₂ (ParseError.Alike tokens) (programUpTo n s).2.errors
        (programUpTo n' s').2.errors := by
  have hkind : ∀ {s s'}, Parallel tokens s s' → s.stream.current.kind = s'.stream.current.kind :=
    fun h => congrArg Terminal.kind (hterminal h.current)
  induction n generalizing n' s s' with
  | zero =>
    have hk := kind_current_of_length_eq_zero h.eof.1 (Nat.le_zero.mp hn)
    rw [programUpTo_of_eof hk, programUpTo_of_eof (hkind h ▸ hk)]
    exact ⟨rfl, h.errors⟩
  | succ n ih =>
    by_cases hk : s.stream.current.kind = .eof
    · rw [programUpTo_of_eof hk, programUpTo_of_eof (hkind h ▸ hk)]
      exact ⟨rfl, h.errors⟩
    · have hk' : s'.stream.current.kind ≠ .eof := hkind h ▸ hk
      obtain ⟨n', rfl⟩ := exists_eq_succ h.eof.2 hk' hn'
      have hat : (parallel tokens htotal hterminal).At (n + 1) (n' + 1) s s' := ⟨h, hn, hn'⟩
      have hout := hat.statement.resolve_left id
      generalize hx : statement (expression (n + 1)) s = x at hout
      generalize hx' : statement (expression (n' + 1)) s' = x' at hout
      cases hout with
      | @ok stmt t t' ht =>
        rw [programUpTo_of_ok hk hx, programUpTo_of_ok hk' hx']
        exact (ih (Parallel.advance ht.states) ht.length_left ht.length_right).imp_left
          (congrArg (stmt :: ·))
      | @error e e' t t' he ht =>
        rw [programUpTo_of_error hk hx, programUpTo_of_error hk' hx']
        exact ih (Parallel.record ht.states he).advance ht.length_left ht.length_right

end Parser
end Monkey
