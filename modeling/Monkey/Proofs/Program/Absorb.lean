import Monkey.Proofs.Program.Grammar

/-! Reading as much as possible loses no derivation. Where an expression may be followed by a
parenthesis or an operator that the grammar gives to the next statement, that statement can be
taken apart so that the expression goes on instead. -/
namespace Monkey
namespace Grammar

/-- A text of `K` behind any number of calls, and of binary operators with their operands. -/
inductive After (K : List Terminal → Prop) : List Terminal → Prop
  | stop {r : List Terminal} : K r → After K r
  | call {c r : List Terminal} : Derives .callArgs c → After K r → After K (c ++ r)
  | binary {t : Terminal} {o r : List Terminal} :
      t.kind ∈ binaryKinds → Derives .operand o → After K r → After K (t :: (o ++ r))

/-- Whatever `K` allows behind an expression, the expression can be continued with a parenthesis
or an operator that comes there, and no `else` does. -/
structure Absorbing (K : List Terminal → Prop) : Prop where
  call {w : Terminal} {ws : List Terminal} (h : K (w :: ws)) (hw : w.kind = .lparen) :
    ∃ c r, w :: ws = c ++ r ∧ Derives .callArgs c ∧ After K r
  binary {w : Terminal} {ws : List Terminal} (h : K (w :: ws)) (hw : w.kind ∈ binaryKinds) :
    ∃ o r, ws = o ++ r ∧ Derives .operand o ∧ After K r
  noElse {w : Terminal} {ws : List Terminal} (h : K (w :: ws)) : w.kind ≠ .kwElse

variable {K : List Terminal → Prop} {w : Terminal} {r u v ws : List Terminal}

lemma lparen_of_callArgs (h : Derives .callArgs u) : ∃ w ws, u = w :: ws ∧ w.kind = .lparen := by
  cases h with
  | callArgs hl _ _ => exact ⟨_, _, rfl, hl⟩

namespace After

lemma calls (hu : Derives .calls u) (h : After K r) : After K (u ++ r) := by
  generalize hn : Nonterminal.calls = n at hu
  induction hu with
  | noCalls => exact h
  | calls ha _ _ ih =>
    rw [List.append_assoc]
    exact call ha (ih rfl)
  | _ => cases hn

lemma chain (hu : Derives .chain u) (h : After K r) : After K (u ++ r) := by
  generalize hn : Nonterminal.chain = n at hu
  induction hu with
  | noChain => exact h
  | chain ht ho _ _ ih =>
    rw [List.cons_append, List.append_assoc]
    exact binary ht ho (ih rfl)
  | _ => cases hn

lemma call_of_lparen (hK : Absorbing K) (h : After K (w :: ws)) (hw : w.kind = .lparen) :
    ∃ c r, w :: ws = c ++ r ∧ Derives .callArgs c ∧ After K r := by
  generalize hx : w :: ws = x at h
  cases h with
  | stop h =>
    rw [← hx] at h ⊢
    exact hK.call h hw
  | call hc hr => exact ⟨_, _, rfl, hc, hr⟩
  | binary ht _ _ =>
    rw [← (List.cons.inj hx).1, hw] at ht
    exact absurd ht (by decide)

lemma operand_of_binary (hK : Absorbing K) (h : After K (w :: ws)) (hw : w.kind ∈ binaryKinds) :
    ∃ o r, ws = o ++ r ∧ Derives .operand o ∧ After K r := by
  generalize hx : w :: ws = x at h
  cases h with
  | stop h =>
    rw [← hx] at h
    exact hK.binary h hw
  | call hc _ =>
    obtain ⟨v, vs, rfl, hv⟩ := lparen_of_callArgs hc
    rw [(List.cons.inj hx).1, hv] at hw
    exact absurd hw (by decide)
  | binary _ ho hr => exact ⟨_, _, (List.cons.inj hx).2, ho, hr⟩

lemma noElse (hK : Absorbing K) (h : After K r) : ∀ w ∈ r.head?, w.kind ≠ .kwElse := by
  intro w hw hk
  cases h with
  | stop h =>
    cases r with
    | nil => cases hw
    | cons v vs =>
      obtain rfl := Option.some.inj hw
      exact hK.noElse h hk
  | call hc _ =>
    obtain ⟨v, vs, rfl, hv⟩ := lparen_of_callArgs hc
    obtain rfl := Option.some.inj hw
    rw [hv] at hk
    cases hk
  | binary ht _ _ =>
    obtain rfl := Option.some.inj hw
    rw [hk] at ht
    exact absurd ht (by decide)

/-- Where nothing more can be taken, the expression has ended. -/
lemma of_stop (h : After K r)
    (hr : ∀ w ∈ r.head?, w.kind ≠ .lparen ∧ w.kind ∉ binaryKinds) : K r := by
  cases h with
  | stop h => exact h
  | call hc _ =>
    obtain ⟨v, vs, rfl, hv⟩ := lparen_of_callArgs hc
    exact absurd hv (hr v rfl).1
  | binary ht _ _ => exact absurd ht (hr _ rfl).2

end After

/-- What closes an expression inside parentheses continues no expression. -/
lemma absorbing_of_closing (h : ∀ w ws, K (w :: ws) → w.kind ∈ [Token.Kind.rparen, .comma]) :
    Absorbing K where
  call {w ws} hK hw := absurd (hw ▸ h w ws hK) (by decide)
  binary {w ws} hK hw := by
    have hkind := h w ws hK
    simp only [List.mem_cons, List.not_mem_nil, or_false] at hkind
    rcases hkind with hk | hk <;> rw [hk] at hw <;> exact absurd hw (by decide)
  noElse {w ws} hK hw := absurd (hw ▸ h w ws hK) (by decide)

/-- What may follow the expression of a statement, where the statements are followed by `R`. -/
def Rest (R x : List Terminal) : Prop :=
  ∃ e v, x = e ++ (v ++ R) ∧ Derives .ending e ∧ Derives .program v

/-- An operand in parentheses could be the arguments of a call. -/
lemma operand_of_lparen (h : Derives .operand (w :: ws)) (hw : w.kind = .lparen) :
    ∃ a c, w :: ws = a ++ c ∧ Derives .callArgs a ∧ Derives .calls c := by
  generalize hx : w :: ws = x at h
  cases h with
  | unary ht _ =>
    rw [← (List.cons.inj hx).1, hw] at ht
    exact absurd ht (by decide)
  | applied hp hc =>
    have hhead : ∀ {v vs}, w :: ws = v :: vs → v.kind = .lparen := fun h =>
      (List.cons.inj h).1 ▸ hw
    cases hp with
    | group hl hu hr =>
      have harguments := Derives.arguments hu .noMoreArguments
      rw [List.append_nil] at harguments
      exact ⟨_, _, rfl, .callArgs hl harguments hr, hc⟩
    | atom ht =>
      rw [hhead hx] at ht
      exact absurd ht (by decide)
    | int ht _ => cases ht.symm.trans (hhead hx)
    | cond hi _ _ _ _ _ => cases hi.symm.trans (hhead hx)
    | function hf _ _ _ _ => cases hf.symm.trans (hhead hx)

/-- An operand that starts like a binary operator starts with a unary one. -/
lemma operand_of_sign (h : Derives .operand (w :: ws)) (hw : w.kind ∈ binaryKinds) :
    Derives .operand ws := by
  generalize hx : w :: ws = x at h
  cases h with
  | unary _ ho => exact (List.cons.inj hx).2 ▸ ho
  | applied hp _ =>
    obtain ⟨v, vs, rfl, hv⟩ := hp.primary_cons
    rw [← (List.cons.inj hx).1] at hv
    exact absurd hw (by revert hv; cases w.kind <;> decide)

/-- Which tokens can follow a statement that is not ended by a semicolon. -/
lemma head_program_append (hR : ∀ w ∈ r.head?, w.kind = .rbrace) (hv : Derives .program v) :
    ∀ w ∈ (v ++ r).head?, w.kind ∈ Token.Kind.rbrace :: statementKinds := by
  intro w hw
  cases hv with
  | noStatements =>
    rw [hR w hw]
    exact List.mem_cons_self
  | statements hu _ =>
    obtain ⟨v, vs, rfl, hv⟩ := hu.statement_cons
    obtain rfl := Option.some.inj hw
    exact List.mem_cons_of_mem _ hv

lemma Rest.head (hR : ∀ w ∈ r.head?, w.kind = .rbrace) (h : Rest r (w :: ws)) :
    w.kind ∈ Token.Kind.semicolon :: .rbrace :: statementKinds := by
  obtain ⟨e, v, hx, he, hv⟩ := h
  cases he with
  | ending ht =>
    rw [(List.cons.inj hx).1, ht]
    exact List.mem_cons_self
  | noEnding =>
    have hhead : w ∈ (v ++ r).head? := by rw [show v ++ r = w :: ws from hx.symm]; rfl
    exact List.mem_cons_of_mem _ (head_program_append hR hv w hhead)

/-- A token that starts an operand starts an expression statement. -/
lemma Rest.exists_operand (hR : ∀ w ∈ r.head?, w.kind = .rbrace) (h : Rest r (w :: ws))
    (hw : w.kind ∈ operandKinds) :
    ∃ o x, w :: ws = o ++ x ∧ Derives .operand o ∧ After (Rest r) x := by
  obtain ⟨e, v, hx, he, hv⟩ := h
  cases he with
  | ending ht =>
    rw [(List.cons.inj hx).1, ht] at hw
    exact absurd hw (by decide)
  | noEnding =>
    cases hv with
    | noStatements =>
      have hhead := hR w (by rw [show r = w :: ws from hx.symm]; rfl)
      rw [hhead] at hw
      exact absurd hw (by decide)
    | @statements u v hu hv =>
      have hhead : ∀ {t ts}, w :: ws = t :: ts → t.kind ∈ operandKinds := fun h =>
        (List.cons.inj h).1 ▸ hw
      cases hu with
      | define hl _ _ _ _ => exact absurd (hl ▸ hhead hx) (by decide)
      | ret hr _ _ => exact absurd (hr ▸ hhead hx) (by decide)
      | @expr u e hu he =>
        cases hu with
        | @expression o c ho hc =>
          refine ⟨o, c ++ (e ++ (v ++ r)), ?_, ho, .chain hc (.stop ⟨e, v, rfl, he, hv⟩)⟩
          rw [hx]
          simp only [List.nil_append, List.append_assoc]

/-- The rest of the statements absorbs: its first statement may become a part of the one before. -/
lemma absorbing_rest (hR : ∀ w ∈ r.head?, w.kind = .rbrace) : Absorbing (Rest r) where
  call {w ws} h hw := by
    obtain ⟨o, x, hx, ho, hafter⟩ := h.exists_operand hR (by rw [hw]; decide)
    obtain ⟨v, vs, rfl, -⟩ := ho.operand_cons
    obtain ⟨a, c, hac, ha, hc⟩ := operand_of_lparen ho ((List.cons.inj hx).1 ▸ hw)
    refine ⟨a, c ++ x, ?_, ha, hafter.calls hc⟩
    rw [hx, hac, List.append_assoc]
  binary {w ws} h hw := by
    have hkind : ∀ k ∈ binaryKinds, k ∈ Token.Kind.semicolon :: .rbrace :: statementKinds →
        k ∈ operandKinds := by decide
    obtain ⟨o, x, hx, ho, hafter⟩ := h.exists_operand hR (hkind _ hw (h.head hR))
    obtain ⟨v, vs, rfl, -⟩ := ho.operand_cons
    obtain ⟨rfl, rfl⟩ := List.cons.inj hx
    exact ⟨vs, x, rfl, operand_of_sign ho hw, hafter⟩
  noElse {w ws} h hw := absurd (hw ▸ h.head hR) (by decide)

end Grammar
end Monkey
