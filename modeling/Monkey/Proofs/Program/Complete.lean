import Monkey.Proofs.Program.Absorb
import Monkey.Proofs.Program.Sound

/-! What is derivable is read without an error. The parser need not follow the derivation that is
given: it reads on as far as it can, and what it leaves is again derivable in its place. -/
open Monkey.Grammar Monkey.Parser Monkey.Parser.State

namespace Monkey
namespace Parser

variable {s t : State} {n m : Nat} {w : Terminal} {r u v ws : List Terminal}

/-- Where something binds tighter, it is there to be read. -/
lemma exists_of_not_stops {min : Precedence} (h : ¬Stops min r) (ht : t.advance.Ahead r) :
    ∃ w ws, r = w :: ws ∧ min < .ofKind w.kind ∧ t.stream.peek.kind = w.kind ∧
      t.advance.advance.stream.tokens.length < t.advance.stream.tokens.length := by
  cases r with
  | nil => exact absurd (fun w hw => absurd hw nofun) h
  | cons w ws =>
    have hlt : min < .ofKind w.kind := by
      by_contra hlt
      exact h fun v hv => Option.some.inj hv ▸ hlt
    have hbrace : w.kind ≠ .rbrace := by
      intro hk
      rw [hk] at hlt
      exact Nat.not_lt_zero _ hlt
    exact ⟨w, ws, rfl, hlt, ht.kind hbrace, (ht.cons hbrace).2.2⟩

lemma Stops.of_lowest (h : Stops .lowest ws) :
    ∀ w ∈ ws.head?, w.kind ≠ .lparen ∧ w.kind ∉ binaryKinds := by
  intro w hw
  have hlt := h w hw
  revert hlt
  cases w.kind <;> decide

lemma ofKind_lt_call : ∀ k ∈ binaryKinds, Precedence.ofKind k < .call := by decide

/-- With `n` rounds an operand is read, and of what follows as much as binds tighter than `min`. -/
def Complete (n : Nat) : Prop :=
  ∀ ⦃K : List Terminal → Prop⦄, Absorbing K → ∀ ⦃min : Precedence⦄, min < .call →
    ∀ ⦃s : State⦄ ⦃o r : List Terminal⦄, s.Ahead (o ++ r) → Derives .operand o → After K r →
      s.stream.tokens.length ≤ n →
      ∃ e t r', expression n min s = .ok e t ∧ s.Reaches t r' ∧ After K r' ∧ Stops min r'

/-- An expression is read whole. What is left may have been taken apart, but is in its place. -/
lemma Complete.whole (hexpr : Complete n) {K : List Terminal → Prop} (hK : Absorbing K)
    (hs : s.Ahead (u ++ r)) (hu : Derives .expression u) (hr : K r)
    (hn : s.stream.tokens.length ≤ n) :
    ∃ e t r', expression n .lowest s = .ok e t ∧ s.Reaches t r' ∧ K r' ∧ Stops .lowest r' := by
  cases hu with
  | expression ho hc =>
    rw [List.append_assoc] at hs
    have hmin : Precedence.lowest < .call := by decide
    obtain ⟨e, t, r', heq, ht, hafter, hstop⟩ := hexpr hK hmin hs ho (.chain hc (.stop hr)) hn
    exact ⟨e, t, r', heq, ht, hafter.of_stop hstop.of_lowest, hstop⟩

/-- An expression that must end where it does. -/
lemma Complete.closed (hexpr : Complete n) (hs : s.Ahead (u ++ w :: ws))
    (hu : Derives .expression u) (hw : w.kind = .rparen) (hn : s.stream.tokens.length ≤ n) :
    ∃ e t, expression n .lowest s = .ok e t ∧ s.Reaches t (w :: ws) := by
  have hK : Absorbing (· = w :: ws) := by
    refine absorbing_of_closing fun v vs hv => ?_
    rw [(List.cons.inj hv).1, hw]
    exact List.mem_cons_self
  obtain ⟨e, t, r', heq, ht, rfl, -⟩ := hexpr.whole hK hs hu rfl hn
  exact ⟨e, t, heq, ht⟩

lemma reaches_skip (hR : ∀ w ∈ r.head?, w.kind = .rbrace) {e : List Terminal}
    (ht : s.Reaches t (e ++ (v ++ r))) (he : Derives .ending e) (hv : Derives .program v) :
    s.Reaches (t.skip .semicolon) (v ++ r) := by
  cases he with
  | ending hk => exact ht.skip hk
  | noEnding =>
    have hpeek : t.stream.peek.kind ≠ .semicolon := by
      refine ht.ahead.current_ne nofun nofun fun w hw hk => ?_
      exact absurd (hk ▸ head_program_append hR hv w hw) (by decide)
    rw [State.skip, if_neg hpeek]
    exact ht

/-- The expression of a statement, with all that it takes from the statements behind it. -/
lemma Complete.ended (hexpr : Complete n) (hR : ∀ w ∈ r.head?, w.kind = .rbrace)
    {e : List Terminal} (hs : s.Ahead (u ++ (e ++ (v ++ r)))) (hu : Derives .expression u)
    (he : Derives .ending e) (hv : Derives .program v) (hn : s.stream.tokens.length ≤ n) :
    ∃ value t v', expression n .lowest s = .ok value t ∧ Derives .program v' ∧
      s.Reaches (t.skip .semicolon) (v' ++ r) := by
  obtain ⟨value, t, r', heq, ht, ⟨e', v', rfl, he', hv'⟩, -⟩ :=
    hexpr.whole (absorbing_rest hR) hs hu ⟨e, v, rfl, he, hv⟩ hn
  exact ⟨value, t, v', heq, hv', reaches_skip hR ht he' hv'⟩

lemma Complete.statement (hexpr : Complete n) (hR : ∀ w ∈ r.head?, w.kind = .rbrace)
    (hs : s.Ahead (u ++ (v ++ r))) (hu : Derives .statement u) (hv : Derives .program v)
    (hn : s.stream.tokens.length ≤ n) :
    ∃ stmt t v', statement (expression n) s = .ok stmt t ∧ Derives .program v' ∧
      s.Reaches t (v' ++ r) := by
  cases hu with
  | define hl hx ha hu he =>
    simp only [List.cons_append, List.append_assoc] at hs
    obtain ⟨hlet, hs₁, hlt₁⟩ := hs.pass hl nofun
    obtain ⟨hname, hs₂, hlt₂⟩ := hs₁.pass hx nofun
    obtain ⟨hassign, hs₃, hlt₃⟩ := hs₂.pass ha nofun
    obtain ⟨value, t, v', heq, hv', ht⟩ := hexpr.ended hR hs₃ hu he hv (by omega)
    have hstmt := (statement_let hlet).mpr ⟨hname, hassign, value, t, heq, rfl, rfl⟩
    exact ⟨_, _, v', hstmt, hv', ht.of_advance.of_advance.of_advance⟩
  | ret hr hu he =>
    simp only [List.cons_append, List.append_assoc] at hs
    obtain ⟨hreturn, hs₁, hlt₁⟩ := hs.pass hr nofun
    obtain ⟨value, t, v', heq, hv', ht⟩ := hexpr.ended hR hs₁ hu he hv (by omega)
    have hstmt := (statement_return hreturn).mpr ⟨value, t, heq, rfl, rfl⟩
    exact ⟨_, _, v', hstmt, hv', ht.of_advance⟩
  | expr hu he =>
    rw [List.append_assoc] at hs
    obtain ⟨value, t, v', heq, hv', ht⟩ := hexpr.ended hR hs hu he hv hn
    obtain ⟨w, vs, rfl, hw⟩ := hu.expression_cons
    obtain ⟨hbrace, -, -, hlet, hreturn⟩ := ne_of_mem_operandKinds _ hw
    rw [← hs.kind hbrace] at hlet hreturn
    have hstmt := (statement_expr hlet hreturn).mpr ⟨value, t, heq, rfl, rfl⟩
    exact ⟨_, _, v', hstmt, hv', ht⟩

/-- The first token of a statement is there, and ends no block. -/
lemma current_of_statement (hs : s.Ahead (u ++ r)) (hu : Derives .statement u) :
    ¬(s.stream.current.kind = .rbrace ∨ s.stream.current.kind = .eof) ∧
      s.advance.stream.tokens.length < s.stream.tokens.length := by
  obtain ⟨w, ws, rfl, hw⟩ := hu.statement_cons
  have hne : w.kind ≠ .rbrace ∧ w.kind ≠ .eof := by
    revert hw
    cases w.kind <;> decide
  obtain ⟨hk, -, hlt⟩ := hs.pass rfl hne.1
  rw [hk]
  exact ⟨not_or.mpr hne, hlt⟩

lemma Complete.statements (hexpr : Complete n) (hs : s.Ahead (v ++ w :: ws))
    (hv : Derives .program v) (hw : w.kind = .rbrace) (hn : s.stream.tokens.length ≤ n)
    (hm : s.stream.tokens.length ≤ m) :
    ∃ body t, statements (expression n) m s = .ok body t ∧ s.Reaches t ws := by
  have hR : ∀ v ∈ (w :: ws).head?, v.kind = .rbrace := by
    rintro v hv
    exact Option.some.inj hv ▸ hw
  induction m generalizing s v with
  | zero =>
    cases hv with
    | noStatements =>
      obtain ⟨hk, hs₁⟩ := hs.rbrace hw
      exact ⟨[], s, statements_stop hk 0, reaches_refl hs₁⟩
    | statements hu _ =>
      rw [List.append_assoc] at hs
      have := (current_of_statement hs hu).2
      omega
  | succ m ih =>
    cases hv with
    | noStatements =>
      obtain ⟨hk, hs₁⟩ := hs.rbrace hw
      exact ⟨[], s, statements_stop hk _, reaches_refl hs₁⟩
    | statements hu hv =>
      rw [List.append_assoc] at hs
      obtain ⟨hk, hlt⟩ := current_of_statement hs hu
      obtain ⟨stmt, t, v', hstmt, hv', ht⟩ := hexpr.statement hR hs hu hv hn
      have hlen := ht.length
      have hadv := t.length_advance
      obtain ⟨body, q, hbody, hq⟩ := ih ht.ahead hv' (by omega) (by omega)
      exact ⟨_, q, (statements_succ hk).mpr ⟨stmt, t, body, hstmt, hbody, rfl⟩,
        ht.trans hq.of_advance⟩

/-- A block behind the current token. -/
lemma Complete.block (hexpr : Complete n) {b : List Terminal} (ht : s.Reaches t (b ++ ws))
    (hb : Derives .block b) (hn : t.stream.tokens.length ≤ n) :
    t.stream.peek.kind = .lbrace ∧
      ∃ body q, Parser.statements (expression n) n t.advance.advance = .ok body q ∧
        s.Reaches q ws := by
  cases hb with
  | block hl hu hr =>
    rw [List.cons_append, List.append_assoc] at ht
    obtain ⟨hpeek, hopen⟩ := ht.pass hl nofun
    have hadv := t.length_advance_le
    have hadv' := t.advance.length_advance_le
    obtain ⟨body, q, hbody, hq⟩ := hexpr.statements hopen.ahead hu hr (m := n) (by omega) (by omega)
    exact ⟨hpeek, body, q, hbody, hopen.trans hq.of_advance⟩

lemma reaches_moreNames (ht : s.Reaches t (u ++ w :: ws)) (hu : Derives .moreNames u)
    (hw : w.kind = .rparen) (hm : t.advance.stream.tokens.length ≤ m) :
    ∃ names q, moreNames m t = .ok names q ∧ s.Reaches q (w :: ws) := by
  induction m generalizing t u with
  | zero =>
    cases hu with
    | noMoreNames =>
      obtain ⟨hk, -⟩ := ht.pass hw nofun
      exact ⟨[], t, moreNames_stop (by rw [hk]; nofun) 0, ht⟩
    | moreNames hc _ _ =>
      have := (ht.ahead.pass hc nofun).2.2
      omega
  | succ m ih =>
    cases hu with
    | noMoreNames =>
      obtain ⟨hk, -⟩ := ht.pass hw nofun
      exact ⟨[], t, moreNames_stop (by rw [hk]; nofun) _, ht⟩
    | moreNames hc hx hu =>
      obtain ⟨hcomma, ht₁⟩ := ht.pass hc nofun
      obtain ⟨hname, ht₂⟩ := ht₁.pass hx nofun
      have hlt := (ht.ahead.pass hc nofun).2.2
      have hadv := t.advance.advance.length_advance_le
      obtain ⟨names, q, hnames, hq⟩ := ih ht₂ hu (by omega)
      exact ⟨_, q, (moreNames_comma hcomma).mpr ⟨hname, names, hnames, rfl⟩, hq⟩

lemma reaches_params (ht : s.Reaches t (u ++ w :: ws)) (hu : Derives .names u)
    (hw : w.kind = .rparen) (hm : t.advance.stream.tokens.length ≤ m) :
    ∃ names q, params m t = .ok names q ∧ s.Reaches q ws := by
  cases hu with
  | noNames =>
    obtain ⟨hk, ht₁⟩ := ht.pass hw nofun
    exact ⟨[], _, params_rparen hk m, ht₁⟩
  | names hx hu =>
    obtain ⟨hname, ht₁⟩ := ht.pass hx nofun
    have hadv := t.advance.length_advance_le
    obtain ⟨names, q, hnames, hq⟩ := reaches_moreNames ht₁ hu hw (m := m) (by omega)
    obtain ⟨hk, hq₁⟩ := hq.pass hw nofun
    exact ⟨_, _, (params_eq_ok (by rw [hname]; nofun)).mpr
      ⟨hname, names, q, hnames, hk, rfl, rfl⟩, hq₁⟩

/-- What may follow an argument: more of them, and the parenthesis at their end. -/
def ArgRest (w : Terminal) (ws x : List Terminal) : Prop :=
  ∃ u, x = u ++ w :: ws ∧ Derives .moreArguments u

lemma absorbing_argRest (hw : w.kind = .rparen) : Absorbing (ArgRest w ws) := by
  refine absorbing_of_closing ?_
  rintro v vs ⟨u, hu, hmore⟩
  cases hmore with
  | noMoreArguments =>
    rw [(List.cons.inj hu).1, hw]
    exact List.mem_cons_self
  | moreArguments hc _ _ =>
    rw [(List.cons.inj hu).1, hc]
    exact List.mem_cons_of_mem _ List.mem_cons_self

lemma Complete.moreArgs (hexpr : Complete n) (ht : s.Reaches t (u ++ w :: ws))
    (hu : Derives .moreArguments u) (hw : w.kind = .rparen)
    (hn : t.advance.stream.tokens.length ≤ n) (hm : t.advance.stream.tokens.length ≤ m) :
    ∃ list q, moreArgs (expression n) m t = .ok list q ∧ s.Reaches q (w :: ws) := by
  induction m generalizing t u with
  | zero =>
    cases hu with
    | noMoreArguments =>
      obtain ⟨hk, -⟩ := ht.pass hw nofun
      exact ⟨[], t, moreArgs_stop (by rw [hk]; nofun) 0, ht⟩
    | moreArguments hc _ _ =>
      have := (ht.ahead.pass hc nofun).2.2
      omega
  | succ m ih =>
    cases hu with
    | noMoreArguments =>
      obtain ⟨hk, -⟩ := ht.pass hw nofun
      exact ⟨[], t, moreArgs_stop (by rw [hk]; nofun) _, ht⟩
    | moreArguments hc hu hmore =>
      rw [List.cons_append, List.append_assoc] at ht
      obtain ⟨hcomma, ht₁⟩ := ht.pass hc nofun
      have hlt := (ht.ahead.pass hc nofun).2.2
      obtain ⟨arg, r, _, harg, hr, ⟨x, rfl, hx⟩, -⟩ :=
        hexpr.whole (absorbing_argRest hw) ht₁.ahead hu ⟨_, rfl, hmore⟩ (by omega)
      have hlen := hr.length
      have hadv := r.length_advance_le
      obtain ⟨list, q, hlist, hq⟩ := ih (ht₁.trans hr.of_advance) hx (by omega) (by omega)
      exact ⟨_, q, (moreArgs_comma hcomma).mpr ⟨arg, r, list, harg, hlist, rfl⟩, hq⟩

lemma Complete.args (hexpr : Complete n) (ht : s.Reaches t (u ++ w :: ws))
    (hu : Derives .arguments u) (hw : w.kind = .rparen)
    (hn : t.advance.stream.tokens.length ≤ n) (hm : t.advance.stream.tokens.length ≤ m) :
    ∃ list q, args (expression n) m t = .ok list q ∧ s.Reaches q ws := by
  cases hu with
  | noArguments =>
    obtain ⟨hk, ht₁⟩ := ht.pass hw nofun
    exact ⟨[], _, args_rparen hk m, ht₁⟩
  | arguments hu hmore =>
    rw [List.append_assoc] at ht
    obtain ⟨arg, r, _, harg, hr, ⟨x, rfl, hx⟩, -⟩ :=
      hexpr.whole (absorbing_argRest hw) ht.ahead hu ⟨_, rfl, hmore⟩ hn
    have hlen := hr.length
    have hadv := r.length_advance_le
    obtain ⟨list, q, hlist, hq⟩ := hexpr.moreArgs (ht.trans hr.of_advance) hx hw (m := m)
      (by omega) (by omega)
    obtain ⟨hk, hq₁⟩ := hq.pass hw nofun
    obtain ⟨v, vs, rfl, hv⟩ := hu.expression_cons
    obtain ⟨hbrace, -, hparen, -, -⟩ := ne_of_mem_operandKinds _ hv
    rw [← ht.peek hbrace] at hparen
    exact ⟨_, _, (args_eq_ok hparen).mpr ⟨arg, r, list, q, harg, hlist, hk, rfl, rfl⟩, hq₁⟩

lemma Complete.branch (hexpr : Complete n) {a : List Terminal} (ht : s.Reaches t (a ++ ws))
    (ha : Derives .alternative a) (hws : NoElse ws) (hn : t.stream.tokens.length ≤ n) :
    ∃ no q, branch (expression n) n t = .ok no q ∧ s.Reaches q ws := by
  cases ha with
  | noAlternative =>
    have hpeek : t.stream.peek.kind ≠ .kwElse := ht.ahead.current_ne nofun nofun hws
    exact ⟨none, t, branch_stop hpeek n, ht⟩
  | alternative he hb =>
    obtain ⟨hk, ht₁⟩ := ht.pass he nofun
    have hadv := t.length_advance_le
    obtain ⟨hbrace, body, q, hbody, hq⟩ := hexpr.block ht₁ hb (by omega)
    exact ⟨_, q, (branch_else hk).mpr ⟨hbrace, body, hbody, rfl⟩, hq⟩

lemma operand_of_atom (hk : s.stream.current.kind ∈ atomKinds) {expr : Precedence → Parser Expr} :
    ∃ e, operand expr n s = .ok e s := by
  simp only [atomKinds, List.mem_cons, List.not_mem_nil, or_false] at hk
  rcases hk with hk | hk | hk | hk
  · exact ⟨_, operand_ident hk n⟩
  · exact ⟨_, operand_string hk n⟩
  · exact ⟨_, operand_true hk n⟩
  · exact ⟨_, operand_false hk n⟩

/-- A primary is read up to its last token; only an `else` behind it could be taken with it. -/
lemma Complete.primary (hexpr : Complete n) {p : List Terminal} (hs : s.Ahead (p ++ ws))
    (hp : Derives .primary p) (hws : NoElse ws) (hn : s.stream.tokens.length ≤ n + 1) :
    ∃ e t, operand (expression n) n s = .ok e t ∧ s.Reaches t ws := by
  cases hp with
  | @atom w hw =>
    have hbrace : w.kind ≠ .rbrace := by rintro hk; rw [hk] at hw; exact absurd hw (by decide)
    obtain ⟨e, he⟩ := operand_of_atom (n := n) (hs.kind hbrace ▸ hw)
    exact ⟨e, s, he, reaches_self hs hbrace⟩
  | int hw hvalue =>
    have hliteral := hs.literal (by rw [hw]; nofun)
    have hlt : digitsValue s.stream.current.literal < intBound := by
      rw [hliteral]
      exact Nat.lt_succ_of_le hvalue
    obtain ⟨hk, -⟩ := hs.pass hw nofun
    exact ⟨_, s, (operand_int hk).mpr ⟨hlt, rfl, rfl⟩, reaches_self hs (by rw [hw]; nofun)⟩
  | group hl hu hr =>
    rw [List.cons_append, List.append_assoc] at hs
    obtain ⟨hk, hs₁, hlt⟩ := hs.pass hl nofun
    obtain ⟨e, t, he, ht⟩ := hexpr.closed hs₁ hu hr (by omega)
    exact ⟨e, _, operand_of_grouped hk hr he ht⟩
  | cond hi hl hu hr hb ha =>
    simp only [List.cons_append, List.append_assoc] at hs
    obtain ⟨hk, hs₁, hlt₁⟩ := hs.pass hi nofun
    obtain ⟨hopen, hs₂, hlt₂⟩ := hs₁.pass hl nofun
    obtain ⟨test, t, htest, ht⟩ := hexpr.closed hs₂ hu hr (by omega)
    obtain ⟨hclose, ht₁⟩ := ht.pass hr nofun
    have hlen := ht.length
    have hadv := t.length_advance_le
    obtain ⟨hbrace, yes, q, hyes, hq⟩ := hexpr.block ht₁ hb (by omega)
    have hlen' := hq.length
    obtain ⟨no, v, hno, hv⟩ := hexpr.branch hq ha hws (by omega)
    refine ⟨.cond test yes no, v, ?_, hv.of_advance.of_advance⟩
    rw [operand_if hk]
    exact conditional_eq_ok.mpr
      ⟨hopen, test, t, htest, hclose, hbrace, yes, q, hyes, no, hno, rfl⟩
  | function hf hl hnames hr hb =>
    simp only [List.cons_append, List.append_assoc] at hs
    obtain ⟨hk, hs₁, hlt₁⟩ := hs.pass hf nofun
    obtain ⟨hopen, hs₂, hlt₂⟩ := hs₁.pass hl nofun
    obtain ⟨names, t, hnames, ht⟩ := reaches_params (reaches_refl hs₂) hnames hr (m := n) (by omega)
    have hlen := ht.length
    obtain ⟨hbrace, body, q, hbody, hq⟩ := hexpr.block ht hb (by omega)
    refine ⟨.function names body, q, ?_, hq.of_advance⟩
    rw [operand_fn hk]
    exact function_eq_ok.mpr ⟨hopen, names, t, hnames, hbrace, body, hbody, rfl⟩

lemma Complete.operand (hexpr : Complete n) {K : List Terminal → Prop} (hK : Absorbing K)
    {o : List Terminal} (hs : s.Ahead (o ++ r)) (ho : Derives .operand o) (hr : After K r)
    (hn : s.stream.tokens.length ≤ n + 1) :
    ∃ e t r', operand (expression n) n s = .ok e t ∧ s.Reaches t r' ∧ After K r' := by
  cases ho with
  | @unary w o hw ho =>
    have hbrace : w.kind ≠ .rbrace := by rintro hk; rw [hk] at hw; exact absurd hw (by decide)
    obtain ⟨hk, hs₁, hlt⟩ := hs.pass rfl hbrace
    obtain ⟨op, hop⟩ := mem_unaryKinds.mp (hk ▸ hw)
    have hmin : Precedence.unary < .call := by decide
    obtain ⟨inner, t, r', hinner, ht, hafter, -⟩ := hexpr hK hmin hs₁ ho hr (by omega)
    exact ⟨_, t, r', (operand_unary hop).mpr ⟨inner, hinner, rfl⟩, ht.of_advance, hafter⟩
  | applied hp hc =>
    rw [List.append_assoc] at hs
    have hafter := hr.calls hc
    obtain ⟨e, t, he, ht⟩ := hexpr.primary hs hp (hafter.noElse hK) hn
    exact ⟨e, t, _, he, ht, hafter⟩

/-- The loop takes calls and operators as long as they bind tighter than `min`. -/
lemma Complete.extend (hexpr : Complete n) {K : List Terminal → Prop} (hK : Absorbing K)
    {min : Precedence} (hmin : min < .call) (ht : s.Reaches t r) (hr : After K r)
    (hn : t.stream.tokens.length ≤ n + 1) (hm : t.advance.stream.tokens.length ≤ m)
    (left : Expr) :
    ∃ e q r', extend (expression n) min m left t = .ok e q ∧ s.Reaches q r' ∧ After K r' ∧
      Stops min r' := by
  induction m generalizing t r left with
  | zero =>
    by_cases hstop : Stops min r
    · exact ⟨left, t, r, extend_stop (hstop.not_lt ht.ahead) _ left, ht, hr, hstop⟩
    · obtain ⟨w, ws, -, -, -, hlt⟩ := exists_of_not_stops hstop ht.ahead
      omega
  | succ m ih =>
    by_cases hstop : Stops min r
    · exact ⟨left, t, r, extend_stop (hstop.not_lt ht.ahead) _ left, ht, hr, hstop⟩
    obtain ⟨w, ws, rfl, hlt, hpeek, hlen⟩ := exists_of_not_stops hstop ht.ahead
    have hadv := t.length_advance
    rcases kind_of_lt_ofKind hlt with hw | ⟨op, hop⟩
    · obtain ⟨c, x, hx, hc, hafter⟩ := hr.call_of_lparen hK hw
      rw [hx] at ht
      cases hc with
      | callArgs hl ha hp =>
        rw [List.cons_append, List.append_assoc] at ht
        obtain ⟨-, ht₁⟩ := ht.pass hl nofun
        obtain ⟨list, q, hlist, hq⟩ := hexpr.args (reaches_refl ht₁.ahead) ha hp (m := m)
          (by omega) (by omega)
        have hlen' := hq.length
        have hadv' := q.length_advance
        obtain ⟨e, z, r', hz⟩ := ih (ht₁.trans hq) hafter (by omega) (by omega) (.call left list)
        refine ⟨e, z, r', ?_, hz.2⟩
        rw [extend_call (hpeek.trans hw) hmin]
        exact bind_eq_ok.mpr ⟨list, q, argsOrNone_eq_ok.mpr (.inl hlist), hz.1⟩
    · obtain ⟨o, x, rfl, ho, hafter⟩ := hr.operand_of_binary hK (mem_binaryKinds.mpr ⟨op, hop⟩)
      rw [← hpeek] at hop hlt
      have htight := ofKind_lt_call _ (mem_binaryKinds.mpr ⟨op, hop⟩)
      have ht₁ := ht.next (w := w) (by rintro hk; rw [hpeek, hk] at hop; contradiction)
      obtain ⟨right, q, r', hright, hq, hr', -⟩ :=
        hexpr hK htight ht₁.ahead ho hafter (by omega)
      have hlen' := hq.length
      have hadv' := q.length_advance
      obtain ⟨e, z, r'', hz⟩ := ih (ht₁.trans hq.of_advance) hr' (by omega) (by omega)
        (.binary op left right)
      refine ⟨e, z, r'', ?_, hz.2⟩
      rw [extend_binary hop hlt]
      exact bind_eq_ok.mpr ⟨right, q, hright, hz.1⟩

theorem complete (n : Nat) : Complete n := by
  induction n with
  | zero =>
    intro K hK min hmin s o r hs ho hr hn
    obtain ⟨w, ws, rfl, hw⟩ := ho.operand_cons
    have := (hs.cons (ne_of_mem_operandKinds _ hw).1).2.2
    omega
  | succ n ih =>
    intro K hK min hmin s o r hs ho hr hn
    obtain ⟨left, t, r', hleft, ht, hafter⟩ := ih.operand hK hs ho hr hn
    have hlen := ht.length
    have hadv := t.length_advance
    obtain ⟨e, q, r'', hq⟩ := ih.extend hK hmin ht hafter (by omega) (m := n) (by omega) left
    refine ⟨e, q, r'', ?_, hq.2⟩
    rw [expression_of_operand hleft]
    exact hq.1

/-- A derivable program is read to its end, and nothing is recorded. -/
theorem errors_programUpTo (hs : s.Ahead v) (hv : Derives .program v)
    (hn : s.stream.tokens.length ≤ n) : (programUpTo n s).2.errors = s.errors := by
  induction n generalizing s v with
  | zero => rfl
  | succ n ih =>
    cases hv with
    | noStatements =>
      rw [programUpTo, if_pos hs.current_of_nil]
    | statements hu hv =>
      obtain ⟨hk, hlt⟩ := current_of_statement hs hu
      obtain ⟨stmt, t, v', hstmt, hv', ht⟩ := (complete (n + 1)).statement (r := []) (by simp)
        (by rwa [List.append_nil]) hu hv hn
      rw [List.append_nil] at ht
      have hlen := ht.length
      have hadv := t.length_advance
      rw [programUpTo, if_neg (not_or.mp hk).2, hstmt]
      exact (ih ht.ahead hv' (by omega)).trans ht.errors

end Parser

/-- The parser accepts exactly its grammar, but for blocks that the end of the input closes. -/
theorem errors_parse_eq_nil_iff (source : String) :
    (parse source).errors = [] ↔
      ∃ n, Derives .program ((TokenStream.ofSource source).terminals ++ closers n) := by
  have hproper : (State.ofStream (.ofSource source)).Proper :=
    ⟨rfl, fun t ht => Cursor.kind_ne_eof_of_mem_tokens _ ht⟩
  constructor
  · intro h
    obtain ⟨u, hu, hahead⟩ := exists_derives_of_errors_eq_nil hproper (Nat.le_refl _) h
    obtain ⟨k, rfl⟩ := hahead.closed
    exact ⟨k, hu⟩
  · rintro ⟨k, hk⟩
    exact errors_programUpTo ⟨rfl, k, rfl⟩ hk (Nat.le_refl _)

end Monkey
