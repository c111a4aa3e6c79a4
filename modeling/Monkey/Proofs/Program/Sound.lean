import Monkey.Proofs.Program.Ahead
import Monkey.Proofs.Program.Forward
import Monkey.Proofs.Program.Grammar

/-! What the parser reads without an error is derivable. Errors are only ever added, so where the
parser ends with none it has met none; and the end of the input stands for a closing brace. -/
open Monkey.Grammar Monkey.Parser

namespace Monkey
namespace Parser.State

/-- The input ends where the token for its end is found, and nowhere before. -/
structure Proper (s : State) : Prop where
  eof : s.stream.eof.kind = .eof
  tokens : ∀ t ∈ s.stream.tokens, t.kind ≠ .eof

variable {s t r : State} {u v ws : List Terminal}

lemma Proper.tokens_eq_nil (h : s.Proper) (hk : s.stream.current.kind = .eof) :
    s.stream.tokens = [] := by
  cases htokens : s.stream.tokens with
  | nil => rfl
  | cons tok rest =>
    have hcur : s.stream.current = tok := by rw [TokenStream.current, htokens, List.headD_cons]
    exact absurd (hcur ▸ hk) (h.tokens tok (by simp [htokens]))

lemma Proper.current_of_nil (h : s.Proper) (hs : s.stream.tokens = []) :
    s.stream.current.kind = .eof := by
  rw [TokenStream.current, hs]
  exact h.eof

/-- A token that is really there belongs to what lies ahead. -/
lemma Ahead.of_advance (h : s.advance.Ahead ws) (hk : s.stream.current.kind ≠ .eof) :
    s.Ahead (s.stream.current.terminal :: ws) := by
  obtain ⟨k, hclosed⟩ := h.closed
  refine ⟨h.eof, k, ?_⟩
  cases htokens : s.stream.tokens with
  | nil =>
    have hcur : s.stream.current = s.stream.eof := by rw [TokenStream.current, htokens]; rfl
    exact absurd (hcur ▸ h.eof) hk
  | cons tok rest =>
    rw [advance_stream, TokenStream.terminals, TokenStream.advance, htokens] at hclosed
    rw [TokenStream.terminals, TokenStream.current, htokens, List.map_cons, List.cons_append]
    exact congrArg (tok.terminal :: ·) hclosed

/-- At the end of the input a closing brace may be added to what lies ahead. -/
lemma Ahead.of_eof (h : s.advance.Ahead ws) (hs : s.stream.tokens = []) :
    s.Ahead (.of .rbrace :: ws) := by
  obtain ⟨k, hclosed⟩ := h.closed
  rw [advance_stream, TokenStream.terminals, TokenStream.advance, hs] at hclosed
  refine ⟨h.eof, k + 1, ?_⟩
  rw [TokenStream.terminals, hs, closers_succ]
  exact congrArg (Terminal.of .rbrace :: ·) hclosed

lemma Proper.moves (hs : s.Proper) (h : s.Moves t) : t.Proper :=
  ⟨h.eof ▸ hs.eof, fun tok htok => hs.tokens tok (h.tokens.subset htok)⟩

lemma Proper.advance (hs : s.Proper) : s.advance.Proper := hs.moves (.advance s)

/-- Between `s` and `t` the parser has read `u`, starting behind the current token of `s` and
ending with that of `t`. -/
def Takes (s t : State) (u : List Terminal) : Prop :=
  ∀ ws, t.advance.Ahead ws → s.advance.Ahead (u ++ ws)

lemma takes_self (s : State) : s.Takes s [] := fun _ h => h

lemma Takes.trans (h : s.Takes t u) (h' : t.Takes r v) : s.Takes r (u ++ v) := by
  intro ws hws
  rw [List.append_assoc]
  exact h _ (h' ws hws)

lemma takes_advance (hk : s.stream.peek.kind ≠ .eof) : s.Takes s.advance [s.stream.peek.terminal] :=
  fun _ hws => hws.of_advance hk

lemma Takes.of_advance (h : s.advance.Takes t u) (hk : s.stream.peek.kind ≠ .eof) :
    s.Takes t (s.stream.peek.terminal :: u) :=
  (takes_advance hk).trans h

/-- One more token, of a kind that is known. -/
lemma Takes.snoc {k : Token.Kind} (h : s.Takes t u) (hk : t.stream.peek.kind = k) (hne : k ≠ .eof) :
    s.Takes t.advance (u ++ [t.stream.peek.terminal]) :=
  h.trans (takes_advance (hk ▸ hne))

lemma takes_brace (hs : s.Proper)
    (hk : s.stream.peek.kind = .rbrace ∨ s.stream.peek.kind = .eof) :
    ∃ w : Terminal, w.kind = .rbrace ∧ s.Takes s.advance [w] := by
  rcases hk with hk | hk
  · exact ⟨_, hk, takes_advance (by rw [hk]; nofun)⟩
  · exact ⟨.of .rbrace, rfl, fun ws hws => hws.of_eof (hs.advance.tokens_eq_nil hk)⟩

lemma takes_skip (s : State) : ∃ e, Derives .ending e ∧ s.Takes (s.skip .semicolon) e := by
  rw [skip]
  split
  · next hk => exact ⟨_, .ending hk, takes_advance (by rw [hk]; decide)⟩
  · exact ⟨[], .noEnding, takes_self s⟩

@[simp] theorem skip_errors (s : State) (k : Token.Kind) : (s.skip k).errors = s.errors := by
  rw [skip]
  split <;> rfl

end Parser.State

namespace Parser

variable {s t : State} {n m : Nat}

lemma ne_eof_of_derives {w : Terminal} {u : List Terminal}
    (h : Derives .expression (w :: u)) : w.kind ≠ .eof := by
  obtain ⟨v, vs, heq, hv⟩ := h.expression_cons
  rw [List.cons.injEq] at heq
  rw [heq.1]
  exact (ne_of_mem_operandKinds _ hv).2.1

/-- Whatever is read as an expression is one, where the rounds suffice. -/
def Sound (n : Nat) : Prop :=
  ∀ ⦃min : Precedence⦄ ⦃s t : State⦄ ⦃e : Expr⦄, s.Proper → s.stream.tokens.length ≤ n →
    expression n min s = .ok e t → t.errors = [] →
    ∃ u, Derives .expression (s.stream.current.terminal :: u) ∧ s.Takes t u

lemma Sound.next (hexpr : Sound n) {min : Precedence} {e : Expr} (hs : s.Proper)
    (hn : s.advance.stream.tokens.length ≤ n) (h : expression n min s.advance = .ok e t)
    (ht : t.errors = []) : ∃ u, Derives .expression u ∧ s.Takes t u := by
  obtain ⟨u, hu, htakes⟩ := hexpr hs.advance hn h ht
  exact ⟨_, hu, htakes.of_advance (ne_eof_of_derives hu)⟩

lemma Sound.statement (hexpr : Sound n) {stmt : Stmt} (hs : s.Proper)
    (hn : s.stream.tokens.length ≤ n) (h : statement (expression n) s = .ok stmt t)
    (ht : t.errors = []) :
    ∃ u, Derives .statement (s.stream.current.terminal :: u) ∧ s.Takes t u := by
  have hlen := s.length_advance_le
  by_cases hlet : s.stream.current.kind = .kwLet
  · rw [statement_let hlet] at h
    obtain ⟨hname, hassign, value, r, hvalue, -, rfl⟩ := h
    rw [State.skip_errors] at ht
    have hlen₂ := s.advance.length_advance_le
    have hlen₃ := s.advance.advance.length_advance_le
    obtain ⟨u, hu, htakes⟩ := hexpr.next hs.advance.advance (by omega) hvalue ht
    obtain ⟨v, hv, hskip⟩ := r.takes_skip
    refine ⟨_, .define (x := s.stream.peek.terminal) (a := s.advance.stream.peek.terminal) hlet
      hname hassign hu hv, ?_⟩
    exact ((htakes.trans hskip).of_advance (by rw [hassign]; nofun)).of_advance
      (by rw [hname]; nofun)
  by_cases hreturn : s.stream.current.kind = .kwReturn
  · rw [statement_return hreturn] at h
    obtain ⟨value, r, hvalue, -, rfl⟩ := h
    rw [State.skip_errors] at ht
    obtain ⟨u, hu, htakes⟩ := hexpr.next hs (by omega) hvalue ht
    obtain ⟨v, hv, hskip⟩ := r.takes_skip
    exact ⟨_, .ret hreturn hu hv, htakes.trans hskip⟩
  · rw [statement_expr hlet hreturn] at h
    obtain ⟨value, r, hvalue, -, rfl⟩ := h
    rw [State.skip_errors] at ht
    obtain ⟨u, hu, htakes⟩ := hexpr hs hn hvalue ht
    obtain ⟨v, hv, hskip⟩ := r.takes_skip
    exact ⟨u ++ v, .expr hu hv, htakes.trans hskip⟩

/-- Statements are read up to a closing brace, or to the end of the input instead of it. -/
lemma Sound.statements (hexpr : Sound n) {body : List Stmt} (hs : s.Proper)
    (hn : s.advance.stream.tokens.length ≤ n) (hm : s.advance.stream.tokens.length ≤ m)
    (h : statements (expression n) m s.advance = .ok body t) (ht : t.errors = []) :
    ∃ u w, Derives .program u ∧ w.kind = .rbrace ∧ s.Takes t (u ++ [w]) := by
  induction m generalizing s body with
  | zero =>
    have hk := hs.advance.current_of_nil (List.length_eq_zero_iff.mp (Nat.le_zero.mp hm))
    rw [statements_stop (.inr hk), EStateM.Result.ok.injEq] at h
    obtain ⟨-, rfl⟩ := h
    obtain ⟨w, hw, htakes⟩ := State.takes_brace hs (.inr hk)
    exact ⟨[], w, .noStatements, hw, htakes⟩
  | succ m ih =>
    by_cases hk : s.advance.stream.current.kind = .rbrace ∨ s.advance.stream.current.kind = .eof
    · rw [statements_stop hk, EStateM.Result.ok.injEq] at h
      obtain ⟨-, rfl⟩ := h
      obtain ⟨w, hw, htakes⟩ := State.takes_brace hs hk
      exact ⟨[], w, .noStatements, hw, htakes⟩
    · rw [statements_succ hk] at h
      obtain ⟨stmt, r, rest, hstmt, hrest, -⟩ := h
      have hr : s.advance.Moves r := (Along.statement (Along.expression n)).of_ok hstmt
      have hrt : r.advance.Moves t := (Along.statements (Along.expression n) m).of_ok hrest
      have hlen := hr.length
      have hlen' := r.length_advance
      obtain ⟨u, hu, htakes⟩ := hexpr.statement hs.advance hn hstmt (hrt.clean ht)
      obtain ⟨v, w, hv, hw, htakes'⟩ := ih (hs.advance.moves hr) (by omega) (by omega) hrest
      refine ⟨_, w, .statements hu hv, hw, ?_⟩
      rw [List.append_assoc]
      exact (htakes.of_advance (not_or.mp hk).2).trans htakes'

lemma Sound.block (hexpr : Sound n) {body : List Stmt} (hs : s.Proper)
    (hn : s.advance.stream.tokens.length ≤ n) (hk : s.stream.peek.kind = .lbrace)
    (h : Parser.statements (expression n) n s.advance.advance = .ok body t) (ht : t.errors = []) :
    ∃ b, Derives .block b ∧ s.Takes t b := by
  have hlen := s.advance.length_advance_le
  obtain ⟨u, w, hu, hw, htakes⟩ := hexpr.statements hs.advance (by omega) (by omega) h ht
  exact ⟨_, .block hk hu hw, htakes.of_advance (by rw [hk]; nofun)⟩

lemma takes_moreNames {names : List String} (h : moreNames m s = .ok names t) :
    ∃ u, Derives .moreNames u ∧ s.Takes t u := by
  induction m generalizing s names with
  | zero =>
    obtain ⟨-, rfl⟩ := pure_eq_ok.mp h
    exact ⟨[], .noMoreNames, s.takes_self⟩
  | succ m ih =>
    by_cases hk : s.stream.peek.kind = .comma
    · rw [moreNames_comma hk] at h
      obtain ⟨hname, rest, hrest, -⟩ := h
      obtain ⟨u, hu, htakes⟩ := ih hrest
      refine ⟨_, .moreNames (c := s.stream.peek.terminal) (x := s.advance.stream.peek.terminal) hk
        hname hu, ?_⟩
      exact (htakes.of_advance (by rw [hname]; nofun)).of_advance (by rw [hk]; nofun)
    · rw [moreNames_stop hk, EStateM.Result.ok.injEq] at h
      obtain ⟨-, rfl⟩ := h
      exact ⟨[], .noMoreNames, s.takes_self⟩

lemma takes_params {names : List String} (h : params m s = .ok names t) :
    ∃ u w, Derives .names u ∧ w.kind = .rparen ∧ s.Takes t (u ++ [w]) := by
  by_cases hk : s.stream.peek.kind = .rparen
  · rw [params_rparen hk, EStateM.Result.ok.injEq] at h
    obtain ⟨-, rfl⟩ := h
    exact ⟨[], _, .noNames, hk, s.takes_self.snoc hk nofun⟩
  · rw [params_eq_ok hk] at h
    obtain ⟨hname, rest, r, hrest, hparen, -, rfl⟩ := h
    obtain ⟨u, hu, htakes⟩ := takes_moreNames hrest
    refine ⟨_, r.stream.peek.terminal, .names (x := s.stream.peek.terminal) hname hu, hparen, ?_⟩
    exact (htakes.of_advance (by rw [hname]; nofun)).snoc hparen nofun

lemma Sound.moreArgs (hexpr : Sound n) {list : List Expr} (hs : s.Proper)
    (hn : s.stream.tokens.length ≤ n) (h : moreArgs (expression n) m s = .ok list t)
    (ht : t.errors = []) : ∃ u, Derives .moreArguments u ∧ s.Takes t u := by
  induction m generalizing s list with
  | zero =>
    obtain ⟨-, rfl⟩ := pure_eq_ok.mp h
    exact ⟨[], .noMoreArguments, s.takes_self⟩
  | succ m ih =>
    by_cases hk : s.stream.peek.kind = .comma
    · rw [moreArgs_comma hk] at h
      obtain ⟨arg, r, rest, harg, hrest, -⟩ := h
      have hr : s.advance.advance.Moves r := (Along.expression n _).of_ok harg
      have hrt : r.Moves t := (Along.moreArgs (Along.expression n) m).of_ok hrest
      have hlen₁ := s.length_advance_le
      have hlen₂ := s.advance.length_advance_le
      have hlen₃ := hr.length
      obtain ⟨u, hu, htakes⟩ := hexpr.next hs.advance (by omega) harg (hrt.clean ht)
      obtain ⟨v, hv, htakes'⟩ := ih (hs.advance.advance.moves hr) (by omega) hrest
      exact ⟨_, .moreArguments hk hu hv, (htakes.trans htakes').of_advance (by rw [hk]; nofun)⟩
    · rw [moreArgs_stop hk, EStateM.Result.ok.injEq] at h
      obtain ⟨-, rfl⟩ := h
      exact ⟨[], .noMoreArguments, s.takes_self⟩

lemma Sound.args (hexpr : Sound n) {list : List Expr} (hs : s.Proper)
    (hn : s.stream.tokens.length ≤ n) (h : args (expression n) m s = .ok list t)
    (ht : t.errors = []) :
    ∃ u w, Derives .arguments u ∧ w.kind = .rparen ∧ s.Takes t (u ++ [w]) := by
  by_cases hk : s.stream.peek.kind = .rparen
  · rw [args_rparen hk, EStateM.Result.ok.injEq] at h
    obtain ⟨-, rfl⟩ := h
    exact ⟨[], _, .noArguments, hk, s.takes_self.snoc hk nofun⟩
  · rw [args_eq_ok hk] at h
    obtain ⟨arg, r, rest, q, harg, hrest, hparen, -, rfl⟩ := h
    have hr : s.advance.Moves r := (Along.expression n _).of_ok harg
    have hrq : r.Moves q := (Along.moreArgs (Along.expression n) m).of_ok hrest
    have hlen₁ := s.length_advance_le
    have hlen₂ := hr.length
    obtain ⟨u, hu, htakes⟩ := hexpr.next hs (by omega) harg (hrq.clean ht)
    obtain ⟨v, hv, htakes'⟩ := hexpr.moreArgs (hs.advance.moves hr) (by omega) hrest ht
    exact ⟨_, _, .arguments hu hv, hparen, (htakes.trans htakes').snoc hparen nofun⟩

/-- Where no error is left, the arguments of a call could be read. -/
lemma Sound.callArgs (hexpr : Sound n) {list : List Expr} (hs : s.Proper)
    (hn : s.advance.stream.tokens.length ≤ n) (hk : s.stream.peek.kind = .lparen)
    (h : argsOrNone (expression n) m s.advance = .ok list t) (ht : t.errors = []) :
    ∃ u, Derives .callArgs u ∧ s.Takes t u := by
  rcases argsOrNone_eq_ok.mp h with hargs | ⟨e, r, -, -, rfl⟩
  · obtain ⟨u, w, hu, hw, htakes⟩ := hexpr.args hs.advance hn hargs ht
    exact ⟨_, .callArgs hk hu hw, htakes.of_advance (by rw [hk]; nofun)⟩
  · exact absurd ht (List.append_ne_nil_of_right_ne_nil _ (List.cons_ne_nil _ _))

lemma Sound.branch (hexpr : Sound n) {no : Option Block} (hs : s.Proper)
    (hn : s.stream.tokens.length ≤ n) (h : branch (expression n) n s = .ok no t)
    (ht : t.errors = []) : ∃ a, Derives .alternative a ∧ s.Takes t a := by
  by_cases hk : s.stream.peek.kind = .kwElse
  · rw [branch_else hk] at h
    obtain ⟨hbrace, body, hbody, -⟩ := h
    have hlen₁ := s.length_advance_le
    have hlen₂ := s.advance.length_advance_le
    obtain ⟨b, hb, htakes⟩ := hexpr.block hs.advance (by omega) hbrace hbody ht
    exact ⟨_, .alternative hk hb, htakes.of_advance (by rw [hk]; nofun)⟩
  · rw [branch_stop hk, EStateM.Result.ok.injEq] at h
    obtain ⟨-, rfl⟩ := h
    exact ⟨[], .noAlternative, s.takes_self⟩

lemma Sound.grouped (hexpr : Sound n) {e : Expr} (hs : s.Proper)
    (hn : s.advance.stream.tokens.length ≤ n) (hk : s.stream.current.kind = .lparen)
    (h : grouped (expression n) s = .ok e t) (ht : t.errors = []) :
    ∃ u, Derives .primary (s.stream.current.terminal :: u) ∧ s.Takes t u := by
  obtain ⟨r, hinner, hparen, rfl⟩ := grouped_eq_ok.mp h
  obtain ⟨u, hu, htakes⟩ := hexpr.next hs hn hinner ht
  exact ⟨_, .group hk hu hparen, htakes.snoc hparen nofun⟩

lemma Sound.conditional (hexpr : Sound n) {e : Expr} (hs : s.Proper)
    (hn : s.advance.stream.tokens.length ≤ n) (hk : s.stream.current.kind = .kwIf)
    (h : conditional (expression n) n s = .ok e t) (ht : t.errors = []) :
    ∃ u, Derives .primary (s.stream.current.terminal :: u) ∧ s.Takes t u := by
  obtain ⟨hopen, test, r, htest, hclose, hbrace, yes, q, hyes, no, hno, -⟩ :=
    conditional_eq_ok.mp h
  have hr : s.advance.advance.Moves r := (Along.expression n _).of_ok htest
  have hrq : r.advance.Moves q := ((State.Moves.advance _).trans (.advance _)).trans
    ((Along.statements (Along.expression n) n).of_ok hyes)
  have hqt : q.Moves t := (Along.branch (Along.expression n) n).of_ok hno
  have hlen₁ := s.advance.length_advance_le
  have hlen₂ := hr.length
  have hlen₃ := r.length_advance_le
  have hlen₄ := r.advance.length_advance_le
  have hlen₅ := hrq.length
  have hrs := (hs.advance.advance.moves hr).advance
  have hq := hqt.clean ht
  obtain ⟨u, hu, htest⟩ := hexpr.next hs.advance (by omega) htest (hrq.clean hq)
  obtain ⟨b, hb, hyes⟩ := hexpr.block hrs (by omega) hbrace hyes hq
  obtain ⟨a, ha, hno⟩ := hexpr.branch (hrs.moves hrq) (by omega) hno ht
  refine ⟨_, .cond (l := s.stream.peek.terminal) (r := r.stream.peek.terminal) hk hopen hu hclose
    hb ha, ?_⟩
  have htail := (hyes.trans hno).of_advance (by rw [hclose]; nofun)
  exact (htest.trans htail).of_advance (by rw [hopen]; nofun)

lemma Sound.function (hexpr : Sound n) {e : Expr} (hs : s.Proper)
    (hn : s.advance.stream.tokens.length ≤ n) (hk : s.stream.current.kind = .kwFn)
    (h : function (expression n) n s = .ok e t) (ht : t.errors = []) :
    ∃ u, Derives .primary (s.stream.current.terminal :: u) ∧ s.Takes t u := by
  obtain ⟨hopen, names, r, hnames, hbrace, body, hbody, -⟩ := function_eq_ok.mp h
  have hr : s.advance.Moves r := (Along.params n).of_ok hnames
  have hlen₁ := hr.length
  have hlen₂ := r.length_advance_le
  obtain ⟨u, w, hu, hw, hnames⟩ := takes_params hnames
  obtain ⟨b, hb, hbody⟩ := hexpr.block (hs.advance.moves hr) (by omega) hbrace hbody ht
  refine ⟨_, .function (l := s.stream.peek.terminal) hk hopen hu hw hb, ?_⟩
  have htail := hnames.trans hbody
  rw [List.append_assoc] at htail
  exact htail.of_advance (by rw [hopen]; nofun)

/-- A token that is an operand by itself. -/
lemma takes_atom {e e' : Expr} (hk : s.stream.current.kind ∈ atomKinds)
    (h : (.ok e s : EStateM.Result ParseError State Expr) = .ok e' t) :
    ∃ u, Derives .primary (s.stream.current.terminal :: u) ∧ s.Takes t u := by
  rw [EStateM.Result.ok.injEq] at h
  obtain ⟨-, rfl⟩ := h
  exact ⟨[], .atom hk, s.takes_self⟩

/-- What comes before the loop over operators and calls. -/
lemma Sound.operand (hexpr : Sound n) {e : Expr} (hs : s.Proper)
    (hn : s.stream.tokens.length ≤ n + 1) (h : operand (expression n) n s = .ok e t)
    (ht : t.errors = []) :
    ∃ u, Derives .expression (s.stream.current.terminal :: u) ∧ s.Takes t u := by
  have hlen := s.length_advance
  rcases kind_of_operand_eq_ok h with ⟨op, hop⟩ | hk
  · obtain ⟨inner, hinner, -⟩ := (operand_unary hop).mp h
    obtain ⟨u, hu, htakes⟩ := hexpr.next hs (by omega) hinner ht
    exact ⟨u, hu.expression_unary (mem_unaryKinds.mpr ⟨op, hop⟩), htakes⟩
  · suffices ∃ u, Derives .primary (s.stream.current.terminal :: u) ∧ s.Takes t u by
      obtain ⟨u, hu, htakes⟩ := this
      exact ⟨u, hu.of_primary, htakes⟩
    simp only [List.mem_cons, List.not_mem_nil, or_false] at hk
    rcases hk with hk | hk | hk | hk | hk | hk | hk | hk
    · exact takes_atom (by rw [hk]; decide) (operand_ident hk n ▸ h)
    · obtain ⟨hvalue, -, rfl⟩ := (operand_int hk).mp h
      exact ⟨[], .int hk (Nat.le_of_lt_succ hvalue), t.takes_self⟩
    · exact takes_atom (by rw [hk]; decide) (operand_string hk n ▸ h)
    · exact takes_atom (by rw [hk]; decide) (operand_true hk n ▸ h)
    · exact takes_atom (by rw [hk]; decide) (operand_false hk n ▸ h)
    · exact hexpr.grouped hs (by omega) hk (operand_lparen hk n ▸ h) ht
    · exact hexpr.conditional hs (by omega) hk (operand_if hk n ▸ h) ht
    · exact hexpr.function hs (by omega) hk (operand_fn hk n ▸ h) ht

/-- The loop over operators and calls makes a longer expression of any expression. -/
lemma Sound.extend (hexpr : Sound n) {min : Precedence} {left e : Expr} (hs : s.Proper)
    (hn : s.stream.tokens.length ≤ n + 1) (h : extend (expression n) min m left s = .ok e t)
    (ht : t.errors = []) :
    ∃ v, (∀ u, Derives .expression u → Derives .expression (u ++ v)) ∧ s.Takes t v := by
  induction m generalizing s left with
  | zero =>
    obtain ⟨-, rfl⟩ := pure_eq_ok.mp h
    exact ⟨[], fun u hu => by rwa [List.append_nil], s.takes_self⟩
  | succ m ih =>
    have hlen₁ := s.length_advance
    have hlen₂ := s.advance.length_advance_le
    by_cases hmin : min < .ofKind s.stream.peek.kind
    · rcases kind_of_lt_ofKind hmin with hk | ⟨op, hop⟩
      · rw [extend_call hk (by rwa [hk] at hmin), bind_eq_ok] at h
        obtain ⟨list, r, hargs, hrest⟩ := h
        have hr : s.advance.Moves r := (Forward.argsOrNone (Along.expression n) m).of_ok hargs
        have hrt : r.Moves t := (Along.extend (Along.expression n) min m _).of_ok hrest
        have hlen₃ := hr.length
        obtain ⟨v, hv, htakes⟩ := hexpr.callArgs hs (by omega) hk hargs (hrt.clean ht)
        obtain ⟨w, hw, htakes'⟩ := ih (hs.advance.moves hr) (by omega) hrest
        refine ⟨v ++ w, fun u hu => ?_, htakes.trans htakes'⟩
        rw [← List.append_assoc]
        exact hw _ (hu.expression_append (.inl hv))
      · rw [extend_binary hop hmin, bind_eq_ok] at h
        obtain ⟨right, r, hright, hrest⟩ := h
        have hr : s.advance.advance.Moves r := (Along.expression n _).of_ok hright
        have hrt : r.Moves t := (Along.extend (Along.expression n) min m _).of_ok hrest
        have hlen₃ := hr.length
        obtain ⟨v, hv, htakes⟩ := hexpr.next hs.advance (by omega) hright (hrt.clean ht)
        obtain ⟨w, hw, htakes'⟩ := ih (hs.advance.advance.moves hr) (by omega) hrest
        have hkind : s.stream.peek.kind ∈ binaryKinds := mem_binaryKinds.mpr ⟨op, hop⟩
        refine ⟨s.stream.peek.terminal :: (v ++ w), fun u hu => ?_, ?_⟩
        · rw [← List.cons_append, ← List.append_assoc]
          exact hw _ (hu.expression_append (.inr ⟨_, v, rfl, hkind, hv⟩))
        · exact (htakes.trans htakes').of_advance (by rintro hk; rw [hk] at hop; contradiction)
    · rw [extend_stop hmin, EStateM.Result.ok.injEq] at h
      obtain ⟨-, rfl⟩ := h
      exact ⟨[], fun u hu => by rwa [List.append_nil], s.takes_self⟩

theorem sound (n : Nat) : Sound n := by
  induction n with
  | zero =>
    intro min s t e _ _ h
    exact absurd h noOperand_ne_ok
  | succ n ih =>
    intro min s t e hs hn h ht
    obtain ⟨left, r, hleft, hrest⟩ := bind_eq_ok.mp h
    have hr : s.Moves r := (Along.operand (Along.expression n) n).of_ok hleft
    have hrt : r.Moves t := (Along.extend (Along.expression n) min n left).of_ok hrest
    have hlen := hr.length
    obtain ⟨u, hu, htakes⟩ := ih.operand hs hn hleft (hrt.clean ht)
    obtain ⟨v, hv, htakes'⟩ := ih.extend (hs.moves hr) (by omega) hrest ht
    exact ⟨u ++ v, hv _ hu, htakes.trans htakes'⟩

/-- A program read to the end with no error is derivable, but for closing braces at its end. -/
theorem exists_derives_of_errors_eq_nil (hs : s.Proper) (hn : s.stream.tokens.length ≤ n)
    (h : (programUpTo n s).2.errors = []) : ∃ u, Derives .program u ∧ s.Ahead u := by
  induction n generalizing s with
  | zero =>
    have htokens : s.stream.tokens = [] := List.length_eq_zero_iff.mp (Nat.le_zero.mp hn)
    exact ⟨[], .noStatements, hs.eof, 0, by rw [TokenStream.terminals, htokens]; rfl⟩
  | succ n ih =>
    rw [programUpTo] at h
    split at h
    · next hk =>
      have htokens := hs.tokens_eq_nil hk
      exact ⟨[], .noStatements, hs.eof, 0, by rw [TokenStream.terminals, htokens]; rfl⟩
    next hk =>
    split at h
    · next stmt t hstmt =>
      have hst : s.Moves t := (Along.statement (Along.expression (n + 1))).of_ok hstmt
      have hlen := hst.length
      have hlen' := t.length_advance
      have ht : t.errors = [] := (moves_programUpTo n t.advance).clean h
      obtain ⟨u, hu, htakes⟩ := (sound (n + 1)).statement hs hn hstmt ht
      obtain ⟨v, hv, hahead⟩ := ih (hs.moves hst).advance (by omega) h
      exact ⟨_, .statements hu hv, (htakes v hahead).of_advance hk⟩
    · next e t hstmt =>
      have ht := (moves_programUpTo n (t.record e).advance).clean h
      exact absurd ht (List.append_ne_nil_of_right_ne_nil _ (List.cons_ne_nil _ _))

end Parser
end Monkey
