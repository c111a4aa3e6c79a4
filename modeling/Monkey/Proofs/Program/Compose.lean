import Monkey.Proofs.Program.Brackets
import Monkey.Proofs.Program.Parallel
import Monkey.Proofs.Token.Append

/-! Two texts read as one. The first has to be complete and to end with a semicolon: then none of
its statements looks at what follows, and the second is read as if it stood alone. -/
open Monkey.Grammar Monkey.Parser Monkey.Parser.State

namespace Monkey

/-- The same error, `d` bytes further on. -/
def ParseError.shift (d : Nat) : ParseError → ParseError
  | unexpected expected got span => .unexpected expected got (span.shift d)
  | noOperand got span => .noOperand got (span.shift d)
  | intOutOfRange literal span => .intOutOfRange literal (span.shift d)

lemma ParseError.Alike.eq_shift {d : Nat} {e e' : ParseError}
    (h : e.Alike (fun t t' => t.shift d = t') e') : e.shift d = e' := by
  cases h with
  | unexpected k h | noOperand h | intOutOfRange h =>
    subst h
    rfl

namespace Parser

variable {s s' r t : State} {n n' : Nat} {R : List Token}

/-- The tokens `R` stand behind those of the first state. -/
structure Precedes (R : List Token) (s s' : State) : Prop where
  eof : s.stream.eof.kind = .eof ∧ s'.stream.eof.kind = .eof
  tokens : s'.stream.tokens = s.stream.tokens ++ R
  errors : s.errors = s'.errors

lemma Precedes.current (h : Precedes R s s') (hs : s.stream.tokens ≠ []) :
    s.stream.current = s'.stream.current := by
  obtain ⟨t, ts, ht⟩ := List.exists_cons_of_ne_nil hs
  rw [TokenStream.current, TokenStream.current, h.tokens, ht]
  rfl

lemma Precedes.advance (h : Precedes R s s') (hs : s.stream.tokens ≠ []) :
    Precedes R s.advance s'.advance := by
  refine ⟨h.eof, ?_, h.errors⟩
  obtain ⟨t, ts, ht⟩ := List.exists_cons_of_ne_nil hs
  simp [TokenStream.advance, h.tokens, ht]

lemma tokens_ne_nil_of_advance (hs : s.advance.stream.tokens ≠ []) : s.stream.tokens ≠ [] := by
  intro hnil
  exact hs (by simp [TokenStream.advance, hnil])

lemma Precedes.peek (h : Precedes R s s') (hs : s.advance.stream.tokens ≠ []) :
    s.stream.peek = s'.stream.peek :=
  (h.advance (tokens_ne_nil_of_advance hs)).current hs

/-- The same semicolon is passed, or none. -/
lemma Precedes.skip (h : Precedes R s s') (hs : s.advance.stream.tokens ≠ []) (k : Token.Kind) :
    Precedes R (s.skip k).advance (s'.skip k).advance := by
  have hnext := h.advance (tokens_ne_nil_of_advance hs)
  rw [State.skip, State.skip, ← h.peek hs]
  split
  · exact hnext.advance hs
  · exact hnext

/-- A run that has two tokens left sees nothing of what stands behind them. -/
def preceding (R : List Token) : Lockstep where
  states := Precedes R
  tokens := Eq
  lost s := s.advance.stream.tokens = []
  lost_of_moves {s t} h hs := by
    have hlen := h.length
    have hadv := s.length_advance
    have hadv' := t.length_advance
    rw [← List.length_eq_zero_iff] at hs ⊢
    omega
  eof := Precedes.eof
  total _ := exists_eq'
  alike := alike_of_eq
  current h := or_iff_not_imp_left.mpr fun hs => h.current (tokens_ne_nil_of_advance hs)
  peek h := or_iff_not_imp_left.mpr h.peek
  advance h := or_iff_not_imp_left.mpr fun hs => h.advance (tokens_ne_nil_of_advance hs)
  record h he := ⟨h.eof, h.tokens, congrArg₂ (· ++ [·]) h.errors he.eq⟩

section
variable {expr : Precedence → Parser Expr} {stmt : Stmt}

lemma clause_let (h : s.stream.current.kind = .kwLet) : clause expr s = .ok stmt r →
    s.stream.peek.kind = .ident ∧ s.advance.stream.peek.kind = .assign ∧
      ∃ value, expr .lowest s.advance.advance.advance = .ok value r := by
  simp only [clause, bind_current, h, expectName_eq_ok, expect_eq_ok, bind_advance, bind_eq_ok,
    pure_eq_ok]
  grind

lemma clause_return (h : s.stream.current.kind = .kwReturn) : clause expr s = .ok stmt r →
    ∃ value, expr .lowest s.advance = .ok value r := by
  simp only [clause, bind_current, h, bind_advance, bind_eq_ok, pure_eq_ok]
  grind

lemma clause_expr (hlet : s.stream.current.kind ≠ .kwLet)
    (hreturn : s.stream.current.kind ≠ .kwReturn) : clause expr s = .ok stmt r →
      ∃ value, expr .lowest s = .ok value r := by
  simp only [clause, bind_current, bind_eq_ok, pure_eq_ok]
  grind

lemma statement_eq_ok : statement expr s = .ok stmt t ↔
    ∃ r, clause expr s = .ok stmt r ∧ r.skip .semicolon = t := by
  simp only [statement_eq, bind_eq_ok, skip_eq_ok, pure_eq_ok]
  grind

end

/-- What is read of a statement before its semicolon is a statement too, without one. -/
lemma Sound.clause (hexpr : Sound n) {stmt : Stmt} (hs : s.Proper)
    (hn : s.stream.tokens.length ≤ n) (h : clause (expression n) s = .ok stmt r)
    (hr : r.errors = []) : ∃ u, Derives .statement (s.stream.current.terminal :: u) ∧
      Unended (s.stream.current.terminal :: u) ∧ s.Takes r u := by
  have hlen := s.length_advance_le
  by_cases hlet : s.stream.current.kind = .kwLet
  · obtain ⟨hname, hassign, value, hvalue⟩ := clause_let hlet h
    have hlen₂ := s.advance.length_advance_le
    have hlen₃ := s.advance.advance.length_advance_le
    obtain ⟨u, hu, htakes⟩ := hexpr.next hs.advance.advance (by omega) hvalue hr
    have hstmt := Derives.define (l := s.stream.current.terminal) (x := s.stream.peek.terminal)
      (a := s.advance.stream.peek.terminal) hlet hname hassign hu .noEnding
    rw [List.append_nil] at hstmt
    have hunended : Unended (s.stream.current.terminal :: s.stream.peek.terminal ::
        s.advance.stream.peek.terminal :: u) :=
      .cons hlet nofun (.cons hname nofun (.cons hassign nofun (hu.unended (by decide))))
    have hnext := (htakes.of_advance (by rw [hassign]; nofun)).of_advance (by rw [hname]; nofun)
    exact ⟨_, hstmt, hunended, hnext⟩
  by_cases hreturn : s.stream.current.kind = .kwReturn
  · obtain ⟨value, hvalue⟩ := clause_return hreturn h
    obtain ⟨u, hu, htakes⟩ := hexpr.next hs (by omega) hvalue hr
    have hstmt := Derives.ret (r := s.stream.current.terminal) hreturn hu .noEnding
    rw [List.append_nil] at hstmt
    exact ⟨u, hstmt, .cons hreturn nofun (hu.unended (by decide)), htakes⟩
  · obtain ⟨value, hvalue⟩ := clause_expr hlet hreturn h
    obtain ⟨u, hu, htakes⟩ := hexpr hs hn hvalue hr
    have hstmt := Derives.expr hu .noEnding
    rw [List.append_nil] at hstmt
    exact ⟨u, hstmt, hu.unended (by decide), htakes⟩

/-- Where all brackets are closed, a statement takes its tokens from those that are there. -/
lemma terminals_of_takes {u : List Terminal} (hkind : s.stream.current.kind ≠ .eof) (ht : t.Proper)
    (hu : weight (s.stream.current.terminal :: u) = 0) (htakes : s.Takes t u)
    (hclosed : weight s.stream.terminals = 0) (hrest : 0 ≤ weight t.advance.stream.terminals) :
    s.stream.terminals = s.stream.current.terminal :: (u ++ t.advance.stream.terminals) ∧
      weight t.advance.stream.terminals = 0 := by
  have hahead := (htakes t.advance.stream.terminals ⟨ht.eof, 0, List.append_nil _⟩).of_advance hkind
  obtain ⟨k, hk⟩ := hahead.closed
  have hweight := congrArg weight hk
  rw [← List.cons_append, weight_append, weight_append, weight_closers, hu, hclosed] at hweight
  obtain rfl : k = 0 := by omega
  exact ⟨by simpa [closers] using hk, by omega⟩

/-- A text that ends with a semicolon, if it has any tokens. -/
def Ended (s : State) : Prop := ∀ t ∈ s.stream.tokens.getLast?, t.kind = .semicolon

lemma Ended.moves (h : Ended s) (hmoves : s.Moves t) : Ended t := by
  intro tok htok
  obtain ⟨before, hbefore⟩ := hmoves.tokens
  refine h tok ?_
  rw [← hbefore, List.getLast?_append, Option.mem_def.mp htok]
  rfl

lemma Ended.not_unended (h : Ended s) (hs : s.stream.tokens ≠ []) :
    ¬Unended s.stream.terminals := by
  intro hunended
  refine hunended (s.stream.tokens.getLast hs).terminal ?_ (h _ (List.getLast?_eq_some_getLast hs))
  rw [TokenStream.terminals, List.getLast?_map, List.getLast?_eq_some_getLast hs]
  rfl

/-- Behind the clause of a statement there is another token: its semicolon, or a token of the next
statement. -/
lemma advance_of_clause {stmt : Stmt} (hs : s.Proper) (hn : s.stream.tokens.length ≤ n)
    (hclosed : weight s.stream.terminals = 0) (hended : Ended s)
    (hclause : clause (expression n) s = .ok stmt r) (hr : r.errors = [])
    (hrest : 0 ≤ weight (r.skip .semicolon).advance.stream.terminals) :
    r.advance.stream.tokens ≠ [] ∧ weight (r.skip .semicolon).advance.stream.terminals = 0 := by
  obtain ⟨u, hu, hunended, htakes⟩ := (sound n).clause hs hn hclause hr
  have hrs : r.Proper :=
    hs.moves ((Along.clause (Along.expression n)).of_ok hclause)
  have hkind : s.stream.current.kind ≠ .eof := by
    obtain ⟨w, ws, hcons, hw⟩ := hu.statement_cons
    have hne : ∀ k ∈ statementKinds, k ≠ .eof := by decide
    exact hne s.stream.current.terminal.kind ((List.cons.inj hcons).1 ▸ hw)
  rw [State.skip] at hrest ⊢
  split at hrest
  · next hk =>
    have hnext : r.advance.stream.tokens ≠ [] := fun hnil =>
      absurd (hk.symm.trans (hrs.advance.current_of_nil hnil)) (by decide)
    have hweight : weight (s.stream.current.terminal :: (u ++ [r.stream.peek.terminal])) = 0 := by
      rw [← List.cons_append, weight_append, hu.weight_eq_zero]
      simp [Token.terminal, hk, Repl.bracketWeight]
    rw [if_pos hk]
    exact ⟨hnext, (terminals_of_takes hkind hrs.advance hweight (htakes.snoc hk (by decide)) hclosed
      hrest).2⟩
  · next hk =>
    rw [if_neg hk]
    obtain ⟨hterminals, hweight⟩ :=
      terminals_of_takes hkind hrs hu.weight_eq_zero htakes hclosed hrest
    refine ⟨fun hnil => ?_, hweight⟩
    have hcons : s.stream.tokens ≠ [] := fun hs' => hkind (hs.current_of_nil hs')
    rw [show r.advance.stream.terminals = [] from congrArg (List.map Token.terminal) hnil,
      List.append_nil] at hterminals
    exact hended.not_unended hcons (hterminals ▸ hunended)

/-- A statement of a complete text that ends with a semicolon is read without a look at what
stands behind the text. -/
lemma Precedes.exists_statement {stmt : Stmt} (h : Precedes R s s') (hs : s.Proper)
    (hn : s.stream.tokens.length ≤ n) (hn' : s'.stream.tokens.length ≤ n')
    (hclosed : weight s.stream.terminals = 0) (hended : Ended s)
    (hstmt : statement (expression n) s = .ok stmt t) (ht : t.errors = [])
    (hrest : 0 ≤ weight t.advance.stream.terminals) :
    weight t.advance.stream.terminals = 0 ∧
      ∃ t', statement (expression n') s' = .ok stmt t' ∧ Precedes R t.advance t'.advance := by
  obtain ⟨r, hclause, rfl⟩ := statement_eq_ok.mp hstmt
  rw [skip_errors] at ht
  obtain ⟨hnext, hweight⟩ := advance_of_clause hs hn hclosed hended hclause ht hrest
  have htogether : (preceding R).Together n n' (clause (expression n)) (clause (expression n')) :=
    .clause (.expression (Nat.le_refl n) (Nat.le_refl n'))
  have hout := htogether.outcome (Nat.le_refl n) (Nat.le_refl n') ⟨h, hn, hn'⟩
  rw [hclause] at hout
  have hout := hout.resolve_left hnext
  generalize hx' : clause (expression n') s' = x' at hout
  cases hout with
  | ok _ hr =>
    exact ⟨hweight, _, statement_eq_ok.mpr ⟨_, hx', rfl⟩, Precedes.skip hr.states hnext _⟩

/-- From `s'` the program of `s` is read, and then that of the tokens `R`. -/
def Continues (R : List Token) (n n' : Nat) (s s' : State) : Prop :=
  ∃ m, R.length ≤ m ∧ programUpTo n' s' =
    ((programUpTo n s).1 ++ (programUpTo m ⟨⟨R, s'.stream.eof⟩, []⟩).1,
      (programUpTo m ⟨⟨R, s'.stream.eof⟩, []⟩).2)

/-- Where the first text ends, what stands behind it is left. -/
lemma Precedes.continues_of_nil (h : Precedes R s s') (hs : s.Proper)
    (hn' : s'.stream.tokens.length ≤ n') (hclean : (programUpTo n s).2.errors = [])
    (hnil : s.stream.tokens = []) : Continues R n n' s s' := by
  have hstate : s' = ⟨⟨R, s'.stream.eof⟩, []⟩ := by
    have herrors := h.errors.symm.trans ((moves_programUpTo n s).clean hclean)
    have htokens := h.tokens
    rw [hnil, List.nil_append] at htokens
    obtain ⟨⟨tokens, eof⟩, errors⟩ := s'
    exact congrArg₂ State.mk (congrArg (TokenStream.mk · eof) htokens) herrors
  refine ⟨n', ?_, ?_⟩
  · rwa [h.tokens, hnil, List.nil_append] at hn'
  · rw [← hstate, programUpTo_of_eof (hs.current_of_nil hnil), List.nil_append]

/-- A complete text that ends with a semicolon is read first, and then what stands behind it. -/
theorem Precedes.continues (h : Precedes R s s') (hs : s.Proper)
    (hn : s.stream.tokens.length ≤ n) (hn' : s'.stream.tokens.length ≤ n')
    (hclosed : weight s.stream.terminals = 0) (hended : Ended s)
    (hclean : (programUpTo n s).2.errors = []) : Continues R n n' s s' := by
  induction n generalizing n' s s' with
  | zero => exact h.continues_of_nil hs hn' hclean (List.length_eq_zero_iff.mp (Nat.le_zero.mp hn))
  | succ n ih =>
    by_cases hk : s.stream.current.kind = .eof
    · exact h.continues_of_nil hs hn' hclean (hs.tokens_eq_nil hk)
    have hne : s.stream.tokens ≠ [] := fun hnil => hk (hs.current_of_nil hnil)
    have hk' : s'.stream.current.kind ≠ .eof := h.current hne ▸ hk
    obtain ⟨n', rfl⟩ := exists_eq_succ h.eof.2 hk' hn'
    cases hstmt : statement (expression (n + 1)) s with
    | error e t =>
      rw [programUpTo_of_error hk hstmt] at hclean
      exact absurd hclean (errors_record_ne_nil n t e)
    | ok stmt t =>
      rw [programUpTo_of_ok hk hstmt] at hclean
      have hmoves : s.Moves t := (Along.statement (Along.expression (n + 1))).of_ok hstmt
      have hlen := hmoves.length
      have hadv := t.length_advance
      have ht := (hs.moves hmoves).advance
      obtain ⟨d, hd, -⟩ := exists_weight_eq ht (by omega) hclean
      have herrors : t.errors = [] := (moves_programUpTo n t.advance).clean hclean
      obtain ⟨hweight, t', hstmt', hrest⟩ :=
        h.exists_statement hs hn hn' hclosed hended hstmt herrors (by omega)
      have hmoves' : s'.Moves t' := (Along.statement (Along.expression (n' + 1))).of_ok hstmt'
      have hlen' := hmoves'.length
      have hadv' := t'.length_advance
      have hcontinues : Continues R n n' t.advance t'.advance := ih hrest ht (by omega) (by omega)
        hweight (hended.moves (hmoves.trans (.advance t))) hclean
      obtain ⟨m, hm, hprogram⟩ := hcontinues
      refine ⟨m, hm, ?_⟩
      rw [programUpTo_of_ok hk' hstmt', programUpTo_of_ok hk hstmt, hprogram, ← hmoves'.eof]
      rfl

end Parser

lemma TokenStream.current_shift (d : Nat) (s : TokenStream) :
    (s.shift d).current = s.current.shift d := by
  rw [shift, current, current]
  cases s.tokens <;> rfl

lemma TokenStream.drop_shift (d i : Nat) (s : TokenStream) :
    (s.shift d).drop i = (s.drop i).shift d := by
  simp [shift, drop]

/-- Reading does not depend on where a text stands, but for the places of its errors. -/
lemma programUpTo_shift (d : Nat) (stream : TokenStream) (heof : stream.eof.kind = .eof) {n m : Nat}
    (hn : stream.tokens.length ≤ n) (hm : stream.tokens.length ≤ m) :
    (programUpTo n ⟨stream.shift d, []⟩).1 = (programUpTo m ⟨stream, []⟩).1 ∧
      (programUpTo n ⟨stream.shift d, []⟩).2.errors =
        (programUpTo m ⟨stream, []⟩).2.errors.map (ParseError.shift d) := by
  have hparallel : Parallel (fun t t' => t.shift d = t') ⟨stream, []⟩ ⟨stream.shift d, []⟩ := by
    refine ⟨⟨heof, heof⟩, fun i => ?_, .nil⟩
    rw [TokenStream.drop_shift, TokenStream.current_shift]
  have hlen : (stream.shift d).tokens.length ≤ n := by simpa [TokenStream.shift] using hn
  obtain ⟨hprogram, herrors⟩ := hparallel.program_eq (fun t => ⟨_, rfl⟩)
    (fun {t _} h => (t.shift_terminal d).symm.trans (congrArg Token.terminal h)) hm hlen
  refine ⟨hprogram.symm, ?_⟩
  have hshift := herrors.imp fun _ _ h => h.eq_shift
  rw [← List.forall₂_map_left_iff, List.forall₂_eq_eq_eq] at hshift
  exact hshift.symm

/-- A text that is complete and ends with a semicolon is read apart from what stands behind it: the
statements of the one are followed by those of the other, and the errors of the other are moved by
the length of the first. -/
theorem parse_append (a b : String) (hclean : (parse a).errors = [])
    (hclosed : Repl.isUnclosed a = false)
    (hended : ∀ t ∈ (TokenStream.ofSource a).tokens.getLast?, t.kind = .semicolon) :
    parse (a ++ b) = ⟨(parse a).program ++ (parse b).program,
      (parse b).errors.map (ParseError.shift a.utf8ByteSize)⟩ := by
  have hsource : TokenStream.ofSource (a ++ b) = _ :=
    TokenStream.ofSource_append fun t ht => .inl (hended t ht)
  obtain ⟨d, hd, -⟩ := exists_weight_eq (proper_ofSource a) (Nat.le_refl _) hclean
  have hweight : weight (TokenStream.ofSource a).terminals = 0 := by
    rw [Repl.isUnclosed, openBrackets_eq_weight, decide_eq_false_iff_not] at hclosed
    change weight (TokenStream.ofSource a).terminals = d at hd
    omega
  have hprecedes : Precedes ((TokenStream.ofSource b).shift a.utf8ByteSize).tokens
      (.ofStream (.ofSource a)) (.ofStream (.ofSource (a ++ b))) :=
    ⟨⟨rfl, rfl⟩, congrArg TokenStream.tokens hsource, rfl⟩
  obtain ⟨m, hm, hread⟩ := hprecedes.continues (proper_ofSource a) (Nat.le_refl _) (Nat.le_refl _)
    hweight hended hclean
  have hstream : (⟨((TokenStream.ofSource b).shift a.utf8ByteSize).tokens,
      (TokenStream.ofSource (a ++ b)).eof⟩ : TokenStream) =
        (TokenStream.ofSource b).shift a.utf8ByteSize :=
    congrArg (TokenStream.mk _) (congrArg TokenStream.eof hsource)
  rw [State.ofStream, hstream] at hread
  obtain ⟨hprogram, herrors⟩ := programUpTo_shift a.utf8ByteSize (.ofSource b) rfl
    (by simpa [TokenStream.shift] using hm) (Nat.le_refl _)
  calc
    parse (a ++ b) = ⟨(parse a).program ++ _, _⟩ :=
      congrArg (fun read => Parsed.mk read.1 read.2.errors) hread
    _ = _ := congrArg₂ Parsed.mk (congrArg ((parse a).program ++ ·) hprogram) herrors

/-- Behind a conditional that takes ten bytes, a text that cannot be read at two places. -/
theorem parse_append_broken :
    (parse "if(é)\x7b1\x7d;").errors = [] ∧ (parse "let 1;)2").errors ≠ [] ∧
      parse ("if(é)\x7b1\x7d;" ++ "let 1;)2") =
        ⟨(parse "if(é)\x7b1\x7d;").program ++ (parse "let 1;)2").program,
          (parse "let 1;)2").errors.map (ParseError.shift 10)⟩ := by
  have hclean : (parse "if(é)\x7b1\x7d;").errors = [] := by decide +kernel
  have hsize : "if(é)\x7b1\x7d;".utf8ByteSize = 10 := by decide
  refine ⟨hclean, by decide +kernel, ?_⟩
  rw [← hsize]
  exact parse_append _ _ hclean (by decide +kernel) (by decide +kernel)

end Monkey
