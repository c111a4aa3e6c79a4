import Mathlib.Order.Nat
import Monkey.Proofs.Program.Lockstep

/-! The parser always moves on. Each expression read inside another one starts with fewer tokens
left, each loop has fewer tokens left in its next round, and so the rounds never run out before the
tokens do. Errors are paid for by tokens: a call whose arguments are given up pays with its opening
parenthesis, and a statement, read or given up, with its first token. -/
namespace Monkey
namespace Parser

variable {ι α β : Type} {s t : State} {n m : Nat}

/-- An expression, where `expr` reads those inside it. -/
def activation (expr : Precedence → Parser Expr) (n : Nat) (min : Precedence) : Parser Expr := do
  let left ← operand expr n
  extend expr min n left

section
variable (expr : Precedence → Parser Expr)

/-- One round of the loop over parameters; `more` are the rounds behind it. -/
def namesRound (more : Unit → Parser (List String)) : Parser (List String) := do
  if (← peek).kind = .comma then
    advance
    let name ← expectName
    return name :: (← more ())
  else return []

/-- One round of the loop over the statements of a block. -/
def statementsRound (more : Unit → Parser (List Stmt)) : Parser (List Stmt) := do
  let kind := (← current).kind
  if kind = .rbrace ∨ kind = .eof then return []
  else
    let s ← statement expr
    advance
    return s :: (← more ())

/-- One round of the loop over arguments. -/
def argsRound (more : Unit → Parser (List Expr)) : Parser (List Expr) := do
  if (← peek).kind = .comma then
    advance
    advance
    let arg ← expr .lowest
    return arg :: (← more ())
  else return []

/-- One round of the loop over operators and calls. -/
def extendRound (min : Precedence) (n : Nat) (left : Expr) (more : Expr → Parser Expr) :
    Parser Expr := do
  let kind := (← peek).kind
  if min < .ofKind kind then
    if kind = .lparen then
      advance
      let args ← argsOrNone expr n
      more (.call left args)
    else
      match BinaryOp.ofKind? kind with
      | some op =>
        advance
        advance
        let right ← expr (.ofKind kind)
        more (.binary op left right)
      | none => return left
  else return left

/-- One round of the loop over the statements of a program. -/
def programRound (more : Unit → State → Program × State) (s : State) : Program × State :=
  if s.stream.current.kind = .eof then ([], s)
  else
    match statement expr s with
    | .ok stmt s =>
      let (rest, s) := more () s.advance
      (stmt :: rest, s)
    | .error e s => more () (s.record e).advance

end

/-- Run from `s`, the whole starts its parts only where fewer tokens are left: whatever they might
do elsewhere makes no difference. -/
def AsksAhead (whole : State → β) (run : (ι → State → α) → State → β) (parts : ι → State → α)
    (s : State) : Prop :=
  ∀ other : ι → State → α,
    (∀ i (t : State), t.stream.eof.kind = .eof →
      t.stream.tokens.length < s.stream.tokens.length → other i t = parts i t) →
    run other s = whole s

/-- Two runs that do the same. -/
def same : Lockstep where
  states s s' := s.stream.eof.kind = .eof ∧ s = s'
  tokens := Eq
  lost _ := False
  lost_of_moves _ := id
  eof := by
    rintro s _ ⟨h, rfl⟩
    exact ⟨h, h⟩
  total _ := exists_eq'
  alike := alike_of_eq
  current h := .inr (congrArg (·.stream.current) h.2)
  peek h := .inr (congrArg (·.stream.peek) h.2)
  advance h := .inr ⟨h.1, congrArg State.advance h.2⟩
  record h he := ⟨h.1, congrArg₂ State.record h.2 he.eq⟩

lemma same_error (e : ParseError) : e.Alike same.tokens e := by
  cases e with
  | unexpected k got span => exact .unexpected (t := ⟨got, "", span⟩) k rfl
  | noOperand got span => exact .noOperand (t := ⟨got, "", span⟩) rfl
  | intOutOfRange literal span => exact .intOutOfRange (t := ⟨.int, literal, span⟩) rfl

lemma eq_of_same_outcome {x x' : EStateM.Result ParseError State α}
    (h : same.Outcome n m x x') : x = x' := by
  cases h with
  | ok a ht => rw [ht.states.2]
  | error he ht => rw [he.eq, ht.states.2]

lemma apply_eq_of_together {p p' : Parser α} (h : same.Together n n p p')
    (heof : s.stream.eof.kind = .eof) (hn : s.stream.tokens.length ≤ n) : p s = p' s :=
  eq_of_same_outcome
    ((h.outcome (Nat.le_refl n) (Nat.le_refl n) ⟨⟨heof, rfl⟩, hn, hn⟩).resolve_left id)

/-- A parser that only moves forward does the same as one that agrees with it on what is left. -/
lemma together_of_agree {p p' : Parser α} (hp : Forward p)
    (h : ∀ s : State, s.stream.eof.kind = .eof → s.stream.tokens.length ≤ n → p' s = p s) :
    same.Together n n p p' := by
  refine ⟨hp, fun {k k' s s'} hk hk' hat => .inr ?_⟩
  obtain ⟨⟨heof, rfl⟩, hleft, hright⟩ := hat
  have hmoves := hp s
  rw [h s heof (hleft.trans hk)]
  have hat : ∀ t, s.Moves t → same.At k k' t t := fun t ht =>
    ⟨⟨ht.eof ▸ heof, rfl⟩, ht.length.trans hleft, ht.length.trans hright⟩
  cases hps : p s with
  | ok a t =>
    rw [hps] at hmoves
    exact .ok a (hat t hmoves)
  | error e t =>
    rw [hps] at hmoves
    exact .error (same_error e) (hat t hmoves)

lemma together_self {p : Parser α} (hp : Forward p) : same.Together n n p p :=
  together_of_agree hp fun _ _ _ => rfl

/-- It is enough to look one token ahead: with no token left nothing is started at all, and with
one more than `k` left everything is started where there are at most `k`. -/
lemma asksAhead_of_together {run : (ι → Parser α) → Parser β} {parts : ι → Parser α}
    (hparts : ∀ i, Forward (parts i)) (heof : s.stream.eof.kind = .eof)
    (hend : s.stream.tokens.length = 0 → ∀ other, run other s = run parts s)
    (hstep : ∀ k other, s.stream.tokens.length = k + 1 →
      (∀ i, same.Together k k (parts i) (other i)) →
      same.Together (k + 1) (k + 1) (run parts) (run other)) :
    AsksAhead (run parts) run parts s := by
  intro other hother
  cases hlen : s.stream.tokens.length with
  | zero => exact hend hlen other
  | succ k =>
    have hagree : ∀ i, same.Together k k (parts i) (other i) := fun i =>
      together_of_agree (hparts i) fun t hteof ht => hother i t hteof (by omega)
    exact (apply_eq_of_together (hstep k other hlen hagree) heof (Nat.le_of_eq hlen)).symm

section
variable (heof : s.stream.eof.kind = .eof)
include heof

/-- As many rounds as there are tokens left are enough. -/
lemma expression_eq (hn : s.stream.tokens.length ≤ n) (hm : s.stream.tokens.length ≤ m)
    (min : Precedence) : expression n min s = expression m min s :=
  apply_eq_of_together (.expression hn hm min) heof (Nat.le_refl _)

omit heof in
/-- At the end of the input there is no expression, and none is looked for further on. -/
lemma activation_of_eof (hs : s.stream.current.kind = .eof) (expr : Precedence → Parser Expr)
    (n : Nat) (min : Precedence) :
    activation expr n min s = .error (.noOperand .eof s.stream.current.span) s := by
  have hoperand : operand expr n s = .error (.noOperand .eof s.stream.current.span) s := by
    simp only [operand, bind_current, hs, UnaryOp.ofKind?]
    rw [← hs]
    rfl
  change EStateM.bind (operand expr n) _ s = _
  rw [EStateM.bind, hoperand]

lemma kind_peek_of_length_eq_zero (h : s.stream.tokens.length = 0) :
    s.stream.peek.kind = .eof := by
  have hlen := s.length_advance_le
  exact kind_current_of_length_eq_zero (s := s.advance) heof (by omega)

lemma asksAhead_activation (hn : s.stream.tokens.length ≤ n + 1) (min : Precedence) :
    AsksAhead (expression (n + 1) min) (activation · n min) (expression n) s := by
  refine asksAhead_of_together (Along.expression n) heof ?_ fun k other hk hother => ?_
  · intro h other
    have hs := kind_current_of_length_eq_zero heof h
    rw [activation_of_eof hs, activation_of_eof hs]
  · exact .bind (.operand hother (by omega) (by omega)) fun left =>
      .extend hother min (by omega) (by omega) left

lemma asksAhead_namesRound (n : Nat) :
    AsksAhead (moreNames (n + 1)) namesRound (fun _ => moreNames n) s := by
  refine asksAhead_of_together (fun _ => .moreNames n) heof ?_ fun k other hk hother => ?_
  · intro h other
    simp only [namesRound, bind_peek, kind_peek_of_length_eq_zero heof h, reduceCtorEq, if_false]
  · refine .peek fun t t' h => .ite (Lockstep.kind_eq_iff h (by decide)) (.advance ?_) (.pure [])
    exact .expectName fun name => .bind (hother ()) fun names => .pure _

/-- Behind a statement there are fewer tokens left, whether it could be read or not. -/
lemma length_advance_lt (hs : s.stream.current.kind ≠ .eof) (h : s.Moves t) :
    t.advance.stream.tokens.length < s.stream.tokens.length := by
  have hpos := mt (kind_current_of_length_eq_zero heof) hs
  have hadvance := t.length_advance
  have hlen := h.length
  omega

section
variable {expr : Precedence → Parser Expr} (hexpr : ∀ min, Forward (expr min))
include hexpr

lemma asksAhead_statementsRound (n : Nat) :
    AsksAhead (statements expr (n + 1)) (statementsRound expr) (fun _ => statements expr n) s := by
  refine asksAhead_of_together (fun _ => .statements hexpr n) heof ?_ fun k other hk hother => ?_
  · intro h other
    simp only [statementsRound, bind_current, kind_current_of_length_eq_zero heof h, or_true,
      if_true]
  · refine .current fun t t' h => .ite (Lockstep.endsBlock_iff h) (.pure []) ?_
    exact .bind (together_self (.statement hexpr)) fun stmt =>
      .advance (.bind (hother ()) fun body => .pure _)

lemma asksAhead_argsRound (n : Nat) :
    AsksAhead (moreArgs expr (n + 1)) (argsRound expr) (fun _ => moreArgs expr n) s := by
  refine asksAhead_of_together (fun _ => .moreArgs hexpr n) heof ?_ fun k other hk hother => ?_
  · intro h other
    simp only [argsRound, bind_peek, kind_peek_of_length_eq_zero heof h, reduceCtorEq, if_false]
  · refine .peek fun t t' h => .ite (Lockstep.kind_eq_iff h (by decide)) (.advance ?_) (.pure [])
    exact .pass (.bind (together_self (hexpr _)) fun arg =>
      .bind (hother ()) fun list => .pure _)

lemma asksAhead_extendRound (min : Precedence) (n : Nat) (left : Expr) :
    AsksAhead (extend expr min (n + 1) left) (extendRound expr min n left)
      (extend expr min n) s := by
  refine asksAhead_of_together (.extend hexpr min n) heof ?_ fun k other hk hother => ?_
  · intro h other
    have hmin : ¬min < Precedence.ofKind .eof := Nat.not_lt_zero _
    simp only [extendRound, bind_peek, kind_peek_of_length_eq_zero heof h, if_neg hmin]
  · refine .peek fun t t' h => ?_
    obtain rfl : t = t' := h
    refine .ite Iff.rfl (.ite Iff.rfl (.advance ?_) ?_) (.pure left)
    · exact .bind (together_self (.argsOrNone hexpr n)) fun list => hother _
    · split
      · exact .advance (.pass (.bind (together_self (hexpr _)) fun right => hother _))
      · exact .pure left

end

lemma asksAhead_programRound (n : Nat) :
    AsksAhead (programUpTo (n + 1)) (programRound (expression (n + 1)))
      (fun _ => programUpTo n) s := by
  intro other hother
  have hforward : Forward (statement (expression (n + 1))) := .statement (.expression (n + 1))
  by_cases hs : s.stream.current.kind = .eof
  · rw [programRound, if_pos hs, programUpTo_of_eof hs]
  · cases hstmt : statement (expression (n + 1)) s with
    | ok stmt t =>
      have hmoves := hforward.of_ok hstmt
      have hmore := hother () t.advance (hmoves.eof ▸ heof) (length_advance_lt heof hs hmoves)
      rw [programUpTo_of_ok hs hstmt, programRound, if_neg hs, hstmt]
      dsimp only
      rw [hmore]
    | error e t =>
      have hmoves := (hforward.of_error hstmt).trans (.record t e)
      have hmore := hother () _ (hmoves.eof ▸ heof) (length_advance_lt heof hs hmoves)
      rw [programUpTo_of_error hs hstmt, programRound, if_neg hs, hstmt]
      exact hmore

/-- A loop that asks ahead does not depend on how many rounds it is given. -/
lemma programUpTo_eq (hn : s.stream.tokens.length ≤ n) (hm : s.stream.tokens.length ≤ m) :
    programUpTo n s = programUpTo m s := by
  induction n generalizing m s with
  | zero =>
    have hs := kind_current_of_length_eq_zero heof (Nat.le_zero.mp hn)
    rw [programUpTo_of_eof hs, programUpTo_of_eof hs]
  | succ n ih =>
    by_cases hs : s.stream.current.kind = .eof
    · rw [programUpTo_of_eof hs, programUpTo_of_eof hs]
    · obtain ⟨m, rfl⟩ := exists_eq_succ heof hs hm
      have hstmt : statement (expression (n + 1)) s = statement (expression (m + 1)) s :=
        apply_eq_of_together (.statement (.expression hn hm)) heof (Nat.le_refl _)
      have hmore : programRound (expression (m + 1)) (fun _ => programUpTo n) s =
          programUpTo (m + 1) s :=
        asksAhead_programRound heof m _ fun _ t hteof ht => ih hteof (by omega) (by omega)
      rw [← hmore, programRound, ← hstmt]
      rfl

end

/-- The tokens left and the errors so far. -/
def State.weight (s : State) : Nat := s.errors.length + s.stream.tokens.length

/-- From `s` to `t` the errors recorded are paid for by the tokens passed behind the current one. -/
def State.Pays (s t : State) : Prop :=
  s.stream.eof.kind = .eof → t.stream.eof.kind = .eof ∧ t.advance.weight ≤ s.advance.weight

lemma weight_advance_le (s : State) : s.advance.weight ≤ s.weight :=
  Nat.add_le_add_left s.length_advance_le _

lemma weight_advance_lt (heof : s.stream.eof.kind = .eof) (hs : s.stream.current.kind ≠ .eof) :
    s.advance.weight < s.weight :=
  Nat.add_lt_add_left (length_advance_lt heof hs (.refl s)) _

lemma weight_record_advance (s : State) (e : ParseError) :
    (s.record e).advance.weight = s.advance.weight + 1 := by
  simp only [State.weight, State.record, State.advance, List.length_append, List.length_singleton]
  omega

instance : StepRel State.Pays where
  refl _ heof := ⟨heof, Nat.le_refl _⟩
  trans h h' heof :=
    have ht := h heof
    have hr := h' ht.1
    ⟨hr.1, hr.2.trans ht.2⟩
  advance s heof := ⟨heof, weight_advance_le s.advance⟩
  giveUp := by
    intro s t e hs h heof
    have hpeek : s.advance.stream.current.kind ≠ .eof := by
      change s.stream.peek.kind ≠ .eof
      rw [hs]
      decide
    have hpaid := weight_advance_lt (s := s.advance) heof hpeek
    obtain ⟨hteof, hweight⟩ := h heof
    -- The parenthesis is passed on the way to the arguments, and pays for their error.
    refine ⟨hteof, ?_⟩
    rw [weight_record_advance]
    omega

/-- A statement read, with where the parser stood before it and where it came to. -/
structure Reading where
  stmt : Stmt
  before : State
  behind : State

/-- Whether the statement was read without an error recorded. -/
def Reading.isClean (r : Reading) : Bool := r.behind.errors = r.before.errors

/-- The statements that are read of a program, one after the other. -/
def readings : Nat → State → List Reading
  | 0, _ => []
  | n + 1, s =>
    if s.stream.current.kind = .eof then []
    else
      match statement (expression (n + 1)) s with
      | .ok stmt t => ⟨stmt, s, t⟩ :: readings n t.advance
      | .error e t => readings n (t.record e).advance

section
variable (hs : s.stream.current.kind ≠ .eof)
include hs

lemma readings_of_ok {stmt : Stmt} (hstmt : statement (expression (n + 1)) s = .ok stmt t) :
    readings (n + 1) s = ⟨stmt, s, t⟩ :: readings n t.advance := by
  rw [readings, if_neg hs, hstmt]

lemma readings_of_error {e : ParseError}
    (hstmt : statement (expression (n + 1)) s = .error e t) :
    readings (n + 1) s = readings n (t.record e).advance := by
  rw [readings, if_neg hs, hstmt]

end

lemma readings_of_eof (hs : s.stream.current.kind = .eof) (n : Nat) : readings n s = [] := by
  cases n with
  | zero => rfl
  | succ n => rw [readings, if_pos hs]

lemma map_stmt_readings (n : Nat) (s : State) :
    (readings n s).map Reading.stmt = (programUpTo n s).1 := by
  induction n generalizing s with
  | zero => rfl
  | succ n ih =>
    by_cases hs : s.stream.current.kind = .eof
    · rw [readings_of_eof hs, programUpTo_of_eof hs, List.map_nil]
    · cases hstmt : statement (expression (n + 1)) s with
      | ok stmt t => rw [readings_of_ok hs hstmt, programUpTo_of_ok hs hstmt, List.map_cons, ih]
      | error e t => rw [readings_of_error hs hstmt, programUpTo_of_error hs hstmt, ih]

/-- Each statement, whether it is read or given up, takes a token that pays for it. -/
lemma length_readings_le (heof : s.stream.eof.kind = .eof) (n : Nat) :
    (programUpTo n s).2.errors.length + (readings n s).length ≤ s.weight := by
  induction n generalizing s with
  | zero => exact Nat.le_add_right _ _
  | succ n ih =>
    by_cases hs : s.stream.current.kind = .eof
    · rw [readings_of_eof hs, programUpTo_of_eof hs]
      exact Nat.le_add_right _ _
    · have hthrifty : Along State.Pays (statement (expression (n + 1))) :=
        .statement (.expression (n + 1))
      have hlt := weight_advance_lt heof hs
      cases hstmt : statement (expression (n + 1)) s with
      | ok stmt t =>
        obtain ⟨hteof, hweight⟩ := hthrifty.of_ok hstmt heof
        have hrest := ih (s := t.advance) hteof
        rw [readings_of_ok hs hstmt, programUpTo_of_ok hs hstmt, List.length_cons]
        dsimp only
        omega
      | error e t =>
        obtain ⟨hteof, hweight⟩ := hthrifty.of_error hstmt heof
        have hrest := ih (s := (t.record e).advance) hteof
        rw [weight_record_advance] at hrest
        rw [readings_of_error hs hstmt, programUpTo_of_error hs hstmt]
        omega

/-- Reading ends at the end of the input. -/
lemma kind_current_programUpTo (heof : s.stream.eof.kind = .eof)
    (hn : s.stream.tokens.length ≤ n) : (programUpTo n s).2.stream.current.kind = .eof := by
  induction n generalizing s with
  | zero => exact kind_current_of_length_eq_zero heof (Nat.le_zero.mp hn)
  | succ n ih =>
    by_cases hs : s.stream.current.kind = .eof
    · rwa [programUpTo_of_eof hs]
    · have hforward : Forward (statement (expression (n + 1))) := .statement (.expression (n + 1))
      cases hstmt : statement (expression (n + 1)) s with
      | ok stmt t =>
        have hmoves := hforward.of_ok hstmt
        have hlt := length_advance_lt heof hs hmoves
        rw [programUpTo_of_ok hs hstmt]
        exact ih (hmoves.eof ▸ heof) (by omega)
      | error e t =>
        have hmoves := (hforward.of_error hstmt).trans (.record t e)
        have hlt := length_advance_lt heof hs hmoves
        rw [programUpTo_of_error hs hstmt]
        exact ih (hmoves.eof ▸ heof) (by omega)

/-- What keeps the parser moving, wherever it stands. -/
structure State.Progress (s : State) : Prop where
  /-- An expression inside another one starts with fewer tokens left. -/
  nested : ∀ n min, s.stream.tokens.length ≤ n + 1 →
    AsksAhead (expression (n + 1) min) (activation · n min) (expression n) s
  rounds : ∀ n m min, s.stream.tokens.length ≤ n → s.stream.tokens.length ≤ m →
    expression n min s = expression m min s
  /-- At the end of the input an expression fails at once, whatever would read those inside it. -/
  ends : s.stream.current.kind = .eof → ∀ expr n min,
    activation expr n min s = .error (.noOperand .eof s.stream.current.span) s
  names : ∀ n, AsksAhead (moreNames (n + 1)) namesRound (fun _ => moreNames n) s
  statements : ∀ k n, AsksAhead (statements (expression k) (n + 1))
    (statementsRound (expression k)) (fun _ => statements (expression k) n) s
  args : ∀ k n, AsksAhead (moreArgs (expression k) (n + 1)) (argsRound (expression k))
    (fun _ => moreArgs (expression k) n) s
  operators : ∀ k min n left, AsksAhead (extend (expression k) min (n + 1) left)
    (extendRound (expression k) min n left) (extend (expression k) min n) s
  program : ∀ n, AsksAhead (programUpTo (n + 1)) (programRound (expression (n + 1)))
    (fun _ => programUpTo n) s

theorem State.progress (heof : s.stream.eof.kind = .eof) : s.Progress where
  nested _ min hn := asksAhead_activation heof hn min
  rounds _ _ min hn hm := expression_eq heof hn hm min
  ends := activation_of_eof
  names := asksAhead_namesRound heof
  statements k := asksAhead_statementsRound heof (Along.expression k)
  args k := asksAhead_argsRound heof (Along.expression k)
  operators k := asksAhead_extendRound heof (Along.expression k)
  program := asksAhead_programRound heof

end Parser

/-- The statements that are read of a whole input. -/
def TokenStream.readings (stream : TokenStream) : List Parser.Reading :=
  Parser.readings stream.tokens.length (.ofStream stream)

/-- Whatever the source is, the parser keeps moving and comes to the end of the source before the
rounds run out. The errors, and the statements that are read without one, are paid for by a token
each. -/
theorem parse_progresses (source : String) :
    (∀ s : Parser.State, s.stream.eof = (TokenStream.ofSource source).eof → s.Progress) ∧
    (Parser.program (.ofStream (.ofSource source))).2.stream.current.kind = .eof ∧
    (∀ n, (TokenStream.ofSource source).tokens.length ≤ n →
      Parser.programUpTo n (.ofStream (.ofSource source)) =
        Parser.program (.ofStream (.ofSource source))) ∧
    (TokenStream.ofSource source).readings.map (·.stmt) = (parse source).program ∧
    (parse source).errors.length + (TokenStream.ofSource source).readings.countP (·.isClean) ≤
      (TokenStream.ofSource source).tokens.length := by
  refine ⟨fun s hs => Parser.State.progress (hs ▸ rfl),
    Parser.kind_current_programUpTo rfl (Nat.le_refl _),
    fun n hn => Parser.programUpTo_eq rfl hn (Nat.le_refl _), Parser.map_stmt_readings _ _, ?_⟩
  calc (parse source).errors.length + (TokenStream.ofSource source).readings.countP (·.isClean)
    _ ≤ (parse source).errors.length + (TokenStream.ofSource source).readings.length :=
      Nat.add_le_add_left List.countP_le_length _
    _ ≤ (Parser.State.ofStream (.ofSource source)).weight := Parser.length_readings_le rfl _
    _ = (TokenStream.ofSource source).tokens.length := Nat.zero_add _

end Monkey
