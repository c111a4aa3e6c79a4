import Monkey.Proofs.Program.Ahead
import Monkey.Proofs.Program.Forward

/-! Two runs of the parser side by side. They read from different states and with different
numbers of rounds, but as long as their tokens answer to each other they take the same turns. -/
namespace Monkey

/-- Errors of the same sort, at tokens that answer to each other. -/
inductive ParseError.Alike (tokens : Token → Token → Prop) : ParseError → ParseError → Prop
  | unexpected {t t' : Token} (k : Token.Kind) (h : tokens t t') :
      Alike tokens (.unexpected k t.kind t.span) (.unexpected k t'.kind t'.span)
  | noOperand {t t' : Token} (h : tokens t t') :
      Alike tokens (.noOperand t.kind t.span) (.noOperand t'.kind t'.span)
  | intOutOfRange {t t' : Token} (h : tokens t t') :
      Alike tokens (.intOutOfRange t.literal t.span) (.intOutOfRange t'.literal t'.span)

lemma ParseError.Alike.eq {e e' : ParseError} (h : e.Alike Eq e') : e = e' := by
  cases h with
  | unexpected k h | noOperand h | intOutOfRange h => rw [h]

/-- A block ends here: its brace is closed, or the input is at its end. -/
def Token.EndsBlock (t : Token) : Prop := t.kind = .rbrace ∨ t.kind = .eof

lemma Token.EndsBlock.kind_ne {t : Token} (h : t.EndsBlock) {k : Token.Kind}
    (hk : k ≠ .rbrace ∧ k ≠ .eof) : t.kind ≠ k := by
  rintro rfl
  exact h.elim hk.1 hk.2

namespace Parser

section
variable {α : Type} {k : Token.Kind}

lemma expect_bind (p : Parser α) : (expect k >>= fun _ => p) = peek >>= fun t =>
    if t.kind = k then advance >>= fun _ => p else throw (.unexpected k t.kind t.span) := by
  rw [expect, bind_assoc]
  congr 1
  funext t
  split <;> rfl

lemma skip_bind (p : Parser α) : (skip k >>= fun _ => p) = peek >>= fun t =>
    if t.kind = k then advance >>= fun _ => p else p := by
  rw [skip, bind_assoc]
  congr 1
  funext t
  split <;> rfl

lemma expectName_bind (f : String → Parser α) : (expectName >>= f) = peek >>= fun t =>
    if t.kind = .ident then advance >>= fun _ => f t.literal
    else throw (.unexpected .ident t.kind t.span) := by
  funext s
  rw [expectName, bind_assoc, expect_bind, bind_peek, bind_peek]
  split <;> rfl

/-- A statement, but for a semicolon behind it. -/
def clause (expr : Precedence → Parser Expr) : Parser Stmt := do
  match (← current).kind with
  | .kwLet =>
    let name ← expectName
    expect .assign
    advance
    return .define name (← expr .lowest)
  | .kwReturn =>
    advance
    return .ret (← expr .lowest)
  | _ => return .expr (← expr .lowest)

lemma statement_eq (expr : Precedence → Parser Expr) :
    statement expr = clause expr >>= fun stmt => skip .semicolon >>= fun _ => pure stmt := by
  rw [statement, clause, bind_assoc]
  congr 1
  funext t
  cases t.kind <;> simp only [bind_assoc, pure_bind]

lemma Along.clause {rel : State → State → Prop} [StepRel rel] {expr : Precedence → Parser Expr}
    (hexpr : ∀ min, Along rel (expr min)) : Along rel (clause expr) := by
  refine bind current fun t => ?_
  split
  · exact bind expectName fun _ => bind (expect _) fun _ => bind advance fun _ =>
      bind (hexpr _) fun _ => pure _
  · exact bind advance fun _ => bind (hexpr _) fun _ => pure _
  · exact bind (hexpr _) fun _ => pure _

lemma kind_current_of_length_eq_zero {s : State} (heof : s.stream.eof.kind = .eof)
    (h : s.stream.tokens.length = 0) : s.stream.current.kind = .eof := by
  rw [TokenStream.current, List.length_eq_zero_iff.mp h]
  exact heof

/-- As long as there are tokens left, there are rounds left. -/
lemma exists_eq_succ {s : State} {n : Nat} (heof : s.stream.eof.kind = .eof)
    (hs : s.stream.current.kind ≠ .eof) (hn : s.stream.tokens.length ≤ n) : ∃ j, n = j + 1 := by
  have hpos := mt (kind_current_of_length_eq_zero heof) hs
  exact ⟨n - 1, by omega⟩

lemma expression_of_endsBlock {s : State} (h : s.stream.current.EndsBlock) (n : Nat)
    (min : Precedence) : expression n min s = noOperand s := by
  cases n with
  | zero => rfl
  | succ n =>
    change EStateM.bind (operand _ n) _ s = _
    rcases h with hk | hk
    all_goals
      simp only [EStateM.bind, operand, bind_current, hk, UnaryOp.ofKind?]
      rfl

end

/-- What keeps two runs together. Once the first of them is lost, the second is not followed
further. -/
structure Lockstep where
  states : State → State → Prop
  tokens : Token → Token → Prop
  lost : State → Prop
  lost_of_moves : ∀ {s t : State}, s.Moves t → lost s → lost t
  eof : ∀ {s s' : State}, states s s' → s.stream.eof.kind = .eof ∧ s'.stream.eof.kind = .eof
  total : ∀ t, ∃ t', tokens t t'
  /-- The parser takes the end of the input for a closing brace, wherever it accepts one. -/
  alike : ∀ {t t' : Token}, tokens t t' → t.terminal = t'.terminal ∨ t.EndsBlock ∧ t'.EndsBlock
  current : ∀ {s s' : State}, states s s' → lost s ∨ tokens s.stream.current s'.stream.current
  peek : ∀ {s s' : State}, states s s' → lost s ∨ tokens s.stream.peek s'.stream.peek
  advance : ∀ {s s' : State}, states s s' → lost s ∨ states s.advance s'.advance
  record : ∀ {s s' : State} {e e' : ParseError}, states s s' → e.Alike tokens e' →
    states (s.record e) (s'.record e')

/-- The same token is looked at alike. -/
lemma alike_of_eq {t t' : Token} (h : t = t') :
    t.terminal = t'.terminal ∨ t.EndsBlock ∧ t'.EndsBlock := .inl (congrArg Token.terminal h)

namespace Lockstep

variable (L : Lockstep) {α β : Type} {n n' m m' : Nat}

/-- The runs have at most `n` and `n'` tokens left. -/
structure At (n n' : Nat) (s s' : State) : Prop where
  states : L.states s s'
  left : s.stream.tokens.length ≤ n
  right : s'.stream.tokens.length ≤ n'

/-- Both runs give the same value, or both fail alike. -/
inductive Outcome (n n' : Nat) : EStateM.Result ParseError State α →
    EStateM.Result ParseError State α → Prop
  | ok (a : α) {t t' : State} (h : L.At n n' t t') : Outcome n n' (.ok a t) (.ok a t')
  | error {e e' : ParseError} {t t' : State} (he : e.Alike L.tokens e') (h : L.At n n' t t') :
      Outcome n n' (.error e t) (.error e' t')

/-- The parsers stay together from wherever there are at most `n` and `n'` tokens left. -/
structure Together (n n' : Nat) (p p' : Parser α) : Prop where
  forward : Forward p
  outcome : ∀ {k k' : Nat} {s s' : State}, k ≤ n → k' ≤ n' → L.At k k' s s' →
    L.lost (final (p s)) ∨ L.Outcome k k' (p s) (p' s')

variable {L}

lemma At.mono {s s' : State} (h : L.At n n' s s') (hm : n ≤ m) (hm' : n' ≤ m') :
    L.At m m' s s' :=
  ⟨h.states, Nat.le_trans h.left hm, Nat.le_trans h.right hm'⟩

lemma Outcome.mono {x x' : EStateM.Result ParseError State α} (h : L.Outcome n n' x x')
    (hm : n ≤ m) (hm' : n' ≤ m') : L.Outcome m m' x x' := by
  cases h with
  | ok a h => exact .ok a (h.mono hm hm')
  | error he h => exact .error he (h.mono hm hm')

/-- One token further, there is one less in each run. -/
lemma At.advance {s s' : State} (h : L.At n n' s s') :
    L.lost s ∨ L.At (n - 1) (n' - 1) s.advance s'.advance := by
  have hleft := s.length_advance
  have hright := s'.length_advance
  have := h.left
  have := h.right
  exact (L.advance h.states).imp_right fun hstates => ⟨hstates, by omega, by omega⟩

lemma At.length_left {s s' : State} (h : L.At (n + 1) n' s s') :
    s.advance.stream.tokens.length ≤ n := by
  have hlen := s.length_advance
  have := h.left
  omega

lemma At.length_right {s s' : State} (h : L.At n (n' + 1) s s') :
    s'.advance.stream.tokens.length ≤ n' := by
  have hlen := s'.length_advance
  have := h.right
  omega

section
variable {t t' : Token} (h : L.tokens t t')
include h

/-- What treats the end of the input as a closing brace treats the two tokens alike. -/
lemma congr_kind (f : Token.Kind → β) (hf : f .rbrace = f .eof) : f t.kind = f t'.kind := by
  rcases L.alike h with h | ⟨hk | hk, hk' | hk'⟩
  · exact congrArg f (congrArg Terminal.kind h)
  all_goals rw [hk, hk']
  · exact hf
  · exact hf.symm

lemma endsBlock_iff : t.EndsBlock ↔ t'.EndsBlock :=
  Eq.to_iff (congr_kind h (fun k => k = .rbrace ∨ k = .eof) (by simp))

lemma kind_eq_iff {k : Token.Kind} (hk : k ≠ .rbrace ∧ k ≠ .eof) : t.kind = k ↔ t'.kind = k := by
  have hf : (Token.Kind.rbrace = k) = (Token.Kind.eof = k) := by simp [hk.1.symm, hk.2.symm]
  exact Eq.to_iff (congr_kind h (· = k) hf)

lemma terminal_eq {k : Token.Kind} (hk : k ≠ .rbrace ∧ k ≠ .eof) (ht : t.kind = k) :
    t.terminal = t'.terminal := by
  refine (L.alike h).resolve_right fun hends => ?_
  rcases hends.1 with hbrace | heof
  · exact hk.1 (ht.symm.trans hbrace)
  · exact hk.2 (ht.symm.trans heof)

end

/-- Where one run has no token left, a block would end in both. -/
lemma At.current_ends {s s' : State} (h : L.At n n' s s') (hn : n = 0 ∨ n' = 0) :
    L.lost s ∨ s.stream.current.EndsBlock ∧ s'.stream.current.EndsBlock := by
  refine (L.current h.states).imp_right fun htokens => ?_
  have hleft := h.left
  have hright := h.right
  rcases hn with rfl | rfl
  · have hs := kind_current_of_length_eq_zero (L.eof h.states).1 (Nat.le_zero.mp hleft)
    exact ⟨.inr hs, (endsBlock_iff htokens).mp (.inr hs)⟩
  · have hs := kind_current_of_length_eq_zero (L.eof h.states).2 (Nat.le_zero.mp hright)
    exact ⟨(endsBlock_iff htokens).mpr (.inr hs), .inr hs⟩

lemma At.peek_ends {s s' : State} (h : L.At n n' s s') (hn : n ≤ 1 ∨ n' ≤ 1) :
    L.lost s ∨ s.stream.peek.EndsBlock ∧ s'.stream.peek.EndsBlock := by
  refine (L.peek h.states).imp_right fun htokens => ?_
  have hleft := h.left
  have hright := h.right
  rcases hn with hn | hn
  · have hlen := s.length_advance
    have hs := kind_current_of_length_eq_zero (s := s.advance) (L.eof h.states).1 (by omega)
    exact ⟨.inr hs, (endsBlock_iff htokens).mp (.inr hs)⟩
  · have hlen := s'.length_advance
    have hs := kind_current_of_length_eq_zero (s := s'.advance) (L.eof h.states).2 (by omega)
    exact ⟨(endsBlock_iff htokens).mpr (.inr hs), .inr hs⟩

namespace Together

lemma weaken {p p' : Parser α} (h : L.Together n n' p p') (hm : m ≤ n) (hm' : m' ≤ n') :
    L.Together m m' p p' :=
  ⟨h.forward, fun hk hk' => h.outcome (Nat.le_trans hk hm) (Nat.le_trans hk' hm')⟩

lemma pure (a : α) : L.Together n n' (Pure.pure a) (Pure.pure a) :=
  ⟨.pure a, fun _ _ h => .inr (.ok a h)⟩

lemma throw {e e' : ParseError} (he : e.Alike L.tokens e') :
    L.Together n n' (MonadExcept.throw e : Parser α) (MonadExcept.throw e') :=
  ⟨.throw e, fun _ _ h => .inr (.error he h)⟩

lemma bind {p p' : Parser α} {f f' : α → Parser β} (hp : L.Together n n' p p')
    (hf : ∀ a, L.Together n n' (f a) (f' a)) : L.Together n n' (p >>= f) (p' >>= f') := by
  refine ⟨.bind hp.forward fun a => (hf a).forward, fun {k k' s s'} hk hk' h => ?_⟩
  change L.lost (final (EStateM.bind p f s)) ∨
    L.Outcome k k' (EStateM.bind p f s) (EStateM.bind p' f' s')
  rw [EStateM.bind, EStateM.bind]
  rcases hp.outcome hk hk' h with hlost | hout
  · left
    cases hps : p s with
    | ok a t =>
      rw [hps] at hlost
      exact L.lost_of_moves ((hf a).forward t) hlost
    | error e t =>
      rw [hps] at hlost
      exact hlost
  · generalize p s = x, p' s' = x' at hout
    cases hout with
    | ok a ht => exact (hf a).outcome hk hk' ht
    | error he ht => exact .inr (.error he ht)

/-- What the runs do with tokens that they look at. -/
lemma look {p : Parser Token} {look : State → Token} (hp : ∀ s, p s = .ok (look s) s)
    (hlook : ∀ {s s' : State}, L.states s s' → L.lost s ∨ L.tokens (look s) (look s'))
    {f f' : Token → Parser β}
    (hf : ∀ t t', L.tokens t t' → L.Together n n' (f t) (f' t')) :
    L.Together n n' (p >>= f) (p >>= f') := by
  have hforward : ∀ t, Forward (f t) := fun t =>
    let ⟨t', ht⟩ := L.total t
    (hf t t' ht).forward
  refine ⟨?_, fun {k k' s s'} hk hk' h => ?_⟩
  · intro s
    rw [bind_of_ok (hp s)]
    exact hforward _ s
  · rw [bind_of_ok (hp s), bind_of_ok (hp s')]
    rcases hlook h.states with hlost | htokens
    · exact .inl (L.lost_of_moves (hforward _ s) hlost)
    · exact (hf _ _ htokens).outcome hk hk' h

lemma current {f f' : Token → Parser β}
    (hf : ∀ t t', L.tokens t t' → L.Together n n' (f t) (f' t')) :
    L.Together n n' (Parser.current >>= f) (Parser.current >>= f') :=
  look (fun _ => rfl) L.current hf

lemma peek {f f' : Token → Parser β}
    (hf : ∀ t t', L.tokens t t' → L.Together n n' (f t) (f' t')) :
    L.Together n n' (Parser.peek >>= f) (Parser.peek >>= f') := look (fun _ => rfl) L.peek hf

lemma ite {c c' : Prop} [Decidable c] [Decidable c'] {p p' q q' : Parser α} (hc : c ↔ c')
    (hp : L.Together n n' p p') (hq : L.Together n n' q q') :
    L.Together n n' (if c then p else q) (if c' then p' else q') := by
  by_cases h : c
  · rwa [if_pos h, if_pos (hc.mp h)]
  · rwa [if_neg h, if_neg (h ∘ hc.mpr)]

/-- Behind a token there is one token less to be read. -/
lemma advance {p p' : Parser β} (hp : L.Together n n' p p') : L.Together (n + 1) (n' + 1)
    (Parser.advance >>= fun _ => p) (Parser.advance >>= fun _ => p') := by
  refine ⟨.bind .advance fun _ => hp.forward, fun {k k' s s'} hk hk' h => ?_⟩
  rw [bind_advance, bind_advance]
  rcases h.advance with hlost | hnext
  · exact .inl (L.lost_of_moves ((State.Moves.advance s).trans (hp.forward _)) hlost)
  · exact (hp.outcome (by omega) (by omega) hnext).imp_right
      (·.mono (Nat.sub_le k 1) (Nat.sub_le k' 1))

/-- The same, where the number of tokens does not matter. -/
lemma pass {p p' : Parser β} (hp : L.Together n n' p p') :
    L.Together n n' (Parser.advance >>= fun _ => p) (Parser.advance >>= fun _ => p') :=
  hp.advance.weaken (Nat.le_succ n) (Nat.le_succ n')

lemma noOperand : L.Together n n' (Parser.noOperand : Parser α) Parser.noOperand :=
  current fun _ _ h => throw (.noOperand h)

/-- A token that stands for nothing else. -/
lemma expect {k : Token.Kind} (hk : k ≠ .rbrace ∧ k ≠ .eof) {p p' : Parser β}
    (hp : L.Together n n' p p') : L.Together (n + 1) (n' + 1)
      (Parser.expect k >>= fun _ => p) (Parser.expect k >>= fun _ => p') := by
  rw [expect_bind, expect_bind]
  exact peek fun t t' h => ite (kind_eq_iff h hk) hp.advance (throw (.unexpected k h))

lemma need {k : Token.Kind} (hk : k ≠ .rbrace ∧ k ≠ .eof) {p p' : Parser β}
    (hp : L.Together n n' p p') :
    L.Together n n' (Parser.expect k >>= fun _ => p) (Parser.expect k >>= fun _ => p') :=
  (hp.expect hk).weaken (Nat.le_succ n) (Nat.le_succ n')

lemma skip {k : Token.Kind} (hk : k ≠ .rbrace ∧ k ≠ .eof) {p p' : Parser β}
    (hp : L.Together n n' p p') :
    L.Together n n' (Parser.skip k >>= fun _ => p) (Parser.skip k >>= fun _ => p') := by
  rw [skip_bind, skip_bind]
  exact peek fun t t' h => ite (kind_eq_iff h hk) hp.pass hp

lemma expectName {f f' : String → Parser β} (hf : ∀ name, L.Together n n' (f name) (f' name)) :
    L.Together n n' (Parser.expectName >>= f) (Parser.expectName >>= f') := by
  rw [expectName_bind, expectName_bind]
  refine peek fun t t' h => ?_
  by_cases hk : t.kind = .ident
  · have hterminal := terminal_eq h (by decide) hk
    rw [if_pos hk, if_pos ((kind_eq_iff h (by decide)).mp hk),
      show t'.literal = t.literal from congrArg Terminal.literal hterminal.symm]
    exact (hf _).pass
  · rw [if_neg hk, if_neg (mt (kind_eq_iff h (by decide)).mpr hk)]
    exact throw (.unexpected .ident h)

/-- A loop that stops before the end of a block, and takes a token in each round: any number of
rounds does that allows for the tokens left. -/
lemma loop {ι : Type} {p p' : Nat → ι → Parser α} {a : ι → α} (hforward : ∀ m i, Forward (p m i))
    (hstop : ∀ m i (s : State), s.stream.peek.EndsBlock → p m i s = .ok (a i) s)
    (hstop' : ∀ m i (s : State), s.stream.peek.EndsBlock → p' m i s = .ok (a i) s)
    (hstep : ∀ {k k' m m' : Nat}, k < n → k' < n' → k ≤ m + 1 → k' ≤ m' + 1 →
      (∀ i, L.Together k k' (p m i) (p' m' i)) →
      ∀ i, L.Together (k + 1) (k' + 1) (p (m + 1) i) (p' (m' + 1) i))
    (hm : n ≤ m + 1) (hm' : n' ≤ m' + 1) (i : ι) : L.Together n n' (p m i) (p' m' i) := by
  suffices ∀ k ≤ n, ∀ k' ≤ n', ∀ m m', k ≤ m + 1 → k' ≤ m' + 1 →
      ∀ i, L.Together k k' (p m i) (p' m' i) from
    this n (Nat.le_refl n) n' (Nat.le_refl n') m m' hm hm' i
  have hend : ∀ k k', k ≤ 1 ∨ k' ≤ 1 → ∀ m m' i, L.Together k k' (p m i) (p' m' i) := by
    refine fun k k' hk m m' i => ⟨hforward m i, fun {j j' s s'} hj hj' h => ?_⟩
    rcases h.peek_ends (by omega) with hlost | ⟨hpeek, hpeek'⟩
    · exact .inl (L.lost_of_moves (hforward m i s) hlost)
    · rw [hstop m i s hpeek, hstop' m' i s' hpeek']
      exact .inr (.ok _ h)
  intro k hk
  induction k with
  | zero => exact fun k' _ m m' _ _ => hend 0 k' (.inl (Nat.zero_le 1)) m m'
  | succ k ih =>
    intro k' hk' m m' hm hm'
    by_cases hlast : k + 1 ≤ 1 ∨ k' ≤ 1
    · exact hend (k + 1) k' hlast m m'
    · obtain ⟨k', rfl⟩ : ∃ j, k' = j + 1 := ⟨k' - 1, by omega⟩
      obtain ⟨m, rfl⟩ : ∃ j, m = j + 1 := ⟨m - 1, by omega⟩
      obtain ⟨m', rfl⟩ : ∃ j, m' = j + 1 := ⟨m' - 1, by omega⟩
      exact hstep hk hk' (by omega) (by omega)
        (ih (by omega) k' (by omega) m m' (by omega) (by omega))

lemma moreNames (hm : n ≤ m + 1) (hm' : n' ≤ m' + 1) :
    L.Together n n' (Parser.moreNames m) (Parser.moreNames m') := by
  have hstop : ∀ m (_ : Unit) (s : State), s.stream.peek.EndsBlock →
      Parser.moreNames m s = .ok [] s := fun m _ s hs => moreNames_stop (hs.kind_ne (by decide)) m
  refine loop (ι := Unit) (fun m _ => .moreNames m) hstop hstop (fun _ _ _ _ ih _ => ?_) hm hm' ()
  refine peek fun t t' h => ite (kind_eq_iff h (by decide)) (advance ?_) (pure [])
  exact expectName fun name => bind (ih ()) fun names => pure _

lemma params (hm : n ≤ m + 1) (hm' : n' ≤ m' + 1) :
    L.Together n n' (Parser.params m) (Parser.params m') := by
  refine peek fun t t' h => ite (kind_eq_iff h (by decide)) (pass (pure [])) ?_
  exact expectName fun name => bind (moreNames hm hm') fun names => need (by decide) (pure _)

lemma intLiteral {t t' : Token} (h : L.tokens t t') (ht : t.terminal = t'.terminal) :
    L.Together n n' (Parser.intLiteral t) (Parser.intLiteral t') := by
  have hliteral : t.literal = t'.literal := congrArg Terminal.literal ht
  unfold Parser.intLiteral
  rw [hliteral]
  dsimp only
  split
  · exact pure _
  · exact throw (hliteral ▸ .intOutOfRange h)

section
variable {expr expr' : Precedence → Parser Expr}
  (hexpr : ∀ min, L.Together n n' (expr min) (expr' min))
include hexpr

lemma clause : L.Together n n' (Parser.clause expr) (Parser.clause expr') := by
  have hlast : L.Together n n' (expr .lowest >>= fun value => Pure.pure (Stmt.expr value))
      (expr' .lowest >>= fun value => Pure.pure (Stmt.expr value)) :=
    bind (hexpr _) fun value => pure _
  refine current fun t t' h => ?_
  rcases L.alike h with h | ⟨hk | hk, hk' | hk'⟩
  · rw [show t'.kind = t.kind from congrArg Terminal.kind h.symm]
    split
    · exact expectName fun name => need (by decide) (pass (bind (hexpr _) fun value => pure _))
    · exact pass (bind (hexpr _) fun value => pure _)
    · exact hlast
  all_goals
    rw [hk, hk']
    exact hlast

lemma statement : L.Together n n' (Parser.statement expr) (Parser.statement expr') := by
  rw [statement_eq, statement_eq]
  exact bind (clause hexpr) fun stmt => skip (by decide) (pure stmt)

/-- Each statement takes a token at least. -/
lemma statements (hm : n ≤ m) (hm' : n' ≤ m') :
    L.Together n n' (Parser.statements expr m) (Parser.statements expr' m') := by
  have hforward := Along.statements (fun min => (hexpr min).forward)
  suffices ∀ k ≤ n, ∀ k' ≤ n', ∀ m m', k ≤ m → k' ≤ m' →
      L.Together k k' (Parser.statements expr m) (Parser.statements expr' m') from
    this n (Nat.le_refl n) n' (Nat.le_refl n') m m' hm hm'
  have hend : ∀ k k', k = 0 ∨ k' = 0 → ∀ m m',
      L.Together k k' (Parser.statements expr m) (Parser.statements expr' m') := by
    refine fun k k' hk m m' => ⟨hforward m, fun {j j' s s'} hj hj' h => ?_⟩
    rcases h.current_ends (by omega) with hlost | ⟨hs, hs'⟩
    · exact .inl (L.lost_of_moves (hforward m s) hlost)
    · rw [statements_stop hs, statements_stop hs']
      exact .inr (.ok _ h)
  intro k hk
  induction k with
  | zero => exact fun k' _ m m' _ _ => hend 0 k' (.inl rfl) m m'
  | succ k ih =>
    intro k' hk' m m' hm hm'
    by_cases hlast : k' = 0
    · exact hend (k + 1) k' (.inr hlast) m m'
    obtain ⟨k', rfl⟩ : ∃ j, k' = j + 1 := ⟨k' - 1, by omega⟩
    obtain ⟨m, rfl⟩ : ∃ j, m = j + 1 := ⟨m - 1, by omega⟩
    obtain ⟨m', rfl⟩ : ∃ j, m' = j + 1 := ⟨m' - 1, by omega⟩
    refine current fun t t' h => ite (endsBlock_iff h) (pure []) ?_
    refine bind (statement fun min => (hexpr min).weaken hk hk') fun stmt => advance ?_
    exact bind (ih (by omega) k' (by omega) m m' (by omega) (by omega)) fun body => pure _

lemma block (hm : n ≤ m) (hm' : n' ≤ m') :
    L.Together n n' (Parser.block expr m) (Parser.block expr' m') :=
  pass (statements hexpr hm hm')

lemma moreArgs (hm : n ≤ m + 1) (hm' : n' ≤ m' + 1) :
    L.Together n n' (Parser.moreArgs expr m) (Parser.moreArgs expr' m') := by
  have hstop : ∀ (e : Precedence → Parser Expr) m (_ : Unit) (s : State),
      s.stream.peek.EndsBlock → Parser.moreArgs e m s = .ok [] s :=
    fun e m _ s hs => moreArgs_stop (hs.kind_ne (by decide)) m
  refine loop (ι := Unit) (fun m _ => .moreArgs (fun min => (hexpr min).forward) m) (hstop expr)
    (hstop expr') (fun hk hk' _ _ ih _ => ?_) hm hm' ()
  refine peek fun t t' h => ite (kind_eq_iff h (by decide)) (advance (pass ?_)) (pure [])
  exact bind ((hexpr _).weaken (Nat.le_of_lt hk) (Nat.le_of_lt hk')) fun arg =>
    bind (ih ()) fun list => pure _

/-- The arguments come behind a parenthesis, so there are fewer tokens for each of them. -/
lemma args (hm : n ≤ m + 1) (hm' : n' ≤ m' + 1) :
    L.Together (n + 1) (n' + 1) (Parser.args expr m) (Parser.args expr' m') := by
  refine peek fun t t' h => ite (kind_eq_iff h (by decide)) (pass (pure [])) (advance ?_)
  exact bind (hexpr _) fun arg => bind (moreArgs hexpr hm hm') fun list =>
    need (by decide) (pure _)

lemma argsOrNone (hm : n ≤ m + 1) (hm' : n' ≤ m' + 1) :
    L.Together (n + 1) (n' + 1) (Parser.argsOrNone expr m) (Parser.argsOrNone expr' m') := by
  have hargs := args hexpr hm hm'
  refine ⟨.argsOrNone (fun min => (hexpr min).forward) m, fun {k k' s s'} hk hk' h => ?_⟩
  change L.lost (final (EStateM.tryCatch (Parser.args expr m) _ s)) ∨
    L.Outcome k k' (EStateM.tryCatch (Parser.args expr m) _ s)
      (EStateM.tryCatch (Parser.args expr' m') _ s')
  rw [EStateM.tryCatch, EStateM.tryCatch]
  rcases hargs.outcome hk hk' h with hlost | hout
  · left
    cases hs : Parser.args expr m s with
    | ok list t =>
      rw [hs] at hlost
      exact hlost
    | error e t =>
      rw [hs] at hlost
      exact L.lost_of_moves (.record t e) hlost
  · generalize Parser.args expr m s = x, Parser.args expr' m' s' = x' at hout
    cases hout with
    | ok list ht => exact .inr (.ok list ht)
    | error he ht => exact .inr (.ok [] ⟨L.record ht.states he, ht.left, ht.right⟩)

lemma grouped : L.Together (n + 1) (n' + 1) (Parser.grouped expr) (Parser.grouped expr') :=
  advance (bind (hexpr _) fun _ => need (by decide) (pure _))

lemma branch (hm : n ≤ m) (hm' : n' ≤ m') :
    L.Together n n' (Parser.branch expr m) (Parser.branch expr' m') := by
  refine peek fun t t' h => ite (kind_eq_iff h (by decide)) (pass (need (by decide) ?_)) (pure none)
  exact bind (block hexpr hm hm') fun body => pure _

lemma conditional (hm : n ≤ m) (hm' : n' ≤ m') :
    L.Together (n + 1) (n' + 1) (Parser.conditional expr m) (Parser.conditional expr' m') := by
  refine expect (by decide) (pass (bind (hexpr _) fun test => ?_))
  refine need (by decide) (need (by decide) (bind (block hexpr hm hm') fun yes => ?_))
  exact bind (branch hexpr hm hm') fun no => pure _

lemma function (hm : n ≤ m) (hm' : n' ≤ m') :
    L.Together (n + 1) (n' + 1) (Parser.function expr m) (Parser.function expr' m') := by
  refine expect (by decide) (bind (params (by omega) (by omega)) fun names => ?_)
  exact need (by decide) (bind (block hexpr hm hm') fun body => pure _)

lemma operand (hm : n ≤ m) (hm' : n' ≤ m') :
    L.Together (n + 1) (n' + 1) (Parser.operand expr m) (Parser.operand expr' m') := by
  refine current fun t t' h => ?_
  rcases L.alike h with ht | ⟨hk | hk, hk' | hk'⟩
  · rw [show t'.kind = t.kind from congrArg Terminal.kind ht.symm,
      show t'.literal = t.literal from congrArg Terminal.literal ht.symm]
    split
    · exact advance (bind (hexpr _) fun _ => pure _)
    · split
      · exact pure _
      · exact intLiteral h ht
      · exact pure _
      · exact pure _
      · exact pure _
      · exact grouped hexpr
      · exact conditional hexpr hm hm'
      · exact function hexpr hm hm'
      · exact noOperand
  all_goals
    rw [hk, hk']
    exact noOperand

lemma extend (min : Precedence) (hm : n ≤ m) (hm' : n' ≤ m') (left : Expr) :
    L.Together (n + 1) (n' + 1) (Parser.extend expr min m left)
      (Parser.extend expr' min m' left) := by
  have hstop : ∀ (e : Precedence → Parser Expr) m left (s : State), s.stream.peek.EndsBlock →
      Parser.extend e min m left s = .ok left s := by
    intro e m left s hs
    refine extend_stop ?_ m left
    rcases hs with hk | hk <;> (rw [hk]; exact Nat.not_lt_zero _)
  refine loop (fun m left => .extend (fun min => (hexpr min).forward) min m left) (hstop expr)
    (hstop expr') (fun {k k' m m'} hk hk' hkm hkm' ih left => ?_) (Nat.succ_le_succ hm)
    (Nat.succ_le_succ hm') left
  have hless : ∀ min, L.Together k k' (expr min) (expr' min) := fun min =>
    (hexpr min).weaken (Nat.le_of_lt_succ hk) (Nat.le_of_lt_succ hk')
  refine peek fun t t' h => ?_
  dsimp only
  rw [← congr_kind h Precedence.ofKind rfl, ← congr_kind h BinaryOp.ofKind? rfl]
  refine ite Iff.rfl (ite (kind_eq_iff h (by decide)) (advance ?_) ?_) (pure left)
  · have hargs := (argsOrNone hless hkm hkm').weaken (Nat.le_succ k) (Nat.le_succ k')
    exact bind hargs fun list => ih _
  · split
    · exact advance (pass (bind (hless _) fun right => ih _))
    · exact pure left

end

/-- Two runs stay together that have enough rounds each. -/
theorem expression (hm : n ≤ m) (hm' : n' ≤ m') (min : Precedence) :
    L.Together n n' (Parser.expression m min) (Parser.expression m' min) := by
  have hend : ∀ k k' m m' min, k = 0 ∨ k' = 0 →
      L.Together k k' (Parser.expression m min) (Parser.expression m' min) := by
    refine fun k k' m m' min hk => ⟨.expression m min, fun {j j' s s'} hj hj' h => ?_⟩
    rcases h.current_ends (by omega) with hlost | ⟨hs, hs'⟩
    · exact .inl (L.lost_of_moves (Along.expression m min s) hlost)
    · rw [expression_of_endsBlock hs, expression_of_endsBlock hs']
      exact noOperand.outcome hj hj' h
  induction n generalizing n' m m' min with
  | zero => exact hend 0 n' m m' min (.inl rfl)
  | succ n ih =>
    by_cases hlast : n' = 0
    · exact hend (n + 1) n' m m' min (.inr hlast)
    obtain ⟨n', rfl⟩ : ∃ j, n' = j + 1 := ⟨n' - 1, by omega⟩
    obtain ⟨m, rfl⟩ : ∃ j, m = j + 1 := ⟨m - 1, by omega⟩
    obtain ⟨m', rfl⟩ : ∃ j, m' = j + 1 := ⟨m' - 1, by omega⟩
    have hexpr : ∀ min, L.Together n n' (Parser.expression m min) (Parser.expression m' min) :=
      ih (by omega) (by omega)
    exact bind (operand hexpr (by omega) (by omega)) fun left =>
      extend hexpr min (by omega) (by omega) left

end Together

/-- Two runs stay together over the next statement. -/
theorem At.statement {s s' : State} (h : L.At n n' s s') :
    L.lost (final (Parser.statement (Parser.expression n) s)) ∨
      L.Outcome n n' (Parser.statement (Parser.expression n) s)
        (Parser.statement (Parser.expression n') s') := by
  have hexpr : ∀ min, L.Together n n' (Parser.expression n min) (Parser.expression n' min) :=
    .expression (Nat.le_refl n) (Nat.le_refl n')
  exact (Together.statement hexpr).outcome (Nat.le_refl n) (Nat.le_refl n') h

end Lockstep
end Parser
end Monkey
