import Monkey.Proofs.Program.Success
import Monkey.Proofs.Token.Spelling

/-! What lies ahead of the parser. The end of the input closes every block that is still open, so
the tokens ahead may be continued by closing braces that are not there. -/
namespace Monkey

def TokenStream.terminals (s : TokenStream) : List Terminal := s.tokens.map Token.terminal

/-- Closing braces for `k` blocks that the input leaves open. -/
def closers (k : Nat) : List Terminal := List.replicate k (.of .rbrace)

lemma closers_succ (k : Nat) : closers (k + 1) = .of .rbrace :: closers k := rfl

namespace Parser.State

variable {s t : State} {w : Terminal} {ws : List Terminal}

lemma length_advance (s : State) :
    s.advance.stream.tokens.length = s.stream.tokens.length - 1 := by
  simp [TokenStream.advance]

lemma length_advance_le (s : State) :
    s.advance.stream.tokens.length ≤ s.stream.tokens.length := by
  rw [length_advance]
  omega

/-- From the current token on there are the tokens `ws`, but for closing braces at the end. -/
structure Ahead (s : State) (ws : List Terminal) : Prop where
  eof : s.stream.eof.kind = .eof
  closed : ∃ k, s.stream.terminals ++ closers k = ws

/-- The first token ahead is current, or it is a closing brace and the input has ended. -/
lemma Ahead.uncons (h : s.Ahead (w :: ws)) :
    s.advance.Ahead ws ∧
      (s.stream.current.terminal = w ∧
          s.advance.stream.tokens.length < s.stream.tokens.length ∨
        w.kind = .rbrace ∧ s.stream.current.kind = .eof) := by
  obtain ⟨k, hk⟩ := h.closed
  cases htokens : s.stream.tokens with
  | nil =>
    rw [TokenStream.terminals, htokens, List.map_nil, List.nil_append] at hk
    cases k with
    | zero => simp [closers] at hk
    | succ k =>
      rw [closers_succ, List.cons.injEq] at hk
      refine ⟨⟨h.eof, k, ?_⟩, .inr ⟨?_, ?_⟩⟩
      · rw [State.advance_stream, TokenStream.terminals, TokenStream.advance, htokens]
        exact hk.2
      · rw [← hk.1]
        rfl
      · rw [TokenStream.current, htokens]
        exact h.eof
  | cons tok rest =>
    rw [TokenStream.terminals, htokens, List.map_cons, List.cons_append, List.cons.injEq] at hk
    refine ⟨⟨h.eof, k, ?_⟩, .inl ⟨?_, ?_⟩⟩
    · rw [State.advance_stream, TokenStream.terminals, TokenStream.advance, htokens]
      exact hk.2
    · rw [TokenStream.current, htokens]
      exact hk.1
    · rw [length_advance, htokens]
      exact Nat.lt_succ_self _

/-- A token that is no closing brace is really there. -/
lemma Ahead.cons (h : s.Ahead (w :: ws)) (hw : w.kind ≠ .rbrace) :
    s.stream.current.terminal = w ∧ s.advance.Ahead ws ∧
      s.advance.stream.tokens.length < s.stream.tokens.length := by
  obtain ⟨hnext, ⟨hcurrent, hlt⟩ | ⟨hbrace, -⟩⟩ := h.uncons
  · exact ⟨hcurrent, hnext, hlt⟩
  · exact absurd hbrace hw

/-- A closing brace is there, or the input has ended. -/
lemma Ahead.rbrace (h : s.Ahead (w :: ws)) (hw : w.kind = .rbrace) :
    (s.stream.current.kind = .rbrace ∨ s.stream.current.kind = .eof) ∧ s.advance.Ahead ws := by
  obtain ⟨hnext, ⟨hcurrent, -⟩ | ⟨-, heof⟩⟩ := h.uncons
  · exact ⟨.inl ((congrArg Terminal.kind hcurrent).trans hw), hnext⟩
  · exact ⟨.inr heof, hnext⟩

lemma Ahead.current_of_nil (h : s.Ahead []) : s.stream.current.kind = .eof := by
  obtain ⟨k, hk⟩ := h.closed
  have htokens : s.stream.tokens = [] := by
    simpa [TokenStream.terminals] using (List.append_eq_nil_iff.mp hk).1
  rw [TokenStream.current, htokens]
  exact h.eof

lemma Ahead.kind (h : s.Ahead (w :: ws)) (hw : w.kind ≠ .rbrace) :
    s.stream.current.kind = w.kind :=
  congrArg Terminal.kind (h.cons hw).1

/-- A token of a known kind is current, and can be passed. -/
lemma Ahead.pass (h : s.Ahead (w :: ws)) {k : Token.Kind} (hw : w.kind = k) (hk : k ≠ .rbrace) :
    s.stream.current.kind = k ∧ s.advance.Ahead ws ∧
      s.advance.stream.tokens.length < s.stream.tokens.length :=
  ⟨(h.kind (hw ▸ hk)).trans hw, (h.cons (hw ▸ hk)).2⟩

lemma Ahead.literal (h : s.Ahead (w :: ws)) (hw : w.kind ≠ .rbrace) :
    s.stream.current.literal = w.literal :=
  congrArg Terminal.literal (h.cons hw).1

/-- What does not lie ahead is not there. -/
lemma Ahead.current_ne (h : s.Ahead ws) {k : Token.Kind} (hbrace : k ≠ .rbrace) (heof : k ≠ .eof)
    (hws : ∀ w ∈ ws.head?, w.kind ≠ k) : s.stream.current.kind ≠ k := by
  cases ws with
  | nil =>
    rw [h.current_of_nil]
    exact heof.symm
  | cons w ws =>
    by_cases hw : w.kind = .rbrace
    · rcases (h.rbrace hw).1 with hk | hk
      · rw [hk]
        exact hbrace.symm
      · rw [hk]
        exact heof.symm
    · rw [h.kind hw]
      exact hws w rfl

/-- From `s` the parser has come to `t`, the last token before `ws`, and met no error. -/
structure Reaches (s t : State) (ws : List Terminal) : Prop where
  ahead : t.advance.Ahead ws
  errors : t.errors = s.errors
  length : t.stream.tokens.length ≤ s.stream.tokens.length

lemma reaches_refl (h : s.advance.Ahead ws) : s.Reaches s ws := ⟨h, rfl, Nat.le_refl _⟩

lemma Reaches.of_advance (h : s.advance.Reaches t ws) : s.Reaches t ws :=
  ⟨h.ahead, h.errors, Nat.le_trans h.length (length_advance_le s)⟩

lemma Reaches.trans {u : State} {vs : List Terminal} (h : s.Reaches t ws)
    (hu : t.Reaches u vs) : s.Reaches u vs :=
  ⟨hu.ahead, hu.errors.trans h.errors, Nat.le_trans hu.length h.length⟩

/-- One token further. -/
lemma Reaches.next (h : s.Reaches t (w :: ws)) (hw : w.kind ≠ .rbrace) : s.Reaches t.advance ws :=
  ⟨(h.ahead.cons hw).2.1, h.errors, Nat.le_trans (length_advance_le t) h.length⟩

lemma Reaches.peek (h : s.Reaches t (w :: ws)) (hw : w.kind ≠ .rbrace) :
    t.stream.peek.kind = w.kind := h.ahead.kind hw

lemma reaches_self (h : s.Ahead (w :: ws)) (hw : w.kind ≠ .rbrace) : s.Reaches s ws :=
  reaches_refl (h.cons hw).2.1

/-- A token of a known kind comes next. -/
lemma Reaches.pass (h : s.Reaches t (w :: ws)) {k : Token.Kind} (hw : w.kind = k)
    (hk : k ≠ .rbrace) : t.stream.peek.kind = k ∧ s.Reaches t.advance ws :=
  ⟨(h.peek (hw ▸ hk)).trans hw, h.next (hw ▸ hk)⟩

/-- A semicolon that ends a statement is passed. -/
lemma Reaches.skip (h : s.Reaches t (w :: ws)) (hw : w.kind = .semicolon) :
    s.Reaches (t.skip .semicolon) ws := by
  obtain ⟨hpeek, hnext⟩ := h.pass hw nofun
  rw [State.skip, if_pos hpeek]
  exact hnext

end Parser.State

/-- No `else` follows, which a conditional would take for its own. -/
def NoElse (ws : List Terminal) : Prop := ∀ w ∈ ws.head?, w.kind ≠ .kwElse

lemma noElse_cons {w : Terminal} (h : w.kind ≠ .kwElse) (ws : List Terminal) :
    NoElse (w :: ws) := by
  simpa [NoElse] using h

lemma noElse_nil : NoElse [] := fun _ hw => nomatch hw

namespace Parser

section
variable {t : State} {min : Precedence} {w : Terminal} {ws : List Terminal}

/-- Nothing follows that binds tighter than `min`. -/
def Stops (min : Precedence) (ws : List Terminal) : Prop :=
  ∀ w ∈ ws.head?, ¬min < Precedence.ofKind w.kind

lemma Stops.not_lt (h : Stops min ws) (ht : t.advance.Ahead ws) :
    ¬min < .ofKind t.stream.peek.kind := by
  intro hlt
  have hne : ∀ k, Precedence.ofKind k = .lowest → t.stream.peek.kind ≠ k := by
    intro k hk heq
    rw [heq, hk] at hlt
    exact Nat.not_lt_zero _ hlt
  refine ht.current_ne (hne _ rfl) (hne _ rfl) (fun w hw hk => h w hw ?_) rfl
  rw [hk]
  exact hlt

lemma stops_nil (min : Precedence) : Stops min [] := fun _ hw => nomatch hw

/-- A token that binds nothing. -/
lemma stops_cons (h : Precedence.ofKind w.kind = .lowest) (min : Precedence)
    (ws : List Terminal) : Stops min (w :: ws) := by
  intro v hv
  obtain rfl := Option.some.inj hv
  rw [h]
  exact Nat.not_lt_zero _

/-- What binds nothing at all ends every operand. -/
lemma Stops.weaken (h : Stops .lowest ws) (min : Precedence) : Stops min ws :=
  fun w hw hlt => h w hw (Nat.zero_lt_of_lt hlt)

end

/-- What is read inside parentheses is read with them. -/
lemma operand_of_grouped {s t : State} {n : Nat} {e : Expr} {w : Terminal} {ws : List Terminal}
    (hkind : s.stream.current.kind = .lparen) (hw : w.kind = .rparen)
    (h : expression n .lowest s.advance = .ok e t) (ht : s.advance.Reaches t (w :: ws)) :
    operand (expression n) n s = .ok e t.advance ∧ s.Reaches t.advance ws := by
  obtain ⟨hpeek, hnext⟩ := ht.pass hw nofun
  rw [operand_lparen hkind, grouped_eq_ok]
  exact ⟨⟨t, h, hpeek, rfl⟩, hnext.of_advance⟩

end Parser
end Monkey
