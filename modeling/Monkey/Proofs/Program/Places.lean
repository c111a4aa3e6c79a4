import Monkey.Proofs.Program.Spacing

/-! Where errors stand. Each error names the token that it stands at, and the errors of a text come
in the order of its tokens. An error is found at the current token or at the next one; once it is
recorded the parser only ever moves on, and a token at which no operand could be read is behind it
before it looks for an operand again. -/
namespace Monkey

/-- The token that an error is about, and what the error says of it. -/
inductive ParseError.StandsAt (t : Token) : ParseError → Prop
  | unexpected {expected : Token.Kind} (h : t.kind ≠ expected) :
      StandsAt t (.unexpected expected t.kind t.span)
  | noOperand : StandsAt t (.noOperand t.kind t.span)
  | intOutOfRange (hkind : t.kind = .int) (hvalue : 2 ^ 63 - 1 < Parser.digitsValue t.literal) :
      StandsAt t (.intOutOfRange t.literal t.span)

/-- Whether the error is that a token is no operand, as opposed to another token being needed. -/
def ParseError.isOperandError : ParseError → Bool
  | unexpected .. => false
  | noOperand .. => true
  | intOutOfRange .. => true

lemma ParseError.StandsAt.span_eq {t : Token} {e : ParseError} (h : e.StandsAt t) :
    e.span = t.span := by
  cases h <;> rfl

namespace TokenStream

lemma advance_drop (src : TokenStream) (i : Nat) : (src.drop i).advance = src.drop (i + 1) := by
  rw [advance, drop, drop, List.tail_drop]

/-- The errors stand at tokens of the stream, in their order, and the next one can stand at token
number `i` at the earliest. -/
inductive Log (src : TokenStream) : Nat → List ParseError → Prop
  | nil {i : Nat} : Log src i []
  | stay {i : Nat} {errors : List ParseError} {e : ParseError} (h : Log src i errors)
      (he : e.StandsAt (src.drop i).current) (hsort : e.isOperandError = false) :
      Log src i (errors ++ [e])
  | pass {i : Nat} {errors : List ParseError} {e : ParseError} (h : Log src i errors)
      (he : e.StandsAt (src.drop i).current) : Log src (i + 1) (errors ++ [e])
  | later {i j : Nat} {errors : List ParseError} (h : Log src i errors) (hij : i ≤ j) :
      Log src j errors

namespace Log

variable {src : TokenStream} {i : Nat} {errors : List ParseError}

lemma exists_place (h : Log src i errors) : ∀ e ∈ errors, ∃ j ≤ i,
    e.StandsAt (src.drop j).current ∧ (e.isOperandError = true → j < i) := by
  induction h with
  | nil => nofun
  | @stay i errors e h he hsort ih =>
    refine List.forall_mem_append.mpr ⟨ih, List.forall_mem_singleton.mpr ?_⟩
    exact ⟨i, Nat.le_refl i, he, fun h => absurd (hsort.symm.trans h) nofun⟩
  | @pass i errors e h he ih =>
    refine List.forall_mem_append.mpr ⟨fun e' he' => ?_, List.forall_mem_singleton.mpr ?_⟩
    · obtain ⟨j, hj, hstands, hlt⟩ := ih e' he'
      exact ⟨j, Nat.le_succ_of_le hj, hstands, fun h => Nat.lt_succ_of_lt (hlt h)⟩
    · exact ⟨i, Nat.le_succ i, he, fun _ => Nat.lt_succ_self i⟩
  | @later i j errors h hij ih =>
    intro e he
    obtain ⟨k, hk, hstands, hlt⟩ := ih e he
    exact ⟨k, hk.trans hij, hstands, fun h => (hlt h).trans_le hij⟩

/-- The first error stands before the second one or, unless its token is no operand, at the same
token. -/
def Before (src : TokenStream) (e e' : ParseError) : Prop :=
  ∃ j j', j ≤ j' ∧ e.StandsAt (src.drop j).current ∧ e'.StandsAt (src.drop j').current ∧
    (e.isOperandError = true → j < j')

lemma before_last (h : Log src i errors) {e' : ParseError}
    (he' : e'.StandsAt (src.drop i).current) : ∀ e ∈ errors, ∀ b ∈ [e'], Before src e b := by
  intro e he b hb
  obtain rfl := List.mem_singleton.mp hb
  obtain ⟨j, hj, hstands, hlt⟩ := h.exists_place e he
  exact ⟨j, i, hj, hstands, he', hlt⟩

theorem pairwise (h : Log src i errors) : errors.Pairwise (Before src) := by
  induction h with
  | nil => exact .nil
  | stay h he hsort ih =>
    exact List.pairwise_append.mpr ⟨ih, List.pairwise_singleton _ _, h.before_last he⟩
  | pass h he ih =>
    exact List.pairwise_append.mpr ⟨ih, List.pairwise_singleton _ _, h.before_last he⟩
  | later _ _ ih => exact ih

end Log
end TokenStream

namespace Parser

/-- The parser stands at some token of the stream, and its next error can stand `d` tokens further
on at the earliest. -/
def State.Logged (src : TokenStream) (d : Nat) (s : State) : Prop :=
  ∃ i, s.stream = src.drop i ∧ src.Log (i + d) s.errors

/-- A run ends where the next error can stand `d` tokens further on, or with an error behind which
the next one can stand at the next token. -/
def Ends {α : Type} (src : TokenStream) (d : Nat) : EStateM.Result ParseError State α → Prop
  | .ok _ t => t.Logged src d
  | .error e t => (t.record e).Logged src 1

def Locates {α : Type} (src : TokenStream) (d d' : Nat) (p : Parser α) : Prop :=
  ∀ s : State, s.Logged src d → Ends src d' (p s)

/-- The same, where the current token is known. -/
def LocatesFrom {α : Type} (src : TokenStream) (t : Token) (d d' : Nat) (p : Parser α) : Prop :=
  ∀ s : State, s.stream.current = t → s.Logged src d → Ends src d' (p s)

variable {src : TokenStream} {d d' d'' : Nat}

namespace State.Logged

variable {s : State}

lemma mono (h : s.Logged src d) (hd : d ≤ d') : s.Logged src d' := by
  obtain ⟨i, hstream, hlog⟩ := h
  exact ⟨i, hstream, hlog.later (Nat.add_le_add_left hd i)⟩

lemma advance (h : s.Logged src 1) : s.advance.Logged src 0 := by
  obtain ⟨i, hstream, hlog⟩ := h
  exact ⟨i + 1, by rw [advance_stream, hstream, TokenStream.advance_drop], hlog⟩

/-- An error at the current token, where no other stands. -/
lemma record_current (h : s.Logged src 0) {e : ParseError} (he : e.StandsAt s.stream.current) :
    (s.record e).Logged src 1 := by
  obtain ⟨i, hstream, hlog⟩ := h
  exact ⟨i, hstream, hlog.pass (hstream ▸ he)⟩

/-- An error at the next token, where others may stand and more may follow. -/
lemma record_peek (h : s.Logged src 1) {e : ParseError} (he : e.StandsAt s.stream.peek)
    (hsort : e.isOperandError = false) : (s.record e).Logged src 1 := by
  obtain ⟨i, hstream, hlog⟩ := h
  rw [TokenStream.peek, hstream, TokenStream.advance_drop] at he
  exact ⟨i, hstream, hlog.stay he hsort⟩

end State.Logged

namespace Locates

variable {α β : Type}

lemma weaken {p : Parser α} (hp : Locates src 1 d p) : Locates src 0 d p :=
  fun s hs => hp s (hs.mono (Nat.zero_le 1))

lemma pure (a : α) : Locates src d d (Pure.pure a : Parser α) := fun _ hs => hs

lemma bind {p : Parser α} {f : α → Parser β} (hp : Locates src d d' p)
    (hf : ∀ a, Locates src d' d'' (f a)) : Locates src d d'' (p >>= f) := by
  intro s hs
  have hend := hp s hs
  change Ends src d'' (EStateM.bind p f s)
  rw [EStateM.bind]
  cases hps : p s with
  | ok a t =>
    rw [hps] at hend
    exact hf a t hend
  | error e t =>
    rw [hps] at hend
    exact hend

lemma ite {c : Prop} [Decidable c] {p q : Parser α} (hp : Locates src d d' p)
    (hq : Locates src d d' q) : Locates src d d' (if c then p else q) := by
  split
  · exact hp
  · exact hq

/-- Looking at a token changes nothing. -/
lemma peek {f : Token → Parser β} (hf : ∀ t, Locates src d d' (f t)) :
    Locates src d d' (Parser.peek >>= f) := fun s hs => hf _ s hs

lemma current {f : Token → Parser β} (hf : ∀ t, LocatesFrom src t d d' (f t)) :
    Locates src d d' (Parser.current >>= f) := fun s hs => hf _ s rfl hs

lemma here {p : Parser α} (hp : Locates src d d' p) (t : Token) : LocatesFrom src t d d' p :=
  fun s _ hs => hp s hs

/-- One token further, it does not matter which of the two places the next error could stand at. -/
lemma advance {p : Parser β} (hp : Locates src 0 d p) :
    Locates src 1 d (Parser.advance >>= fun _ => p) := fun s hs => hp s.advance hs.advance

lemma noOperand : Locates src 0 d (noOperand : Parser α) := fun _ hs => hs.record_current .noOperand

lemma expect {k : Token.Kind} : Locates src 1 0 (expect k) := by
  intro s hs
  rw [Parser.expect, bind_peek]
  split
  · exact hs.advance
  · next hk => exact hs.record_peek (.unexpected hk) rfl

lemma skip (k : Token.Kind) : Locates src 1 1 (skip k) := by
  intro s hs
  rw [Parser.skip, bind_peek]
  split
  · exact hs.advance.mono (Nat.zero_le 1)
  · exact hs

lemma expectName : Locates src 1 0 expectName :=
  bind expect fun _ => current fun t => (pure t.literal).here t

lemma intLiteral {t : Token} (hk : t.kind = .int) : LocatesFrom src t 0 1 (intLiteral t) := by
  rintro s rfl hs
  rw [Parser.intLiteral]
  split
  · exact hs.mono (Nat.zero_le 1)
  · next hlt =>
    have hvalue : 2 ^ 63 - 1 < digitsValue s.stream.current.literal :=
      Nat.lt_of_succ_le (not_lt.mp hlt)
    exact hs.record_current (.intOutOfRange hk hvalue)

lemma moreNames (n : Nat) : Locates src 1 1 (moreNames n) := by
  induction n with
  | zero => exact pure []
  | succ n ih =>
    refine peek fun _ => ite (advance ?_) (pure [])
    exact (bind expectName fun _ => (bind ih fun _ => pure _).weaken).weaken

lemma params (n : Nat) : Locates src 1 1 (params n) := by
  refine peek fun _ => ite (advance (pure []).weaken) ?_
  refine bind expectName fun _ => weaken ?_
  exact bind (moreNames n) fun _ => bind expect fun _ => (pure _).weaken

section
variable {expr : Precedence → Parser Expr} (hexpr : ∀ min, Locates src 0 1 (expr min))
include hexpr

lemma statement : Locates src 0 1 (statement expr) := by
  have hvalue : ∀ f : Expr → Stmt, Locates src 0 1 (expr .lowest >>= fun value =>
      Parser.skip .semicolon >>= fun _ => Pure.pure (f value)) :=
    fun f => bind (hexpr _) fun _ => bind (skip _) fun _ => pure _
  refine current fun t => here ?_ t
  split
  · refine (bind expectName fun _ => weaken ?_).weaken
    exact bind expect fun _ => (advance (hvalue _)).weaken
  · exact (advance (hvalue _)).weaken
  · exact hvalue _

lemma statements (n : Nat) : Locates src 0 1 (statements expr n) := by
  induction n with
  | zero => exact (pure []).weaken
  | succ n ih =>
    refine current fun t => here (ite (pure []).weaken ?_) t
    exact bind (statement hexpr) fun _ => advance (bind ih fun _ => pure _)

lemma block (n : Nat) : Locates src 1 1 (block expr n) := advance (statements hexpr n)

lemma moreArgs (n : Nat) : Locates src 1 1 (moreArgs expr n) := by
  induction n with
  | zero => exact pure []
  | succ n ih =>
    refine peek fun _ => ite (advance (weaken (advance ?_))) (pure [])
    exact bind (hexpr _) fun _ => bind ih fun _ => pure _

lemma args (n : Nat) : Locates src 1 1 (args expr n) := by
  refine peek fun _ => ite (advance (pure []).weaken) (advance ?_)
  refine bind (hexpr _) fun _ => bind (moreArgs hexpr n) fun _ => ?_
  exact bind expect fun _ => (pure _).weaken

/-- Here errors are recorded before the statement has come to its end. -/
lemma argsOrNone (n : Nat) : Locates src 1 1 (argsOrNone expr n) := by
  intro s hs
  have hend := args hexpr n s hs
  change Ends src 1 (EStateM.tryCatch (Parser.args expr n) _ s)
  rw [EStateM.tryCatch]
  cases hargs : Parser.args expr n s with
  | ok list t =>
    rw [hargs] at hend
    exact hend
  | error e t =>
    rw [hargs] at hend
    exact hend

lemma grouped : Locates src 1 1 (grouped expr) :=
  advance (bind (hexpr _) fun _ => bind expect fun _ => (pure _).weaken)

lemma branch (n : Nat) : Locates src 1 1 (branch expr n) := by
  refine peek fun _ => ite (advance (weaken ?_)) (pure none)
  exact bind expect fun _ => (bind (block hexpr n) fun _ => pure _).weaken

lemma conditional (n : Nat) : Locates src 1 1 (conditional expr n) := by
  refine bind expect fun _ => weaken (advance ?_)
  refine bind (hexpr _) fun _ => bind expect fun _ => weaken (bind expect fun _ => weaken ?_)
  exact bind (block hexpr n) fun _ => bind (branch hexpr n) fun _ => pure _

lemma function (n : Nat) : Locates src 1 1 (function expr n) := by
  refine bind expect fun _ => weaken (bind (params n) fun _ => bind expect fun _ => weaken ?_)
  exact bind (block hexpr n) fun _ => pure _

/-- An operand is read from the current token on, so no other error may stand there yet. -/
lemma operand (n : Nat) : Locates src 0 1 (operand expr n) := by
  refine current fun t => ?_
  split
  · exact (advance (bind (hexpr _) fun _ => pure _)).weaken.here t
  · split
    · exact (pure _).weaken.here t
    · next hk => exact intLiteral hk
    · exact (pure _).weaken.here t
    · exact (pure _).weaken.here t
    · exact (pure _).weaken.here t
    · exact (grouped hexpr).weaken.here t
    · exact (conditional hexpr n).weaken.here t
    · exact (function hexpr n).weaken.here t
    · exact noOperand.here t

lemma extend (min : Precedence) (n : Nat) (left : Expr) :
    Locates src 1 1 (extend expr min n left) := by
  induction n generalizing left with
  | zero => exact pure left
  | succ n ih =>
    refine peek fun t => ite (ite (advance (weaken ?_)) ?_) (pure left)
    · exact bind (argsOrNone hexpr n) fun _ => ih _
    · split
      · exact advance (weaken (advance (bind (hexpr _) fun _ => ih _)))
      · exact pure left

end

theorem expression (n : Nat) (min : Precedence) : Locates src 0 1 (expression n min) := by
  induction n generalizing min with
  | zero => exact noOperand
  | succ n ih => exact bind (operand ih n) fun left => extend ih min n left

end Locates

/-- However many statements are given up, the errors stay in the order of the tokens. -/
theorem State.Logged.programUpTo (n : Nat) {s : State} (hs : s.Logged src 0) :
    (programUpTo n s).2.Logged src 0 := by
  induction n generalizing s with
  | zero => exact hs
  | succ n ih =>
    have hexpr : ∀ min, Locates src 0 1 (expression (n + 1) min) := .expression (n + 1)
    have hend := Locates.statement hexpr s hs
    rw [Parser.programUpTo]
    split
    · exact hs
    · split
      · next stmt t hstmt =>
        rw [hstmt] at hend
        exact ih (State.Logged.advance hend)
      · next e t hstmt =>
        rw [hstmt] at hend
        exact ih (State.Logged.advance hend)

end Parser

namespace TokenStream

variable {source : String} {i j : Nat}

/-- All tokens, that for the end of the input included. -/
def withEnd (s : TokenStream) : List Token := s.tokens ++ [s.eof]

lemma current_drop_mem (s : TokenStream) (i : Nat) : (s.drop i).current ∈ s.withEnd := by
  rw [current_drop, withEnd]
  cases hi : s.tokens[i]? with
  | none => exact List.mem_append_right _ List.mem_cons_self
  | some t => exact List.mem_append_left _ (List.mem_of_getElem? hi)

lemma stop_le_eof {t : Token} (ht : t ∈ (ofSource source).tokens) :
    t.span.stop ≤ (ofSource source).eof.span.start := by
  obtain ⟨e, hspan, -⟩ := (Cursor.ofSource source).layout.cover.reads t ht
  have hlen := congrArg byteLength e.eq_append
  rw [byteLength_append, byteLength_append] at hlen
  have heof : (ofSource source).eof.span.start = 0 + byteLength source.toList := rfl
  have hstop : e.span.stop = byteLength e.before + byteLength e.text := rfl
  rw [← hspan]
  omega

/-- Tokens begin one behind the other. -/
lemma start_le_start (hij : i ≤ j) : ((ofSource source).drop i).current.span.start ≤
    ((ofSource source).drop j).current.span.start := by
  have hcover : Cover source (ofSource source).tokens := (Cursor.ofSource source).layout.cover
  rcases Nat.eq_or_lt_of_le hij with rfl | hlt
  · exact Nat.le_refl _
  by_cases hi : i < (ofSource source).tokens.length
  · have hstop : ((ofSource source).tokens[i]).span.stop ≤
        ((ofSource source).drop j).current.span.start := by
      by_cases hj : j < (ofSource source).tokens.length
      · rw [current_drop, List.getElem?_eq_getElem hj]
        exact List.pairwise_iff_getElem.mp hcover.ordered i j hi hj hlt
      · rw [current_drop, List.getElem?_eq_none (Nat.le_of_not_lt hj)]
        exact stop_le_eof (List.getElem_mem hi)
    rw [current_drop, List.getElem?_eq_getElem hi]
    exact (hcover.nonempty _ (List.getElem_mem hi)).le.trans hstop
  · have hj : (ofSource source).tokens.length ≤ j := (Nat.le_of_not_lt hi).trans hij
    rw [current_drop, current_drop, List.getElem?_eq_none (Nat.le_of_not_lt hi),
      List.getElem?_eq_none hj]

/-- Two tokens of a source that stand at the same place are the same; so if both stand there at
different numbers, it is the end of the source. -/
lemma eq_eof_of_span_eq (hij : i < j) {t : Token} (ht : t ∈ (ofSource source).withEnd)
    (hi : ((ofSource source).drop i).current.span = t.span)
    (hj : ((ofSource source).drop j).current.span = t.span) : t = (ofSource source).eof := by
  have hlen : (ofSource source).tokens.length ≤ i :=
    Nat.le_of_not_lt fun hlt => span_ne_of_lt hij hlt (hi.trans hj.symm)
  have hspan : (ofSource source).eof.span = t.span := by
    rwa [current_drop, List.getElem?_eq_none hlen] at hi
  rcases List.mem_append.mp ht with ht | ht
  · have hnonempty := (Cursor.ofSource source).layout.cover.nonempty t ht
    have hempty : (ofSource source).eof.span.start = (ofSource source).eof.span.stop := rfl
    rw [hspan] at hempty
    omega
  · exact List.mem_singleton.mp ht

end TokenStream

/-- Each error stands at a token of the source, or at its end, and says what is true of that token.
The errors come in the order of their places, and where a token is no operand no other error stands,
unless it is the end of the source. -/
theorem errors_parse_located (source : String) :
    (∀ e ∈ (parse source).errors, ∃ t ∈ (TokenStream.ofSource source).withEnd, e.StandsAt t) ∧
    (parse source).errors.Pairwise fun e e' =>
      e.span.start ≤ e'.span.start ∧
        (e.isOperandError = true → ∀ t ∈ (TokenStream.ofSource source).withEnd,
          e.span = t.span → e'.span = t.span → t = (TokenStream.ofSource source).eof) := by
  have hstart : (Parser.State.ofStream (.ofSource source)).Logged (.ofSource source) 0 :=
    ⟨0, rfl, .nil⟩
  obtain ⟨i, -, hlog⟩ := hstart.programUpTo (TokenStream.ofSource source).tokens.length
  constructor
  · intro e he
    obtain ⟨j, -, hstands, -⟩ := hlog.exists_place e he
    exact ⟨_, TokenStream.current_drop_mem _ j, hstands⟩
  · refine hlog.pairwise.imp ?_
    rintro e e' ⟨j, j', hle, hstands, hstands', hlt⟩
    rw [hstands.span_eq, hstands'.span_eq]
    exact ⟨TokenStream.start_le_start hle, fun hsort t ht =>
      TokenStream.eq_eof_of_span_eq (hlt hsort) ht⟩

/-- A token can be named twice: first another one was needed, and then it is no operand. -/
example : (parse "let ;").errors =
    [.unexpected .ident .semicolon ⟨4, 5⟩, .noOperand .semicolon ⟨4, 5⟩] := by decide +kernel

end Monkey
