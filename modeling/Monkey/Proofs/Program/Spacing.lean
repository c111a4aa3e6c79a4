import Monkey.Proofs.Program.Parallel
import Monkey.Proofs.Token.Layout

/-! What is read does not depend on the spacing of a text. Two texts with the same tokens, wherever
these stand, are read as the same program; and the errors of the one stand at the same tokens as
the errors of the other. -/
namespace Monkey

namespace TokenStream

variable {source : String} {i j : Nat}

lemma current_drop (s : TokenStream) (i : Nat) :
    (s.drop i).current = s.tokens[i]?.getD s.eof := by
  rw [current, drop, List.headD_eq_head?_getD, List.head?_drop]

lemma terminal_current_drop (s : TokenStream) (i : Nat) :
    (s.drop i).current.terminal = s.terminals[i]?.getD s.eof.terminal := by
  rw [current_drop, terminals, List.getElem?_map]
  cases s.tokens[i]? <;> rfl

/-- A token and one behind it do not stand at the same place. -/
lemma span_ne_of_lt (hij : i < j) (hi : i < (ofSource source).tokens.length) :
    ((ofSource source).drop i).current.span ≠ ((ofSource source).drop j).current.span := by
  have hcover : Cover source (ofSource source).tokens := (Cursor.ofSource source).layout.cover
  have hnonempty := hcover.nonempty _ (List.getElem_mem hi)
  rw [current_drop, current_drop, List.getElem?_eq_getElem hi, Option.getD_some]
  intro hspan
  by_cases hj : j < (ofSource source).tokens.length
  · have hordered := List.pairwise_iff_getElem.mp hcover.ordered i j hi hj hij
    rw [List.getElem?_eq_getElem hj, Option.getD_some] at hspan
    rw [← hspan] at hordered
    omega
  · rw [List.getElem?_eq_none (Nat.le_of_not_lt hj), Option.getD_none] at hspan
    have hempty : (ofSource source).eof.span.start = (ofSource source).eof.span.stop := rfl
    rw [hspan] at hnonempty
    omega

/-- Places with the same span are the same, or both are behind the last token. -/
lemma eq_or_le_of_span_eq
    (h : ((ofSource source).drop i).current.span = ((ofSource source).drop j).current.span) :
    i = j ∨ (ofSource source).tokens.length ≤ i ∧ (ofSource source).tokens.length ≤ j := by
  rcases Nat.lt_trichotomy i j with hij | rfl | hij
  · have hi := mt (span_ne_of_lt hij) (not_not_intro h)
    exact .inr ⟨by omega, by omega⟩
  · exact .inl rfl
  · have hj := mt (span_ne_of_lt hij) (not_not_intro h.symm)
    exact .inr ⟨by omega, by omega⟩

/-- The tokens have the same kind and literal, and whichever place of the first stream the one
stands at, the other stands at that place of the second. -/
def Answers (s s' : TokenStream) (t t' : Token) : Prop :=
  t.terminal = t'.terminal ∧
    ∀ i, t.span = (s.drop i).current.span → t'.span = (s'.drop i).current.span

variable {s' : TokenStream}

/-- A place of the first stream has one place of the second that answers to it. -/
lemma current_drop_congr (hlen : (ofSource source).tokens.length = s'.tokens.length)
    (h : ((ofSource source).drop i).current.span = ((ofSource source).drop j).current.span) :
    (s'.drop i).current = (s'.drop j).current := by
  rcases eq_or_le_of_span_eq h with rfl | ⟨hi, hj⟩
  · rfl
  · rw [current_drop, current_drop, List.getElem?_eq_none (hlen ▸ hi),
      List.getElem?_eq_none (hlen ▸ hj)]

lemma exists_answers (hlen : (ofSource source).tokens.length = s'.tokens.length) (t : Token) :
    ∃ t', Answers (ofSource source) s' t t' := by
  by_cases ht : ∃ i, t.span = ((ofSource source).drop i).current.span
  · obtain ⟨i, hi⟩ := ht
    refine ⟨{ t with span := (s'.drop i).current.span }, rfl, fun j hj => ?_⟩
    rw [current_drop_congr hlen (hi.symm.trans hj)]
  · exact ⟨t, rfl, fun i hi => absurd ⟨i, hi⟩ ht⟩

lemma answers_drop (hterminals : (ofSource source).terminals = s'.terminals)
    (heof : s'.eof.terminal = ⟨.eof, ""⟩) (i : Nat) :
    Answers (ofSource source) s' ((ofSource source).drop i).current (s'.drop i).current := by
  have hlen : (ofSource source).tokens.length = s'.tokens.length := by
    simpa [terminals] using congrArg List.length hterminals
  refine ⟨?_, fun j hj => congrArg Token.span (current_drop_congr hlen hj)⟩
  rw [terminal_current_drop, terminal_current_drop, hterminals, heof]
  rfl

end TokenStream

/-- The same error at another place. -/
def ParseError.moveTo (span : Span) : ParseError → ParseError
  | unexpected expected got _ => .unexpected expected got span
  | noOperand got _ => .noOperand got span
  | intOutOfRange literal _ => .intOutOfRange literal span

/-- The errors are the same but for their places, and the place of the second in its stream is that
of the first in the other. -/
def TokenStream.Matches (s s' : TokenStream) (e e' : ParseError) : Prop :=
  e' = e.moveTo e'.span ∧
    ∀ i, e.span = (s.drop i).current.span → e'.span = (s'.drop i).current.span

lemma ParseError.Alike.matches {s s' : TokenStream} {e e' : ParseError}
    (h : e.Alike (s.Answers s') e') : s.Matches s' e e' := by
  cases h with
  | unexpected k h | noOperand h | intOutOfRange h =>
    obtain ⟨hkind, hliteral⟩ := Terminal.mk.inj h.1
    refine ⟨?_, h.2⟩
    simp [moveTo, span, hkind, hliteral]

/-- Texts with the same tokens are read as the same program, with the same errors at the same
tokens. -/
theorem parse_of_terminals_eq (a b : String)
    (h : (TokenStream.ofSource a).terminals = (TokenStream.ofSource b).terminals) :
    (parse a).program = (parse b).program ∧
      List.Forall₂ ((TokenStream.ofSource a).Matches (.ofSource b)) (parse a).errors
        (parse b).errors := by
  have hlen : (TokenStream.ofSource a).tokens.length = (TokenStream.ofSource b).tokens.length := by
    simpa [TokenStream.terminals] using congrArg List.length h
  have hparallel : Parser.Parallel (TokenStream.Answers (.ofSource a) (.ofSource b))
      (.ofStream (.ofSource a)) (.ofStream (.ofSource b)) :=
    ⟨⟨rfl, rfl⟩, TokenStream.answers_drop h rfl, .nil⟩
  obtain ⟨hprogram, herrors⟩ := hparallel.program_eq (TokenStream.exists_answers hlen)
    (fun h => h.1) (Nat.le_refl _) (Nat.le_refl _)
  exact ⟨hprogram, herrors.imp fun _ _ h => h.matches⟩

/-- Three errors, one of each sort, which stand further apart in the second text. -/
theorem parse_of_terminals_eq_threeErrors :
    (TokenStream.ofSource "let 1;é(,9223372036854775808").terminals =
        (TokenStream.ofSource "\nlet 1 ; é( ,\t9223372036854775808").terminals ∧
      (parse "let 1;é(,9223372036854775808").errors.map ParseError.span =
        [⟨4, 5⟩, ⟨9, 10⟩, ⟨10, 29⟩] ∧
      (parse "\nlet 1 ; é( ,\t9223372036854775808").errors.map ParseError.span =
        [⟨5, 6⟩, ⟨13, 14⟩, ⟨15, 34⟩] ∧
      (parse "let 1;é(,9223372036854775808").program =
        (parse "\nlet 1 ; é( ,\t9223372036854775808").program ∧
      List.Forall₂ ((TokenStream.ofSource "let 1;é(,9223372036854775808").Matches
          (.ofSource "\nlet 1 ; é( ,\t9223372036854775808"))
        (parse "let 1;é(,9223372036854775808").errors
        (parse "\nlet 1 ; é( ,\t9223372036854775808").errors := by
  have hterminals : (TokenStream.ofSource "let 1;é(,9223372036854775808").terminals =
      (TokenStream.ofSource "\nlet 1 ; é( ,\t9223372036854775808").terminals := by decide +kernel
  exact ⟨hterminals, by decide +kernel, by decide +kernel, parse_of_terminals_eq _ _ hterminals⟩

end Monkey
