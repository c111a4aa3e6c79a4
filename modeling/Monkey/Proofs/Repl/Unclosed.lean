import Monkey.Proofs.Program.Brackets
import Monkey.Proofs.Program.Lockstep
import Monkey.Proofs.Token.Append

/-! Counting brackets tells which inputs are complete. A text that can be read has no bracket
closed too often, and as many closing braces can be added to it as there are brackets open, for the
end of the input has closed these blocks already. -/
open Monkey.Grammar Monkey.Parser Monkey.Parser.State

namespace Monkey
namespace Parser

variable {s s' : State} {n n' : Nat}

/-- The second run finds closing braces where the first is at the end of the input. -/
structure Closes (s s' : State) : Prop where
  ahead : s.Ahead s'.stream.terminals
  eof : s'.stream.eof.kind = .eof

lemma terminals_of_cons {t : Token} {ts : List Token} (h : s.stream.tokens = t :: ts) :
    s.stream.terminals = t.terminal :: s.advance.stream.terminals ∧ s.stream.current = t := by
  simp [TokenStream.terminals, TokenStream.current, TokenStream.advance, h]

lemma terminals_of_nil (h : s.stream.tokens = []) :
    s.stream.terminals = [] ∧ s.stream.current = s.stream.eof ∧ s.advance = s := by
  obtain ⟨⟨tokens, eof⟩, errors⟩ := s
  obtain rfl : tokens = [] := h
  exact ⟨rfl, rfl, rfl⟩

lemma tokens_eq_nil_of_ahead (h : s.Ahead []) : s.stream.tokens = [] := by
  obtain ⟨k, hk⟩ := h.closed
  simpa [TokenStream.terminals] using (List.append_eq_nil_iff.mp hk).1

namespace Closes

lemma current (h : Closes s s') : s.stream.current.terminal = s'.stream.current.terminal ∨
    s.stream.current.kind = .eof ∧ s'.stream.current.EndsBlock := by
  have hahead := h.ahead
  cases htokens : s'.stream.tokens with
  | nil =>
    obtain ⟨hterminals, hcurrent, -⟩ := terminals_of_nil htokens
    rw [hterminals] at hahead
    exact .inr ⟨hahead.current_of_nil, hcurrent ▸ .inr h.eof⟩
  | cons t ts =>
    obtain ⟨hterminals, hcurrent⟩ := terminals_of_cons htokens
    rw [hterminals] at hahead
    obtain ⟨-, ⟨hterminal, -⟩ | ⟨hbrace, heof⟩⟩ := hahead.uncons
    · exact .inl (hcurrent ▸ hterminal)
    · exact .inr ⟨heof, hcurrent ▸ .inl hbrace⟩

lemma advance (h : Closes s s') : Closes s.advance s'.advance := by
  refine ⟨?_, h.eof⟩
  have hahead := h.ahead
  cases htokens : s'.stream.tokens with
  | nil =>
    obtain ⟨hterminals, -, hadvance⟩ := terminals_of_nil htokens
    rw [hadvance, hterminals]
    rw [hterminals] at hahead
    rwa [(terminals_of_nil (tokens_eq_nil_of_ahead hahead)).2.2]
  | cons t ts =>
    rw [(terminals_of_cons htokens).1] at hahead
    exact hahead.uncons.1

end Closes

/-- The end of the input is as good as closing braces. -/
def closing : Lockstep where
  states := Closes
  tokens t t' := t.terminal = t'.terminal ∨ t.EndsBlock ∧ t'.EndsBlock
  lost _ := False
  lost_of_moves _ := id
  eof h := ⟨h.ahead.eof, h.eof⟩
  total t := ⟨t, .inl rfl⟩
  alike := id
  current h := .inr (h.current.imp_right fun hends => ⟨.inr hends.1, hends.2⟩)
  peek h := .inr (h.advance.current.imp_right fun hends => ⟨.inr hends.1, hends.2⟩)
  advance h := .inr h.advance
  record h _ := ⟨⟨h.ahead.eof, h.ahead.closed⟩, h.eof⟩

/-- Closing braces that no block is left for cannot be read. -/
lemma Closes.tokens_eq_nil (h : Closes s s') (hs : s.stream.tokens = []) (hs' : s'.Proper)
    (hn' : s'.stream.tokens.length ≤ n') (hclean : (programUpTo n' s').2.errors = []) :
    s'.stream.tokens = [] := by
  obtain ⟨k, hk⟩ := h.ahead.closed
  rw [(terminals_of_nil hs).1, List.nil_append] at hk
  obtain ⟨d, hd, -⟩ := exists_weight_eq hs' hn' hclean
  rw [← hk, weight_closers] at hd
  obtain rfl : k = 0 := by omega
  simpa [closers, TokenStream.terminals] using hk.symm

/-- Where both runs go well, they read the same program. -/
theorem Closes.program_eq (h : Closes s s') (hs : s.Proper) (hs' : s'.Proper)
    (hn : s.stream.tokens.length ≤ n) (hn' : s'.stream.tokens.length ≤ n')
    (hclean : (programUpTo n s).2.errors = []) (hclean' : (programUpTo n' s').2.errors = []) :
    (programUpTo n' s').1 = (programUpTo n s).1 := by
  induction n generalizing n' s s' with
  | zero =>
    have htokens : s.stream.tokens = [] := List.length_eq_zero_iff.mp (Nat.le_zero.mp hn)
    have hk' := hs'.current_of_nil (h.tokens_eq_nil htokens hs' hn' hclean')
    rw [programUpTo_of_eof hk', programUpTo_of_eof (hs.current_of_nil htokens)]
  | succ n ih =>
    by_cases hk : s.stream.current.kind = .eof
    · have hk' := hs'.current_of_nil (h.tokens_eq_nil (hs.tokens_eq_nil hk) hs' hn' hclean')
      rw [programUpTo_of_eof hk', programUpTo_of_eof hk]
    · have hterminal := h.current.resolve_right fun hends => hk hends.1
      have hk' : s'.stream.current.kind ≠ .eof := fun hk' =>
        hk ((congrArg Terminal.kind hterminal).trans hk')
      obtain ⟨n', rfl⟩ := exists_eq_succ h.eof hk' hn'
      have hat : closing.At (n + 1) (n' + 1) s s' := ⟨h, hn, hn'⟩
      have hout := hat.statement.resolve_left id
      have hmoves : s.Moves _ := Along.statement (Along.expression (n + 1)) s
      have hmoves' : s'.Moves _ := Along.statement (Along.expression (n' + 1)) s'
      generalize hx : statement (expression (n + 1)) s = x at hout hmoves
      generalize hx' : statement (expression (n' + 1)) s' = x' at hout hmoves'
      cases hout with
      | @ok stmt t t' ht =>
        rw [programUpTo_of_ok hk hx] at hclean ⊢
        rw [programUpTo_of_ok hk' hx'] at hclean' ⊢
        rw [ih ht.states.advance (hs.moves hmoves).advance (hs'.moves hmoves').advance
          ht.length_left ht.length_right hclean hclean']
      | @error e _ t _ _ ht =>
        rw [programUpTo_of_error hk hx] at hclean
        exact absurd hclean (errors_record_ne_nil n t e)

end Parser

def braces (k : Nat) : String := String.ofList (List.replicate k '\x7d')

lemma terminals_braces (k : Nat) : terminals ('\n' :: List.replicate k '\x7d') = closers k := by
  rw [terminals_blank (by decide)]
  induction k with
  | zero => rfl
  | succ k ih => rw [List.replicate_succ, terminals_rbrace, ih, closers_succ]

/-- Closing braces on a line of their own leave the tokens before them as they are, where these
can be read. -/
lemma terminals_append_braces {source : String} (h : (parse source).errors = []) (k : Nat) :
    (TokenStream.ofSource (source ++ "\n" ++ braces k)).terminals =
      (TokenStream.ofSource source).terminals ++ closers k := by
  obtain ⟨u, hu, hahead⟩ :=
    exists_derives_of_errors_eq_nil (proper_ofSource source) (Nat.le_refl _) h
  obtain ⟨d, rfl⟩ := hahead.closed
  have htext : ("\n" ++ braces k).toList = '\n' :: List.replicate k '\x7d' := by simp [braces]
  have hstays : ∀ t ∈ (TokenStream.ofSource source).tokens.getLast?,
      t.kind.Stays ("\n" ++ braces k).toList := by
    intro t ht
    refine .inr ⟨hu.kind_ne_illegal t.terminal ?_, ?_⟩
    · exact List.mem_append_left _ (List.mem_map_of_mem (List.mem_of_getLast? ht))
    · rw [htext]
      simpa using by decide
  rw [String.append_assoc, TokenStream.ofSource_append hstays, ← terminals_braces k, ← htext]
  simp [TokenStream.terminals, TokenStream.shift, terminals, TokenStream.ofSource, Cursor.ofSource,
    Function.comp_def]

lemma closers_append (j k : Nat) : closers j ++ closers k = closers (j + k) :=
  List.replicate_append_replicate

section
variable {source : String} (h : (parse source).errors = [])
include h

lemma exists_openBrackets_eq : ∃ d : Nat, Repl.openBrackets source = d ∧
    ∀ n, Derives .program ((TokenStream.ofSource source).terminals ++ closers n) ↔ n = d := by
  obtain ⟨d, hd, hderives⟩ := exists_weight_eq (proper_ofSource source) (Nat.le_refl _) h
  exact ⟨d, (openBrackets_eq_weight source).trans hd, hderives⟩

lemma errors_append_braces (k : Nat) : (parse (source ++ "\n" ++ braces k)).errors = [] ↔
    (k : Int) ≤ Repl.openBrackets source := by
  obtain ⟨d, hd, hderives⟩ := exists_openBrackets_eq h
  have hterminals := terminals_append_braces h k
  constructor
  · intro hk
    obtain ⟨j, hj, -⟩ := exists_openBrackets_eq hk
    rw [openBrackets_eq_weight, hterminals, weight_append, weight_closers,
      ← openBrackets_eq_weight] at hj
    omega
  · intro hk
    refine errors_programUpTo ⟨rfl, d - k, ?_⟩ ((hderives d).mpr rfl) (Nat.le_refl _)
    rw [State.ofStream, hterminals, List.append_assoc, closers_append,
      Nat.add_sub_cancel' (by omega)]

lemma program_append_braces {k : Nat} (hk : (k : Int) ≤ Repl.openBrackets source) :
    (parse (source ++ "\n" ++ braces k)).program = (parse source).program := by
  have hcloses : Closes (.ofStream (.ofSource source))
      (.ofStream (.ofSource (source ++ "\n" ++ braces k))) :=
    ⟨⟨rfl, k, (terminals_append_braces h k).symm⟩, rfl⟩
  exact hcloses.program_eq (proper_ofSource _) (proper_ofSource _) (Nat.le_refl _)
    (Nat.le_refl _) h ((errors_append_braces h k).mpr hk)

end

/-- For a text that can be read, the number of open brackets is not negative. It is how many closing
braces can be added, which changes nothing in the program; and it is how many blocks are closed by
nothing but the end of the input. -/
theorem parse_append_braces (source : String) (h : (parse source).errors = []) :
    0 ≤ Repl.openBrackets source ∧
      (∀ k : Nat, ((parse (source ++ "\n" ++ braces k)).errors = [] ↔
          (k : Int) ≤ Repl.openBrackets source) ∧
        ((k : Int) ≤ Repl.openBrackets source →
          (parse (source ++ "\n" ++ braces k)).program = (parse source).program)) ∧
      (∀ n : Nat, Derives .program ((TokenStream.ofSource source).terminals ++ closers n) ↔
        (n : Int) = Repl.openBrackets source) ∧
      (Repl.isUnclosed source = true ↔
        ¬Derives .program (TokenStream.ofSource source).terminals) := by
  obtain ⟨d, hd, hderives⟩ := exists_openBrackets_eq h
  refine ⟨by omega, fun k => ⟨errors_append_braces h k, program_append_braces h⟩, fun n => ?_, ?_⟩
  · rw [hderives, hd]
    exact Int.natCast_inj.symm
  · have hzero := hderives 0
    rw [closers, List.replicate_zero, List.append_nil] at hzero
    rw [hzero, Repl.isUnclosed, hd, decide_eq_true_eq]
    omega

/-- The body of a function and a branch in it are left open, behind a text that holds a bracket. -/
theorem parse_append_braces_twoOpen :
    (parse "fn(x)\x7bif(x)\x7b\"\x7d\"").errors = [] ∧
      (parse ("fn(x)\x7bif(x)\x7b\"\x7d\"" ++ "\n" ++ braces 2)).program =
        (parse "fn(x)\x7bif(x)\x7b\"\x7d\"").program ∧
      (parse ("fn(x)\x7bif(x)\x7b\"\x7d\"" ++ "\n" ++ braces 3)).errors ≠ [] := by
  have hopen : Repl.openBrackets "fn(x)\x7bif(x)\x7b\"\x7d\"" = 2 := by decide +kernel
  have hclean : (parse "fn(x)\x7bif(x)\x7b\"\x7d\"").errors = [] := by decide +kernel
  have hparse := (parse_append_braces _ hclean).2.1
  refine ⟨hclean, (hparse 2).2 (by rw [hopen]; decide), fun h => ?_⟩
  have hthree := (hparse 3).1.mp h
  rw [hopen] at hthree
  exact absurd hthree (by decide)

end Monkey
