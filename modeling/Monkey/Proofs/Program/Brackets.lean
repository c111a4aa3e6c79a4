import Monkey.Proofs.Program.Complete
import Monkey.Repl.Input

/-! Brackets in derivable texts. Every production opens and closes equally many of them, so how
many closing braces the end of the input stands for can be counted on the tokens. -/
open Monkey.Grammar Monkey.Parser

namespace Monkey

/-- Opening brackets less closing ones. -/
def weight : List Terminal → Int
  | [] => 0
  | w :: ws => Repl.bracketWeight w.kind + weight ws

@[simp] theorem weight_nil : weight [] = 0 := rfl

@[simp] theorem weight_cons (w : Terminal) (ws : List Terminal) :
    weight (w :: ws) = Repl.bracketWeight w.kind + weight ws := rfl

@[simp] theorem weight_append (u v : List Terminal) : weight (u ++ v) = weight u + weight v := by
  induction u with
  | nil => simp
  | cons w u ih => simp [ih, Int.add_assoc]

@[simp] theorem weight_closers (n : Nat) : weight (closers n) = -n := by
  induction n with
  | zero => rfl
  | succ n ih =>
    rw [closers_succ, weight_cons, ih]
    simp only [Terminal.of_kind, Repl.bracketWeight]
    omega

@[simp] theorem weight_map_terminal (ts : List Token) :
    weight (ts.map Token.terminal) = Repl.balance ts := by
  induction ts with
  | nil => rfl
  | cons t ts ih => simp [Repl.balance, ih, Token.terminal]

lemma openBrackets_eq_weight (source : String) :
    Repl.openBrackets source = weight (TokenStream.ofSource source).terminals :=
  (weight_map_terminal _).symm

namespace Grammar

/-- A text that does not end with a semicolon. -/
def Unended (u : List Terminal) : Prop := ∀ w ∈ u.getLast?, w.kind ≠ .semicolon

namespace Unended

variable {u v : List Terminal} {w : Terminal}

lemma nil : Unended [] := nofun

lemma append (hu : Unended u) (hv : Unended v) : Unended (u ++ v) := by
  intro w hw
  rw [List.getLast?_append] at hw
  cases hlast : v.getLast? with
  | none =>
    rw [hlast, Option.none_or] at hw
    exact hu w hw
  | some x =>
    rw [hlast, Option.some_or] at hw
    exact hv w (hlast ▸ hw)

lemma singleton {k : Token.Kind} (hw : w.kind = k) (hk : k ≠ .semicolon) : Unended [w] := by
  rintro x hx
  obtain rfl : w = x := Option.some.inj hx
  rwa [hw]

lemma cons {k : Token.Kind} (hw : w.kind = k) (hk : k ≠ .semicolon) (hu : Unended u) :
    Unended (w :: u) :=
  (singleton hw hk).append hu

/-- Only the last token matters. -/
lemma concat {k : Token.Kind} (u : List Terminal) (hw : w.kind = k) (hk : k ≠ .semicolon) :
    Unended (u ++ [w]) := by
  intro x hx
  rw [List.getLast?_concat] at hx
  exact singleton hw hk x hx

end Unended

namespace Derives

variable {n : Nonterminal} {u : List Terminal}

/-- Every production closes the brackets that it opens. -/
theorem weight_eq_zero (h : Derives n u) : weight u = 0 := by
  induction h with
  | chain ht _ _ ho hc =>
    have hkind : ∀ k ∈ binaryKinds, Repl.bracketWeight k = 0 := by decide
    simp [hkind _ ht, ho, hc]
  | unary ht _ ho =>
    have hkind : ∀ k ∈ unaryKinds, Repl.bracketWeight k = 0 := by decide
    simp [hkind _ ht, ho]
  | atom ht =>
    have hkind : ∀ k ∈ atomKinds, Repl.bracketWeight k = 0 := by decide
    simp [hkind _ ht]
  | _ => simp_all [Repl.bracketWeight]

/-- No production has an illegal token. -/
theorem kind_ne_illegal (h : Derives n u) : ∀ w ∈ u, w.kind ≠ .illegal := by
  induction h with
  | chain ht _ _ ho hc =>
    have hkind : ∀ k ∈ binaryKinds, k ≠ .illegal := by decide
    grind
  | unary ht _ ho =>
    have hkind : ∀ k ∈ unaryKinds, k ≠ .illegal := by decide
    grind
  | atom ht =>
    have hkind : ∀ k ∈ atomKinds, k ≠ .illegal := by decide
    grind
  | _ => grind

/-- Only statements end with a semicolon. -/
theorem unended (h : Derives n u) (hn : n ∉ [.program, .statement, .ending]) : Unended u := by
  induction h with
  | noStatements | statements | define | ret | expr | noEnding | ending => simp at hn
  | expression _ _ ho hc => exact (ho (by decide)).append (hc (by decide))
  | chain ht _ _ ho hc =>
    have hkind : ∀ k ∈ binaryKinds, k ≠ .semicolon := by decide
    exact .cons rfl (hkind _ ht) ((ho (by decide)).append (hc (by decide)))
  | unary ht _ ho =>
    have hkind : ∀ k ∈ unaryKinds, k ≠ .semicolon := by decide
    exact .cons rfl (hkind _ ht) (ho (by decide))
  | applied _ _ hp hc => exact (hp (by decide)).append (hc (by decide))
  | calls _ _ ha hc => exact (ha (by decide)).append (hc (by decide))
  | callArgs _ _ hr =>
    rw [← List.cons_append]
    exact .concat _ hr nofun
  | arguments _ _ hu hm => exact (hu (by decide)).append (hm (by decide))
  | moreArguments hc _ _ hu hm =>
    exact .cons hc nofun ((hu (by decide)).append (hm (by decide)))
  | atom ht =>
    have hkind : ∀ k ∈ atomKinds, k ≠ .semicolon := by decide
    exact .singleton rfl (hkind _ ht)
  | int ht _ => exact .singleton ht nofun
  | group _ _ hr =>
    rw [← List.cons_append]
    exact .concat _ hr nofun
  | cond hi hl _ hr _ _ hu hb ha =>
    exact .cons hi nofun (.cons hl nofun ((hu (by decide)).append
      (.cons hr nofun ((hb (by decide)).append (ha (by decide))))))
  | function hf hl _ hr _ hnames hb =>
    exact .cons hf nofun (.cons hl nofun ((hnames (by decide)).append
      (.cons hr nofun (hb (by decide)))))
  | block _ _ hr =>
    rw [← List.cons_append]
    exact .concat _ hr nofun
  | alternative he _ hb => exact .cons he nofun (hb (by decide))
  | names hx _ hm => exact .cons hx nofun (hm (by decide))
  | moreNames hc hx _ hm => exact .cons hc nofun (.cons hx nofun (hm (by decide)))
  | _ => exact .nil

end Derives
end Grammar

namespace Parser

lemma proper_ofSource (source : String) : (State.ofStream (.ofSource source)).Proper :=
  ⟨rfl, fun _ ht => Cursor.kind_ne_eof_of_mem_tokens _ ht⟩

/-- Where a text is read without an error, the end of the input closes as many blocks as there are
brackets open. -/
theorem exists_weight_eq {s : State} {n : Nat} (hs : s.Proper) (hn : s.stream.tokens.length ≤ n)
    (h : (programUpTo n s).2.errors = []) :
    ∃ d : Nat, weight s.stream.terminals = d ∧
      ∀ k, Derives .program (s.stream.terminals ++ closers k) ↔ k = d := by
  obtain ⟨u, hu, hahead⟩ := exists_derives_of_errors_eq_nil hs hn h
  obtain ⟨d, rfl⟩ := hahead.closed
  have hd := hu.weight_eq_zero
  simp only [weight_append, weight_closers] at hd
  refine ⟨d, by omega, fun k => ⟨fun hk => ?_, fun hk => hk ▸ hu⟩⟩
  have hk := hk.weight_eq_zero
  simp only [weight_append, weight_closers] at hk
  omega

/-- A statement that cannot be read leaves an error for good. -/
lemma errors_record_ne_nil (n : Nat) (s : State) (e : ParseError) :
    (programUpTo n (s.record e).advance).2.errors ≠ [] := by
  intro h
  have hclean := (moves_programUpTo n (s.record e).advance).clean h
  exact List.append_ne_nil_of_right_ne_nil _ (List.cons_ne_nil _ _) hclean

end Parser
end Monkey
