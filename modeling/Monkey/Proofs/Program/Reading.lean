import Monkey.Proofs.Program.Ahead
import Monkey.Proofs.Program.Grammar
import Monkey.Proofs.Program.Written

/-! Tokens that are read as a given tree. What follows them does not matter, as long as it does not
belong to the tree: the parser's loop over operators and calls goes on with the tree as its left
operand. For each kind of node the tokens of the parts make up those of the whole. -/
open Monkey.Grammar Monkey.Parser.State

namespace Monkey
namespace Parser

variable {s : State} {n m : Nat} {ts ts' ws : List Terminal} {e : Expr}

/-- The first of the tokens is one that an operand starts with. -/
def StartsOperand (ts : List Terminal) : Prop := ∃ w ws, ts = w :: ws ∧ w.kind ∈ operandKinds

lemma StartsOperand.append (h : StartsOperand ts) (ws : List Terminal) :
    StartsOperand (ts ++ ws) := by
  obtain ⟨w, vs, rfl, hw⟩ := h
  exact ⟨w, vs ++ ws, rfl, hw⟩

lemma StartsOperand.current (h : StartsOperand ts) (hs : s.Ahead ts) :
    s.stream.current.kind ∈ operandKinds ∧ 0 < s.stream.tokens.length := by
  obtain ⟨w, vs, rfl, hw⟩ := h
  have hne := (ne_of_mem_operandKinds _ hw).1
  have hlt := (hs.cons hne).2.2
  exact ⟨hs.kind hne ▸ hw, Nat.zero_lt_of_lt hlt⟩

/-- Reading the tokens brings the parser's loop to the token behind them, with the expression as
what has been read so far. -/
structure ReadAs (ts : List Terminal) (e : Expr) : Prop where
  head : StartsOperand ts
  reads : ∀ (s : State) (n : Nat) (min : Precedence) (ws : List Terminal),
    s.Ahead (ts ++ ws) → NoElse ws → min < .call → s.stream.tokens.length ≤ n + 1 →
      ∃ m t, s.Reaches t ws ∧ t.advance.stream.tokens.length ≤ m ∧
        expression (n + 1) min s = extend (expression n) min m e t

/-- The tokens are read as the expression where nothing follows that binds. -/
structure ReadWhole (ts : List Terminal) (e : Expr) : Prop where
  head : StartsOperand ts
  reads : ∀ (s : State) (n : Nat) (ws : List Terminal), s.Ahead (ts ++ ws) → NoElse ws →
    Stops .lowest ws → s.stream.tokens.length ≤ n →
      ∃ t, expression n .lowest s = .ok e t ∧ s.Reaches t ws

/-- The tokens, behind an operand, are calls: the parser's loop takes them all. -/
structure Trails (ts : List Terminal) (f : Expr → Expr) : Prop where
  head : ∃ ws, ts = .of .lparen :: ws
  reads : ∀ (t : State) (n m : Nat) (min : Precedence) (ws : List Terminal) (left : Expr),
    t.advance.Ahead (ts ++ ws) → min < .call → t.advance.stream.tokens.length ≤ n →
      t.advance.stream.tokens.length ≤ m →
      ∃ m' u, t.Reaches u ws ∧ u.advance.stream.tokens.length ≤ m' ∧
        extend (expression n) min m left t = extend (expression n) min m' (f left) u

structure StmtReadAs (ts : List Terminal) (stmt : Stmt) : Prop where
  head : ∃ w ws, ts = w :: ws ∧ w.kind ≠ .rbrace ∧ w.kind ≠ .eof
  reads : ∀ (s : State) (n : Nat) (ws : List Terminal), s.Ahead (ts ++ ws) →
    s.stream.tokens.length ≤ n → ∃ t, statement (expression n) s = .ok stmt t ∧ s.Reaches t ws

/-- The tokens are read as the statements up to a closing brace. -/
def BlockReadAs (ts : List Terminal) (body : List Stmt) : Prop :=
  ∀ (s : State) (n m : Nat) (ws : List Terminal), s.Ahead (ts ++ .of .rbrace :: ws) →
    s.stream.tokens.length ≤ n → s.stream.tokens.length ≤ m →
      ∃ t, statements (expression n) m s = .ok body t ∧ s.Reaches t ws

inductive BranchReadAs : List Terminal → Option (List Stmt) → Prop
  | none : BranchReadAs [] none
  | some {ts : List Terminal} {body : List Stmt} (h : BlockReadAs ts body) :
      BranchReadAs (.of .kwElse :: .of .lbrace :: (ts ++ [.of .rbrace])) (some body)

namespace ReadAs

/-- What binds no tighter ends the expression. -/
lemma stop (h : ReadAs ts e) {min : Precedence} (hs : s.Ahead (ts ++ ws)) (helse : NoElse ws)
    (hstop : Stops min ws) (hmin : min < .call) (hn : s.stream.tokens.length ≤ n) :
    ∃ t, expression n min s = .ok e t ∧ s.Reaches t ws := by
  have hpos := ((h.head.append ws).current hs).2
  obtain ⟨n, rfl⟩ : ∃ k, n = k + 1 := ⟨n - 1, by omega⟩
  obtain ⟨m, t, ht, -, heq⟩ := h.reads s n min ws hs helse hmin hn
  exact ⟨t, heq.trans (extend_stop (hstop.not_lt ht.ahead) m e), ht⟩

lemma whole (h : ReadAs ts e) : ReadWhole ts e :=
  ⟨h.head, fun _ _ _ hs helse hstop hn => h.stop hs helse hstop (by decide) hn⟩

/-- An expression that is one operand. -/
lemma of_operand (hhead : StartsOperand ts)
    (h : ∀ (s : State) (n : Nat) (ws : List Terminal), s.Ahead (ts ++ ws) → NoElse ws →
      s.stream.tokens.length ≤ n + 1 →
      ∃ t, operand (expression n) n s = .ok e t ∧ s.Reaches t ws) : ReadAs ts e := by
  refine ⟨hhead, fun s n min ws hs hws _ hn => ?_⟩
  obtain ⟨t, hoperand, ht⟩ := h s n ws hs hws hn
  refine ⟨n, t, ht, ?_, expression_of_operand hoperand min⟩
  have := ht.length
  rw [length_advance]
  omega

lemma ident (name : String) : ReadAs [⟨.ident, name⟩] (.ident name) := by
  refine .of_operand ⟨_, _, rfl, show Token.Kind.ident ∈ _ by decide⟩ fun s n ws hs _ _ => ?_
  refine ⟨s, ?_, reaches_self hs nofun⟩
  rw [operand_ident (hs.kind nofun), hs.literal nofun]

lemma str (value : String) : ReadAs [⟨.string, value⟩] (.str value) := by
  refine .of_operand ⟨_, _, rfl, show Token.Kind.string ∈ _ by decide⟩ fun s n ws hs _ _ => ?_
  refine ⟨s, ?_, reaches_self hs nofun⟩
  rw [operand_string (hs.kind nofun), hs.literal nofun]

lemma bool (value : Bool) : ReadAs [.of (if value then .kwTrue else .kwFalse)] (.bool value) := by
  cases value with
  | true => exact .of_operand ⟨_, _, rfl, by decide⟩ fun s n ws hs _ _ =>
      ⟨s, operand_true (hs.kind nofun) n, reaches_self hs nofun⟩
  | false => exact .of_operand ⟨_, _, rfl, by decide⟩ fun s n ws hs _ _ =>
      ⟨s, operand_false (hs.kind nofun) n, reaches_self hs nofun⟩

end ReadAs

lemma digitsValue_toString {i : Int} (h : 0 ≤ i) : digitsValue (toString i) = i.toNat := by
  rw [digitsValue, toList_toString_of_nonneg h, Nat.ofDigitChars_ten_toDigits]

lemma ReadAs.int {value : Int64} (h : 0 ≤ value.toInt) :
    ReadAs [⟨.int, toString value.toInt⟩] (.int value) := by
  refine .of_operand ⟨_, _, rfl, show Token.Kind.int ∈ _ by decide⟩ fun s n ws hs _ _ => ?_
  refine ⟨s, ?_, reaches_self hs nofun⟩
  have hvalue : digitsValue s.stream.current.literal = value.toInt.toNat := by
    rw [hs.literal nofun]
    exact digitsValue_toString h
  rw [operand_int (hs.kind nofun), hvalue]
  refine ⟨?_, ?_, rfl⟩
  · have := value.toInt_lt
    rw [intBound]
    omega
  · have hcast : ((value.toInt.toNat : Nat) : Int) = value.toInt := Int.toNat_of_nonneg h
    rw [← Int64.ofInt_eq_ofNat, hcast, Int64.ofInt_toInt]

/-! ### Operators -/

namespace ReadWhole

/-- A parenthesis or a semicolon ends the expression. -/
lemma closed (h : ReadWhole ts e) {w : Terminal} (hs : s.Ahead (ts ++ w :: ws))
    (hw : w.kind = .rparen ∨ w.kind = .semicolon) (hn : s.stream.tokens.length ≤ n) :
    ∃ t, expression n .lowest s = .ok e t ∧ s.Reaches t (w :: ws) := by
  have helse : w.kind ≠ .kwElse := by rcases hw with hw | hw <;> rw [hw] <;> nofun
  have hlowest : Precedence.ofKind w.kind = .lowest := by rcases hw with hw | hw <;> rw [hw] <;> rfl
  exact h.reads s n _ hs (noElse_cons helse ws) (stops_cons hlowest _ ws) hn

lemma unary (h : ReadAs ts e) (op : UnaryOp) : ReadWhole (.of op.kind :: ts) (.unary op e) := by
  refine ⟨⟨_, _, rfl, by cases op <;> decide⟩, fun s n ws hs helse hstop hn => ?_⟩
  have hop : (Terminal.of op.kind).kind ≠ .rbrace := by cases op <;> nofun
  obtain ⟨-, hs₁, hlt⟩ := hs.cons hop
  obtain ⟨n, rfl⟩ : ∃ k, n = k + 1 := ⟨n - 1, by omega⟩
  obtain ⟨t, heq, ht⟩ := h.stop hs₁ helse (hstop.weaken .unary) (by decide) (n := n) (by omega)
  have hkind : UnaryOp.ofKind? s.stream.current.kind = some op := by
    rw [hs.kind hop]
    exact op.ofKind?_kind
  have hoperand : operand (expression n) n s = .ok (.unary op e) t :=
    (operand_unary hkind).mpr ⟨e, heq, rfl⟩
  refine ⟨t, ?_, ht.of_advance⟩
  rw [expression_of_operand hoperand]
  exact extend_stop (hstop.not_lt ht.ahead) _ _

lemma binary {left right : Expr} (hl : ReadAs ts left) (hr : ReadAs ts' right) (op : BinaryOp) :
    ReadWhole (ts ++ .of op.kind :: ts') (.binary op left right) := by
  refine ⟨hl.head.append _, fun s n ws hs helse hstop hn => ?_⟩
  have hpos := (((hl.head.append _).append ws).current hs).2
  rw [List.append_assoc, List.cons_append] at hs
  obtain ⟨n, rfl⟩ : ∃ k, n = k + 1 := ⟨n - 1, by omega⟩
  have hop : op.kind ≠ .rbrace ∧ op.kind ≠ .kwElse ∧ Precedence.lowest < .ofKind op.kind ∧
      Precedence.ofKind op.kind < .call := by cases op <;> decide
  obtain ⟨m, t, ht, hm, heq⟩ := hl.reads s n .lowest _ hs (noElse_cons hop.2.1 _) (by decide) hn
  have hpeek : t.stream.peek.kind = op.kind := ht.peek hop.1
  obtain ⟨-, hs₁, hlt⟩ := ht.ahead.cons hop.1
  have hlen := ht.length
  have hadv := length_advance t
  obtain ⟨m, rfl⟩ : ∃ k, m = k + 1 := ⟨m - 1, by omega⟩
  obtain ⟨u, hright, hu⟩ := hr.stop hs₁ helse (hstop.weaken (.ofKind op.kind)) hop.2.2.2 (n := n)
    (by omega)
  refine ⟨u, ?_, ht.trans hu.of_advance.of_advance⟩
  rw [heq, extend_binary (by rw [hpeek]; exact op.ofKind?_kind) (by rw [hpeek]; exact hop.2.2.1),
    hpeek, bind_of_ok hright]
  exact extend_stop (hstop.not_lt hu.ahead) _ _

/-- In parentheses an expression is one operand. -/
lemma grouped (h : ReadWhole ts e) : ReadAs (.of .lparen :: (ts ++ [.of .rparen])) e := by
  refine .of_operand ⟨_, _, rfl, by decide⟩ fun s n ws hs _ hn => ?_
  rw [List.cons_append, List.append_assoc] at hs
  obtain ⟨-, hs₁, hlt⟩ := hs.cons nofun
  obtain ⟨t, heq, ht⟩ := h.closed hs₁ (.inl rfl) (n := n) (by omega)
  exact ⟨_, operand_of_grouped (hs.kind nofun) rfl heq ht⟩

end ReadWhole

/-! ### Calls -/

lemma intercalate_cons {α : Type} (sep x : List α) (xs : List (List α)) :
    sep.intercalate (x :: xs) = x ++ xs.flatMap (sep ++ ·) := by
  induction xs generalizing x with
  | nil => simp
  | cons y ys ih => rw [List.intercalate_cons_cons, ih, List.flatMap_cons, List.append_assoc,
      List.append_assoc]

/-- The tokens behind a first argument. -/
def argRest (rest : List (List Terminal)) (ws : List Terminal) : List Terminal :=
  rest.flatMap ([.of .comma] ++ ·) ++ .of .rparen :: ws

lemma argRest_cons (ts : List Terminal) (rest : List (List Terminal)) (ws : List Terminal) :
    argRest (ts :: rest) ws = .of .comma :: (ts ++ argRest rest ws) := by
  simp [argRest]

lemma ends_argRest (rest : List (List Terminal)) (ws : List Terminal) :
    NoElse (argRest rest ws) ∧ Stops .lowest (argRest rest ws) := by
  cases rest with
  | nil => exact ⟨noElse_cons (by decide) _, stops_cons rfl _ _⟩
  | cons ts rest =>
    rw [argRest_cons]
    exact ⟨noElse_cons (by decide) _, stops_cons rfl _ _⟩

section
variable {rest : List (List Terminal)} {list : List Expr} (h : List.Forall₂ ReadWhole rest list)
include h

lemma moreArgs_reads (hs : s.advance.Ahead (argRest rest ws)) (hn : s.stream.tokens.length ≤ n)
    (hm : s.advance.stream.tokens.length ≤ m) :
    ∃ t, moreArgs (expression n) m s = .ok list t ∧ s.Reaches t (.of .rparen :: ws) := by
  induction h generalizing s m with
  | nil =>
    refine ⟨s, moreArgs_stop ?_ m, reaches_refl hs⟩
    exact hs.current_ne nofun nofun (by simp [argRest])
  | @cons ts arg rest list harg _ ih =>
    rw [argRest_cons] at hs
    have hcomma := reaches_refl hs
    have hfirst := hcomma.next nofun
    have hadv := length_advance s.advance
    have hlt := (hs.cons nofun).2.2
    have hlen := hfirst.length
    obtain ⟨m, rfl⟩ : ∃ k, m = k + 1 := ⟨m - 1, by omega⟩
    have hends := ends_argRest rest ws
    obtain ⟨t, heq, ht⟩ := harg.reads _ n _ hfirst.ahead hends.1 hends.2 (by omega)
    have hlen' := ht.length
    have hadv' := length_advance_le t
    obtain ⟨u, hrest, hu⟩ := ih ht.ahead (m := m) (by omega) (by omega)
    refine ⟨u, ?_, ht.of_advance.of_advance.trans hu⟩
    rw [moreArgs_comma (hcomma.peek nofun)]
    exact ⟨arg, t, list, heq, hrest, rfl⟩

/-- Arguments in parentheses are read up to the closing one. -/
lemma args_reads
    (hs : s.advance.Ahead ([Terminal.of .comma].intercalate rest ++ .of .rparen :: ws))
    (hn : s.stream.tokens.length ≤ n) (hm : s.advance.stream.tokens.length ≤ m) :
    ∃ t, args (expression n) m s = .ok list t ∧ s.Reaches t ws := by
  cases h with
  | nil =>
    have hstart := reaches_refl hs
    exact ⟨s.advance, args_rparen (hstart.peek nofun) m, hstart.next nofun⟩
  | @cons ts arg rest list harg hrest =>
    rw [intercalate_cons, List.append_assoc] at hs
    change s.advance.Ahead (ts ++ argRest rest ws) at hs
    have hpeek : s.stream.peek.kind ≠ .rparen :=
      (ne_of_mem_operandKinds _ ((harg.head.append _).current hs).1).2.2.1
    have hadv := length_advance_le s
    have hends := ends_argRest rest ws
    obtain ⟨t, heq, ht⟩ := harg.reads _ n _ hs hends.1 hends.2 (by omega)
    have hlen := ht.length
    have hadv' := length_advance_le t
    obtain ⟨u, hmore, hu⟩ := moreArgs_reads hrest ht.ahead (n := n) (m := m) (by omega) (by omega)
    refine ⟨u.advance, ?_, (ht.of_advance.trans hu).next nofun⟩
    rw [args_eq_ok hpeek]
    exact ⟨arg, t, list, u, heq, hmore, hu.peek nofun, rfl, rfl⟩

lemma Trails.call : Trails
    (.of .lparen :: ([Terminal.of .comma].intercalate rest ++ [.of .rparen])) (.call · list) := by
  refine ⟨⟨_, rfl⟩, fun t n m min ws left ht hmin hn hm => ?_⟩
  rw [List.cons_append, List.append_assoc] at ht
  have hstart := reaches_refl ht
  have hparen := hstart.next nofun
  have hlt := (ht.cons nofun).2.2
  have hadv := length_advance t.advance
  obtain ⟨m, rfl⟩ : ∃ k, m = k + 1 := ⟨m - 1, by omega⟩
  obtain ⟨u, hargs, hu⟩ := args_reads h hparen.ahead (n := n) (m := m) hn (by omega)
  have hlen := hu.length
  have hadv' := length_advance u
  refine ⟨m, u, hu.of_advance, by omega, ?_⟩
  have hnone : argsOrNone (expression n) m t.advance = .ok list u :=
    argsOrNone_eq_ok.mpr (.inl hargs)
  have hpeek : t.stream.peek.kind = .lparen := hstart.peek nofun
  rw [extend_call hpeek hmin, bind_of_ok hnone]

end

lemma Trails.append {f g : Expr → Expr} (hf : Trails ts f) (hg : Trails ts' g) :
    Trails (ts ++ ts') (g ∘ f) := by
  obtain ⟨vs, hvs⟩ := hf.head
  refine ⟨⟨vs ++ ts', by rw [hvs]; rfl⟩, fun t n m min ws left ht hmin hn hm => ?_⟩
  rw [List.append_assoc] at ht
  obtain ⟨m₁, u, hu, hm₁, heq⟩ := hf.reads t n m min _ left ht hmin hn hm
  have hlen := hu.length
  have hadv := length_advance t
  have hadv' := length_advance u
  obtain ⟨m₂, v, hv, hm₂, heq'⟩ := hg.reads u n m₁ min ws (f left) hu.ahead hmin (by omega) hm₁
  exact ⟨m₂, v, hu.trans hv, hm₂, heq.trans heq'⟩

lemma ReadAs.trail {f : Expr → Expr} (h : ReadAs ts e) (hf : Trails ts' f) :
    ReadAs (ts ++ ts') (f e) := by
  refine ⟨h.head.append ts', fun s n min ws hs hws hmin hn => ?_⟩
  obtain ⟨vs, rfl⟩ := hf.head
  rw [List.append_assoc] at hs
  obtain ⟨m, t, ht, hm, heq⟩ := h.reads s n min _ hs (noElse_cons (by decide) _) hmin hn
  have hlen := ht.length
  have hadv := length_advance t
  obtain ⟨m', u, hu, hm', heq'⟩ := hf.reads t n m min ws e ht.ahead hmin (by omega) hm
  exact ⟨m', u, ht.trans hu, hm', heq.trans heq'⟩

/-! ### Statements and blocks -/

namespace StmtReadAs

lemma define (h : ReadWhole ts e) (name : String) :
    StmtReadAs (.of .kwLet :: ⟨.ident, name⟩ :: .of .assign :: (ts ++ [.of .semicolon]))
      (.define name e) := by
  refine ⟨⟨_, _, rfl, nofun, nofun⟩, fun s n ws hs hn => ?_⟩
  rw [List.cons_append, List.cons_append, List.cons_append, List.append_assoc] at hs
  obtain ⟨-, hs₁, hlt₁⟩ := hs.cons nofun
  obtain ⟨-, hs₂, hlt₂⟩ := hs₁.cons nofun
  obtain ⟨-, hs₃, hlt₃⟩ := hs₂.cons nofun
  obtain ⟨t, heq, ht⟩ := h.closed hs₃ (.inr rfl) (n := n) (by omega)
  refine ⟨_, ?_, (ht.skip rfl).of_advance.of_advance.of_advance⟩
  rw [statement_let (hs.kind nofun)]
  refine ⟨hs₁.kind nofun, hs₂.kind nofun, e, t, heq, ?_, rfl⟩
  rw [show s.stream.peek.literal = name from hs₁.literal nofun]

lemma ret (h : ReadWhole ts e) :
    StmtReadAs (.of .kwReturn :: (ts ++ [.of .semicolon])) (.ret e) := by
  refine ⟨⟨_, _, rfl, nofun, nofun⟩, fun s n ws hs hn => ?_⟩
  rw [List.cons_append, List.append_assoc] at hs
  obtain ⟨-, hs₁, hlt₁⟩ := hs.cons nofun
  obtain ⟨t, heq, ht⟩ := h.closed hs₁ (.inr rfl) (n := n) (by omega)
  refine ⟨_, ?_, (ht.skip rfl).of_advance⟩
  rw [statement_return (hs.kind nofun)]
  exact ⟨e, t, heq, rfl, rfl⟩

end StmtReadAs

/-- An expression is a statement, and a semicolon behind it belongs to it. -/
lemma statement_of_expression {t : State} {expr : Precedence → Parser Expr}
    (hs : s.stream.current.kind ∈ operandKinds) (h : expr .lowest s = .ok e t) :
    statement expr s = .ok (.expr e) (t.skip .semicolon) := by
  have hne := ne_of_mem_operandKinds _ hs
  rw [statement_expr hne.2.2.2.1 hne.2.2.2.2]
  exact ⟨e, t, h, rfl, rfl⟩

/-- No semicolon is left at the end of the input. -/
lemma skip_of_last {t : State} (ht : t.advance.Ahead []) : t.skip .semicolon = t :=
  skip_of_ne (ht.current_ne nofun nofun fun _ hw => nomatch hw)

/-- A program that ends with its first statement. -/
lemma program_of_last {stmt : Stmt} {t : State} (hs : s.stream.current.kind ≠ .eof)
    (hpos : 0 < s.stream.tokens.length)
    (h : statement (expression s.stream.tokens.length) s = .ok stmt t) (ht : s.Reaches t []) :
    (program s).1 = [stmt] ∧ (program s).2.errors = s.errors := by
  obtain ⟨n, hn⟩ : ∃ n, s.stream.tokens.length = n + 1 := ⟨s.stream.tokens.length - 1, by omega⟩
  rw [hn] at h
  rw [program, hn, programUpTo_of_ok hs h, programUpTo_of_eof ht.ahead.current_of_nil]
  exact ⟨rfl, ht.errors⟩

lemma StmtReadAs.expr (h : ReadWhole ts e) :
    StmtReadAs (ts ++ [.of .semicolon]) (.expr e) := by
  obtain ⟨w, vs, hts, hw⟩ := h.head.append [.of .semicolon]
  have hne := ne_of_mem_operandKinds _ hw
  refine ⟨⟨w, vs, hts, hne.1, hne.2.1⟩, fun s n ws hs hn => ?_⟩
  rw [List.append_assoc] at hs
  obtain ⟨t, heq, ht⟩ := h.closed hs (.inr rfl) hn
  have hstart := ((h.head.append _).current hs).1
  exact ⟨_, statement_of_expression hstart heq, ht.skip rfl⟩

lemma BlockReadAs.nil : BlockReadAs [] [] := by
  intro s n m ws hs _ _
  obtain ⟨hkind, hs₁⟩ := hs.rbrace rfl
  exact ⟨s, statements_stop hkind m, reaches_refl hs₁⟩

lemma BlockReadAs.cons {stmt : Stmt} {body : List Stmt} (h : StmtReadAs ts stmt)
    (hbody : BlockReadAs ts' body) : BlockReadAs (ts ++ ts') (stmt :: body) := by
  intro s n m ws hs hn hm
  rw [List.append_assoc] at hs
  obtain ⟨t, hstmt, ht⟩ := h.reads s n _ hs hn
  obtain ⟨v, vs, rfl, hbrace, heof⟩ := h.head
  have hkind := hs.kind hbrace
  have hlt := (hs.cons hbrace).2.2
  have hadv := length_advance t
  have hlen := ht.length
  obtain ⟨m, rfl⟩ : ∃ k, m = k + 1 := ⟨m - 1, by omega⟩
  obtain ⟨u, hrest, hu⟩ := hbody t.advance n m ws ht.ahead (by omega) (by omega)
  refine ⟨u, ?_, ht.trans hu.of_advance⟩
  rw [statements_succ (by rw [hkind]; exact not_or_intro hbrace heof)]
  exact ⟨stmt, t, body, hstmt, hrest, rfl⟩

lemma branch_reads {no : Option (List Stmt)} (h : BranchReadAs ts no)
    (hs : s.advance.Ahead (ts ++ ws)) (hws : NoElse ws) (hn : s.stream.tokens.length ≤ n) :
    ∃ t, branch (expression n) n s = .ok no t ∧ s.Reaches t ws := by
  cases h with
  | none =>
    have hpeek : s.stream.peek.kind ≠ .kwElse := hs.current_ne nofun nofun hws
    exact ⟨s, branch_stop hpeek n, reaches_refl hs⟩
  | @some ts body hbody =>
    rw [List.cons_append, List.cons_append, List.append_assoc] at hs
    have helse := reaches_refl hs
    have hbrace := helse.next nofun
    have hopen := hbrace.next nofun
    have hlen := hopen.length
    have hadv := length_advance_le s.advance.advance
    obtain ⟨t, heq, ht⟩ := hbody _ n n ws hopen.ahead (by omega) (by omega)
    refine ⟨t, ?_, hopen.trans ht.of_advance⟩
    rw [branch_else (helse.peek nofun)]
    exact ⟨hbrace.peek nofun, body, heq, rfl⟩

lemma ReadAs.cond {us vs : List Terminal} {yes : List Stmt} {no : Option (List Stmt)}
    (htest : ReadWhole ts e) (hyes : BlockReadAs us yes) (hno : BranchReadAs vs no) :
    ReadAs (.of .kwIf :: .of .lparen :: (ts ++ .of .rparen :: .of .lbrace ::
      (us ++ .of .rbrace :: vs))) (.cond e yes no) := by
  refine .of_operand ⟨_, _, rfl, by decide⟩ fun s n ws hs hws hn => ?_
  rw [List.cons_append, List.cons_append, List.append_assoc, List.cons_append,
    List.cons_append, List.append_assoc, List.cons_append] at hs
  obtain ⟨-, hs₁, hlt₁⟩ := hs.cons nofun
  obtain ⟨-, hs₂, hlt₂⟩ := hs₁.cons nofun
  obtain ⟨t, heq, ht⟩ := htest.closed hs₂ (.inl rfl) (n := n) (by omega)
  have hbrace := ht.next nofun
  have hopen := hbrace.next nofun
  have hlen := hopen.length
  have hadv := length_advance_le t.advance.advance
  obtain ⟨u, hbody, hu⟩ := hyes _ n n _ hopen.ahead (by omega) (by omega)
  have hlen' := hu.length
  obtain ⟨v, hbranch, hv⟩ := branch_reads hno hu.ahead hws (n := n) (by omega)
  refine ⟨v, ?_, (hopen.trans (hu.of_advance.trans hv)).of_advance.of_advance⟩
  rw [operand_if (hs.kind nofun), conditional_eq_ok]
  exact ⟨hs₁.kind nofun, e, t, heq, ht.peek nofun, hbrace.peek nofun, yes, u, hbody, no, hbranch,
    rfl⟩

/-! ### Functions -/

lemma moreNames_reads {names : List String}
    (hs : s.advance.Ahead
      ((names.map fun name => [Terminal.mk .ident name]).flatMap ([.of .comma] ++ ·) ++
        .of .rparen :: ws))
    (hm : s.advance.stream.tokens.length ≤ m) :
    ∃ t, moreNames m s = .ok names t ∧ s.Reaches t (.of .rparen :: ws) := by
  induction names generalizing s m with
  | nil =>
    refine ⟨s, moreNames_stop ?_ m, reaches_refl hs⟩
    exact hs.current_ne nofun nofun (by simp)
  | cons name rest ih =>
    rw [List.map_cons, List.flatMap_cons, List.append_assoc, List.append_assoc] at hs
    have hcomma := reaches_refl hs
    have hname := hcomma.next nofun
    have hrest := hname.next nofun
    have hadv := length_advance s.advance
    have hadv' := length_advance s.advance.advance
    have hlt := (hs.cons nofun).2.2
    obtain ⟨m, rfl⟩ : ∃ k, m = k + 1 := ⟨m - 1, by omega⟩
    obtain ⟨t, hmore, ht⟩ := ih hrest.ahead (m := m) (by omega)
    refine ⟨t, ?_, hrest.trans ht⟩
    rw [moreNames_comma (hcomma.peek nofun)]
    refine ⟨hname.peek nofun, rest, hmore, ?_⟩
    rw [show s.advance.stream.peek.literal = name from hname.ahead.literal nofun]

/-- Parameters in parentheses are read up to the closing one. -/
lemma params_reads {names : List String}
    (hs : s.advance.Ahead (nameTerminals names ++ .of .rparen :: ws))
    (hm : s.stream.tokens.length ≤ m) :
    ∃ t, params m s = .ok names t ∧ s.Reaches t ws := by
  have hstart := reaches_refl hs
  cases names with
  | nil => exact ⟨s.advance, params_rparen (hstart.peek nofun) m, hstart.next nofun⟩
  | cons name rest =>
    rw [nameTerminals, List.map_cons, intercalate_cons, List.append_assoc] at hs
    have hname := reaches_refl hs
    have hrest := hname.next nofun
    have hadv := length_advance_le s
    have hadv' := length_advance_le s.advance
    obtain ⟨t, hmore, ht⟩ := moreNames_reads hrest.ahead (m := m) (by omega)
    have hpeek : s.stream.peek.kind = .ident := hname.peek nofun
    refine ⟨t.advance, ?_, (hrest.trans ht).next nofun⟩
    rw [params_eq_ok (by rw [hpeek]; nofun)]
    refine ⟨hpeek, rest, t, hmore, ht.peek nofun, ?_, rfl⟩
    rw [show s.stream.peek.literal = name from hname.ahead.literal nofun]

lemma ReadAs.function {body : List Stmt} (hbody : BlockReadAs ts body) (names : List String) :
    ReadAs (.of .kwFn :: .of .lparen :: (nameTerminals names ++ .of .rparen :: .of .lbrace ::
      (ts ++ [.of .rbrace]))) (.function names body) := by
  refine .of_operand ⟨_, _, rfl, by decide⟩ fun s n ws hs _ hn => ?_
  rw [List.cons_append, List.cons_append, List.append_assoc, List.cons_append,
    List.cons_append, List.append_assoc] at hs
  obtain ⟨-, hs₁, hlt₁⟩ := hs.cons nofun
  obtain ⟨-, hs₂, hlt₂⟩ := hs₁.cons nofun
  obtain ⟨t, hparams, ht⟩ := params_reads hs₂ (m := n) (by omega)
  have hopen := ht.next nofun
  have hlen := hopen.length
  have hadv := length_advance_le t.advance
  obtain ⟨u, hstatements, hu⟩ := hbody _ n n ws hopen.ahead (by omega) (by omega)
  refine ⟨u, ?_, (hopen.trans hu.of_advance).of_advance⟩
  rw [operand_fn (hs.kind nofun), function_eq_ok]
  exact ⟨hs₁.kind nofun, names, t, hparams, ht.peek nofun, body, hstatements, rfl⟩

end Parser

/-- The whole source is read as what its terminals are read as, wherever they stand ahead. -/
lemma parse_of_ahead {source : String} {p : Program} {ws : List Terminal}
    (h : terminals source.toList = ws)
    (hread : ∀ {s : Parser.State}, s.Ahead ws →
      (Parser.program s).1 = p ∧ (Parser.program s).2.errors = s.errors) :
    parse source = ⟨p, []⟩ := by
  have hs : (ofStream (.ofSource source)).Ahead ws := ⟨rfl, 0, h ▸ List.append_nil _⟩
  obtain ⟨hprogram, herrors⟩ := hread hs
  exact congrArg₂ Parsed.mk hprogram herrors

end Monkey
