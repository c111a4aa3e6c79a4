import Monkey.Proofs.Program.Reading

/-! Reading undoes writing. The canonical text of a well-formed tree is read as that tree, by an
induction with one case for each kind of node. -/
open Monkey.Grammar Monkey.Parser Monkey.Parser.State

namespace Monkey

lemma Expr.exists_primary (style : Style) : ∀ e : Expr,
    ∃ w ws, e.terminals style = w :: ws ∧ w.kind ∈ primaryKinds
  | .ident _ => ⟨_, _, rfl, by simp [primaryKinds, atomKinds]⟩
  | .int _ => ⟨_, _, rfl, by simp [primaryKinds, atomKinds]⟩
  | .str _ => ⟨_, _, rfl, by simp [primaryKinds, atomKinds]⟩
  | .bool true => ⟨_, _, rfl, by decide⟩
  | .bool false => ⟨_, _, rfl, by decide⟩
  | .unary .. => ⟨_, _, rfl, by decide⟩
  | .binary .. => ⟨_, _, rfl, by decide⟩
  | .cond .. => ⟨_, _, rfl, by decide⟩
  | .function .. => ⟨_, _, rfl, by decide⟩
  | .call callee _ => by
    obtain ⟨w, ws, hcallee, hw⟩ := callee.exists_primary style
    exact ⟨w, _, by rw [Expr.terminals, hcallee]; rfl, hw⟩

lemma Expr.exists_terminals_eq_cons (style : Style) (e : Expr) :
    ∃ w ws, e.terminals style = w :: ws ∧ w.kind ∈ operandKinds := by
  obtain ⟨w, ws, he, hw⟩ := e.exists_primary style
  exact ⟨w, ws, he, List.mem_append_right _ hw⟩

lemma Stmt.exists_terminals_eq_cons (style : Style) : ∀ stmt : Stmt,
    ∃ w ws, stmt.terminals style = w :: ws ∧ w.kind ≠ .rbrace ∧ w.kind ≠ .eof
  | .define .. => ⟨_, _, rfl, nofun, nofun⟩
  | .ret _ => ⟨_, _, rfl, nofun, nofun⟩
  | .block _ => ⟨_, _, rfl, nofun, nofun⟩
  | .expr value => by
    obtain ⟨w, ws, hvalue, hw⟩ := value.exists_terminals_eq_cons style
    have hne := ne_of_mem_operandKinds w.kind hw
    exact ⟨w, _, by rw [Stmt.terminals, hvalue]; rfl, hne.1, hne.2.1⟩

/-- Reading the expression brings the parser's loop to the token behind it, with the expression as
what has been read so far. -/
def Expr.Reads (e : Expr) : Prop :=
  ∀ (s : State) (n : Nat) (min : Precedence) (ws : List Terminal),
    s.Ahead (e.terminals .canonical ++ ws) → NoElse ws → min < .call →
      s.stream.tokens.length ≤ n + 1 →
      ∃ m t, s.Reaches t ws ∧ t.advance.stream.tokens.length ≤ m ∧
        expression (n + 1) min s = extend (expression n) min m e t

def Stmt.Reads (stmt : Stmt) : Prop :=
  ∀ (s : State) (n : Nat) (ws : List Terminal),
    s.Ahead (stmt.terminals .canonical ++ ws) → s.stream.tokens.length ≤ n →
      ∃ t, statement (expression n) s = .ok stmt t ∧ s.Reaches t ws

lemma Expr.terminals_binary (style : Style) (op : BinaryOp) (left right : Expr) :
    (Expr.binary op left right).terminals style = .of .lparen ::
      ((left.terminals style ++ .of op.kind :: right.terminals style) ++ [.of .rparen]) := by
  simp [Expr.terminals]

mutual

theorem Expr.readAs : ∀ e : Expr, e.isWellFormed = true → ReadAs (e.terminals .canonical) e
  | .ident name, _ => .ident name
  | .int _, h => .int (of_decide_eq_true h)
  | .str value, _ => .str value
  | .bool value, _ => .bool value
  | .unary op operand, h => (ReadWhole.unary (operand.readAs h) op).grouped
  | .binary op left right, h => by
    rw [Expr.isWellFormed, Bool.and_eq_true] at h
    rw [Expr.terminals_binary]
    exact (ReadWhole.binary (left.readAs h.1) (right.readAs h.2) op).grouped
  | .cond test yes no, h => by
    rw [Expr.isWellFormed, Bool.and_eq_true, Bool.and_eq_true] at h
    exact .cond (test.readAs h.1.1).whole (block_readAs yes h.1.2) (branch_readAs no h.2)
  | .function names body, h => by
    rw [Expr.isWellFormed, Bool.and_eq_true] at h
    exact .function (block_readAs body h.2) names
  | .call callee args, h => by
    rw [Expr.isWellFormed, Bool.and_eq_true] at h
    exact (callee.readAs h.1).trail (.call (args_readAs args h.2))

theorem Stmt.readAs : ∀ stmt : Stmt, stmt.isWellFormed = true →
    StmtReadAs (stmt.terminals .canonical) stmt
  | .define name value, h => by
    rw [Stmt.isWellFormed, Bool.and_eq_true] at h
    exact .define (value.readAs h.2).whole name
  | .ret value, h => .ret (value.readAs h).whole
  | .expr value, h => .expr (value.readAs h).whole
  | .block _, h => absurd h nofun

theorem block_readAs : ∀ body : List Stmt, areWellFormed body = true →
    BlockReadAs (blockTerminals .canonical body) body
  | [], _ => .nil
  | first :: rest, h => by
    rw [areWellFormed, Bool.and_eq_true] at h
    exact .cons (first.readAs h.1) (block_readAs rest h.2)

theorem args_readAs : ∀ args : List Expr, areWellFormedArgs args = true →
    List.Forall₂ ReadWhole (argTerminals .canonical args) args
  | [], _ => .nil
  | first :: rest, h => by
    rw [areWellFormedArgs, Bool.and_eq_true] at h
    exact .cons (first.readAs h.1).whole (args_readAs rest h.2)

theorem branch_readAs : ∀ no : Option (List Stmt), isWellFormedElse no = true →
    BranchReadAs (elseTerminals .canonical no) no
  | none, _ => .none
  | some body, h => .some (block_readAs body h)

end

theorem Expr.reads (e : Expr) (h : e.isWellFormed = true) : e.Reads := (e.readAs h).reads

theorem reads_each (body : List Stmt) (h : areWellFormed body = true) :
    ∀ stmt ∈ body, stmt.Reads := by
  induction body with
  | nil => exact List.forall_mem_nil _
  | cons first rest ih =>
    rw [areWellFormed, Bool.and_eq_true] at h
    exact List.forall_mem_cons.mpr ⟨(first.readAs h.1).reads, ih h.2⟩

/-- A whole program is read statement by statement, with no error. -/
lemma Parser.programUpTo_reads {p : Program} (h : ∀ stmt ∈ p, stmt.Reads) {s : State} {n : Nat}
    (hs : s.Ahead (blockTerminals .canonical p)) (hn : s.stream.tokens.length ≤ n) :
    (programUpTo n s).1 = p ∧ (programUpTo n s).2.errors = s.errors := by
  induction p generalizing s n with
  | nil =>
    rw [programUpTo_of_eof hs.current_of_nil]
    exact ⟨rfl, rfl⟩
  | cons stmt rest ih =>
    rw [blockTerminals] at hs
    obtain ⟨v, vs, hv, hbrace, heof⟩ := stmt.exists_terminals_eq_cons .canonical
    have hcons : s.Ahead (v :: (vs ++ blockTerminals .canonical rest)) := by
      rwa [hv, List.cons_append] at hs
    have hkind := hcons.kind hbrace
    have hlt := (hcons.cons hbrace).2.2
    obtain ⟨n, rfl⟩ : ∃ m, n = m + 1 := ⟨n - 1, by omega⟩
    obtain ⟨t, hstmt, ht⟩ := h stmt List.mem_cons_self s (n + 1) _ hs hn
    have hlen := ht.length
    have hadv := length_advance t
    obtain ⟨hrest, herrors⟩ := ih (fun stmt hmem => h stmt (List.mem_cons_of_mem _ hmem)) ht.ahead
      (n := n) (by omega)
    rw [programUpTo_of_ok (hkind ▸ heof) hstmt]
    exact ⟨congrArg (stmt :: ·) hrest, herrors.trans ht.errors⟩

lemma parse_of_terminals {source : String} {p : Program} (hp : areWellFormed p = true)
    (h : terminals source.toList = blockTerminals .canonical p) : parse source = ⟨p, []⟩ :=
  parse_of_ahead h fun hs => programUpTo_reads (reads_each p hp) hs (Nat.le_refl _)

/-- Reading the canonical form of a well-formed program gives the program back, with no errors. -/
theorem parse_render_canonical (p : Program) (h : areWellFormed p = true) :
    parse (p.render .canonical) = ⟨p, []⟩ :=
  parse_of_terminals h (terminals_render_canonical p h)

/-- A function whose body branches, called with a string of escapes and then called again. -/
theorem parse_render_canonical_curried :
    parse (Program.render .canonical
        [.define "pick" (.function ["x", "y_2"]
          [.expr (.cond (.binary .notEqual (.ident "x") (.unary .negate (.int 7)))
            [.ret (.function [] [])] (some [.expr (.unary .not (.ident "y_2"))]))]),
        .expr (.call (.call (.ident "pick") [.str "\"\\\n", .int 9223372036854775807]) [])]) =
      ⟨[.define "pick" (.function ["x", "y_2"]
          [.expr (.cond (.binary .notEqual (.ident "x") (.unary .negate (.int 7)))
            [.ret (.function [] [])] (some [.expr (.unary .not (.ident "y_2"))]))]),
        .expr (.call (.call (.ident "pick") [.str "\"\\\n", .int 9223372036854775807]) [])], []⟩ :=
  parse_render_canonical _ (by decide)

end Monkey
