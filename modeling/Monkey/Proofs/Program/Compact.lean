import Monkey.Proofs.Program.Fusion

/-! Reading the compact form. The parser's loop over operators and calls goes on behind an
expression, and so across the end of a statement, as long as the next one opens with a parenthesis.
The tree that is read is the fused one, and that is the tree written down unless two statements of
some block have become one. -/
open Monkey.Grammar Monkey.Parser Monkey.Parser.State

namespace Monkey
namespace Parser

variable {ts ts' : List Terminal} {e : Expr}

/-- In parentheses an expression, behind an operand, is the argument of a call. -/
lemma Trails.group (h : ReadWhole ts e) :
    Trails (.of .lparen :: (ts ++ [.of .rparen])) (.call · [e]) := by
  simpa using Trails.call (.cons h .nil)

/-- The tokens, behind an expression in a block, are read up to the closing brace: what the loop
takes of them belongs to the expression, and the rest are statements. -/
structure TailReadAs (ts : List Terminal) (f : Expr → List Stmt) : Prop where
  head : NoElse ts
  reads : ∀ (t : State) (n m k : Nat) (ws : List Terminal) (left : Expr),
    t.advance.Ahead (ts ++ .of .rbrace :: ws) → t.advance.stream.tokens.length ≤ n →
      t.advance.stream.tokens.length ≤ m → t.advance.stream.tokens.length ≤ k →
      ∃ value u rest v, extend (expression n) .lowest m left t = .ok value u ∧
        statements (expression (n + 1)) k (u.skip .semicolon).advance = .ok rest v ∧
        f left = .expr value :: rest ∧ t.Reaches v ws

/-- The first of the tokens, if there is one, starts a statement and belongs to none before it. -/
def StartsApart (ts : List Terminal) : Prop :=
  ∀ w ∈ ts.head?, w.kind ≠ .kwElse ∧ w.kind ≠ .semicolon ∧ Precedence.ofKind w.kind = .lowest

lemma TailReadAs.of_block {body : List Stmt} (h : BlockReadAs ts body) (hts : StartsApart ts) :
    TailReadAs ts (.expr · :: body) := by
  refine ⟨fun w hw => (hts w hw).1, fun t n m k ws left ht hn _ hk => ?_⟩
  have happend : StartsApart (ts ++ .of .rbrace :: ws) := by
    cases ts with
    | nil => simp [StartsApart, Terminal.of, Precedence.ofKind]
    | cons w ts => exact hts
  have hstop : Stops .lowest (ts ++ .of .rbrace :: ws) := fun w hw => by
    rw [(happend w hw).2.2]
    exact Nat.lt_irrefl 0
  have hpeek : t.stream.peek.kind ≠ .semicolon :=
    ht.current_ne nofun nofun fun w hw => (happend w hw).2.1
  obtain ⟨v, hbody, hv⟩ := h t.advance (n + 1) k ws ht (by omega) hk
  refine ⟨left, t, body, v, extend_stop (hstop.not_lt ht) m left, ?_, rfl, hv.of_advance⟩
  rw [skip_of_ne hpeek]
  exact hbody

lemma TailReadAs.trail {f : Expr → Expr} {g : Expr → List Stmt} (hf : Trails ts f)
    (hg : TailReadAs ts' g) : TailReadAs (ts ++ ts') (g ∘ f) := by
  have hhead : NoElse (ts ++ ts') := by
    obtain ⟨vs, rfl⟩ := hf.head
    exact noElse_cons (by decide) _
  refine ⟨hhead, fun t n m k ws left ht hn hm hk => ?_⟩
  rw [List.append_assoc] at ht
  obtain ⟨m', u, hu, hm', heq⟩ := hf.reads t n m .lowest _ left ht (by decide) hn hm
  have hlen := hu.length
  have hadv := length_advance t
  have hadv' := length_advance u
  obtain ⟨value, v, rest, r, hextend, hrest, hvalue, hr⟩ := hg.reads u n m' k ws (f left) hu.ahead
    (by omega) hm' (by omega)
  exact ⟨value, v, rest, r, heq.trans hextend, hrest, hvalue, hu.trans hr⟩

lemma BlockReadAs.expr {f : Expr → List Stmt} (h : ReadAs ts e) (hf : TailReadAs ts' f) :
    BlockReadAs (ts ++ ts') (f e) := by
  intro s n m ws hs hn hm
  rw [List.append_assoc] at hs
  obtain ⟨hkind, hpos⟩ := (h.head.append _).current hs
  have helse : NoElse (ts' ++ .of .rbrace :: ws) := by
    have hhead := hf.head
    cases ts' with
    | nil => exact noElse_cons (by decide) ws
    | cons w ts' => exact hhead
  obtain ⟨n, rfl⟩ : ∃ k, n = k + 1 := ⟨n - 1, by omega⟩
  obtain ⟨m, rfl⟩ : ∃ k, m = k + 1 := ⟨m - 1, by omega⟩
  obtain ⟨k, t, ht, hk, heq⟩ := h.reads s n .lowest _ hs helse (by decide) hn
  have hlen := ht.length
  have hadv := length_advance t
  obtain ⟨value, u, rest, v, hextend, hrest, hvalue, hv⟩ := hf.reads t n k m ws e ht.ahead
    (by omega) hk (by omega)
  have hne := ne_of_mem_operandKinds _ hkind
  refine ⟨v, ?_, ht.trans hv⟩
  rw [statements_succ (not_or_intro hne.1 hne.2.1), hvalue]
  exact ⟨_, _, rest, statement_of_expression hkind (heq.trans hextend), hrest, rfl⟩

end Parser

/-- Nothing stands behind an expression. -/
lemma blockTerminals_compact_expr (value : Expr) (rest : List Stmt) :
    blockTerminals .compact (.expr value :: rest) =
      value.terminals .compact ++ blockTerminals .compact rest := by
  simp [blockTerminals, Stmt.terminals, Style.terminators]

/-- No statement but one that opens with a parenthesis is taken for a part of what is before it. -/
lemma startsApart_of_not_blockOpens : ∀ {body : List Stmt}, areWellFormed body = true →
    blockOpens body = false → StartsApart (blockTerminals .compact body)
  | [], _, _ => nofun
  | .define .. :: _, _, _ => fun w hw => Option.some.inj hw ▸ ⟨nofun, nofun, rfl⟩
  | .ret _ :: _, _, _ => fun w hw => Option.some.inj hw ▸ ⟨nofun, nofun, rfl⟩
  | .expr value :: rest, _, hopens => by
    obtain ⟨v, vs, hvalue, hv⟩ := value.exists_primary .compact
    have hne : v.kind ≠ .lparen := fun hk =>
      Bool.eq_false_iff.mp hopens (value.opensParen_of_terminals .compact hvalue hk)
    rw [blockTerminals_compact_expr, hvalue]
    intro w hw
    obtain rfl : v = w := Option.some.inj hw
    revert hne hv
    generalize v.kind = k
    revert k
    decide

lemma Parser.TailReadAs.of_not_blockOpens {body : List Stmt} (hbody : areWellFormed body = true)
    (hopens : blockOpens body = false)
    (h : BlockReadAs (blockTerminals .compact body) (fusedBlock body)) :
    TailReadAs (blockTerminals .compact body)
      fun left => (Stmt.expr left).join (fusedBlock body) := by
  have hjoin : (fun left => (Stmt.expr left).join (fusedBlock body)) =
      (Stmt.expr · :: fusedBlock body) := by
    funext left
    exact Stmt.join_eq_cons fun _ => (blockOpens_fusedBlock body).trans hopens
  rw [hjoin]
  exact .of_block h (startsApart_of_not_blockOpens hbody hopens)

mutual

/-- The compact text of an expression is read as the fused expression. -/
theorem Expr.readAs_fused : ∀ e : Expr, e.isWellFormed = true →
    ReadAs (e.terminals .compact) e.fused
  | .ident name, _ => .ident name
  | .int _, h => .int (of_decide_eq_true h)
  | .str value, _ => .str value
  | .bool value, _ => .bool value
  | .unary op operand, h => (ReadWhole.unary (operand.readAs_fused h) op).grouped
  | .binary op left right, h => by
    rw [Expr.isWellFormed, Bool.and_eq_true] at h
    rw [Expr.terminals_binary]
    exact (ReadWhole.binary (left.readAs_fused h.1) (right.readAs_fused h.2) op).grouped
  | .cond test yes no, h => by
    rw [Expr.isWellFormed, Bool.and_eq_true, Bool.and_eq_true] at h
    exact .cond (test.readAs_fused h.1.1).whole (readAs_fusedBlock yes h.1.2).1
      (readAs_fusedElse no h.2)
  | .function names body, h => by
    rw [Expr.isWellFormed, Bool.and_eq_true] at h
    exact .function (readAs_fusedBlock body h.2).1 names
  | .call callee args, h => by
    rw [Expr.isWellFormed, Bool.and_eq_true] at h
    exact (callee.readAs_fused h.1).trail (.call (readAs_fusedArgs args h.2))

/-- If it opens with a parenthesis, it is read as calls of whatever stands before it. -/
theorem Expr.trails_fused : ∀ e : Expr, e.isWellFormed = true → e.opensParen = true →
    Trails (e.terminals .compact) (·.attach e.fused)
  | .unary op operand, h, _ => .group (.unary (operand.readAs_fused h) op)
  | .binary op left right, h, _ => by
    rw [Expr.isWellFormed, Bool.and_eq_true] at h
    rw [Expr.terminals_binary]
    exact .group (.binary (left.readAs_fused h.1) (right.readAs_fused h.2) op)
  | .call callee args, h, hopens => by
    rw [Expr.isWellFormed, Bool.and_eq_true] at h
    exact (callee.trails_fused h.1 hopens).append (.call (readAs_fusedArgs args h.2))

/-- The same of a block, by itself and behind an expression. -/
theorem readAs_fusedBlock : ∀ body : List Stmt, areWellFormed body = true →
    BlockReadAs (blockTerminals .compact body) (fusedBlock body) ∧
      TailReadAs (blockTerminals .compact body) fun left => (Stmt.expr left).join (fusedBlock body)
  | [], _ => ⟨.nil, .of_not_blockOpens rfl rfl .nil⟩
  | .define name value :: rest, hbody => by
    have h := hbody
    rw [areWellFormed, Stmt.isWellFormed, Bool.and_eq_true, Bool.and_eq_true] at h
    have hblock := BlockReadAs.cons (.define (value.readAs_fused h.1.2).whole name)
      (readAs_fusedBlock rest h.2).1
    exact ⟨hblock, .of_not_blockOpens hbody rfl hblock⟩
  | .ret value :: rest, hbody => by
    have h := hbody
    rw [areWellFormed, Bool.and_eq_true] at h
    have hblock := BlockReadAs.cons (.ret (value.readAs_fused h.1).whole)
      (readAs_fusedBlock rest h.2).1
    exact ⟨hblock, .of_not_blockOpens hbody rfl hblock⟩
  | .expr value :: rest, hbody => by
    have h := hbody
    rw [areWellFormed, Bool.and_eq_true] at h
    have htail := (readAs_fusedBlock rest h.2).2
    have hblock : BlockReadAs (blockTerminals .compact (.expr value :: rest))
        (fusedBlock (.expr value :: rest)) := by
      rw [blockTerminals_compact_expr]
      exact .expr (value.readAs_fused h.1) htail
    refine ⟨hblock, ?_⟩
    cases hopens : value.opensParen with
    | false => exact .of_not_blockOpens hbody hopens hblock
    | true =>
      -- The loop goes on behind this statement, with all of it in what has been read so far.
      have hjoin : (fun left => (Stmt.expr left).join (fusedBlock (.expr value :: rest))) =
          (fun left => (Stmt.expr left).join (fusedBlock rest)) ∘ (·.attach value.fused) := by
        funext left
        exact Stmt.join_join (value.opensParen_fused.trans hopens)
      rw [blockTerminals_compact_expr, hjoin]
      exact .trail (value.trails_fused h.1 hopens) htail
  | .block _ :: _, h => absurd h nofun

theorem readAs_fusedArgs : ∀ args : List Expr, areWellFormedArgs args = true →
    List.Forall₂ ReadWhole (argTerminals .compact args) (fusedArgs args)
  | [], _ => .nil
  | first :: rest, h => by
    rw [areWellFormedArgs, Bool.and_eq_true] at h
    exact .cons (first.readAs_fused h.1).whole (readAs_fusedArgs rest h.2)

theorem readAs_fusedElse : ∀ no : Option (List Stmt), isWellFormedElse no = true →
    BranchReadAs (elseTerminals .compact no) (fusedElse no)
  | none, _ => .none
  | some body, h => .some (readAs_fusedBlock body h).1

end

/-- A statement at the end of the input. -/
lemma Stmt.statement_fused {s : State} {n : Nat} : ∀ stmt : Stmt, stmt.isWellFormed = true →
    s.Ahead (stmt.terminals .compact ++ []) → s.stream.tokens.length ≤ n →
      ∃ t, statement (expression n) s = .ok stmt.fused t ∧ s.Reaches t []
  | .define name value, h, hs, hn => by
    rw [Stmt.isWellFormed, Bool.and_eq_true] at h
    exact (StmtReadAs.define (value.readAs_fused h.2).whole name).reads s n [] hs hn
  | .ret value, h, hs, hn => (StmtReadAs.ret (value.readAs_fused h).whole).reads s n [] hs hn
  | .expr value, h, hs, hn => by
    rw [Stmt.terminals, Style.terminators, List.append_nil] at hs
    have hvalue := (value.readAs_fused h).whole
    obtain ⟨t, heq, ht⟩ := hvalue.reads s n [] hs noElse_nil (stops_nil _) hn
    have hstmt := statement_of_expression ((hvalue.head.append []).current hs).1 heq
    rw [skip_of_last ht.ahead] at hstmt
    exact ⟨t, hstmt, ht⟩

/-- A program of at most one statement is read as the fused one, with no error. -/
lemma program_fused {p : Program} (h : areWellFormed p = true) (hlen : p.length ≤ 1) {s : State}
    (hs : s.Ahead (blockTerminals .compact p)) :
    (program s).1 = fusedBlock p ∧ (program s).2.errors = s.errors := by
  match p, hlen with
  | [], _ =>
    rw [program, programUpTo_of_eof hs.current_of_nil]
    exact ⟨rfl, rfl⟩
  | [stmt], _ =>
    rw [areWellFormed, Bool.and_eq_true] at h
    obtain ⟨t, hstmt, ht⟩ := stmt.statement_fused h.1 hs (Nat.le_refl _)
    obtain ⟨w, ws, hw, hbrace, heof⟩ := stmt.exists_terminals_eq_cons .compact
    have hcons : s.Ahead (w :: (ws ++ [])) := by rwa [blockTerminals, hw] at hs
    have hkind : s.stream.current.kind ≠ .eof := hcons.kind hbrace ▸ heof
    have hpos := Nat.zero_lt_of_lt (hcons.cons hbrace).2.2
    have hjoin : fusedBlock [stmt] = [stmt.fused] := Stmt.join_eq_cons fun _ => rfl
    rw [hjoin]
    exact program_of_last hkind hpos hstmt ht

lemma terminals_render_compact {p : Program} (h : areWellFormed p = true) (hlen : p.length ≤ 1) :
    terminals (p.render .compact).toList = blockTerminals .compact p := by
  match p, hlen with
  | [], _ => rfl
  | [stmt], _ =>
    rw [areWellFormed, Bool.and_eq_true] at h
    have hrender : Program.render .compact [stmt] = stmt.render .compact :=
      String.intercalate_singleton
    have htext := stmt.spells_render .compact h.1 [] endsWord_nil
    rwa [List.append_nil, terminals_nil, ← hrender] at htext

/-- The compact form of a program of at most one statement is read back as that program if and only
if, in no block inside, what follows an expression begins with a parenthesis. Otherwise it is read
as the fused program, where the two are a call. -/
theorem parse_render_compact (p : Program) (h : areWellFormed p = true) (hlen : p.length ≤ 1) :
    parse (p.render .compact) = ⟨fusedBlock p, []⟩ ∧
      (parse (p.render .compact) = ⟨p, []⟩ ↔
        ∀ body ∈ blocksIn p, body.IsChain Stmt.Apart) := by
  have hparse : parse (p.render .compact) = ⟨fusedBlock p, []⟩ :=
    parse_of_ahead (terminals_render_compact h hlen) (program_fused h hlen)
  have hchain : p.IsChain Stmt.Apart := by
    match p, hlen with
    | [], _ => exact .nil
    | [stmt], _ => exact .singleton stmt
  refine ⟨hparse, ?_⟩
  rw [hparse, Parsed.mk.injEq, fusedBlock_eq_iff p h, and_iff_left rfl, and_iff_right hchain]
  rfl

/-- A function where the second and the third statement open with a parenthesis. -/
def threeInOne : Program :=
  [.define "g" (.function ["x"]
    [.expr (.ident "f"),
      .expr (.unary .negate (.ident "x")),
      .expr (.call (.binary .add (.ident "x") (.int 1)) []),
      .ret (.ident "x")])]

theorem parse_render_compact_threeInOne :
    threeInOne.render .compact = "let g = fn(x) \x7b f (-x) (x+1)() return x; \x7d;" ∧
    parse (threeInOne.render .compact) =
      ⟨[.define "g" (.function ["x"]
        [.expr (.call (.call (.call (.ident "f") [.unary .negate (.ident "x")])
            [.binary .add (.ident "x") (.int 1)]) []),
          .ret (.ident "x")])], []⟩ ∧
    parse (threeInOne.render .compact) ≠ ⟨threeInOne, []⟩ := by
  have h := parse_render_compact threeInOne (by decide) (by decide)
  refine ⟨by decide +kernel, h.1, ?_⟩
  rw [ne_eq, h.2]
  decide +kernel

end Monkey
