import Mathlib.Data.List.Chain
import Monkey.Proofs.Program.RoundTrip

/-! What becomes of a tree in the compact form. An expression statement has no mark at its end, so
if the next statement opens with a parenthesis the two become one: the second is taken for calls of
the first. -/
namespace Monkey

/-- Whether an expression is written with a parenthesis in front. -/
def Expr.opensParen : Expr → Bool
  | .unary .. => true
  | .binary .. => true
  | .call callee _ => callee.opensParen
  | _ => false

/-- An expression in parentheses, and calls behind it, taken for calls of `left`: what stands in
the parentheses becomes the only argument of the first call. -/
def Expr.attach (left : Expr) : Expr → Expr
  | .call callee args => .call (left.attach callee) args
  | e => .call left [e]

namespace Stmt

def isExpr : Stmt → Bool
  | .expr _ => true
  | _ => false

def opensParen : Stmt → Bool
  | .expr value => value.opensParen
  | _ => false

/-- A statement in front of others, with nothing between them. -/
def join : Stmt → List Stmt → List Stmt
  | .expr left, .expr right :: rest =>
    if right.opensParen then .expr (left.attach right) :: rest
    else .expr left :: .expr right :: rest
  | s, rest => s :: rest

/-- The compact text of the second statement does not make it a part of the first. -/
def Apart (s next : Stmt) : Prop :=
  s.isExpr = true → (next.render .compact).toList.head? ≠ some '('

instance (s next : Stmt) : Decidable (s.Apart next) :=
  inferInstanceAs (Decidable (s.isExpr = true → _))

end Stmt

mutual

/-- The expression that the compact text of an expression is read as. -/
def Expr.fused : Expr → Expr
  | .ident name => .ident name
  | .int value => .int value
  | .str value => .str value
  | .bool value => .bool value
  | .unary op operand => .unary op operand.fused
  | .binary op left right => .binary op left.fused right.fused
  | .cond test yes no => .cond test.fused (fusedBlock yes) (fusedElse no)
  | .function params body => .function params (fusedBlock body)
  | .call callee args => .call callee.fused (fusedArgs args)

def Stmt.fused : Stmt → Stmt
  | .define name value => .define name value.fused
  | .ret value => .ret value.fused
  | .expr value => .expr value.fused
  | .block body => .block (fusedBlock body)

def fusedBlock : List Stmt → List Stmt
  | [] => []
  | s :: rest => s.fused.join (fusedBlock rest)

def fusedArgs : List Expr → List Expr
  | [] => []
  | e :: rest => e.fused :: fusedArgs rest

def fusedElse : Option (List Stmt) → Option (List Stmt)
  | none => none
  | some body => some (fusedBlock body)

end

mutual

/-- All blocks inside an expression, those inside one another included. -/
def Expr.blocks : Expr → List Block
  | .ident _ => []
  | .int _ => []
  | .str _ => []
  | .bool _ => []
  | .unary _ operand => operand.blocks
  | .binary _ left right => left.blocks ++ right.blocks
  | .cond test yes no => test.blocks ++ (yes :: blocksIn yes) ++ elseBlocks no
  | .function _ body => body :: blocksIn body
  | .call callee args => callee.blocks ++ argBlocks args

def Stmt.blocks : Stmt → List Block
  | .define _ value => value.blocks
  | .ret value => value.blocks
  | .expr value => value.blocks
  | .block body => body :: blocksIn body

/-- All blocks inside the statements of a block or program. -/
def blocksIn : List Stmt → List Block
  | [] => []
  | s :: rest => s.blocks ++ blocksIn rest

def argBlocks : List Expr → List Block
  | [] => []
  | e :: rest => e.blocks ++ argBlocks rest

def elseBlocks : Option (List Stmt) → List Block
  | none => []
  | some body => body :: blocksIn body

end

/-! ### Joining -/

namespace Expr

theorem opensParen_fused : ∀ e : Expr, e.fused.opensParen = e.opensParen
  | .ident _ | .int _ | .str _ | .bool _ | .unary .. | .binary .. | .cond .. | .function .. => rfl
  | .call callee _ => callee.opensParen_fused

theorem opensParen_attach (left : Expr) : ∀ e : Expr, (left.attach e).opensParen = left.opensParen
  | .ident _ | .int _ | .str _ | .bool _ | .unary .. | .binary .. | .cond .. | .function .. => rfl
  | .call callee _ => left.opensParen_attach callee

theorem attach_attach (a b : Expr) : ∀ c : Expr, (a.attach b).attach c = a.attach (b.attach c)
  | .ident _ | .int _ | .str _ | .bool _ | .unary .. | .binary .. | .cond .. | .function .. => rfl
  | .call callee args => congrArg (Expr.call · args) (a.attach_attach b callee)

end Expr

/-- Whether the first of the statements is written with a parenthesis in front. -/
def blockOpens (body : List Stmt) : Bool := body.head?.any Stmt.opensParen

namespace Stmt

variable {s : Stmt} {left right : Expr} {rest : List Stmt}

lemma join_of_opens (h : right.opensParen = true) :
    (Stmt.expr left).join (.expr right :: rest) = .expr (left.attach right) :: rest := if_pos h

lemma join_eq_cons (h : s.isExpr = true → blockOpens rest = false) : s.join rest = s :: rest := by
  unfold join
  split
  · next left right rest =>
    have hright : right.opensParen = false := h rfl
    rw [hright, if_neg Bool.false_ne_true]
  · rfl

/-- Nothing is joined, or two expressions are. -/
lemma join_cases (s : Stmt) (rest : List Stmt) :
    (s.isExpr = true → blockOpens rest = false) ∧ s.join rest = s :: rest ∨
      ∃ left right tail, s = .expr left ∧ rest = .expr right :: tail ∧
        right.opensParen = true ∧ s.join rest = .expr (left.attach right) :: tail := by
  by_cases h : s.isExpr = true → blockOpens rest = false
  · exact .inl ⟨h, join_eq_cons h⟩
  · right
    match s, rest, h with
    | .expr left, .expr right :: tail, h =>
      have hright : right.opensParen = true := by simpa [isExpr, blockOpens, opensParen] using h
      exact ⟨left, right, tail, rfl, rfl, hright, join_of_opens hright⟩
    | .expr _, [], h => exact absurd (fun _ => rfl) h
    | .expr _, .define .. :: _, h => exact absurd (fun _ => rfl) h
    | .expr _, .ret _ :: _, h => exact absurd (fun _ => rfl) h
    | .expr _, .block _ :: _, h => exact absurd (fun _ => rfl) h
    | .define .., _, h => exact absurd nofun h
    | .ret _, _, h => exact absurd nofun h
    | .block _, _, h => exact absurd nofun h

/-- What is joined one after the other may be joined from either end. -/
lemma join_join (h : right.opensParen = true) :
    (Stmt.expr left).join ((Stmt.expr right).join rest) =
      (Stmt.expr (left.attach right)).join rest := by
  rcases join_cases (.expr right) rest with ⟨hapart, hjoin⟩ | ⟨_, last, tail, ⟨⟩, rfl, hlast, hjoin⟩
  · rw [hjoin, join_of_opens h, join_eq_cons fun _ => hapart rfl]
  · rw [hjoin, join_of_opens (Expr.opensParen_attach right last ▸ h), join_of_opens hlast,
      Expr.attach_attach]

lemma blockOpens_join (s : Stmt) (rest : List Stmt) : blockOpens (s.join rest) = s.opensParen := by
  rcases join_cases s rest with ⟨-, hjoin⟩ | ⟨left, right, tail, rfl, rfl, -, hjoin⟩
  · rw [hjoin]
    rfl
  · rw [hjoin]
    exact Expr.opensParen_attach left right

lemma length_join_le (s : Stmt) (rest : List Stmt) : (s.join rest).length ≤ rest.length + 1 := by
  rcases join_cases s rest with ⟨-, hjoin⟩ | ⟨left, right, tail, rfl, rfl, -, hjoin⟩
  · rw [hjoin, List.length_cons]
  · rw [hjoin, List.length_cons, List.length_cons]
    omega

lemma join_eq_cons_iff {t : Stmt} {rest' : List Stmt} (h : rest'.length ≤ rest.length) :
    t.join rest' = s :: rest ↔
      (t.isExpr = true → blockOpens rest' = false) ∧ t = s ∧ rest' = rest := by
  rcases join_cases t rest' with ⟨hapart, hjoin⟩ | ⟨left, right, tail, rfl, rfl, hright, hjoin⟩
  · rw [hjoin, List.cons.injEq]
    exact (and_iff_right hapart).symm
  · constructor
    · -- The tail alone would have to be as long as all that was joined.
      intro heq
      rw [hjoin, List.cons.injEq] at heq
      rw [← heq.2, List.length_cons] at h
      omega
    · rintro ⟨hapart, -⟩
      exact absurd (hapart rfl) (by simp [blockOpens, opensParen, hright])

lemma isExpr_fused (s : Stmt) : s.fused.isExpr = s.isExpr := by
  cases s <;> rfl

lemma opensParen_fused (s : Stmt) : s.fused.opensParen = s.opensParen := by
  cases s with
  | expr value => exact value.opensParen_fused
  | _ => rfl

end Stmt

lemma blockOpens_fusedBlock (body : List Stmt) :
    blockOpens (fusedBlock body) = blockOpens body := by
  cases body with
  | nil => rfl
  | cons s rest =>
    rw [fusedBlock, Stmt.blockOpens_join, s.opensParen_fused]
    rfl

lemma length_fusedBlock_le (body : List Stmt) : (fusedBlock body).length ≤ body.length := by
  induction body with
  | nil => exact Nat.le_refl 0
  | cons s rest ih =>
    rw [fusedBlock, List.length_cons]
    exact Nat.le_trans (s.fused.length_join_le _) (Nat.succ_le_succ ih)

/-! ### Texts that open with a parenthesis -/

lemma Expr.exists_render_eq_lparen (style : Style) : ∀ e : Expr, e.opensParen = true →
    ∃ cs, (e.render style).toList = '(' :: cs
  | .unary .., _ => ⟨_, by simp only [render, String.toList_append]; rfl⟩
  | .binary .., _ => ⟨_, by simp only [render, String.toList_append]; rfl⟩
  | .call callee _, h => by
    obtain ⟨cs, hcs⟩ := callee.exists_render_eq_lparen style h
    exact ⟨_, by simp only [render, String.toList_append, hcs]; rfl⟩

lemma Expr.opensParen_of_terminals (style : Style) : ∀ (e : Expr) {w : Terminal}
    {ws : List Terminal}, e.terminals style = w :: ws → w.kind = .lparen → e.opensParen = true
  | .ident _, _, _, rfl, hw => absurd hw nofun
  | .int _, _, _, rfl, hw => absurd hw nofun
  | .str _, _, _, rfl, hw => absurd hw nofun
  | .bool true, _, _, rfl, hw => absurd hw nofun
  | .bool false, _, _, rfl, hw => absurd hw nofun
  | .unary .., _, _, _, _ => rfl
  | .binary .., _, _, _, _ => rfl
  | .cond .., _, _, rfl, hw => absurd hw nofun
  | .function .., _, _, rfl, hw => absurd hw nofun
  | .call callee _, _, _, h, hw => by
    obtain ⟨v, vs, hcallee, -⟩ := callee.exists_primary style
    rw [Expr.terminals, hcallee, List.cons_append, List.cons.injEq] at h
    exact callee.opensParen_of_terminals style hcallee (h.1 ▸ hw)

namespace Stmt

variable {s : Stmt}

lemma opensParen_of_terminals : ∀ {s : Stmt} {ws : List Terminal},
    s.terminals .compact = .of .lparen :: ws → s.opensParen = true
  | .expr value, ws, h => by
    rw [Stmt.terminals, Style.terminators, List.append_nil] at h
    exact value.opensParen_of_terminals .compact h rfl

/-- Whether a statement opens with a parenthesis can be told from its text. -/
lemma head_render_eq_lparen_iff (h : s.isWellFormed = true) :
    (s.render .compact).toList.head? = some '(' ↔ s.opensParen = true := by
  constructor
  · intro hhead
    obtain ⟨cs, hcs⟩ := List.head?_eq_some_iff.mp hhead
    have hterminals := s.spells_render .compact h [] endsWord_nil
    rw [List.append_nil, hcs, terminals_lparen, terminals_nil, List.append_nil] at hterminals
    exact opensParen_of_terminals hterminals.symm
  · intro hopens
    match s, hopens with
    | .expr value, hopens =>
      obtain ⟨cs, hcs⟩ := value.exists_render_eq_lparen .compact hopens
      rw [render, String.toList_append, hcs]
      rfl

/-- Statements stand apart if none of them is joined with the next. -/
lemma forall_apart_iff {rest : List Stmt} (hrest : areWellFormed rest = true) :
    (∀ next ∈ rest.head?, s.Apart next) ↔ (s.isExpr = true → blockOpens rest = false) := by
  cases rest with
  | nil => simp [blockOpens]
  | cons next rest =>
    rw [areWellFormed, Bool.and_eq_true] at hrest
    have hopens := head_render_eq_lparen_iff hrest.1
    simp [Apart, blockOpens, hopens]

end Stmt

/-! ### Trees that stay as they are -/

/-- In none of the blocks are two statements joined. -/
def AllApart (blocks : List Block) : Prop := ∀ body ∈ blocks, body.IsChain Stmt.Apart

@[simp] lemma allApart_nil : AllApart [] := nofun

@[simp] lemma allApart_cons {body : Block} {blocks : List Block} :
    AllApart (body :: blocks) ↔ body.IsChain Stmt.Apart ∧ AllApart blocks := List.forall_mem_cons

@[simp] lemma allApart_append {blocks blocks' : List Block} :
    AllApart (blocks ++ blocks') ↔ AllApart blocks ∧ AllApart blocks' := List.forall_mem_append

mutual

theorem Expr.fused_eq_iff : ∀ e : Expr, e.isWellFormed = true → (e.fused = e ↔ AllApart e.blocks)
  | .ident _, _ => by simp [Expr.fused, Expr.blocks]
  | .int _, _ => by simp [Expr.fused, Expr.blocks]
  | .str _, _ => by simp [Expr.fused, Expr.blocks]
  | .bool _, _ => by simp [Expr.fused, Expr.blocks]
  | .unary _ operand, h => by simp [Expr.fused, Expr.blocks, operand.fused_eq_iff h]
  | .binary _ left right, h => by
    rw [Expr.isWellFormed, Bool.and_eq_true] at h
    simp [Expr.fused, Expr.blocks, left.fused_eq_iff h.1, right.fused_eq_iff h.2]
  | .cond test yes no, h => by
    rw [Expr.isWellFormed, Bool.and_eq_true, Bool.and_eq_true] at h
    simp [Expr.fused, Expr.blocks, test.fused_eq_iff h.1.1, fusedBlock_eq_iff yes h.1.2,
      fusedElse_eq_iff no h.2, and_assoc]
  | .function _ body, h => by
    rw [Expr.isWellFormed, Bool.and_eq_true] at h
    simp [Expr.fused, Expr.blocks, fusedBlock_eq_iff body h.2]
  | .call callee args, h => by
    rw [Expr.isWellFormed, Bool.and_eq_true] at h
    simp [Expr.fused, Expr.blocks, callee.fused_eq_iff h.1, fusedArgs_eq_iff args h.2]

theorem Stmt.fused_eq_iff : ∀ s : Stmt, s.isWellFormed = true → (s.fused = s ↔ AllApart s.blocks)
  | .define _ value, h => by
    rw [Stmt.isWellFormed, Bool.and_eq_true] at h
    simp [Stmt.fused, Stmt.blocks, value.fused_eq_iff h.2]
  | .ret value, h => by simp [Stmt.fused, Stmt.blocks, value.fused_eq_iff h]
  | .expr value, h => by simp [Stmt.fused, Stmt.blocks, value.fused_eq_iff h]
  | .block _, h => absurd h nofun

theorem fusedBlock_eq_iff : ∀ body : List Stmt, areWellFormed body = true →
    (fusedBlock body = body ↔ body.IsChain Stmt.Apart ∧ AllApart (blocksIn body))
  | [], _ => by simp [fusedBlock, blocksIn]
  | s :: rest, h => by
    rw [areWellFormed, Bool.and_eq_true] at h
    rw [fusedBlock, Stmt.join_eq_cons_iff (length_fusedBlock_le rest), s.isExpr_fused,
      blockOpens_fusedBlock, s.fused_eq_iff h.1, fusedBlock_eq_iff rest h.2, List.isChain_cons,
      Stmt.forall_apart_iff h.2, blocksIn, allApart_append]
    tauto

theorem fusedArgs_eq_iff : ∀ args : List Expr, areWellFormedArgs args = true →
    (fusedArgs args = args ↔ AllApart (argBlocks args))
  | [], _ => by simp [fusedArgs, argBlocks]
  | e :: rest, h => by
    rw [areWellFormedArgs, Bool.and_eq_true] at h
    simp [fusedArgs, argBlocks, e.fused_eq_iff h.1, fusedArgs_eq_iff rest h.2]

theorem fusedElse_eq_iff : ∀ no : Option (List Stmt), isWellFormedElse no = true →
    (fusedElse no = no ↔ AllApart (elseBlocks no))
  | none, _ => by simp [fusedElse, elseBlocks]
  | some body, h => by simp [fusedElse, elseBlocks, fusedBlock_eq_iff body h]

end

end Monkey
