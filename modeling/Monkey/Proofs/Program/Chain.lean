import Monkey.Proofs.Program.Complete
import Monkey.Proofs.Program.RoundTrip

/-! How operators group. A chain of operands and binary operators is read as the tree that splits
at the last of its weakest operators, and so do both of its sides. The parser never looks for that
operator: it goes from left to right, and gives each operator as much on its right as binds
tighter. -/
open Monkey.Grammar Monkey.Parser Monkey.Parser.State

namespace Monkey

/-- How tightly a binary operator binds. -/
def BinaryOp.strength : BinaryOp → Nat
  | equal | notEqual => 1
  | less | greater => 2
  | add | sub => 3
  | mul | div => 4

/-- An expression behind unary operators, the outermost of them first. -/
structure Operand where
  ops : List UnaryOp
  core : Expr

def Operand.tree (o : Operand) : Expr := o.ops.foldr .unary o.core

/-- An operand, and further ones each behind a binary operator. -/
structure Chain where
  first : Operand
  rest : List (BinaryOp × Operand)

namespace Chain

/-- The last of the weakest operators with its operand, and what stands before and behind. -/
def split? {α : Type} : List (BinaryOp × α) →
    Option (List (BinaryOp × α) × (BinaryOp × α) × List (BinaryOp × α))
  | [] => none
  | link :: rest =>
    match split? rest with
    | none => some ([], link, [])
    | some (before, weakest, behind) =>
      if link.1.strength < weakest.1.strength then some ([], link, rest)
      else some (link :: before, weakest, behind)

lemma split?_eq_none {α : Type} {links : List (BinaryOp × α)} (h : split? links = none) :
    links = [] := by
  cases links with
  | nil => rfl
  | cons link rest =>
    rw [split?] at h
    split at h
    · cases h
    · split at h <;> cases h

/-- The operator is as weak as any before it, and weaker than all behind it. -/
lemma split?_eq_some {α : Type} {links before behind : List (BinaryOp × α)}
    {weakest : BinaryOp × α} (h : split? links = some (before, weakest, behind)) :
    links = before ++ weakest :: behind ∧
      (∀ l ∈ before, weakest.1.strength ≤ l.1.strength) ∧
      ∀ l ∈ behind, weakest.1.strength < l.1.strength := by
  induction links generalizing before weakest behind with
  | nil => cases h
  | cons link rest ih =>
    rw [split?] at h
    split at h
    · next hrest =>
      cases h
      exact ⟨by rw [split?_eq_none hrest]; rfl, nofun, nofun⟩
    · next b w a hrest =>
      obtain ⟨hsplit, hb, ha⟩ := ih hrest
      split at h
      · next hlt =>
        cases h
        refine ⟨rfl, nofun, fun l hl => ?_⟩
        rw [hsplit] at hl
        rcases List.mem_append.mp hl with hl | hl
        · exact Nat.lt_of_lt_of_le hlt (hb l hl)
        · rcases List.mem_cons.mp hl with rfl | hl
          · exact hlt
          · exact Nat.lt_trans hlt (ha l hl)
      · next hge =>
        cases h
        refine ⟨by rw [hsplit]; rfl, ?_, ha⟩
        exact List.forall_mem_cons.mpr ⟨Nat.le_of_not_lt hge, hb⟩

/-- The tree of a first operand and what follows it. -/
def group (first : Expr) (links : List (BinaryOp × Operand)) : Expr :=
  match _h : split? links with
  | none => first
  | some (before, (op, next), behind) =>
    .binary op (group first before) (group next.tree behind)
termination_by links.length
decreasing_by
  all_goals
    rw [(split?_eq_some _h).1, List.length_append, List.length_cons]
    omega

def tree (c : Chain) : Expr := group c.first.tree c.rest

end Chain

/-! ### The written form -/

/-- The pieces that an operand is written with. -/
def Operand.pieces (o : Operand) : List String :=
  o.ops.map (·.symbol) ++ [o.core.render .canonical]

def Operand.terminals (o : Operand) : List Terminal :=
  o.ops.map (fun op => .of op.kind) ++ o.core.terminals .canonical

namespace Chain

def pieces (c : Chain) : List String :=
  c.first.pieces ++ c.rest.flatMap fun l => l.1.symbol :: l.2.pieces

/-- The pieces with single spaces between them. -/
def text (c : Chain) : String := " ".intercalate c.pieces

def linkTerminals (links : List (BinaryOp × Operand)) : List Terminal :=
  links.flatMap fun l => .of l.1.kind :: l.2.terminals

def terminals (c : Chain) : List Terminal := c.first.terminals ++ linkTerminals c.rest

def isWellFormed (c : Chain) : Bool :=
  c.first.core.isWellFormed && c.rest.all (·.2.core.isWellFormed)

end Chain

/-- The text is read as these tokens where a space or nothing follows. -/
def Apart (text : List Char) (ts : List Terminal) : Prop :=
  ∀ rest : List Char, (∀ c ∈ rest.head?, c = ' ') →
    terminals (text ++ rest) = ts ++ terminals rest

lemma Spells.apart {text : List Char} {ts : List Terminal} (h : Spells text ts) :
    Apart text ts := by
  refine fun rest hrest => h rest fun c hc => ?_
  rw [hrest c hc]
  decide

lemma UnaryOp.apart_symbol (op : UnaryOp) : Apart op.symbol.toList [.of op.kind] := by
  refine fun rest hrest => op.terminals_symbol fun heq => ?_
  have := hrest '=' heq
  contradiction

lemma BinaryOp.apart_symbol (op : BinaryOp) : Apart op.symbol.toList [.of op.kind] :=
  fun rest _ => op.terminals_symbol rest

/-- The pieces are read as these tokens when spaces stand between them. -/
def Spaced (pieces : List String) (ws : List Terminal) : Prop :=
  ∃ ts, List.Forall₂ Apart (pieces.map String.toList) ts ∧ ts.flatten = ws

namespace Spaced

lemma nil : Spaced [] [] := ⟨[], .nil, rfl⟩

lemma cons {piece : String} {pieces : List String} {t ws : List Terminal}
    (hpiece : Apart piece.toList t) (h : Spaced pieces ws) :
    Spaced (piece :: pieces) (t ++ ws) := by
  obtain ⟨ts, hts, rfl⟩ := h
  exact ⟨t :: ts, .cons hpiece hts, rfl⟩

lemma append {p q : List String} {u v : List Terminal} (hp : Spaced p u) (hq : Spaced q v) :
    Spaced (p ++ q) (u ++ v) := by
  obtain ⟨ts, hts, rfl⟩ := hp
  obtain ⟨us, hus, rfl⟩ := hq
  exact ⟨ts ++ us, by rw [List.map_append]; exact List.rel_append hts hus, List.flatten_append⟩

lemma terminals_intercalate {pieces : List String} {ws : List Terminal} (h : Spaced pieces ws) :
    terminals (" ".intercalate pieces).toList = ws := by
  obtain ⟨ts, hts, rfl⟩ := h
  rw [String.toList_intercalate]
  change terminals ([' '].intercalate (pieces.map String.toList)) = _
  generalize pieces.map String.toList = texts at hts
  induction hts with
  | nil => rfl
  | @cons p t texts ts hp htail ih =>
    cases htail with
    | nil => simpa using hp [] nofun
    | @cons q u texts ts hq htail =>
      have hspace : ∀ c ∈ ([' '] ++ [' '].intercalate (q :: texts)).head?, c = ' ' := by simp
      rw [List.intercalate_cons_cons, List.append_assoc, hp _ hspace, List.flatten_cons, ← ih,
        List.singleton_append, terminals_space]

end Spaced

lemma Operand.spaced_pieces {o : Operand} (h : o.core.isWellFormed = true) :
    Spaced o.pieces o.terminals := by
  have hcore : Spaced [o.core.render .canonical] (o.core.terminals .canonical) := by
    simpa using Spaced.nil.cons (o.core.spells_render .canonical h).apart
  refine Spaced.append ?_ hcore
  induction o.ops with
  | nil => exact .nil
  | cons op ops ih => exact ih.cons op.apart_symbol

namespace Chain

lemma spaced_links {links : List (BinaryOp × Operand)}
    (h : ∀ l ∈ links, l.2.core.isWellFormed = true) :
    Spaced (links.flatMap fun l => l.1.symbol :: l.2.pieces) (linkTerminals links) := by
  induction links with
  | nil => exact .nil
  | cons l links ih =>
    obtain ⟨hl, hlinks⟩ := List.forall_mem_cons.mp h
    exact ((Operand.spaced_pieces hl).cons l.1.apart_symbol).append (ih hlinks)

lemma isWellFormed_iff {c : Chain} : c.isWellFormed = true ↔
    c.first.core.isWellFormed = true ∧ ∀ l ∈ c.rest, l.2.core.isWellFormed = true := by
  rw [isWellFormed, Bool.and_eq_true, List.all_eq_true]

/-- The text of a chain has the tokens of the chain. -/
theorem terminals_text {c : Chain} (h : c.isWellFormed = true) :
    Monkey.terminals c.text.toList = c.terminals := by
  obtain ⟨hfirst, hrest⟩ := isWellFormed_iff.mp h
  exact ((Operand.spaced_pieces hfirst).append (spaced_links hrest)).terminals_intercalate

end Chain

/-! ### Reading -/

lemma BinaryOp.rank_ofKind (op : BinaryOp) : (Precedence.ofKind op.kind).rank = op.strength := by
  cases op <;> rfl

/-- An operator behind an operand belongs to none of the unary operators before it. -/
lemma BinaryOp.stops_unary (op : BinaryOp) (ws : List Terminal) :
    Stops .unary (.of op.kind :: ws) := by
  intro w hw
  obtain rfl := Option.some.inj hw
  cases op <;> decide

lemma BinaryOp.noElse (op : BinaryOp) (ws : List Terminal) : NoElse (.of op.kind :: ws) :=
  noElse_cons (by cases op <;> nofun) ws

lemma BinaryOp.stops_of_strength_le {op op' : BinaryOp} (h : op'.strength ≤ op.strength)
    (ws : List Terminal) : Stops (.ofKind op.kind) (.of op'.kind :: ws) := by
  intro w hw
  obtain rfl := Option.some.inj hw
  change ¬(Precedence.ofKind op.kind).rank < (Precedence.ofKind op'.kind).rank
  rw [op.rank_ofKind, op'.rank_ofKind]
  exact Nat.not_lt.mpr h

/-- What ends the right side of an operator ends every operand in it. -/
lemma BinaryOp.stops_unary_of_stops {op : BinaryOp} {ws : List Terminal}
    (h : Stops (.ofKind op.kind) ws) : Stops .unary ws := by
  intro w hw hlt
  refine h w hw (Nat.lt_trans ?_ hlt)
  rw [op.rank_ofKind]
  cases op <;> decide

lemma Operand.exists_terminals_eq_cons (o : Operand) :
    ∃ w ws, o.terminals = w :: ws ∧ w.kind ∈ operandKinds := by
  rw [terminals]
  cases o.ops with
  | nil => exact o.core.exists_terminals_eq_cons .canonical
  | cons op ops => exact ⟨_, _, rfl, by cases op <;> decide⟩

/-- An operand is read whole, whatever binary operator follows. -/
lemma Operand.reads {core : Expr} (h : core.Reads) (ops : List UnaryOp) {s : State} {n : Nat}
    {min : Precedence} {ws : List Terminal}
    (hs : s.Ahead (Operand.terminals ⟨ops, core⟩ ++ ws)) (hws : NoElse ws) (hstop : Stops .unary ws)
    (hmin : min < .call) (hn : s.stream.tokens.length ≤ n + 1) :
    ∃ m t, s.Reaches t ws ∧ t.advance.stream.tokens.length ≤ m ∧
      expression (n + 1) min s = extend (expression n) min m (Operand.tree ⟨ops, core⟩) t := by
  induction ops generalizing s n min with
  | nil => exact h s n min ws hs hws hmin hn
  | cons op ops ih =>
    have hop : (Terminal.of op.kind).kind ≠ .rbrace := by cases op <;> nofun
    obtain ⟨-, hs₁, hlt⟩ := hs.cons hop
    obtain ⟨n, rfl⟩ : ∃ k, n = k + 1 := by
      obtain ⟨v, vs, hv, hkind⟩ := Operand.exists_terminals_eq_cons ⟨ops, core⟩
      change s.advance.Ahead (Operand.terminals ⟨ops, core⟩ ++ ws) at hs₁
      rw [hv] at hs₁
      have := (hs₁.cons (ne_of_mem_operandKinds _ hkind).1).2.2
      exact ⟨n - 1, by omega⟩
    obtain ⟨m, t, ht, -, heq⟩ := ih hs₁ (n := n) (show Precedence.unary < .call by decide)
      (by omega)
    rw [extend_stop (hstop.not_lt ht.ahead)] at heq
    have hkind : UnaryOp.ofKind? s.stream.current.kind = some op := by
      rw [hs.kind hop]
      exact op.ofKind?_kind
    have hoperand : operand (expression (n + 1)) (n + 1) s =
        .ok (Operand.tree ⟨op :: ops, core⟩) t := by
      rw [operand_unary hkind]
      exact ⟨_, heq, rfl⟩
    refine ⟨n + 1, t, ht.of_advance, ?_, expression_of_operand hoperand min⟩
    have := ht.length
    rw [length_advance]
    omega

namespace Chain

lemma linkTerminals_append (before behind : List (BinaryOp × Operand)) (op : BinaryOp)
    (next : Operand) (ws : List Terminal) :
    linkTerminals (before ++ (op, next) :: behind) ++ ws =
      linkTerminals before ++
        .of op.kind :: (next.terminals ++ (linkTerminals behind ++ ws)) := by
  simp [linkTerminals]

/-- What follows an operand of a chain is an operator or what follows the chain. -/
lemma noElse_links {links : List (BinaryOp × Operand)} {ws : List Terminal} (h : NoElse ws) :
    NoElse (linkTerminals links ++ ws) := by
  cases links with
  | nil => exact h
  | cons l links => exact l.1.noElse _

lemma stops_links {links : List (BinaryOp × Operand)} {ws : List Terminal}
    (h : Stops .unary ws) : Stops .unary (linkTerminals links ++ ws) := by
  cases links with
  | nil => exact h
  | cons l links => exact l.1.stops_unary _

/-- The loop over operators groups what follows, if all of it binds tighter than `min` and nothing
behind it binds tighter than one of its operators. The induction follows the tree: the loop takes
what stands before the weakest operator, and the right side of that operator is read by another
loop, which `min` then keeps from going further. -/
theorem extend_links (left : Expr) {links : List (BinaryOp × Operand)}
    (hreads : ∀ l ∈ links, l.2.core.Reads) {t : State} {n m : Nat} {min : Precedence}
    {ws : List Terminal} (ht : t.advance.Ahead (linkTerminals links ++ ws)) (hws : NoElse ws)
    (hmin : ∀ l ∈ links, min.rank < l.1.strength)
    (hstop : ∀ l ∈ links, Stops (.ofKind l.1.kind) ws)
    (hn : t.advance.stream.tokens.length ≤ n) (hm : t.advance.stream.tokens.length ≤ m) :
    ∃ m' t', t.Reaches t' ws ∧ t'.advance.stream.tokens.length ≤ m' ∧
      extend (expression n) min m left t = extend (expression n) min m' (group left links) t' := by
  induction left, links using group.induct generalizing t n m min ws with
  | case1 left links hsplit =>
    obtain rfl := split?_eq_none hsplit
    refine ⟨m, t, reaches_refl ht, hm, ?_⟩
    rw [group, hsplit]
  | case2 left links before op next behind hsplit ihbefore ihbehind =>
    have hgroup : group left links = .binary op (group left before) (group next.tree behind) := by
      rw [group, hsplit]
    obtain ⟨rfl, hbefore, hbehind⟩ := split?_eq_some hsplit
    obtain ⟨hreadsb, hreads⟩ := List.forall_mem_append.mp hreads
    obtain ⟨hreadsop, hreadsa⟩ := List.forall_mem_cons.mp hreads
    obtain ⟨hminb, hmin⟩ := List.forall_mem_append.mp hmin
    obtain ⟨-, hstop⟩ := List.forall_mem_append.mp hstop
    obtain ⟨hstopop, hstopa⟩ := List.forall_mem_cons.mp hstop
    have hop : op.kind ≠ .rbrace ∧ Precedence.ofKind op.kind < .call := by cases op <;> decide
    rw [linkTerminals_append] at ht
    obtain ⟨m₁, t₁, ht₁, hm₁, heq₁⟩ := ihbefore hreadsb ht (op.noElse _) hminb
      (fun l hl => BinaryOp.stops_of_strength_le (hbefore l hl) _) hn hm
    have hpeek : t₁.stream.peek.kind = op.kind := ht₁.peek hop.1
    obtain ⟨-, hs₂, hlt⟩ := ht₁.ahead.cons hop.1
    have hlen₁ := ht₁.length
    have hadv := length_advance t
    have hadv₁ := length_advance t₁
    obtain ⟨k, rfl⟩ : ∃ k, m₁ = k + 1 := ⟨m₁ - 1, by omega⟩
    obtain ⟨n, rfl⟩ : ∃ k, n = k + 1 := ⟨n - 1, by omega⟩
    obtain ⟨m₂, t₂, ht₂, hm₂, heq₂⟩ := Operand.reads hreadsop next.ops hs₂ (noElse_links hws)
      (stops_links (BinaryOp.stops_unary_of_stops hstopop)) hop.2 (n := n) (by omega)
    have hlen₂ := ht₂.length
    have hadv₂ := length_advance_le t₂
    have hbinds : ∀ l ∈ behind, (Precedence.ofKind op.kind).rank < l.1.strength := by
      rw [op.rank_ofKind]
      exact hbehind
    obtain ⟨m₃, t₃, ht₃, -, heq₃⟩ := ihbehind hreadsa ht₂.ahead hws hbinds hstopa (n := n)
      (by omega) hm₂
    have hright : expression (n + 1) (.ofKind op.kind) t₁.advance.advance =
        .ok (group next.tree behind) t₃ := by
      rw [heq₂]
      exact heq₃.trans (extend_stop (hstopop.not_lt ht₃.ahead) _ _)
    have hlen₃ := ht₃.length
    have hadv₃ := length_advance_le t₃
    refine ⟨k, t₃, ht₁.trans (ht₂.trans ht₃).of_advance.of_advance, by omega, ?_⟩
    have hmin' : min < .ofKind t₁.stream.peek.kind := by
      rw [hpeek]
      change min.rank < (Precedence.ofKind op.kind).rank
      rw [op.rank_ofKind]
      exact hmin (op, next) List.mem_cons_self
    rw [heq₁, extend_binary (by rw [hpeek]; exact op.ofKind?_kind) hmin', hpeek,
      bind_of_ok hright, hgroup]

/-- A chain at the end of the input is read as its tree. -/
theorem expression_chain {c : Chain} (h : c.isWellFormed = true) {s : State} {n : Nat}
    (hs : s.Ahead c.terminals) (hn : s.stream.tokens.length ≤ n + 1) :
    ∃ t, expression (n + 1) .lowest s = .ok c.tree t ∧ s.Reaches t [] := by
  obtain ⟨hfirst, hrest⟩ := isWellFormed_iff.mp h
  have hstart : s.Ahead (c.first.terminals ++ (linkTerminals c.rest ++ [])) := by
    rwa [List.append_nil]
  obtain ⟨m, t, ht, hm, heq⟩ := Operand.reads (c.first.core.reads hfirst) c.first.ops hstart
    (noElse_links noElse_nil) (stops_links (stops_nil _)) (show Precedence.lowest < .call by decide)
    hn
  have hlen := ht.length
  have hadv := length_advance t
  have hmin : ∀ l ∈ c.rest, Precedence.lowest.rank < l.1.strength :=
    fun l _ => by cases l.1 <;> decide
  obtain ⟨m', t', ht', -, heq'⟩ := extend_links c.first.tree
    (fun l hl => l.2.core.reads (hrest l hl)) ht.ahead noElse_nil hmin (fun _ _ => stops_nil _)
    (n := n) (by omega) hm
  refine ⟨t', ?_, ht.trans ht'⟩
  rw [heq]
  exact heq'.trans (extend_stop ((stops_nil .lowest).not_lt ht'.ahead) _ _)

lemma program_chain {c : Chain} (h : c.isWellFormed = true) {s : State} (hs : s.Ahead c.terminals) :
    (program s).1 = [.expr c.tree] ∧ (program s).2.errors = s.errors := by
  have hhead : StartsOperand c.first.terminals := c.first.exists_terminals_eq_cons
  obtain ⟨hkind, hpos⟩ := (hhead.append (linkTerminals c.rest)).current hs
  obtain ⟨n, hn⟩ : ∃ n, s.stream.tokens.length = n + 1 := ⟨s.stream.tokens.length - 1, by omega⟩
  obtain ⟨t, heq, ht⟩ := expression_chain h hs (Nat.le_of_eq hn)
  rw [← hn] at heq
  have hstmt := statement_of_expression hkind heq
  rw [skip_of_last ht.ahead] at hstmt
  exact program_of_last (ne_of_mem_operandKinds _ hkind).2.1 hpos hstmt ht

/-- The text of a chain is read as one statement, which is the tree of the chain. -/
theorem parse_text (c : Chain) (h : c.isWellFormed = true) :
    parse c.text = ⟨[.expr c.tree], []⟩ :=
  parse_of_ahead (terminals_text h) (program_chain h)

/-- Operators of all four strengths, unary ones among them, between a name, a conditional, a call
and literals. -/
def fourStrengths : Chain where
  first := ⟨[.not, .negate], .ident "a"⟩
  rest :=
    [(.equal, ⟨[], .cond (.ident "b") [.expr (.int 1)] none⟩),
      (.sub, ⟨[], .call (.ident "f") [.int 2]⟩),
      (.mul, ⟨[.negate], .int 3⟩),
      (.sub, ⟨[], .int 4⟩),
      (.less, ⟨[], .str "z"⟩),
      (.equal, ⟨[], .bool true⟩)]

theorem parse_text_fourStrengths :
    fourStrengths.isWellFormed = true ∧
    fourStrengths.text =
      "! - a == if (b) \x7b 1; \x7d - f(2) * - 3 - 4 < \"z\" == true" ∧
    parse fourStrengths.text =
      ⟨[.expr (.binary .equal
        (.binary .equal
          (.unary .not (.unary .negate (.ident "a")))
          (.binary .less
            (.binary .sub
              (.binary .sub
                (.cond (.ident "b") [.expr (.int 1)] none)
                (.binary .mul
                  (.call (.ident "f") [.int 2])
                  (.unary .negate (.int 3))))
              (.int 4))
            (.str "z")))
        (.bool true))], []⟩ := by
  have hwf : fourStrengths.isWellFormed = true := by decide
  refine ⟨hwf, by decide +kernel, ?_⟩
  rw [parse_text fourStrengths hwf]
  simp [tree, group, split?, BinaryOp.strength, Operand.tree, fourStrengths]

end Chain
end Monkey
