import Mathlib.Data.List.Forall2
import Monkey.Proofs.Program.WellFormed

/-! Reading the tokens of a written program: no token runs into its neighbour, so the text of a
well-formed tree has exactly the tokens of the tree. -/
namespace Monkey

/-- The text is read as these tokens, whatever stands behind it and ends a word. -/
def Spells (text : List Char) (ts : List Terminal) : Prop :=
  ∀ rest, EndsWord rest → terminals (text ++ rest) = ts ++ terminals rest

/-- Pieces with a separator between them that ends words. -/
lemma Spells.intercalate {sep : List Char} {seps : List Terminal} (hsep : EndsWord sep)
    (hread : ∀ rest, terminals (sep ++ rest) = seps ++ terminals rest)
    (hne : sep ≠ []) {pieces : List (List Char)} {ts : List (List Terminal)}
    (h : List.Forall₂ Spells pieces ts) :
    Spells (sep.intercalate pieces) (seps.intercalate ts) := by
  induction h with
  | nil => intro rest _; rfl
  | @cons p t pieces ts hp htail ih =>
    cases htail with
    | nil => simpa using hp
    | @cons q u pieces ts hq htail =>
      intro rest hrest
      have hend : EndsWord (sep ++ (sep.intercalate (q :: pieces) ++ rest)) := by
        cases sep with
        | nil => exact absurd rfl hne
        | cons c sep => simpa [EndsWord] using hsep
      rw [List.intercalate_cons_cons, List.intercalate_cons_cons, List.append_assoc,
        List.append_assoc, hp _ hend, hread, ih rest hrest]
      simp only [List.append_assoc]

lemma intercalate_nil_left (ts : List (List Terminal)) : [].intercalate ts = ts.flatten := by
  induction ts with
  | nil => rfl
  | cons t ts ih =>
    cases ts with
    | nil => simp
    | cons u ts =>
      rw [List.intercalate_cons_cons, ih, List.append_nil]
      rfl

/-- Spaces leave no token between the pieces. -/
lemma Spells.spaced {pieces : List (List Char)} {ts : List (List Terminal)}
    (h : List.Forall₂ Spells pieces ts) : Spells ([' '].intercalate pieces) ts.flatten := by
  rw [← intercalate_nil_left]
  exact Spells.intercalate (endsWord_cons (by decide) []) (fun rest => by simp) (by simp) h

lemma Spells.listed {pieces : List (List Char)} {ts : List (List Terminal)}
    (h : List.Forall₂ Spells pieces ts) :
    Spells ([',', ' '].intercalate pieces) ([Terminal.of .comma].intercalate ts) :=
  Spells.intercalate (endsWord_cons (by decide) _) (fun rest => by simp) (by simp) h

lemma spells_name {name : String} (h : isName name = true) :
    Spells name.toList [⟨.ident, name⟩] := by
  obtain ⟨c, cs, hname, hc, hcs, hk⟩ := isName_iff.mp h
  intro rest hrest
  have hof : String.ofList (c :: cs) = name := by rw [← hname, String.ofList_toList]
  rw [hname, terminals_word hc hcs hrest, hof, Token.Kind.ofWord_eq_ident hk]
  rfl

/-- Keywords are spelled by letters only, so they are read as words. -/
lemma spells_keyword {k : Token.Kind} (hk : k.spelling ∈ keywords) :
    Spells k.spelling.toList [.of k] := by
  intro rest hrest
  cases k <;> first
    | exact absurd hk (by decide)
    | exact terminals_word (by decide) (List.all_eq_true.mp (by decide)) hrest

lemma UnaryOp.terminals_symbol (op : UnaryOp) {rest : List Char} (h : rest.head? ≠ some '=') :
    terminals (op.symbol.toList ++ rest) = .of op.kind :: terminals rest := by
  cases op with
  | not =>
    have hpair : rest.head?.bind (Lexeme.pair? '!') = none := by
      cases rest with
      | nil => rfl
      | cons c rest =>
        have hc : c ≠ '=' := by simpa using h
        simp [Lexeme.pair?, hc]
    change terminals ('!' :: rest) = _
    rw [terminals_cons (by decide), Lexeme.read_symbol rfl hpair]
    rfl
  | negate => exact Monkey.terminals_symbol rfl (fun _ => rfl) rest

lemma BinaryOp.terminals_symbol (op : BinaryOp) (rest : List Char) :
    terminals (op.symbol.toList ++ rest) = .of op.kind :: terminals rest := by
  cases op <;> first
    | exact terminals_pair rfl (by decide) rest
    | exact Monkey.terminals_symbol rfl (fun _ => rfl) rest

lemma toList_toString_of_nonneg {i : Int} (h : 0 ≤ i) :
    (toString i).toList = Nat.toDigits 10 i.toNat := by
  obtain ⟨n, rfl⟩ := Int.eq_ofNat_of_zero_le h
  exact Nat.toList_repr

lemma spells_int {i : Int} (h : 0 ≤ i) : Spells (toString i).toList [⟨.int, toString i⟩] := by
  intro rest hrest
  have hdigit : ∀ d ∈ (toString i).toList, d.isDigit = true := by
    intro d hd
    rw [toList_toString_of_nonneg h] at hd
    exact Nat.isDigit_of_mem_toDigits (by decide) (by decide) hd
  cases ht : (toString i).toList with
  | nil =>
    rw [toList_toString_of_nonneg h] at ht
    exact absurd ht Nat.toDigits_ne_nil
  | cons c cs =>
    rw [ht] at hdigit
    have hof : String.ofList (c :: cs) = toString i := by rw [← ht, String.ofList_toList]
    rw [terminals_number (hdigit c (by simp)) (fun d hd => hdigit d (by simp [hd])) hrest, hof]
    rfl

lemma head?_ne_of_isWordPart {c : Char} (h : Lexeme.isWordPart c = true) : c ≠ '=' := by
  rintro rfl
  revert h
  decide

/-- No expression starts with an equals sign, so the sign before one stays apart from it. -/
lemma Expr.exists_render_eq_cons (style : Style) (e : Expr) (h : e.isWellFormed = true) :
    ∃ c cs, (e.render style).toList = c :: cs ∧ c ≠ '=' := by
  match e, h with
  | .ident name, h =>
    obtain ⟨c, cs, hname, hc, -⟩ := isName_iff.mp h
    exact ⟨c, cs, hname, head?_ne_of_isWordPart (Lexeme.isWordPart_of_isWordStart hc)⟩
  | .int value, h =>
    have hnonneg : 0 ≤ value.toInt := by simpa [Expr.isWellFormed] using h
    have htext := toList_toString_of_nonneg hnonneg
    cases hd : Nat.toDigits 10 value.toInt.toNat with
    | nil => exact absurd hd Nat.toDigits_ne_nil
    | cons c cs =>
      have hc : c.isDigit = true :=
        Nat.isDigit_of_mem_toDigits (by decide) (by decide) (hd ▸ List.mem_cons_self)
      exact ⟨c, cs, htext.trans hd, head?_ne_of_isWordPart (Lexeme.isWordPart_of_isDigit hc)⟩
  | .str value, _ => exact ⟨_, _, String.toList_ofList, by decide⟩
  | .bool true, _ => exact ⟨'t', ['r', 'u', 'e'], by simp only [render]; rfl, by decide⟩
  | .bool false, _ => exact ⟨'f', ['a', 'l', 's', 'e'], by simp only [render]; rfl, by decide⟩
  | .unary op operand, _ =>
    exact ⟨'(', _, by simp only [render, String.toList_append]; rfl, by decide⟩
  | .binary op left right, _ =>
    exact ⟨'(', _, by simp only [render, String.toList_append]; rfl, by decide⟩
  | .cond test yes no, _ =>
    exact ⟨'i', _, by simp only [render, String.toList_append]; rfl, by decide⟩
  | .function params body, _ =>
    exact ⟨'f', _, by simp only [render, String.toList_append]; rfl, by decide⟩
  | .call callee args, h =>
    rw [Expr.isWellFormed, Bool.and_eq_true] at h
    obtain ⟨c, cs, hcallee, hc⟩ := exists_render_eq_cons style callee h.1
    exact ⟨c, _, by simp only [render, String.toList_append, hcallee]; rfl, hc⟩

/-- Statements in braces, each spelled by its own piece. -/
lemma spells_braced {pieces : List String} {ts : List (List Terminal)}
    (h : List.Forall₂ (fun p t => Spells p.toList t) pieces ts) :
    Spells (braced pieces).toList (.of .lbrace :: (ts.flatten ++ [.of .rbrace])) := by
  intro rest hrest
  cases h with
  | nil => simp [braced]
  | @cons p t pieces ts hp htail =>
    have hpieces : List.Forall₂ Spells ((p :: pieces).map String.toList) (t :: ts) := by
      rw [List.forall₂_map_left_iff]
      exact .cons hp htail
    have htext : (braced (p :: pieces)).toList ++ rest =
        '\x7b' :: ' ' :: ([' '].intercalate ((p :: pieces).map String.toList) ++
          ' ' :: '\x7d' :: rest) := by
      simp only [braced, String.toList_append, String.toList_intercalate, List.append_assoc]
      rfl
    rw [htext, terminals_lbrace, terminals_space,
      Spells.spaced hpieces _ (endsWord_cons (by decide) _)]
    simp

lemma spells_names {names : List String} (h : names.all isName = true) :
    Spells (", ".intercalate names).toList (nameTerminals names) := by
  have hnames : List.Forall₂ Spells (names.map String.toList)
      (names.map fun name => [(⟨.ident, name⟩ : Terminal)]) := by
    rw [List.forall₂_map_left_iff, List.forall₂_map_right_iff, List.forall₂_same]
    exact fun name hname => spells_name (List.all_eq_true.mp h name hname)
  rw [String.toList_intercalate]
  exact Spells.listed hnames

lemma flatten_map_terminals (style : Style) (body : List Stmt) :
    (body.map (·.terminals style)).flatten = blockTerminals style body := by
  induction body with
  | nil => rfl
  | cons s rest ih => simp [blockTerminals, ih]

mutual

theorem Expr.spells_render (style : Style) : ∀ e : Expr, e.isWellFormed = true →
    Spells (e.render style).toList (e.terminals style)
  | .ident name, h => spells_name h
  | .int value, h => spells_int (by simpa [Expr.isWellFormed] using h)
  | .str value, _ => by
    intro rest _
    exact terminals_quoted value rest
  | .bool true, _ => spells_keyword (k := .kwTrue) (by decide)
  | .bool false, _ => spells_keyword (k := .kwFalse) (by decide)
  | .unary op operand, h => by
    intro rest hrest
    obtain ⟨c, cs, htext, hc⟩ := operand.exists_render_eq_cons style h
    have hhead : ((operand.render style).toList ++ ')' :: rest).head? ≠ some '=' := by
      simpa [htext] using hc
    have hoperand := operand.spells_render style h _ (endsWord_cons (c := ')') (by decide) rest)
    have heq : (Expr.render style (.unary op operand)).toList ++ rest =
        '(' :: (op.symbol.toList ++ ((operand.render style).toList ++ ')' :: rest)) := by
      simp [Expr.render]
    rw [heq, terminals_lparen, op.terminals_symbol hhead, hoperand, terminals_rparen]
    simp [Expr.terminals]
  | .binary op left right, h => by
    rw [Expr.isWellFormed, Bool.and_eq_true] at h
    intro rest hrest
    have hright := right.spells_render style h.2 _ (endsWord_cons (c := ')') (by decide) rest)
    have hend : EndsWord (op.symbol.toList ++ ((right.render style).toList ++ ')' :: rest)) := by
      cases op <;> exact endsWord_cons (by decide) _
    have heq : (Expr.render style (.binary op left right)).toList ++ rest =
        '(' :: ((left.render style).toList ++
          (op.symbol.toList ++ ((right.render style).toList ++ ')' :: rest))) := by
      simp [Expr.render]
    rw [heq, terminals_lparen, left.spells_render style h.1 _ hend, op.terminals_symbol, hright,
      terminals_rparen]
    simp [Expr.terminals]
  | .cond test yes no, h => by
    rw [Expr.isWellFormed, Bool.and_eq_true, Bool.and_eq_true] at h
    obtain ⟨⟨htest, hyes⟩, hno⟩ := h
    intro rest hrest
    have heq : (Expr.render style (.cond test yes no)).toList ++ rest =
        (Token.Kind.spelling .kwIf).toList ++ ' ' :: '(' :: ((test.render style).toList ++
          ')' :: ' ' :: ((braced (renderEach style yes)).toList ++
            ((renderElse style no).toList ++ rest))) := by
      simp [Expr.render, Token.Kind.spelling]
    have helse : EndsWord (renderElse style no).toList := by
      cases no with
      | none => simp [renderElse]
      | some body =>
        rw [renderElse, String.toList_append]
        exact endsWord_cons (c := ' ') (by decide) _
    rw [heq, spells_keyword (k := .kwIf) (by decide) _ (endsWord_cons (by decide) _),
      terminals_space, terminals_lparen,
      test.spells_render style htest _ (endsWord_cons (by decide) _), terminals_rparen,
      terminals_space,
      spells_braced (spells_renderEach style yes hyes) _ (endsWord_append helse hrest),
      spells_renderElse style no hno _ hrest, flatten_map_terminals]
    simp [Expr.terminals]
  | .function params body, h => by
    rw [Expr.isWellFormed, Bool.and_eq_true] at h
    intro rest hrest
    have heq : (Expr.render style (.function params body)).toList ++ rest =
        (Token.Kind.spelling .kwFn).toList ++ '(' :: ((", ".intercalate params).toList ++
          ')' :: ' ' :: ((braced (renderEach style body)).toList ++ rest)) := by
      simp [Expr.render, Token.Kind.spelling]
    rw [heq, spells_keyword (k := .kwFn) (by decide) _ (endsWord_cons (by decide) _),
      terminals_lparen, spells_names h.1 _ (endsWord_cons (by decide) _), terminals_rparen,
      terminals_space, spells_braced (spells_renderEach style body h.2) _ hrest,
      flatten_map_terminals]
    simp [Expr.terminals]
  | .call callee args, h => by
    rw [Expr.isWellFormed, Bool.and_eq_true] at h
    intro rest hrest
    have heq : (Expr.render style (.call callee args)).toList ++ rest =
        (callee.render style).toList ++ '(' ::
          ([',', ' '].intercalate ((renderArgs style args).map String.toList) ++ ')' :: rest) := by
      simp only [Expr.render, String.toList_append, String.toList_intercalate, List.append_assoc]
      rfl
    have hargs := Spells.listed (spells_renderArgs style args h.2)
    rw [heq, callee.spells_render style h.1 _ (endsWord_cons (by decide) _), terminals_lparen,
      hargs _ (endsWord_cons (by decide) _), terminals_rparen]
    simp [Expr.terminals]

theorem Stmt.spells_render (style : Style) : ∀ s : Stmt, s.isWellFormed = true →
    Spells (s.render style).toList (s.terminals style)
  | .define name value, h => by
    rw [Stmt.isWellFormed, Bool.and_eq_true] at h
    intro rest hrest
    have heq : (Stmt.render style (.define name value)).toList ++ rest =
        (Token.Kind.spelling .kwLet).toList ++ ' ' :: (name.toList ++ ' ' :: '=' :: ' ' ::
          ((value.render style).toList ++ ';' :: rest)) := by
      simp [Stmt.render, Token.Kind.spelling]
    have hassign : ∀ tail, terminals ('=' :: ' ' :: tail) = .of .assign :: terminals tail := by
      intro tail
      rw [terminals_cons (by decide), Lexeme.read_symbol rfl (by rfl)]
      exact congrArg _ (terminals_space tail)
    rw [heq, spells_keyword (k := .kwLet) (by decide) _ (endsWord_cons (by decide) _),
      terminals_space, spells_name h.1 _ (endsWord_cons (by decide) _), terminals_space, hassign,
      value.spells_render style h.2 _ (endsWord_cons (by decide) _), terminals_semicolon]
    simp [Stmt.terminals]
  | .ret value, h => by
    intro rest hrest
    have heq : (Stmt.render style (.ret value)).toList ++ rest =
        (Token.Kind.spelling .kwReturn).toList ++ ' ' ::
          ((value.render style).toList ++ ';' :: rest) := by
      simp [Stmt.render, Token.Kind.spelling]
    rw [heq, spells_keyword (k := .kwReturn) (by decide) _ (endsWord_cons (by decide) _),
      terminals_space, value.spells_render style h _ (endsWord_cons (by decide) _),
      terminals_semicolon]
    simp [Stmt.terminals]
  | .expr value, h => by
    have hvalue := value.spells_render style h
    cases style with
    | compact =>
      simpa [Stmt.render, Stmt.terminals, Style.terminator, Style.terminators] using hvalue
    | canonical =>
      intro rest hrest
      have := hvalue _ (endsWord_cons (c := ';') (by decide) rest)
      simpa [Stmt.render, Stmt.terminals, Style.terminator, Style.terminators] using this

theorem spells_renderEach (style : Style) : ∀ body : List Stmt, areWellFormed body = true →
    List.Forall₂ (fun p t => Spells p.toList t) (renderEach style body)
      (body.map (·.terminals style))
  | [], _ => .nil
  | s :: rest, h => by
    rw [areWellFormed, Bool.and_eq_true] at h
    exact .cons (s.spells_render style h.1) (spells_renderEach style rest h.2)

theorem spells_renderArgs (style : Style) : ∀ args : List Expr, areWellFormedArgs args = true →
    List.Forall₂ Spells ((renderArgs style args).map String.toList) (argTerminals style args)
  | [], _ => .nil
  | e :: rest, h => by
    rw [areWellFormedArgs, Bool.and_eq_true] at h
    exact .cons (e.spells_render style h.1) (spells_renderArgs style rest h.2)

theorem spells_renderElse (style : Style) : ∀ no : Option (List Stmt), isWellFormedElse no = true →
    Spells (renderElse style no).toList (elseTerminals style no)
  | none, _ => by
    intro rest _
    simp [renderElse, elseTerminals]
  | some body, h => by
    intro rest hrest
    have heq : (renderElse style (some body)).toList ++ rest =
        ' ' :: ((Token.Kind.spelling .kwElse).toList ++ ' ' ::
          ((braced (renderEach style body)).toList ++ rest)) := by
      simp [renderElse, Token.Kind.spelling]
    rw [heq, terminals_space, spells_keyword (k := .kwElse) (by decide) _
      (endsWord_cons (by decide) _), terminals_space,
      spells_braced (spells_renderEach style body h) _ hrest, flatten_map_terminals]
    simp [elseTerminals]

end

/-- The canonical text of a well-formed program has the tokens of the program. -/
theorem terminals_render_canonical (p : Program) (h : areWellFormed p = true) :
    terminals (p.render .canonical).toList = blockTerminals .canonical p := by
  have hpieces := spells_renderEach .canonical p h
  rw [← List.forall₂_map_left_iff (f := String.toList) (R := Spells)] at hpieces
  have := Spells.spaced hpieces [] endsWord_nil
  simp only [List.append_nil, terminals_nil, flatten_map_terminals] at this
  rw [Program.render, String.toList_intercalate]
  exact this

end Monkey
