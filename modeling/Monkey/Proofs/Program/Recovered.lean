import Monkey.Proofs.Program.Forward
import Monkey.Proofs.Program.RoundTrip
import Monkey.Proofs.Token.Layout

/-! What is read of a text with errors is still a program that can be written down. Whatever part
of the parser gives a tree, it is well-formed, for all names in it are the literals of name tokens;
so the canonical form of what could be read is read without errors. -/
namespace Monkey

/-- If the token is taken for a name, its literal is one. -/
def Token.IsSpelled (t : Token) : Prop := t.kind = .ident → isName t.literal = true

/-- Names lie ahead wherever name tokens do. -/
structure TokenStream.Spelled (s : TokenStream) : Prop where
  tokens : ∀ t ∈ s.tokens, t.IsSpelled
  eof : s.eof.IsSpelled

namespace TokenStream.Spelled

variable {s : TokenStream}

lemma current (h : s.Spelled) : s.current.IsSpelled := by
  rw [TokenStream.current]
  cases hs : s.tokens with
  | nil => exact h.eof
  | cons t ts => exact h.tokens t (by simp [hs])

lemma advance (h : s.Spelled) : s.advance.Spelled :=
  ⟨fun t ht => h.tokens t (List.mem_of_mem_tail ht), h.eof⟩

end TokenStream.Spelled

lemma spelled_ofSource (source : String) : (TokenStream.ofSource source).Spelled := by
  refine ⟨fun t ht hkind => ?_, nofun⟩
  obtain ⟨e, -, hreads⟩ := (Cursor.ofSource source).layout.exists_excerpt ⟨[], rfl, rfl⟩ ht
  have hfits : isName (String.ofList e.text) = true := (hreads.kind_eq_iff .ident nofun).mp hkind
  rwa [hreads.literal_eq (by rw [hkind]; nofun)]

/-- A name is a text that is read as a single token, which is a name. -/
lemma isName_iff_terminals {name : String} :
    isName name = true ↔ terminals name.toList = [⟨.ident, name⟩] := by
  constructor
  · intro h
    simpa using spells_name h [] endsWord_nil
  · intro h
    have hmem : (⟨.ident, name⟩ : Terminal) ∈ terminals name.toList := by simp [h]
    obtain ⟨t, ht, hterminal⟩ := List.mem_map.mp hmem
    rw [Token.terminal, Terminal.mk.injEq] at hterminal
    exact hterminal.2 ▸ (spelled_ofSource name).tokens t ht hterminal.1

namespace Parser

lemma State.Moves.spelled {s t : State} (h : s.Moves t) (hs : s.stream.Spelled) :
    t.stream.Spelled :=
  ⟨fun tok htok => hs.tokens tok (h.tokens.subset htok), h.eof ▸ hs.eof⟩

/-- From where names are spelled, the parser comes to where they are spelled, and what it gives is
as `P` says. -/
def Yields {α : Type} (P : α → Prop) (p : Parser α) : Prop :=
  ∀ s : State, s.stream.Spelled →
    (final (p s)).stream.Spelled ∧ ∀ a t, p s = .ok a t → P a

namespace Yields

variable {α β : Type} {P : α → Prop} {Q : β → Prop}

/-- Where the parser comes to is known of every part of it, and only its value is left. -/
lemma of_forward {p : Parser α} (hp : Forward p)
    (h : ∀ s : State, s.stream.Spelled → ∀ a t, p s = .ok a t → P a) : Yields P p :=
  fun s hs => ⟨(hp s).spelled hs, h s hs⟩

lemma any {p : Parser α} (hp : Forward p) : Yields (fun _ => True) p :=
  of_forward hp fun _ _ _ _ _ => trivial

lemma pure {a : α} (h : P a) : Yields P (Pure.pure a : Parser α) :=
  of_forward (.pure a) fun _ _ _ _ hp => (pure_eq_ok.mp hp).1 ▸ h

lemma throw (e : ParseError) : Yields P (MonadExcept.throw e : Parser α) :=
  of_forward (.throw e) fun _ _ _ _ hp => absurd hp throw_ne_ok

lemma bind {p : Parser α} {f : α → Parser β} (hp : Yields P p) (hf : ∀ a, P a → Yields Q (f a)) :
    Yields Q (p >>= f) := by
  intro s hs
  obtain ⟨hfinal, hvalue⟩ := hp s hs
  change (final (EStateM.bind p f s)).stream.Spelled ∧ ∀ b t, EStateM.bind p f s = .ok b t → Q b
  rw [EStateM.bind]
  cases hps : p s with
  | ok a t =>
    rw [hps] at hfinal
    exact hf a (hvalue a t hps) t hfinal
  | error e t =>
    rw [hps] at hfinal
    exact ⟨hfinal, nofun⟩

/-- What comes first matters for where it leads only. -/
lemma next {p : Parser α} {f : α → Parser β} (hp : Forward p) (hf : ∀ a, Yields Q (f a)) :
    Yields Q (p >>= f) := bind (any hp) fun a _ => hf a

lemma ite {c : Prop} [Decidable c] {p q : Parser α} (hp : Yields P p) (hq : Yields P q) :
    Yields P (if c then p else q) := by
  split
  · exact hp
  · exact hq

lemma current : Yields Token.IsSpelled current :=
  of_forward .current fun _ hs _ _ h => (pure_eq_ok.mp h).1 ▸ hs.current

lemma noOperand : Yields P (noOperand : Parser α) := next .current fun _ => throw _

lemma expectName : Yields (fun name => isName name = true) expectName := by
  refine of_forward .expectName fun s hs name t h => ?_
  obtain ⟨hkind, rfl, -⟩ := expectName_eq_ok.mp h
  exact hs.advance.current hkind

lemma moreNames (n : Nat) : Yields (fun names => names.all isName = true) (moreNames n) := by
  induction n with
  | zero => exact pure rfl
  | succ n ih =>
    refine next .peek fun _ => ite (next .advance fun _ => ?_) (pure rfl)
    refine bind expectName fun name hname => bind ih fun names hnames => pure ?_
    simp [hname, hnames]

lemma params (n : Nat) : Yields (fun names => names.all isName = true) (params n) := by
  refine next .peek fun _ => ite (next .advance fun _ => pure rfl) ?_
  refine bind expectName fun name hname => bind (moreNames n) fun names hnames => ?_
  refine next (.expect _) fun _ => pure ?_
  simp [hname, hnames]

lemma intLiteral (t : Token) : Yields (fun e => e.isWellFormed = true) (intLiteral t) := by
  unfold Parser.intLiteral
  dsimp only
  split
  · next h =>
    refine pure (decide_eq_true ?_)
    rw [Int64.toInt_ofNat_of_lt h]
    exact Int.natCast_nonneg _
  · exact throw _

section
variable {expr : Precedence → Parser Expr}
  (hexpr : ∀ min, Yields (fun e => e.isWellFormed = true) (expr min))
include hexpr

lemma statement : Yields (fun stmt => stmt.isWellFormed = true) (statement expr) := by
  refine next .current fun t => ?_
  split
  · refine bind expectName fun name hname => next (.expect _) fun _ => next .advance fun _ => ?_
    refine bind (hexpr _) fun value hvalue => next (.skip _) fun _ => pure ?_
    simp [Stmt.isWellFormed, hname, hvalue]
  · refine next .advance fun _ => bind (hexpr _) fun value hvalue => next (.skip _) fun _ => ?_
    exact pure hvalue
  · exact bind (hexpr _) fun value hvalue => next (.skip _) fun _ => pure hvalue

lemma statements (n : Nat) : Yields (fun body => areWellFormed body = true)
    (statements expr n) := by
  induction n with
  | zero => exact pure rfl
  | succ n ih =>
    refine next .current fun _ => ite (pure rfl) ?_
    refine bind (statement hexpr) fun stmt hstmt => next .advance fun _ => ?_
    refine bind ih fun body hbody => pure ?_
    simp [areWellFormed, hstmt, hbody]

lemma block (n : Nat) : Yields (fun body => areWellFormed body = true) (block expr n) :=
  next .advance fun _ => statements hexpr n

lemma moreArgs (n : Nat) : Yields (fun list => areWellFormedArgs list = true)
    (moreArgs expr n) := by
  induction n with
  | zero => exact pure rfl
  | succ n ih =>
    refine next .peek fun _ => ite (next .advance fun _ => next .advance fun _ => ?_) (pure rfl)
    refine bind (hexpr _) fun arg harg => bind ih fun list hlist => pure ?_
    simp [areWellFormedArgs, harg, hlist]

lemma args (n : Nat) : Yields (fun list => areWellFormedArgs list = true) (args expr n) := by
  refine next .peek fun _ => ite (next .advance fun _ => pure rfl) (next .advance fun _ => ?_)
  refine bind (hexpr _) fun arg harg => bind (moreArgs hexpr n) fun list hlist => ?_
  refine next (.expect _) fun _ => pure ?_
  simp [areWellFormedArgs, harg, hlist]

/-- Arguments that cannot be read are given up, and no argument is well-formed. -/
lemma argsOrNone (n : Nat) : Yields (fun list => areWellFormedArgs list = true)
    (argsOrNone expr n) := by
  intro s hs
  obtain ⟨hfinal, hvalue⟩ := args hexpr n s hs
  constructor
  · change (final (EStateM.tryCatch (Parser.args expr n) _ s)).stream.Spelled
    rw [EStateM.tryCatch]
    cases hargs : Parser.args expr n s <;> rwa [hargs] at hfinal
  · intro list t h
    rcases argsOrNone_eq_ok.mp h with h | ⟨e, u, -, rfl, -⟩
    · exact hvalue list t h
    · rfl

lemma grouped : Yields (fun e => e.isWellFormed = true) (grouped expr) :=
  next .advance fun _ => bind (hexpr _) fun _ h => next (.expect _) fun _ => pure h

lemma branch (n : Nat) : Yields (fun no => isWellFormedElse no = true) (branch expr n) := by
  refine next .peek fun _ => ite (next .advance fun _ => ?_) (pure rfl)
  exact next (.expect _) fun _ => bind (block hexpr n) fun _ hbody => pure hbody

lemma conditional (n : Nat) : Yields (fun e => e.isWellFormed = true) (conditional expr n) := by
  refine next (.expect _) fun _ => next .advance fun _ => bind (hexpr _) fun test htest => ?_
  refine next (.expect _) fun _ => next (.expect _) fun _ => bind (block hexpr n) fun yes hyes => ?_
  refine bind (branch hexpr n) fun no hno => pure ?_
  simp [Expr.isWellFormed, htest, hyes, hno]

lemma function (n : Nat) : Yields (fun e => e.isWellFormed = true) (function expr n) := by
  refine next (.expect _) fun _ => bind (params n) fun names hnames => ?_
  refine next (.expect _) fun _ => bind (block hexpr n) fun body hbody => pure ?_
  rw [Expr.isWellFormed, hnames, hbody]
  rfl

lemma operand (n : Nat) : Yields (fun e => e.isWellFormed = true) (operand expr n) := by
  refine bind current fun t ht => ?_
  split
  · exact next .advance fun _ => bind (hexpr _) fun _ h => pure h
  · split
    · next hkind => exact pure (ht hkind)
    · exact intLiteral t
    · exact pure rfl
    · exact pure rfl
    · exact pure rfl
    · exact grouped hexpr
    · exact conditional hexpr n
    · exact function hexpr n
    · exact noOperand

lemma extend (min : Precedence) (n : Nat) {left : Expr} (hleft : left.isWellFormed = true) :
    Yields (fun e => e.isWellFormed = true) (extend expr min n left) := by
  induction n generalizing left with
  | zero => exact pure hleft
  | succ n ih =>
    refine next .peek fun t => ite (ite (next .advance fun _ => ?_) ?_) (pure hleft)
    · refine bind (argsOrNone hexpr n) fun list hlist => ih ?_
      simp [Expr.isWellFormed, hleft, hlist]
    · split
      · refine next .advance fun _ => next .advance fun _ => ?_
        refine bind (hexpr _) fun right hright => ih ?_
        simp [Expr.isWellFormed, hleft, hright]
      · exact pure hleft

end

theorem expression (n : Nat) (min : Precedence) :
    Yields (fun e => e.isWellFormed = true) (expression n min) := by
  induction n generalizing min with
  | zero => exact noOperand
  | succ n ih => exact bind (operand ih n) fun _ h => extend ih min n h

end Yields

/-- What is read of a whole input is well-formed, whatever is dropped on the way. -/
theorem areWellFormed_programUpTo (n : Nat) {s : State} (hs : s.stream.Spelled) :
    areWellFormed (programUpTo n s).1 = true := by
  induction n generalizing s with
  | zero => rfl
  | succ n ih =>
    rw [programUpTo]
    split
    · rfl
    · obtain ⟨hfinal, hvalue⟩ := Yields.statement (Yields.expression (n + 1)) s hs
      split
      · next stmt t hstmt =>
        rw [hstmt] at hfinal
        simp [areWellFormed, hvalue stmt t hstmt, ih (s := t.advance) hfinal.advance]
      · next e t hstmt =>
        rw [hstmt] at hfinal
        exact ih (s := (t.record e).advance) hfinal.advance

end Parser

/-- With or without errors, what is read of a source is well-formed, where a name is a text that is
read as one name token; and its canonical form is read back with no errors. -/
theorem parse_render_recovered (source : String) :
    areWellFormed (parse source).program = true ∧
      (∀ name, isName name = true ↔ terminals name.toList = [⟨.ident, name⟩]) ∧
      parse ((parse source).program.render .canonical) = ⟨(parse source).program, []⟩ := by
  have hformed : areWellFormed (parse source).program = true :=
    Parser.areWellFormed_programUpTo _ (s := .ofStream _) (spelled_ofSource source)
  exact ⟨hformed, fun _ => isName_iff_terminals,
    parse_of_terminals hformed (terminals_render_canonical _ hformed)⟩

end Monkey
