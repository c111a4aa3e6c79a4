import Mathlib.Tactic.Common
import Monkey.Proofs.Program.Success

/-! The parser only ever moves forward: whether it succeeds or fails, the tokens left are the last
ones of those before, and errors already recorded stay. What holds of its single steps holds of
every run. -/
namespace Monkey
namespace Parser

structure State.Moves (s t : State) : Prop where
  eof : t.stream.eof = s.stream.eof
  tokens : t.stream.tokens <:+ s.stream.tokens
  errors : s.errors <+: t.errors

namespace State.Moves

variable {s t r : State}

lemma refl (s : State) : s.Moves s := ⟨rfl, List.suffix_refl _, List.prefix_refl _⟩

lemma trans (h : s.Moves t) (h' : t.Moves r) : s.Moves r :=
  ⟨h'.eof.trans h.eof, h'.tokens.trans h.tokens, h.errors.trans h'.errors⟩

lemma advance (s : State) : s.Moves s.advance := ⟨rfl, List.tail_suffix _, List.prefix_refl _⟩

lemma record (s : State) (e : ParseError) : s.Moves (s.record e) :=
  ⟨rfl, List.suffix_refl _, List.prefix_append _ _⟩

lemma length (h : s.Moves t) : t.stream.tokens.length ≤ s.stream.tokens.length :=
  h.tokens.length_le

lemma clean (h : s.Moves t) (ht : t.errors = []) : s.errors = [] :=
  List.prefix_nil.mp (ht ▸ h.errors)

end State.Moves

/-- Where a run of the parser ends. -/
def final {α : Type} : EStateM.Result ParseError State α → State
  | .ok _ s => s
  | .error _ s => s

/-- What all that the parser does keeps to: it moves to the next token, and it records the error
where the arguments of a call, behind their opening parenthesis, cannot be read. -/
class StepRel (rel : State → State → Prop) : Prop where
  refl : ∀ s, rel s s
  trans : ∀ {s t r}, rel s t → rel t r → rel s r
  advance : ∀ s, rel s s.advance
  giveUp : ∀ {s t} (e : ParseError), s.stream.peek.kind = .lparen → rel s.advance t →
    rel s (t.record e)

/-- Every run of the parser keeps to the relation. -/
def Along {α : Type} (rel : State → State → Prop) (p : Parser α) : Prop := ∀ s, rel s (final (p s))

namespace Along

variable {α β : Type} {rel : State → State → Prop} [StepRel rel] {s t : State}

omit [StepRel rel] in
lemma of_ok {p : Parser α} (h : Along rel p) {a : α} (hp : p s = .ok a t) : rel s t := by
  have := h s
  rwa [hp] at this

omit [StepRel rel] in
lemma of_error {p : Parser α} (h : Along rel p) {e : ParseError} (hp : p s = .error e t) :
    rel s t := by
  have := h s
  rwa [hp] at this

lemma pure (a : α) : Along rel (Pure.pure a : Parser α) := StepRel.refl

lemma throw (e : ParseError) : Along rel (MonadExcept.throw e : Parser α) := StepRel.refl

lemma bind_of_rel {r : State} {p : Parser α} {f : α → Parser β} (hp : rel r (final (p s)))
    (hf : ∀ a, Along rel (f a)) : rel r (final ((p >>= f) s)) := by
  change rel r (final (EStateM.bind p f s))
  rw [EStateM.bind]
  cases hps : p s with
  | ok a t =>
    rw [hps] at hp
    exact StepRel.trans hp (hf a t)
  | error e t =>
    rw [hps] at hp
    exact hp

lemma bind {p : Parser α} {f : α → Parser β} (hp : Along rel p) (hf : ∀ a, Along rel (f a)) :
    Along rel (p >>= f) := fun s => bind_of_rel (hp s) hf

omit [StepRel rel] in
lemma ite {c : Prop} [Decidable c] {p q : Parser α} (hp : Along rel p) (hq : Along rel q) :
    Along rel (if c then p else q) := by
  split
  · exact hp
  · exact hq

lemma current : Along rel current := StepRel.refl

lemma peek : Along rel peek := StepRel.refl

lemma advance : Along rel advance := StepRel.advance

lemma noOperand : Along rel (noOperand : Parser α) := bind current fun _ => throw _

lemma expect (k : Token.Kind) : Along rel (expect k) := bind peek fun _ => ite advance (throw _)

lemma skip (k : Token.Kind) : Along rel (skip k) := bind peek fun _ => ite advance (pure ())

lemma expectName : Along rel expectName := bind (expect _) fun _ => bind current fun _ => pure _

lemma moreNames (n : Nat) : Along rel (moreNames n) := by
  induction n with
  | zero => exact pure []
  | succ n ih =>
    refine bind peek fun _ => ite ?_ (pure [])
    exact bind advance fun _ => bind expectName fun _ => bind ih fun _ => pure _

lemma params (n : Nat) : Along rel (params n) := by
  refine bind peek fun _ => ite (bind advance fun _ => pure []) ?_
  exact bind expectName fun _ => bind (moreNames n) fun _ => bind (expect _) fun _ => pure _

lemma intLiteral (t : Token) : Along rel (intLiteral t) := ite (pure _) (throw _)

section
variable {expr : Precedence → Parser Expr} (hexpr : ∀ min, Along rel (expr min))
include hexpr

lemma statement : Along rel (statement expr) := by
  refine bind current fun t => ?_
  split
  · exact bind expectName fun _ => bind (expect _) fun _ => bind advance fun _ =>
      bind (hexpr _) fun _ => bind (skip _) fun _ => pure _
  · exact bind advance fun _ => bind (hexpr _) fun _ => bind (skip _) fun _ => pure _
  · exact bind (hexpr _) fun _ => bind (skip _) fun _ => pure _

lemma statements (n : Nat) : Along rel (statements expr n) := by
  induction n with
  | zero => exact pure []
  | succ n ih =>
    refine bind current fun _ => ite (pure []) ?_
    exact bind (statement hexpr) fun _ => bind advance fun _ => bind ih fun _ => pure _

lemma block (n : Nat) : Along rel (block expr n) := bind advance fun _ => statements hexpr n

lemma moreArgs (n : Nat) : Along rel (moreArgs expr n) := by
  induction n with
  | zero => exact pure []
  | succ n ih =>
    refine bind peek fun _ => ite ?_ (pure [])
    refine bind advance fun _ => bind advance fun _ => bind (hexpr _) fun _ => ?_
    exact bind ih fun _ => pure _

lemma args (n : Nat) : Along rel (args expr n) := by
  refine bind peek fun _ => ite (bind advance fun _ => pure []) ?_
  exact bind advance fun _ => bind (hexpr _) fun _ => bind (moreArgs hexpr n) fun _ =>
    bind (expect _) fun _ => pure _

/-- Arguments are read, or given up, behind an opening parenthesis. -/
lemma argsOrNone_of_lparen (hs : s.stream.peek.kind = .lparen) (n : Nat) :
    rel s (final (argsOrNone expr n s.advance)) := by
  have hargs := args hexpr n s.advance
  change rel s (final (EStateM.tryCatch (Parser.args expr n) _ s.advance))
  rw [EStateM.tryCatch]
  cases h : Parser.args expr n s.advance with
  | ok list t =>
    rw [h] at hargs
    exact StepRel.trans (StepRel.advance s) hargs
  | error e t =>
    rw [h] at hargs
    exact StepRel.giveUp e hs hargs

lemma grouped : Along rel (grouped expr) :=
  bind advance fun _ => bind (hexpr _) fun _ => bind (expect _) fun _ => pure _

lemma branch (n : Nat) : Along rel (branch expr n) := by
  refine bind peek fun _ => ite ?_ (pure none)
  exact bind advance fun _ => bind (expect _) fun _ => bind (block hexpr n) fun _ => pure _

lemma conditional (n : Nat) : Along rel (conditional expr n) :=
  bind (expect _) fun _ => bind advance fun _ => bind (hexpr _) fun _ => bind (expect _) fun _ =>
    bind (expect _) fun _ => bind (block hexpr n) fun _ => bind (branch hexpr n) fun _ => pure _

lemma function (n : Nat) : Along rel (function expr n) :=
  bind (expect _) fun _ => bind (params n) fun _ => bind (expect _) fun _ =>
    bind (block hexpr n) fun _ => pure _

lemma operand (n : Nat) : Along rel (operand expr n) := by
  refine bind current fun t => ?_
  split
  · exact bind advance fun _ => bind (hexpr _) fun _ => pure _
  · split
    · exact pure _
    · exact intLiteral t
    · exact pure _
    · exact pure _
    · exact pure _
    · exact grouped hexpr
    · exact conditional hexpr n
    · exact function hexpr n
    · exact noOperand

lemma extend (min : Precedence) (n : Nat) (left : Expr) :
    Along rel (extend expr min n left) := by
  induction n generalizing left with
  | zero => exact pure left
  | succ n ih =>
    intro s
    by_cases hmin : min < .ofKind s.stream.peek.kind
    · rcases kind_of_lt_ofKind hmin with hk | ⟨op, hop⟩
      · rw [extend_call hk (by rwa [hk] at hmin) n left]
        exact bind_of_rel (argsOrNone_of_lparen hexpr hk n) fun list => ih _
      · rw [extend_binary hop hmin n left]
        refine StepRel.trans (StepRel.advance s) (StepRel.trans (StepRel.advance s.advance) ?_)
        exact bind_of_rel (hexpr _ _) fun right => ih _
    · rw [extend_stop hmin]
      exact StepRel.refl s

end

theorem expression (n : Nat) (min : Precedence) : Along rel (expression n min) := by
  induction n generalizing min with
  | zero => exact noOperand
  | succ n ih => exact bind (operand ih n) fun left => extend ih min n left

end Along

instance : StepRel State.Moves where
  refl := .refl
  trans := .trans
  advance := .advance
  giveUp e _ h := ((State.Moves.advance _).trans h).trans (.record _ e)

/-- Every run of the parser moves forward. -/
abbrev Forward {α : Type} (p : Parser α) : Prop := Along State.Moves p

lemma Forward.argsOrNone {expr : Precedence → Parser Expr} (hexpr : ∀ min, Forward (expr min))
    (n : Nat) : Forward (argsOrNone expr n) := by
  intro s
  have hs : s.Moves _ := Along.args hexpr n s
  change s.Moves (final (EStateM.tryCatch (args expr n) _ s))
  rw [EStateM.tryCatch]
  cases hargs : args expr n s with
  | ok a t =>
    rw [hargs] at hs
    exact hs
  | error e t =>
    rw [hargs] at hs
    exact hs.trans (.record t e)

/-- Reading a whole program moves forward too, whatever is dropped on the way. -/
theorem moves_programUpTo (n : Nat) (s : State) : s.Moves (programUpTo n s).2 := by
  induction n generalizing s with
  | zero => exact .refl s
  | succ n ih =>
    rw [programUpTo]
    split
    · exact .refl s
    · have hs : s.Moves _ := Along.statement (Along.expression (n + 1)) s
      split
      · next stmt t heq =>
        rw [heq] at hs
        exact (hs.trans (.advance t)).trans (ih t.advance)
      · next e t heq =>
        rw [heq] at hs
        exact ((hs.trans (.record t e)).trans (.advance _)).trans (ih _)

end Parser
end Monkey
