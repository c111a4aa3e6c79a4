import Monkey.Proofs.Token.Layout

/-! The tokens of one text behind another. The two are read as if apart where the last token of
the first cannot go on into the second; the tokens of the second are then moved along. -/
namespace Monkey

/-- The same piece of text, `d` bytes further on. -/
def Span.shift (d : Nat) (s : Span) : Span := ⟨d + s.start, d + s.stop⟩

def Token.shift (d : Nat) (t : Token) : Token := { t with span := t.span.shift d }

@[simp] theorem Token.shift_terminal (d : Nat) (t : Token) : (t.shift d).terminal = t.terminal :=
  rfl

def TokenStream.shift (d : Nat) (s : TokenStream) : TokenStream :=
  ⟨s.tokens.map (Token.shift d), s.eof.shift d⟩

/-- A token of this kind at the end of a text stays what it is when `b` is added. -/
def Token.Kind.Stays (k : Token.Kind) (b : List Char) : Prop :=
  k = .semicolon ∨ k ≠ .illegal ∧ ∀ c ∈ b.head?, Text.isBlank c = true

namespace Lexeme

lemma pair?_eq_none_of_isBlank {c d : Char} (h : Text.isBlank d = true) : pair? c d = none := by
  unfold pair?
  split <;> first | rfl | (revert h; decide)

/-- A run of characters ends where it did. -/
lemma run_append {p : Char → Bool} {rest b : List Char}
    (h : rest.dropWhile p ≠ [] ∨ ∀ c ∈ b.head?, p c = false) :
    (rest ++ b).takeWhile p = rest.takeWhile p ∧
      (rest ++ b).dropWhile p = rest.dropWhile p ++ b := by
  have hstop : ∀ c ∈ (rest.dropWhile p ++ b).head?, p c = false := by
    intro c hc
    cases hd : rest.dropWhile p with
    | nil =>
      rw [hd, List.nil_append] at hc
      exact h.resolve_left (not_not_intro hd) c hc
    | cons d ds =>
      rw [hd] at hc
      obtain rfl := Option.some.inj hc
      have hhead := List.head_dropWhile_not p (hd ▸ List.cons_ne_nil d ds)
      simpa [hd] using hhead
  have hrun : ∀ c ∈ rest.takeWhile p, p c = true := fun c hc => List.mem_takeWhile_imp hc
  have happ := takeWhile_append_stop hrun hstop
  rwa [← List.append_assoc, List.takeWhile_append_dropWhile] at happ

lemma isDigit_eq_false_of_isBlank {c : Char} (h : Text.isBlank c = true) : c.isDigit = false := by
  by_contra hc
  rw [Text.isBlank_eq_false_of_isDigit (by simpa using hc)] at h
  contradiction

lemma isWordPart_eq_false_of_isBlank {c : Char} (h : Text.isBlank c = true) :
    isWordPart c = false := by
  by_contra hc
  rw [isBlank_eq_false_of_isWordPart (by simpa using hc)] at h
  contradiction

/-- A symbol stays where it is not the first half of a longer one. -/
lemma read_symbol_append {c : Char} {k : Token.Kind} (hsymbol : symbol? c = some k)
    {rest b : List Char}
    (h : rest ≠ [] ∨ (∀ d, pair? c d = none) ∨ ∀ d ∈ b.head?, Text.isBlank d = true) :
    read c (rest ++ b) = { read c rest with rest := (read c rest).rest ++ b } := by
  cases rest with
  | nil =>
    have hnone : b.head?.bind (pair? c) = none := by
      rcases h with h | h | h
      · exact absurd rfl h
      · cases b <;> simp [h]
      · cases b with
        | nil => rfl
        | cons d b => exact pair?_eq_none_of_isBlank (h d rfl)
    rw [List.nil_append, read_symbol hsymbol hnone, read_symbol hsymbol rfl]
    rfl
  | cons d rest =>
    cases hpair : pair? c d with
    | some k' =>
      rw [List.cons_append, read_pair hpair, read_pair hpair]
      rfl
    | none =>
      rw [List.cons_append, read_symbol hsymbol (by simpa using hpair),
        read_symbol hsymbol (by simpa using hpair)]
      rfl

/-- A quoted text stays that is closed or broken off before the end. -/
lemma read_quote_append {rest b : List Char}
    (h : (read '"' rest).rest ≠ [] ∨ (read '"' rest).kind ≠ .illegal) :
    read '"' (rest ++ b) = { read '"' rest with rest := (read '"' rest).rest ++ b } := by
  obtain ⟨body, content, rest, rfl, hbody, ⟨after, rfl⟩ | ⟨tail, after, rfl, htail⟩⟩ :=
    Text.Quoted.exists_body rest
  · rw [List.append_assoc, List.cons_append, read_quoted hbody, read_quoted hbody]
  · have hne : Text.Quoted.decode? body ≠ none := hbody ▸ Option.some_ne_none _
    rw [read_broken hne htail] at h ⊢
    cases htail with
    | escape hl after =>
      rw [List.append_assoc, List.append_assoc, read_broken hne (.escape hl _)]
      rfl
    | atEnd => simp [plain] at h
    | atSlash => simp [plain] at h

lemma eq_of_kind_semicolon {c : Char} {rest : List Char} (h : (read c rest).kind = .semicolon) :
    c = ';' := by
  have hraw : (read c rest).raw = [';'] := by
    have hfits : (read c rest).kind.Fits (read c rest).raw := fits_read (by rw [h]; nofun)
    rwa [h] at hfits
  have htext := raw_append_rest c rest
  rw [hraw] at htext
  exact (List.cons.inj htext).1.symm

/-- Reading goes on behind `b` as if the token stood alone. -/
theorem read_append {c : Char} {rest b : List Char}
    (h : (read c rest).rest ≠ [] ∨ (read c rest).kind.Stays b) :
    read c (rest ++ b) = { read c rest with rest := (read c rest).rest ++ b } := by
  cases hsymbol : symbol? c with
  | some k =>
    refine read_symbol_append hsymbol ?_
    rcases h with h | h | h
    · left
      rintro rfl
      exact h (List.length_eq_zero_iff.mp (Nat.le_zero.mp (length_rest_le c [])))
    · rw [eq_of_kind_semicolon h]
      exact .inr (.inl fun _ => rfl)
    · exact .inr (.inr h.2)
  | none =>
    have hstays : (read c rest).rest ≠ [] ∨
        (read c rest).kind ≠ .illegal ∧ ∀ d ∈ b.head?, Text.isBlank d = true := by
      rcases h with h | h | h
      · exact .inl h
      · rw [eq_of_kind_semicolon h] at hsymbol
        contradiction
      · exact .inr h
    by_cases hquote : c = '"'
    · subst hquote
      exact read_quote_append (hstays.imp_right And.left)
    cases hdigit : c.isDigit with
    | true =>
      rw [read_number hdigit] at hstays ⊢
      obtain ⟨htake, hdrop⟩ := run_append
        (hstays.imp_right fun h d hd => isDigit_eq_false_of_isBlank (h.2 d hd))
      rw [read_number hdigit, number, htake, hdrop]
      rfl
    | false =>
      cases hword : isWordStart c with
      | true =>
        rw [read_word hword] at hstays ⊢
        obtain ⟨htake, hdrop⟩ := run_append
          (hstays.imp_right fun h d hd => isWordPart_eq_false_of_isBlank (h.2 d hd))
        rw [read_word hword, word, htake, hdrop]
        rfl
      | false => simp [read, symbolAt?_eq_none hsymbol, hquote, hdigit, hword, plain]

end Lexeme

namespace Cursor

lemma next?_shift (d pos : Nat) (rest : List Char) :
    next? ⟨d + pos, rest⟩ =
      (next? ⟨pos, rest⟩).map fun r => (r.1.shift d, ⟨d + r.2.pos, r.2.rest⟩) := by
  unfold next? skipBlanks
  dsimp only
  cases rest.dropWhile Text.isBlank with
  | nil => rfl
  | cons c tail => simp [Token.shift, Span.shift, Span.ofText, Nat.add_assoc]

/-- Where a text stands only moves its tokens. -/
theorem tokens_shift (d pos : Nat) (rest : List Char) :
    tokens ⟨d + pos, rest⟩ = (tokens ⟨pos, rest⟩).map (Token.shift d) := by
  induction hn : rest.length using Nat.strong_induction_on generalizing pos rest with
  | _ n ih =>
    have hshift := next?_shift d pos rest
    cases hnext : next? ⟨pos, rest⟩ with
    | none =>
      rw [hnext] at hshift
      rw [tokens_of_next?_eq_none hnext, tokens_of_next?_eq_none hshift, List.map_nil]
    | some r =>
      obtain ⟨t, next⟩ := r
      rw [hnext] at hshift
      have hlt : next.rest.length < n := hn ▸ length_next?_lt hnext
      rw [tokens_of_next?_eq_some hnext, tokens_of_next?_eq_some hshift, List.map_cons,
        ih _ hlt next.pos next.rest rfl]

lemma tokens_of_blank {pos : Nat} {a b : List Char} (h : ∀ c ∈ a, Text.isBlank c = true) :
    tokens ⟨pos, a ++ b⟩ = tokens ⟨pos + byteLength a, b⟩ := by
  have hskip : skipBlanks ⟨pos, a ++ b⟩ = skipBlanks ⟨pos + byteLength a, b⟩ := by
    simp only [skipBlanks, List.takeWhile_append_of_pos h, List.dropWhile_append_of_pos h,
      byteLength_append, Nat.add_assoc]
  have hnext : next? ⟨pos, a ++ b⟩ = next? ⟨pos + byteLength a, b⟩ := by
    rw [next?, next?, hskip]
  cases h : next? ⟨pos, a ++ b⟩ with
  | none => rw [tokens_of_next?_eq_none h, tokens_of_next?_eq_none (hnext.symm.trans h)]
  | some r =>
    obtain ⟨t, next⟩ := r
    rw [tokens_of_next?_eq_some h, tokens_of_next?_eq_some (hnext.symm.trans h)]

/-- One token of the first text. -/
lemma next?_append {pos : Nat} {a b : List Char} {t : Token} {next : Cursor}
    (h : next? ⟨pos, a⟩ = some (t, next))
    (hstays : next.rest ≠ [] ∨ t.kind.Stays b) :
    next? ⟨pos, a ++ b⟩ = some (t, ⟨next.pos, next.rest ++ b⟩) := by
  unfold next? at h
  split at h
  · cases h
  · next start c rest hskip =>
    cases h
    obtain ⟨hpos, hrest⟩ := Cursor.mk.inj hskip
    dsimp only at hpos hrest
    obtain ⟨htake, hdrop⟩ := Lexeme.run_append (b := b)
      (.inl (hrest ▸ List.cons_ne_nil c rest : a.dropWhile Text.isBlank ≠ []))
    have hskip' : skipBlanks ⟨pos, a ++ b⟩ = ⟨start, c :: (rest ++ b)⟩ := by
      rw [skipBlanks, htake, hdrop, hpos, hrest]
      rfl
    rw [next?, hskip']
    dsimp only
    rw [Lexeme.read_append hstays]

/-- Two texts are read one after the other, if the last token of the first stays what it is. -/
theorem tokens_append {pos : Nat} {a b : List Char}
    (h : ∀ t ∈ (tokens ⟨pos, a⟩).getLast?, t.kind.Stays b) :
    tokens ⟨pos, a ++ b⟩ = tokens ⟨pos, a⟩ ++ tokens ⟨pos + byteLength a, b⟩ := by
  induction hn : a.length using Nat.strong_induction_on generalizing pos a with
  | _ n ih =>
    cases hnext : next? ⟨pos, a⟩ with
    | none =>
      rw [tokens_of_blank (isBlank_of_next?_eq_none hnext), tokens_of_next?_eq_none hnext,
        List.nil_append]
    | some r =>
      obtain ⟨t, next⟩ := r
      rw [tokens_of_next?_eq_some hnext] at h ⊢
      have hlt : next.rest.length < n := hn ▸ length_next?_lt hnext
      have hstays : next.rest ≠ [] ∨ t.kind.Stays b := by
        by_cases hend : next.rest = []
        · rw [tokens_of_next?_eq_none (next?_eq_none_of_rest_eq_nil hend)] at h
          exact .inr (h t rfl)
        · exact .inl hend
      have hrest : ∀ t ∈ next.tokens.getLast?, t.kind.Stays b := by
        intro t' ht'
        refine h t' ?_
        cases htokens : next.tokens with
        | nil => simp [htokens] at ht'
        | cons u us => rwa [htokens, ← List.getLast?_cons_cons (a := t)] at ht'
      have hpos : next.pos + byteLength next.rest = pos + byteLength a := by
        exact congrArg (·.span.start) (eof_of_next?_eq_some hnext)
      rw [tokens_of_next?_eq_some (next?_append hnext hstays), ih _ hlt hrest rfl, hpos]
      rfl

end Cursor

namespace TokenStream

/-- The tokens of a text that stands behind another are moved by the length of that. -/
theorem ofSource_append {a b : String}
    (h : ∀ t ∈ (ofSource a).tokens.getLast?, t.kind.Stays b.toList) :
    ofSource (a ++ b) = ⟨(ofSource a).tokens ++ ((ofSource b).shift a.utf8ByteSize).tokens,
      ((ofSource b).shift a.utf8ByteSize).eof⟩ := by
  have htokens := Cursor.tokens_append h
  rw [Nat.zero_add, byteLength_toList, ← Nat.add_zero a.utf8ByteSize,
    Cursor.tokens_shift] at htokens
  have heof :
      Cursor.eof (.ofSource (a ++ b)) = (Cursor.eof (.ofSource b)).shift a.utf8ByteSize := by
    simp [Cursor.eof, Cursor.ofSource, Token.eof, Token.shift, Span.shift, byteLength_append,
      byteLength_toList]
  rw [← String.toList_append] at htokens
  exact congrArg₂ TokenStream.mk htokens heof

end TokenStream
end Monkey
