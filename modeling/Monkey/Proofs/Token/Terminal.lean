import Mathlib.Tactic.Common
import Monkey.Token.Lexer

/-! The tokens of a text without their places, and the pieces of text that are read as one token
whatever stands behind them, as long as no word goes on into it. -/
namespace Monkey

namespace Text

lemma mem_of_inRanges {n : Nat} {ranges : List (Nat × Nat)} (h : inRanges n ranges = true) :
    n ∈ ranges.flatMap fun r => List.range' r.1 (r.2 + 1 - r.1) := by
  induction ranges with
  | nil => simp [inRanges] at h
  | cons r ranges ih =>
    simp only [inRanges, Bool.and_eq_true, Bool.or_eq_true, decide_eq_true_eq] at h
    rw [List.flatMap_cons, List.mem_append, List.mem_range'_1]
    rcases h with ⟨hlo, hhi | hrest⟩
    · left; omega
    · right; exact ih hrest

/-- No letter is a blank. -/
theorem isBlank_eq_false_of_isAlphabetic {c : Char} (h : isAlphabetic c = true) :
    isBlank c = false := by
  have hblank : ∀ n ∈ blankRanges.flatMap fun r => List.range' r.1 (r.2 + 1 - r.1),
      inRanges n alphabeticRanges = false := by decide +kernel
  by_contra hc
  rw [Bool.not_eq_false] at hc
  have := hblank c.toNat (mem_of_inRanges hc)
  rw [isAlphabetic, this] at h
  contradiction

lemma toNat_mem_of_isDigit {c : Char} (h : c.isDigit = true) : c.toNat ∈ List.range' 48 10 := by
  rw [List.mem_range'_1]
  simp only [Char.isDigit, Bool.and_eq_true, decide_eq_true_eq, ge_iff_le,
    UInt32.le_iff_toNat_le] at h
  exact ⟨h.1, Nat.lt_succ_of_le h.2⟩

lemma isBlank_eq_false_of_isDigit {c : Char} (h : c.isDigit = true) : isBlank c = false := by
  have hdigit : ∀ n ∈ List.range' 48 10, inRanges n blankRanges = false := by decide
  exact hdigit c.toNat (toNat_mem_of_isDigit h)

lemma isAlphabetic_eq_false_of_isDigit {c : Char} (h : c.isDigit = true) :
    isAlphabetic c = false := by
  have hdigit : ∀ n ∈ List.range' 48 10, inRanges n alphabeticRanges = false := by decide
  exact hdigit c.toNat (toNat_mem_of_isDigit h)

end Text

namespace Lexeme

lemma isWordPart_eq_false_of_symbol? {c : Char} {k : Token.Kind} (h : symbol? c = some k) :
    isWordPart c = false := by
  unfold symbol? at h
  split at h <;> first | decide | contradiction

lemma isBlank_eq_false_of_symbol? {c : Char} {k : Token.Kind} (h : symbol? c = some k) :
    Text.isBlank c = false := by
  unfold symbol? at h
  split at h <;> first | decide | contradiction

lemma isWordPart_of_isWordStart {c : Char} (h : isWordStart c = true) : isWordPart c = true := by
  simp [isWordPart, h]

lemma isWordPart_of_isDigit {c : Char} (h : c.isDigit = true) : isWordPart c = true := by
  simp [isWordPart, h]

lemma isBlank_eq_false_of_isWordPart {c : Char} (h : isWordPart c = true) :
    Text.isBlank c = false := by
  simp only [isWordPart, isWordStart, Bool.or_eq_true, beq_iff_eq] at h
  rcases h with (h | rfl) | h
  · exact Text.isBlank_eq_false_of_isAlphabetic h
  · decide
  · exact Text.isBlank_eq_false_of_isDigit h

lemma symbol?_eq_none_of_isWordPart {c : Char} (h : isWordPart c = true) : symbol? c = none := by
  by_contra hc
  obtain ⟨k, hk⟩ := Option.ne_none_iff_exists'.mp hc
  rw [isWordPart_eq_false_of_symbol? hk] at h
  contradiction

lemma symbolAt?_eq_none {c : Char} (h : symbol? c = none) (rest : List Char) :
    symbolAt? c rest = none := by
  have hpair : rest.head?.bind (pair? c) = none := by
    cases rest with
    | nil => rfl
    | cons d rest =>
      change pair? c d = none
      unfold pair?
      split <;> first | rfl | (revert h; decide)
  simp [symbolAt?, hpair, h]

lemma isDigit_eq_false_of_isWordStart {c : Char} (h : isWordStart c = true) :
    c.isDigit = false := by
  by_contra hc
  rw [Bool.not_eq_false] at hc
  simp only [isWordStart, Bool.or_eq_true, beq_iff_eq] at h
  rcases h with h | rfl
  · rw [Text.isAlphabetic_eq_false_of_isDigit hc] at h
    contradiction
  · revert hc; decide

lemma read_word {c : Char} (h : isWordStart c = true) (rest : List Char) :
    read c rest = word c rest := by
  have hs := symbolAt?_eq_none (symbol?_eq_none_of_isWordPart (isWordPart_of_isWordStart h)) rest
  have hq : c ≠ '"' := by rintro rfl; revert h; decide
  simp [read, hs, hq, isDigit_eq_false_of_isWordStart h, h]

lemma read_number {c : Char} (h : c.isDigit = true) (rest : List Char) :
    read c rest = number c rest := by
  have hs := symbolAt?_eq_none (symbol?_eq_none_of_isWordPart (isWordPart_of_isDigit h)) rest
  have hq : c ≠ '"' := by rintro rfl; revert h; decide
  simp [read, hs, hq, h]

lemma read_quote (rest : List Char) : read '"' rest = quoted rest := by
  have hs := symbolAt?_eq_none (c := '"') rfl rest
  simp [read, hs]

lemma read_symbol {c : Char} {k : Token.Kind} (h : symbol? c = some k) {rest : List Char}
    (hpair : rest.head?.bind (pair? c) = none) : read c rest = plain k [c] rest := by
  simp [read, symbolAt?, hpair, h]

lemma read_pair {c d : Char} {k : Token.Kind} (h : pair? c d = some k) (rest : List Char) :
    read c (d :: rest) = plain k [c, d] rest := by
  simp [read, symbolAt?, h]

end Lexeme

/-- A token without its place. -/
structure Terminal where
  kind : Token.Kind
  literal : String
  deriving DecidableEq, Repr

def Token.terminal (t : Token) : Terminal := ⟨t.kind, t.literal⟩

def Lexeme.terminal (l : Lexeme) : Terminal := ⟨l.kind, l.literal⟩

/-- The tokens of a text, without their places. -/
def terminals (text : List Char) : List Terminal :=
  (Cursor.tokens ⟨0, text⟩).map Token.terminal

namespace Cursor

lemma map_terminal_tokens_of_blank {cur : Cursor} (h : cur.rest.dropWhile Text.isBlank = []) :
    cur.tokens.map Token.terminal = [] := by
  have hnext : cur.next? = none := by simp [next?, skipBlanks, h]
  rw [tokens_of_next?_eq_none hnext, List.map_nil]

lemma map_terminal_tokens_of_read (cur : Cursor) {c : Char} {rest : List Char}
    (h : cur.rest.dropWhile Text.isBlank = c :: rest) :
    ∃ pos, cur.tokens.map Token.terminal = (Lexeme.read c rest).terminal ::
      (tokens ⟨pos, (Lexeme.read c rest).rest⟩).map Token.terminal := by
  have hnext : ∃ t pos, cur.next? = some (t, ⟨pos, (Lexeme.read c rest).rest⟩) ∧
      t.terminal = (Lexeme.read c rest).terminal := by
    simp [next?, skipBlanks, h, Token.terminal, Lexeme.terminal]
  obtain ⟨t, pos, hnext, ht⟩ := hnext
  exact ⟨pos, by rw [tokens_of_next?_eq_some hnext, List.map_cons, ht]⟩

/-- What the tokens are does not depend on where the text stands. -/
theorem map_terminal_tokens (cur : Cursor) :
    cur.tokens.map Token.terminal = terminals cur.rest := by
  suffices ∀ (n : Nat) (a b : Cursor), a.rest = b.rest → a.rest.length ≤ n →
      a.tokens.map Token.terminal = b.tokens.map Token.terminal from
    this _ cur ⟨0, cur.rest⟩ rfl (Nat.le_refl _)
  intro n
  induction n with
  | zero =>
    intro a b hab hn
    have ha : a.rest = [] := List.length_eq_zero_iff.mp (Nat.le_zero.mp hn)
    rw [map_terminal_tokens_of_blank (by simp [ha]),
      map_terminal_tokens_of_blank (by simp [← hab, ha])]
  | succ n ih =>
    intro a b hab hn
    cases hd : a.rest.dropWhile Text.isBlank with
    | nil =>
      rw [map_terminal_tokens_of_blank hd, map_terminal_tokens_of_blank (hab ▸ hd)]
    | cons c rest =>
      obtain ⟨pa, ha⟩ := map_terminal_tokens_of_read a hd
      obtain ⟨pb, hb⟩ := map_terminal_tokens_of_read b (hab ▸ hd)
      have hlen : (c :: rest).length ≤ a.rest.length := hd ▸ (List.dropWhile_sublist _).length_le
      have hread := Lexeme.length_rest_le c rest
      rw [ha, hb]
      refine congrArg _ (ih ⟨pa, _⟩ ⟨pb, _⟩ rfl ?_)
      simp only [List.length_cons] at hlen ⊢
      omega

end Cursor

namespace Lexeme

lemma kind_ne_eof_of_symbolAt? {c : Char} {rest : List Char} {l : Lexeme}
    (h : symbolAt? c rest = some l) : l.kind ≠ .eof := by
  unfold symbolAt? at h
  split at h
  · next k hk =>
    obtain ⟨d, -, hpair⟩ := Option.bind_eq_some_iff.mp hk
    cases h
    rintro rfl
    unfold pair? at hpair
    split at hpair <;> cases hpair
  · obtain ⟨k, hk, rfl⟩ := Option.map_eq_some_iff.mp h
    rintro rfl
    unfold symbol? at hk
    split at hk <;> cases hk

lemma kind_read_ne_eof (c : Char) (rest : List Char) : (read c rest).kind ≠ .eof := by
  unfold read
  split
  · next h => exact kind_ne_eof_of_symbolAt? h
  · split
    · unfold quoted
      dsimp only
      split <;> nofun
    · split
      · nofun
      · split
        · change Token.Kind.ofWord _ ≠ _
          unfold Token.Kind.ofWord
          split <;> nofun
        · nofun

end Lexeme

/-- The end token stands behind the tokens only. -/
theorem Cursor.kind_ne_eof_of_mem_tokens (cur : Cursor) {t : Token} (h : t ∈ cur.tokens) :
    t.kind ≠ .eof := by
  unfold tokens at h
  generalize cur.rest.length = n at h
  induction n generalizing cur with
  | zero => cases h
  | succ n ih =>
    rw [tokensUpTo] at h
    split at h
    · cases h
    · next tok next hnext =>
      rcases List.mem_cons.mp h with rfl | h
      · unfold next? at hnext
        split at hnext
        · cases hnext
        · cases hnext
          exact Lexeme.kind_read_ne_eof _ _
      · exact ih next h

@[simp] theorem terminals_nil : terminals [] = [] := Cursor.map_terminal_tokens_of_blank rfl

lemma terminals_blank {c : Char} (h : Text.isBlank c = true) (rest : List Char) :
    terminals (c :: rest) = terminals rest := by
  cases hd : rest.dropWhile Text.isBlank with
  | nil =>
    rw [terminals, terminals, Cursor.map_terminal_tokens_of_blank (by simpa [h] using hd),
      Cursor.map_terminal_tokens_of_blank hd]
  | cons d tail =>
    have hc : (c :: rest).dropWhile Text.isBlank = d :: tail := by simpa [h] using hd
    obtain ⟨p, hp⟩ := Cursor.map_terminal_tokens_of_read ⟨0, c :: rest⟩ hc
    obtain ⟨q, hq⟩ := Cursor.map_terminal_tokens_of_read ⟨0, rest⟩ hd
    rw [terminals, terminals, hp, hq, Cursor.map_terminal_tokens, Cursor.map_terminal_tokens]

lemma terminals_cons {c : Char} (h : Text.isBlank c = false) (rest : List Char) :
    terminals (c :: rest) =
      (Lexeme.read c rest).terminal :: terminals (Lexeme.read c rest).rest := by
  have hc : (c :: rest).dropWhile Text.isBlank = c :: rest := by simp [h]
  obtain ⟨p, hp⟩ := Cursor.map_terminal_tokens_of_read ⟨0, c :: rest⟩ hc
  rw [terminals, hp, Cursor.map_terminal_tokens]

end Monkey
