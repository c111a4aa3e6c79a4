import Monkey.Text.Blank
import Monkey.Text.Quoted
import Monkey.Token.Basic

/-! Reading tokens from a source text: blanks are skipped, and each token takes as many
characters as it can. -/
namespace Monkey

/-- A token read off the front of an input: the characters it took and those that are left. -/
structure Lexeme where
  kind : Token.Kind
  literal : String
  raw : List Char
  rest : List Char
  deriving DecidableEq, Repr

namespace Lexeme

def isWordStart (c : Char) : Bool := Text.isAlphabetic c || c == '_'

def isWordPart (c : Char) : Bool := isWordStart c || c.isDigit

/-- A token whose literal is the text it was read from. -/
def plain (kind : Token.Kind) (raw rest : List Char) : Lexeme :=
  ⟨kind, String.ofList raw, raw, rest⟩

/-- The kind of a symbol of one character. -/
def symbol? : Char → Option Token.Kind
  | '=' => some .assign
  | '+' => some .plus
  | '-' => some .minus
  | '!' => some .bang
  | '*' => some .asterisk
  | '/' => some .slash
  | '<' => some .less
  | '>' => some .greater
  | ',' => some .comma
  | ';' => some .semicolon
  | '(' => some .lparen
  | ')' => some .rparen
  | '\x7b' => some .lbrace
  | '\x7d' => some .rbrace
  | _ => none

/-- The kind of a symbol of two characters. -/
def pair? : Char → Char → Option Token.Kind
  | '=', '=' => some .equal
  | '!', '=' => some .notEqual
  | _, _ => none

/-- The symbol that starts with `c`, the longer one where there are two. -/
def symbolAt? (c : Char) (rest : List Char) : Option Lexeme :=
  match rest.head?.bind (pair? c) with
  | some kind => some (plain kind (c :: rest.take 1) (rest.drop 1))
  | none => (symbol? c).map (plain · [c] rest)

/-- The quoted text after an opening quote; one that is not well formed is an illegal token of
all that was read. -/
def quoted (rest : List Char) : Lexeme :=
  let s := Text.Quoted.scan rest
  match s.content with
  | some content => ⟨.string, String.ofList content, '"' :: s.raw, s.rest⟩
  | none => plain .illegal ('"' :: s.raw) s.rest

def number (c : Char) (rest : List Char) : Lexeme :=
  plain .int (c :: rest.takeWhile Char.isDigit) (rest.dropWhile Char.isDigit)

def word (c : Char) (rest : List Char) : Lexeme :=
  let raw := c :: rest.takeWhile isWordPart
  plain (.ofWord (String.ofList raw)) raw (rest.dropWhile isWordPart)

/-- The token at the front of `c :: rest`, where `c` is no blank. -/
def read (c : Char) (rest : List Char) : Lexeme :=
  match symbolAt? c rest with
  | some lexeme => lexeme
  | none =>
    if c = '"' then quoted rest
    else if c.isDigit then number c rest
    else if isWordStart c then word c rest
    else plain .illegal [c] rest

theorem raw_append_rest_of_symbolAt? {c : Char} {rest : List Char} {l : Lexeme}
    (h : symbolAt? c rest = some l) : l.raw ++ l.rest = c :: rest := by
  unfold symbolAt? at h
  split at h
  · cases h
    exact congrArg (c :: ·) (List.take_append_drop 1 rest)
  · obtain ⟨k, -, rfl⟩ := Option.map_eq_some_iff.1 h
    rfl

/-- Reading a token loses nothing. -/
theorem raw_append_rest (c : Char) (rest : List Char) :
    (read c rest).raw ++ (read c rest).rest = c :: rest := by
  unfold read
  split
  · next h => exact raw_append_rest_of_symbolAt? h
  · split
    · next h =>
      have := Text.Quoted.raw_append_rest rest
      unfold quoted
      dsimp only
      split <;> simp [plain, h, this]
    · split
      · simp [number, plain, List.takeWhile_append_dropWhile]
      · split <;> simp [word, plain, List.takeWhile_append_dropWhile]

theorem raw_ne_nil (c : Char) (rest : List Char) : (read c rest).raw ≠ [] := by
  unfold read
  split
  · next h =>
    unfold symbolAt? at h
    split at h
    · cases h
      simp [plain]
    · obtain ⟨k, -, rfl⟩ := Option.map_eq_some_iff.1 h
      simp [plain]
  · split
    · unfold quoted
      dsimp only
      split <;> simp [plain]
    · split
      · simp [number, plain]
      · split <;> simp [word, plain]

theorem length_rest_le (c : Char) (rest : List Char) : (read c rest).rest.length ≤ rest.length := by
  have h := congrArg List.length (raw_append_rest c rest)
  have := List.length_pos_iff.2 (raw_ne_nil c rest)
  simp only [List.length_append, List.length_cons] at h
  omega

end Lexeme

/-- A place in a source: how many bytes lie before it, and the characters after it. -/
structure Cursor where
  pos : Nat
  rest : List Char
  deriving DecidableEq, Repr

namespace Cursor

def ofSource (source : String) : Cursor := ⟨0, source.toList⟩

/-- The place behind the blanks that stand here. -/
def skipBlanks (cur : Cursor) : Cursor :=
  ⟨cur.pos + byteLength (cur.rest.takeWhile Text.isBlank), cur.rest.dropWhile Text.isBlank⟩

/-- The next token and the place behind it, or nothing where only blanks are left. -/
def next? (cur : Cursor) : Option (Token × Cursor) :=
  match cur.skipBlanks with
  | ⟨_, []⟩ => none
  | ⟨pos, c :: rest⟩ =>
    let l := Lexeme.read c rest
    let span := Span.ofText pos l.raw
    some (⟨l.kind, l.literal, span⟩, ⟨span.stop, l.rest⟩)

/-- The next token, which is the end token once nothing else is left. -/
def next (cur : Cursor) : Token × Cursor :=
  match cur.next? with
  | some result => result
  | none => (Token.eof cur.skipBlanks.pos, cur.skipBlanks)

/-- The next `n` tokens. -/
def take (cur : Cursor) : Nat → List Token
  | 0 => []
  | n + 1 => cur.next.1 :: cur.next.2.take n

theorem length_skipBlanks_le (cur : Cursor) : cur.skipBlanks.rest.length ≤ cur.rest.length :=
  (List.dropWhile_sublist Text.isBlank).length_le

theorem next?_eq_none_of_rest_eq_nil {cur : Cursor} (h : cur.rest = []) : cur.next? = none := by
  simp [next?, skipBlanks, h]

theorem length_next?_lt {cur next : Cursor} {t : Token} (h : cur.next? = some (t, next)) :
    next.rest.length < cur.rest.length := by
  have hs := length_skipBlanks_le cur
  unfold next? at h
  split at h
  · cases h
  · next c rest hc =>
    cases h
    rw [hc] at hs
    exact Nat.lt_of_le_of_lt (Lexeme.length_rest_le c rest) hs

/-- The tokens up to the end, without the end token, and at most `n` of them. -/
def tokensUpTo (cur : Cursor) : Nat → List Token
  | 0 => []
  | n + 1 =>
    match cur.next? with
    | none => []
    | some (t, next) => t :: next.tokensUpTo n

/-- The tokens up to the end, without the end token: each takes a character at least. -/
def tokens (cur : Cursor) : List Token := cur.tokensUpTo cur.rest.length

theorem tokensUpTo_eq_tokens (cur : Cursor) {n : Nat} (h : cur.rest.length ≤ n) :
    cur.tokensUpTo n = cur.tokens := by
  suffices ∀ m n, cur.rest.length ≤ m → cur.rest.length ≤ n →
      cur.tokensUpTo m = cur.tokensUpTo n from this n _ h (Nat.le_refl _)
  intro m
  induction m generalizing cur with
  | zero =>
    intro n hm _
    have : cur.next? = none :=
      next?_eq_none_of_rest_eq_nil (List.length_eq_zero_iff.1 (Nat.le_zero.1 hm))
    cases n <;> simp [tokensUpTo, this]
  | succ m ih =>
    intro n hm hn
    cases hc : cur.next? with
    | none => cases n <;> simp [tokensUpTo, hc]
    | some r =>
      obtain ⟨t, next⟩ := r
      have hlt := length_next?_lt hc
      cases n with
      | zero => omega
      | succ n => simp [tokensUpTo, hc, ih next (by omega) n (by omega) (by omega)]

theorem tokens_of_next?_eq_none {cur : Cursor} (h : cur.next? = none) : cur.tokens = [] := by
  unfold tokens
  cases cur.rest.length <;> simp [tokensUpTo, h]

theorem tokens_of_next?_eq_some {cur next : Cursor} {t : Token} (h : cur.next? = some (t, next)) :
    cur.tokens = t :: next.tokens := by
  rw [← tokensUpTo_eq_tokens cur (Nat.le_succ _), tokensUpTo, h]
  exact congrArg (t :: ·) (tokensUpTo_eq_tokens next (Nat.le_of_lt (length_next?_lt h)))

/-- The end token. -/
def eof (cur : Cursor) : Token := Token.eof (cur.pos + byteLength cur.rest)

end Cursor

/-- The tokens of a source text and, behind them for ever, its end token. -/
structure TokenStream where
  tokens : List Token
  eof : Token
  deriving DecidableEq, Repr

namespace TokenStream

def ofSource (source : String) : TokenStream :=
  let cur := Cursor.ofSource source
  ⟨cur.tokens, cur.eof⟩

/-- The stream without its first `n` tokens. -/
def drop (s : TokenStream) (n : Nat) : TokenStream := { s with tokens := s.tokens.drop n }

end TokenStream
end Monkey
