import Monkey.Proofs.Token.Terminal

/-! How words, numbers, quoted texts and symbols are spelled: each of them is read back as one
token, and reading goes on right behind it. -/
namespace Monkey

/-- The text of a keyword or symbol. -/
def Token.Kind.spelling : Token.Kind → String
  | .kwFn => "fn"
  | .kwLet => "let"
  | .kwTrue => "true"
  | .kwFalse => "false"
  | .kwIf => "if"
  | .kwElse => "else"
  | .kwReturn => "return"
  | k => k.name

/-- The token of a keyword or symbol. -/
def Terminal.of (k : Token.Kind) : Terminal := ⟨k, k.spelling⟩

@[simp] theorem Terminal.of_kind (k : Token.Kind) : (Terminal.of k).kind = k := rfl

def keywords : List String := ["fn", "let", "true", "false", "if", "else", "return"]

/-- A letter or underscore, then letters, underscores and digits; and no keyword. -/
def isName (text : String) : Bool :=
  match text.toList with
  | [] => false
  | c :: rest =>
    (Text.isAlphabetic c || c == '_') &&
      rest.all (fun d => Text.isAlphabetic d || d == '_' || d.isDigit) && text ∉ keywords

/-- The parts of a name that reading it depends on. -/
lemma isName_iff {text : String} : isName text = true ↔
    ∃ c cs, text.toList = c :: cs ∧ Lexeme.isWordStart c = true ∧
      (∀ d ∈ cs, Lexeme.isWordPart d = true) ∧ text ∉ keywords := by
  unfold isName
  split
  · next h => simp [h]
  · next c rest h =>
    simp only [h, Bool.and_eq_true, List.all_eq_true, decide_eq_true_eq, List.cons.injEq,
      Lexeme.isWordStart, Lexeme.isWordPart]
    constructor
    · rintro ⟨⟨hc, hrest⟩, hk⟩
      exact ⟨c, rest, ⟨rfl, rfl⟩, hc, hrest, hk⟩
    · rintro ⟨d, ds, ⟨rfl, rfl⟩, hc, hrest, hk⟩
      exact ⟨⟨hc, hrest⟩, hk⟩

lemma Token.Kind.ofWord_eq_ident {text : String} (h : text ∉ keywords) : ofWord text = .ident := by
  unfold ofWord
  split <;> first | rfl | (revert h; decide)

/-- No word or number goes on into the text. -/
def EndsWord (text : List Char) : Prop := ∀ c ∈ text.head?, Lexeme.isWordPart c = false

@[simp] theorem endsWord_nil : EndsWord [] := by simp [EndsWord]

lemma endsWord_cons {c : Char} (h : Lexeme.isWordPart c = false) (rest : List Char) :
    EndsWord (c :: rest) := by
  simpa [EndsWord] using h

lemma endsWord_append {text rest : List Char} (ht : EndsWord text) (hr : EndsWord rest) :
    EndsWord (text ++ rest) := by
  cases text with
  | nil => exact hr
  | cons c text => simpa [EndsWord] using ht

lemma takeWhile_append_stop {p : Char → Bool} {run rest : List Char} (hrun : ∀ c ∈ run, p c = true)
    (hrest : ∀ c ∈ rest.head?, p c = false) :
    (run ++ rest).takeWhile p = run ∧ (run ++ rest).dropWhile p = rest := by
  rw [List.takeWhile_append_of_pos hrun, List.dropWhile_append_of_pos hrun]
  cases rest with
  | nil => simp
  | cons c rest => simp [hrest c (by simp)]

lemma terminals_word {c : Char} {cs rest : List Char} (hc : Lexeme.isWordStart c = true)
    (hcs : ∀ d ∈ cs, Lexeme.isWordPart d = true) (hrest : EndsWord rest) :
    terminals (c :: cs ++ rest) =
      ⟨.ofWord (String.ofList (c :: cs)), String.ofList (c :: cs)⟩ :: terminals rest := by
  obtain ⟨htake, hdrop⟩ := takeWhile_append_stop hcs hrest
  have hblank := Lexeme.isBlank_eq_false_of_isWordPart (Lexeme.isWordPart_of_isWordStart hc)
  rw [List.cons_append, terminals_cons hblank, Lexeme.read_word hc, Lexeme.word, htake, hdrop]
  rfl

lemma terminals_number {c : Char} {cs rest : List Char} (hc : c.isDigit = true)
    (hcs : ∀ d ∈ cs, d.isDigit = true) (hrest : EndsWord rest) :
    terminals (c :: cs ++ rest) = ⟨.int, String.ofList (c :: cs)⟩ :: terminals rest := by
  have hdigit : ∀ d ∈ rest.head?, d.isDigit = false := by
    intro d hd
    have := hrest d hd
    simp only [Lexeme.isWordPart, Bool.or_eq_false_iff] at this
    exact this.2
  obtain ⟨htake, hdrop⟩ := takeWhile_append_stop hcs hdigit
  rw [List.cons_append, terminals_cons (Text.isBlank_eq_false_of_isDigit hc),
    Lexeme.read_number hc, Lexeme.number, htake, hdrop]
  rfl

/-- A symbol that starts no longer one is read wherever it stands. -/
lemma terminals_symbol {c : Char} {k : Token.Kind} (h : Lexeme.symbol? c = some k)
    (hpair : ∀ d, Lexeme.pair? c d = none) (rest : List Char) :
    terminals (c :: rest) = ⟨k, String.ofList [c]⟩ :: terminals rest := by
  have hnone : rest.head?.bind (Lexeme.pair? c) = none := by cases rest <;> simp [hpair]
  rw [terminals_cons (Lexeme.isBlank_eq_false_of_symbol? h), Lexeme.read_symbol h hnone]
  rfl

lemma terminals_pair {c d : Char} {k : Token.Kind} (h : Lexeme.pair? c d = some k)
    (hblank : Text.isBlank c = false) (rest : List Char) :
    terminals (c :: d :: rest) = ⟨k, String.ofList [c, d]⟩ :: terminals rest := by
  rw [terminals_cons hblank, Lexeme.read_pair h]
  rfl

@[simp] theorem terminals_space (rest : List Char) : terminals (' ' :: rest) = terminals rest :=
  terminals_blank (by decide) rest

@[simp] theorem terminals_lparen (rest : List Char) :
    terminals ('(' :: rest) = .of .lparen :: terminals rest :=
  terminals_symbol rfl (fun _ => rfl) rest

@[simp] theorem terminals_rparen (rest : List Char) :
    terminals (')' :: rest) = .of .rparen :: terminals rest :=
  terminals_symbol rfl (fun _ => rfl) rest

@[simp] theorem terminals_lbrace (rest : List Char) :
    terminals ('\x7b' :: rest) = .of .lbrace :: terminals rest :=
  terminals_symbol rfl (fun _ => rfl) rest

@[simp] theorem terminals_rbrace (rest : List Char) :
    terminals ('\x7d' :: rest) = .of .rbrace :: terminals rest :=
  terminals_symbol rfl (fun _ => rfl) rest

@[simp] theorem terminals_comma (rest : List Char) :
    terminals (',' :: rest) = .of .comma :: terminals rest :=
  terminals_symbol rfl (fun _ => rfl) rest

@[simp] theorem terminals_semicolon (rest : List Char) :
    terminals (';' :: rest) = .of .semicolon :: terminals rest :=
  terminals_symbol rfl (fun _ => rfl) rest

namespace Text.Quoted

lemma ne_quote_of_letter?_eq_none {c : Char} (h : letter? c = none) : c ≠ '"' ∧ c ≠ '\\' := by
  constructor <;> (rintro rfl; contradiction)

lemma scan_quote (rest : List Char) : scan ('"' :: rest) = ⟨some [], ['"'], rest⟩ := by
  rw [scan.eq_def]
  rfl

lemma scan_escape {l d : Char} (h : ofLetter? l = some d) (rest : List Char) :
    scan ('\\' :: l :: rest) = (scan rest).cons ['\\', l] d := by
  rw [scan.eq_def]
  simp [h]

lemma scan_plain {c : Char} (hquote : c ≠ '"') (hslash : c ≠ '\\') (rest : List Char) :
    scan (c :: rest) = (scan rest).cons [c] c := by
  rw [scan.eq_def]
  simp [hquote, hslash]

/-- The content that stands between two quotes as `body`: each backslash begins one of the five
escapes, and no quote stands outside of them. -/
def decode? : List Char → Option (List Char)
  | [] => some []
  | c :: body =>
    if c = '"' then none
    else if c = '\\' then
      match body with
      | [] => none
      | l :: body => (ofLetter? l).bind fun d => (decode? body).map (d :: ·)
    else (decode? body).map (c :: ·)

lemma decode?_escape (l : Char) (body : List Char) :
    decode? ('\\' :: l :: body) = (ofLetter? l).bind fun d => (decode? body).map (d :: ·) := by
  rw [decode?.eq_def]
  rfl

lemma decode?_plain {c : Char} (hquote : c ≠ '"') (hslash : c ≠ '\\') (body : List Char) :
    decode? (c :: body) = (decode? body).map (c :: ·) := by
  rw [decode?.eq_def]
  simp [hquote, hslash]

/-- Every content can be written. -/
theorem decode?_encodeBody (content : List Char) : decode? (encodeBody content) = some content := by
  induction content with
  | nil => rfl
  | cons c content ih =>
    have hcons : encodeBody (c :: content) = encodeChar c ++ encodeBody content := rfl
    rw [hcons]
    cases hl : letter? c with
    | some l => simp [encodeChar, hl, decode?_escape, ofLetter?_of_letter? hl, ih]
    | none =>
      obtain ⟨hquote, hslash⟩ := ne_quote_of_letter?_eq_none hl
      simp [encodeChar, hl, decode?_plain hquote hslash, ih]

/-- Reading goes through a body to what stands behind it. -/
theorem scan_append {body content : List Char} (h : decode? body = some content)
    (after : List Char) :
    scan (body ++ after) =
      ⟨(scan after).content.map (content ++ ·), body ++ (scan after).raw, (scan after).rest⟩ := by
  fun_induction decode? body generalizing content with
  | case1 => cases h; simp
  | case2 => cases h
  | case3 => cases h
  | case4 l body _ ih =>
    obtain ⟨d, hd, htail⟩ := Option.bind_eq_some_iff.mp h
    obtain ⟨tail, hbody, rfl⟩ := Option.map_eq_some_iff.mp htail
    rw [List.cons_append, List.cons_append, scan_escape hd, ih hbody]
    simp [Scan.cons, Function.comp_def]
  | case5 c body hquote hslash ih =>
    obtain ⟨tail, hbody, rfl⟩ := Option.map_eq_some_iff.mp h
    rw [List.cons_append, scan_plain hquote hslash, ih hbody]
    simp [Scan.cons, Function.comp_def]

end Text.Quoted

lemma Lexeme.read_quoted {body content : List Char} (h : Text.Quoted.decode? body = some content)
    (after : List Char) :
    read '"' (body ++ '"' :: after) =
      ⟨.string, String.ofList content, '"' :: (body ++ ['"']), after⟩ := by
  simp [read_quote, quoted, Text.Quoted.scan_append h, Text.Quoted.scan_quote]

lemma terminals_quoted (content : String) (rest : List Char) :
    terminals ((Text.Quoted.encode content).toList ++ rest) =
      ⟨.string, content⟩ :: terminals rest := by
  have htext : (Text.Quoted.encode content).toList ++ rest =
      '"' :: (Text.Quoted.encodeBody content.toList ++ '"' :: rest) := by
    simp [Text.Quoted.encode]
  rw [htext, terminals_cons (by decide),
    Lexeme.read_quoted (Text.Quoted.decode?_encodeBody content.toList), Lexeme.terminal,
    String.ofList_toList]

end Monkey
