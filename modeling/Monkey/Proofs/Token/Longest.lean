import Mathlib.Data.List.TakeWhile
import Monkey.Proofs.Token.Spelling

/-! Which texts are tokens of which kind. Reading takes the longest text that is one; where there
is none it takes a single character, or a quoted text up to where it breaks. -/
namespace Monkey

/-- The texts that are tokens of a kind. An illegal token has no such text, and neither has the
end. -/
def Token.Kind.Fits : Token.Kind → List Char → Prop
  | .illegal, _ | .eof, _ => False
  | .int, text => text ≠ [] ∧ ∀ c ∈ text, c.isDigit = true
  | .ident, text => isName (String.ofList text) = true
  | .string, text => ∃ body, text = '"' :: (body ++ ['"']) ∧ Text.Quoted.decode? body ≠ none
  | k, text => text = k.spelling.toList

/-- What breaks a quoted text off, and what follows it: a backslash before a character that it does
not go with, or the end. -/
inductive Text.Quoted.Breaks : List Char → List Char → Prop
  | escape {c : Char} (h : ofLetter? c = none) (after : List Char) : Breaks ['\\', c] after
  | atEnd : Breaks [] []
  | atSlash : Breaks ['\\'] []

/-- What is left for illegal tokens: a character that no token starts with, and a quoted text that
is broken off. -/
def IsIllegal (text after : List Char) : Prop :=
  -- a blank is such a character too, but reading never starts at one
  (∃ c, text = [c] ∧ ∀ (k : Token.Kind) (more : List Char), ¬k.Fits (c :: more)) ∨
    ∃ body tail, text = '"' :: (body ++ tail) ∧ Text.Quoted.decode? body ≠ none ∧
      Text.Quoted.Breaks tail after

/-- What the kind and the literal of a token say about its text and what follows it. -/
structure ReadsAs (kind : Token.Kind) (literal : String) (text after : List Char) : Prop where
  ne_nil : text ≠ []
  kind_eq_iff : ∀ k, k ≠ .illegal → (kind = k ↔ k.Fits text)
  illegal_iff : kind = .illegal ↔ IsIllegal text after
  literal_eq : kind ≠ .string → literal = String.ofList text
  content_eq : kind = .string →
    ∃ body, text = '"' :: (body ++ ['"']) ∧ Text.Quoted.decode? body = some literal.toList
  longest : ∀ more, more ≠ [] → more <+: after → ∀ k : Token.Kind, ¬k.Fits (text ++ more)

namespace Lexeme

/-- The texts that are tokens, by the way they are read: a first character decides, and words of
all kinds are read alike. -/
inductive Class : Token.Kind → List Char → Prop
  | number {c : Char} {cs : List Char} (hc : c.isDigit = true)
      (hcs : ∀ d ∈ cs, d.isDigit = true) : Class .int (c :: cs)
  | word {c : Char} {cs : List Char} {k : Token.Kind} (hc : isWordStart c = true)
      (hcs : ∀ d ∈ cs, isWordPart d = true) (hk : .ofWord (String.ofList (c :: cs)) = k) :
      Class k (c :: cs)
  | quoted {body : List Char} (hbody : Text.Quoted.decode? body ≠ none) :
      Class .string ('"' :: (body ++ ['"']))
  | symbol {c : Char} {k : Token.Kind} (h : symbol? c = some k) : Class k [c]
  | pair {c d : Char} {k : Token.Kind} (h : pair? c d = some k) : Class k [c, d]

lemma fits_ofWord {c : Char} {cs : List Char} (hc : isWordStart c = true)
    (hcs : ∀ d ∈ cs, isWordPart d = true) :
    (Token.Kind.ofWord (String.ofList (c :: cs))).Fits (c :: cs) := by
  unfold Token.Kind.ofWord
  split
  case h_8 hfn hlet htrue hfalse hif helse hreturn =>
    refine isName_iff.mpr ⟨c, cs, String.toList_ofList, hc, hcs, ?_⟩
    simp only [keywords, List.mem_cons, List.not_mem_nil, or_false, not_or]
    exact ⟨hfn, hlet, htrue, hfalse, hif, helse, hreturn⟩
  all_goals next h => exact String.toList_ofList.symm.trans (congrArg String.toList h)

lemma Class.fits {k : Token.Kind} {text : List Char} (h : Class k text) : k.Fits text := by
  cases h with
  | number hc hcs => exact ⟨List.cons_ne_nil _ _, List.forall_mem_cons.mpr ⟨hc, hcs⟩⟩
  | word hc hcs hk => exact hk ▸ fits_ofWord hc hcs
  | quoted hbody => exact ⟨_, rfl, hbody⟩
  | symbol h =>
    unfold symbol? at h
    split at h <;> cases h <;> rfl
  | pair h =>
    unfold pair? at h
    split at h <;> cases h <;> rfl

lemma class_of_fits {k : Token.Kind} {text : List Char} (h : k.Fits text) : Class k text := by
  cases k with
  | illegal | eof => exact h.elim
  | int =>
    obtain ⟨hne, hdigits⟩ := h
    obtain ⟨c, cs, rfl⟩ := List.exists_cons_of_ne_nil hne
    obtain ⟨hc, hcs⟩ := List.forall_mem_cons.mp hdigits
    exact .number hc hcs
  | ident =>
    obtain ⟨c, cs, htext, hc, hcs, hk⟩ := isName_iff.mp h
    rw [String.toList_ofList] at htext
    subst htext
    exact .word hc hcs (Token.Kind.ofWord_eq_ident hk)
  | string =>
    obtain ⟨body, rfl, hbody⟩ := h
    exact .quoted hbody
  | equal | notEqual =>
    obtain rfl : text = _ := h
    exact .pair rfl
  | kwFn | kwLet | kwTrue | kwFalse | kwIf | kwElse | kwReturn =>
    obtain rfl : text = _ := h
    refine .word ?_ (List.all_eq_true.mp ?_) ?_ <;> decide
  | _ =>
    obtain rfl : text = _ := h
    exact .symbol rfl

end Lexeme

namespace Text.Quoted

lemma Breaks.scan_eq {tail after : List Char} (h : Breaks tail after) :
    scan (tail ++ after) = ⟨none, tail, after⟩ := by
  cases h with
  | escape h after =>
    rw [List.cons_append, scan.eq_def]
    simp [h]
  | atEnd => rw [List.append_nil, scan.eq_def]
  | atSlash =>
    rw [List.append_nil, scan.eq_def]
    simp

/-- Behind an opening quote there is a body, and then the closing quote or a break. -/
theorem exists_body (cs : List Char) :
    ∃ body content rest, cs = body ++ rest ∧ decode? body = some content ∧
      ((∃ after, rest = '"' :: after) ∨
        ∃ tail after, rest = tail ++ after ∧ Breaks tail after) := by
  fun_induction decode? cs with
  | case1 => exact ⟨[], [], [], rfl, rfl, .inr ⟨[], [], rfl, .atEnd⟩⟩
  | case2 rest => exact ⟨[], [], _, rfl, rfl, .inl ⟨rest, rfl⟩⟩
  | case3 => exact ⟨[], [], _, rfl, rfl, .inr ⟨['\\'], [], rfl, .atSlash⟩⟩
  | case4 l cs _ ih =>
    cases hl : ofLetter? l with
    | none => exact ⟨[], [], _, rfl, rfl, .inr ⟨['\\', l], cs, rfl, .escape hl cs⟩⟩
    | some d =>
      obtain ⟨body, content, rest, rfl, hbody, hrest⟩ := ih
      exact ⟨'\\' :: l :: body, d :: content, rest, rfl, by simp [decode?_escape, hl, hbody], hrest⟩
  | case5 c cs hquote hslash ih =>
    obtain ⟨body, content, rest, rfl, hbody, hrest⟩ := ih
    exact ⟨c :: body, c :: content, rest, rfl, by simp [decode?_plain hquote hslash, hbody], hrest⟩

end Text.Quoted

namespace Lexeme

lemma read_broken {body tail after : List Char} (h : Text.Quoted.decode? body ≠ none)
    (htail : Text.Quoted.Breaks tail after) :
    read '"' (body ++ (tail ++ after)) = plain .illegal ('"' :: (body ++ tail)) after := by
  obtain ⟨content, hbody⟩ := Option.ne_none_iff_exists'.mp h
  simp [read_quote, quoted, Text.Quoted.scan_append hbody, htail.scan_eq]

lemma symbol?_ne_none_of_pair? {c d : Char} {k : Token.Kind} (h : pair? c d = some k) :
    symbol? c ≠ none := by
  unfold pair? at h
  split at h <;> cases h <;> decide

lemma read_symbol_or_pair {c : Char} {k : Token.Kind} (h : symbol? c = some k)
    (rest : List Char) : read c rest = plain k [c] rest ∨
      ∃ d tail k', pair? c d = some k' ∧ read c rest = plain k' [c, d] tail := by
  cases hpair : rest.head?.bind (pair? c) with
  | none => exact .inl (read_symbol h hpair)
  | some k' =>
    obtain ⟨d, hd, hpair⟩ := Option.bind_eq_some_iff.mp hpair
    obtain ⟨tail, rfl⟩ := List.head?_eq_some_iff.mp hd
    exact .inr ⟨d, tail, k', hpair, read_pair hpair tail⟩

/-- No token starts with a character that reading finds no use for. -/
lemma not_class_cons {c : Char} (hsymbol : symbol? c = none) (hquote : c ≠ '"')
    (hdigit : c.isDigit = false) (hword : isWordStart c = false) {k : Token.Kind}
    {more : List Char} : ¬Class k (c :: more) := by
  intro h
  cases h with
  | number hc => exact Bool.false_ne_true (hdigit.symm.trans hc)
  | word hc => exact Bool.false_ne_true (hword.symm.trans hc)
  | quoted => exact hquote rfl
  | symbol h => exact Option.some_ne_none _ (h.symm.trans hsymbol)
  | pair h => exact symbol?_ne_none_of_pair? h hsymbol

/-- What is read is a token of its kind, or illegal. -/
theorem class_or_illegal (c : Char) (rest : List Char) :
    Class (read c rest).kind (read c rest).raw ∨
      (read c rest).kind = .illegal ∧ IsIllegal (read c rest).raw (read c rest).rest := by
  cases hsymbol : symbol? c with
  | some k =>
    left
    rcases read_symbol_or_pair hsymbol rest with hread | ⟨d, tail, k', hpair, hread⟩
    · rw [hread]
      exact .symbol hsymbol
    · rw [hread]
      exact .pair hpair
  | none =>
    by_cases hquote : c = '"'
    · subst hquote
      obtain ⟨body, content, rest, rfl, hbody, ⟨after, rfl⟩ | ⟨tail, after, rfl, htail⟩⟩ :=
        Text.Quoted.exists_body rest
      · left
        rw [read_quoted hbody]
        exact .quoted (hbody ▸ Option.some_ne_none _)
      · right
        have hne : Text.Quoted.decode? body ≠ none := hbody ▸ Option.some_ne_none _
        rw [read_broken hne htail]
        exact ⟨rfl, .inr ⟨body, tail, rfl, hne, htail⟩⟩
    cases hdigit : c.isDigit with
    | true =>
      left
      rw [read_number hdigit]
      exact .number hdigit fun d hd => List.mem_takeWhile_imp hd
    | false =>
      cases hword : isWordStart c with
      | true =>
        left
        rw [read_word hword]
        exact .word hword (fun d hd => List.mem_takeWhile_imp hd) rfl
      | false =>
        right
        have hread : read c rest = plain .illegal [c] rest := by
          simp [read, symbolAt?_eq_none hsymbol, hquote, hdigit, hword]
        rw [hread]
        refine ⟨rfl, .inl ⟨c, rfl, fun k more hfits => ?_⟩⟩
        exact not_class_cons hsymbol hquote hdigit hword (class_of_fits hfits)

/-- Reading takes at least a text that is a token, and gives its kind where it takes no more. -/
theorem Class.read_takes {k : Token.Kind} {c : Char} {cs : List Char} (h : Class k (c :: cs))
    (after : List Char) :
    c :: cs <+: (read c (cs ++ after)).raw ∧
      ((read c (cs ++ after)).raw = c :: cs → (read c (cs ++ after)).kind = k) := by
  cases h with
  | number hc hcs =>
    rw [read_number hc, Lexeme.number, List.takeWhile_append_of_pos hcs]
    exact ⟨⟨_, rfl⟩, fun _ => rfl⟩
  | word hc hcs hk =>
    rw [read_word hc, Lexeme.word, List.takeWhile_append_of_pos hcs]
    refine ⟨⟨_, rfl⟩, fun hraw => ?_⟩
    rw [← hk, ← hraw]
    rfl
  | quoted hbody =>
    obtain ⟨content, hbody⟩ := Option.ne_none_iff_exists'.mp hbody
    rw [List.append_assoc, List.singleton_append, read_quoted hbody]
    exact ⟨List.prefix_refl _, fun _ => rfl⟩
  | symbol h =>
    rcases read_symbol_or_pair h after with hread | ⟨d, tail, k', -, hread⟩
    · rw [List.nil_append, hread]
      exact ⟨List.prefix_refl _, fun _ => rfl⟩
    · rw [List.nil_append, hread]
      exact ⟨⟨[d], rfl⟩, fun hraw => by cases hraw⟩
  | pair h =>
    rw [List.singleton_append, read_pair h]
    exact ⟨List.prefix_refl _, fun _ => rfl⟩

/-- A token is read again where what it took stands before what it left. -/
lemma exists_read_eq (c : Char) (rest : List Char) : ∃ cs, (read c rest).raw = c :: cs ∧
    read c (cs ++ (read c rest).rest) = read c rest := by
  obtain ⟨d, cs, hraw⟩ := List.exists_cons_of_ne_nil (raw_ne_nil c rest)
  have htext := raw_append_rest c rest
  rw [hraw, List.cons_append] at htext
  obtain ⟨rfl, hrest⟩ := List.cons.inj htext
  exact ⟨cs, hraw, by rw [hrest]⟩

lemma fits_read {c : Char} {rest : List Char} (h : (read c rest).kind ≠ .illegal) :
    (read c rest).kind.Fits (read c rest).raw :=
  ((class_or_illegal c rest).resolve_right fun hillegal => h hillegal.1).fits

lemma kind_read_of_fits {c : Char} {rest : List Char} {k : Token.Kind}
    (h : k.Fits (read c rest).raw) : (read c rest).kind = k := by
  obtain ⟨cs, hraw, hread⟩ := exists_read_eq c rest
  rw [hraw] at h
  have htakes := (class_of_fits h).read_takes (read c rest).rest
  rw [hread] at htakes
  exact htakes.2 hraw

lemma kind_read_of_illegal {c : Char} {rest : List Char}
    (h : IsIllegal (read c rest).raw (read c rest).rest) : (read c rest).kind = .illegal := by
  obtain ⟨cs, hraw, hread⟩ := exists_read_eq c rest
  rcases h with ⟨d, hd, hnone⟩ | ⟨body, tail, htext, hbody, htail⟩
  · by_contra hkind
    have hfits := fits_read hkind
    rw [hd] at hfits
    exact hnone _ [] hfits
  · obtain ⟨rfl, rfl⟩ := List.cons.inj (hraw.symm.trans htext)
    rw [List.append_assoc, read_broken hbody htail] at hread
    rw [← hread]
    rfl

lemma literal_read {c : Char} {rest : List Char} (h : (read c rest).kind ≠ .string) :
    (read c rest).literal = String.ofList (read c rest).raw := by
  revert h
  unfold read
  split
  · next hsymbol =>
    unfold symbolAt? at hsymbol
    split at hsymbol
    · cases hsymbol
      exact fun _ => rfl
    · obtain ⟨k, -, rfl⟩ := Option.map_eq_some_iff.mp hsymbol
      exact fun _ => rfl
  · split
    · unfold quoted
      dsimp only
      split
      · exact fun h => (h rfl).elim
      · exact fun _ => rfl
    · split
      · exact fun _ => rfl
      · split <;> exact fun _ => rfl

lemma content_read {c : Char} {rest : List Char} (h : (read c rest).kind = .string) :
    ∃ body, (read c rest).raw = '"' :: (body ++ ['"']) ∧
      Text.Quoted.decode? body = some (read c rest).literal.toList := by
  obtain ⟨cs, hraw, hread⟩ := exists_read_eq c rest
  have hfits : Token.Kind.string.Fits (read c rest).raw := h ▸ fits_read (by rw [h]; nofun)
  obtain ⟨body, htext, hbody⟩ := hfits
  obtain ⟨content, hcontent⟩ := Option.ne_none_iff_exists'.mp hbody
  obtain ⟨rfl, rfl⟩ := List.cons.inj (hraw.symm.trans htext)
  rw [List.append_assoc, List.singleton_append, read_quoted hcontent] at hread
  refine ⟨body, htext, ?_⟩
  rw [← hread, hcontent, String.toList_ofList]

lemma not_fits_raw_append {c : Char} {rest more : List Char} (hne : more ≠ [])
    (hmore : more <+: (read c rest).rest) (k : Token.Kind) :
    ¬k.Fits ((read c rest).raw ++ more) := by
  intro hfits
  obtain ⟨cs, hraw, hread⟩ := exists_read_eq c rest
  obtain ⟨after, hafter⟩ := hmore
  rw [hraw, List.cons_append] at hfits
  have htakes := ((class_of_fits hfits).read_takes after).1
  rw [List.append_assoc, hafter, hread, hraw] at htakes
  have hlen := htakes.length_le
  have hpos := List.length_pos_iff.mpr hne
  simp only [List.length_cons, List.length_append] at hlen
  omega

/-- What is read of a text says what the text is. -/
theorem readsAs_read (c : Char) (rest : List Char) :
    ReadsAs (read c rest).kind (read c rest).literal (read c rest).raw (read c rest).rest where
  ne_nil := raw_ne_nil c rest
  kind_eq_iff := fun _ hk => ⟨fun h => h ▸ fits_read (h ▸ hk), kind_read_of_fits⟩
  illegal_iff := by
    refine ⟨fun h => ?_, kind_read_of_illegal⟩
    rcases class_or_illegal c rest with hclass | hillegal
    · rw [h] at hclass
      exact hclass.fits.elim
    · exact hillegal.2
  literal_eq := literal_read
  content_eq := content_read
  longest := fun _ hne hmore => not_fits_raw_append hne hmore

end Lexeme
end Monkey
