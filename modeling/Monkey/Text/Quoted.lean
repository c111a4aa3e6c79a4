/-! Quoted text: between double quotes, a backslash and a letter stand for the characters that
cannot be written plainly. -/
namespace Monkey.Text.Quoted

/-- The letter that stands for a character after a backslash, for the characters that need one. -/
def letter? : Char → Option Char
  | '"' => some '"'
  | '\\' => some '\\'
  | '\n' => some 'n'
  | '\t' => some 't'
  | '\r' => some 'r'
  | _ => none

/-- The character that a letter after a backslash stands for. -/
def ofLetter? : Char → Option Char
  | '"' => some '"'
  | '\\' => some '\\'
  | 'n' => some '\n'
  | 't' => some '\t'
  | 'r' => some '\r'
  | _ => none

def encodeChar (c : Char) : List Char :=
  match letter? c with
  | some l => ['\\', l]
  | none => [c]

/-- The characters between the quotes. -/
def encodeBody (content : List Char) : List Char := content.flatMap encodeChar

def encode (content : String) : String :=
  String.ofList ('"' :: encodeBody content.toList ++ ['"'])

/-- What reading a quoted text found after its opening quote: the content, if the text is well
formed, and how the input divides into what was read and what is left. -/
structure Scan where
  content : Option (List Char)
  raw : List Char
  rest : List Char
  deriving DecidableEq, Repr

/-- The scan of a longer input, whose first characters `raw` stand for `c`. -/
def Scan.cons (raw : List Char) (c : Char) (s : Scan) : Scan :=
  ⟨s.content.map (c :: ·), raw ++ s.raw, s.rest⟩

/-- Reads up to the closing quote. A backslash before anything but the five letters ends the
reading right there, and so does the end of the input; neither has a content. -/
def scan : List Char → Scan
  | [] => ⟨none, [], []⟩
  | c :: rest =>
    if c = '"' then ⟨some [], [c], rest⟩
    else if c = '\\' then
      match rest with
      | [] => ⟨none, [c], []⟩
      | l :: rest =>
        match ofLetter? l with
        | some d => (scan rest).cons [c, l] d
        | none => ⟨none, [c, l], rest⟩
    else (scan rest).cons [c] c

theorem ofLetter?_of_letter? {c l : Char} (h : letter? c = some l) : ofLetter? l = some c := by
  unfold letter? at h
  split at h <;> cases h <;> rfl

theorem raw_append_rest (cs : List Char) : (scan cs).raw ++ (scan cs).rest = cs := by
  fun_induction scan cs <;> simp_all [Scan.cons]

end Monkey.Text.Quoted
