/-! Places in a source text, counted in bytes of its UTF-8 form. -/
namespace Monkey

/-- How many bytes the characters take in UTF-8. -/
def byteLength : List Char → Nat
  | [] => 0
  | c :: rest => c.utf8Size + byteLength rest

theorem byteLength_append (a b : List Char) :
    byteLength (a ++ b) = byteLength a + byteLength b := by
  induction a with
  | nil => simp [byteLength]
  | cons c rest ih => simp [byteLength, ih, Nat.add_assoc]

/-- The bytes from `start` up to, and without, `stop`. -/
structure Span where
  start : Nat
  stop : Nat
  deriving DecidableEq, Repr

namespace Span

/-- The span of `text` when it begins at `start`. -/
def ofText (start : Nat) (text : List Char) : Span := ⟨start, start + byteLength text⟩

def isEmpty (s : Span) : Bool := s.start == s.stop

def render (s : Span) : String := toString s.start ++ ":" ++ toString s.stop

/-- The form that follows a message. -/
def renderAt (s : Span) : String := "(at " ++ s.render ++ ")"

end Span
end Monkey
