import Monkey.Text.Blank

/-! What a user can set for an interactive session. -/
namespace Monkey.Repl

structure Settings where
  /-- The file that keeps the lines typed. -/
  history : Option String := none
  /-- Whether each program is printed before it runs. -/
  echo : Bool := false
  prompt : String := ">> "
  /-- Shown while brackets are open. -/
  continuation : String := ".. "
  deriving DecidableEq, Repr

namespace Settings

def historyVariable : String := "MONKEY_HISTORY"

def echoVariable : String := "MONKEY_ECHO_AST"

/-- The values that turn a switch on, in either case of letters and with blanks around them. -/
def isOn (value : String) : Bool := (Text.trim value).toLower ∈ ["1", "true", "yes"]

/-- The settings for the values of the two variables, where they are set. A blank file name is
none. -/
def ofVariables (history echo : Option String) : Settings :=
  { history := (history.map Text.trim).filter (· ≠ "")
    echo := echo.any isOn }

end Settings
end Monkey.Repl
