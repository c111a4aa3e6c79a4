import Monkey.Program.Equality
import Monkey.Program.Printer
import Monkey.Scope.Id
import Monkey.Value.RuntimeError

/-! The values that programs compute with. -/
namespace Monkey

/-- The functions that a name stands for when no scope binds it. -/
inductive Builtin where
  | len | puts | type
  deriving DecidableEq, Repr

namespace Builtin

def name : Builtin → String
  | len => "len"
  | puts => "puts"
  | type => "type"

def ofName? : String → Option Builtin
  | "len" => some len
  | "puts" => some puts
  | "type" => some type
  | _ => none

def display (b : Builtin) : String := "builtin function " ++ b.name

end Builtin

/-- A function with the scope that it was made in. Each evaluation of a function literal makes a
function of its own, which `id` tells from all others. -/
structure Closure where
  id : Nat
  params : List String
  body : Block
  scope : ScopeId
  deriving DecidableEq

def Closure.display (c : Closure) : String :=
  "fn(" ++ ", ".intercalate c.params ++ ") " ++ c.body.render .compact

inductive Value where
  | int (value : Int64)
  | bool (value : Bool)
  | str (value : String)
  | null
  /-- A value that `return` carries to the boundary of its function. -/
  | returned (value : Value)
  | error (cause : RuntimeError)
  | function (closure : Closure)
  | builtin (b : Builtin)
  deriving DecidableEq

namespace Value

def tag : Value → Tag
  | int _ => .integer
  | bool _ => .boolean
  | str _ => .string
  | null => .null
  | returned _ => .returned
  | error _ => .error
  | function _ => .function
  | builtin _ => .builtin

def display : Value → String
  | int value => toString value.toInt
  | bool value => toString value
  | str value => value
  | null => "null"
  | returned value => value.display
  | error cause => "ERROR: " ++ cause.message
  | function closure => closure.display
  | builtin b => b.display

def isError : Value → Bool
  | error _ => true
  | _ => false

/-- Whether the value ends the block that computes it. -/
def isAbrupt : Value → Bool
  | returned _ | error _ => true
  | _ => false

/-- All values but `null` and `false` count as true. -/
def isTruthy : Value → Bool
  | null | bool false => false
  | _ => true

/-- The value without one layer of `return`. -/
def unwrap : Value → Value
  | returned value => value
  | value => value

/-- Data are equal by content and functions by identity. -/
def equal : Value → Value → Bool
  | int a, int b => a == b
  | bool a, bool b => a == b
  | str a, str b => a == b
  | null, null => true
  | builtin a, builtin b => a == b
  | function a, function b => a.id == b.id
  | _, _ => false

end Value

/-- A value as an object with an identity, which two handles can share. -/
structure Handle where
  id : Nat
  value : Value
  deriving DecidableEq

/-- Two handles are equal if they are of one object or hold equal values. -/
def Handle.equal (a b : Handle) : Bool := a.id == b.id || a.value.equal b.value

end Monkey
