import Monkey.Scope.Heap

/-! Freeing the scopes that nothing refers to any more. A sweep looks only at its window, the
scopes younger than a mark, and keeps those of them that its roots reach through the window. -/
namespace Monkey

/-- The scope that a function holds on to, also when `return` carries it. -/
def Value.captured? : Value → Option ScopeId
  | .function c => some c.scope
  | .returned v => v.captured?
  | _ => none

/-- The scopes that a scope holds on to: the outer one and those of the functions bound in it. -/
def Scope.references (s : Scope) : List ScopeId :=
  s.outer.toList ++ s.bindings.filterMap (·.2.captured?)

namespace Heap

def references (h : Heap) (id : ScopeId) : List ScopeId :=
  match h.scope? id with
  | some s => s.references
  | none => []

/-- What is left of `pending` when all that `work` reaches through it is taken out, in at most `n`
rounds. -/
def unreachedIn (h : Heap) : Nat → List ScopeId → List ScopeId → List ScopeId
  | 0, pending, _ => pending
  | _ + 1, pending, [] => pending
  | n + 1, pending, id :: work =>
    if id ∈ pending then h.unreachedIn n (pending.erase id) (h.references id ++ work)
    else h.unreachedIn n pending work

/-- Each root, and each reference of a pending scope, is followed once at most. -/
def rounds (h : Heap) (pending work : List ScopeId) : Nat :=
  work.length + (pending.flatMap h.references).length

/-- The scopes of `pending` that `work` does not reach through `pending`. -/
def unreached (h : Heap) (pending work : List ScopeId) : List ScopeId :=
  h.unreachedIn (h.rounds pending work) pending work

/-- Frees the scopes younger than `mark` that the roots do not reach, the oldest first. -/
def sweep (h : Heap) (mark : Nat) (roots : List Value) : Heap :=
  let window := h.created.drop mark
  let garbage := h.unreached window (roots.filterMap Value.captured?)
  { slots := garbage.foldl (fun slots id => slots.setIfInBounds id.index none) h.slots
    free := garbage.reverse ++ h.free
    created := h.created.take mark ++ window.filter (· ∉ garbage) }

/-- The values bound in the global scope. -/
def globals (h : Heap) : List Value :=
  match h.scope? .global with
  | some s => s.bindings.map (·.2)
  | none => []

/-- Frees what a call made and its result does not reach. -/
def reclaimSince (h : Heap) (mark : Nat) (result : Value) : Heap := h.sweep mark [result]

/-- Frees all that neither the global scope nor the result reaches. -/
def reclaim (h : Heap) (result : Value) : Heap := h.sweep 0 (h.globals ++ [result])

end Heap

/-- Whether scopes are freed at the end of calls and programs, or kept for ever. -/
inductive Reclamation where
  | eager | never
  deriving DecidableEq, Repr

namespace Reclamation

def afterCall : Reclamation → Heap → Nat → Value → Heap
  | eager, h, mark, result => h.reclaimSince mark result
  | never, h, _, _ => h

def afterProgram : Reclamation → Heap → Value → Heap
  | eager, h, result => h.reclaim result
  | never, h, _ => h

end Reclamation
end Monkey
