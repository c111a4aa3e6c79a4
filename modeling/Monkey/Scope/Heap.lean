import Monkey.Value.Basic

/-! Scopes live in the slots of a heap and refer to each other by handle. -/
namespace Monkey

structure Scope where
  bindings : List (String × Value)
  outer : Option ScopeId
  deriving DecidableEq

namespace Scope

def find? (s : Scope) (name : String) : Option Value := s.bindings.lookup name

/-- The newest binding of a name is its only one. -/
def bind (s : Scope) (name : String) (value : Value) : Scope :=
  { s with bindings := (name, value) :: s.bindings.filter (·.1 != name) }

end Scope

structure Heap where
  /-- A freed slot holds `none`. -/
  slots : Array (Option Scope)
  /-- The freed slots, the last freed first. -/
  free : List ScopeId
  /-- The live scopes besides the global one, the oldest first. -/
  created : List ScopeId
  deriving DecidableEq

namespace Heap

def empty : Heap := ⟨#[some ⟨[], none⟩], [], []⟩

def scope? (h : Heap) (id : ScopeId) : Option Scope := h.slots[id.index]?.join

/-- A new scope inside `outer`, in the slot freed last or else in a new one. -/
def alloc (h : Heap) (outer : ScopeId) : ScopeId × Heap :=
  let scope : Scope := ⟨[], some outer⟩
  match h.free with
  | id :: free =>
    (id, ⟨h.slots.setIfInBounds id.index (some scope), free, h.created ++ [id]⟩)
  | [] =>
    let id : ScopeId := ⟨h.slots.size⟩
    (id, ⟨h.slots.push (some scope), [], h.created ++ [id]⟩)

/-- Binds a name in the scope itself; a freed scope binds nothing. -/
def bind (h : Heap) (id : ScopeId) (name : String) (value : Value) : Heap :=
  match h.scope? id with
  | some s => { h with slots := h.slots.setIfInBounds id.index (some (s.bind name value)) }
  | none => h

def bindAll (h : Heap) (id : ScopeId) (bindings : List (String × Value)) : Heap :=
  bindings.foldl (fun h b => h.bind id b.1 b.2) h

def outer? (h : Heap) (id : ScopeId) : Option ScopeId := (h.scope? id).bind (·.outer)

/-- The first `n` handles from `id` outwards. -/
def pathUpTo (h : Heap) : Nat → ScopeId → List ScopeId
  | 0, _ => []
  | n + 1, id =>
    id :: match h.outer? id with
      | some outer => h.pathUpTo n outer
      | none => []

/-- The handles from `id` outwards. They end with a scope that has no outer one, or with a freed
scope, and so they are never more than one for each slot and a last one. -/
def path (h : Heap) (id : ScopeId) : List ScopeId := h.pathUpTo (h.slots.size + 1) id

/-- The binding of the nearest scope outwards that has one. -/
def lookup (h : Heap) (id : ScopeId) (name : String) : Option Value :=
  (h.path id).findSome? fun id => (h.scope? id).bind (·.find? name)

def depth (h : Heap) (id : ScopeId) : Nat := (h.path id).length

/-- How many scopes are live, the global one included. -/
def count (h : Heap) : Nat := h.slots.size - h.free.length

/-- A point in the history of the heap: how many scopes besides the global one were live. -/
def mark (h : Heap) : Nat := h.created.length

end Heap
end Monkey
