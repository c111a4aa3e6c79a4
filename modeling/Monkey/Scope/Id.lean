/-! Handles of scopes. -/
namespace Monkey

/-- A scope is named by its slot. -/
structure ScopeId where
  index : Nat
  deriving DecidableEq, Repr

namespace ScopeId

/-- The scope that every program starts in. -/
def global : ScopeId := ⟨0⟩

def render (id : ScopeId) : String := "scope#" ++ toString id.index

end ScopeId
end Monkey
