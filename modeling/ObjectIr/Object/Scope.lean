import ObjectIr.Code.StaticScope

/-!
# Dynamic scopes

A dynamic scope stands for one activation of a body: a cell of its own, and the cells of the
scopes around it, innermost first. The links between scopes never change; the values in a cell's
slots are kept on the heap.
-/

namespace ObjectIr

/-- The storage of one scope: which one it is, and the static scope that laid it out. -/
structure ScopeCell where
  id : Nat
  layout : StaticScope
  deriving DecidableEq

structure DynamicScope where
  cell : ScopeCell
  outer : List ScopeCell
  deriving DecidableEq

namespace DynamicScope

def cells (s : DynamicScope) : List ScopeCell := s.cell :: s.outer

def id (s : DynamicScope) : Nat := s.cell.id

/-- The cell `depth` scopes outward. -/
def cell? (s : DynamicScope) (depth : Nat) : Option ScopeCell := s.cells[depth]?

def parent? (s : DynamicScope) : Option DynamicScope :=
  match s.outer with
  | [] => none
  | c :: cs => some ⟨c, cs⟩

/-- A cell inside `parent?`, or outermost. -/
def nest (cell : ScopeCell) (parent? : Option DynamicScope) : DynamicScope :=
  ⟨cell, (parent?.map cells).getD []⟩

/-- The innermost cell of a body that non-local returns complete. -/
def returnTarget? (s : DynamicScope) : Option ScopeCell :=
  s.cells.find? fun c => c.layout.kind.isReturnTarget

end DynamicScope

end ObjectIr
