import ObjectIr.Code.Flags
import ObjectIr.Code.Instr
import ObjectIr.Code.StaticScope

/-!
# Bodies

A body is the compiled code of a script, method, closure or class. It holds the bodies of the
methods, closures and classes that its instructions define, so that code is a tree. Two bodies are
the same when they carry the same number; whoever makes a body chooses a number not in use.
-/

namespace ObjectIr

structure Body where
  id : Nat
  name : String
  file : String
  scope : StaticScope
  flags : BodyFlags
  requiredArgs : Nat
  temps : TempCounts
  code : List (InstrOf Body)

abbrev Operand := OperandOf Body

abbrev Instr := InstrOf Body

instance : BEq Body := ⟨fun a b => a.id == b.id⟩

namespace Body

def kind (b : Body) : BodyKind := b.scope.kind

def isEliminated (b : Body) : Bool := b.flags.has .scopeEliminated

/-- Runs in its parent's scope. -/
def reusesScope (b : Body) : Bool := b.flags.has .reuseParentScope

/-- Starts with a scope of its own. -/
def pushesScope (b : Body) : Bool := !b.isEliminated && !b.reusesScope

/-- Leaves the scope stack one shorter than it runs with. -/
def popsScope (b : Body) : Bool := b.pushesScope || b.reusesScope

/-- The index of the instruction where a label stands. -/
def labelIndex? (b : Body) (l : Label) : Option Nat :=
  b.code.findIdx? fun i => i.label? == some l

/-- Labels with their indices, in the order of the code. -/
def labels (b : Body) : List (Label × Nat) :=
  b.code.zipIdx.filterMap fun (i, index) => i.label?.map (·, index)

/-- One past the highest label in use. A label with the highest number of all counts for nothing. -/
def nextLabel (b : Body) : Nat :=
  (b.code.filterMap InstrOf.label?).foldl (fun n l => max n l.next.number.toNat) 0

/-- The names of the required arguments. Module bodies take none. -/
def parameters (b : Body) : List String :=
  if b.kind.isModuleBody then []
  else (List.range b.requiredArgs).map fun i => b.scope.locals.getD i "_"

end Body

end ObjectIr
