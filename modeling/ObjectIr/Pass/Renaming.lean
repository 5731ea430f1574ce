import ObjectIr.Code.Body

/-!
# Renaming

Code is copied under a renaming of its variables and labels. A renaming into a host body moves
every temporary and label without a new name to one that the host does not use, the same one at
each occurrence. The copy shares the bodies that its instructions refer to; a body in the place of
a value cannot be copied.
-/

namespace ObjectIr

/-- Why an instruction cannot be changed as asked. -/
inductive EditError where
  | bodyOperand (name : String)
  | noResult (operation : String)
  deriving DecidableEq

def EditError.message : EditError → String
  | .bodyOperand name => "compiled body " ++ name ++ " cannot be cloned for inlining"
  | .noResult operation => operation ++ " does not produce a result"

/-- What a host body uses already. -/
structure Host where
  temps : TempCounts := {}
  nextLabel : Label := ⟨0⟩

/-- The names given so far, the latest first, and where fresh ones come from. -/
structure Renaming where
  names : List (Variable × Variable) := []
  labels : List (Label × Label) := []
  host? : Option Host := none

namespace Renaming

def rename (r : Renaming) (v w : Variable) : Renaming :=
  { r with names := (v, w) :: r.names }

/-- The given names, the later ones first in rank. -/
def ofList (names : List (Variable × Variable)) : Renaming := { names := names.reverse }

/-- Moves code out of the way of a host. -/
def into (temps : TempCounts) (nextLabel : BitVec 32) : Renaming :=
  { host? := some ⟨temps, ⟨nextLabel⟩⟩ }

/-- The name of a variable in the copy. -/
def renamed (r : Renaming) (v : Variable) : Variable × Renaming :=
  match r.names.lookup v, r.host?, v with
  | some w, _, _ => (w, r)
  | none, some host, .temp t =>
    let (index, temps) := host.temps.allocate t.kind
    let fresh := Variable.temp ⟨t.kind, index⟩
    (fresh, { r.rename v fresh with host? := some { host with temps } })
  | none, _, _ => (v, r)

/-- The label that stands for a label in the copy. -/
def renamedLabel (r : Renaming) (l : Label) : Label × Renaming :=
  match r.labels.lookup l, r.host? with
  | some k, _ => (k, r)
  | none, some host =>
    let fresh := host.nextLabel
    (fresh, { r with
      labels := (l, fresh) :: r.labels
      host? := some { host with nextLabel := fresh.next } })
  | none, none => (l, r)

/-- The counts that the host needs for the code copied so far. -/
def hostTemps? (r : Renaming) : Option TempCounts := r.host?.map Host.temps

end Renaming

/-- Copying assigns names as it meets variables and labels. -/
abbrev Copying := EStateM EditError Renaming

/-- The copy of an operand that is not an array. -/
def OperandOf.copiedLeaf : Operand → Copying Operand
  | .var v => return .var (← modifyGet (·.renamed v))
  | .body b => throw (.bodyOperand b.name)
  | o => return o

def OperandOf.copied (o : Operand) : Copying Operand := o.traverse copiedLeaf

def InstrOf.copied (i : Instr) : Copying Instr :=
  i.traverse (fun v => modifyGet (·.renamed v)) OperandOf.copied
    (fun l => modifyGet (·.renamedLabel l))

/-- The instructions under one renaming, from the first to the last. -/
def copyCode (code : List Instr) : Copying (List Instr) := code.mapM InstrOf.copied

def InstrOf.withResult (i : Instr) (v : Variable) : Except EditError Instr :=
  match i.result? with
  | none => .error (.noResult i.operation)
  | some _ => .ok (Id.run (i.traverse (fun _ => pure v) pure pure))

end ObjectIr
