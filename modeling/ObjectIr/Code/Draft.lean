import ObjectIr.Code.Body

/-!
# Drafts

A draft is a body under construction: it hands out temporaries and labels (`temp`, `label`),
resolves the names of locals (`resolve`) and collects instructions (`push`). `build` checks the
draft and makes the body. The checks come in this order: the scope flags, repeated labels, then
instruction by instruction its jump target and its locals, and last the declared numbers of
temporaries.
-/

namespace ObjectIr

/-- Why a draft is no body. -/
inductive BuildError where
  | conflictingScopeFlags
  | duplicateLabel (l : Label)
  | unknownLabel (l : Label)
  | sharedScopeLocal (name : String)
  | localOutOfRange (name : String) (depth offset : Nat)
  | tempOutOfRange (t : Temp) (declared : Nat)
  | unknownLocal (name : String)
  deriving DecidableEq

def BuildError.message : BuildError → String
  | .conflictingScopeFlags =>
    BodyFlag.scopeEliminated.text ++ " and " ++ BodyFlag.reuseParentScope.text ++
      " are mutually exclusive"
  | .duplicateLabel l => "label " ++ l.text ++ " is defined more than once"
  | .unknownLabel l => "jump to undefined label " ++ l.text
  | .sharedScopeLocal name =>
    "local " ++ name ++ " is stored in a body without a scope of its own"
  | .localOutOfRange name depth offset =>
    "local " ++ name ++ " does not exist at depth " ++ toString depth ++ " offset " ++
      toString offset
  | .tempOutOfRange t declared =>
    t.text ++ " is out of range (declared " ++ toString declared ++ ")"
  | .unknownLocal name => "unknown local variable " ++ name

structure Draft where
  name : String
  scope : StaticScope
  file : String := "-"
  flags : BodyFlags := {}
  requiredArgs : Nat := 0
  allocated : TempCounts := {}
  /-- The numbers of temporaries, where they are not derived from use. -/
  declared? : Option TempCounts := none
  nextLabel : Label := ⟨0⟩
  code : List Instr := []

def firstRepeated? {α : Type} [DecidableEq α] : List α → List α → Option α
  | _, [] => none
  | seen, a :: as => if a ∈ seen then some a else firstRepeated? (a :: seen) as

namespace Draft

def temp (d : Draft) (k : TempKind) : Variable × Draft :=
  let (index, allocated) := d.allocated.allocate k
  (.temp ⟨k, index⟩, { d with allocated })

def label (d : Draft) : Label × Draft :=
  (d.nextLabel, { d with nextLabel := d.nextLabel.next })

def push (d : Draft) (i : Instr) : Draft := { d with code := d.code ++ [i] }

/-- The innermost local of that name. -/
def resolve (d : Draft) (name : String) : Except BuildError Variable :=
  match d.scope.locate name with
  | some (depth, offset) => .ok (.lexical name depth offset)
  | none => .error (.unknownLocal name)

/-- No local of its own can be stored. -/
def sharesScope (d : Draft) : Bool :=
  d.flags.has .scopeEliminated || d.flags.has .reuseParentScope

def labels (d : Draft) : List Label := d.code.filterMap InstrOf.label?

def checkTarget (d : Draft) (i : Instr) : Except BuildError Unit :=
  match i.target? with
  | some l => if l ∈ d.labels then .ok () else .error (.unknownLabel l)
  | none => .ok ()

def checkVariable (d : Draft) : Variable → Except BuildError Unit
  | .temp _ => .ok ()
  | .lexical name depth offset =>
    if d.sharesScope && depth == 0 then .error (.sharedScopeLocal name)
    else
      match d.scope.level? depth with
      | some level =>
        if offset < level.locals.length then .ok ()
        else .error (.localOutOfRange name depth offset)
      | none => .error (.localOutOfRange name depth offset)

def checkInstr (d : Draft) (i : Instr) : Except BuildError Unit := do
  d.checkTarget i
  i.usedVariables.forM d.checkVariable

/-- The least counts with room for the temporaries handed out and those in use. -/
def usedTemps (d : Draft) : TempCounts :=
  (d.code.flatMap InstrOf.usedVariables).foldl
    (fun counts v => match v with
      | .temp t => counts.cover t
      | .lexical .. => counts)
    d.allocated

/-- The declared counts, if they have room for the used ones. -/
def temps (d : Draft) : Except BuildError TempCounts :=
  let used := d.usedTemps
  match d.declared? with
  | none => .ok used
  | some declared =>
    match TempKind.all.find? fun k => declared.get k < used.get k with
    | none => .ok declared
    | some k => .error (.tempOutOfRange ⟨k, (used.get k - 1) % Temp.indexRange⟩ (declared.get k))

def check (d : Draft) : Except BuildError Unit := do
  if d.flags.has .scopeEliminated && d.flags.has .reuseParentScope then
    throw .conflictingScopeFlags
  match firstRepeated? [] d.labels with
  | some l => throw (.duplicateLabel l)
  | none => d.code.forM d.checkInstr

/-- The body that the draft describes, under the number `id`. -/
def build (d : Draft) (id : Nat) : Except BuildError Body := do
  d.check
  let temps ← d.temps
  return {
    id, name := d.name, file := d.file, scope := d.scope, flags := d.flags
    requiredArgs := d.requiredArgs, temps, code := d.code }

end Draft

/-- The body with other instructions, checked again; its temporaries are derived from use. -/
def Body.withCode (b : Body) (code : List Instr) (id : Nat) : Except BuildError Body :=
  Draft.build
    { name := b.name, scope := b.scope, file := b.file, flags := b.flags
      requiredArgs := b.requiredArgs, code } id

end ObjectIr
