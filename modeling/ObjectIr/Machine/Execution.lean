import ObjectIr.Machine.Dispatch
import ObjectIr.Machine.Reading

/-!
# Execution of instructions

`Instr.execute` carries out one instruction at a site and says what comes next. What an
instruction did before it failed stays done.
-/

namespace ObjectIr

inductive Outcome where
  | next
  /-- Wait for an activation, and set a variable to what it answers. -/
  | call (result : Variable) (i : Invocation)
  | complete (v : Value)
  /-- A non-local return to the scope `target`. -/
  | return (target : Nat) (v : Value)

/-- Execution. Its state is the site, which a failure leaves as it was by then. -/
abbrev Exec := EStateM Failure Site

namespace Exec

/-- Reads at the site. All that this can change is the supply of numbers for arrays. -/
def reading {α : Type} (read : Site → Reading α) : Exec α := fun s =>
  match (read s).run s.heap.next.arrays with
  | .ok a n => .ok a { s with heap.next.arrays := n }
  | .error f n => .error f { s with heap.next.arrays := n }

def value (o : Operand) : Exec Value := reading fun s => s.evaluate o

def values (os : List Operand) : Exec (List Value) := reading fun s => s.evaluateAll os

def store (v : Variable) (value : Value) : Exec Unit := do set (← ofExcept ((← get).store v value))

/-- Carries out a change of the heap. -/
def change {α : Type} (f : Heap → α × Heap) : Exec α := do
  let s ← get
  let (a, heap) := f s.heap
  set { s with heap }
  return a

/-- Carries out a change of the heap that may be refused, and then changes nothing. -/
def attempt {α : Type} (f : Heap → Except Failure (α × Heap)) : Exec α := do
  let s ← get
  let (a, heap) ← ofExcept (f s.heap)
  set { s with heap }
  return a

def frame : Exec Frame := do ofExcept (← get).frame

def goTo (l : Label) : Exec Unit := do
  match (← get).activation.body.labelIndex? l with
  | some index => modify fun s => { s with activation.pc := index }
  | none => throw (.internal (.undefinedJump l))

def fixnum (o : Operand) : Exec Int64 := do
  let v ← value o
  match v with
  | .fixnum n => return n
  | _ => throw (.type (.notCoercible v.class.name .integer))

/-- Fixnums stand for the nearest float. -/
def float (o : Operand) : Exec Double := do
  let v ← value o
  match v with
  | .float x => return x
  | .fixnum n => return .ofInt64 n
  | _ => throw (.type (.notCoercible v.class.name .float))

/-- The block of a call: nil is none. -/
def block? (o : Operand) : Exec (Option Block) := do
  let v ← value o
  match v with
  | .block b => return some b
  | .nil => return none
  | _ => throw (.type (.notBlock v.class.name))

def yielded (o : Operand) : Exec Block := do
  match ← block? o with
  | some b => return b
  | none => throw (.jump .noBlock)

/-- The superclass of a definition, which may name none. -/
def superclass? (o : Operand) : Exec (Option Value) :=
  match o with
  | .undefined => return none
  | o => some <$> value o

/-- Stores what a call answers at once, or waits for it. -/
def await (result : Variable) : Reply → Exec Outcome
  | .value v => do
    store result v
    return .next
  | .invoke i => return .call result i

end Exec

/-- Fixnum arithmetic wraps around. -/
def MathOp.onFixnums (op : MathOp) (a b : Int64) : Value :=
  match op with
  | .add => .fixnum (a + b)
  | .sub => .fixnum (a - b)
  | .mul => .fixnum (a * b)
  | .lt => .bool (a < b)
  | .gt => .bool (b < a)
  | .eq => .bool (a == b)

def MathOp.onFloats (op : MathOp) (a b : Double) : Value :=
  match op with
  | .add => .float (a.add b)
  | .sub => .float (a.sub b)
  | .mul => .float (a.mul b)
  | .lt => .bool (a.lt b)
  | .gt => .bool (b.lt a)
  | .eq => .bool (a.numEq b)

open Exec in
def InstrOf.execute : Instr → Exec Outcome
  | .copy r source => do
    store r (← value source)
    return .next
  | .receiveArg r index => do
    store r ((← get).activation.args.getD index .nil)
    return .next
  | .receiveBlock r => do
    store r ((← frame).block?.elim .nil .block)
    return .next
  | .intMath r op lhs rhs => do
    let a ← fixnum lhs
    let b ← fixnum rhs
    store r (op.onFixnums a b)
    return .next
  | .floatMath r op lhs rhs => do
    let a ← float lhs
    let b ← float rhs
    store r (op.onFloats a b)
    return .next
  | .label _ => return .next
  | .jump l => do
    goTo l
    return .next
  | .branchFalse condition l => do
    unless (← value condition).isTruthy do goTo l
    return .next
  | .call r receiver name args block type => do
    let receiver ← value receiver
    let args ← values args
    let block? ← match block with
      | some o => block? o
      | none => pure none
    let context := (← get).context
    await r (← attempt fun h => h.dispatch context receiver name args block? type)
  | .defineMethod name body => do
    let f ← frame
    let method ← change fun h => h.newMethod body f.visibility f.module
    change fun h => ((), h.addMethod f.module name method)
    return .next
  | .defineClass r body container superclass => do
    let container ← value container
    let superclass? ←
      if Heap.asksSuperclass body container then superclass? superclass else pure none
    store r (.method (← attempt fun h => h.define body container superclass?))
    return .next
  | .processModuleBody r method => do
    let v ← value method
    match v with
    | .method m =>
      let context := (← get).context
      return .call r (← ofExcept (m.invocation context (.module m.module) m.body.name [] none))
    | _ => throw (.type (.notModuleBody v))
  | .setVisibility v => do
    match (← get).context.setVisibility? v with
    | some context => modify fun s => { s with context }
    | none => throw (.internal .noFrame)
    return .next
  | .putConst container name o => do
    let v ← value container
    match v with
    | .module m =>
      let v ← value o
      change fun h => ((), h.setConstant m name v)
      return .next
    | _ => throw (.type (.notModule v))
  | .searchConst r name => do
    let m := (← frame).module
    let s ← get
    store r (← ofExcept (s.heap.searchConstant s.activation.body.scope m name))
    return .next
  | .buildClosure r body => do
    let f ← frame
    let (scope?, s) := (← get).captureScope
    set s
    let b ← change fun h => h.newBlock body s.activation.receiver scope? f.module f.visibility
    store r (.block b)
    return .next
  | .yield r block args => do
    let b ← yielded block
    let args ← values args
    return .call r (b.invocation args)
  | .ret o => return .complete (← value o)
  | .nonlocalRet o => do
    let v ← value o
    let a := (← get).activation
    if a.body.kind.isReturnTarget then return .complete v
    match a.footing.scope?.bind DynamicScope.returnTarget? with
    | some target => return .return target.id v
    | none => throw (.jump .unexpectedReturn)
  | .raise o => do throw (.raised (← value o))

end ObjectIr
