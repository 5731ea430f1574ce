import ObjectIr.Heap.Lookup
import ObjectIr.Machine.Activation

/-!
# Reading and storing

`evaluate` gives the value of an operand at a site. It changes nothing there; all that it draws on
is the supply of numbers for arrays, because an array operand is a new array at each read. `store`
sets a variable to a value.
-/

namespace ObjectIr

/-- Evaluation. Its state is the number that the next array gets. -/
abbrev Reading := EStateM Failure Nat

namespace Site

def load (s : Site) : Variable → Except Failure Value
  | .temp t =>
    match s.activation.temps.get? t with
    | some v => .ok v
    | none => .error (.internal (.outsideTemps t))
  | .lexical _ depth offset =>
    match s.activation.footing.locate? depth with
    | some (scope, depth) => s.heap.readLocal scope depth offset
    | none => .error (.internal (.noScope s.activation.body.name depth))

def store (s : Site) (v : Variable) (value : Value) : Except Failure Site :=
  match v with
  | .temp t => do
    let temps ← s.activation.temps.set t value
    return { s with activation := { s.activation with temps } }
  | .lexical _ depth offset =>
    match s.activation.footing.locate? depth with
    | some (scope, depth) => do
      let heap ← s.heap.writeLocal scope depth offset value
      return { s with heap }
    | none => .error (.internal (.noScope s.activation.body.name depth))

def frame (s : Site) : Except Failure Frame :=
  match s.context.currentFrame? with
  | some f => .ok f
  | none => .error (.internal .noFrame)

/-- The module bound around the code, or else the one that the frame implements. -/
def scopeModule (s : Site) : Except Failure Module :=
  match s.heap.lexicalModule? s.activation.body.scope with
  | some m => .ok m
  | none => return (← s.frame).module

mutual

def evaluate (s : Site) : Operand → Reading Value
  | .var v => ofExcept (s.load v)
  | .selfObject => return s.activation.receiver
  | .nil => return .nil
  | .bool b => return .bool b
  | .fixnum n => return .fixnum n
  | .float x => return .float x
  | .string s => return .string s
  | .symbol name => return .symbol name
  | .array elements => do
    let values ← s.evaluateAll elements
    let id ← getModify (· + 1)
    return .array id values
  | .scopeModule => return .module (← ofExcept s.scopeModule)
  | .undefined => throw (.internal .undefinedOperand)
  | .body b => throw (.internal (.bodyOperand b.name))

def evaluateAll (s : Site) : List Operand → Reading (List Value)
  | [] => return []
  | o :: os => do
    let v ← s.evaluate o
    let vs ← s.evaluateAll os
    return v :: vs

end

end Site

end ObjectIr
