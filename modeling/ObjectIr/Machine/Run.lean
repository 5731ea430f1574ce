import ObjectIr.Machine.Execution

/-!
# Runs

A machine runs the innermost of a stack of activations, whose callers each wait for a value. One
`step` carries out an instruction, or lets an activation that has ended leave the stacks and hands
its end to its caller. A run goes on until the outermost activation has left, and comes to a
`Result`; `run` stops early when its fuel is used up.
-/

namespace ObjectIr

/-- An activation that waits for the value of a variable. -/
structure Caller where
  activation : Activation
  result : Variable

inductive Control where
  | running (a : Activation)
  /-- The activation has ended, and is still on the stacks. -/
  | leaving (a : Activation) (ending : Except Unwind Value)
  | finished (outcome : Except Failure Value)

structure Machine where
  heap : Heap
  context : Context
  control : Control
  /-- The waiting activations, innermost first. -/
  callers : List Caller

structure Result where
  heap : Heap
  context : Context
  outcome : Except Failure Value

namespace Machine

/-- The machine at a site, under the callers. -/
def runningAt (s : Site) (callers : List Caller) : Machine :=
  ⟨s.heap, s.context, .running s.activation, callers⟩

/-- The machine as the activation at a site ends. -/
def leavingAt (s : Site) (r : Except Unwind Value) (callers : List Caller) : Machine :=
  ⟨s.heap, s.context, .leaving s.activation r, callers⟩

/-- Follows what an instruction led to. -/
def follow (limit : Nat) (callers : List Caller) : EStateM.Result Failure Site Outcome → Machine
  | .error f s => leavingAt s (.error (.failure f)) callers
  | .ok .next s => .runningAt s callers
  | .ok (.complete v) s => leavingAt s (.ok v) callers
  | .ok (.return target v) s => leavingAt s (.error (.return target v)) callers
  | .ok (.call result i) s =>
    match enter limit s.heap s.context i with
    | .ok callee => .runningAt callee (⟨s.activation, result⟩ :: callers)
    | .error f => leavingAt s (.error (.failure f)) callers

/-- Hands the end of an activation that has left to its caller. -/
def resume (h : Heap) (c : Context) (r : Except Unwind Value) : List Caller → Machine
  | [] => ⟨h, c, .finished (r.mapError Unwind.toFailure), []⟩
  | caller :: callers =>
    let s : Site := ⟨h, c, caller.activation⟩
    match r with
    | .error u => leavingAt s (.error u) callers
    | .ok v =>
      match s.store caller.result v with
      | .ok s => .runningAt s callers
      | .error f => leavingAt s (.error (.failure f)) callers

/-- Past its last instruction, a body completes with nil. -/
def step (limit : Nat) (m : Machine) : Machine :=
  match m.control with
  | .finished _ => m
  | .leaving a r => resume m.heap (leave a.body m.context) (a.settle r) m.callers
  | .running a =>
    match a.body.code[a.pc]? with
    | none => { m with control := .leaving a (.ok .nil) }
    | some i =>
      follow limit m.callers (i.execute.run ⟨m.heap, m.context, { a with pc := a.pc + 1 }⟩)

def result? (m : Machine) : Option Result :=
  match m.control with
  | .finished r => some ⟨m.heap, m.context, r⟩
  | _ => none

/-- At most `fuel` steps; none when they do not suffice. -/
def run (limit : Nat) : Nat → Machine → Option Result
  | 0, m => m.result?
  | fuel + 1, m =>
    match m.result? with
    | some r => some r
    | none => run limit fuel (m.step limit)

def start (limit : Nat) (h : Heap) (c : Context) (i : Invocation) : Machine :=
  match enter limit h c i with
  | .ok s => .runningAt s []
  | .error f => ⟨h, c, .finished (.error f), []⟩

/-- The machine that waits for a reply. -/
def awaiting (limit : Nat) (h : Heap) (c : Context) : Except Failure (Reply × Heap) → Machine
  | .error f => ⟨h, c, .finished (.error f), []⟩
  | .ok (.value v, h) => ⟨h, c, .finished (.ok v), []⟩
  | .ok (.invoke i, h) => start limit h c i

end Machine

/-! ### Entries from outside -/

section Entries

variable (limit : Nat) (h : Heap) (c : Context)

/-- Runs a body as a script on the main object. -/
def Body.start (b : Body) : Machine := .start limit h c b.scriptInvocation

/-- Calls a method on a receiver, as from outside of it. -/
def Value.send (receiver : Value) (name : String) (args : List Value) : Machine :=
  .awaiting limit h c (h.dispatch c receiver name args none .normal)

def Method.call (m : Method) (receiver : Value) (name : String) (args : List Value)
    (block? : Option Block) : Machine :=
  match m.invocation c receiver name args block? with
  | .ok i => .start limit h c i
  | .error f => ⟨h, c, .finished (.error f), []⟩

def BlockOf.call (b : Block) (args : List Value) : Machine :=
  .start limit h c (b.invocation args)

end Entries

end ObjectIr
