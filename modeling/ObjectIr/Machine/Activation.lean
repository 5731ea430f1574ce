import ObjectIr.Machine.Context
import ObjectIr.Machine.Temps

/-!
# Activations

An activation is one run of a body. Its `Footing` says which scope stands for it: its own, or its
parent's when the body has none. Static depths count the body's own level in either case, so a
body without a scope reads them one level shorter (`Footing.locate?`), and its closures capture a
bridge, a scope that stands in for the missing level (`Site.captureScope`). `enter` starts an
activation and `leave` takes its scope and frame off the stacks.
-/

namespace ObjectIr

/-- Where an activation keeps and finds locals. -/
inductive Footing where
  | own (scope : DynamicScope)
  /-- In its parent's scope. -/
  | guest (parent : DynamicScope)
  | nowhere

namespace Footing

/-- The innermost scope: the activation's own, or its parent's. -/
def scope? : Footing → Option DynamicScope
  | .own s | .guest s => some s
  | .nowhere => none

/-- The scope from which locals at a static depth are reached, and how far out they are there. -/
def locate? : Footing → Nat → Option (DynamicScope × Nat)
  | .own s, depth => some (s, depth)
  | .guest parent, depth + 1 => some (parent, depth)
  | .guest _, 0 | .nowhere, _ => none

end Footing

structure Activation where
  body : Body
  pc : Nat
  temps : Temps
  args : List Value
  receiver : Value
  footing : Footing
  /-- The scope that closures capture in place of the missing one, once there is a closure. -/
  bridge? : Option DynamicScope := none
  /-- What the activation answers in place of its own value. -/
  answer? : Option Value := none

namespace Activation

/-- Whether a scope stands for this activation. -/
def owns (a : Activation) (target : Nat) : Bool :=
  (match a.footing with
    | .own s => s.id == target
    | _ => false) || a.bridge?.any fun s => s.id == target

/-- A completed activation answers its value, or the one it was started for. -/
def result (a : Activation) (v : Value) : Value := a.answer?.getD v

/-- How the activation ends: it completes when a non-local return aims at it. -/
def settle (a : Activation) : Except Unwind Value → Except Unwind Value
  | .ok v => .ok (a.result v)
  | .error (.return target v) =>
    if a.body.kind.isReturnTarget && a.owns target then .ok (a.result v)
    else .error (.return target v)
  | .error (.failure f) => .error (.failure f)

end Activation

structure Invocation where
  body : Body
  frame : Frame
  parent? : Option DynamicScope
  args : List Value
  answer? : Option Value := none

/-- What an instruction works on: the heap, the stacks and the running activation. -/
structure Site where
  heap : Heap
  context : Context
  activation : Activation

/-- Finds the footing of a new activation, and pushes its scope. -/
def Invocation.settleIn (i : Invocation) (h : Heap) (c : Context) : Footing × Heap × Context :=
  if i.body.pushesScope then
    let (s, h) := h.newScope i.body.scope i.parent?
    (.own s, h, c.pushScope s .allocated)
  else
    match i.parent? with
    | some parent =>
      (.guest parent, h, if i.body.reusesScope then c.pushScope parent .reused else c)
    | none =>
      if i.body.reusesScope then
        let (s, h) := h.newScope i.body.scope none
        (.own s, h, c.pushScope s .allocated)
      else (.nowhere, h, c)

/-- Pushes the frame and the scope of an activation, and puts it at its first instruction. -/
def enter (limit : Nat) (h : Heap) (c : Context) (i : Invocation) : Except Failure Site := do
  let c ← c.pushFrame limit i.frame
  let (footing, heap, context) := i.settleIn h c
  return ⟨heap, context, {
    body := i.body, pc := 0, temps := .init i.body.temps, args := i.args
    receiver := i.frame.receiver, footing, answer? := i.answer? }⟩

/-- Pops what an activation of the body has on the stacks. -/
def leave (b : Body) (c : Context) : Context :=
  (if b.popsScope then c.popScope else c).popFrame

namespace Site

/-- The scope that a closure made here captures. -/
def captureScope (s : Site) : Option DynamicScope × Site :=
  match s.activation.footing, s.activation.bridge? with
  | .own scope, _ => (some scope, s)
  | .guest _, some bridge => (some bridge, s)
  | .guest parent, none =>
    let (bridge, heap) := s.heap.newScope s.activation.body.scope (some parent)
    (some bridge, { s with heap, activation := { s.activation with bridge? := some bridge } })
  | .nowhere, _ => (none, s)

end Site

end ObjectIr
