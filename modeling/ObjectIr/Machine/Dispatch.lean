import ObjectIr.Heap.Definition
import ObjectIr.Machine.Activation

/-!
# Dispatch

A call finds the method of its receiver and starts the body, or is answered at once: every object
has `class` and `singleton_class`, every class `new`, and blocks are called with `call` or `[]`. A
private method answers functional calls only. Methods check how many arguments they are given;
blocks do not.
-/

namespace ObjectIr

/-- What a call comes to: a value at once, or an activation to wait for. -/
inductive Reply where
  | value (v : Value)
  | invoke (i : Invocation)

/-- What a receiver is called in messages. -/
def Value.described : Value → String
  | .module m => m.name
  | .nil => "nil"
  | v => "an instance of " ++ v.class.name

/-- Runs the method's body inside the scope that is current. -/
def Method.invocation (m : Method) (c : Context) (receiver : Value) (name : String)
    (args : List Value) (block? : Option Block) : Except Failure Invocation :=
  let expected := m.parameters.length
  if args.length = expected then
    .ok {
      body := m.body
      frame := ⟨receiver, m.visibility, name, block?, m.module⟩
      parent? := c.currentScope?
      args }
  else .error (.arguments args.length expected)

/-- Runs the block's body inside the scope it captured. -/
def BlockOf.invocation (b : Block) (args : List Value) : Invocation :=
  { body := b.body
    frame := ⟨b.receiver, b.visibility, b.body.name, none, b.module⟩
    parent? := b.scope?
    args }

/-- Runs a script on the main object, outside of any scope. -/
def Body.scriptInvocation (b : Body) : Invocation :=
  { body := b
    frame := ⟨.object Core.mainObject, .private, "<main>", none, Core.object⟩
    parent? := none
    args := [] }

namespace Heap

/-- Makes an object; the call answers it once its `initialize`, if it has one, is through. -/
def instantiate (h : Heap) (c : Context) (m : Module) (args : List Value)
    (block? : Option Block) : Except Failure (Reply × Heap) :=
  let (o, h) := h.newObject m
  match h.findMethod? (.object o) "initialize" with
  | some method => do
    let i ← method.invocation c (.object o) "initialize" args block?
    return (.invoke { i with answer? := some (.object o) }, h)
  | none =>
    if args.isEmpty then .ok (.value (.object o), h) else .error (.arguments args.length 0)

/-- A call for which the receiver has no method. -/
def builtin (h : Heap) (c : Context) (receiver : Value) (name : String) (args : List Value)
    (block? : Option Block) : Except Failure (Reply × Heap) :=
  let undefined := Except.error (.method (.undefined name receiver.described))
  match receiver with
  | .module m =>
    if name = "new" ∧ m.isClass ∧ ¬m.isSingleton then h.instantiate c m args block?
    else reflect undefined
  | .block b => if name = "call" ∨ name = "[]" then .ok (.invoke (b.invocation args), h)
    else reflect undefined
  | _ => reflect undefined
where
  /-- What every object answers. -/
  reflect (undefined : Except Failure (Reply × Heap)) : Except Failure (Reply × Heap) :=
    if name = "class" ∧ args.isEmpty then .ok (.value (.module receiver.class), h)
    else if name = "singleton_class" ∧ args.isEmpty then do
      let (s, h) ← h.singletonClass receiver
      return (.value (.module s), h)
    else undefined

def dispatch (h : Heap) (c : Context) (receiver : Value) (name : String) (args : List Value)
    (block? : Option Block) (type : CallType) : Except Failure (Reply × Heap) :=
  match h.findMethod? receiver name with
  | none => h.builtin c receiver name args block?
  | some method =>
    if method.visibility = .private ∧ type = .normal then
      .error (.method (.hidden name receiver.described))
    else do
      let i ← method.invocation c receiver name args block?
      return (.invoke i, h)

end Heap

end ObjectIr
