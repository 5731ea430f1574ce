import ObjectIr.Heap.Basic

/-!
# Lookup

A method is found on the first module of its receiver's `methodPath` that has it: the singleton
class of an object, or those of a module and its superclasses, and then the class of the receiver
and its superclasses. A constant is found on the first module of the `constantPath`: those bound
around the code, then the module being implemented and its superclasses, then `Object`.
-/

namespace ObjectIr.Heap

def singleton? (h : Heap) : Value → Option Module
  | .object o => h.singletons[o.id]?
  | .module m => (h.table m).singleton?
  | _ => none

/-- The singleton classes consulted for a receiver, in order. -/
def singletonPath (h : Heap) : Value → List Module
  | .object o => (h.singleton? (.object o)).toList
  | .module m => m.ancestors.filterMap fun a => h.singleton? (.module a)
  | _ => []

/-- The modules that may answer for a receiver, in order. -/
def methodPath (h : Heap) (receiver : Value) : List Module :=
  h.singletonPath receiver ++ receiver.class.ancestors

def findMethod? (h : Heap) (receiver : Value) (name : String) : Option Method :=
  (h.methodPath receiver).findSome? fun m => h.method? m name

/-- The modules searched for a constant, in order. -/
def constantPath (h : Heap) (s : StaticScope) (m : Module) : List Module :=
  h.lexicalModules s ++ m.ancestors ++ [Core.object]

def searchConstant (h : Heap) (s : StaticScope) (m : Module) (name : String) :
    Except Failure Value :=
  match (h.constantPath s m).findSome? fun n => h.constant? n name with
  | some v => .ok v
  | none => .error (.name name)

end ObjectIr.Heap
