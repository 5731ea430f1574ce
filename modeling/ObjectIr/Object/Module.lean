/-!
# Modules

Modules, classes and singleton classes. What is fixed at their creation is part of the value:
which one it is, its name and its superclass. What changes (methods, constants) is kept on the
heap under its number. The chain of superclasses is finite by construction (`ancestors`).
-/

namespace ObjectIr

inductive ModuleKind where
  | module
  /-- A class without a superclass. -/
  | class (inheritable : Bool)
  /-- Holds the methods of a single object or module. -/
  | singleton
  deriving DecidableEq

inductive Module where
  | root (id : Nat) (name : String) (kind : ModuleKind)
  | subclass (id : Nat) (name : String) (inheritable : Bool) (superclass : Module)
  deriving DecidableEq

namespace Module

def id : Module → Nat
  | .root id _ _ => id
  | .subclass id _ _ _ => id

def name : Module → String
  | .root _ name _ => name
  | .subclass _ name _ _ => name

/-- Singleton classes are classes too. -/
def isClass : Module → Bool
  | .root _ _ .module => false
  | _ => true

def isSingleton : Module → Bool
  | .root _ _ .singleton => true
  | _ => false

/-- Whether classes may be derived from it. -/
def isInheritable : Module → Bool
  | .root _ _ (.class inheritable) => inheritable
  | .subclass _ _ inheritable _ => inheritable
  | _ => false

def superclass? : Module → Option Module
  | .root .. => none
  | .subclass _ _ _ superclass => some superclass

/-- The module itself, then its superclasses up to the last. -/
def ancestors : Module → List Module
  | m@(.root ..) => [m]
  | m@(.subclass _ _ _ superclass) => m :: superclass.ancestors

theorem self_mem_ancestors (m : Module) : m ∈ m.ancestors := by
  cases m <;> simp [ancestors]

end Module

end ObjectIr
