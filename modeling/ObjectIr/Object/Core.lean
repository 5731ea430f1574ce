import ObjectIr.Object.Value

/-!
# Core classes

The classes that are there before any code runs, numbered from zero, the object that scripts run
on (`mainObject`), and the class of every value (`Value.class`).
-/

namespace ObjectIr.Core

def basicObject : Module := .root 0 "BasicObject" (.class true)

def object : Module := .subclass 1 "Object" true basicObject

def module : Module := .subclass 2 "Module" true object

def «class» : Module := .subclass 3 "Class" false module

def integer : Module := .subclass 4 "Integer" false object

def float : Module := .subclass 5 "Float" false object

def string : Module := .subclass 6 "String" true object

def symbol : Module := .subclass 7 "Symbol" false object

def nilClass : Module := .subclass 8 "NilClass" false object

def trueClass : Module := .subclass 9 "TrueClass" false object

def falseClass : Module := .subclass 10 "FalseClass" false object

def array : Module := .subclass 11 "Array" true object

def block : Module := .subclass 12 "Proc" true object

def method : Module := .subclass 13 "Method" true object

/-- All of them, each at the position of its number. -/
def all : List Module :=
  [basicObject, object, module, «class», integer, float, string, symbol, nilClass, trueClass,
    falseClass, array, block, method]

/-- The `self` of scripts. -/
def mainObject : Object := ⟨0, object⟩

end ObjectIr.Core

namespace ObjectIr

/-- The class of a value, singleton classes aside. -/
def Value.class : Value → Module
  | .nil => Core.nilClass
  | .bool true => Core.trueClass
  | .bool false => Core.falseClass
  | .fixnum _ => Core.integer
  | .float _ => Core.float
  | .string _ => Core.string
  | .symbol _ => Core.symbol
  | .array .. => Core.array
  | .object o => o.class
  | .module m => if m.isClass then Core.class else Core.module
  | .method _ => Core.method
  | .block _ => Core.block

end ObjectIr
