import ObjectIr.Code.Body
import ObjectIr.Object.Module
import ObjectIr.Object.Scope

/-!
# Values

What running code computes with. Objects, modules, methods, blocks, arrays and strings have an
identity, a number that no other value of the kind carries; the rest are what they say. Two values
are `identical` when they are one and the same, and equal (`beq`) when numbers agree numerically,
strings and arrays in content, and everything else is identical.
-/

namespace ObjectIr

/-- An instance. It has no state beyond its class. -/
structure Object where
  id : Nat
  «class» : Module
  deriving DecidableEq

/-- A body bound to the module it was defined in. -/
structure Method where
  id : Nat
  body : Body
  visibility : Visibility
  module : Module

/-- A body with the `self`, scope, module and visibility it was made under. -/
structure BlockOf (α : Type) where
  id : Nat
  body : Body
  receiver : α
  scope? : Option DynamicScope
  module : Module
  visibility : Visibility

inductive Value where
  | nil
  | bool (b : Bool)
  | fixnum (n : Int64)
  | float (x : Double)
  | string (s : StringObject)
  | symbol (name : String)
  | array (id : Nat) (elements : List Value)
  | object (o : Object)
  | module (m : Module)
  | method (m : Method)
  | block (b : BlockOf Value)

abbrev Block := BlockOf Value

instance : Inhabited Value := ⟨.nil⟩

def Method.parameters (m : Method) : List String := m.body.parameters

namespace Value

def isTruthy : Value → Bool
  | .nil | .bool false => false
  | _ => true

def isNil : Value → Bool
  | .nil => true
  | _ => false

def fixnum? : Value → Option Int64
  | .fixnum n => some n
  | _ => none

def module? : Value → Option Module
  | .module m => some m
  | _ => none

def method? : Value → Option Method
  | .method m => some m
  | _ => none

def block? : Value → Option Block
  | .block b => some b
  | _ => none

def identical : Value → Value → Bool
  | .nil, .nil => true
  | .bool a, .bool b => a == b
  | .fixnum a, .fixnum b => a == b
  | .float a, .float b => a == b
  | .string a, .string b => a.id == b.id
  | .symbol a, .symbol b => a == b
  | .array a _, .array b _ => a == b
  | .object a, .object b => a == b
  | .module a, .module b => a == b
  | .method a, .method b => a.id == b.id
  | .block a, .block b => a.id == b.id
  | _, _ => false

mutual

def beq : Value → Value → Bool
  | .float a, .float b => a.numEq b
  | .string a, .string b => a.content == b.content
  | .array _ as, .array _ bs => beqAll as bs
  | a, b => a.identical b

def beqAll : List Value → List Value → Bool
  | [], [] => true
  | a :: as, b :: bs => beq a b && beqAll as bs
  | _, _ => false

end

mutual

def text : Value → String
  | .nil => "nil"
  | .bool b => if b then "true" else "false"
  | .fixnum n => toString n.toInt
  | .float x => x.text
  | .string s => Text.quoted s.content
  | .symbol s => ":" ++ s
  | .array _ elements => Text.bracketed (textAll elements)
  | .object o => "#<" ++ o.class.name ++ ">"
  | .module m => m.name
  | .method m => "#<Method: " ++ m.module.name ++ "#" ++ m.body.name ++ ">"
  | .block b => "#<Proc: " ++ b.body.name ++ ">"

def textAll : List Value → List String
  | [] => []
  | v :: vs => text v :: textAll vs

end

end Value

end ObjectIr
