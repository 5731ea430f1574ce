import ObjectIr.Decimal.Notation
import ObjectIr.Code.Variable
import ObjectIr.Text.Layout
import ObjectIr.Text.Quoted

/-!
# Operands

What an instruction reads: a variable, a constant, an array of operands, or a word with a meaning
of its own (`self`, the module of the lexical position, the mark of an absent operand). Operands
are given over a type `β` of handles to bodies, since bodies are made of instructions in turn.
-/

namespace ObjectIr

/-- A string object: which one it is, and what it says. Every read of a literal is one object. -/
structure StringObject where
  id : Nat
  content : String
  deriving DecidableEq

inductive OperandOf (β : Type) where
  | var (v : Variable)
  | selfObject
  | nil
  | bool (b : Bool)
  | fixnum (n : Int64)
  | float (x : Double)
  | string (s : StringObject)
  | symbol (name : String)
  | array (elements : List (OperandOf β))
  | scopeModule
  | undefined
  | body (b : β)

namespace OperandOf

variable {β : Type}

def asVariable? : OperandOf β → Option Variable
  | .var v => some v
  | _ => none

mutual

/-- Whether the operand has a value of its own, whatever the state. -/
def isConstant : OperandOf β → Bool
  | .nil | .bool _ | .fixnum _ | .float _ | .string _ | .symbol _ => true
  | .array elements => allConstant elements
  | .var _ | .selfObject | .scopeModule | .undefined | .body _ => false

def allConstant : List (OperandOf β) → Bool
  | [] => true
  | o :: os => isConstant o && allConstant os

end

mutual

/-- The variables read, arrays from left to right. -/
def reads : OperandOf β → List Variable
  | .var v => [v]
  | .array elements => readsAll elements
  | _ => []

def readsAll : List (OperandOf β) → List Variable
  | [] => []
  | o :: os => reads o ++ readsAll os

end

section Traversal

variable {m : Type → Type} [Monad m]

mutual

/-- Replaces each operand that is not an array, from left to right. -/
def traverse (leaf : OperandOf β → m (OperandOf β)) : OperandOf β → m (OperandOf β)
  | .array elements => do return .array (← traverseAll leaf elements)
  | .var v => leaf (.var v)
  | .selfObject => leaf .selfObject
  | .nil => leaf .nil
  | .bool b => leaf (.bool b)
  | .fixnum n => leaf (.fixnum n)
  | .float x => leaf (.float x)
  | .string s => leaf (.string s)
  | .symbol s => leaf (.symbol s)
  | .scopeModule => leaf .scopeModule
  | .undefined => leaf .undefined
  | .body b => leaf (.body b)

def traverseAll (leaf : OperandOf β → m (OperandOf β)) :
    List (OperandOf β) → m (List (OperandOf β))
  | [] => pure []
  | o :: os => do
    let o ← traverse leaf o
    let os ← traverseAll leaf os
    return o :: os

end

end Traversal

mutual

/-- Equality of content: strings by what they say, floats by their bits. -/
def beq [BEq β] : OperandOf β → OperandOf β → Bool
  | .var v, .var w => v == w
  | .selfObject, .selfObject => true
  | .nil, .nil => true
  | .bool a, .bool b => a == b
  | .fixnum a, .fixnum b => a == b
  | .float a, .float b => a == b
  | .string a, .string b => a.content == b.content
  | .symbol a, .symbol b => a == b
  | .array as, .array bs => beqAll as bs
  | .scopeModule, .scopeModule => true
  | .undefined, .undefined => true
  | .body a, .body b => a == b
  | _, _ => false

def beqAll [BEq β] : List (OperandOf β) → List (OperandOf β) → Bool
  | [], [] => true
  | a :: as, b :: bs => beq a b && beqAll as bs
  | _, _ => false

end

instance [BEq β] : BEq (OperandOf β) := ⟨beq⟩

mutual

/-- The written form; `name` names a body. -/
def text (name : β → String) : OperandOf β → String
  | .var v => v.text
  | .selfObject => "self"
  | .nil => "nil"
  | .bool b => if b then "true" else "false"
  | .fixnum n => toString n.toInt
  | .float x => x.text
  | .string s => Text.quoted s.content
  | .symbol s => ":" ++ s
  | .array elements => Text.bracketed (textAll name elements)
  | .scopeModule => "<module>"
  | .undefined => "undefined"
  | .body b => "<body " ++ name b ++ ">"

def textAll (name : β → String) : List (OperandOf β) → List String
  | [] => []
  | o :: os => text name o :: textAll name os

end

end OperandOf

end ObjectIr
