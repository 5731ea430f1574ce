import ObjectIr.Object.Value

/-!
# Failures

Why running code stops. A `Failure` is an error that the code's caller sees, with its cause;
`message` words the cause, and `text` puts the name of the kind of error before it. An `Unwind` is
a failure, or a non-local return on its way to the activation that owns its target scope.
-/

namespace ObjectIr

inductive NumberClass where
  | integer
  | float
  deriving DecidableEq

def NumberClass.text : NumberClass → String
  | .integer => "Integer"
  | .float => "Float"

/-- A value that is not what its place takes. -/
inductive TypeFault where
  /-- A typed temporary was given something else. -/
  | expects (v : Variable) (kind : TempKind) (got : Value)
  | notCoercible (className : String) (target : NumberClass)
  | notBlock (className : String)
  | notModuleBody (value : Value)
  | notModule (value : Value)
  | noSingleton
  | noContainer
  | notClassConstant (name : String)
  | notModuleConstant (name : String)
  | superclassMismatch (name : String)
  | singletonSuperclass
  | finalSuperclass (name : String)
  | notClass (className : String)

def TempKind.demand : TempKind → String
  | .generic => "a value"
  | .boolean => "a boolean"
  | .fixnum => "an Integer"
  | .float => "a Float"

def TypeFault.message : TypeFault → String
  | .expects v kind got => v.text ++ " expects " ++ kind.demand ++ ", got " ++ got.text
  | .notCoercible className target => className ++ " can't be coerced into " ++ target.text
  | .notBlock className => "wrong argument type " ++ className ++ " (expected Proc)"
  | .notModuleBody value => value.text ++ " is not a module body"
  | .notModule value => value.text ++ " is not a class/module"
  | .noSingleton => "can't define singleton"
  | .noContainer => "no outer class/module"
  | .notClassConstant name => name ++ " is not a class"
  | .notModuleConstant name => name ++ " is not a module"
  | .superclassMismatch name => "superclass mismatch for class " ++ name
  | .singletonSuperclass => "can't make subclass of singleton class"
  | .finalSuperclass name => "can't make subclass of " ++ name
  | .notClass className => "superclass must be a Class (" ++ className ++ " given)"

/-- Code that does not make sense where it stands. -/
inductive InternalFault where
  | outsideTemps (t : Temp)
  | undefinedJump (l : Label)
  | noScope (body : String) (depth : Nat)
  | noSlot (depth offset : Nat)
  | undefinedOperand
  | bodyOperand (body : String)
  | noFrame
  | notModuleBody (body : String) (kind : BodyKind)
  deriving DecidableEq

def InternalFault.message : InternalFault → String
  | .outsideTemps t => t.text ++ " is outside the declared temporaries"
  | .undefinedJump l => "jump to undefined label " ++ l.text
  | .noScope body depth => body ++ " has no scope for locals at depth " ++ toString depth
  | .noSlot depth offset =>
    "no local slot at depth " ++ toString depth ++ " offset " ++ toString offset
  | .undefinedOperand => "read of an undefined operand"
  | .bodyOperand body => "compiled body " ++ body ++ " is not a value"
  | .noFrame => "interpreting without a frame"
  | .notModuleBody body kind =>
    body ++ " is a " ++ kind.text ++ " body, not a class body"

/-- A call that no method answers, with what the receiver is called. -/
inductive MissingMethod where
  | undefined (name receiver : String)
  | hidden (name receiver : String)
  deriving DecidableEq

def MissingMethod.name : MissingMethod → String
  | .undefined name _ | .hidden name _ => name

def MissingMethod.message : MissingMethod → String
  | .undefined name receiver => "undefined method '" ++ name ++ "' for " ++ receiver
  | .hidden name receiver => "private method '" ++ name ++ "' called for " ++ receiver

/-- A jump out of a block, or into one, that has no destination. -/
inductive JumpFault where
  | noBlock
  | unexpectedReturn
  deriving DecidableEq

def JumpFault.message : JumpFault → String
  | .noBlock => "no block given (yield)"
  | .unexpectedReturn => "unexpected return"

inductive Failure where
  | type (fault : TypeFault)
  | name (constant : String)
  | method (missing : MissingMethod)
  | arguments (given expected : Nat)
  | jump (fault : JumpFault)
  | stackOverflow
  | raised (value : Value)
  | internal (fault : InternalFault)

namespace Failure

/-- The kind of error, and what happened. -/
def text : Failure → String
  | .type fault => "TypeError: " ++ fault.message
  | .name constant => "NameError: uninitialized constant " ++ constant
  | .method missing => "NoMethodError: " ++ missing.message
  | .arguments given expected =>
    "ArgumentError: wrong number of arguments (given " ++ toString given ++ ", expected " ++
      toString expected ++ ")"
  | .jump fault => "LocalJumpError: " ++ fault.message
  | .stackOverflow => "SystemStackError: stack level too deep"
  | .raised value => "RuntimeError: " ++ value.text
  | .internal fault => "internal error: " ++ fault.message

/--
What happened, without the kind of error. Missing constants, wrong numbers of arguments and
exhausted stacks are always written in full.
-/
def message : Failure → String
  | .type fault => fault.message
  | .method missing => missing.message
  | .jump fault => fault.message
  | .raised value => value.text
  | .internal fault => fault.message
  | f@(.name _) | f@(.arguments ..) | f@.stackOverflow => f.text

end Failure

/-- How control leaves an activation other than by completing it. -/
inductive Unwind where
  | failure (f : Failure)
  /-- A non-local return to the activation that the scope `target` belongs to. -/
  | return (target : Nat) (value : Value)

/-- What the outermost caller sees: a return that no activation took is a failure. -/
def Unwind.toFailure : Unwind → Failure
  | .failure f => f
  | .return .. => .jump .unexpectedReturn

end ObjectIr
