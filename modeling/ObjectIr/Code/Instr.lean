import ObjectIr.Code.Operand

/-!
# Instructions

The twenty instructions of a body, each with the variable it sets (`result?`), the operands it
reads (`operands`) and the label it may jump to (`target?`). `traverse` rebuilds an instruction
with its result, operands and labels replaced, in the order in which they are listed.
-/

namespace ObjectIr

/-- Labels have numbers of 32 bits. -/
structure Label where
  number : BitVec 32
  deriving DecidableEq

def Label.text (l : Label) : String := "L" ++ toString l.number.toNat

/-- How many numbers there are for labels. -/
def Label.numberRange : Nat := Nat.pow 2 32

/-- The label with the next number. The highest number is followed by zero. -/
def Label.next (l : Label) : Label := ⟨l.number + 1⟩

theorem Label.toNat_next {l : Label} (h : l.number.toNat + 1 < numberRange) :
    l.next.number.toNat = l.number.toNat + 1 := by
  rw [next, BitVec.toNat_add]
  exact Nat.mod_eq_of_lt h

inductive MathOp where
  | add
  | sub
  | mul
  | lt
  | gt
  | eq
  deriving DecidableEq

def MathOp.text : MathOp → String
  | .add => "add"
  | .sub => "sub"
  | .mul => "mul"
  | .lt => "lt"
  | .gt => "gt"
  | .eq => "eq"

/-- A functional call leaves its receiver unsaid, and may reach private methods. -/
inductive CallType where
  | normal
  | functional
  deriving DecidableEq

def CallType.text : CallType → String
  | .normal => "normal"
  | .functional => "functional"

inductive Visibility where
  | «public»
  | «private»
  | «protected»
  deriving DecidableEq

def Visibility.text : Visibility → String
  | .public => "public"
  | .private => "private"
  | .protected => "protected"

inductive InstrOf (β : Type) where
  | copy (result : Variable) (source : OperandOf β)
  | receiveArg (result : Variable) (index : Nat)
  | receiveBlock (result : Variable)
  | intMath (result : Variable) (op : MathOp) (lhs rhs : OperandOf β)
  | floatMath (result : Variable) (op : MathOp) (lhs rhs : OperandOf β)
  | label (l : Label)
  | jump (target : Label)
  | branchFalse (condition : OperandOf β) (target : Label)
  | call (result : Variable) (receiver : OperandOf β) (name : String)
      (args : List (OperandOf β)) (block : Option (OperandOf β)) (type : CallType)
  | defineMethod (name : String) (body : β)
  | defineClass (result : Variable) (body : β) (container superclass : OperandOf β)
  | processModuleBody (result : Variable) (method : OperandOf β)
  | setVisibility (visibility : Visibility)
  | putConst (container : OperandOf β) (name : String) (value : OperandOf β)
  | searchConst (result : Variable) (name : String)
  | buildClosure (result : Variable) (body : β)
  | yield (result : Variable) (block : OperandOf β) (args : List (OperandOf β))
  | ret (value : OperandOf β)
  | nonlocalRet (value : OperandOf β)
  | raise (value : OperandOf β)
  deriving BEq

namespace InstrOf

variable {β : Type}

/-- A call on the implicit receiver is functional. -/
def plainCall (result : Variable) (receiver : OperandOf β) (name : String)
    (args : List (OperandOf β)) (block : Option (OperandOf β)) : InstrOf β :=
  .call result receiver name args block
    (match receiver with
      | .selfObject => .functional
      | _ => .normal)

def operation : InstrOf β → String
  | .copy .. => "copy"
  | .receiveArg .. => "recv_arg"
  | .receiveBlock .. => "recv_block"
  | .intMath .. => "int_math"
  | .floatMath .. => "float_math"
  | .label .. => "label"
  | .jump .. => "jump"
  | .branchFalse .. => "b_false"
  | .call .. => "call"
  | .defineMethod .. => "def_method"
  | .defineClass .. => "def_class"
  | .processModuleBody .. => "process_module_body"
  | .setVisibility .. => "set_visibility"
  | .putConst .. => "put_const"
  | .searchConst .. => "search_const"
  | .buildClosure .. => "build_closure"
  | .yield .. => "yield"
  | .ret .. => "return"
  | .nonlocalRet .. => "nonlocal_return"
  | .raise .. => "raise"

def result? : InstrOf β → Option Variable
  | .copy r _ | .receiveArg r _ | .receiveBlock r | .intMath r .. | .floatMath r ..
  | .call r .. | .defineClass r .. | .processModuleBody r _ | .searchConst r _
  | .buildClosure r _ | .yield r .. => some r
  | .label _ | .jump _ | .branchFalse .. | .defineMethod .. | .setVisibility _ | .putConst ..
  | .ret _ | .nonlocalRet _ | .raise _ => none

/-- The operands read, in the order in which they are evaluated. -/
def operands : InstrOf β → List (OperandOf β)
  | .copy _ source => [source]
  | .intMath _ _ lhs rhs | .floatMath _ _ lhs rhs => [lhs, rhs]
  | .branchFalse condition _ => [condition]
  | .call _ receiver _ args block _ => receiver :: args ++ block.toList
  | .defineMethod _ body | .buildClosure _ body => [.body body]
  | .defineClass _ _ container superclass => [container, superclass]
  | .processModuleBody _ method => [method]
  | .putConst container _ value => [container, value]
  | .yield _ block args => block :: args
  | .ret value | .nonlocalRet value | .raise value => [value]
  | .receiveArg .. | .receiveBlock _ | .label _ | .jump _ | .setVisibility _
  | .searchConst .. => []

/-- The variables read or written, the result first. -/
def usedVariables (i : InstrOf β) : List Variable :=
  i.result?.toList ++ i.operands.flatMap OperandOf.reads

def target? : InstrOf β → Option Label
  | .jump l | .branchFalse _ l => some l
  | _ => none

def label? : InstrOf β → Option Label
  | .label l => some l
  | _ => none

section Traversal

variable {m : Type → Type} [Monad m]

/-- Rebuilds an instruction from its result, its operands and its labels, in this order. -/
def traverse (place : Variable → m Variable) (operand : OperandOf β → m (OperandOf β))
    (label : Label → m Label) : InstrOf β → m (InstrOf β)
  | .copy r source => do return .copy (← place r) (← operand source)
  | .receiveArg r index => do return .receiveArg (← place r) index
  | .receiveBlock r => do return .receiveBlock (← place r)
  | .intMath r op lhs rhs => do
    return .intMath (← place r) op (← operand lhs) (← operand rhs)
  | .floatMath r op lhs rhs => do
    return .floatMath (← place r) op (← operand lhs) (← operand rhs)
  | .label l => do return .label (← label l)
  | .jump l => do return .jump (← label l)
  | .branchFalse condition l => do return .branchFalse (← operand condition) (← label l)
  | .call r receiver name args block type => do
    let r ← place r
    let receiver ← operand receiver
    let args ← args.mapM operand
    let block ← match block with
      | some o => do pure (some (← operand o))
      | none => pure none
    return .call r receiver name args block type
  | .defineMethod name body => return .defineMethod name body
  | .defineClass r body container superclass => do
    return .defineClass (← place r) body (← operand container) (← operand superclass)
  | .processModuleBody r method => do
    return .processModuleBody (← place r) (← operand method)
  | .setVisibility v => return .setVisibility v
  | .putConst container name value => do
    return .putConst (← operand container) name (← operand value)
  | .searchConst r name => do return .searchConst (← place r) name
  | .buildClosure r body => do return .buildClosure (← place r) body
  | .yield r block args => do
    return .yield (← place r) (← operand block) (← args.mapM operand)
  | .ret value => do return .ret (← operand value)
  | .nonlocalRet value => do return .nonlocalRet (← operand value)
  | .raise value => do return .raise (← operand value)

end Traversal

end InstrOf

end ObjectIr
