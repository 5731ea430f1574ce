import ObjectIr.Code.Body

/-!
# Listings

The written form of instructions and bodies. A listing opens with a line on the body and goes on
with one numbered line per instruction; a row gives the parts of an instruction one by one.
-/

namespace ObjectIr

def OperandOf.written (o : Operand) : String := o.text Body.name

/-- Operands between brackets. -/
def writtenList (os : List Operand) : String := Text.bracketed (os.map OperandOf.written)

/-- Operands in a row, a space between them. -/
def writtenRow (os : List Operand) : String := " ".intercalate (os.map OperandOf.written)

/-- An instruction without the variable it sets. -/
def InstrOf.action (i : Instr) : String :=
  match i with
  | .copy _ source => Text.applied i.operation [source.written]
  | .receiveArg _ index => Text.applied i.operation [toString index]
  | .receiveBlock _ => i.operation
  | .intMath _ op lhs rhs | .floatMath _ op lhs rhs =>
    Text.applied i.operation [op.text, lhs.written, rhs.written]
  | .label l => l.text ++ ":"
  | .jump l => Text.applied i.operation [l.text]
  | .branchFalse condition l => Text.applied i.operation [condition.written, l.text]
  | .call _ receiver name args block type =>
    let op := match type with
      | .normal => "call"
      | .functional => "fcall"
    Text.applied op ([name, receiver.written, writtenList args] ++
      (block.map fun o => "&" ++ o.written).toList)
  | .defineMethod name body => Text.applied i.operation [name, (OperandOf.body body).written]
  | .defineClass _ body container superclass =>
    Text.applied i.operation [body.name, container.written, superclass.written, body.file]
  | .processModuleBody _ method => Text.applied i.operation [method.written]
  | .setVisibility v => Text.applied i.operation [v.text]
  | .putConst container name value =>
    Text.applied i.operation [container.written, name, value.written]
  | .searchConst _ name => Text.applied i.operation [name]
  | .buildClosure _ body => Text.applied i.operation [(OperandOf.body body).written]
  | .yield _ block args => Text.applied i.operation [block.written, writtenList args]
  | .ret value | .nonlocalRet value | .raise value => Text.applied i.operation [value.written]

def InstrOf.written (i : Instr) : String :=
  match i.result? with
  | some r => r.text ++ " = " ++ i.action
  | none => i.action

/-- The instruction as a row: what it does, then its parts, each written out. -/
def InstrOf.row (i : Instr) : List String :=
  match i with
  | .copy r o => ["copy", r.text, o.written]
  | .receiveArg r n => ["receive_arg", r.text, toString n]
  | .receiveBlock r => ["receive_block", r.text]
  | .intMath r op a b => ["int_math", r.text, op.text, a.written, b.written]
  | .floatMath r op a b => ["float_math", r.text, op.text, a.written, b.written]
  | .label l => ["label", l.text]
  | .jump l => ["jump", l.text]
  | .branchFalse c l => ["branch_false", c.written, l.text]
  | .call r receiver name args block type =>
    ["call", r.text, name, receiver.written, writtenRow args,
      (block.map OperandOf.written).getD "-", type.text]
  | .defineMethod name b => ["define_method", name, b.name]
  | .defineClass r b c s => ["define_class", r.text, b.name, c.written, s.written]
  | .processModuleBody r m => ["process_module_body", r.text, m.written]
  | .setVisibility v => ["set_visibility", v.text]
  | .putConst c name o => ["put_const", c.written, name, o.written]
  | .searchConst r name => ["search_const", r.text, name]
  | .buildClosure r b => ["build_closure", r.text, b.name]
  | .yield r b args => ["yield_", r.text, b.written, writtenRow args]
  | .ret o => ["return_", o.written]
  | .nonlocalRet o => ["nonlocal_return", o.written]
  | .raise o => ["raise", o.written]

namespace Body

def heading (b : Body) : String :=
  let slots := TempKind.all.map fun k => k.letter ++ ":" ++ toString (b.temps.get k)
  b.kind.text ++ " " ++ b.name ++ " (" ++ b.file ++ ") temps=[" ++ " ".intercalate slots ++
    "] flags=" ++ b.flags.text ++ "\n"

/-- The heading, then the instructions, each on a line of its own. -/
def listing (b : Body) : String :=
  b.heading ++ String.join (b.code.zipIdx.map fun (i, index) =>
    "  " ++ Text.padded 3 (toString index) ++ ": " ++ i.written ++ "\n")

end Body

end ObjectIr
