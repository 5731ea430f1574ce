import ObjectIr.Code.Body

/-!
# Substitution

Replaces variables by what a table says of them, wherever an instruction reads them. Constants
always replace a variable; other operands only when `force` is set. Results are left alone.
-/

namespace ObjectIr

/-- What is known of variables; the first entry of a variable counts. -/
abbrev Substitution := List (Variable × Operand)

namespace Substitution

def lookup? (values : Substitution) (v : Variable) : Option Operand := List.lookup v values

def replace (values : Substitution) (force : Bool) : Operand → Operand
  | .var v =>
    match values.lookup? v with
    | some o => if force || o.isConstant then o else .var v
    | none => .var v
  | o => o

end Substitution

/-- The operand with its variables replaced, inside arrays too. -/
def OperandOf.simplified (o : Operand) (values : Substitution) (force : Bool) : Operand :=
  Id.run (o.traverse fun leaf => pure (values.replace force leaf))

def InstrOf.simplified (i : Instr) (values : Substitution) (force : Bool) : Instr :=
  Id.run (i.traverse pure (fun o => pure (o.simplified values force)) pure)

end ObjectIr
