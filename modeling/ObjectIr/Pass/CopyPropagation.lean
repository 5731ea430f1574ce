import ObjectIr.Code.Draft
import ObjectIr.Pass.Substitution

/-!
# Copy propagation

Within a straight run of instructions, a temporary that was set to a constant or to another
temporary is read as that constant or temporary. `propagate` carries along what is known
(`Substitution`) and forgets it at labels, where control may enter from elsewhere, and for a
variable that is set. `Body.optimized` is the body whose code went through it.
-/

namespace ObjectIr

namespace Substitution

/-- Drops what mentions a variable that is being set. -/
def forget (values : Substitution) (v : Variable) : Substitution :=
  values.filter fun (w, o) => w != v && o.asVariable? != some v

/-- Constants and temporaries keep their value until they are set. -/
def isStable (o : Operand) : Bool :=
  o.isConstant || (o.asVariable?.map Variable.isTemp).getD false

/-- What is known after an instruction whose operands are simplified already. -/
def after (values : Substitution) (i : Instr) : Substitution :=
  match i.result? with
  | none => values
  | some r =>
    let values := values.forget r
    match i with
    | .copy _ source => if r.isTemp && isStable source then (r, source) :: values else values
    | _ => values

end Substitution

/-- Propagates copies through a list of instructions, given what is known at its start. -/
def propagateFrom (values : Substitution) : List Instr → List Instr
  | [] => []
  | .label l :: is => .label l :: propagateFrom [] is
  | i :: is =>
    let i := i.simplified values true
    i :: propagateFrom (values.after i) is

def propagate (code : List Instr) : List Instr := propagateFrom [] code

def Body.optimized (b : Body) (id : Nat) : Except BuildError Body :=
  b.withCode (propagate b.code) id

end ObjectIr
