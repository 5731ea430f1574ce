import ObjectIr.Code.Body

/-!
# What code refers to

`Body.nested` lists the bodies that the instructions of a body define, each followed by its own
nested bodies. `usedVariables` lists the variables of a code without repetition, by first use.
-/

namespace ObjectIr

mutual

/-- The bodies below `b`, depth first. -/
def Body.nested : Body → List Body
  | ⟨_, _, _, _, _, _, _, code⟩ => nestedIn code

def nestedIn : List (InstrOf Body) → List Body
  | [] => []
  | i :: is => nestedAt i ++ nestedIn is

def nestedAt : InstrOf Body → List Body
  | .defineMethod _ b | .defineClass _ b .. | .buildClosure _ b => b :: b.nested
  | _ => []

end

/-- The distinct variables read or written, in the order of their first use. -/
def usedVariables (code : List Instr) : List Variable :=
  (code.flatMap InstrOf.usedVariables).foldl
    (fun seen v => if v ∈ seen then seen else seen ++ [v]) []

end ObjectIr
