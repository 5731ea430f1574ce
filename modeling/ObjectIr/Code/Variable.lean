import ObjectIr.Code.Temp

/-!
# Variables

A variable is a place that instructions read and write: a temporary of the running body, or a
local of the body or of one around it, addressed by how many levels out it lives and its position
there.
-/

namespace ObjectIr

inductive Variable where
  | temp (t : Temp)
  | lexical (name : String) (depth offset : Nat)
  deriving DecidableEq

namespace Variable

def isTemp : Variable → Bool
  | .temp _ => true
  | .lexical .. => false

def text : Variable → String
  | .temp t => t.text
  | .lexical name depth offset =>
    name ++ "(" ++ toString depth ++ ":" ++ toString offset ++ ")"

end Variable

end ObjectIr
