/-!
# Body flags

What the compiler found out about a body. Two flags decide where its locals live, and exclude each
other; the rest are carried along. As a number, the flags are bits in the order of `BodyFlag.all`.
-/

namespace ObjectIr

inductive BodyFlag where
  /-- Runs inside the scope it was called or captured in. -/
  | reuseParentScope
  /-- Has no scope at all. -/
  | scopeEliminated
  | hasNonlocalReturns
  | receivesClosureArg
  | canCaptureCallersBinding
  | requiresFrame
  deriving DecidableEq

namespace BodyFlag

def all : List BodyFlag :=
  [.reuseParentScope, .scopeEliminated, .hasNonlocalReturns, .receivesClosureArg,
    .canCaptureCallersBinding, .requiresFrame]

def text : BodyFlag → String
  | .reuseParentScope => "REUSE_PARENT_SCOPE"
  | .scopeEliminated => "SCOPE_ELIMINATED"
  | .hasNonlocalReturns => "HAS_NONLOCAL_RETURNS"
  | .receivesClosureArg => "RECEIVES_CLOSURE_ARG"
  | .canCaptureCallersBinding => "CAN_CAPTURE_CALLERS_BINDING"
  | .requiresFrame => "REQUIRES_FRAME"

end BodyFlag

/-- The flags that are set; order and repetition mean nothing. -/
structure BodyFlags where
  set : List BodyFlag := []

namespace BodyFlags

def has (f : BodyFlags) (flag : BodyFlag) : Bool := f.set.contains flag

/-- The flags in order, each once. -/
def sorted (f : BodyFlags) : List BodyFlag := BodyFlag.all.filter f.has

def bits (f : BodyFlags) : Nat :=
  BodyFlag.all.foldr (fun flag n => (if f.has flag then 1 else 0) + 2 * n) 0

def text (f : BodyFlags) : String :=
  match f.sorted with
  | [] => "BodyFlags(0x0)"
  | flags => "BodyFlags(" ++ " | ".intercalate (flags.map BodyFlag.text) ++ ")"

end BodyFlags

end ObjectIr
