import ObjectIr.Object.Failure

/-!
# Temporary slots

The temporaries of one activation, sized when it starts. Slots of a typed kind hold values of
their type only: `set` refuses others, before it looks whether there is such a slot.
-/

namespace ObjectIr

structure Temps where
  generic : Array Value
  boolean : Array Bool
  fixnum : Array Int64
  float : Array Double

namespace Temps

/-- As many slots as counted, filled with nil, false and zeros. -/
def init (c : TempCounts) : Temps :=
  ⟨.replicate c.generic .nil, .replicate c.boolean false, .replicate c.fixnum 0,
    .replicate c.float .zero⟩

def get? (ts : Temps) (t : Temp) : Option Value :=
  match t.kind with
  | .generic => ts.generic[t.index]?
  | .boolean => ts.boolean[t.index]?.map Value.bool
  | .fixnum => ts.fixnum[t.index]?.map Value.fixnum
  | .float => ts.float[t.index]?.map Value.float

def place {α : Type} (slots : Array α) (t : Temp) (a : α) : Except Failure (Array α) :=
  if t.index < slots.size then .ok (slots.setIfInBounds t.index a)
  else .error (.internal (.outsideTemps t))

def set (ts : Temps) (t : Temp) (v : Value) : Except Failure Temps :=
  match t.kind, v with
  | .generic, v => return { ts with generic := ← place ts.generic t v }
  | .boolean, .bool b => return { ts with boolean := ← place ts.boolean t b }
  | .fixnum, .fixnum n => return { ts with fixnum := ← place ts.fixnum t n }
  | .float, .float x => return { ts with float := ← place ts.float t x }
  | kind, v => .error (.type (.expects (.temp t) kind v))

end Temps

end ObjectIr
