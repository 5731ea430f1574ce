/-!
# Temporaries

A body keeps its intermediate values in temporary slots of four kinds, numbered apart.
`TempCounts` says how many slots of each kind a body has. `allocate` hands out the next index of a
kind, `cover` grows a count until an index fits, and `covers` compares counts kind by kind.
-/

namespace ObjectIr

/-- What a slot may hold: any value, or only booleans, fixnums or floats. -/
inductive TempKind where
  | generic
  | boolean
  | fixnum
  | float
  deriving DecidableEq

/-- The order in which counts are written and checked. -/
def TempKind.all : List TempKind := [.generic, .boolean, .fixnum, .float]

theorem TempKind.mem_all (k : TempKind) : k ∈ TempKind.all := by cases k <;> decide

def TempKind.letter : TempKind → String
  | .generic => "v"
  | .boolean => "b"
  | .fixnum => "i"
  | .float => "f"

structure Temp where
  kind : TempKind
  index : Nat
  deriving DecidableEq

/-- Indices have 32 bits. -/
def Temp.indexRange : Nat := Nat.pow 2 32

def Temp.text (t : Temp) : String := "%" ++ t.kind.letter ++ "_" ++ toString t.index

structure TempCounts where
  generic : Nat := 0
  boolean : Nat := 0
  fixnum : Nat := 0
  float : Nat := 0
  deriving DecidableEq, Inhabited

namespace TempCounts

def get (c : TempCounts) : TempKind → Nat
  | .generic => c.generic
  | .boolean => c.boolean
  | .fixnum => c.fixnum
  | .float => c.float

def set (c : TempCounts) (k : TempKind) (n : Nat) : TempCounts :=
  match k with
  | .generic => { c with generic := n }
  | .boolean => { c with boolean := n }
  | .fixnum => { c with fixnum := n }
  | .float => { c with float := n }

@[simp] theorem get_set (c : TempCounts) (k j : TempKind) (n : Nat) :
    (c.set k n).get j = if k = j then n else c.get j := by
  cases k <;> cases j <;> rfl

@[ext] theorem ext_get {c d : TempCounts} (h : ∀ k, c.get k = d.get k) : c = d := by
  cases c; cases d
  have hg := h .generic; have hb := h .boolean; have hi := h .fixnum; have hf := h .float
  simp only [get] at hg hb hi hf
  subst hg hb hi hf
  rfl

/-- The next free index of a kind, and the counts once it is taken. -/
def allocate (c : TempCounts) (k : TempKind) : Nat × TempCounts :=
  (c.get k % Temp.indexRange, c.set k (c.get k + 1))

def cover (c : TempCounts) (t : Temp) : TempCounts :=
  c.set t.kind (max (c.get t.kind) (t.index + 1))

def holds (c : TempCounts) (t : Temp) : Bool := t.index < c.get t.kind

/-- At least as many slots of every kind. -/
def covers (c d : TempCounts) : Bool := TempKind.all.all fun k => d.get k ≤ c.get k

end TempCounts

end ObjectIr
