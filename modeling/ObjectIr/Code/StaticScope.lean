/-!
# Static scopes

The lexical position of a body: its own level of nesting and the levels around it, from inside
out. A level knows the kind of its body and the locals declared there. `level?` counts levels
outward; `locate` finds the innermost level that declares a name.
-/

namespace ObjectIr

inductive BodyKind where
  | script
  | method
  | closure
  | classBody
  | moduleBody
  | metaclassBody
  deriving DecidableEq

namespace BodyKind

/-- A non-local return completes the nearest body of such a kind. -/
def isReturnTarget : BodyKind → Bool
  | .script | .method => true
  | .closure | .classBody | .moduleBody | .metaclassBody => false

/-- The bodies of class, module and singleton class definitions. -/
def isModuleBody : BodyKind → Bool
  | .classBody | .moduleBody | .metaclassBody => true
  | .script | .method | .closure => false

def text : BodyKind → String
  | .script => "script"
  | .method => "method"
  | .closure => "closure"
  | .classBody => "class_body"
  | .moduleBody => "module_body"
  | .metaclassBody => "metaclass_body"

end BodyKind

/-- One level of lexical nesting, and which one it is. -/
structure ScopeLevel where
  id : Nat
  kind : BodyKind
  locals : List String
  deriving DecidableEq

/-- A level and the levels that enclose it, innermost first. -/
structure StaticScope where
  level : ScopeLevel
  outer : List ScopeLevel
  deriving DecidableEq

namespace StaticScope

def levels (s : StaticScope) : List ScopeLevel := s.level :: s.outer

def id (s : StaticScope) : Nat := s.level.id

def kind (s : StaticScope) : BodyKind := s.level.kind

def locals (s : StaticScope) : List String := s.level.locals

def level? (s : StaticScope) (depth : Nat) : Option ScopeLevel := s.levels[depth]?

def enclosing? (s : StaticScope) : Option StaticScope :=
  match s.outer with
  | [] => none
  | l :: ls => some ⟨l, ls⟩

/-- A fresh level inside `enclosing?`, or at the outermost position. -/
def nest (level : ScopeLevel) (enclosing? : Option StaticScope) : StaticScope :=
  ⟨level, (enclosing?.map levels).getD []⟩

/-- How many levels out a name is declared, and its first position there. -/
def locateIn (name : String) : List ScopeLevel → Option (Nat × Nat)
  | [] => none
  | l :: ls =>
    match l.locals.findIdx? (· == name) with
    | some offset => some (0, offset)
    | none => (locateIn name ls).map fun (depth, offset) => (depth + 1, offset)

def locate (s : StaticScope) (name : String) : Option (Nat × Nat) := locateIn name s.levels

end StaticScope

end ObjectIr
