import ObjectIr.Object.Core
import ObjectIr.Object.Failure
import Std.Data.ExtTreeMap

/-!
# The heap

All that running code can change and other code can see: the methods, constants, singleton class
and body of each module, the singleton classes of objects, the modules that static scopes are
bound to, and the slots of scopes. Each thing is kept under its number, and what was never written
reads as empty. The heap also counts the values made so far, kind by kind, so that each new one
gets a number of its own; `Heap.initial` is the heap before any code runs. Two tables are equal as
soon as they agree on every key, in whatever order they were written.
-/

namespace ObjectIr

open Std (ExtTreeMap)

@[ext] structure ModuleTable where
  methods : ExtTreeMap String Method := ∅
  constants : ExtTreeMap String Value := ∅
  singleton? : Option Module := none
  /-- The body that last defined or reopened the module. -/
  body? : Option Body := none

/-- The next free number of each kind of value. -/
structure Supply where
  arrays : Nat := 0
  objects : Nat := 0
  modules : Nat := 0
  methods : Nat := 0
  blocks : Nat := 0
  scopes : Nat := 0

@[ext] structure Heap where
  tables : ExtTreeMap Nat ModuleTable := ∅
  /-- Singleton classes of objects. -/
  singletons : ExtTreeMap Nat Module := ∅
  /-- The module each static scope is bound to. -/
  bindings : ExtTreeMap Nat Module := ∅
  /-- The values of the locals of each scope. -/
  slots : ExtTreeMap Nat (List Value) := ∅
  next : Supply := {}

namespace Heap

/-! ### Modules -/

def table (h : Heap) (m : Module) : ModuleTable := (h.tables[m.id]?).getD {}

def setTable (h : Heap) (m : Module) (t : ModuleTable) : Heap :=
  { h with tables := h.tables.insert m.id t }

theorem table_setTable (h : Heap) (m n : Module) (t : ModuleTable) :
    (h.setTable m t).table n = if m.id = n.id then t else h.table n := by
  simp only [table, setTable, ExtTreeMap.getElem?_insert, Nat.compare_eq_eq]
  split <;> rfl

def method? (h : Heap) (m : Module) (name : String) : Option Method := (h.table m).methods[name]?

def addMethod (h : Heap) (m : Module) (name : String) (method : Method) : Heap :=
  let t := h.table m
  h.setTable m { t with methods := t.methods.insert name method }

def constant? (h : Heap) (m : Module) (name : String) : Option Value :=
  (h.table m).constants[name]?

def setConstant (h : Heap) (m : Module) (name : String) (value : Value) : Heap :=
  let t := h.table m
  h.setTable m { t with constants := t.constants.insert name value }

def body? (h : Heap) (m : Module) : Option Body := (h.table m).body?

def bindBody (h : Heap) (m : Module) (b : Body) : Heap :=
  h.setTable m { h.table m with body? := some b }

/-! ### Static scopes -/

def moduleOf? (h : Heap) (l : ScopeLevel) : Option Module := h.bindings[l.id]?

def bindScope (h : Heap) (s : StaticScope) (m : Module) : Heap :=
  { h with bindings := h.bindings.insert s.id m }

/-- The modules bound around a lexical position, from inside out. -/
def lexicalModules (h : Heap) (s : StaticScope) : List Module := s.levels.filterMap h.moduleOf?

/-- The innermost of them. -/
def lexicalModule? (h : Heap) (s : StaticScope) : Option Module := s.levels.findSome? h.moduleOf?

/-! ### Scopes -/

def slotsOf (h : Heap) (c : ScopeCell) : List Value := (h.slots[c.id]?).getD []

/-- Makes a scope whose locals are all nil. -/
def newScope (h : Heap) (layout : StaticScope) (parent? : Option DynamicScope) :
    DynamicScope × Heap :=
  let cell : ScopeCell := ⟨h.next.scopes, layout⟩
  (.nest cell parent?,
    { h with
      slots := h.slots.insert cell.id (List.replicate layout.locals.length .nil)
      next := { h.next with scopes := h.next.scopes + 1 } })

/-- Reads a local of the scope `depth` levels outward. -/
def readLocal (h : Heap) (s : DynamicScope) (depth offset : Nat) : Except Failure Value :=
  match (s.cell? depth).bind fun c => (h.slotsOf c)[offset]? with
  | some v => .ok v
  | none => .error (.internal (.noSlot depth offset))

/-- Writes a local of the scope `depth` levels outward. -/
def writeLocal (h : Heap) (s : DynamicScope) (depth offset : Nat) (v : Value) :
    Except Failure Heap :=
  match s.cell? depth with
  | some c =>
    let slots := h.slotsOf c
    if offset < slots.length then
      .ok { h with slots := h.slots.insert c.id (slots.set offset v) }
    else .error (.internal (.noSlot depth offset))
  | none => .error (.internal (.noSlot depth offset))

/-! ### New values -/

def newObject (h : Heap) (m : Module) : Object × Heap :=
  (⟨h.next.objects, m⟩, { h with next := { h.next with objects := h.next.objects + 1 } })

/-- Makes a module of a number of its own. -/
def newModule (h : Heap) (make : Nat → Module) : Module × Heap :=
  (make h.next.modules, { h with next := { h.next with modules := h.next.modules + 1 } })

def newMethod (h : Heap) (b : Body) (v : Visibility) (m : Module) : Method × Heap :=
  (⟨h.next.methods, b, v, m⟩, { h with next := { h.next with methods := h.next.methods + 1 } })

def newBlock (h : Heap) (b : Body) (receiver : Value) (scope? : Option DynamicScope)
    (m : Module) (v : Visibility) : Block × Heap :=
  (⟨h.next.blocks, b, receiver, scope?, m, v⟩,
    { h with next := { h.next with blocks := h.next.blocks + 1 } })

def newArray (h : Heap) (elements : List Value) : Value × Heap :=
  (.array h.next.arrays elements,
    { h with next := { h.next with arrays := h.next.arrays + 1 } })

/--
The core classes are constants of `Object`, and their numbers and the main object's are taken.
-/
def initial : Heap :=
  Core.all.foldl (fun h m => h.setConstant Core.object m.name (.module m))
    { next := { modules := Core.all.length, objects := Core.mainObject.id + 1 } }

end Heap

end ObjectIr
