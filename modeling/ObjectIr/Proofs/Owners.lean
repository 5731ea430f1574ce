import ObjectIr.Proofs.Definitions

/-!
# Owners of singleton classes

Objects and modules can have a singleton class, each in a slot of its own (`Heap.slot?`). Of all
that is written to a heap only `setSingleton` fills a slot, and it fills the one that it is given.
A singleton class that is asked for is the one in the slot, or a new module is put there
(`Heap.singletonClass_of_owner`).
-/

namespace ObjectIr

/-- What has a singleton slot: an object or a module, by its number. -/
inductive Owner where
  | object (id : Nat)
  | module (id : Nat)
  deriving DecidableEq

def Value.owner? : Value → Option Owner
  | .object o => some (.object o.id)
  | .module m => some (.module m.id)
  | _ => none

namespace Heap

def slot? (h : Heap) : Owner → Option Module
  | .object id => h.singletons[id]?
  | .module id => h.singletonOf? id

theorem singleton?_eq_slot? (h : Heap) (v : Value) : h.singleton? v = v.owner?.bind h.slot? := by
  cases v <;> rfl

theorem singleton?_object (h : Heap) (o : Object) :
    h.singleton? (.object o) = h.slot? (.object o.id) := rfl

/-! ### Slots after writes -/

section Writes

variable (h : Heap) (m : Module) (name : String) (o : Owner)

theorem slot?_setTable {t : ModuleTable} (ht : t.singleton? = (h.table m).singleton?) :
    (h.setTable m t).slot? o = h.slot? o := by
  cases o with
  | object id => rfl
  | module id =>
    simp only [slot?, singletonOf?_setTable]
    split
    · next hid => rw [ht, ← hid]; rfl
    · rfl

@[simp] theorem slot?_addMethod (x : Method) : (h.addMethod m name x).slot? o = h.slot? o :=
  h.slot?_setTable m o rfl

@[simp] theorem slot?_setConstant (v : Value) : (h.setConstant m name v).slot? o = h.slot? o :=
  h.slot?_setTable m o rfl

@[simp] theorem slot?_bindBody (b : Body) : (h.bindBody m b).slot? o = h.slot? o :=
  h.slot?_setTable m o rfl

theorem slot?_setSingleton {v : Value} {p : Owner} (hv : v.owner? = some p) (s : Module) :
    (h.setSingleton v s).slot? o = if p = o then some s else h.slot? o := by
  cases v with
  | object x =>
    cases hv
    cases o with
    | object id =>
      simp only [setSingleton, slot?, Std.ExtTreeMap.getElem?_insert, Nat.compare_eq_eq,
        Owner.object.injEq]
    | module id => rfl
  | module x =>
    cases hv
    cases o with
    | object id => rfl
    | module id => simp only [setSingleton, slot?, singletonOf?_setTable, Owner.module.injEq]
  | _ => cases hv

variable (v : Value) (s : Module)

@[simp] theorem constant?_setSingleton (n : Module) :
    (h.setSingleton v s).constant? n name = h.constant? n name := by
  cases v with
  | module m =>
    simp only [setSingleton, constant?, table_setTable]
    split
    · next hid => rw [table_congr h m n hid]
    · rfl
  | _ => rfl

@[simp] theorem method?_setSingleton (n : Module) :
    (h.setSingleton v s).method? n name = h.method? n name := by
  cases v with
  | module m =>
    simp only [setSingleton, method?, table_setTable]
    split
    · next hid => rw [table_congr h m n hid]
    · rfl
  | _ => rfl

@[simp] theorem body?_setSingleton (n : Module) :
    (h.setSingleton v s).body? n = h.body? n := by
  cases v with
  | module m =>
    simp only [setSingleton, body?, table_setTable]
    split
    · next hid => rw [table_congr h m n hid]
    · rfl
  | _ => rfl

@[simp] theorem bindings_setSingleton : (h.setSingleton v s).bindings = h.bindings := by
  cases v <;> rfl

@[simp] theorem slots_setSingleton : (h.setSingleton v s).slots = h.slots := by cases v <;> rfl

@[simp] theorem next_setSingleton : (h.setSingleton v s).next = h.next := by cases v <;> rfl

end Writes

/-! ### Asking for a singleton class -/

/-- The singleton class that a value gets as the next module. -/
def nextSingleton (h : Heap) (v : Value) : Module :=
  .root h.next.modules ("#<Class:" ++ v.text ++ ">") .singleton

/-- The heap in which the value has it. -/
def withSingleton (h : Heap) (v : Value) : Heap :=
  { h with next := { h.next with modules := h.next.modules + 1 } }.setSingleton v
    (h.nextSingleton v)

/-- Objects and modules have the singleton class that stands in their slot, or get a new one. -/
theorem singletonClass_of_owner (h : Heap) {v : Value} {o : Owner} (hv : v.owner? = some o) :
    h.singletonClass v =
      match h.slot? o with
      | some s => .ok (s, h)
      | none => .ok (h.nextSingleton v, h.withSingleton v) := by
  have hslot : h.singleton? v = h.slot? o := by rw [singleton?_eq_slot?, hv]; rfl
  cases v with
  | object x | module x => simp only [singletonClass, hslot]; cases h.slot? o <;> rfl
  | _ => cases hv

theorem singletonClass_of_none (h : Heap) {v : Value} (hv : v.owner? = none) :
    h.singletonClass v = .error (.type .noSingleton) := by
  have hslot : h.singleton? v = none := by rw [singleton?_eq_slot?, hv]; rfl
  cases v with
  | object x | module x => cases hv
  | _ => simp only [singletonClass, hslot]

end Heap

end ObjectIr
