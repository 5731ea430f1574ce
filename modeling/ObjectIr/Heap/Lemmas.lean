import ObjectIr.Heap.Basic

/-!
# Reads after writes

What each write to the heap makes of each read. A write changes one entry of one table, so every
other read answers as before.
-/

namespace ObjectIr.Heap

open Std (ExtTreeMap)

variable (h : Heap) (m n : Module) (a b : String) (s : StaticScope) (l : ScopeLevel)

theorem table_congr (hm : m.id = n.id) : h.table m = h.table n := by simp only [table, hm]

/-! ### Methods -/

theorem method?_addMethod (x : Method) :
    (h.addMethod m a x).method? n b = if m.id = n.id ∧ a = b then some x else h.method? n b := by
  by_cases hm : m.id = n.id
  · simp only [method?, addMethod, table_setTable, hm, if_true, true_and,
      ExtTreeMap.getElem?_insert, Std.compare_eq_iff_eq, table_congr h m n hm]
  · simp [method?, addMethod, table_setTable, hm]

@[simp] theorem constant?_addMethod (x : Method) :
    (h.addMethod m a x).constant? n b = h.constant? n b := by
  by_cases hm : m.id = n.id
  · simp only [constant?, addMethod, table_setTable, hm, if_true, table_congr h m n hm]
  · simp [constant?, addMethod, table_setTable, hm]

/-! ### Constants -/

theorem constant?_setConstant (v : Value) :
    (h.setConstant m a v).constant? n b =
      if m.id = n.id ∧ a = b then some v else h.constant? n b := by
  by_cases hm : m.id = n.id
  · simp only [constant?, setConstant, table_setTable, hm, if_true, true_and,
      ExtTreeMap.getElem?_insert, Std.compare_eq_iff_eq, table_congr h m n hm]
  · simp [constant?, setConstant, table_setTable, hm]

@[simp] theorem method?_setConstant (v : Value) :
    (h.setConstant m a v).method? n b = h.method? n b := by
  by_cases hm : m.id = n.id
  · simp only [method?, setConstant, table_setTable, hm, if_true, table_congr h m n hm]
  · simp [method?, setConstant, table_setTable, hm]

/-! ### Bodies and bindings -/

theorem body?_bindBody (c : Body) :
    (h.bindBody m c).body? n = if m.id = n.id then some c else h.body? n := by
  simp only [body?, bindBody, table_setTable]
  split <;> rfl

@[simp] theorem constant?_bindBody (c : Body) :
    (h.bindBody m c).constant? n a = h.constant? n a := by
  by_cases hm : m.id = n.id
  · simp only [constant?, bindBody, table_setTable, hm, if_true, table_congr h m n hm]
  · simp [constant?, bindBody, table_setTable, hm]

@[simp] theorem method?_bindBody (c : Body) : (h.bindBody m c).method? n a = h.method? n a := by
  by_cases hm : m.id = n.id
  · simp only [method?, bindBody, table_setTable, hm, if_true, table_congr h m n hm]
  · simp [method?, bindBody, table_setTable, hm]

theorem moduleOf?_bindScope :
    (h.bindScope s m).moduleOf? l = if s.id = l.id then some m else h.moduleOf? l := by
  simp only [moduleOf?, bindScope, ExtTreeMap.getElem?_insert, Std.compare_eq_iff_eq]

/-! ### Slots -/

variable (c : ScopeCell) (d : DynamicScope) (depth offset : Nat)

/-- A new scope has its own cell in front of its parent's, with nil in every slot. -/
theorem slotsOf_newScope (p : Option DynamicScope) :
    (h.newScope s p).2.slotsOf c =
      if (h.newScope s p).1.id = c.id then List.replicate s.locals.length .nil
      else h.slotsOf c := by
  simp only [slotsOf, newScope, DynamicScope.nest, DynamicScope.id]
  by_cases hc : h.next.scopes = c.id <;> simp [ExtTreeMap.getElem?_insert, hc]

theorem slotsOf_insert (e : ScopeCell) (vs : List Value) :
    ({ h with slots := h.slots.insert e.id vs } : Heap).slotsOf c =
      if e.id = c.id then vs else h.slotsOf c := by
  simp only [slotsOf, ExtTreeMap.getElem?_insert, Nat.compare_eq_eq]
  split <;> rfl

/-- A write succeeds where there is a slot, and sets this slot alone. -/
theorem writeLocal_eq_ok_iff (v : Value) (h' : Heap) :
    h.writeLocal d depth offset v = .ok h' ↔
      ∃ c, d.cell? depth = some c ∧ offset < (h.slotsOf c).length ∧
        h' = { h with slots := h.slots.insert c.id ((h.slotsOf c).set offset v) } := by
  unfold writeLocal
  split
  · next c hc =>
    by_cases ho : offset < (h.slotsOf c).length
    · simp [ho, hc, eq_comm]
    · simp only [ho, if_false, reduceCtorEq, false_iff]
      rintro ⟨c', hc', ho', -⟩
      rw [hc] at hc'
      cases hc'
      exact ho ho'
  · next hc => simp [hc]

/-- A read fails only where there is no slot. -/
theorem readLocal_eq_ok_iff (v : Value) :
    h.readLocal d depth offset = .ok v ↔
      ∃ c, d.cell? depth = some c ∧ (h.slotsOf c)[offset]? = some v := by
  unfold readLocal
  cases hc : d.cell? depth with
  | none => simp
  | some c => cases hs : (h.slotsOf c)[offset]? <;> simp [hs]

end ObjectIr.Heap
