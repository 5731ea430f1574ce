import ObjectIr.Heap.Lemmas
import ObjectIr.Machine.Dispatch
import ObjectIr.Proofs.Reflagging.Worlds

/-!
# Heaps of two runs

Two heaps are twins when they hold twins under the same numbers, have handed out the same numbers
but for those of scopes, and agree on locals (`World.Locals`): the scopes that stand for the same
activation hold twins, and a scope that stands for an activation in one run alone holds what it did
when it was made. Lookups and definitions then come to the same (`Heap.Twin.findMethod?`,
`Heap.Twin.define`).
-/

namespace ObjectIr

open Std (ExtTreeMap)

/-- Methods that may be called from anywhere, and so need no body around. -/
def Method.Free (m m' : Method) : Prop := m.Twin m' ∧ m'.body.Confined []

structure ModuleTable.Twin (w : World) (t t' : ModuleTable) : Prop where
  methods : ∀ name : String, Option.Rel Method.Free t.methods[name]? t'.methods[name]?
  constants : ∀ name : String, Option.Rel (Value.Twin w) t.constants[name]? t'.constants[name]?
  singleton : t.singleton? = t'.singleton?
  body : Option.Rel Body.Reflagged t.body? t'.body?

/-- What the locals of an activation hold. Before a scope stands for it, that is nil. -/
def Heap.localsOf (h : Heap) (layout : StaticScope) : Option ScopeCell → List Value
  | some c => h.slotsOf c
  | none => List.replicate layout.locals.length .nil

/-- The locals of an activation are laid out alike and hold twins in both runs. -/
structure World.Shares (w : World) (h h' : Heap) (n : Nat) (layout : StaticScope) : Prop where
  left : ∀ c, w.left n = some c → c.layout = layout
  right : ∀ c, w.right n = some c → c.layout = layout
  length : (h.localsOf layout (w.left n)).length = layout.locals.length
  twin : List.Forall₂ (Value.Twin w) (h.localsOf layout (w.left n))
    (h'.localsOf layout (w.right n))

def World.Locals (w : World) (h h' : Heap) : Prop := ∀ n, ∃ layout, w.Shares h h' n layout

structure Heap.Twin (w : World) (h h' : Heap) : Prop where
  tables : ∀ m, (h.table m).Twin w (h'.table m)
  singletons : h.singletons = h'.singletons
  bindings : h.bindings = h'.bindings
  locals : w.Locals h h'
  next : ∃ n, h'.next = { h.next with scopes := n }

variable {w w' : World}

theorem Value.twin_nil : Value.Twin w .nil .nil := .plain (by simp) (by simp) (by simp)

theorem Value.twin_module {m m' : Module} (h : m = m') :
    Value.Twin w (.module m) (.module m') := h ▸ .plain (by simp) (by simp) (by simp)

theorem Value.twin_object {o o' : Object} (h : o = o') :
    Value.Twin w (.object o) (.object o') := h ▸ .plain (by simp) (by simp) (by simp)

namespace World

theorem Locals.of_slots {h h' k k' : Heap} (H : w.Locals h h') (hk : k.slots = h.slots)
    (hk' : k'.slots = h'.slots) : w.Locals k k' := by
  have hlocals : ∀ layout c?, k.localsOf layout c? = h.localsOf layout c? := by
    rintro layout (_ | c)
    · rfl
    · rw [Heap.localsOf, Heap.slotsOf, hk, Heap.localsOf, Heap.slotsOf]
  have hlocals' : ∀ layout c?, k'.localsOf layout c? = h'.localsOf layout c? := by
    rintro layout (_ | c)
    · rfl
    · rw [Heap.localsOf, Heap.slotsOf, hk', Heap.localsOf, Heap.slotsOf]
  intro n
  obtain ⟨layout, hleft, hright, hlength, htwin⟩ := H n
  exact ⟨layout, hleft, hright, by rw [hlocals, hlength], by rw [hlocals, hlocals']; exact htwin⟩

/-- Any layout will do that the scopes of the activation have, if there are any. -/
theorem Locals.shares {h h' : Heap} (H : w.Locals h h') {n : Nat} {layout : StaticScope}
    (hleft : ∀ c, w.left n = some c → c.layout = layout)
    (hright : ∀ c, w.right n = some c → c.layout = layout) : w.Shares h h' n layout := by
  obtain ⟨layout', hshares⟩ := H n
  have hsame : ∀ c, w.left n = some c ∨ w.right n = some c → layout' = layout := by
    rintro c (hc | hc)
    · rw [← hshares.left c hc, hleft c hc]
    · rw [← hshares.right c hc, hright c hc]
  cases hl : w.left n with
  | some c => exact hsame c (.inl hl) ▸ hshares
  | none =>
    cases hr : w.right n with
    | some c => exact hsame c (.inr hr) ▸ hshares
    | none =>
      refine ⟨hleft, hright, ?_, ?_⟩
      · rw [hl, Heap.localsOf, List.length_replicate]
      · rw [hl, hr]
        exact List.forall₂_same.2 fun v hv => List.eq_of_mem_replicate hv ▸ Value.twin_nil

/-- Scopes come to stand for one activation, and the locals of the others stay as they were. -/
theorem Locals.stand {h h' k k' : Heap} (H : w.Locals h h') {n : Nat} {c? c?' : Option ScopeCell}
    (hgrows : w.Grows (w.stand n c? c?'))
    (hleft : ∀ m c, m ≠ n → w.left m = some c → k.slotsOf c = h.slotsOf c)
    (hright : ∀ m c, m ≠ n → w.right m = some c → k'.slotsOf c = h'.slotsOf c)
    {layout : StaticScope} (hat : (w.stand n c? c?').Shares k k' n layout) :
    (w.stand n c? c?').Locals k k' := by
  intro m
  by_cases hm : m = n
  · exact ⟨layout, hm ▸ hat⟩
  · obtain ⟨layout', hl, hr, hlength, htwin⟩ := H m
    have hk : k.localsOf layout' (w.left m) = h.localsOf layout' (w.left m) := by
      cases hc : w.left m with
      | none => rfl
      | some c => exact hleft m c hm hc
    have hk' : k'.localsOf layout' (w.right m) = h'.localsOf layout' (w.right m) := by
      cases hc : w.right m with
      | none => rfl
      | some c => exact hright m c hm hc
    refine ⟨layout', ?_, ?_, ?_, ?_⟩ <;> simp only [World.stand, if_neg hm]
    · exact hl
    · exact hr
    · rw [hk, hlength]
    · rw [hk, hk']
      exact Value.forall₂_twin_mono hgrows htwin

/-- The locals of one activation change. -/
theorem Locals.change {h h' k k' : Heap} (H : w.Locals h h') {n : Nat}
    (hleft : ∀ m c, m ≠ n → w.left m = some c → k.slotsOf c = h.slotsOf c)
    (hright : ∀ m c, m ≠ n → w.right m = some c → k'.slotsOf c = h'.slotsOf c)
    {layout : StaticScope} (hat : w.Shares k k' n layout) : w.Locals k k' := by
  have hself := w.stand_self n
  have hstand : (w.stand n (w.left n) (w.right n)).Locals k k' :=
    H.stand (by rw [hself]; exact .refl w) hleft hright (by rw [hself]; exact hat)
  rwa [hself] at hstand

end World

theorem ModuleTable.Twin.mono (hw : w.Grows w') {t t' : ModuleTable} (h : t.Twin w t') :
    t.Twin w' t' :=
  ⟨h.methods, fun name => Value.rel_twin_mono hw (h.constants name), h.singleton, h.body⟩

namespace Heap.Twin

variable {h h' : Heap} (H : h.Twin w h')

include H

theorem supply (n : Nat) :
    Heap.Twin w { h with next.arrays := n } { h' with next.arrays := n } := by
  obtain ⟨k, hk⟩ := H.next
  exact ⟨H.tables, H.singletons, H.bindings, H.locals.of_slots rfl rfl, k, by rw [hk]⟩

theorem arrays_eq : h.next.arrays = h'.next.arrays := by
  obtain ⟨k, hk⟩ := H.next
  rw [hk]

/-! ### Lookups -/

theorem moduleOf?_eq : h.moduleOf? = h'.moduleOf? := by
  funext l
  rw [moduleOf?, H.bindings, moduleOf?]

theorem lexicalModule?_eq (s : StaticScope) : h.lexicalModule? s = h'.lexicalModule? s := by
  rw [lexicalModule?, H.moduleOf?_eq, lexicalModule?]

theorem singleton?_eq {v v' : Value} (hv : v.Twin w v') : h.singleton? v = h'.singleton? v' := by
  cases hv with
  | plain =>
    cases v with
    | object o => rw [singleton?, H.singletons, singleton?]
    | module m => exact (H.tables m).singleton
    | _ => rfl
  | array | method | block => rfl

theorem methodPath_eq {v v' : Value} (hv : v.Twin w v') : h.methodPath v = h'.methodPath v' := by
  have hmodule : ∀ m, h.singleton? (.module m) = h'.singleton? (.module m) := fun m =>
    (H.tables m).singleton
  have hpath : h.singletonPath v = h'.singletonPath v' := by
    have hs := H.singleton?_eq hv
    cases hv with
    | plain =>
      cases v with
      | object o => rw [singletonPath, hs, singletonPath]
      | module m => simp only [singletonPath, hmodule]
      | _ => rfl
    | array | method | block => rfl
  rw [methodPath, hpath, hv.class_eq, methodPath]

theorem findMethod? {v v' : Value} (hv : v.Twin w v') (name : String) :
    Option.Rel Method.Free (h.findMethod? v name) (h'.findMethod? v' name) := by
  rw [Heap.findMethod?, Heap.findMethod?, H.methodPath_eq hv]
  exact rel_findSome? (fun m => (H.tables m).methods name) (h'.methodPath v')

theorem constant? (m : Module) (name : String) :
    Option.Rel (Value.Twin w) (h.constant? m name) (h'.constant? m name) :=
  (H.tables m).constants name

theorem searchConstant (s : StaticScope) (m : Module) (name : String) :
    Jointly (Failure.Twin w) (Value.Twin w) (h.searchConstant s m name)
      (h'.searchConstant s m name) := by
  have hpath : h.constantPath s m = h'.constantPath s m := by
    rw [constantPath, constantPath, lexicalModules, lexicalModules, H.moduleOf?_eq]
  have hfound := rel_findSome? (fun n => H.constant? n name) (h'.constantPath s m)
  unfold Heap.searchConstant
  rw [hpath]
  generalize (h'.constantPath s m).findSome? (fun n => h.constant? n name) = x at hfound
  generalize (h'.constantPath s m).findSome? (fun n => h'.constant? n name) = y at hfound
  cases hfound with
  | none => exact .error (.plain rfl)
  | some hv => exact .ok hv

/-! ### Changes -/

theorem setTable (m : Module) {t t' : ModuleTable} (ht : t.Twin w t') :
    (h.setTable m t).Twin w (h'.setTable m t') := by
  refine ⟨fun n => ?_, H.singletons, H.bindings, H.locals.of_slots rfl rfl, H.next⟩
  rw [table_setTable, table_setTable]
  split
  · exact ht
  · exact H.tables n

theorem addMethod (m : Module) (name : String) {x x' : Method} (hx : x.Free x') :
    (h.addMethod m name x).Twin w (h'.addMethod m name x') := by
  have hm := H.tables m
  refine H.setTable m ⟨fun n => ?_, hm.constants, hm.singleton, hm.body⟩
  rw [ExtTreeMap.getElem?_insert, ExtTreeMap.getElem?_insert]
  split
  · exact .some hx
  · exact hm.methods n

theorem setConstant (m : Module) (name : String) {v v' : Value} (hv : v.Twin w v') :
    (h.setConstant m name v).Twin w (h'.setConstant m name v') := by
  have hm := H.tables m
  refine H.setTable m ⟨hm.methods, fun n => ?_, hm.singleton, hm.body⟩
  rw [ExtTreeMap.getElem?_insert, ExtTreeMap.getElem?_insert]
  split
  · exact .some hv
  · exact hm.constants n

theorem bindBody (m : Module) {b b' : Body} (hb : b.Reflagged b') :
    (h.bindBody m b).Twin w (h'.bindBody m b') := by
  have hm := H.tables m
  exact H.setTable m ⟨hm.methods, hm.constants, hm.singleton, .some hb⟩

theorem bindScope (s : StaticScope) (m : Module) :
    (h.bindScope s m).Twin w (h'.bindScope s m) :=
  ⟨H.tables, H.singletons, congrArg (·.insert s.id m) H.bindings, H.locals.of_slots rfl rfl, H.next⟩

theorem setSingleton {v v' : Value} (hv : v.Twin w v') {s s' : Module} (hs : s = s') :
    (h.setSingleton v s).Twin w (h'.setSingleton v' s') := by
  subst hs
  cases hv with
  | plain =>
    cases v with
    | object o =>
      exact ⟨H.tables, congrArg (·.insert o.id s) H.singletons, H.bindings,
        H.locals.of_slots rfl rfl, H.next⟩
    | module m =>
      have hm := H.tables m
      exact H.setTable m ⟨hm.methods, hm.constants, rfl, hm.body⟩
    | _ => exact H
  | array | method | block => exact H

/-! ### New values -/

omit H in
/-- Answers in a relation, along with heaps that are twins. -/
def Made {α β : Type} (w : World) (rel : α → β → Prop) (x : α × Heap) (y : β × Heap) : Prop :=
  rel x.1 y.1 ∧ x.2.Twin w y.2

theorem newObject (m : Module) : Made w Eq (h.newObject m) (h'.newObject m) := by
  obtain ⟨n, hn⟩ := H.next
  refine ⟨?_, H.tables, H.singletons, H.bindings, H.locals.of_slots rfl rfl, n, ?_⟩ <;>
    simp only [Heap.newObject, hn]

theorem newModule (make : Nat → Module) : Made w Eq (h.newModule make) (h'.newModule make) := by
  obtain ⟨n, hn⟩ := H.next
  refine ⟨?_, H.tables, H.singletons, H.bindings, H.locals.of_slots rfl rfl, n, ?_⟩ <;>
    simp only [Heap.newModule, hn]

theorem newMethod {b b' : Body} (hb : b.Reflagged b') (v : Visibility) (m : Module) :
    Made w Method.Twin (h.newMethod b v m) (h'.newMethod b' v m) := by
  obtain ⟨n, hn⟩ := H.next
  refine ⟨⟨?_, hb, rfl, rfl⟩, H.tables, H.singletons, H.bindings, H.locals.of_slots rfl rfl, n,
    ?_⟩ <;> simp only [Heap.newMethod, hn]

theorem newBlock {b b' : Body} (hb : b.Reflagged b') {r r' : Value} (hr : r.Twin w r')
    {scope? scope?' : Option DynamicScope} (hs : w.Around b' (cellsOf scope?) (cellsOf scope?'))
    (hnone : scope? = none → scope?' = none) (m : Module) (v : Visibility) :
    Made w (BlockOf.Twin w) (h.newBlock b r scope? m v) (h'.newBlock b' r' scope?' m v) := by
  obtain ⟨n, hn⟩ := H.next
  refine ⟨?_, H.tables, H.singletons, H.bindings, H.locals.of_slots rfl rfl, n, ?_⟩
  · simp only [Heap.newBlock, hn]
    exact .block _ hb hr hs hnone m v
  · simp only [Heap.newBlock, hn]

/-! ### Definitions -/

theorem singletonClass {v v' : Value} (hv : v.Twin w v') :
    Jointly (Failure.Twin w) (Made w Eq) (h.singletonClass v) (h'.singletonClass v') := by
  unfold Heap.singletonClass
  rw [H.singleton?_eq hv]
  cases h'.singleton? v' with
  | some s => exact .ok ⟨rfl, H⟩
  | none =>
    obtain ⟨hs, hh⟩ := H.newModule fun id => .root id ("#<Class:" ++ v'.text ++ ">") .singleton
    have hset := hh.setSingleton hv hs
    cases hv with
    | plain =>
      cases v with
      | object o | module m => exact .ok ⟨hs, hset⟩
      | _ => exact .error (.plain rfl)
    | array | method | block => exact .error (.plain rfl)

omit H in
theorem asSuperclass {v v' : Value} (hv : v.Twin w v') :
    Jointly (Failure.Twin w) Eq v.asSuperclass v'.asSuperclass := by
  cases hv with
  | plain =>
    cases v with
    | module m =>
      rw [Value.asSuperclass]
      split
      · exact .error (.plain rfl)
      · split
        · exact .ok rfl
        · split <;> exact .error (.plain rfl)
    | _ => exact .error (.plain rfl)
  | array | method | block => exact .error (.plain rfl)

theorem openClass (container : Module) (name : String) (superclass? : Option Module) :
    Jointly (Failure.Twin w) (Made w Eq) (h.openClass container name superclass?)
      (h'.openClass container name superclass?) := by
  have hc := H.constant? container name
  unfold Heap.openClass
  generalize h.constant? container name = x at hc
  generalize h'.constant? container name = y at hc
  cases hc with
  | none =>
    obtain ⟨hm, hh⟩ := H.newModule fun id =>
      .subclass id (container.qualify name) true (superclass?.getD Core.object)
    exact .ok ⟨hm, hh.setConstant _ _ (Value.twin_module hm)⟩
  | @some v _ hv =>
    cases hv with
    | plain =>
      cases v with
      | module m =>
        simp only
        split
        · exact .error (.plain rfl)
        · cases superclass? with
          | none => exact .ok ⟨rfl, H⟩
          | some s =>
            simp only
            split
            · exact .ok ⟨rfl, H⟩
            · exact .error (.plain rfl)
      | _ => exact .error (.plain rfl)
    | array | method | block => exact .error (.plain rfl)

theorem openModule (container : Module) (name : String) :
    Jointly (Failure.Twin w) (Made w Eq) (h.openModule container name)
      (h'.openModule container name) := by
  have hc := H.constant? container name
  unfold Heap.openModule
  generalize h.constant? container name = x at hc
  generalize h'.constant? container name = y at hc
  cases hc with
  | none =>
    obtain ⟨hm, hh⟩ := H.newModule fun id => .root id (container.qualify name) .module
    exact .ok ⟨hm, hh.setConstant _ _ (Value.twin_module hm)⟩
  | @some v _ hv =>
    cases hv with
    | plain =>
      cases v with
      | module m =>
        simp only
        split
        · exact .error (.plain rfl)
        · exact .ok ⟨rfl, H⟩
      | _ => exact .error (.plain rfl)
    | array | method | block => exact .error (.plain rfl)

theorem openBody {b b' : Body} (hb : b.Reflagged b') (container : Module)
    {v? v?' : Option Value} (hv : Option.Rel (Value.Twin w) v? v?') :
    Jointly (Failure.Twin w) (Made w Eq) (h.openBody b container v?)
      (h'.openBody b' container v?') := by
  unfold Heap.openBody
  rw [hb.kind, hb.name]
  split
  · exact H.singletonClass (Value.twin_module rfl)
  · exact H.openModule _ _
  · cases hv with
    | none => exact H.openClass _ _ _
    | @some v v' hv =>
      have hs := asSuperclass hv
      simp only
      generalize v.asSuperclass = x at hs
      generalize v'.asSuperclass = y at hs
      cases hs with
      | ok hs =>
        cases hs
        exact H.openClass _ _ _
      | error hf => exact .error hf
  · exact .error (.plain rfl)

theorem define {b b' : Body} (hb : b.Reflagged b') {v v' : Value} (hv : v.Twin w v')
    {v? v?' : Option Value} (hx : Option.Rel (Value.Twin w) v? v?') :
    Jointly (Failure.Twin w) (Made w Method.Twin) (h.define b v v?) (h'.define b' v' v?') := by
  unfold Heap.define
  rw [hv.module?_eq]
  cases v'.module? with
  | none => exact .error (.plain rfl)
  | some c =>
    have ho := H.openBody hb c hx
    simp only
    generalize h.openBody b c v? = x at ho
    generalize h'.openBody b' c v?' = y at ho
    cases ho with
    | error hf => exact .error hf
    | @ok p p' hp =>
      obtain ⟨m, k⟩ := p
      obtain ⟨_, k'⟩ := p'
      obtain ⟨rfl, hk⟩ := hp
      simp only [hb.scope]
      exact .ok (((hk.bindScope b'.scope m).bindBody m hb).newMethod hb .public m)

/-! ### Locals -/

/-- The scopes of an activation have as many slots as it has locals, and hold twins. -/
theorem slots_twin {c c' : ScopeCell} (hc : w.Pairs c c') :
    (h.slotsOf c).length = c.layout.locals.length ∧
      List.Forall₂ (Value.Twin w) (h.slotsOf c) (h'.slotsOf c') := by
  obtain ⟨-, n, hl, hr⟩ := hc
  obtain ⟨layout, hleft, -, hlength, htwin⟩ := H.locals n
  rw [hl] at hlength htwin
  rw [hr] at htwin
  rw [hleft c hl]
  exact ⟨hlength, htwin⟩

variable {scope scope' : DynamicScope} {k k' offset : Nat} {c c' : ScopeCell}
  (hc : scope.cell? k = some c) (hc' : scope'.cell? k' = some c') (hpair : w.Pairs c c')
  (ho : offset < c.layout.locals.length)

include hc hc' hpair ho

theorem readLocal : ∃ v v', h.readLocal scope k offset = .ok v ∧
    h'.readLocal scope' k' offset = .ok v' ∧ v.Twin w v' := by
  obtain ⟨hlength, hslots⟩ := H.slots_twin hpair
  have hlt : offset < (h.slotsOf c).length := hlength ▸ ho
  have hlt' : offset < (h'.slotsOf c').length := hslots.length_eq ▸ hlt
  refine ⟨(h.slotsOf c).get ⟨offset, hlt⟩, (h'.slotsOf c').get ⟨offset, hlt'⟩, ?_, ?_, ?_⟩
  · exact (readLocal_eq_ok_iff ..).2 ⟨c, hc, List.getElem?_eq_getElem hlt⟩
  · exact (readLocal_eq_ok_iff ..).2 ⟨c', hc', List.getElem?_eq_getElem hlt'⟩
  · exact hslots.get hlt hlt'

theorem writeLocal (hw : w.Distinct) {v v' : Value} (hv : v.Twin w v') :
    ∃ g g', h.writeLocal scope k offset v = .ok g ∧ h'.writeLocal scope' k' offset v' = .ok g' ∧
      g.Twin w g' := by
  obtain ⟨hlength, hslots⟩ := H.slots_twin hpair
  have hlt : offset < (h.slotsOf c).length := hlength ▸ ho
  have hlt' : offset < (h'.slotsOf c').length := hslots.length_eq ▸ hlt
  refine ⟨_, _, (writeLocal_eq_ok_iff ..).2 ⟨c, hc, hlt, rfl⟩,
    (writeLocal_eq_ok_iff ..).2 ⟨c', hc', hlt', rfl⟩, H.tables, H.singletons, H.bindings, ?_,
    H.next⟩
  obtain ⟨hlayout, n, hl, hr⟩ := hpair
  refine H.locals.change (fun m d hm hd => ?_) (fun m d hm hd => ?_)
    (show w.Shares _ _ n c.layout from ?_)
  · rw [slotsOf_insert, if_neg fun hid => hm (hw.left n m c d hl hd hid).symm]
  · rw [slotsOf_insert, if_neg fun hid => hm (hw.right n m c' d hr hd hid).symm]
  · refine ⟨?_, ?_, ?_, ?_⟩
    · rintro d hd
      rw [hl] at hd
      cases hd
      rfl
    · rintro d hd
      rw [hr] at hd
      cases hd
      exact hlayout.symm
    · rw [hl, localsOf, slotsOf_insert, if_pos rfl, List.length_set, hlength]
    · rw [hl, hr, localsOf, localsOf, slotsOf_insert, slotsOf_insert, if_pos rfl, if_pos rfl]
      exact forall₂_set hslots hv offset

end Heap.Twin

end ObjectIr
