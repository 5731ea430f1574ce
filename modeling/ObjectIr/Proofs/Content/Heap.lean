import ObjectIr.Heap.Definition
import ObjectIr.Heap.Lemmas
import ObjectIr.Proofs.Content.Value

/-!
# Heaps of like content

Two heaps are alike when they hold the same content under the same numbers and have handed out the
same numbers, those of arrays aside. Lookups in heaps that are alike find the same
(`findMethod?_eq`, `searchConstant_agree`), and definitions open the same modules and leave the
heaps alike (`define_agree`).
-/

namespace ObjectIr

open Std (ExtTreeMap)

/-- Two attempts that both succeed, with answers in a relation, or both fail alike. -/
inductive Agree {α β : Type} (rel : α → β → Prop) : Except Failure α → Except Failure β → Prop
  | ok {a : α} {b : β} (h : rel a b) : Agree rel (.ok a) (.ok b)
  | error {f g : Failure} (h : f.Alike g) : Agree rel (.error f) (.error g)

theorem Agree.cases {α β : Type} {rel : α → β → Prop} {x : Except Failure α}
    {y : Except Failure β} (h : Agree rel x y) :
    (∃ a b, x = .ok a ∧ y = .ok b ∧ rel a b) ∨ ∃ f g, x = .error f ∧ y = .error g ∧ f.Alike g := by
  cases h with
  | ok h => exact .inl ⟨_, _, rfl, rfl, h⟩
  | error h => exact .inr ⟨_, _, rfl, rfl, h⟩

structure ModuleTable.Alike (t t' : ModuleTable) : Prop where
  methods : t.methods = t'.methods
  constants : ∀ name : String,
    t.constants[name]?.map Value.content = t'.constants[name]?.map Value.content
  singleton : t.singleton? = t'.singleton?
  body : t.body? = t'.body?

structure Heap.Alike (h h' : Heap) : Prop where
  tables : ∀ m, (h.table m).Alike (h'.table m)
  singletons : h.singletons = h'.singletons
  bindings : h.bindings = h'.bindings
  slots : ∀ c, (h.slotsOf c).map Value.content = (h'.slotsOf c).map Value.content
  next : ∃ n, h'.next = { h.next with arrays := n }

theorem ModuleTable.Alike.refl (t : ModuleTable) : t.Alike t := ⟨rfl, fun _ => rfl, rfl, rfl⟩

namespace Heap.Alike

@[refl] theorem refl (h : Heap) : h.Alike h :=
  ⟨fun _ => .refl _, rfl, rfl, fun _ => rfl, _, rfl⟩

variable {h h' : Heap}

theorem supply (H : h.Alike h') (n n' : Nat) :
    Heap.Alike { h with next.arrays := n } { h' with next.arrays := n' } := by
  obtain ⟨_, hn⟩ := H.next
  exact ⟨H.tables, H.singletons, H.bindings, H.slots, n', by rw [hn]⟩

/-! ### Lookups -/

theorem method?_eq (H : h.Alike h') (m : Module) (name : String) :
    h.method? m name = h'.method? m name := by
  rw [method?, (H.tables m).methods, method?]

theorem moduleOf?_eq (H : h.Alike h') : h.moduleOf? = h'.moduleOf? := by
  funext l
  rw [moduleOf?, H.bindings, moduleOf?]

theorem lexicalModule?_eq (H : h.Alike h') (s : StaticScope) :
    h.lexicalModule? s = h'.lexicalModule? s := by
  rw [lexicalModule?, H.moduleOf?_eq, lexicalModule?]

theorem singleton?_eq (H : h.Alike h') (v : Value) : h.singleton? v = h'.singleton? v := by
  cases v with
  | object o => rw [singleton?, H.singletons, singleton?]
  | module m => exact (H.tables m).singleton
  | _ => rfl

theorem singletonPath_eq (H : h.Alike h') {v w : Value} (hv : v.Alike w) :
    h.singletonPath v = h'.singletonPath w := by
  rcases hv.cases with rfl | ⟨i, j, vs, ws, rfl, rfl, -⟩ | ⟨b, c, rfl, rfl, -⟩
  · cases v with
    | object o => rw [singletonPath, singletonPath, H.singleton?_eq]
    | module m =>
      rw [singletonPath, singletonPath]
      exact congrArg (m.ancestors.filterMap ·) (funext fun a => H.singleton?_eq _)
    | _ => rfl
  · rfl
  · rfl

theorem findMethod?_eq (H : h.Alike h') {v w : Value} (hv : v.Alike w) (name : String) :
    h.findMethod? v name = h'.findMethod? w name := by
  rw [findMethod?, findMethod?, methodPath, methodPath, H.singletonPath_eq hv, hv.class_eq]
  exact congrArg (List.findSome? · _) (funext fun m => H.method?_eq m name)

theorem constant?_alike (H : h.Alike h') (m : Module) (name : String) :
    (h.constant? m name).map Value.content = (h'.constant? m name).map Value.content :=
  (H.tables m).constants name

theorem searchConstant_agree (H : h.Alike h') (s : StaticScope) (m : Module) (name : String) :
    Agree Value.Alike (h.searchConstant s m name) (h'.searchConstant s m name) := by
  have hpath : h.constantPath s m = h'.constantPath s m := by
    rw [constantPath, constantPath, lexicalModules, lexicalModules, H.moduleOf?_eq]
  have hfind : ∀ path : List Module,
      (path.findSome? fun n => h.constant? n name).map Value.content =
        (path.findSome? fun n => h'.constant? n name).map Value.content := by
    intro path
    induction path with
    | nil => rfl
    | cons n path ih =>
      rw [List.findSome?_cons, List.findSome?_cons]
      rcases map_eq_cases (H.constant?_alike n name) with ⟨h1, h2⟩ | ⟨v, w, h1, h2, hv⟩
      · rw [h1, h2]
        exact ih
      · rw [h1, h2]
        exact congrArg some hv
  unfold searchConstant
  rw [← hpath]
  rcases map_eq_cases (hfind (h.constantPath s m)) with ⟨h1, h2⟩ | ⟨v, w, h1, h2, hv⟩
  · rw [h1, h2]
    exact .error rfl
  · rw [h1, h2]
    exact .ok hv

/-! ### Locals -/

theorem readLocal_agree (H : h.Alike h') (s : DynamicScope) (depth offset : Nat) :
    Agree Value.Alike (h.readLocal s depth offset) (h'.readLocal s depth offset) := by
  unfold readLocal
  cases s.cell? depth with
  | none => exact .error rfl
  | some c =>
    have hc := congrArg (·[offset]?) (H.slots c)
    simp only [List.getElem?_map, Option.bind_some] at hc ⊢
    rcases map_eq_cases hc with ⟨h1, h2⟩ | ⟨v, w, h1, h2, hv⟩
    · rw [h1, h2]
      exact .error rfl
    · rw [h1, h2]
      exact .ok hv

theorem writeLocal_agree (H : h.Alike h') (s : DynamicScope) (depth offset : Nat) {v w : Value}
    (hv : v.Alike w) :
    Agree Heap.Alike (h.writeLocal s depth offset v) (h'.writeLocal s depth offset w) := by
  unfold writeLocal
  cases s.cell? depth with
  | none => exact .error rfl
  | some c =>
    have hlen : (h.slotsOf c).length = (h'.slotsOf c).length := by
      simpa only [List.length_map] using congrArg List.length (H.slots c)
    simp only [hlen]
    split
    · refine .ok ⟨H.tables, H.singletons, H.bindings, fun d => ?_, H.next⟩
      rw [slotsOf_insert, slotsOf_insert]
      split
      · rw [List.map_set, List.map_set, H.slots c, show v.content = w.content from hv]
      · exact H.slots d
    · exact .error rfl

/-! ### Changes -/

theorem setTable (H : h.Alike h') (m : Module) {t t' : ModuleTable} (ht : t.Alike t') :
    (h.setTable m t).Alike (h'.setTable m t') := by
  refine ⟨fun n => ?_, H.singletons, H.bindings, H.slots, H.next⟩
  rw [table_setTable, table_setTable]
  split
  · exact ht
  · exact H.tables n

theorem addMethod (H : h.Alike h') (m : Module) (name : String) (x : Method) :
    (h.addMethod m name x).Alike (h'.addMethod m name x) := by
  have hm := H.tables m
  exact H.setTable m ⟨by rw [hm.methods], hm.constants, hm.singleton, hm.body⟩

theorem setConstant (H : h.Alike h') (m : Module) (name : String) {v w : Value} (hv : v.Alike w) :
    (h.setConstant m name v).Alike (h'.setConstant m name w) := by
  have hm := H.tables m
  refine H.setTable m ⟨hm.methods, fun n => ?_, hm.singleton, hm.body⟩
  rw [ExtTreeMap.getElem?_insert, ExtTreeMap.getElem?_insert]
  split
  · exact congrArg some hv
  · exact hm.constants n

theorem bindBody (H : h.Alike h') (m : Module) (b : Body) :
    (h.bindBody m b).Alike (h'.bindBody m b) := by
  have hm := H.tables m
  exact H.setTable m ⟨hm.methods, hm.constants, hm.singleton, rfl⟩

theorem bindScope (H : h.Alike h') (s : StaticScope) (m : Module) :
    (h.bindScope s m).Alike (h'.bindScope s m) :=
  ⟨H.tables, H.singletons, congrArg (·.insert s.id m) H.bindings, H.slots, H.next⟩

theorem setSingleton (H : h.Alike h') (owner : Value) {s s' : Module} (hs : s = s') :
    (h.setSingleton owner s).Alike (h'.setSingleton owner s') := by
  subst hs
  cases owner with
  | object o =>
    exact ⟨H.tables, congrArg (·.insert o.id s) H.singletons, H.bindings, H.slots, H.next⟩
  | module m =>
    have hm := H.tables m
    exact H.setTable m ⟨hm.methods, hm.constants, rfl, hm.body⟩
  | _ => exact H

/-! ### New values -/

/-- Answers in a relation, along with heaps that are alike. -/
def Made {α β : Type} (rel : α → β → Prop) (x : α × Heap) (y : β × Heap) : Prop :=
  rel x.1 y.1 ∧ x.2.Alike y.2

theorem newObject (H : h.Alike h') (m : Module) :
    Made Eq (h.newObject m) (h'.newObject m) := by
  obtain ⟨n, hn⟩ := H.next
  refine ⟨?_, H.tables, H.singletons, H.bindings, H.slots, n, ?_⟩ <;>
    simp only [Heap.newObject, hn]

theorem newModule (H : h.Alike h') (make : Nat → Module) :
    Made Eq (h.newModule make) (h'.newModule make) := by
  obtain ⟨n, hn⟩ := H.next
  refine ⟨?_, H.tables, H.singletons, H.bindings, H.slots, n, ?_⟩ <;>
    simp only [Heap.newModule, hn]

theorem newMethod (H : h.Alike h') (b : Body) (v : Visibility) (m : Module) :
    Made Eq (h.newMethod b v m) (h'.newMethod b v m) := by
  obtain ⟨n, hn⟩ := H.next
  refine ⟨?_, H.tables, H.singletons, H.bindings, H.slots, n, ?_⟩ <;>
    simp only [Heap.newMethod, hn]

theorem newBlock (H : h.Alike h') (b : Body) {r r' : Value} (hr : r.Alike r')
    (scope? : Option DynamicScope) (m : Module) (v : Visibility) :
    Made (fun x y => x.content = y.content) (h.newBlock b r scope? m v)
      (h'.newBlock b r' scope? m v) := by
  obtain ⟨n, hn⟩ := H.next
  refine ⟨?_, H.tables, H.singletons, H.bindings, H.slots, n, ?_⟩
  · simp only [Heap.newBlock, hn, BlockOf.content, show r.content = r'.content from hr]
  · simp only [Heap.newBlock, hn]

theorem newScope (H : h.Alike h') (layout : StaticScope) (parent? : Option DynamicScope) :
    Made Eq (h.newScope layout parent?) (h'.newScope layout parent?) := by
  obtain ⟨n, hn⟩ := H.next
  have hid : (h'.newScope layout parent?).1 = (h.newScope layout parent?).1 := by
    simp only [Heap.newScope, hn]
  refine ⟨hid.symm, H.tables, H.singletons, H.bindings, fun c => ?_, n, ?_⟩
  · rw [slotsOf_newScope, slotsOf_newScope, hid]
    split
    · rfl
    · exact H.slots c
  · simp only [Heap.newScope, hn]

/-! ### Definitions -/

theorem singletonClass_agree (H : h.Alike h') {v w : Value} (hv : v.Alike w) :
    Agree (Made Eq) (h.singletonClass v) (h'.singletonClass w) := by
  rcases hv.cases with rfl | ⟨i, j, vs, ws, rfl, rfl, -⟩ | ⟨b, c, rfl, rfl, -⟩
  · unfold singletonClass
    rw [← H.singleton?_eq v]
    cases h.singleton? v with
    | some s => exact .ok ⟨rfl, H⟩
    | none =>
      obtain ⟨hs, hh⟩ := H.newModule fun id => .root id ("#<Class:" ++ v.text ++ ">") .singleton
      cases v with
      | object o => exact .ok ⟨hs, hh.setSingleton (.object o) hs⟩
      | module m => exact .ok ⟨hs, hh.setSingleton (.module m) hs⟩
      | _ => exact .error rfl
  · exact .error rfl
  · exact .error rfl

theorem asSuperclass_agree {v w : Value} (hv : v.Alike w) :
    Agree Eq v.asSuperclass w.asSuperclass := by
  have hrefl : ∀ x : Except Failure Module, Agree Eq x x := by
    rintro (f | m)
    · exact .error rfl
    · exact .ok rfl
  rcases hv.cases with rfl | ⟨i, j, vs, ws, rfl, rfl, -⟩ | ⟨b, c, rfl, rfl, -⟩
  · exact hrefl _
  · exact hrefl _
  · exact hrefl _

theorem openClass_agree (H : h.Alike h') (container : Module) (name : String)
    (superclass? : Option Module) :
    Agree (Made Eq) (h.openClass container name superclass?)
      (h'.openClass container name superclass?) := by
  unfold openClass
  rcases map_eq_cases (H.constant?_alike container name) with ⟨h1, h2⟩ | ⟨v, w, h1, h2, hv⟩
  · obtain ⟨hm, hh⟩ := H.newModule fun id =>
      .subclass id (container.qualify name) true (superclass?.getD Core.object)
    rw [h1, h2]
    exact .ok ⟨hm, hh.setConstant _ _ (congrArg (Value.content ∘ Value.module) hm)⟩
  · rw [h1, h2]
    rcases Value.Alike.cases hv with rfl | ⟨i, j, vs, ws, rfl, rfl, -⟩ | ⟨b, c, rfl, rfl, -⟩
    · cases v with
      | module m =>
        simp only
        split
        · exact .error rfl
        · cases superclass? with
          | none => exact .ok ⟨rfl, H⟩
          | some s =>
            simp only
            split
            · exact .ok ⟨rfl, H⟩
            · exact .error rfl
      | _ => exact .error rfl
    · exact .error rfl
    · exact .error rfl

theorem openModule_agree (H : h.Alike h') (container : Module) (name : String) :
    Agree (Made Eq) (h.openModule container name) (h'.openModule container name) := by
  unfold openModule
  rcases map_eq_cases (H.constant?_alike container name) with ⟨h1, h2⟩ | ⟨v, w, h1, h2, hv⟩
  · obtain ⟨hm, hh⟩ := H.newModule fun id => .root id (container.qualify name) .module
    rw [h1, h2]
    exact .ok ⟨hm, hh.setConstant _ _ (congrArg (Value.content ∘ Value.module) hm)⟩
  · rw [h1, h2]
    rcases Value.Alike.cases hv with rfl | ⟨i, j, vs, ws, rfl, rfl, -⟩ | ⟨b, c, rfl, rfl, -⟩
    · cases v with
      | module m =>
        simp only
        split
        · exact .error rfl
        · exact .ok ⟨rfl, H⟩
      | _ => exact .error rfl
    · exact .error rfl
    · exact .error rfl

theorem openBody_agree (H : h.Alike h') (body : Body) (container : Module)
    {v? w? : Option Value} (hv : v?.map Value.content = w?.map Value.content) :
    Agree (Made Eq) (h.openBody body container v?) (h'.openBody body container w?) := by
  unfold openBody
  split
  · exact H.singletonClass_agree rfl
  · exact H.openModule_agree _ _
  · rcases map_eq_cases hv with ⟨rfl, rfl⟩ | ⟨v, w, rfl, rfl, hvw⟩
    · exact H.openClass_agree _ _ _
    · simp only
      rcases (asSuperclass_agree hvw).cases with ⟨s, _, h1, h2, rfl⟩ | ⟨f, g, h1, h2, hf⟩
      · rw [h1, h2]
        exact H.openClass_agree _ _ _
      · rw [h1, h2]
        exact .error hf
  · exact .error rfl

theorem define_agree (H : h.Alike h') (body : Body) {v w : Value} (hv : v.Alike w)
    {v? w? : Option Value} (hs : v?.map Value.content = w?.map Value.content) :
    Agree (Made Eq) (h.define body v v?) (h'.define body w w?) := by
  unfold define
  rw [hv.module?_eq]
  cases w.module? with
  | none => exact .error rfl
  | some c =>
    rcases (H.openBody_agree body c hs).cases with
      ⟨⟨m, k⟩, ⟨_, k'⟩, h1, h2, rfl, hk⟩ | ⟨f, g, h1, h2, hf⟩
    · simp only [h1, h2]
      exact .ok (((hk.bindScope body.scope m).bindBody m body).newMethod body .public m)
    · simp only [h1, h2]
      exact .error hf

end Heap.Alike

end ObjectIr
