import ObjectIr.Proofs.Owners
import ObjectIr.Proofs.Sharing.Values

/-!
# Heaps with linked arrays

Heaps are linked when they are alike and hold linked values in constants and locals. Definitions and
calls put nothing but modules into constants, so from linked heaps they come to heaps that are
linked as soon as they are alike (`Heap.Linked.onto`), and calls come to linked replies
(`Heap.Linked.dispatch`).
-/

namespace ObjectIr

structure Heap.Linked (l : Links) (h h' : Heap) : Prop where
  alike : h.Alike h'
  constants : ∀ m name, Option.Rel (Value.Linked l) (h.constant? m name) (h'.constant? m name)
  slots : ∀ c, List.Forall₂ (Value.Linked l) (h.slotsOf c) (h'.slotsOf c)

inductive Reply.Linked (l : Links) : Reply → Reply → Prop
  | value {v w : Value} (h : v.Linked l w) : Linked l (.value v) (.value w)
  | invoke {i i' : Invocation} (h : i.Linked l i') : Linked l (.invoke i) (.invoke i')

variable {l l' : Links}

theorem Heap.Linked.mono (hl : l.Within l') {h h' : Heap} (H : h.Linked l h') : h.Linked l' h' :=
  ⟨H.alike, fun m name => Value.rel_linked_mono hl (H.constants m name),
    fun c => Value.forall₂_linked_mono hl (H.slots c)⟩

/-- What fails with nothing raised fails alike, so all that is left is what it answers. -/
theorem Agree.jointly {α β : Type} {rel rel' : α → β → Prop} {x : Except Failure α}
    {y : Except Failure β} (h : Agree rel x y) (hx : Quiet x)
    (hrel : ∀ a b, x = .ok a → y = .ok b → rel a b → rel' a b) :
    Jointly (Failure.Linked l) rel' x y := by
  rcases h.cases with ⟨a, b, h1, h2, hab⟩ | ⟨f, g, h1, h2, hfg⟩
  · rw [h1, h2]
    exact .ok (hrel a b h1 h2 hab)
  · rw [h1, h2]
    exact .error (.plain hfg (hx f h1))

namespace Heap.Linked

variable {h h' : Heap} (H : h.Linked l h')

include H

/-! ### Changes -/

/-- Later heaps with the locals of the earlier ones, and no constants but theirs and modules. -/
theorem onto {k k' : Heap} (ha : k.Alike k') (hs : k.slots = h.slots) (hs' : k'.slots = h'.slots)
    (hc : ∀ m name v, k.constant? m name = some v →
      h.constant? m name = some v ∨ ∃ n, v = .module n)
    (hc' : ∀ m name v, k'.constant? m name = some v →
      h'.constant? m name = some v ∨ ∃ n, v = .module n) : k.Linked l k' := by
  refine ⟨ha, fun m name => ?_, fun c => ?_⟩
  · rcases map_eq_cases (ha.constant?_alike m name) with ⟨h1, h2⟩ | ⟨v, w, h1, h2, hvw⟩
    · rw [h1, h2]
      exact .none
    · have hvw : v.Alike w := hvw
      rw [h1, h2]
      refine .some ?_
      rcases hc m name v h1 with hv | ⟨n, rfl⟩
      · rcases hc' m name w h2 with hw | ⟨n, rfl⟩
        · have hlinked := H.constants m name
          rw [hv, hw] at hlinked
          cases hlinked with
          | some hlinked => exact hlinked
        · rw [hvw.eq_module]
          exact Value.linked_module rfl
      · rw [Value.Alike.eq_module hvw.symm]
        exact Value.linked_module rfl
  · rw [slotsOf, slotsOf, hs, hs']
    exact H.slots c

theorem registers {k k' : Heap} (ha : k.Alike k') (hk : h.Registers k) (hk' : h'.Registers k') :
    k.Linked l k' :=
  H.onto ha hk.slots hk'.slots hk.constants hk'.constants

theorem supply (n n' : Nat) :
    Heap.Linked l { h with next.arrays := n } { h' with next.arrays := n' } :=
  ⟨H.alike.supply n n', H.constants, H.slots⟩

theorem addMethod (m : Module) (name : String) (x : Method) :
    (h.addMethod m name x).Linked l (h'.addMethod m name x) :=
  H.onto (H.alike.addMethod m name x) rfl rfl
    (fun n a v hv => .inl (by rwa [constant?_addMethod] at hv))
    (fun n a v hv => .inl (by rwa [constant?_addMethod] at hv))

theorem setConstant (m : Module) (name : String) {v w : Value} (hv : v.Linked l w) :
    (h.setConstant m name v).Linked l (h'.setConstant m name w) := by
  refine ⟨H.alike.setConstant m name hv.alike, fun n a => ?_, H.slots⟩
  rw [constant?_setConstant, constant?_setConstant]
  split
  · exact .some hv
  · exact H.constants n a

theorem newMethod (b : Body) (v : Visibility) (m : Module) :
    (h.newMethod b v m).1 = (h'.newMethod b v m).1 ∧
      (h.newMethod b v m).2.Linked l (h'.newMethod b v m).2 := by
  obtain ⟨hm, ha⟩ := H.alike.newMethod b v m
  exact ⟨hm, H.registers ha (.newMethod h b v m) (.newMethod h' b v m)⟩

theorem newBlock (b : Body) {r r' : Value} (hr : r.Linked l r') (scope? : Option DynamicScope)
    (m : Module) (v : Visibility) :
    BlockOf.Linked l (h.newBlock b r scope? m v).1 (h'.newBlock b r' scope? m v).1 ∧
      (h.newBlock b r scope? m v).2.Linked l (h'.newBlock b r' scope? m v).2 := by
  obtain ⟨hb, ha⟩ := H.alike.newBlock b hr.alike scope? m v
  refine ⟨?_, H.onto ha rfl rfl (fun _ _ _ => .inl) fun _ _ _ => .inl⟩
  have hid : h.next.blocks = h'.next.blocks := congrArg (·.id) hb
  simp only [Heap.newBlock, ← hid]
  exact .block _ b hr scope? m v

theorem newScope (layout : StaticScope) (parent? : Option DynamicScope) :
    (h.newScope layout parent?).1 = (h'.newScope layout parent?).1 ∧
      (h.newScope layout parent?).2.Linked l (h'.newScope layout parent?).2 := by
  obtain ⟨hs, ha⟩ := H.alike.newScope layout parent?
  refine ⟨hs, ha, H.constants, fun c => ?_⟩
  have hid : (h.newScope layout parent?).1.id = (h'.newScope layout parent?).1.id :=
    congrArg DynamicScope.id hs
  rw [slotsOf_newScope, slotsOf_newScope, hid]
  split
  · exact List.forall₂_same.2 fun v hv => List.eq_of_mem_replicate hv ▸ Value.linked_nil
  · exact H.slots c

/-! ### Locals and constants -/

theorem readLocal (s : DynamicScope) (depth offset : Nat) :
    Jointly (Failure.Linked l) (Value.Linked l) (h.readLocal s depth offset)
      (h'.readLocal s depth offset) := by
  refine (H.alike.readLocal_agree s depth offset).jointly (h.readLocal_quiet s depth offset)
    fun v w hv hw _ => ?_
  obtain ⟨c, hc, hv⟩ := (readLocal_eq_ok_iff h s depth offset v).1 hv
  obtain ⟨c', hc', hw⟩ := (readLocal_eq_ok_iff h' s depth offset w).1 hw
  obtain rfl : c = c' := Option.some.inj (hc.symm.trans hc')
  obtain ⟨hi, rfl⟩ := List.getElem?_eq_some_iff.1 hv
  obtain ⟨hi', rfl⟩ := List.getElem?_eq_some_iff.1 hw
  exact (List.forall₂_iff_get.1 (H.slots c)).2 offset hi hi'

theorem writeLocal (s : DynamicScope) (depth offset : Nat) {v w : Value} (hv : v.Linked l w) :
    Jointly (Failure.Linked l) (Heap.Linked l) (h.writeLocal s depth offset v)
      (h'.writeLocal s depth offset w) := by
  refine (H.alike.writeLocal_agree s depth offset hv.alike).jointly
    (h.writeLocal_quiet s depth offset v) fun k k' hk hk' ha => ?_
  obtain ⟨c, hc, -, rfl⟩ := (writeLocal_eq_ok_iff h s depth offset v k).1 hk
  obtain ⟨c', hc', -, rfl⟩ := (writeLocal_eq_ok_iff h' s depth offset w k').1 hk'
  obtain rfl : c = c' := Option.some.inj (hc.symm.trans hc')
  refine ⟨ha, H.constants, fun d => ?_⟩
  rw [slotsOf_insert, slotsOf_insert]
  split
  · exact forall₂_set (H.slots c) hv offset
  · exact H.slots d

theorem searchConstant (s : StaticScope) (m : Module) (name : String) :
    Jointly (Failure.Linked l) (Value.Linked l) (h.searchConstant s m name)
      (h'.searchConstant s m name) := by
  have hpath : h.constantPath s m = h'.constantPath s m := by
    rw [constantPath, constantPath, lexicalModules, lexicalModules, H.alike.moduleOf?_eq]
  have hfound := rel_findSome? (fun n => H.constants n name) (h'.constantPath s m)
  unfold Heap.searchConstant
  rw [hpath]
  generalize (h'.constantPath s m).findSome? (fun n => h.constant? n name) = x at hfound
  generalize (h'.constantPath s m).findSome? (fun n => h'.constant? n name) = y at hfound
  cases hfound with
  | none => exact .error (.plain rfl rfl)
  | some hv => exact .ok hv

/-! ### Definitions and calls -/

omit H in
/-- Answers in a relation, along with linked heaps. -/
def Made {α β : Type} (l : Links) (rel : α → β → Prop) (x : α × Heap) (y : β × Heap) : Prop :=
  rel x.1 y.1 ∧ x.2.Linked l y.2

theorem define (b : Body) {v w : Value} (hv : v.Linked l w) {x y : Option Value}
    (hxy : Option.Rel (Value.Linked l) x y) :
    Jointly (Failure.Linked l) (Made l Eq) (h.define b v x) (h'.define b w y) := by
  have hs : x.map Value.content = y.map Value.content := by
    cases hxy with
    | none => rfl
    | some h => exact congrArg some h.alike
  refine (H.alike.define_agree b hv.alike hs).jointly (h.define_quiet b v x) fun p q hp hq ha => ?_
  exact ⟨ha.1, H.registers ha.2 (.define hp) (.define hq)⟩

section Calls

variable {c c' : Context} (hc : c.Linked l c') {v v' : Value} (hv : v.Linked l v') (name : String)
  {args args' : List Value} (ha : List.Forall₂ (Value.Linked l) args args')
  {block? block?' : Option Block} (hb : Option.Rel (BlockOf.Linked l) block? block?')

include hc ha hb in
theorem instantiate (m : Module) :
    Jointly (Failure.Linked l) (Made l (Reply.Linked l)) (h.instantiate c m args block?)
      (h'.instantiate c' m args' block?') := by
  obtain ⟨ho, halike⟩ := H.alike.newObject m
  have hh := H.registers halike (.newObject h m) (.newObject h' m)
  have hobject := Value.linked_object (l := l) ho
  unfold Heap.instantiate
  simp only [← hh.alike.findMethod?_eq hobject.alike]
  cases (h.newObject m).2.findMethod? (.object (h.newObject m).1) "initialize" with
  | none =>
    simp only [isEmpty_eq_of_forall₂ ha, ha.length_eq]
    split
    · exact .ok ⟨.value hobject, hh⟩
    · exact .error (.plain rfl rfl)
  | some x =>
    refine (x.invocation_linked hobject "initialize" ha hb hc).bind fun i i' hi => ?_
    exact .ok ⟨.invoke { hi with answer? := .some hobject }, hh⟩

include hv ha in
theorem reflect {x y : Except Failure (Reply × Heap)}
    (hxy : Jointly (Failure.Linked l) (Made l (Reply.Linked l)) x y) :
    Jointly (Failure.Linked l) (Made l (Reply.Linked l)) (builtin.reflect h v name args x)
      (builtin.reflect h' v' name args' y) := by
  have hsingleton : Jointly (Failure.Linked l) (Made l Eq) (h.singletonClass v)
      (h'.singletonClass v') :=
    (H.alike.singletonClass_agree hv.alike).jointly (h.singletonClass_quiet v) fun p q hp hq ha =>
      ⟨ha.1, H.registers ha.2 (.singletonClass hp) (.singletonClass hq)⟩
  unfold builtin.reflect
  rw [isEmpty_eq_of_forall₂ ha, hv.alike.class_eq]
  split
  · exact .ok ⟨.value (Value.linked_module rfl), H⟩
  · split
    · exact hsingleton.bind fun p q hp => .ok ⟨.value (Value.linked_module hp.1), hp.2⟩
    · exact hxy

include hc hv ha hb

theorem builtin : Jointly (Failure.Linked l) (Made l (Reply.Linked l))
    (h.builtin c v name args block?) (h'.builtin c' v' name args' block?') := by
  have hreflect := H.reflect hv name ha (x := .error (.method (.undefined name v.described)))
    (y := .error (.method (.undefined name v'.described)))
    (.error (.plain (by rw [hv.alike.described_eq]) rfl))
  cases hv with
  | plain harray hblock =>
    cases v with
    | module m =>
      simp only [Heap.builtin]
      split
      · exact H.instantiate hc ha hb m
      · exact hreflect
    | block b => exact absurd rfl (hblock b)
    | _ => exact hreflect
  | array => exact hreflect
  | block id body hr scope? m visibility =>
    simp only [Heap.builtin]
    split
    · exact .ok ⟨.invoke (BlockOf.Linked.invocation ha (.block id body hr scope? m visibility)), H⟩
    · exact hreflect

theorem dispatch (type : CallType) : Jointly (Failure.Linked l) (Made l (Reply.Linked l))
    (h.dispatch c v name args block? type) (h'.dispatch c' v' name args' block?' type) := by
  unfold Heap.dispatch
  rw [← H.alike.findMethod?_eq hv.alike]
  cases h.findMethod? v name with
  | none => exact H.builtin hc hv name ha hb
  | some m =>
    simp only [hv.alike.described_eq]
    split
    · exact .error (.plain rfl rfl)
    · exact (m.invocation_linked hv name ha hb hc).bind fun i i' hi => .ok ⟨.invoke hi, H⟩

end Calls

end Heap.Linked

end ObjectIr
