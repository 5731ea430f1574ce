import ObjectIr.Proofs.Dispatching
import ObjectIr.Proofs.Population.Census

/-!
# Recorded heaps

A heap is recorded in a census when it leads to nothing else and its slots are those of the census
(`Heap.Recorded`). What makes a module or an object leaves a heap that is recorded in a larger
census: a definition (`Heap.Recorded.define`) or a call (`Heap.Recorded.dispatched`). All else that
is written stays within the census that there is.
-/

namespace ObjectIr

/-- Only classes that may be derived from are derived from. -/
theorem Value.asSuperclass_eq_ok {v : Value} {s : Module} (h : v.asSuperclass = .ok s) :
    v = .module s ∧ s.isInheritable = true ∧ s.isSingleton = false := by
  unfold asSuperclass at h
  split at h
  · split at h
    · cases h
    · next hsingleton =>
      split at h
      · next hinheritable =>
        cases h
        exact ⟨rfl, hinheritable, Bool.not_eq_true _ ▸ hsingleton⟩
      · split at h <;> cases h
  · cases h

/-- A heap that leads to nothing outside of the census, and goes by it in its slots and numbers. -/
structure Heap.Recorded (c : Census) (h : Heap) : Prop where
  among : h.Among c.population
  modules : h.next.modules = c.modules.length
  objects : h.next.objects = c.objects.length
  slots : ∀ o, h.slot? o = c.slot? o
  methods : ∀ m name x, h.method? m name = some x → m.id < h.next.modules

namespace Heap.Recorded

variable {c : Census} {h k : Heap} (hh : h.Recorded c)

include hh

/-- Writes that make no module or object, and leave slots and methods. -/
theorem of_eq (hk : k.Among c.population) (hmodules : k.next.modules = h.next.modules)
    (hobjects : k.next.objects = h.next.objects) (hslots : ∀ o, k.slot? o = h.slot? o)
    (hmethods : ∀ m name, k.method? m name = h.method? m name) : k.Recorded c where
  among := hk
  modules := hmodules.trans hh.modules
  objects := hobjects.trans hh.objects
  slots o := (hslots o).trans (hh.slots o)
  methods m name x hx := by
    rw [hmethods] at hx
    rw [hmodules]
    exact hh.methods m name x hx

theorem supply (n : Nat) : Heap.Recorded c { h with next.arrays := n } :=
  hh.of_eq (hh.among.supply _) rfl rfl (fun _ => rfl) fun _ _ => rfl

theorem setConstant (m : Module) (name : String) {v : Value} (hv : v.Among c.population) :
    (h.setConstant m name v).Recorded c :=
  hh.of_eq (hh.among.setConstant m name hv) rfl rfl (fun o => h.slot?_setConstant m name o v)
    fun n b => h.method?_setConstant m n name b v

theorem bindScope (s : StaticScope) {m : Module} (hm : m.Among c.population) :
    (h.bindScope s m).Recorded c :=
  hh.of_eq (hh.among.bindScope s hm) rfl rfl (fun _ => rfl) fun _ _ => rfl

theorem bindBody (m : Module) (b : Body) : (h.bindBody m b).Recorded c :=
  hh.of_eq (hh.among.bindBody m b) rfl rfl (fun o => h.slot?_bindBody m o b)
    fun n name => h.method?_bindBody m n name b

theorem newMethod (b : Body) (v : Visibility) (m : Module) : (h.newMethod b v m).2.Recorded c :=
  hh.of_eq (hh.among.supply _) rfl rfl (fun _ => rfl) fun _ _ => rfl

theorem newBlock (b : Body) (receiver : Value) (scope? : Option DynamicScope) (m : Module)
    (v : Visibility) : (h.newBlock b receiver scope? m v).2.Recorded c :=
  hh.of_eq (hh.among.supply _) rfl rfl (fun _ => rfl) fun _ _ => rfl

theorem newScope (layout : StaticScope) (parent? : Option DynamicScope) :
    (h.newScope layout parent?).2.Recorded c :=
  hh.of_eq (hh.among.newScope layout parent?) rfl rfl (fun _ => rfl) fun _ _ => rfl

theorem writeLocal {s : DynamicScope} {depth offset : Nat} {v : Value} (hv : v.Among c.population)
    (hk : h.writeLocal s depth offset v = .ok k) : k.Recorded c := by
  have hamong := hh.among.writeLocal hv hk
  obtain ⟨d, -, -, rfl⟩ := (writeLocal_eq_ok_iff h s depth offset v k).1 hk
  exact hh.of_eq hamong rfl rfl (fun _ => rfl) fun _ _ => rfl

theorem addMethod {m : Module} (hm : m ∈ c.modules) (name : String) {x : Method}
    (hx : x.module.Among c.population) : (h.addMethod m name x).Recorded c where
  among := hh.among.addMethod m name hx
  modules := hh.modules
  objects := hh.objects
  slots o := (h.slot?_addMethod m name o x).trans (hh.slots o)
  methods n b y hy := by
    rw [method?_addMethod] at hy
    split at hy
    · next hn => rw [← hn.1]; exact hh.modules ▸ Census.id_lt hm
    · exact hh.methods n b y hy

/-! ### Making modules and objects -/

theorem newObject {m : Module} (hm : m ∈ c.modules) (hplain : m.isSingleton = false) :
    (h.newObject m).2.Recorded (c.addObject hm hplain) ∧
      (h.newObject m).1 ∈ (c.addObject hm hplain).objects := by
  have hobject : (h.newObject m).1 = ⟨c.objects.length, m⟩ := by rw [← hh.objects]; rfl
  have hgrows := Census.grows_addObject hm hplain
  refine ⟨⟨(hh.among.mono hgrows.within).supply _, hh.modules, ?_, hh.slots, hh.methods⟩, ?_⟩
  · show h.next.objects + 1 = (c.objects ++ [_]).length
    rw [List.length_append, hh.objects]
    rfl
  · rw [hobject]
    exact List.mem_append_right _ (List.mem_singleton_self _)

/-- A new module that is no singleton class is recorded once it is made. -/
theorem newModule (make : Nat → Module) (hid : ∀ n, (make n).id = n)
    (hderived : ∀ n s, (make n).superclass? = some s → s ∈ c.modules ∧ s.isInheritable = true)
    (hplain : ∀ n, (make n).isSingleton = false)
    (hrooted : ∀ n, (make n).superclass? = none → (make n).isClass = false) :
    ∃ c', c.Grows c' ∧ (h.newModule make).1 ∈ c'.modules ∧ (h.newModule make).2.Recorded c' := by
  let m := make h.next.modules
  let c' := c.add m none ((hid _).trans hh.modules) (hderived _)
    (fun hnone hclass => by rw [hrooted _ hnone] at hclass; cases hclass)
    (fun hsingleton => by rw [hplain] at hsingleton; cases hsingleton) (by rintro o ⟨⟩)
  have hgrows : c.Grows c' := ⟨fun _ => List.mem_append_left _, fun _ ho => ho, fun _ _ hs => hs⟩
  refine ⟨c', hgrows, List.mem_append_right _ (List.mem_singleton_self _),
    ⟨(hh.among.mono hgrows.within).supply _, ?_, hh.objects, hh.slots, fun n name x hx =>
      Nat.lt_succ_of_lt (hh.methods n name x hx)⟩⟩
  show h.next.modules + 1 = (c.modules ++ [m]).length
  rw [List.length_append, hh.modules]
  rfl

/-- The singleton class of a value is in its slot, or it is made and put there. -/
theorem singletonClass {v : Value} (hv : v.Among c.population) {s : Module}
    (hk : h.singletonClass v = .ok (s, k)) :
    ∃ c', c.Grows c' ∧ s ∈ c'.modules ∧ k.Recorded c' := by
  cases hv' : v.owner? with
  | none => rw [h.singletonClass_of_none hv'] at hk; cases hk
  | some o =>
    rw [h.singletonClass_of_owner hv'] at hk
    cases hslot : h.slot? o with
    | some t =>
      rw [hslot] at hk
      cases hk
      exact ⟨c, .refl c, (c.slot_module o s (hh.slots o ▸ hslot)).1, hh⟩
    | none =>
      rw [hslot] at hk
      cases hk
      have howner : (∃ x ∈ c.objects, o = .object x.id) ∨ ∃ n ∈ c.modules, o = .module n.id := by
        cases v with
        | object x => cases hv'; exact .inl ⟨x, hv.object, rfl⟩
        | module m => cases hv'; exact .inr ⟨m, hv.self, rfl⟩
        | _ => cases hv'
      let c' := c.add (h.nextSingleton v) (some o) hh.modules (by rintro s ⟨⟩) (fun _ _ => rfl)
        (fun _ => rfl) (by rintro p ⟨⟩; exact ⟨rfl, hh.slots o ▸ hslot, howner⟩)
      have hfilled : ∀ p s, c.slot? p = some s → o ≠ p := by
        rintro p s hs rfl
        rw [← hh.slots, hslot] at hs
        cases hs
      have hgrows : c.Grows c' :=
        ⟨fun _ => List.mem_append_left _, fun _ ho => ho, fun p s hs => by
          show (if some o = some p then _ else _) = _
          rw [if_neg fun heq => hfilled p s hs (Option.some.inj heq), hs]⟩
      have hmem : h.nextSingleton v ∈ c'.modules :=
        List.mem_append_right _ (List.mem_singleton_self _)
      refine ⟨c', hgrows, hmem, ?_, ?_, ?_, fun p => ?_, fun n name x hx => ?_⟩
      · exact ((hh.among.mono hgrows.within).supply _).setSingleton hv' (Census.module_among hmem)
      · rw [withSingleton, next_setSingleton]
        show h.next.modules + 1 = (c.modules ++ [_]).length
        rw [List.length_append, hh.modules]
        rfl
      · rw [withSingleton, next_setSingleton]
        exact hh.objects
      · rw [withSingleton, slot?_setSingleton _ p hv']
        show _ = if some o = some p then _ else _
        simp only [Option.some.injEq]
        split
        · rfl
        · exact hh.slots p
      · rw [withSingleton, method?_setSingleton] at hx
        rw [withSingleton, next_setSingleton]
        exact Nat.lt_succ_of_lt (hh.methods n name x hx)

/-! ### Definitions -/

theorem openClass {container m : Module} {name : String} {superclass? : Option Module}
    (hsuper : ∀ s, superclass? = some s → s ∈ c.modules ∧ s.isInheritable = true)
    (hk : h.openClass container name superclass? = .ok (m, k)) :
    ∃ c', c.Grows c' ∧ m ∈ c'.modules ∧ k.Recorded c' := by
  simp only [Heap.openClass] at hk
  split at hk
  · next n hn =>
    have hfound : m = n ∧ k = h := by
      repeat' split at hk
      all_goals cases hk
      · exact ⟨rfl, rfl⟩
      · exact ⟨rfl, rfl⟩
    obtain ⟨rfl, rfl⟩ := hfound
    exact ⟨c, .refl c, (hh.among.constants _ _ _ hn).self, hh⟩
  · cases hk
  · cases hk
    have hderived : superclass?.getD Core.object ∈ c.modules ∧
        (superclass?.getD Core.object).isInheritable = true := by
      cases superclass? with
      | none => exact ⟨c.core _ (by decide), rfl⟩
      | some s => exact hsuper s rfl
    obtain ⟨c', hgrows, hm, hk⟩ := hh.newModule
      (fun id => .subclass id (container.qualify name) true (superclass?.getD Core.object))
      (fun _ => rfl) (by rintro n s ⟨⟩; exact hderived) (fun _ => rfl) (by rintro n ⟨⟩)
    exact ⟨c', hgrows, hm, hk.setConstant _ _ (Census.module_among hm)⟩

theorem openModule {container m : Module} {name : String}
    (hk : h.openModule container name = .ok (m, k)) :
    ∃ c', c.Grows c' ∧ m ∈ c'.modules ∧ k.Recorded c' := by
  simp only [Heap.openModule] at hk
  split at hk
  · next n hn =>
    split at hk <;> cases hk
    exact ⟨c, .refl c, (hh.among.constants _ _ _ hn).self, hh⟩
  · cases hk
  · cases hk
    obtain ⟨c', hgrows, hm, hk⟩ := hh.newModule
      (fun id => .root id (container.qualify name) .module)
      (fun _ => rfl) (by rintro n s ⟨⟩) (fun _ => rfl) (fun _ _ => rfl)
    exact ⟨c', hgrows, hm, hk.setConstant _ _ (Census.module_among hm)⟩

theorem openBody {body : Body} {container m : Module} {superclass? : Option Value}
    (hc : container ∈ c.modules) (hsuper : ∀ v, superclass? = some v → v.Among c.population)
    (hk : h.openBody body container superclass? = .ok (m, k)) :
    ∃ c', c.Grows c' ∧ m ∈ c'.modules ∧ k.Recorded c' := by
  unfold Heap.openBody at hk
  split at hk
  · exact hh.singletonClass (v := .module container) (Census.module_among hc) hk
  · exact hh.openModule hk
  · split at hk
    · exact hh.openClass (by rintro s ⟨⟩) hk
    · split at hk
      · cases hk
      · next v _ s hs =>
        refine hh.openClass ?_ hk
        rintro t ⟨⟩
        obtain ⟨rfl, hinheritable, -⟩ := Value.asSuperclass_eq_ok hs
        exact ⟨Module.Among.self (hsuper _ rfl), hinheritable⟩
  · cases hk

theorem define {body : Body} {container : Value} {superclass? : Option Value} {x : Method}
    (hc : container.Among c.population) (hsuper : ∀ v, superclass? = some v → v.Among c.population)
    (hk : h.define body container superclass? = .ok (x, k)) :
    ∃ c', c.Grows c' ∧ x.module ∈ c'.modules ∧ k.Recorded c' := by
  rw [Heap.define] at hk
  split at hk
  · cases hk
  · next d hd =>
    have hd : d ∈ c.modules := by
      cases container <;> cases hd
      exact Module.Among.self hc
    split at hk
    · cases hk
    · next n _ hopen =>
      cases hk
      obtain ⟨c', hgrows, hm, hk⟩ := hh.openBody hd hsuper hopen
      exact ⟨c', hgrows, hm,
        ((hk.bindScope body.scope (Census.module_among hm)).bindBody n body).newMethod body .public
          n⟩

/-! ### Calls -/

theorem dispatched {context : Context} {receiver : Value} {name : String} {args : List Value}
    {block? : Option Block} (hr : receiver.Among c.population)
    (ha : ∀ v ∈ args, v.Among c.population) (hb : ∀ b, block? = some b → b.Among c.population)
    {q : Reply} (hq : h.Dispatched context receiver name args block? q k) :
    ∃ c', c.Grows c' ∧ q.Among c'.population ∧ k.Recorded c' := by
  cases hq with
  | method hm hi =>
    exact ⟨c, .refl c, Method.invocation_among ha hr hb (hh.among.findMethod? hm) hi, hh⟩
  | classOf => exact ⟨c, .refl c, Value.class_among hr, hh⟩
  | singleton hs =>
    obtain ⟨c', hgrows, hs, hk⟩ := hh.singletonClass hr hs
    exact ⟨c', hgrows, Census.module_among hs, hk⟩
  | block hreceiver =>
    subst hreceiver
    exact ⟨c, .refl c, BlockOf.invocation_among ha hr, hh⟩
  | object hreceiver _ hplain =>
    subst hreceiver
    obtain ⟨hk, ho⟩ := hh.newObject (Module.Among.self hr) hplain
    exact ⟨_, Census.grows_addObject _ _, Census.object_among ho, hk⟩
  | constructed hreceiver _ hplain hx hi =>
    subst hreceiver
    obtain ⟨hk, ho⟩ := hh.newObject (Module.Among.self hr) hplain
    have hgrows := Census.grows_addObject (c := c) (Module.Among.self hr) hplain
    have hobject : Value.Among _ (.object (h.newObject _).1) := Census.object_among ho
    have hinvocation := Method.invocation_among (fun v hv => (ha v hv).mono hgrows.within) hobject
      (fun b hb' => Value.Among.mono hgrows.within (hb b hb')) (hk.among.findMethod? hx) hi
    refine ⟨_, hgrows, ⟨hinvocation.frame, hinvocation.args, ?_⟩, hk⟩
    rintro v ⟨⟩
    exact hobject

end Heap.Recorded

end ObjectIr
