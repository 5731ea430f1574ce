import ObjectIr.Machine.Run
import ObjectIr.Proofs.Dispatching
import ObjectIr.Proofs.Owners

/-!
# Among which modules and objects

Every part of a machine leads to modules and objects: a value that is one, or holds one, the frames
and activations under way, the tables of the heap. A `Population` is a choice of modules and
objects, with those that are there before any code runs, and `Among` says of each part of a machine
that it leads to nothing else. A module leads to all its superclasses, and an object to its class.
What is read from a heap among a population is among it too, if what was written to it was.
-/

namespace ObjectIr

structure Population where
  module : Module → Prop
  object : Object → Prop
  core : ∀ m ∈ Core.all, module m
  main : object Core.mainObject

/-- The second population has all of the first. -/
structure Population.Within (p p' : Population) : Prop where
  module : ∀ m, p.module m → p'.module m
  object : ∀ o, p.object o → p'.object o

section Definitions

variable (p : Population)

def Module.Among (m : Module) : Prop := ∀ a ∈ m.ancestors, p.module a

structure Object.Among (o : Object) : Prop where
  object : p.object o
  «class» : o.class.Among p

mutual

def Value.Among : Value → Prop
  | .array _ vs => AmongAll vs
  | .object o => o.Among p
  | .module m => m.Among p
  | .method m => m.module.Among p
  | .block ⟨_, _, receiver, _, m, _⟩ => m.Among p ∧ Among receiver
  | .nil | .bool _ | .fixnum _ | .float _ | .string _ | .symbol _ => True

def Value.AmongAll : List Value → Prop
  | [] => True
  | v :: vs => Among v ∧ AmongAll vs

end

def BlockOf.Among (b : Block) : Prop := (Value.block b).Among p

structure Frame.Among (f : Frame) : Prop where
  receiver : f.receiver.Among p
  block? : ∀ b, f.block? = some b → b.Among p
  module : f.module.Among p

def Context.Among (c : Context) : Prop := ∀ f ∈ c.frames, f.Among p

structure Heap.Among (h : Heap) : Prop where
  methods : ∀ m name x, h.method? m name = some x → x.module.Among p
  constants : ∀ m name v, h.constant? m name = some v → v.Among p
  owned : ∀ o s, h.slot? o = some s → s.Among p
  bindings : ∀ l m, h.moduleOf? l = some m → m.Among p
  slots : ∀ (c : ScopeCell), ∀ v ∈ h.slotsOf c, v.Among p

structure Invocation.Among (i : Invocation) : Prop where
  frame : i.frame.Among p
  args : ∀ v ∈ i.args, v.Among p
  answer? : ∀ v, i.answer? = some v → v.Among p

structure Activation.Among (a : Activation) : Prop where
  temps : ∀ t v, a.temps.get? t = some v → v.Among p
  args : ∀ v ∈ a.args, v.Among p
  receiver : a.receiver.Among p
  answer? : ∀ v, a.answer? = some v → v.Among p

structure Site.Among (s : Site) : Prop where
  heap : s.heap.Among p
  context : s.context.Among p
  activation : s.activation.Among p

/-- Of all failures, only those that code raises carry a value to their caller. -/
def Failure.Among : Failure → Prop
  | .raised v => v.Among p
  | _ => True

/-- What an activation hands on as it ends. -/
def Ending.Among : Except Unwind Value → Prop
  | .ok v | .error (.return _ v) => v.Among p
  | .error (.failure f) => f.Among p

def Answer.Among : Except Failure Value → Prop
  | .ok v => v.Among p
  | .error f => f.Among p

def Control.Among : Control → Prop
  | .running a => a.Among p
  | .leaving a r => a.Among p ∧ Ending.Among p r
  | .finished r => Answer.Among p r

/-- All modules and objects that the machine leads to belong to the population. -/
structure Machine.Among (m : Machine) : Prop where
  heap : m.heap.Among p
  context : m.context.Among p
  control : m.control.Among p
  callers : ∀ c ∈ m.callers, c.activation.Among p

def Reply.Among : Reply → Prop
  | .value v => v.Among p
  | .invoke i => i.Among p

def Outcome.Among : Outcome → Prop
  | .next => True
  | .call _ i => i.Among p
  | .complete v | .return _ v => v.Among p

end Definitions

variable {p p' : Population}

theorem Value.amongAll_iff {vs : List Value} : AmongAll p vs ↔ ∀ v ∈ vs, v.Among p := by
  induction vs with
  | nil => simp [AmongAll]
  | cons v vs ih => rw [AmongAll, ih, List.forall_mem_cons]

/-! ### Modules -/

namespace Module

theorem Among.self {m : Module} (hm : m.Among p) : p.module m := hm m m.self_mem_ancestors

theorem among_root {id : Nat} {name : String} {kind : ModuleKind}
    (h : p.module (.root id name kind)) : (Module.root id name kind).Among p := by
  simpa [Among, ancestors] using h

theorem among_subclass {id : Nat} {name : String} {inheritable : Bool} {superclass : Module}
    (h : p.module (.subclass id name inheritable superclass)) (hs : superclass.Among p) :
    (Module.subclass id name inheritable superclass).Among p := by
  simpa [Among, ancestors] using And.intro h hs

theorem among_core {m : Module} (hm : m ∈ Core.all) : m.Among p := by
  have hclosed : ∀ m ∈ Core.all, ∀ a ∈ m.ancestors, a ∈ Core.all := by decide
  exact fun a ha => p.core a (hclosed m hm a ha)

end Module

theorem Value.class_among {v : Value} (hv : v.Among p) : v.class.Among p := by
  have hcore : ∀ m, Core.all.contains m = true → m.Among p := fun m hm =>
    Module.among_core (List.contains_iff_mem.1 hm)
  cases v with
  | object o => exact hv.class
  | bool b => cases b <;> exact hcore _ rfl
  | module m =>
    rw [Value.class]
    split <;> exact hcore _ rfl
  | _ => exact hcore _ rfl

theorem Core.object_among : Core.object.Among p := Module.among_core (by decide)

theorem Core.mainObject_among : (Value.object mainObject).Among p := ⟨p.main, Core.object_among⟩

/-! ### Larger populations -/

section Mono

variable (hp : p.Within p')

theorem Module.Among.mono (hp : p.Within p') {m : Module} (h : m.Among p) : m.Among p' :=
  fun a ha => hp.module a (h a ha)

mutual

theorem Value.Among.mono (hp : p.Within p') : ∀ {v : Value}, v.Among p → v.Among p'
  | .array _ _, h => AmongAll.mono hp h
  | .object o, h => ⟨hp.object o h.object, h.class.mono hp⟩
  | .module _, h | .method _, h => Module.Among.mono hp h
  | .block ⟨_, _, _, _, _, _⟩, h => ⟨h.1.mono hp, Value.Among.mono hp h.2⟩
  | .nil, _ | .bool _, _ | .fixnum _, _ | .float _, _ | .string _, _ | .symbol _, _ => trivial

theorem Value.AmongAll.mono (hp : p.Within p') : ∀ {vs : List Value}, AmongAll p vs →
    AmongAll p' vs
  | [], _ => trivial
  | _ :: _, h => ⟨Value.Among.mono hp h.1, AmongAll.mono hp h.2⟩

end

include hp

theorem Frame.Among.mono {f : Frame} (h : f.Among p) : f.Among p' :=
  ⟨h.receiver.mono hp, fun b hb => Value.Among.mono hp (h.block? b hb), h.module.mono hp⟩

theorem Context.Among.mono {c : Context} (h : c.Among p) : c.Among p' :=
  fun f hf => (h f hf).mono hp

theorem Heap.Among.mono {h : Heap} (hh : h.Among p) : h.Among p' :=
  ⟨fun m name x hx => (hh.methods m name x hx).mono hp,
    fun m name v hv => (hh.constants m name v hv).mono hp,
    fun o s hs => (hh.owned o s hs).mono hp,
    fun l m hm => (hh.bindings l m hm).mono hp,
    fun c v hv => (hh.slots c v hv).mono hp⟩

theorem Activation.Among.mono {a : Activation} (h : a.Among p) : a.Among p' :=
  ⟨fun t v hv => (h.temps t v hv).mono hp, fun v hv => (h.args v hv).mono hp,
    h.receiver.mono hp, fun v hv => (h.answer? v hv).mono hp⟩

theorem Failure.Among.mono {f : Failure} (h : f.Among p) : f.Among p' := by
  cases f with
  | raised v => exact Value.Among.mono hp h
  | _ => exact trivial

theorem Control.Among.mono {c : Control} (h : c.Among p) : c.Among p' := by
  cases c with
  | running a => exact Activation.Among.mono hp h
  | leaving a r =>
    refine ⟨h.1.mono hp, ?_⟩
    rcases r with (f | ⟨target, v⟩) | v
    · exact Failure.Among.mono hp h.2
    · exact Value.Among.mono hp h.2
    · exact Value.Among.mono hp h.2
  | finished r =>
    rcases r with f | v
    · exact Failure.Among.mono hp h
    · exact Value.Among.mono hp h

theorem Machine.Among.mono {m : Machine} (h : m.Among p) : m.Among p' :=
  ⟨h.heap.mono hp, h.context.mono hp, h.control.mono hp, fun c hc => (h.callers c hc).mono hp⟩

end Mono

/-! ### Heaps -/

namespace Heap.Among

variable {h k : Heap} (hh : h.Among p)

include hh

theorem supply (n : Supply) : Heap.Among p { h with next := n } :=
  ⟨hh.methods, hh.constants, hh.owned, hh.bindings, hh.slots⟩

theorem addMethod (m : Module) (name : String) {x : Method} (hx : x.module.Among p) :
    (h.addMethod m name x).Among p where
  methods n b y hy := by
    rw [method?_addMethod] at hy
    split at hy
    · cases hy
      exact hx
    · exact hh.methods n b y hy
  constants n b v hv := hh.constants n b v (by rwa [constant?_addMethod] at hv)
  owned o s hs := hh.owned o s (by rwa [slot?_addMethod] at hs)
  bindings := hh.bindings
  slots := hh.slots

theorem setConstant (m : Module) (name : String) {v : Value} (hv : v.Among p) :
    (h.setConstant m name v).Among p where
  methods n b y hy := hh.methods n b y (by rwa [method?_setConstant] at hy)
  constants n b x hx := by
    rw [constant?_setConstant] at hx
    split at hx
    · cases hx
      exact hv
    · exact hh.constants n b x hx
  owned o s hs := hh.owned o s (by rwa [slot?_setConstant] at hs)
  bindings := hh.bindings
  slots := hh.slots

theorem setSingleton {v : Value} {o : Owner} (hv : v.owner? = some o) {s : Module}
    (hs : s.Among p) : (h.setSingleton v s).Among p where
  methods n b y hy := hh.methods n b y (by rwa [method?_setSingleton] at hy)
  constants n b x hx := hh.constants n b x (by rwa [constant?_setSingleton] at hx)
  owned q t ht := by
    rw [slot?_setSingleton h q hv] at ht
    split at ht
    · cases ht
      exact hs
    · exact hh.owned q t ht
  bindings l m hm := hh.bindings l m (by rwa [moduleOf?, bindings_setSingleton] at hm)
  slots c x hx := hh.slots c x (by rwa [slotsOf, slots_setSingleton] at hx)

theorem bindScope (s : StaticScope) {m : Module} (hm : m.Among p) : (h.bindScope s m).Among p :=
  ⟨hh.methods, hh.constants, hh.owned, fun l n hn => by
    rw [moduleOf?_bindScope] at hn
    split at hn
    · cases hn
      exact hm
    · exact hh.bindings l n hn, hh.slots⟩

theorem bindBody (m : Module) (b : Body) : (h.bindBody m b).Among p where
  methods n c y hy := hh.methods n c y (by rwa [method?_bindBody] at hy)
  constants n c x hx := hh.constants n c x (by rwa [constant?_bindBody] at hx)
  owned o s hs := hh.owned o s (by rwa [slot?_bindBody] at hs)
  bindings := hh.bindings
  slots := hh.slots

theorem newScope (layout : StaticScope) (parent? : Option DynamicScope) :
    (h.newScope layout parent?).2.Among p where
  methods := hh.methods
  constants := hh.constants
  owned := hh.owned
  bindings := hh.bindings
  slots c v hv := by
    rw [slotsOf_newScope] at hv
    split at hv
    · rw [List.eq_of_mem_replicate hv]
      exact trivial
    · exact hh.slots c v hv

theorem writeLocal {s : DynamicScope} {depth offset : Nat} {v : Value} (hv : v.Among p)
    (hk : h.writeLocal s depth offset v = .ok k) : k.Among p := by
  obtain ⟨c, -, -, rfl⟩ := (writeLocal_eq_ok_iff h s depth offset v k).1 hk
  refine ⟨hh.methods, hh.constants, hh.owned, hh.bindings, fun d x hx => ?_⟩
  rw [slotsOf_insert] at hx
  split at hx
  · rcases List.mem_or_eq_of_mem_set hx with hx | rfl
    · exact hh.slots c x hx
    · exact hv
  · exact hh.slots d x hx

theorem readLocal {s : DynamicScope} {depth offset : Nat} {v : Value}
    (hv : h.readLocal s depth offset = .ok v) : v.Among p := by
  obtain ⟨c, -, hc⟩ := (readLocal_eq_ok_iff h s depth offset v).1 hv
  exact hh.slots c v (List.mem_of_getElem? hc)

theorem findMethod? {receiver : Value} {name : String} {m : Method}
    (hm : h.findMethod? receiver name = some m) : m.module.Among p := by
  obtain ⟨n, -, hn⟩ := List.exists_of_findSome?_eq_some hm
  exact hh.methods n name m hn

theorem searchConstant {s : StaticScope} {m : Module} {name : String} {v : Value}
    (hv : h.searchConstant s m name = .ok v) : v.Among p := by
  rw [Heap.searchConstant] at hv
  split at hv
  · next hs =>
    cases hv
    obtain ⟨n, -, hn⟩ := List.exists_of_findSome?_eq_some hs
    exact hh.constants n name _ hn
  · cases hv

end Heap.Among

/-! ### Invocations -/

section Invocations

variable {c : Context} {receiver : Value} {name : String} {args : List Value}
  {block? : Option Block} (ha : ∀ v ∈ args, v.Among p)

include ha

theorem Method.invocation_among (hr : receiver.Among p) (hb : ∀ b, block? = some b → b.Among p)
    {m : Method} (hm : m.module.Among p) {i : Invocation}
    (hi : m.invocation c receiver name args block? = .ok i) : i.Among p := by
  obtain rfl := Method.invocation_eq hi
  exact ⟨⟨hr, hb, hm⟩, ha, by rintro v ⟨⟩⟩

theorem BlockOf.invocation_among {b : Block} (hb : b.Among p) : (b.invocation args).Among p :=
  ⟨⟨hb.2, by rintro b ⟨⟩, hb.1⟩, ha, by rintro v ⟨⟩⟩

end Invocations

theorem Body.scriptInvocation_among (b : Body) : b.scriptInvocation.Among p :=
  ⟨⟨Core.mainObject_among, by rintro b ⟨⟩, Core.object_among⟩, by rintro v ⟨⟩, by rintro v ⟨⟩⟩

end ObjectIr
