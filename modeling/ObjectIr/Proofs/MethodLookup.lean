import ObjectIr.Proofs.ClassHierarchy
import ObjectIr.Proofs.SearchPaths

/-!
# Methods and lookup

A method that is put in a module is found by the receivers whose search comes to the module first,
and nothing else changes (`Heap.Learns`). What is put in a singleton class is found by its owner,
and by the classes derived from its owner when that is a class, because no object is an instance of
a singleton class and no class derives from one (`Heap.Personal`). Both hold of all that is among a
chronicle (`method_definitions`).
-/

namespace ObjectIr

/-! ### Who asks a singleton class -/

/-- The receiver is a class, and the value another class that it derives from. -/
def Value.DerivesFrom (receiver v : Value) : Prop :=
  ∃ d a : Module, receiver = .module d ∧ v = .module a ∧ a.isClass = true ∧ a ≠ d ∧ a ∈ d.ancestors

namespace Census

variable {c : Census}

/-- Only classes that may be derived from stand among the ancestors of another module. -/
theorem eq_or_inheritable {m a : Module} (hm : m ∈ c.modules) (ha : a ∈ m.ancestors) :
    a = m ∨ a.isInheritable = true := by
  induction m with
  | root id name kind => exact .inl (List.mem_singleton.1 ha)
  | subclass id name inheritable superclass ih =>
    rw [Module.ancestors, List.mem_cons] at ha
    rcases ha with rfl | ha
    · exact .inl rfl
    · obtain ⟨hs, hinheritable⟩ := c.derived _ hm superclass rfl
      rcases ih hs ha with rfl | ha
      · exact .inr hinheritable
      · exact .inr ha

/-- No value is an instance of a singleton class, not even indirectly. -/
theorem plain_of_class {receiver : Value} (hr : receiver.Among c.population) {a : Module}
    (ha : a ∈ receiver.class.ancestors) : a.isSingleton = false := by
  have hcore : ∀ m ∈ Core.all, m.isSingleton = false := by decide
  have hclass : receiver.class.isSingleton = false := by
    cases receiver with
    | object o => exact c.plain o hr.object
    | bool b => cases b <;> rfl
    | module m =>
      rw [Value.class]
      split <;> rfl
    | _ => rfl
  rcases eq_or_inheritable (Value.class_among hr).self ha with rfl | ha
  · exact hclass
  · exact (Module.class_of_isInheritable ha).2

theorem value_eq_of_owner {v w : Value} (hv : v.Among c.population) (hw : w.Among c.population)
    {o : Owner} (hvo : v.owner? = some o) (hwo : w.owner? = some o) : v = w := by
  cases v with
  | object x =>
    cases w with
    | object y =>
      have hid : x.id = y.id := by simpa [Value.owner?] using hvo.trans hwo.symm
      exact congrArg _ (eq_of_number c.object_id hv.object hw.object hid)
    | module y => cases hvo; cases hwo
    | _ => cases hwo
  | module x =>
    cases w with
    | module y =>
      have hid : x.id = y.id := by simpa [Value.owner?] using hvo.trans hwo.symm
      exact congrArg _ (eq_of_id hv.self hw.self hid)
    | object y => cases hvo; cases hwo
    | _ => cases hwo
  | _ => cases hvo

theorem forebear_among {receiver v : Value} (hr : receiver.Among c.population)
    (hv : v ∈ receiver.forebears) : v.Among c.population := by
  cases receiver with
  | object o => rw [List.mem_singleton.1 hv]; exact hr
  | module m =>
    obtain ⟨a, ha, rfl⟩ := List.mem_map.1 hv
    exact Census.module_among (hr a ha)
  | _ => cases hv

/-- Besides a value itself, its forebears are the classes that it derives from. -/
theorem eq_or_derives {receiver v : Value} (hr : receiver.Among c.population)
    (hv : v ∈ receiver.forebears) : receiver = v ∨ receiver.DerivesFrom v := by
  cases receiver with
  | object o => exact .inl (List.mem_singleton.1 hv).symm
  | module m =>
    obtain ⟨a, ha, rfl⟩ := List.mem_map.1 hv
    rcases Decidable.em (a = m) with rfl | hne
    · exact .inl rfl
    · have hinheritable := (eq_or_inheritable hr.self ha).resolve_left hne
      exact .inr ⟨m, a, rfl, rfl, (Module.class_of_isInheritable hinheritable).1, hne, ha⟩
  | _ => cases hv

end Census

theorem Value.self_mem_forebears {v : Value} {o : Owner} (hv : v.owner? = some o) :
    ∃ rest, v.forebears = v :: rest := by
  cases v with
  | object o => exact ⟨[], rfl⟩
  | module m => cases m <;> exact ⟨_, rfl⟩
  | _ => cases hv

namespace Heap

variable {c : Census} {h : Heap}

/-! ### What a method changes -/

/-- What receivers of a population find, as a module gets a method. -/
structure Learns (h : Heap) (p : Population) (n : Module) (name : String) (x : Method) (k : Heap) :
    Prop where
  found : ∀ receiver : Value, receiver.Among p →
    Foremost (fun q => h.method? q name) n (h.methodPath receiver) →
      k.findMethod? receiver name = some x
  kept : ∀ receiver : Value, receiver.Among p → ∀ b,
    ¬(b = name ∧ Foremost (fun q => h.method? q name) n (h.methodPath receiver)) →
      k.findMethod? receiver b = h.findMethod? receiver b

theorem methodPath_congr {k : Heap} (hslots : ∀ o, k.slot? o = h.slot? o) (receiver : Value) :
    k.methodPath receiver = h.methodPath receiver := by
  have hsingleton : k.singleton? = h.singleton? := by
    funext v
    rw [singleton?_eq_slot?, singleton?_eq_slot?, funext hslots]
  rw [methodPath, methodPath, singletonPath_eq, singletonPath_eq, hsingleton]

theorem Recorded.learns (hh : h.Recorded c) {n : Module} (hn : n ∈ c.modules) (name : String)
    (x : Method) : h.Learns c.population n name x (h.addMethod n name x) := by
  have hwritten : ∀ receiver : Value, receiver.Among c.population →
      Written h.method? (h.addMethod n name x).method? n name x (h.methodPath receiver) :=
    fun receiver hr => written_of_update (fun q b => method?_addMethod h n q name b x)
      fun q hq hid => (Census.eq_of_id hn (hh.methodPath_subset hr q hq) hid).symm
  have hpath := methodPath_congr (h := h) (k := h.addMethod n name x)
    (fun o => slot?_addMethod h n name o x)
  refine ⟨fun receiver hr hforemost => ?_, fun receiver hr b hb => ?_⟩
  · rw [findMethod?, hpath]
    exact (hwritten receiver hr).found hforemost
  · rw [findMethod?, hpath]
    exact (hwritten receiver hr).kept b hb

/-! ### Singleton classes -/

/-- The singleton class of a value is there for it, and for the classes that derive from it. -/
structure Personal (h : Heap) (p : Population) (s : Module) (v : Value) : Prop where
  among : v.Among p
  slot : h.singleton? v = some s
  asked : ∀ receiver : Value, receiver.Among p →
    (s ∈ h.methodPath receiver ↔ receiver = v ∨ receiver.DerivesFrom v)
  owner : ∀ name x, (h.addMethod s name x).findMethod? v name = some x
  others : ∀ receiver : Value, receiver.Among p → receiver ≠ v → ¬receiver.DerivesFrom v →
    ∀ name x b, (h.addMethod s name x).findMethod? receiver b = h.findMethod? receiver b

theorem Recorded.asked (hh : h.Recorded c) {s : Module} {v : Value} {o : Owner}
    (hv : v.Among c.population) (ho : v.owner? = some o) (hs : h.slot? o = some s)
    {receiver : Value} (hr : receiver.Among c.population) :
    s ∈ h.methodPath receiver ↔ receiver = v ∨ receiver.DerivesFrom v := by
  have hslot : h.singleton? v = some s := by rw [singleton?_eq_slot?, ho]; exact hs
  have hcensus : c.slot? o = some s := hh.slots o ▸ hs
  have hsingleton := (c.slot_module o s hcensus).2
  rw [methodPath, List.mem_append, singletonPath_eq, List.mem_filterMap]
  constructor
  · rintro (⟨w, hw, hws⟩ | hclass)
    · -- the slot of the forebear is that of the owner, and so is the forebear
      obtain ⟨o', ho', hs'⟩ := Option.bind_eq_some_iff.1 (h.singleton?_eq_slot? w ▸ hws)
      obtain rfl := c.slot_unique o o' s hcensus (hh.slots o' ▸ hs')
      obtain rfl := Census.value_eq_of_owner hv (Census.forebear_among hr hw) ho ho'
      exact Census.eq_or_derives hr hw
    · rw [Census.plain_of_class hr hclass] at hsingleton
      cases hsingleton
  · rintro (rfl | ⟨d, a, rfl, rfl, -, -, ha⟩)
    · obtain ⟨rest, hrest⟩ := Value.self_mem_forebears ho
      exact .inl ⟨receiver, hrest ▸ List.mem_cons_self, hslot⟩
    · exact .inl ⟨_, List.mem_map_of_mem ha, hslot⟩

theorem Recorded.personal (hh : h.Recorded c) {s : Module} (hs : s ∈ c.modules)
    (hsingleton : s.isSingleton = true) : ∃ v, h.Personal c.population s v := by
  obtain ⟨o, ho⟩ := c.owned s hs hsingleton
  have hslot : h.slot? o = some s := (hh.slots o).trans ho
  obtain ⟨v, hv, hvo⟩ : ∃ v : Value, v.Among c.population ∧ v.owner? = some o := by
    rcases c.slot_owner o s ho with ⟨x, hx, rfl⟩ | ⟨m, hm, rfl⟩
    · exact ⟨.object x, Census.object_among hx, rfl⟩
    · exact ⟨.module m, Census.module_among hm, rfl⟩
  have hown : h.singleton? v = some s := by rw [singleton?_eq_slot?, hvo]; exact hslot
  refine ⟨v, hv, hown, fun receiver hr => hh.asked hv hvo hslot hr, fun name x => ?_,
    fun receiver hr hne hderives name x b => ?_⟩
  · obtain ⟨rest, hrest⟩ := Value.self_mem_forebears hvo
    have hpath : ∃ after, h.methodPath v = s :: after := by
      rw [methodPath, singletonPath_eq, hrest, List.filterMap_cons, hown]
      exact ⟨_, rfl⟩
    obtain ⟨after, hpath⟩ := hpath
    exact (hh.learns hs name x).found v hv ⟨[], after, hpath, by rintro q ⟨⟩⟩
  · refine (hh.learns hs name x).kept receiver hr b ?_
    rintro ⟨-, before, after, hpath, -⟩
    have hmem : s ∈ h.methodPath receiver := by
      rw [hpath]
      exact List.mem_append_right _ List.mem_cons_self
    exact ((hh.asked hv hvo hslot hr).1 hmem).elim hne hderives

end Heap

/--
In whatever state, a method that is added to a module is found by the receivers whose path comes to
the module before any other that has the name, and nothing else is found otherwise than before. So
it is for what an instruction defines. What is put in a singleton class is found by its owner and by
the classes derived from it alone.
-/
theorem method_definitions {es : List Entry} {m : Machine} {ms : List Machine}
    (h : Chronicle AtHand es (m :: ms)) :
    ∃ p : Population, (∀ x ∈ m :: ms, x.Among p) ∧
      (∀ n name x, p.module n → m.heap.Learns p n name x (m.heap.addMethod n name x)) ∧
      (∀ s, p.module s → s.isSingleton = true → ∃ v, m.heap.Personal p s v) ∧
      ∀ limit name body f, m.addingMethod? = some (name, body, f) →
        m.heap.Learns p f.module name ⟨m.heap.next.methods, body, f.visibility, f.module⟩
          (m.step limit).heap := by
  obtain ⟨c, hcovers, m', earlier, heq, hm⟩ := h.recorded
  cases heq
  refine ⟨c.population, hcovers.among, fun n name x hn => hm.heap.learns hn name x,
    fun s hs hsingleton => hm.heap.personal hs hsingleton, fun limit name body f hadding => ?_⟩
  obtain ⟨hframe, a, -, hstep⟩ := Machine.step_of_addingMethod limit hadding
  have hmodule := (hm.among.context f (List.mem_of_mem_head? hframe)).module.self
  have hlearns := hm.heap.learns hmodule name ⟨m.heap.next.methods, body, f.visibility, f.module⟩
  rw [hstep]
  -- the number that the method takes makes no difference to lookup
  exact ⟨hlearns.found, hlearns.kept⟩

/-- A script that defines a method in the singleton class of `Object`. -/
def makersScript : Draft where
  name := "<main>"
  scope := ⟨⟨0, .script, []⟩, []⟩
  code := [
    .defineClass (.temp ⟨.generic, 0⟩) (metaclass.body 1 {}) .scopeModule .undefined,
    .processModuleBody (.temp ⟨.generic, 0⟩) (.var (.temp ⟨.generic, 0⟩)),
    .ret .nil]
where
  metaclass : Draft :=
    { name := "metaclass", scope := ⟨⟨1, .metaclassBody, []⟩, [⟨0, .script, []⟩]⟩
      code := [.defineMethod "make" (make.body 2 {}), .ret .nil] }
  make : Draft := { name := "make", scope := ⟨⟨2, .method, []⟩, []⟩, code := [] }

def makersRun : Machine :=
  (Entry.script (makersScript.body 0 { generic := 1 })).start 8 .initial {}

def objectSingleton : Module := .root 14 "#<Class:Object>" .singleton

/-- `String` derives from `Object` and finds the method. The main object does not. -/
theorem method_definitions_make :
    (∃ x, (makersRun.after 8 3).heap.findMethod? (.module Core.string) "make" = some x) ∧
      (makersRun.after 8 3).heap.findMethod? (.object Core.mainObject) "make" =
        (makersRun.after 8 2).heap.findMethod? (.object Core.mainObject) "make" ∧
      ∃ v : Value, (makersRun.after 8 2).heap.singleton? v = some objectSingleton ∧ ∀ x,
        ((makersRun.after 8 2).heap.addMethod objectSingleton "make" x).findMethod? v "make" =
          some x := by
  have h : Chronicle AtHand [.script (makersScript.body 0 { generic := 1 })]
      (makersRun.after 8 2 :: (makersRun.trail 8 1 ++ [.idle])) :=
    (Chronicle.start.enter 8 (e := .script (makersScript.body 0 { generic := 1 })) (c := {})
      fun p _ => ⟨trivial, by rintro f ⟨⟩⟩).after 8 2
  obtain ⟨p, hamong, -, hpersonal, hdefined⟩ := method_definitions h
  have hdefines : ((makersRun.after 8 2).addingMethod?.map fun d => (d.1, d.2.2.module)) =
      some ("make", objectSingleton) := by decide +kernel
  obtain ⟨⟨name, body, f⟩, hadding, heq⟩ := Option.map_eq_some_iff.1 hdefines
  obtain ⟨rfl, hmodule⟩ := Prod.mk.inj heq
  have hlearns := hdefined 8 _ body f hadding
  rw [show f.module = objectSingleton from hmodule, ← Machine.after_succ] at hlearns
  have hstring : (makersRun.after 8 2).heap.methodPath (.module Core.string) =
      [] ++ objectSingleton :: Core.class.ancestors := by decide +kernel
  have hmain : (makersRun.after 8 2).heap.methodPath (.object Core.mainObject) =
      Core.object.ancestors := by decide +kernel
  have hslot :
      (makersRun.after 8 2).heap.slot? (.module Core.object.id) = some objectSingleton := by
    decide +kernel
  have hmem : p.module objectSingleton :=
    ((hamong _ List.mem_cons_self).heap.owned _ _ hslot).self
  obtain ⟨v, hv⟩ := hpersonal objectSingleton hmem rfl
  refine ⟨⟨_, hlearns.found _ (Module.among_core (by decide)) ⟨_, _, hstring, by rintro q ⟨⟩⟩⟩,
    hlearns.kept _ Core.mainObject_among _ ?_, v, hv.slot, hv.owner "make"⟩
  rintro ⟨-, before, after, hpath, -⟩
  rw [hmain] at hpath
  have hnone : objectSingleton ∉ Core.object.ancestors := by decide
  exact hnone (hpath ▸ List.mem_append_right _ List.mem_cons_self)

end ObjectIr
