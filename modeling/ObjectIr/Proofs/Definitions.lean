import Mathlib.Data.Finset.Card
import ObjectIr.Heap.Lemmas
import ObjectIr.Proofs.Drafts
import ObjectIr.Proofs.Effects

/-!
# Definitions over time

A definition opens the module that its constant stands for, or makes one where the constant is not
bound (`Heap.openClass_eq_ok`, `Heap.openModule_eq_ok`). So whatever definitions are attempted on a
heap, and whatever else is done to it that leaves constants as they are (`Heap.History`), a constant
that is bound stays so, and later definitions of it come to what they come to with this module
(`Attempt.Reopens`). Each module that is made is a constant that was not bound, or a singleton class
that was missing (`Heap.History.made_eq`).
-/

namespace ObjectIr

/-- A definition, with what is answered when it asks for its superclass. -/
structure Definition where
  body : Body
  container : Value
  superclass : Except Failure (Option Value)

namespace Definition

/-- The superclass given, if it can be evaluated and inherited from. -/
def inherited (d : Definition) : Except Failure (Option Module) :=
  match d.superclass with
  | .error f => .error f
  | .ok none => .ok none
  | .ok (some v) => v.asSuperclass.map some

/-- Defines or reopens a module. The superclass is asked for if it comes to that. -/
def carryOut (d : Definition) (h : Heap) : Except Failure (Method × Heap) :=
  if Heap.asksSuperclass d.body d.container then
    match d.superclass with
    | .error f => .error f
    | .ok superclass? => h.define d.body d.container superclass?
  else h.define d.body d.container none

/-- How the definition opens its module in a container. -/
def opening (d : Definition) (c : Module) (h : Heap) : Except Failure (Module × Heap) :=
  match d.body.kind with
  | .metaclassBody => h.singletonClass (.module c)
  | .moduleBody => h.openModule c d.body.name
  | .classBody =>
    match d.inherited with
    | .error f => .error f
    | .ok superclass? => h.openClass c d.body.name superclass?
  | kind => .error (.internal (.notModuleBody d.body.name kind))

/-- A definition opens a module in its container, and answers it with the body bound to it. -/
theorem carryOut_eq (d : Definition) (h : Heap) {c : Module} (hc : d.container = .module c) :
    d.carryOut h =
      match d.opening c h with
      | .error f => .error f
      | .ok (m, k) =>
        .ok (((k.bindScope d.body.scope m).bindBody m d.body).newMethod d.body .public m) := by
  obtain ⟨body, container, superclass⟩ := d
  simp only at hc
  subst hc
  rw [carryOut, opening]
  simp only [Heap.define, Value.module?, Heap.openBody]
  by_cases hkind : body.kind = .classBody
  · have hasks : Heap.asksSuperclass body (.module c) = true := by
      simp [Heap.asksSuperclass, Value.module?, hkind]
    rw [if_pos hasks, inherited]
    simp only [hkind]
    rcases superclass with f | ⟨_ | v⟩
    · rfl
    · rfl
    · simp only
      cases v.asSuperclass <;> rfl
  · have hasks : ¬Heap.asksSuperclass body (.module c) = true := by
      simp [Heap.asksSuperclass, hkind]
    rw [if_neg hasks]
    generalize body.kind = kind at hkind ⊢
    cases kind with
    | classBody => exact absurd rfl hkind
    | _ => rfl

theorem carryOut_noContainer (d : Definition) (h : Heap) (hc : ∀ c, d.container ≠ .module c) :
    d.carryOut h = .error (.type .noContainer) := by
  obtain ⟨body, container, superclass⟩ := d
  simp only at hc
  have hnone : container.module? = none := by
    cases container with
    | module c => exact absurd rfl (hc c)
    | _ => rfl
  simp [carryOut, Heap.asksSuperclass, Heap.define, hnone]

/-- A definition that is carried out has opened the module of the method it answers. -/
theorem carryOut_eq_ok {d : Definition} {h k : Heap} {x : Method}
    (hk : d.carryOut h = .ok (x, k)) :
    ∃ c l, d.container = .module c ∧ d.opening c h = .ok (x.module, l) ∧ x.body = d.body ∧
      k = (((l.bindScope d.body.scope x.module).bindBody x.module d.body).newMethod d.body .public
        x.module).2 := by
  by_cases hc : ∃ c, d.container = .module c
  · obtain ⟨c, hc⟩ := hc
    rw [d.carryOut_eq h hc] at hk
    cases hopen : d.opening c h with
    | error f => rw [hopen] at hk; cases hk
    | ok p =>
      rw [hopen] at hk
      cases hk
      exact ⟨c, p.2, hc, hopen, rfl, rfl⟩
  · rw [d.carryOut_noContainer h (not_exists.1 hc)] at hk
    cases hk

end Definition

namespace Exec

/-- What a definition as an instruction comes to, before it keeps its method. -/
def define (body : Body) (container superclass : Operand) : Exec Method := do
  let container ← value container
  let superclass? ←
    if Heap.asksSuperclass body container then superclass? superclass else pure none
  attempt fun h => h.define body container superclass?

theorem define_apply (body : Body) (container superclass : Operand) (s : Site) :
    define body container superclass s =
      match value container s with
      | .error f t => .error f t
      | .ok v t =>
        match (if Heap.asksSuperclass body v then superclass? superclass else pure none) t with
        | .error f u => .error f u
        | .ok superclass? u =>
          match (Definition.mk body v (.ok superclass?)).carryOut u.heap with
          | .error f => .error f u
          | .ok (m, k) => .ok m { u with heap := k } := by
  rw [define]
  cases hv : value container s with
  | error f t => rw [bind_of_error hv]
  | ok v t =>
    rw [bind_of_ok hv]
    simp only
    cases hasks : Heap.asksSuperclass body v with
    | false =>
      have hnone : (pure none : Exec (Option Value)) t = .ok none t := rfl
      simp only [Bool.false_eq_true, if_false, Definition.carryOut, hasks]
      rw [bind_of_ok hnone, attempt_apply, hnone]
      simp only
      cases t.heap.define body v none <;> rfl
    | true =>
      simp only [if_true, Definition.carryOut, hasks]
      cases hx : superclass? superclass t with
      | error f u => rw [bind_of_error hx]
      | ok x u =>
        rw [bind_of_ok hx, attempt_apply]
        simp only
        cases u.heap.define body v x <;> rfl

/-- The method runs the body that was defined. -/
theorem define_body {body : Body} {container superclass : Operand} {s t : Site} {x : Method}
    (hx : define body container superclass s = .ok x t) : x.body = body := by
  rw [define_apply] at hx
  split at hx
  · cases hx
  · split at hx
    · cases hx
    · split at hx
      · cases hx
      · next hk =>
        cases hx
        obtain ⟨c, l, -, -, hbody, -⟩ := Definition.carryOut_eq_ok hk
        exact hbody

end Exec

theorem execute_defineClass (r : Variable) (body : Body) (container superclass : Operand) :
    InstrOf.execute (.defineClass r body container superclass) = (do
      Exec.store r (.method (← Exec.define body container superclass))
      return .next) := by
  rw [InstrOf.execute, Exec.define, bind_assoc]
  congr
  funext v
  simp only
  split <;> simp only [bind_assoc, pure_bind]

/-! ### Opening a module -/

theorem Module.isClass_of_isSingleton {m : Module} (hm : m.isSingleton = true) :
    m.isClass = true := by
  cases m with
  | root id name kind =>
    cases kind with
    | module => cases hm
    | _ => rfl
  | subclass => rfl

namespace Heap

variable {h k l : Heap} {c m : Module} {name : String}

/-- The class of that name is there, or it is made, with the superclass given or `Object`. -/
theorem openClass_eq_ok {superclass? : Option Module}
    (hk : h.openClass c name superclass? = .ok (m, k)) :
    m.isClass = true ∧ m.isSingleton = false ∧ k.constant? c name = some (.module m) ∧
      (h.constant? c name = some (.module m) ∧ k = h ∨
        h.constant? c name = none ∧ m.superclass? = some (superclass?.getD Core.object) ∧
          ∃ make, k = (h.newModule make).2.setConstant c name (.module m)) := by
  simp only [openClass] at hk
  split at hk
  · next n hn =>
    split at hk
    · cases hk
    · next hclass =>
      rw [Bool.or_eq_true, Bool.not_eq_true', not_or, Bool.not_eq_false, Bool.not_eq_true] at hclass
      have hopen : m = n ∧ k = h := by
        split at hk
        · cases hk
          exact ⟨rfl, rfl⟩
        · split at hk <;> cases hk
          exact ⟨rfl, rfl⟩
      obtain ⟨rfl, rfl⟩ := hopen
      exact ⟨hclass.1, hclass.2, hn, .inl ⟨hn, rfl⟩⟩
  · cases hk
  · next hn =>
    cases hk
    refine ⟨rfl, rfl, ?_, .inr ⟨hn, rfl, _, rfl⟩⟩
    rw [constant?_setConstant, if_pos ⟨rfl, rfl⟩]

theorem openModule_eq_ok (hk : h.openModule c name = .ok (m, k)) :
    m.isClass = false ∧ k.constant? c name = some (.module m) ∧
      (h.constant? c name = some (.module m) ∧ k = h ∨
        h.constant? c name = none ∧ m.superclass? = none ∧
          ∃ make, k = (h.newModule make).2.setConstant c name (.module m)) := by
  simp only [openModule] at hk
  split at hk
  · next n hn =>
    split at hk
    · cases hk
    · next hclass =>
      cases hk
      exact ⟨Bool.not_eq_true _ ▸ hclass, hn, .inl ⟨hn, rfl⟩⟩
  · cases hk
  · next hn =>
    cases hk
    refine ⟨rfl, ?_, .inr ⟨hn, rfl, _, rfl⟩⟩
    rw [constant?_setConstant, if_pos ⟨rfl, rfl⟩]

theorem singletonClass_eq_ok (hk : h.singletonClass (.module c) = .ok (m, k)) :
    h.singleton? (.module c) = some m ∧ k = h ∨
      h.singleton? (.module c) = none ∧
        ∃ make, k = (h.newModule make).2.setSingleton (.module c) m := by
  simp only [singletonClass] at hk
  split at hk
  · next s hs =>
    cases hk
    exact .inl ⟨hs, rfl⟩
  · next hs =>
    cases hk
    exact .inr ⟨hs, _, rfl⟩

/-! ### Reading tables by number -/

/-- What the constant of that name stands for in the module of that number. -/
def named? (h : Heap) (key : Nat × String) : Option Value :=
  ((h.tables[key.1]?).getD {}).constants[key.2]?

/-- The singleton class of the module of that number. -/
def singletonOf? (h : Heap) (id : Nat) : Option Module := ((h.tables[id]?).getD {}).singleton?

theorem named?_setTable (h : Heap) (c : Module) (t : ModuleTable) (key : Nat × String) :
    (h.setTable c t).named? key = if c.id = key.1 then t.constants[key.2]? else h.named? key := by
  simp only [named?, setTable, Std.ExtTreeMap.getElem?_insert, Nat.compare_eq_eq]
  split <;> rfl

theorem singletonOf?_setTable (h : Heap) (c : Module) (t : ModuleTable) (id : Nat) :
    (h.setTable c t).singletonOf? id = if c.id = id then t.singleton? else h.singletonOf? id := by
  simp only [singletonOf?, setTable, Std.ExtTreeMap.getElem?_insert, Nat.compare_eq_eq]
  split <;> rfl

theorem named?_setConstant (h : Heap) (c : Module) (name : String) (v : Value)
    (key : Nat × String) :
    (h.setConstant c name v).named? key = if (c.id, name) = key then some v else h.named? key := by
  obtain ⟨id, a⟩ := key
  rw [setConstant, named?_setTable]
  by_cases hid : c.id = id
  · subst hid
    simp only [if_true, Std.ExtTreeMap.getElem?_insert, Std.compare_eq_iff_eq, Prod.mk.injEq,
      true_and]
    rfl
  · simp [hid]

end Heap

/-! ### What a definition gains -/

/-- The second table has all of the first, and the entries of the set besides. -/
structure Gained {α β : Type} (f g : α → Option β) (new : Finset α) : Prop where
  kept : ∀ a b, f a = some b → g a = some b
  mem : ∀ a, a ∈ new ↔ f a = none ∧ g a ≠ none

namespace Gained

variable {α β : Type} {f g k : α → Option β}

theorem of_eq (h : ∀ a, g a = f a) : Gained f g ∅ where
  kept a b hf := by rw [h, hf]
  mem a := by simp [h]

theorem single {a : α} {b : β} (hf : f a = none) (ha : g a = some b)
    (h : ∀ a', a' ≠ a → g a' = f a') :
    Gained f g {a} where
  kept a' b' hf' := by
    have hne : a' ≠ a := by
      rintro rfl
      rw [hf] at hf'
      cases hf'
    rw [h a' hne, hf']
  mem a' := by
    rw [Finset.mem_singleton]
    constructor
    · rintro rfl
      exact ⟨hf, by simp [ha]⟩
    · rintro ⟨hnone, hsome⟩
      by_contra hne
      exact hsome (by rw [h a' hne, hnone])

theorem disjoint {s t : Finset α} (hs : Gained f g s) (ht : Gained g k t) : Disjoint s t :=
  Finset.disjoint_left.2 fun a ha hat => ((hs.mem a).1 ha).2 ((ht.mem a).1 hat).1

theorem trans [DecidableEq α] {s t : Finset α} (hs : Gained f g s) (ht : Gained g k t) :
    Gained f k (s ∪ t) where
  kept a b hf := ht.kept a b (hs.kept a b hf)
  mem a := by
    rw [Finset.mem_union, hs.mem, ht.mem]
    constructor
    · rintro (⟨hf, hg⟩ | ⟨hg, hk⟩)
      · obtain ⟨b, hb⟩ := Option.ne_none_iff_exists'.1 hg
        exact ⟨hf, by rw [ht.kept a b hb]; simp⟩
      · refine ⟨?_, hk⟩
        by_contra hf
        obtain ⟨b, hb⟩ := Option.ne_none_iff_exists'.1 hf
        rw [hs.kept a b hb] at hg
        cases hg
    · rintro ⟨hf, hk⟩
      by_cases hg : g a = none
      · exact .inr ⟨hg, hk⟩
      · exact .inl ⟨hf, hg⟩

end Gained

namespace Heap

/-- A heap with more constants and singleton classes, each of them for a module that was made. -/
structure Gains (h k : Heap) (keys : Finset (Nat × String)) (owners : Finset Nat) : Prop where
  named : Gained h.named? k.named? keys
  singletons : Gained h.singletonOf? k.singletonOf? owners
  modules : k.next.modules = h.next.modules + keys.card + owners.card

namespace Gains

variable {h k l : Heap} {c m : Module} {name : String} {keys : Finset (Nat × String)}
  {owners : Finset Nat}

theorem refl (h : Heap) : h.Gains h ∅ ∅ := ⟨.of_eq fun _ => rfl, .of_eq fun _ => rfl, rfl⟩

/-- The module is a constant that was not bound. -/
theorem setConstant {make : Nat → Module} (hnone : h.constant? c name = none) (v : Value) :
    h.Gains ((h.newModule make).2.setConstant c name v) {(c.id, name)} ∅ where
  named := by
    refine .single hnone (b := v) ?_ fun key hne => ?_
    · rw [named?_setConstant, if_pos rfl]
    · rw [named?_setConstant, if_neg (Ne.symm hne)]
      rfl
  singletons := .of_eq fun id => by
    rw [Heap.setConstant, singletonOf?_setTable]
    split
    · next hid => rw [← hid]; rfl
    · rfl
  modules := rfl

/-- The module is a singleton class that was missing. -/
theorem setSingleton {make : Nat → Module} (hnone : h.singleton? (.module c) = none) (s : Module) :
    h.Gains ((h.newModule make).2.setSingleton (.module c) s) ∅ {c.id} where
  named := .of_eq fun key => by
    obtain ⟨id, a⟩ := key
    rw [Heap.setSingleton, named?_setTable]
    split
    · next hid => cases hid; rfl
    · rfl
  singletons := by
    refine .single hnone (b := s) ?_ fun id hne => ?_
    · rw [Heap.setSingleton, singletonOf?_setTable, if_pos rfl]
    · rw [Heap.setSingleton, singletonOf?_setTable, if_neg (Ne.symm hne)]
      rfl
  modules := rfl

/-- The body and its scope are bound elsewhere than constants and singleton classes. -/
theorem bound (hk : h.Gains k keys owners) (m : Module) (b : Body) (v : Visibility) :
    h.Gains (((k.bindScope b.scope m).bindBody m b).newMethod b v m).2 keys owners where
  named := by
    have hsame : ∀ key, (((k.bindScope b.scope m).bindBody m b).newMethod b v m).2.named? key =
        k.named? key := by
      rintro ⟨id, a⟩
      refine (named?_setTable _ m _ (id, a)).trans ?_
      split
      · next hid => cases hid; rfl
      · rfl
    exact (funext hsame : _ = k.named?) ▸ hk.named
  singletons := by
    have hsame : ∀ id, (((k.bindScope b.scope m).bindBody m b).newMethod b v m).2.singletonOf? id =
        k.singletonOf? id := by
      intro id
      refine (singletonOf?_setTable _ m _ id).trans ?_
      split
      · next hid => cases hid; rfl
      · rfl
    exact (funext hsame : _ = k.singletonOf?) ▸ hk.singletons
  modules := hk.modules

end Gains

end Heap

theorem Definition.opening_gains {d : Definition} {c m : Module} {h k : Heap}
    (hk : d.opening c h = .ok (m, k)) : ∃ keys owners, h.Gains k keys owners := by
  unfold opening at hk
  split at hk
  · rcases Heap.singletonClass_eq_ok hk with ⟨-, rfl⟩ | ⟨hnone, make, rfl⟩
    · exact ⟨_, _, .refl _⟩
    · exact ⟨_, _, .setSingleton hnone m⟩
  · rcases (Heap.openModule_eq_ok hk).2.2 with ⟨-, rfl⟩ | ⟨hnone, -, make, rfl⟩
    · exact ⟨_, _, .refl _⟩
    · exact ⟨_, _, .setConstant hnone _⟩
  · split at hk
    · cases hk
    · rcases (Heap.openClass_eq_ok hk).2.2.2 with ⟨-, rfl⟩ | ⟨hnone, -, make, rfl⟩
      · exact ⟨_, _, .refl _⟩
      · exact ⟨_, _, .setConstant hnone _⟩
  · cases hk

/-! ### Attempts -/

/-- A definition that is carried out on a heap. -/
structure Attempt where
  before : Heap
  definition : Definition

namespace Attempt

/-- A definition that fails changes nothing. -/
def after (a : Attempt) : Heap :=
  match a.definition.carryOut a.before with
  | .ok (_, k) => k
  | .error _ => a.before

/-- The module that the definition answers. -/
def answer (a : Attempt) : Except Failure Module :=
  (a.definition.carryOut a.before).map fun p => p.1.module

/-- How many modules it makes. -/
def made (a : Attempt) : Nat := a.after.next.modules - a.before.next.modules

/-- How many modules the attempts make together. -/
def madeByAll : List Attempt → Nat
  | [] => 0
  | a :: as => a.made + madeByAll as

variable {a : Attempt} {c m : Module}

theorem gains (a : Attempt) : ∃ keys owners, a.before.Gains a.after keys owners := by
  rw [after]
  cases hk : a.definition.carryOut a.before with
  | error f => exact ⟨_, _, .refl _⟩
  | ok p =>
    obtain ⟨c, l, -, hopen, -, hmade⟩ := Definition.carryOut_eq_ok hk
    obtain ⟨keys, owners, hgains⟩ := Definition.opening_gains hopen
    have hafter := hgains.bound p.1.module a.definition.body .public
    rw [← hmade] at hafter
    exact ⟨keys, owners, hafter⟩

theorem answer_eq (hc : a.definition.container = .module c) :
    a.answer = (a.definition.opening c a.before).map Prod.fst := by
  rw [answer, a.definition.carryOut_eq a.before hc]
  cases a.definition.opening c a.before <;> rfl

/-- A constant that is bound is not bound again. -/
theorem constant?_after {name : String} {v : Value} (hv : a.before.constant? c name = some v) :
    a.after.constant? c name = some v := by
  obtain ⟨keys, owners, hgains⟩ := a.gains
  exact hgains.named.kept (c.id, name) v hv

/-- What the definition opens is what it answers, with the same constants. -/
theorem opened (hc : a.definition.container = .module c) (hm : a.answer = .ok m) :
    ∃ k, a.definition.opening c a.before = .ok (m, k) ∧
      ∀ n name, a.after.constant? n name = k.constant? n name := by
  rw [answer] at hm
  rw [after]
  cases hk : a.definition.carryOut a.before with
  | error f => rw [hk] at hm; cases hm
  | ok p =>
    obtain ⟨c', l, hc', hopen, -, hmade⟩ := Definition.carryOut_eq_ok hk
    rw [hk] at hm
    cases hm
    cases hc.symm.trans hc'
    refine ⟨l, hopen, fun n name => ?_⟩
    show p.2.constant? n name = _
    rw [hmade]
    exact Heap.constant?_bindBody _ _ n name _

/-- The definition is of the constant of that name in the container. -/
structure Of (a : Attempt) (c : Module) (name : String) : Prop where
  container : a.definition.container = .module c
  name : a.definition.body.name = name
  kind : a.definition.body.kind = .classBody ∨ a.definition.body.kind = .moduleBody

/-- What the constant stands for once a definition of it has answered. -/
structure Binds (a : Attempt) (c : Module) (name : String) (m : Module) : Prop where
  bound : a.after.constant? c name = some (.module m)
  isClass : m.isClass = true ↔ a.definition.body.kind = .classBody
  notSingleton : m.isSingleton = false
  /-- A class that is made has the superclass that was given for it, or `Object`. -/
  class_made : a.before.constant? c name = none → a.definition.body.kind = .classBody →
    ∃ superclass?, a.definition.inherited = .ok superclass? ∧
      m.superclass? = some (superclass?.getD Core.object)
  module_made : a.before.constant? c name = none → a.definition.body.kind = .moduleBody →
    m.superclass? = none

theorem Of.binds {name : String} (ha : a.Of c name) (hm : a.answer = .ok m) : a.Binds c name m := by
  obtain ⟨hc, rfl, hkind⟩ := ha
  obtain ⟨k, hopen, hsame⟩ := opened hc hm
  rw [Definition.opening] at hopen
  rcases hkind with hkind | hkind
  · rw [hkind] at hopen
    simp only at hopen
    split at hopen
    · cases hopen
    · next superclass? hs =>
      obtain ⟨hclass, hsingleton, hbound, hcases⟩ := Heap.openClass_eq_ok hopen
      refine ⟨(hsame _ _).trans hbound, by simp [hclass, hkind], hsingleton, fun hnone _ => ?_,
        by simp [hkind]⟩
      rcases hcases with ⟨hthere, -⟩ | ⟨-, hsuper, -⟩
      · rw [hnone] at hthere
        cases hthere
      · exact ⟨superclass?, hs, hsuper⟩
  · rw [hkind] at hopen
    obtain ⟨hclass, hbound, hcases⟩ := Heap.openModule_eq_ok hopen
    refine ⟨(hsame _ _).trans hbound, by simp [hclass, hkind], ?_, by simp [hkind],
      fun hnone _ => ?_⟩
    · exact Bool.eq_false_iff.2 fun hsingleton => by
        rw [Module.isClass_of_isSingleton hsingleton] at hclass
        cases hclass
    · rcases hcases with ⟨hthere, -⟩ | ⟨-, hsuper, -⟩
      · rw [hnone] at hthere
        cases hthere
      · exact hsuper

/--
What a definition of a constant comes to that stands for the module: it is refused if its superclass
is, or if the module is not of its kind, or if it is a class with another superclass.
-/
structure Reopens (b : Attempt) (c m : Module) : Prop where
  module : b.definition.body.kind = .moduleBody → m.isClass = false → b.answer = .ok m
  notModule : b.definition.body.kind = .moduleBody → m.isClass = true →
    b.answer = .error (.type (.notModuleConstant (c.qualify b.definition.body.name)))
  refused : b.definition.body.kind = .classBody → ∀ f, b.definition.inherited = .error f →
    b.answer = .error f
  notClass : b.definition.body.kind = .classBody → ∀ superclass?,
    b.definition.inherited = .ok superclass? → m.isClass = false →
      b.answer = .error (.type (.notClassConstant (c.qualify b.definition.body.name)))
  «class» : b.definition.body.kind = .classBody → ∀ superclass?,
    b.definition.inherited = .ok superclass? → m.isClass = true →
      (∀ s, superclass? = some s → m.superclass? = some s) → b.answer = .ok m
  mismatch : b.definition.body.kind = .classBody → ∀ s,
    b.definition.inherited = .ok (some s) → m.isClass = true → m.superclass? ≠ some s →
      b.answer = .error (.type (.superclassMismatch (c.qualify b.definition.body.name)))

theorem reopens {b : Attempt} (hc : b.definition.container = .module c)
    (hm : b.before.constant? c b.definition.body.name = some (.module m))
    (hsingleton : m.isSingleton = false) : b.Reopens c m := by
  have hmodule : b.definition.body.kind = .moduleBody →
      b.answer = (b.before.openModule c b.definition.body.name).map Prod.fst := by
    intro hkind
    rw [answer_eq hc, Definition.opening, hkind]
  have hclass : b.definition.body.kind = .classBody → ∀ superclass?,
      b.definition.inherited = .ok superclass? →
        b.answer = (b.before.openClass c b.definition.body.name superclass?).map Prod.fst := by
    intro hkind superclass? hs
    rw [answer_eq hc, Definition.opening, hkind, hs]
  constructor
  · intro hkind hnot
    rw [hmodule hkind, Heap.openModule, hm]
    simp only [hnot, Bool.false_eq_true, if_false]
    rfl
  · intro hkind his
    rw [hmodule hkind, Heap.openModule, hm]
    simp only [his, if_true]
    rfl
  · intro hkind f hf
    rw [answer_eq hc, Definition.opening, hkind, hf]
    rfl
  · intro hkind superclass? hs hnot
    rw [hclass hkind superclass? hs, Heap.openClass, hm]
    simp only [hnot, Bool.not_false, Bool.true_or, if_true]
    rfl
  · intro hkind superclass? hs his hsame
    rw [hclass hkind superclass? hs, Heap.openClass, hm]
    simp only [his, hsingleton, Bool.not_true, Bool.or_self, Bool.false_eq_true, if_false]
    cases superclass? with
    | none => rfl
    | some s => simp only [hsame s rfl, if_true]; rfl
  · intro hkind s hs his hother
    rw [hclass hkind _ hs, Heap.openClass, hm]
    simp only [his, hsingleton, Bool.not_true, Bool.or_self, Bool.false_eq_true, if_false,
      if_neg hother]
    rfl

end Attempt

/-! ### Histories -/

/-- A change of the heap that leaves constants as they are, and singleton classes that are there. -/
structure Heap.Retains (h k : Heap) : Prop where
  named : ∀ key, k.named? key = h.named? key
  singletons : ∀ id s, h.singletonOf? id = some s → k.singletonOf? id = some s

/-- Definitions that are attempted one after the other, with other changes of the heap between. -/
inductive Heap.History : Heap → List Attempt → Heap → Prop
  | done (h : Heap) : History h [] h
  | meanwhile {h k l : Heap} {as : List Attempt} (hk : h.Retains k) (hist : History k as l) :
    History h as l
  | attempt {l : Heap} {a : Attempt} {as : List Attempt} (hist : History a.after as l) :
    History a.before (a :: as) l

namespace Heap.History

variable {h l : Heap} {as : List Attempt}

/-- A constant that is bound stays bound to the same value. -/
theorem constant? (hist : h.History as l) {c : Module} {name : String} {v : Value}
    (hv : h.constant? c name = some v) :
    (∀ a ∈ as, a.before.constant? c name = some v) ∧ l.constant? c name = some v := by
  induction hist with
  | done h => exact ⟨by rintro a ⟨⟩, hv⟩
  | meanwhile hk _ ih => exact ih ((hk.named (c.id, name)).trans hv)
  | attempt _ ih =>
    obtain ⟨hall, hl⟩ := ih (Attempt.constant?_after hv)
    exact ⟨List.forall_mem_cons.2 ⟨hv, hall⟩, hl⟩

theorem singletonOf? (hist : h.History as l) {id : Nat} {s : Module}
    (hs : h.singletonOf? id = some s) : ∀ a ∈ as, a.before.singletonOf? id = some s := by
  induction hist with
  | done h => rintro a ⟨⟩
  | meanwhile hk _ ih => exact ih (hk.singletons id s hs)
  | @attempt l a as _ ih =>
    obtain ⟨keys, owners, hgains⟩ := a.gains
    exact List.forall_mem_cons.2 ⟨hs, ih (hgains.singletons.kept id s hs)⟩

/-- After an attempt in the history, the history goes on. -/
theorem after_attempt {xs ys : List Attempt} {a : Attempt} (hist : h.History (xs ++ a :: ys) l) :
    a.after.History ys l := by
  generalize hall : xs ++ a :: ys = as at hist
  induction hist generalizing xs with
  | done h => simp at hall
  | meanwhile _ _ ih => exact ih hall
  | attempt hist ih =>
    cases xs with
    | nil => cases hall; exact hist
    | cons x xs => cases hall; exact ih rfl

/-- Modules are made for constants that get bound, and for singleton classes that are missing. -/
theorem made_eq (hist : h.History as l) :
    ∃ (keys : Finset (Nat × String)) (owners : Finset Nat),
      Gained h.named? l.named? keys ∧
      (∀ id, id ∈ owners ↔
        ∃ a ∈ as, a.before.singletonOf? id = none ∧ a.after.singletonOf? id ≠ none) ∧
      Attempt.madeByAll as = keys.card + owners.card := by
  induction hist with
  | done h => exact ⟨∅, ∅, .of_eq fun _ => rfl, by simp, rfl⟩
  | meanwhile hk _ ih =>
    obtain ⟨keys, owners, hkeys, howners, hsum⟩ := ih
    exact ⟨keys, owners, (funext hk.named : _ = _) ▸ hkeys, howners, hsum⟩
  | @attempt l a as hist ih =>
    obtain ⟨keys, owners, hkeys, howners, hsum⟩ := ih
    obtain ⟨newKeys, newOwners, hgains⟩ := a.gains
    refine ⟨newKeys ∪ keys, newOwners ∪ owners, hgains.named.trans hkeys, fun id => ?_, ?_⟩
    · simp only [Finset.mem_union, hgains.singletons.mem, howners, List.mem_cons,
        exists_eq_or_imp]
    · -- what an attempt makes is there before all later ones
      have hdisjoint : Disjoint newOwners owners := by
        refine Finset.disjoint_left.2 fun id hnew hold => ?_
        obtain ⟨s, hs⟩ := Option.ne_none_iff_exists'.1 ((hgains.singletons.mem id).1 hnew).2
        obtain ⟨b, hb, hnone, -⟩ := (howners id).1 hold
        rw [hist.singletonOf? hs b hb] at hnone
        cases hnone
      have hmade : a.made = newKeys.card + newOwners.card := by
        rw [Attempt.made, hgains.modules]
        omega
      rw [Attempt.madeByAll, hsum, hmade,
        Finset.card_union_of_disjoint (hgains.named.disjoint hkeys),
        Finset.card_union_of_disjoint hdisjoint]
      omega

end Heap.History

/--
Whatever definitions are attempted, and whatever else is done but to bind constants: once a class or
module body has opened a module, its constant stands for that module for good, and each later
definition of it opens the same one, or is refused for its superclass or its kind. As many modules
are made as constants get bound and missing singleton classes are added.
-/
theorem definitions_keep_their_modules {h l : Heap} {as : List Attempt} (hist : h.History as l) :
    (∀ (xs ys : List Attempt) (a : Attempt) (c : Module) (name : String) (m : Module),
      as = xs ++ a :: ys → a.Of c name → a.answer = .ok m →
        a.Binds c name m ∧ l.constant? c name = some (.module m) ∧
          ∀ b ∈ ys, b.before.constant? c name = some (.module m) ∧
            b.after.constant? c name = some (.module m) ∧ (b.Of c name → b.Reopens c m)) ∧
      ∃ (keys : Finset (Nat × String)) (owners : Finset Nat),
        (∀ key, key ∈ keys ↔ h.named? key = none ∧ l.named? key ≠ none) ∧
          (∀ id, id ∈ owners ↔
            ∃ a ∈ as, a.before.singletonOf? id = none ∧ a.after.singletonOf? id ≠ none) ∧
          Attempt.madeByAll as = keys.card + owners.card := by
  refine ⟨?_, ?_⟩
  · rintro xs ys a c name m rfl hof hm
    have hbinds := hof.binds hm
    obtain ⟨hbefore, hl⟩ := hist.after_attempt.constant? hbinds.bound
    refine ⟨hbinds, hl, fun b hb => ⟨hbefore b hb, Attempt.constant?_after (hbefore b hb), ?_⟩⟩
    intro hof'
    have hbound := hbefore b hb
    rw [← hof'.name] at hbound
    exact Attempt.reopens hof'.container hbound hbinds.notSingleton
  · obtain ⟨keys, owners, hkeys, howners, hsum⟩ := hist.made_eq
    exact ⟨keys, owners, hkeys.mem, howners, hsum⟩

/-- The definition of a class in `Object`. -/
def shapeDefinition (superclass : Except Failure (Option Value)) : Definition where
  body := Draft.body { name := "Shape", scope := ⟨⟨0, .classBody, []⟩, []⟩ } 0 {}
  container := .module Core.object
  superclass := superclass

/-- A class that is made, and then defined with another superclass. -/
theorem definitions_keep_their_modules_shape :
    ∃ (a b : Attempt) (m : Module), a.definition = shapeDefinition (.ok none) ∧
      b.definition = shapeDefinition (.ok (some (.module Core.string))) ∧
      Heap.History .initial [a, b] b.after ∧ a.answer = .ok m ∧
      b.answer = .error (.type (.superclassMismatch "Shape")) ∧
      b.after.constant? Core.object "Shape" = some (.module m) := by
  let a : Attempt := ⟨.initial, shapeDefinition (.ok none)⟩
  let b : Attempt := ⟨a.after, shapeDefinition (.ok (some (.module Core.string)))⟩
  have hist : Heap.History .initial [a, b] b.after :=
    .attempt (a := a) (.attempt (a := b) (.done _))
  have hof : ∀ (h : Heap) (x : Except Failure (Option Value)),
      (Attempt.mk h (shapeDefinition x)).Of Core.object "Shape" := fun _ _ => ⟨rfl, rfl, .inl rfl⟩
  have hvalue : a.answer.toOption = some (.subclass 14 "Shape" true Core.object) := by
    decide +kernel
  obtain ⟨m, hm, hsuper⟩ : ∃ m, a.answer = .ok m ∧ m.superclass? = some Core.object := by
    cases ha : a.answer with
    | error f =>
      rw [ha] at hvalue
      cases hvalue
    | ok m =>
      rw [ha] at hvalue
      cases hvalue
      exact ⟨_, rfl, rfl⟩
  obtain ⟨hbinds, -, hlater⟩ := (definitions_keep_their_modules hist).1 [] [b] a Core.object "Shape"
    m rfl (hof _ _) hm
  obtain ⟨-, hafter, hreopens⟩ := hlater b List.mem_cons_self
  have hother : m.superclass? ≠ some Core.string := by
    rw [hsuper]
    decide
  exact ⟨a, b, m, rfl, rfl, hist, hm,
    (hreopens (hof _ _)).mismatch rfl Core.string rfl (hbinds.isClass.2 rfl) hother, hafter⟩

end ObjectIr
