import Mathlib.Logic.Equiv.Basic
import ObjectIr.Proofs.Population.Allotted

/-!
# Independent definitions

What a definition comes to depends on one entry of the heap alone, the constant or the singleton
class that it opens (`Definition.goes_alike`), and it leaves its mark at this entry, at the body of
the module and at the scope of the body (`Definition.entry?_carryOut`). So two definitions that open
different entries, for bodies of different scopes, do not see each other. On any heap whose modules
are numbered in order (`Heap.Numbered`) they may be carried out either way around; only the numbers
of what both make anew change places (`definitions_commute`).
-/

namespace ObjectIr

/-! ### Entries of the heap -/

namespace Heap

/-- Where a definition can leave a mark, by the numbers of modules and scopes. -/
inductive Spot where
  | constant (module : Nat) (name : String)
  | singleton (owner : Owner)
  | body (module : Nat)
  | binding (scope : Nat)
  deriving DecidableEq

/-- The number of the module that the spot belongs to. -/
def Spot.module? : Spot → Option Nat
  | .constant id _ | .singleton (.module id) | .body id => some id
  | .singleton (.object _) | .binding _ => none

/-- What stands there: the value of a constant, a module, or a body. -/
inductive Mark where
  | value (v : Value)
  | body (b : Body)

/-- The body of the module of that number. -/
def bodyOf? (h : Heap) (id : Nat) : Option Body := ((h.tables[id]?).getD {}).body?

def entry? (h : Heap) : Spot → Option Mark
  | .constant id name => (h.named? (id, name)).map .value
  | .singleton o => (h.slot? o).map fun s => .value (.module s)
  | .body id => (h.bodyOf? id).map .body
  | .binding id => (h.bindings[id]?).map fun m => .value (.module m)

variable {h k : Heap} {c : Module} {name : String}

theorem constant?_of_entry? (hk : k.entry? (.constant c.id name) = h.entry? (.constant c.id name)) :
    k.constant? c name = h.constant? c name := by
  refine Option.map_injective (f := Mark.value) (fun v w hvw => ?_) hk
  cases hvw
  rfl

theorem singleton?_of_entry?
    (hk : k.entry? (.singleton (.module c.id)) = h.entry? (.singleton (.module c.id))) :
    k.singleton? (.module c) = h.singleton? (.module c) := by
  refine Option.map_injective (f := fun s => Mark.value (.module s)) (fun s t hst => ?_) hk
  cases hst
  rfl

end Heap

namespace Definition

open Heap (Spot Mark)

/-- The entry that a definition opens. -/
def target? (d : Definition) : Option Spot :=
  d.container.module?.bind fun c =>
    match d.body.kind with
    | .metaclassBody => some (.singleton (.module c.id))
    | .moduleBody | .classBody => some (.constant c.id d.body.name)
    | _ => none

/-- What the definition writes at a spot, once it has opened a module. -/
def leaves (d : Definition) (m : Module) (p : Spot) : Option Mark :=
  if d.target? = some p then some (.value (.module m))
  else
    match p with
    | .body id => if m.id = id then some (.body d.body) else none
    | .binding id => if d.body.scope.id = id then some (.value (.module m)) else none
    | _ => none

variable {d : Definition} {h k : Heap} {x : Method}

theorem target?_eq_some {p : Spot} (hp : d.target? = some p) :
    (∃ id name, p = .constant id name) ∨ ∃ o, p = .singleton o := by
  obtain ⟨c, -, hp⟩ := Option.bind_eq_some_iff.1 hp
  split at hp
  · cases hp; exact .inr ⟨_, rfl⟩
  · cases hp; exact .inl ⟨_, _, rfl⟩
  · cases hp; exact .inl ⟨_, _, rfl⟩
  · cases hp

/-- A definition opens an entry of its container. -/
theorem module?_of_target? {p : Spot} (hp : d.target? = some p) :
    ∃ c, d.container = .module c ∧ p.module? = some c.id := by
  obtain ⟨c, hc, hp⟩ := Option.bind_eq_some_iff.1 hp
  have hcontainer : d.container = .module c := by
    cases hd : d.container with
    | module m => rw [hd] at hc; exact congrArg Value.module (Option.some.inj hc)
    | _ => rw [hd] at hc; cases hc
  refine ⟨c, hcontainer, ?_⟩
  split at hp <;> cases hp <;> rfl

section Container

variable {c : Module} (hc : d.container = .module c) (hbody : d.body.kind.isModuleBody = true)

include hc hbody

theorem target?_eq_constant {id : Nat} {name : String} :
    d.target? = some (.constant id name) ↔
      d.body.kind ≠ .metaclassBody ∧ c.id = id ∧ d.body.name = name := by
  rw [target?, hc]
  cases hkind : d.body.kind <;> simp_all [Value.module?, BodyKind.isModuleBody]

theorem target?_eq_singleton {o : Owner} :
    d.target? = some (.singleton o) ↔ d.body.kind = .metaclassBody ∧ .module c.id = o := by
  rw [target?, hc]
  cases hkind : d.body.kind <;> simp_all [Value.module?, BodyKind.isModuleBody]

end Container

theorem carryOut_defines (hk : d.carryOut h = .ok (x, k)) :
    ∃ c, d.container = .module c ∧ h.Defines d.body c x.module k := by
  have hdefine : ∃ superclass?, h.define d.body d.container superclass? = .ok (x, k) := by
    rw [carryOut] at hk
    split at hk
    · split at hk
      · cases hk
      · exact ⟨_, hk⟩
    · exact ⟨none, hk⟩
  obtain ⟨superclass?, hk⟩ := hdefine
  obtain ⟨c, hc, -, -, hdefines⟩ := Heap.define_eq_ok hk
  exact ⟨c, hc, hdefines⟩

/-- A definition changes the entries where it leaves its marks, and no others. -/
theorem entry?_carryOut (hk : d.carryOut h = .ok (x, k)) (p : Spot) :
    k.entry? p = (d.leaves x.module p).or (h.entry? p) := by
  obtain ⟨c, hc, hdefines⟩ := carryOut_defines hk
  have hplain : ∀ {p : Spot}, (∀ id name, p ≠ .constant id name) → (∀ o, p ≠ .singleton o) →
      d.target? ≠ some p := by
    intro p hconstant hsingleton hp
    rcases target?_eq_some hp with ⟨id, name, rfl⟩ | ⟨o, rfl⟩
    · exact hconstant id name rfl
    · exact hsingleton o rfl
  cases p with
  | constant id name =>
    have hread : k.named? (id, name) =
        if d.body.kind ≠ .metaclassBody ∧ c.id = id ∧ d.body.name = name then
          some (.module x.module)
        else h.named? (id, name) := hdefines.constants (.root id "" .module) name
    simp only [Heap.entry?, hread, leaves, target?_eq_constant hc hdefines.kind]
    split <;> rfl
  | singleton o =>
    simp only [Heap.entry?, hdefines.slots, leaves, target?_eq_singleton hc hdefines.kind]
    split <;> rfl
  | body id =>
    have hread : k.bodyOf? id = if x.module.id = id then some d.body else h.bodyOf? id :=
      hdefines.bodies (.root id "" .module)
    simp only [Heap.entry?, hread, leaves]
    rw [if_neg (hplain (by simp) (by simp))]
    split <;> rfl
  | binding id =>
    have hread : k.bindings[id]? =
        if d.body.scope.id = id then some x.module else h.bindings[id]? :=
      hdefines.bindings ⟨id, .script, []⟩
    simp only [Heap.entry?, hread, leaves]
    rw [if_neg (hplain (by simp) (by simp))]
    split <;> rfl

theorem method?_carryOut (hk : d.carryOut h = .ok (x, k)) (m : Module) (name : String) :
    k.method? m name = h.method? m name := by
  obtain ⟨c, -, hdefines⟩ := carryOut_defines hk
  exact hdefines.methods m name

theorem slots_carryOut (hk : d.carryOut h = .ok (x, k)) : k.slots = h.slots := by
  obtain ⟨c, -, hdefines⟩ := carryOut_defines hk
  exact hdefines.locals

end Definition

/-! ### What definitions read -/

/-- A module like this one, under another number. -/
def Module.renumber (f : Nat → Nat) : Module → Module
  | .root id name kind => .root (f id) name kind
  | .subclass id name inheritable superclass => .subclass (f id) name inheritable superclass

namespace Module

variable (f : Nat → Nat) (m : Module)

@[simp] theorem id_renumber : (m.renumber f).id = f m.id := by cases m <;> rfl

theorem renumber_renumber (g : Nat → Nat) :
    (m.renumber f).renumber g = m.renumber fun n => g (f n) := by cases m <;> rfl

variable {f m}

theorem renumber_of_fixed (h : f m.id = m.id) : m.renumber f = m := by
  cases m with
  | root id name kind => exact congrArg (Module.root · name kind) h
  | subclass id name inheritable superclass =>
    exact congrArg (Module.subclass · name inheritable superclass) h

end Module

/-- How a definition comes by its module. -/
inductive Opening where
  /-- It was there already. -/
  | found (m : Module)
  /-- One like this is made, under the next number. -/
  | made (m : Module)

namespace Opening

def module : Opening → Nat → Module
  | .found m, _ => m
  | .made m, next => m.renumber fun _ => next

/-- How many modules are made. -/
def count : Opening → Nat
  | .found _ => 0
  | .made _ => 1

/-- The outcome of opening a module of a heap, by the course that it takes. -/
def Leads (h : Heap) : Except Failure Opening → Except Failure (Module × Heap) → Prop
  | .error f, x => x = .error f
  | .ok o, x => ∃ k, x = .ok (o.module h.next.modules, k) ∧
      k.next = { h.next with modules := h.next.modules + o.count }

/-- Opening takes the same course on both heaps, and finds only a module that stands there. -/
structure Alike (h k : Heap) (standing : Module → Prop) (x y : Except Failure (Module × Heap))
    (r : Except Failure Opening) : Prop where
  found : ∀ m, r = .ok (.found m) → standing m
  left : Leads h r x
  right : Leads k r y

section Alike

variable {h k : Heap} {standing : Module → Prop} {c : Module} {name : String}

theorem alike_refused (f : Failure) :
    Alike h k standing (.error f) (.error f) (.error f) := ⟨by rintro _ ⟨⟩, rfl, rfl⟩

theorem alike_found {m : Module} (hm : standing m) :
    Alike h k standing (.ok (m, h)) (.ok (m, k)) (.ok (.found m)) :=
  ⟨by rintro _ ⟨⟩; exact hm, ⟨h, rfl, rfl⟩, ⟨k, rfl, rfl⟩⟩

theorem alike_openModule (hk : k.constant? c name = h.constant? c name) :
    ∃ r, Alike h k (fun m => h.constant? c name = some (.module m)) (h.openModule c name)
      (k.openModule c name) r := by
  simp only [Heap.openModule, hk]
  cases h.constant? c name with
  | none =>
    exact ⟨.ok (.made (.root 0 (c.qualify name) .module)), by rintro _ ⟨⟩, ⟨_, rfl, rfl⟩, _, rfl,
      rfl⟩
  | some v =>
    cases v with
    | module m =>
      simp only
      split
      · exact ⟨_, alike_refused _⟩
      · exact ⟨_, alike_found rfl⟩
    | _ => exact ⟨_, alike_refused _⟩

theorem alike_openClass (hk : k.constant? c name = h.constant? c name)
    (superclass? : Option Module) :
    ∃ r, Alike h k (fun m => h.constant? c name = some (.module m))
      (h.openClass c name superclass?) (k.openClass c name superclass?) r := by
  simp only [Heap.openClass, hk]
  cases h.constant? c name with
  | none =>
    exact ⟨.ok (.made (.subclass 0 (c.qualify name) true (superclass?.getD Core.object))),
      by rintro _ ⟨⟩, ⟨_, rfl, rfl⟩, _, rfl, rfl⟩
  | some v =>
    cases v with
    | module m =>
      simp only
      split
      · exact ⟨_, alike_refused _⟩
      · cases superclass? with
        | none => exact ⟨_, alike_found rfl⟩
        | some s =>
          simp only
          split
          · exact ⟨_, alike_found rfl⟩
          · exact ⟨_, alike_refused _⟩
    | _ => exact ⟨_, alike_refused _⟩

theorem alike_singletonClass (hk : k.singleton? (.module c) = h.singleton? (.module c)) :
    ∃ r, Alike h k (fun m => h.singleton? (.module c) = some m) (h.singletonClass (.module c))
      (k.singletonClass (.module c)) r := by
  simp only [Heap.singletonClass, hk]
  cases h.singleton? (.module c) with
  | none =>
    exact ⟨.ok (.made (.root 0 ("#<Class:" ++ c.name ++ ">") .singleton)), by rintro _ ⟨⟩,
      ⟨_, rfl, rfl⟩, _, rfl, rfl⟩
  | some s => exact ⟨_, alike_found rfl⟩

end Alike

end Opening

namespace Definition

open Heap (Spot Mark)

/-- The module stands where the definition would open it. -/
def Finds (d : Definition) (h : Heap) (m : Module) : Prop :=
  ∃ p, d.target? = some p ∧ h.entry? p = some (.value (.module m))

/-- On heaps that have the same at its target, a definition takes the same course. -/
theorem opening_alike {d : Definition} {c : Module} (hc : d.container = .module c) {h k : Heap}
    (hk : ∀ p, d.target? = some p → k.entry? p = h.entry? p) :
    ∃ r, Opening.Alike h k (d.Finds h) (d.opening c h) (d.opening c k) r := by
  have hconstant : d.target? = some (.constant c.id d.body.name) →
      k.constant? c d.body.name = h.constant? c d.body.name ∧
        ∀ m, h.constant? c d.body.name = some (.module m) → d.Finds h m := fun htarget =>
    ⟨Heap.constant?_of_entry? (hk _ htarget),
      fun m hm => ⟨_, htarget, congrArg (Option.map Mark.value) hm⟩⟩
  unfold opening
  cases hkind : d.body.kind with
  | metaclassBody =>
    have htarget : d.target? = some (.singleton (.module c.id)) := by
      simp [target?, hc, Value.module?, hkind]
    obtain ⟨r, hr⟩ := Opening.alike_singletonClass (Heap.singleton?_of_entry? (hk _ htarget))
    exact ⟨r, fun m hm => ⟨_, htarget, congrArg (Option.map _) (hr.found m hm)⟩, hr.left, hr.right⟩
  | moduleBody =>
    obtain ⟨hsame, hfinds⟩ := hconstant (by simp [target?, hc, Value.module?, hkind])
    obtain ⟨r, hr⟩ := Opening.alike_openModule hsame
    exact ⟨r, fun m hm => hfinds m (hr.found m hm), hr.left, hr.right⟩
  | classBody =>
    obtain ⟨hsame, hfinds⟩ := hconstant (by simp [target?, hc, Value.module?, hkind])
    simp only
    cases d.inherited with
    | error f => exact ⟨_, Opening.alike_refused f⟩
    | ok superclass? =>
      obtain ⟨r, hr⟩ := Opening.alike_openClass hsame superclass?
      exact ⟨r, fun m hm => hfinds m (hr.found m hm), hr.left, hr.right⟩
  | _ => exact ⟨_, Opening.alike_refused _⟩

/-- What a definition answers and uses up, by the course that it takes. -/
def Goes (d : Definition) (h : Heap) : Except Failure Opening → Prop
  | .error f => d.carryOut h = .error f
  | .ok o => ∃ k, d.carryOut h =
      .ok (⟨h.next.methods, d.body, .public, o.module h.next.modules⟩, k) ∧
        k.next = { h.next with
          modules := h.next.modules + o.count
          methods := h.next.methods + 1 }

theorem goes_of_leads {d : Definition} {c : Module} (hc : d.container = .module c) {h : Heap}
    {r : Except Failure Opening} (hr : Opening.Leads h r (d.opening c h)) : d.Goes h r := by
  cases r with
  | error f =>
    have hopen : d.opening c h = .error f := hr
    rw [Goes, d.carryOut_eq h hc, hopen]
  | ok o =>
    obtain ⟨l, hopen, hnext⟩ := hr
    have hmethods : l.next.methods = h.next.methods := by rw [hnext]
    refine ⟨(((l.bindScope d.body.scope (o.module h.next.modules)).bindBody
      (o.module h.next.modules) d.body).newMethod d.body .public (o.module h.next.modules)).2,
      ?_, ?_⟩
    · rw [d.carryOut_eq h hc, hopen, ← hmethods]
      rfl
    · show { l.next with methods := l.next.methods + 1 } = _
      rw [hnext]

theorem goes_alike (d : Definition) {h k : Heap}
    (hk : ∀ p, d.target? = some p → k.entry? p = h.entry? p) :
    ∃ r, (∀ m, r = .ok (.found m) → d.Finds h m) ∧ d.Goes h r ∧ d.Goes k r := by
  by_cases hc : ∃ c, d.container = .module c
  · obtain ⟨c, hc⟩ := hc
    obtain ⟨r, hfound, hleft, hright⟩ := opening_alike hc hk
    exact ⟨r, hfound, goes_of_leads hc hleft, goes_of_leads hc hright⟩
  · have hnone := fun h => d.carryOut_noContainer h (not_exists.1 hc)
    exact ⟨.error (.type .noContainer), by rintro _ ⟨⟩, hnone h, hnone k⟩

end Definition

/-! ### Numbers that change places -/

section Renumbering

open Heap (Spot Mark)

variable (σ : Nat → Nat)

def Owner.renumber : Owner → Owner
  | .object id => .object id
  | .module id => .module (σ id)

def Heap.Spot.renumber : Spot → Spot
  | .constant id name => .constant (σ id) name
  | .singleton o => .singleton (o.renumber σ)
  | .body id => .body (σ id)
  | .binding id => .binding id

/-- Only a module that stands there itself goes under another number. -/
def Heap.Mark.renumber : Mark → Mark
  | .value (.module m) => .value (.module (m.renumber σ))
  | p => p

def Method.renumber (ρ : Nat → Nat) (x : Method) : Method :=
  ⟨ρ x.id, x.body, x.visibility, x.module.renumber σ⟩

/-- The same heap, but for the numbers of modules in what definitions write. -/
structure Heap.Renumbered (h k : Heap) : Prop where
  entries : ∀ p, k.entry? (p.renumber σ) = (h.entry? p).map (Mark.renumber σ)
  methods : ∀ m name, k.method? m name = h.method? m name
  locals : k.slots = h.slots
  next : k.next = h.next

end Renumbering

section Fixed

open Heap (Spot Mark)

theorem Method.map_renumber_refl (r : Except Failure Method) :
    r.map (Method.renumber (Equiv.refl Nat) (Equiv.refl Nat)) = r := by
  cases r with
  | error f => rfl
  | ok x =>
    have hmodule : x.module.renumber (Equiv.refl Nat) = x.module := Module.renumber_of_fixed rfl
    rw [Except.map, Method.renumber, hmodule]
    rfl

theorem Heap.Renumbered.refl (h : Heap) : h.Renumbered (Equiv.refl Nat) h where
  entries p := by
    have hspot : p.renumber (Equiv.refl Nat) = p := by
      rcases p with ⟨_, _⟩ | ⟨_ | _⟩ | _ | _ <;> rfl
    have hmark : Mark.renumber (Equiv.refl Nat) = id := by
      funext x
      rcases x with ⟨v⟩ | b
      · cases v with
        | module m =>
          exact congrArg (fun m => Mark.value (.module m)) (Module.renumber_of_fixed rfl)
        | _ => rfl
      · rfl
    rw [hspot, hmark, Option.map_id, id]
  methods _ _ := rfl
  locals := rfl
  next := rfl

variable {σ : Equiv.Perm Nat} {h : Heap}

theorem Heap.Spot.renumber_injective : Function.Injective (Spot.renumber σ) := by
  intro p q hpq
  rcases p with ⟨id, name⟩ | ⟨id | id⟩ | id | id <;>
    rcases q with ⟨id', name'⟩ | ⟨id' | id'⟩ | id' | id' <;>
      simp_all [Spot.renumber, Owner.renumber]

theorem Heap.Spot.renumber_of_fixed {p : Spot} (hp : ∀ id, p.module? = some id → σ id = id) :
    p.renumber σ = p := by
  rcases p with ⟨id, name⟩ | ⟨id | id⟩ | id | id
  · exact congrArg (Spot.constant · name) (hp id rfl)
  · rfl
  · exact congrArg (Spot.singleton <| Owner.module ·) (hp id rfl)
  · exact congrArg Spot.body (hp id rfl)
  · rfl

/-- No module has a number that was not given out, and nothing is kept under such a number. -/
structure Heap.Numbered (h : Heap) : Prop where
  standing : ∀ p m, h.entry? p = some (.value (.module m)) → m.id < h.next.modules
  kept : ∀ p x, h.entry? p = some x → ∀ id, p.module? = some id → id < h.next.modules

variable (hσ : ∀ n < h.next.modules, σ n = n)

include hσ

/-- Nothing stands yet where the numbers change. -/
theorem Heap.Numbered.renumber_spot (hh : h.Numbered) {p : Spot} {x : Mark}
    (hx : h.entry? p = some x) : p.renumber σ = p :=
  Spot.renumber_of_fixed fun id hid => hσ id (hh.kept p x hx id hid)

theorem Heap.Numbered.entry?_renumber (hh : h.Numbered) (p : Spot) :
    h.entry? (p.renumber σ) = (h.entry? p).map (Mark.renumber σ) := by
  cases hp : h.entry? p with
  | some x =>
    have hx : x.renumber σ = x := by
      cases x with
      | body b => rfl
      | value v =>
        cases v with
        | module m =>
          have hm : σ m.id = m.id := hσ _ (hh.standing p m hp)
          exact congrArg (fun m => Mark.value (.module m)) (Module.renumber_of_fixed hm)
        | _ => rfl
    rw [hh.renumber_spot hσ hp, hp, Option.map_some, hx]
  | none =>
    cases hq : h.entry? (p.renumber σ) with
    | none => rfl
    | some x =>
      have hfixed : p.renumber σ = p := Spot.renumber_injective (hh.renumber_spot hσ hq)
      rw [hfixed, hp] at hq
      cases hq

end Fixed

namespace Definition

open Heap (Spot Mark)

/-- The container of the definition was made. -/
def Placed (d : Definition) (h : Heap) : Prop :=
  ∀ c, d.container = .module c → c.id < h.next.modules

variable {d e : Definition} {h k : Heap} {x : Method} {σ : Equiv.Perm Nat}

section Fixed

variable (hσ : ∀ n < h.next.modules, σ n = n) (hd : d.Placed h)

include hσ hd

theorem target?_renumber (p : Spot) : d.target? = some (p.renumber σ) ↔ d.target? = some p := by
  have hfixed : ∀ q, d.target? = some q → q.renumber σ = q := by
    intro q hq
    obtain ⟨c, hc, hq⟩ := module?_of_target? hq
    refine Spot.renumber_of_fixed fun id hid => ?_
    obtain rfl := Option.some.inj (hq.symm.trans hid)
    exact hσ _ (hd c hc)
  refine ⟨fun hp => ?_, fun hp => by rw [hfixed p hp, hp]⟩
  rw [hp, Spot.renumber_injective (hfixed _ hp)]

theorem leaves_renumber (m : Module) (p : Spot) :
    d.leaves (m.renumber σ) (p.renumber σ) = (d.leaves m p).map (Mark.renumber σ) := by
  simp only [leaves, target?_renumber hσ hd p]
  split
  · rfl
  · cases p with
    | constant id name | singleton o => rfl
    | body id =>
      simp only [Spot.renumber, Module.id_renumber, σ.injective.eq_iff]
      split <;> rfl
    | binding id =>
      simp only [Spot.renumber]
      split <;> rfl

end Fixed

theorem leaves_ne_none {m : Module} {p : Spot} (hp : d.leaves m p ≠ none) :
    d.target? = some p ∨ p = .body m.id ∨ p = .binding d.body.scope.id := by
  by_cases htarget : d.target? = some p
  · exact .inl htarget
  · unfold leaves at hp
    rw [if_neg htarget] at hp
    cases p with
    | constant id name | singleton o => exact absurd rfl hp
    | body id =>
      refine .inr (.inl ?_)
      by_contra hid
      exact hp (if_neg fun h => hid (by rw [h]))
    | binding id =>
      refine .inr (.inr ?_)
      by_contra hid
      exact hp (if_neg fun h => hid (by rw [h]))

theorem eq_of_leaves {m n : Module} {p : Spot} (hp : d.leaves m p = some (.value (.module n))) :
    n = m := by
  unfold leaves at hp
  split at hp
  · cases hp; rfl
  · split at hp
    · split at hp <;> cases hp
    · split at hp
      · cases hp; rfl
      · cases hp
    · cases hp

/-- Definitions of different targets and scopes that open different modules write apart. -/
theorem leaves_disjoint (hscopes : d.body.scope.id ≠ e.body.scope.id)
    (htargets : ∀ p, d.target? = some p → e.target? ≠ some p) {x y : Module} (hxy : x.id ≠ y.id)
    (p : Spot) : d.leaves x p = none ∨ e.leaves y p = none := by
  by_contra hboth
  obtain ⟨hd, he⟩ := not_or.1 hboth
  have hplain : ∀ {d : Definition} {p : Spot}, d.target? = some p → (∀ id, p ≠ .body id) ∧
      ∀ id, p ≠ .binding id := by
    intro d p hp
    rcases target?_eq_some hp with ⟨id, name, rfl⟩ | ⟨o, rfl⟩ <;> exact ⟨nofun, nofun⟩
  rcases leaves_ne_none hd with hp | rfl | rfl
  · rcases leaves_ne_none he with hq | rfl | rfl
    · exact htargets p hp hq
    · exact (hplain hp).1 _ rfl
    · exact (hplain hp).2 _ rfl
  · rcases leaves_ne_none he with hq | hq | hq
    · exact (hplain hq).1 _ rfl
    · exact hxy (Spot.body.inj hq)
    · cases hq
  · rcases leaves_ne_none he with hq | hq | hq
    · exact (hplain hq).2 _ rfl
    · cases hq
    · exact hscopes (Spot.binding.inj hq)

end Definition

/-! ### In either order -/

/-- The method that the definition answers. -/
def Attempt.result (a : Attempt) : Except Failure Method :=
  (a.definition.carryOut a.before).map Prod.fst

namespace Opening

/-- The modules of two openings after each other, and of the same two the other way around. -/
theorem exists_renumbering (o u : Opening) {next : Nat} (ho : ∀ m, o = .found m → m.id < next)
    (hu : ∀ m, u = .found m → m.id < next) :
    ∃ σ : Equiv.Perm Nat, (∀ n < next, σ n = n) ∧
      o.module (next + u.count) = (o.module next).renumber σ ∧
      u.module next = (u.module (next + o.count)).renumber σ := by
  cases o with
  | found m =>
    refine ⟨.refl _, fun n _ => rfl, ?_, ?_⟩
    · exact (Module.renumber_of_fixed rfl).symm
    · exact (Module.renumber_of_fixed rfl).symm
  | made m =>
    cases u with
    | found n =>
      refine ⟨.refl _, fun n _ => rfl, ?_, ?_⟩
      · exact (Module.renumber_of_fixed rfl).symm
      · exact (Module.renumber_of_fixed rfl).symm
    | made n =>
      refine ⟨.swap next (next + 1), fun k hk => ?_, ?_, ?_⟩
      · exact Equiv.swap_apply_of_ne_of_ne (by omega) (by omega)
      · simp only [module, count, Module.renumber_renumber, Equiv.swap_apply_left]
      · simp only [module, count, Module.renumber_renumber, Equiv.swap_apply_right]

/-- Two openings answer different modules, unless they find one and the same. -/
theorem id_module_ne (o u : Opening) {next : Nat} (ho : ∀ m, o = .found m → m.id < next)
    (hu : ∀ m, u = .found m → m.id < next)
    (hfound : ∀ m n, o = .found m → u = .found n → m.id ≠ n.id) :
    (o.module next).id ≠ (u.module (next + o.count)).id := by
  cases o with
  | found m =>
    have hm := ho m rfl
    cases u with
    | found n => exact hfound m n rfl rfl
    | made n => simp only [module, count, Module.id_renumber]; omega
  | made m =>
    cases u with
    | found n =>
      have hn := hu n rfl
      simp only [module, Module.id_renumber]
      omega
    | made n => simp only [module, count, Module.id_renumber]; omega

end Opening

/-- In either order the definitions come to the same, but for numbers of modules and methods. -/
structure Definition.Commute (d e : Definition) (h : Heap) (σ ρ : Nat → Nat) : Prop where
  left : Attempt.result ⟨Attempt.after ⟨h, e⟩, d⟩ =
    (Attempt.result ⟨h, d⟩).map (Method.renumber σ ρ)
  right : Attempt.result ⟨h, e⟩ =
    (Attempt.result ⟨Attempt.after ⟨h, d⟩, e⟩).map (Method.renumber σ ρ)
  heaps : Heap.Renumbered σ (Attempt.after ⟨Attempt.after ⟨h, d⟩, e⟩)
    (Attempt.after ⟨Attempt.after ⟨h, e⟩, d⟩)

namespace Definition

open Heap (Spot Mark)

variable {d e : Definition} {h k : Heap} {x y : Method}

theorem Finds.id_lt {m : Module} (hm : d.Finds h m) (hh : h.Numbered) : m.id < h.next.modules :=
  hm.elim fun p hp => hh.standing p m hp.2

/-- Definitions in containers that were made keep the numbers of modules in order. -/
theorem numbered_carryOut (hh : h.Numbered) (hd : d.Placed h) (hk : d.carryOut h = .ok (x, k)) :
    k.Numbered := by
  obtain ⟨hid, hle⟩ : x.module.id < k.next.modules ∧ h.next.modules ≤ k.next.modules := by
    obtain ⟨r, hfound, hgoes, -⟩ := d.goes_alike (h := h) (k := h) fun _ _ => rfl
    cases r with
    | error f =>
      have hf : d.carryOut h = .error f := hgoes
      rw [hk] at hf
      cases hf
    | ok o =>
      obtain ⟨l, hl, hnext⟩ := hgoes
      cases hk.symm.trans hl
      rw [hnext]
      cases o with
      | found m => exact ⟨(hfound m rfl).id_lt hh, Nat.le_refl _⟩
      | made m => simp [Opening.module, Opening.count]
  refine ⟨fun p m hp => ?_, fun p y hp id hmodule => ?_⟩
  · rw [entry?_carryOut hk] at hp
    rcases Option.or_eq_some_iff.1 hp with hleaves | ⟨-, hp⟩
    · rw [eq_of_leaves hleaves]
      exact hid
    · exact Nat.lt_of_lt_of_le (hh.standing p m hp) hle
  · rw [entry?_carryOut hk] at hp
    rcases Option.or_eq_some_iff.1 hp with hleaves | ⟨-, hp⟩
    · rcases leaves_ne_none (by rw [hleaves]; simp) with htarget | rfl | rfl
      · obtain ⟨c, hc, hcid⟩ := module?_of_target? htarget
        obtain rfl := Option.some.inj (hcid.symm.trans hmodule)
        exact Nat.lt_of_lt_of_le (hd c hc) hle
      · obtain rfl := Option.some.inj hmodule
        exact hid
      · cases hmodule
    · exact Nat.lt_of_lt_of_le (hh.kept p y hp id hmodule) hle

/-- A definition leaves the targets of others as they are. -/
theorem entry?_of_target (htargets : ∀ p, d.target? = some p → e.target? ≠ some p)
    (hk : e.carryOut h = .ok (y, k)) {p : Spot} (hp : d.target? = some p) :
    k.entry? p = h.entry? p := by
  have hnone : e.leaves y.module p = none := by
    by_contra hleaves
    rcases leaves_ne_none hleaves with he | rfl | rfl
    · exact htargets p hp he
    · rcases target?_eq_some hp with ⟨_, _, hp⟩ | ⟨_, hp⟩ <;> cases hp
    · rcases target?_eq_some hp with ⟨_, _, hp⟩ | ⟨_, hp⟩ <;> cases hp
  rw [entry?_carryOut hk, hnone, Option.none_or]

/-- What is refused is refused after the other definition, too. -/
theorem carryOut_refused (htargets : ∀ p, d.target? = some p → e.target? ≠ some p) {f : Failure}
    (hf : d.carryOut h = .error f) : d.carryOut (Attempt.after ⟨h, e⟩) = .error f := by
  rw [Attempt.after]
  cases hk : e.carryOut h with
  | error g => exact hf
  | ok p =>
    obtain ⟨r, -, hbefore, hafter⟩ :=
      d.goes_alike fun q => entry?_of_target (k := p.2) htargets hk (p := q)
    cases r with
    | ok o =>
      obtain ⟨l, hl, -⟩ := hbefore
      rw [hf] at hl
      cases hl
    | error g =>
      have hg : d.carryOut h = .error g := hbefore
      rw [hf] at hg
      cases hg
      exact hafter

/-- What succeeds takes the same course after the other definition. -/
theorem carryOut_opens (htargets : ∀ p, d.target? = some p → e.target? ≠ some p)
    (hk : e.carryOut h = .ok (y, k)) {l : Heap} (hl : d.carryOut h = .ok (x, l)) :
    ∃ o : Opening, (∀ m, o = .found m → d.Finds h m) ∧ d.Goes h (.ok o) ∧ d.Goes k (.ok o) := by
  obtain ⟨r, hfound, hbefore, hafter⟩ :=
    d.goes_alike fun p => entry?_of_target htargets hk (p := p)
  cases r with
  | error f =>
    have hf : d.carryOut h = .error f := hbefore
    rw [hl] at hf
    cases hf
  | ok o => exact ⟨o, fun m hm => hfound m (by rw [hm]), hbefore, hafter⟩

/-- A definition that is refused leaves the heap to the other one. -/
theorem commute_of_refused (htargets : ∀ p, d.target? = some p → e.target? ≠ some p) {f : Failure}
    (hf : d.carryOut h = .error f) :
    d.Commute e h (Equiv.refl Nat) (Equiv.refl Nat) ∧
      e.Commute d h (Equiv.refl Nat) (Equiv.refl Nat) := by
  have hagain : d.carryOut (Attempt.after ⟨h, e⟩) = .error f := carryOut_refused htargets hf
  have hbefore : Attempt.after ⟨h, d⟩ = h := by simp only [Attempt.after, hf]
  have hafter : Attempt.after ⟨Attempt.after ⟨h, e⟩, d⟩ = Attempt.after ⟨h, e⟩ := by
    rw [Attempt.after]
    simp only [hagain]
  have hresult : Attempt.result ⟨Attempt.after ⟨h, e⟩, d⟩ = Attempt.result ⟨h, d⟩ := by
    simp only [Attempt.result, hf, hagain]
  constructor <;> constructor <;>
    simp only [Method.map_renumber_refl, hbefore, hafter, hresult, Heap.Renumbered.refl]

theorem commute_of_ok (hh : h.Numbered) (hd : d.Placed h) (he : e.Placed h)
    (hscopes : d.body.scope.id ≠ e.body.scope.id)
    (htargets : ∀ p, d.target? = some p → e.target? ≠ some p) {kd ke : Heap}
    (hx : d.carryOut h = .ok (x, kd)) (hy : e.carryOut h = .ok (y, ke))
    (hxy : x.module.id = y.module.id → h.next.modules ≤ x.module.id) :
    ∃ σ ρ : Equiv.Perm Nat, (∀ n < h.next.modules, σ n = n) ∧ (∀ n < h.next.methods, ρ n = n) ∧
      d.Commute e h σ ρ := by
  have htargets' : ∀ p, e.target? = some p → d.target? ≠ some p := fun p hp hq => htargets p hq hp
  obtain ⟨o, hofound, ⟨kd', hd₁, hdnext⟩, l, hd₂, hlnext⟩ := carryOut_opens htargets hy hx
  obtain ⟨u, hufound, ⟨ke', he₁, henext⟩, k, he₂, hknext⟩ := carryOut_opens htargets' hx hy
  cases hx.symm.trans hd₁
  cases hy.symm.trans he₁
  have ho : ∀ m, o = .found m → m.id < h.next.modules := fun m hm => (hofound m hm).id_lt hh
  have hu : ∀ m, u = .found m → m.id < h.next.modules := fun m hm => (hufound m hm).id_lt hh
  obtain ⟨σ, hσ, hoσ, huσ⟩ := o.exists_renumbering u ho hu
  have hne : (o.module h.next.modules).id ≠ (u.module (h.next.modules + o.count)).id := by
    refine o.id_module_ne u ho hu fun m n hm hn hid => ?_
    subst hm hn
    exact absurd (hxy hid) (Nat.not_le_of_lt (ho m rfl))
  refine ⟨σ, .swap h.next.methods (h.next.methods + 1), hσ, fun n hn => ?_, ?_⟩
  · exact Equiv.swap_apply_of_ne_of_ne (by omega) (by omega)
  constructor
  · simp only [Attempt.result, Attempt.after, hd₁, he₁, hd₂, Except.map, Method.renumber, henext,
      Equiv.swap_apply_left, hoσ]
  · simp only [Attempt.result, Attempt.after, hd₁, he₁, he₂, Except.map, Method.renumber, hdnext,
      Equiv.swap_apply_right, huσ]
  simp only [Attempt.after, hd₁, he₁, hd₂, he₂]
  refine ⟨fun p => ?_, fun m name => ?_, ?_, ?_⟩
  · rw [entry?_carryOut hd₂, entry?_carryOut he₁, entry?_carryOut he₂, entry?_carryOut hd₁]
    simp only [hdnext, henext, hoσ, huσ]
    rw [leaves_renumber hσ hd, leaves_renumber hσ he, hh.entry?_renumber hσ]
    rcases leaves_disjoint hscopes htargets hne p with hnone | hnone <;>
      simp only [hnone, Option.map_none, Option.none_or, Option.map_or]
  · rw [method?_carryOut hd₂, method?_carryOut he₁, method?_carryOut he₂, method?_carryOut hd₁]
  · rw [slots_carryOut hd₂, slots_carryOut he₁, slots_carryOut he₂, slots_carryOut hd₁]
  · rw [hlnext, hknext, henext, hdnext]
    simp only [Nat.add_right_comm]

end Definition

/-- In each state that runs lead to, the numbers of modules are in order. -/
theorem Chronicle.numbered {es : List Entry} {m : Machine} {ms : List Machine}
    (hm : Chronicle AtHand es (m :: ms)) : m.heap.Numbered := by
  obtain ⟨c, -, m', earlier, heq, hrecorded⟩ := hm.recorded
  cases heq
  have hh := hm.allotted
  have hlt : ∀ {n : Module}, n.Among c.population → n.id < m.heap.next.modules := fun hn =>
    hrecorded.heap.modules ▸ Census.id_lt hn.self
  have hslot : ∀ {o : Owner} {s : Module}, m.heap.slot? o = some s →
      s.id < m.heap.next.modules ∧ ∀ id, o = .module id → id < m.heap.next.modules := by
    intro o s hs
    refine ⟨hlt (hrecorded.heap.among.owned o s hs), ?_⟩
    rintro id rfl
    rcases c.slot_owner _ s (hrecorded.heap.slots _ ▸ hs) with ⟨x, -, ⟨⟩⟩ | ⟨n, hn, ⟨⟩⟩
    exact hrecorded.heap.modules ▸ Census.id_lt hn
  constructor
  · intro p n hn
    cases p with
    | constant id name =>
      obtain ⟨v, hv, ⟨⟩⟩ := Option.map_eq_some_iff.1 hn
      exact hlt (hrecorded.heap.among.constants (.root id "" .module) name (.module n) hv)
    | singleton o =>
      obtain ⟨s, hs, ⟨⟩⟩ := Option.map_eq_some_iff.1 hn
      exact (hslot hs).1
    | body id =>
      obtain ⟨b, -, ⟨⟩⟩ := Option.map_eq_some_iff.1 hn
    | binding id =>
      obtain ⟨s, hs, ⟨⟩⟩ := Option.map_eq_some_iff.1 hn
      exact hlt (hrecorded.heap.among.bindings ⟨id, .script, []⟩ n hs)
  · intro p x hx id hid
    cases p with
    | constant module name =>
      obtain rfl := Option.some.inj hid
      obtain ⟨v, hv, -⟩ := Option.map_eq_some_iff.1 hx
      exact hh.constants (.root module "" .module) name v hv
    | singleton o =>
      obtain ⟨s, hs, -⟩ := Option.map_eq_some_iff.1 hx
      cases o with
      | object n => cases hid
      | module n => exact (hslot hs).2 id (congrArg _ (Option.some.inj hid))
    | body module =>
      obtain rfl := Option.some.inj hid
      obtain ⟨b, hb, -⟩ := Option.map_eq_some_iff.1 hx
      exact hh.bodies (.root module "" .module) b hb
    | binding scope => cases hid

/--
Two definitions in any state whose modules are numbered in order, in containers that were made. If
they open different entries, for bodies of different scopes, and do not answer one module that is
there already, each of them comes to the same before and after the other, and the heap is the same
in the end, but for the numbers of what is made anew.
-/
theorem definitions_commute {h : Heap} (hh : h.Numbered) (d e : Definition) (hd : d.Placed h)
    (he : e.Placed h) (hscopes : d.body.scope.id ≠ e.body.scope.id)
    (htargets : ∀ p, d.target? = some p → e.target? ≠ some p)
    (hanswers : ∀ x y, Attempt.answer ⟨h, d⟩ = .ok x → Attempt.answer ⟨h, e⟩ = .ok y →
      x.id = y.id → h.next.modules ≤ x.id) :
    ∃ σ ρ : Equiv.Perm Nat, (∀ n < h.next.modules, σ n = n) ∧ (∀ n < h.next.methods, ρ n = n) ∧
      d.Commute e h σ ρ := by
  cases hx : d.carryOut h with
  | error f =>
    exact ⟨.refl _, .refl _, fun _ _ => rfl, fun _ _ => rfl,
      (Definition.commute_of_refused htargets hx).1⟩
  | ok p =>
    cases hy : e.carryOut h with
    | error f =>
      have htargets' : ∀ p, e.target? = some p → d.target? ≠ some p :=
        fun p hp hq => htargets p hq hp
      exact ⟨.refl _, .refl _, fun _ _ => rfl, fun _ _ => rfl,
        (Definition.commute_of_refused htargets' hy).2⟩
    | ok q =>
      refine Definition.commute_of_ok hh hd he hscopes htargets hx hy ?_
      exact hanswers _ _ (by rw [Attempt.answer, hx]; rfl) (by rw [Attempt.answer, hy]; rfl)

/-- The singleton class of `Object`, to be opened next to the class of `shapeDefinition`. -/
def metaDefinition : Definition where
  body := Draft.body { name := "meta", scope := ⟨⟨1, .metaclassBody, []⟩, []⟩ } 1 {}
  container := .module Core.object
  superclass := .ok none

/-- Both make a module in the same container, and each gets the number that the other would get. -/
theorem definitions_commute_shape :
    (∃ σ ρ : Equiv.Perm Nat, (∀ n < Heap.initial.next.modules, σ n = n) ∧
      (∀ n < Heap.initial.next.methods, ρ n = n) ∧
      (shapeDefinition (.ok none)).Commute metaDefinition .initial σ ρ) ∧
    (Attempt.answer ⟨.initial, metaDefinition⟩).toOption =
      some (.root 14 "#<Class:Object>" .singleton) ∧
    (Attempt.answer ⟨Attempt.after ⟨.initial, shapeDefinition (.ok none)⟩,
      metaDefinition⟩).toOption = some (.root 15 "#<Class:Object>" .singleton) := by
  have hplaced : Core.object.id < Heap.initial.next.modules := by decide
  have hmeta : (Attempt.answer ⟨.initial, metaDefinition⟩).toOption =
      some (.root 14 "#<Class:Object>" .singleton) := by decide +kernel
  refine ⟨definitions_commute (Chronicle.numbered .start) (shapeDefinition (.ok none))
    metaDefinition ?_ ?_ (by decide) ?_ ?_, hmeta, by decide +kernel⟩
  · rintro c ⟨⟩
    exact hplaced
  · rintro c ⟨⟩
    exact hplaced
  · rintro p ⟨⟩ ⟨⟩
  · intro x y _ hy hxy
    have hanswer : Attempt.answer ⟨.initial, metaDefinition⟩ = .ok y := hy
    rw [hanswer] at hmeta
    cases hmeta
    rw [hxy]
    decide

end ObjectIr
