import ObjectIr.Proofs.Population.Among

/-!
# A census of modules and objects

A `Census` lists all modules and objects made so far, each at the position of its number, with the
singleton class in each slot. It is such as definitions leave it: classes derive from classes of
the census that may be derived from, only `BasicObject` derives from none, and a singleton class
stands in one slot and is the class of no object. A census can only grow, by a module
(`Census.add`) or by an object (`Census.addObject`).
-/

namespace ObjectIr

structure Census where
  modules : List Module
  objects : List Object
  slot? : Owner → Option Module
  core : ∀ m ∈ Core.all, m ∈ modules
  main : Core.mainObject ∈ objects
  module_id : ∀ (i : Nat) (m : Module), modules[i]? = some m → m.id = i
  object_id : ∀ (i : Nat) (o : Object), objects[i]? = some o → o.id = i
  derived : ∀ m ∈ modules, ∀ s, m.superclass? = some s → s ∈ modules ∧ s.isInheritable = true
  rooted : ∀ m ∈ modules, m.superclass? = none → m.isClass = true → m.isSingleton = false →
    m = Core.basicObject
  classed : ∀ o ∈ objects, o.class ∈ modules
  plain : ∀ o ∈ objects, o.class.isSingleton = false
  owned : ∀ s ∈ modules, s.isSingleton = true → ∃ o, slot? o = some s
  slot_module : ∀ o s, slot? o = some s → s ∈ modules ∧ s.isSingleton = true
  slot_owner : ∀ o s, slot? o = some s →
    (∃ x ∈ objects, o = .object x.id) ∨ ∃ m ∈ modules, o = .module m.id
  slot_unique : ∀ o o' s, slot? o = some s → slot? o' = some s → o = o'

section Numbered

variable {α : Type} {number : α → Nat} {as : List α}
  (has : ∀ (i : Nat) (a : α), as[i]? = some a → number a = i)

include has

/-- A list in which each entry has its position for a number goes on with the next number. -/
theorem numbered_concat {a : α} (ha : number a = as.length) (i : Nat) (b : α)
    (hb : (as ++ [a])[i]? = some b) : number b = i := by
  rw [List.getElem?_append] at hb
  split at hb
  · exact has i b hb
  · obtain ⟨hi, rfl⟩ := List.getElem?_eq_some_iff.1 hb
    rw [List.length_singleton] at hi
    rw [List.getElem_singleton, ha]
    omega

theorem getElem?_number {a : α} (ha : a ∈ as) : as[number a]? = some a := by
  obtain ⟨i, hi⟩ := List.mem_iff_getElem?.1 ha
  rw [has i a hi, hi]

/-- A number stands for one entry. -/
theorem eq_of_number {a b : α} (ha : a ∈ as) (hb : b ∈ as) (h : number a = number b) : a = b :=
  Option.some.inj ((getElem?_number has ha).symm.trans (h ▸ getElem?_number has hb))

theorem number_lt {a : α} (ha : a ∈ as) : number a < as.length :=
  (List.getElem?_eq_some_iff.1 (getElem?_number has ha)).1

end Numbered

namespace Census

/-- The modules and objects that are there before any code runs. -/
def initial : Census where
  modules := Core.all
  objects := [Core.mainObject]
  slot? _ := none
  core _ hm := hm
  main := List.mem_singleton_self _
  module_id i m hm := by
    have hall : ∀ i < Core.all.length, Core.all[i]?.all (fun m => m.id = i) = true := by decide
    simpa [hm] using hall i (List.getElem?_eq_some_iff.1 hm).1
  object_id i o ho := by
    obtain ⟨hi, rfl⟩ := List.getElem?_eq_some_iff.1 ho
    simp only [List.length_singleton, Nat.lt_one_iff] at hi
    subst hi
    rfl
  derived m hm s hs := by
    have hall : ∀ m ∈ Core.all, m.superclass?.all
        (fun s => decide (s ∈ Core.all ∧ s.isInheritable = true)) = true := by decide
    simpa [hs] using hall m hm
  rooted := by decide
  classed := by decide
  plain := by decide
  slot_module := by rintro o s ⟨⟩
  slot_owner := by rintro o s ⟨⟩
  owned := by
    have hall : ∀ m ∈ Core.all, m.isSingleton = false := by decide
    intro s hs hsingleton
    rw [hall s hs] at hsingleton
    cases hsingleton
  slot_unique := by rintro o o' s ⟨⟩

variable (c : Census)

def population : Population where
  module m := m ∈ c.modules
  object o := o ∈ c.objects
  core := c.core
  main := c.main

/-- A later census: nothing is forgotten, and filled slots stay as they are. -/
structure Grows (c' : Census) : Prop where
  modules : ∀ m ∈ c.modules, m ∈ c'.modules
  objects : ∀ o ∈ c.objects, o ∈ c'.objects
  slots : ∀ o s, c.slot? o = some s → c'.slot? o = some s

theorem Grows.refl : c.Grows c := ⟨fun _ h => h, fun _ h => h, fun _ _ h => h⟩

variable {c} {c' : Census}

theorem Grows.within (h : c.Grows c') : c.population.Within c'.population := ⟨h.modules, h.objects⟩

/-! ### What belongs to a census -/

theorem eq_of_id {m n : Module} (hm : m ∈ c.modules) (hn : n ∈ c.modules) (h : m.id = n.id) :
    m = n := eq_of_number c.module_id hm hn h

theorem id_lt {m : Module} (hm : m ∈ c.modules) : m.id < c.modules.length :=
  number_lt c.module_id hm

theorem module_among {m : Module} (hm : m ∈ c.modules) : m.Among c.population := by
  induction m with
  | root id name kind => exact Module.among_root hm
  | subclass id name inheritable superclass ih =>
    exact Module.among_subclass hm (ih (c.derived _ hm superclass rfl).1)

theorem object_among {o : Object} (ho : o ∈ c.objects) : o.Among c.population :=
  ⟨ho, module_among (c.classed o ho)⟩

/-! ### Larger censuses -/

section Add

variable (c) (m : Module) (owner? : Option Owner) (hid : m.id = c.modules.length)
  (hderived : ∀ s, m.superclass? = some s → s ∈ c.modules ∧ s.isInheritable = true)
  (hrooted : m.superclass? = none → m.isClass = true → m.isSingleton = true)
  (howned : m.isSingleton = true → owner?.isSome = true)
  (howner : ∀ o, owner? = some o → m.isSingleton = true ∧ c.slot? o = none ∧
    ((∃ x ∈ c.objects, o = .object x.id) ∨ ∃ n ∈ c.modules, o = .module n.id))

/-- A new module, in the slot of its owner if it is a singleton class. -/
def add : Census where
  modules := c.modules ++ [m]
  objects := c.objects
  slot? o := if owner? = some o then some m else c.slot? o
  core n hn := List.mem_append_left _ (c.core n hn)
  main := c.main
  module_id := numbered_concat c.module_id hid
  object_id := c.object_id
  derived n hn s hs := by
    rcases List.mem_append.1 hn with hn | hn
    · exact (c.derived n hn s hs).imp_left (List.mem_append_left _)
    · obtain rfl := List.mem_singleton.1 hn
      exact (hderived s hs).imp_left (List.mem_append_left _)
  rooted n hn hnone hclass hsingleton := by
    rcases List.mem_append.1 hn with hn | hn
    · exact c.rooted n hn hnone hclass hsingleton
    · obtain rfl := List.mem_singleton.1 hn
      rw [hrooted hnone hclass] at hsingleton
      cases hsingleton
  classed o ho := List.mem_append_left _ (c.classed o ho)
  plain := c.plain
  owned s hs hsingleton := by
    rcases List.mem_append.1 hs with hs | hs
    · obtain ⟨o, ho⟩ := c.owned s hs hsingleton
      refine ⟨o, ?_⟩
      rw [if_neg, ho]
      intro heq
      rw [(howner o heq).2.1] at ho
      cases ho
    · obtain rfl := List.mem_singleton.1 hs
      obtain ⟨o, ho⟩ := Option.isSome_iff_exists.1 (howned hsingleton)
      exact ⟨o, if_pos ho⟩
  slot_module o s hs := by
    split at hs
    · next ho =>
      cases hs
      exact ⟨List.mem_append_right _ (List.mem_singleton_self _), (howner o ho).1⟩
    · exact (c.slot_module o s hs).imp_left (List.mem_append_left _)
  slot_owner o s hs := by
    have hlarger : ((∃ x ∈ c.objects, o = .object x.id) ∨ ∃ n ∈ c.modules, o = .module n.id) →
        (∃ x ∈ c.objects, o = .object x.id) ∨ ∃ n ∈ c.modules ++ [m], o = .module n.id :=
      Or.imp_right fun ⟨n, hn, ho⟩ => ⟨n, List.mem_append_left _ hn, ho⟩
    split at hs
    · next ho => exact hlarger (howner o ho).2.2
    · exact hlarger (c.slot_owner o s hs)
  slot_unique o o' s hs hs' := by
    have hfresh : ∀ o, c.slot? o ≠ some m := by
      intro o ho
      exact absurd (id_lt (c.slot_module o m ho).1) (by omega)
    split at hs <;> split at hs'
    · next ho ho' => exact Option.some.inj (ho.symm.trans ho')
    · cases hs; exact absurd hs' (hfresh o')
    · cases hs'; exact absurd hs (hfresh o)
    · exact c.slot_unique o o' s hs hs'

end Add

/-- A new object. -/
def addObject (c : Census) {m : Module} (hm : m ∈ c.modules) (hplain : m.isSingleton = false) :
    Census :=
  { c with
    objects := c.objects ++ [⟨c.objects.length, m⟩]
    main := List.mem_append_left _ c.main
    object_id := numbered_concat c.object_id rfl
    classed := fun o ho => by
      rcases List.mem_append.1 ho with ho | ho
      · exact c.classed o ho
      · obtain rfl := List.mem_singleton.1 ho
        exact hm
    plain := fun o ho => by
      rcases List.mem_append.1 ho with ho | ho
      · exact c.plain o ho
      · obtain rfl := List.mem_singleton.1 ho
        exact hplain
    slot_owner := fun o s hs => (c.slot_owner o s hs).imp_left
      fun ⟨x, hx, ho⟩ => ⟨x, List.mem_append_left _ hx, ho⟩ }

theorem grows_addObject {m : Module} (hm : m ∈ c.modules) (hplain : m.isSingleton = false) :
    c.Grows (c.addObject hm hplain) :=
  ⟨fun _ h => h, fun _ h => List.mem_append_left _ h, fun _ _ h => h⟩

end Census

end ObjectIr
