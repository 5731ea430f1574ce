import Mathlib.Data.List.Chain
import ObjectIr.Proofs.Population.Chronicles

/-!
# The hierarchy of classes

Whatever has run, the superclasses of a class form a chain to `BasicObject` in which no class occurs
twice (`Module.Rooted`), only classes that may be derived from have subclasses, and a class keeps
its superclass (`class_hierarchy`).
-/

namespace ObjectIr

/-! ### Chains of superclasses -/

namespace Module

/-- The superclasses from a class on form a finite chain without repetition to `BasicObject`. -/
structure Rooted (m : Module) : Prop where
  head : m.ancestors.head? = some m
  chain : m.ancestors.IsChain fun a b => a.superclass? = some b
  nodup : (m.ancestors.map id).Nodup
  last : m.ancestors.getLast? = some Core.basicObject

theorem length_ancestors_le {m a : Module} (ha : a ∈ m.ancestors) :
    a.ancestors.length ≤ m.ancestors.length := by
  induction m with
  | root id name kind =>
    rw [ancestors, List.mem_singleton] at ha
    rw [ha]
  | subclass id name inheritable superclass ih =>
    rw [ancestors, List.mem_cons] at ha
    rcases ha with rfl | ha
    · exact Nat.le_refl _
    · exact (ih ha).trans (by simp [ancestors])

/-- Only classes are derived from, and no singleton class is. -/
theorem class_of_isInheritable {m : Module} (h : m.isInheritable = true) :
    m.isClass = true ∧ m.isSingleton = false := by
  cases m with
  | root id name kind => cases kind <;> first | exact ⟨rfl, rfl⟩ | cases h
  | subclass id name inheritable superclass => exact ⟨rfl, rfl⟩

end Module

theorem Census.rooted_of_mem {c : Census} {m : Module} (hm : m ∈ c.modules)
    (hclass : m.isClass = true) (hplain : m.isSingleton = false) : m.Rooted := by
  induction m with
  | root id name kind =>
    rw [c.rooted _ hm rfl hclass hplain]
    exact ⟨rfl, by simp [Core.basicObject, Module.ancestors], by simp [Core.basicObject,
      Module.ancestors], rfl⟩
  | subclass id name inheritable s ih =>
    obtain ⟨hs, hinheritable⟩ := c.derived _ hm s rfl
    obtain ⟨hsclass, hsplain⟩ := Module.class_of_isInheritable hinheritable
    have hrooted := ih hs hsclass hsplain
    refine ⟨rfl, ?_, ?_, ?_⟩
    · rw [Module.ancestors, List.isChain_cons]
      refine ⟨fun b hb => ?_, hrooted.chain⟩
      rw [hrooted.head] at hb
      exact hb
    · rw [Module.ancestors, List.map_cons, List.nodup_cons]
      refine ⟨fun hmem => ?_, hrooted.nodup⟩
      -- a superclass of the same number would be the class itself, with a longer chain
      obtain ⟨a, ha, hid⟩ := List.mem_map.1 hmem
      have heq := Census.eq_of_id (Census.module_among hs a ha) hm hid
      have hle := Module.length_ancestors_le ha
      rw [heq, Module.ancestors, List.length_cons] at hle
      omega
    · rw [Module.ancestors, List.getLast?_cons, hrooted.last]
      rfl

/-- The core classes that nothing may derive from. -/
def Core.finals : List Module :=
  [«class», integer, float, symbol, nilClass, trueClass, falseClass]

/--
All states of a chronicle lead to modules of one population. Its classes derive from `BasicObject`
without repetition, and from classes that may be derived from, which the core classes of literals,
`Class` and singleton classes are not. A number stands for one module throughout, so that a class
has one superclass.
-/
theorem class_hierarchy {es : List Entry} {ms : List Machine} (h : Chronicle AtHand es ms) :
    ∃ p : Population, (∀ m ∈ ms, m.Among p) ∧
      (∀ x, p.module x → x.isClass = true → x.isSingleton = false → x.Rooted) ∧
      (∀ x s, p.module x → x.superclass? = some s → p.module s ∧ s.isClass = true ∧
        s.isInheritable = true ∧ s.isSingleton = false ∧ ∀ f ∈ Core.finals, s.id ≠ f.id) ∧
      ∀ x y, p.module x → p.module y → x.id = y.id → x = y := by
  obtain ⟨c, hcovers, -⟩ := h.recorded
  refine ⟨c.population, hcovers.among, fun x hx => Census.rooted_of_mem hx, fun x s hx hs => ?_,
    fun x y hx hy => Census.eq_of_id hx hy⟩
  obtain ⟨hmem, hinheritable⟩ := c.derived x hx s hs
  obtain ⟨hclass, hplain⟩ := Module.class_of_isInheritable hinheritable
  have hfinals : ∀ f ∈ Core.finals, f ∈ Core.all ∧ f.isInheritable = false := by decide
  refine ⟨hmem, hclass, hinheritable, hplain, fun f hf hid => ?_⟩
  obtain ⟨hcore, hfinal⟩ := hfinals f hf
  rw [Census.eq_of_id hmem (c.core f hcore) hid, hfinal] at hinheritable
  cases hinheritable

/-- A script that derives one class from another, and then binds the constant of that anew. -/
def shapesScript : Draft where
  name := "<main>"
  scope := ⟨⟨0, .script, []⟩, []⟩
  code := [
    .defineClass (.temp ⟨.generic, 0⟩) (shapeClass.body 1 {}) .scopeModule .undefined,
    .searchConst (.temp ⟨.generic, 1⟩) "Shape",
    .defineClass (.temp ⟨.generic, 0⟩) (circleClass.body 2 {}) .scopeModule
      (.var (.temp ⟨.generic, 1⟩)),
    .putConst .scopeModule "Shape" .nil,
    .searchConst (.temp ⟨.generic, 1⟩) "Circle",
    .ret (.var (.temp ⟨.generic, 1⟩))]
where
  shapeClass : Draft := { name := "Shape", scope := ⟨⟨1, .classBody, []⟩, []⟩, code := [] }
  circleClass : Draft := { name := "Circle", scope := ⟨⟨2, .classBody, []⟩, []⟩, code := [] }

def shapesRun : Machine :=
  (Entry.script (shapesScript.body 0 { generic := 2 })).start 8 .initial {}

def circle : Module := .subclass 15 "Circle" true (.subclass 14 "Shape" true Core.object)

theorem class_hierarchy_shapes :
    ∃ m ∈ shapesRun.trail 8 7 ++ [.idle], m.heap.constant? Core.object "Shape" = some .nil ∧
      m.heap.constant? Core.object "Circle" = some (.module circle) ∧ circle.Rooted := by
  have h : Chronicle AtHand [.script (shapesScript.body 0 { generic := 2 })]
      (shapesRun.trail 8 7 ++ [.idle]) :=
    (Chronicle.start.enter 8 (e := .script (shapesScript.body 0 { generic := 2 })) (c := {})
      fun p _ => ⟨trivial, by rintro f ⟨⟩⟩).after 8 7
  have hlast : shapesRun.after 8 7 ∈ shapesRun.trail 8 7 ++ [.idle] := List.mem_cons_self
  have hshape : ((shapesRun.after 8 7).heap.constant? Core.object "Shape").map Value.isNil =
      some true := by decide +kernel
  have hcircle : ((shapesRun.after 8 7).heap.constant? Core.object "Circle").bind Value.module? =
      some circle := by decide +kernel
  obtain ⟨v, hv, hnil⟩ := Option.map_eq_some_iff.1 hshape
  obtain ⟨w, hw, hmodule⟩ := Option.bind_eq_some_iff.1 hcircle
  obtain rfl : v = .nil := by cases v <;> first | rfl | cases hnil
  obtain rfl : w = .module circle := by cases w <;> cases hmodule; rfl
  obtain ⟨p, hamong, hrooted, -⟩ := class_hierarchy h
  have hmem := ((hamong _ hlast).heap.constants _ _ _ hw).self
  exact ⟨_, hlast, hv, hw, hrooted circle hmem rfl rfl⟩

end ObjectIr
