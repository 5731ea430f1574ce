import ObjectIr.Proofs.Population.Chronicles

/-!
# Searches along a path

Methods and constants are looked up alike: the first module on a path that has the name answers. So
what is written for a name in a module is found by the searches that come to this module, that is
those with nothing before it on the path that has the name (`Foremost`), and no other search can
tell (`Written`). The modules of a population that stand on a path are known by their numbers.
-/

namespace ObjectIr

section Search

variable {α β : Type}

/-- It is on the path, and nothing before it answers. -/
def Foremost (f : α → Option β) (a : α) (path : List α) : Prop :=
  ∃ before after, path = before ++ a :: after ∧ ∀ x ∈ before, f x = none

variable {f g : α → Option β} {a : α} {b : β} {path : List α}

theorem Foremost.cons {x : α} (hx : f x = none) (h : Foremost f a path) :
    Foremost f a (x :: path) := by
  obtain ⟨before, after, rfl, hbefore⟩ := h
  exact ⟨x :: before, after, rfl, List.forall_mem_cons.2 ⟨hx, hbefore⟩⟩

variable (hothers : ∀ x ∈ path, x ≠ a → g x = f x)

include hothers

theorem findSome?_of_foremost (ha : g a = some b) (h : Foremost f a path) :
    path.findSome? g = some b := by
  obtain ⟨before, after, rfl, hbefore⟩ := h
  induction before with
  | nil => rw [List.nil_append, List.findSome?_cons, ha]
  | cons x before ih =>
    rw [List.cons_append, List.findSome?_cons]
    by_cases hx : x = a
    · rw [hx, ha]
    · rw [hothers x List.mem_cons_self hx, hbefore x List.mem_cons_self]
      exact ih (List.forall_mem_of_forall_mem_cons hbefore)
        (List.forall_mem_of_forall_mem_cons hothers)

theorem findSome?_of_not_foremost (h : ¬Foremost f a path) :
    path.findSome? g = path.findSome? f := by
  induction path with
  | nil => rfl
  | cons x path ih =>
    have hx : x ≠ a := by
      rintro rfl
      exact h ⟨[], path, rfl, by rintro y ⟨⟩⟩
    rw [List.findSome?_cons, List.findSome?_cons, hothers x List.mem_cons_self hx]
    cases hfx : f x with
    | some y => rfl
    | none =>
      exact ih (List.forall_mem_of_forall_mem_cons hothers) fun hpath => h (hpath.cons hfx)

end Search

/-! ### Writes -/

section Written

variable {β : Type}

/--
What a search along the path comes to after a write, from what it came to before: the module has got
an answer to the name.
-/
structure Written (old new : Module → String → Option β) (n : Module) (name : String) (y : β)
    (path : List Module) : Prop where
  found : Foremost (fun q => old q name) n path → path.findSome? (fun q => new q name) = some y
  kept : ∀ b, ¬(b = name ∧ Foremost (fun q => old q name) n path) →
    path.findSome? (fun q => new q b) = path.findSome? fun q => old q b

/-- A write under the number of a module, which stands for this module alone on the path. -/
theorem written_of_update {old new : Module → String → Option β} {n : Module} {name : String}
    {y : β} {path : List Module}
    (hnew : ∀ q b, new q b = if n.id = q.id ∧ name = b then some y else old q b)
    (hpath : ∀ q ∈ path, n.id = q.id → q = n) : Written old new n name y path := by
  have hothers : ∀ q ∈ path, q ≠ n → new q name = old q name := by
    intro q hq hne
    rw [hnew, if_neg fun hid => hne (hpath q hq hid.1)]
  refine ⟨findSome?_of_foremost hothers (by rw [hnew, if_pos ⟨rfl, rfl⟩]), fun b hb => ?_⟩
  by_cases hname : b = name
  · subst hname
    exact findSome?_of_not_foremost hothers fun h => hb ⟨rfl, h⟩
  · exact congrArg (path.findSome? ·) (funext fun q => by rw [hnew, if_neg fun h => hname h.2.symm])

end Written

/-! ### Paths -/

/-- The values whose singleton classes answer for a value: itself, and a class's superclasses. -/
def Value.forebears : Value → List Value
  | .object o => [.object o]
  | .module m => m.ancestors.map .module
  | _ => []

namespace Heap

variable {c : Census} {h : Heap}

theorem singletonPath_eq (h : Heap) (receiver : Value) :
    h.singletonPath receiver = receiver.forebears.filterMap h.singleton? := by
  cases receiver with
  | object o =>
    rw [singletonPath, Value.forebears, List.filterMap_cons, List.filterMap_nil]
    cases h.singleton? (.object o) <;> rfl
  | module m => rw [singletonPath, Value.forebears, List.filterMap_map]; rfl
  | _ => rfl

theorem Recorded.methodPath_subset (hh : h.Recorded c) {receiver : Value}
    (hr : receiver.Among c.population) : ∀ q ∈ h.methodPath receiver, q ∈ c.modules := by
  intro q hq
  rcases List.mem_append.1 hq with hq | hq
  · rw [singletonPath_eq] at hq
    obtain ⟨v, -, hs⟩ := List.mem_filterMap.1 hq
    obtain ⟨o, -, ho⟩ := Option.bind_eq_some_iff.1 (h.singleton?_eq_slot? v ▸ hs)
    exact (c.slot_module o q (hh.slots o ▸ ho)).1
  · exact Value.class_among hr q hq

theorem Recorded.constantPath_subset (hh : h.Recorded c) {f : Module} (hf : f.Among c.population)
    (s : StaticScope) : ∀ q ∈ h.constantPath s f, q ∈ c.modules := by
  intro q hq
  rw [constantPath, List.mem_append, List.mem_append, List.mem_singleton] at hq
  rcases hq with (hq | hq) | rfl
  · obtain ⟨l, -, hl⟩ := List.mem_filterMap.1 hq
    exact (hh.among.bindings l q hl).self
  · exact hf q hq
  · exact c.core _ (by decide)

end Heap

end ObjectIr
