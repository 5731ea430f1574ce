import ObjectIr.Proofs.Chronicle
import ObjectIr.Proofs.Population.Machines

/-!
# Chronicles in a census

The host enters with what it has got hold of (`AtHand`): there is nothing else that it could give to
a run. So one census covers all states of a chronicle, and records the latest
(`Chronicle.recorded`).
-/

namespace ObjectIr

/-- The host has hold of what it enters with: earlier states lead to it, or it was always there. -/
def AtHand (ms : List Machine) (e : Entry) (c : Context) : Prop :=
  ∀ p : Population, (∀ m ∈ ms, m.Among p) → e.Among p ∧ c.Among p

theorem Heap.initial_recorded : Heap.initial.Recorded Census.initial := by
  have hempty : Heap.Recorded Census.initial
      { next := { modules := Core.all.length, objects := Core.mainObject.id + 1 } } := by
    refine ⟨⟨?_, ?_, ?_, ?_, ?_⟩, rfl, rfl, ?_, ?_⟩
    · intro m name x hx
      simp [Heap.method?, Heap.table] at hx
    · intro m name v hv
      simp [Heap.constant?, Heap.table] at hv
    · rintro (id | id) _ hs <;> simp [Heap.slot?, Heap.singletonOf?] at hs
    · intro l m hm
      simp [Heap.moduleOf?] at hm
    · intro c v hv
      simp [Heap.slotsOf] at hv
    · rintro (id | id) <;> simp [Heap.slot?, Heap.singletonOf?, Census.initial]
    · intro m name x hx
      simp [Heap.method?, Heap.table] at hx
  have hfold : ∀ ms : List Module, (∀ m ∈ ms, m ∈ Core.all) → ∀ h : Heap,
      h.Recorded Census.initial →
        (ms.foldl (fun h m => h.setConstant Core.object m.name (.module m)) h).Recorded
          Census.initial := by
    intro ms
    induction ms with
    | nil => exact fun _ h hh => hh
    | cons m ms ih =>
      exact fun hms h hh => ih (fun n hn => hms n (List.mem_cons_of_mem _ hn)) _
        (hh.setConstant _ _ (Module.among_core (hms m List.mem_cons_self)))
  exact hfold Core.all (fun _ hm => hm) _ hempty

/-- What the states of a chronicle have in common with a census. -/
structure Census.Covers (c : Census) (ms : List Machine) : Prop where
  among : ∀ m ∈ ms, m.Among c.population
  slots : ∀ m ∈ ms, ∀ o s, m.heap.slot? o = some s → c.slot? o = some s

theorem Census.Covers.cons {c c' : Census} {ms : List Machine} (h : c.Covers ms)
    (hgrows : c.Grows c') {m : Machine} (hm : m.Recorded c') : c'.Covers (m :: ms) where
  among := List.forall_mem_cons.2 ⟨hm.among, fun x hx => (h.among x hx).mono hgrows.within⟩
  slots := List.forall_mem_cons.2 ⟨fun o _ hs => hm.heap.slots o ▸ hs,
    fun x hx o s hs => hgrows.slots o s (h.slots x hx o s hs)⟩

theorem Chronicle.recorded {es : List Entry} {ms : List Machine} (h : Chronicle AtHand es ms) :
    ∃ c : Census, c.Covers ms ∧ ∃ m earlier, ms = m :: earlier ∧ m.Recorded c := by
  induction h with
  | start =>
    have hidle : Machine.idle.Recorded .initial :=
      ⟨Heap.initial_recorded, by rintro f ⟨⟩, trivial, by rintro x ⟨⟩⟩
    have hnone : Census.Covers .initial [] := ⟨by rintro m ⟨⟩, by rintro m ⟨⟩⟩
    exact ⟨.initial, hnone.cons (.refl _) hidle, _, _, rfl, hidle⟩
  | step limit _ ih =>
    obtain ⟨c, hcovers, m, earlier, heq, hm⟩ := ih
    cases heq
    obtain ⟨c', hgrows, hstep⟩ := hm.step limit
    exact ⟨c', hcovers.cons hgrows hstep, _, _, rfl, hstep⟩
  | enter limit _ he ih =>
    obtain ⟨c, hcovers, m, earlier, heq, hm⟩ := ih
    cases heq
    obtain ⟨he, hc⟩ := he c.population hcovers.among
    obtain ⟨c', hgrows, hstart⟩ := Entry.start_recorded limit hm.heap hc he
    exact ⟨c', hcovers.cons hgrows hstart, _, _, rfl, hstart⟩

end ObjectIr
