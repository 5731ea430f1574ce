import ObjectIr.Machine.Execution
import ObjectIr.Proofs.Content.Dispatch

/-!
# Executions side by side

Two executions simulate each other when, from states that are related, both succeed with related
answers or both fail alike, and end in states that are related again (`Sim`). The relation of the
states may change along the way: what holds before, after success and after failure are three
relations. `Sim.bind` follows the steps of both executions at once, so a program is compared
with another step by step.
-/

namespace ObjectIr

section Outcomes

variable {σ τ α β : Type}

/-- Two ends of executions: related successes, or failures that are alike. -/
inductive Matched (post err : σ → τ → Prop) (rel : α → β → Prop) :
    EStateM.Result Failure σ α → EStateM.Result Failure τ β → Prop
  | ok {a : α} {b : β} {s : σ} {t : τ} (h : rel a b) (hs : post s t) :
    Matched post err rel (.ok a s) (.ok b t)
  | error {f g : Failure} {s : σ} {t : τ} (h : f.Alike g) (hs : err s t) :
    Matched post err rel (.error f s) (.error g t)

theorem Matched.cases {post err : σ → τ → Prop} {rel : α → β → Prop}
    {r : EStateM.Result Failure σ α} {r' : EStateM.Result Failure τ β}
    (h : Matched post err rel r r') :
    (∃ a b s t, r = .ok a s ∧ r' = .ok b t ∧ rel a b ∧ post s t) ∨
      ∃ f g s t, r = .error f s ∧ r' = .error g t ∧ f.Alike g ∧ err s t := by
  cases h with
  | ok hab hs => exact .inl ⟨_, _, _, _, rfl, rfl, hab, hs⟩
  | error hf hs => exact .inr ⟨_, _, _, _, rfl, rfl, hf, hs⟩

theorem Matched.mono {post err post' err' : σ → τ → Prop} {rel rel' : α → β → Prop}
    {r : EStateM.Result Failure σ α} {r' : EStateM.Result Failure τ β}
    (h : Matched post err rel r r') (hpost : ∀ s t, post s t → post' s t)
    (herr : ∀ s t, err s t → err' s t) (hrel : ∀ a b, rel a b → rel' a b) :
    Matched post' err' rel' r r' := by
  cases h with
  | ok hab hs => exact .ok (hrel _ _ hab) (hpost _ _ hs)
  | error hf hs => exact .error hf (herr _ _ hs)

def Sim (pre post err : σ → τ → Prop) (rel : α → β → Prop) (x : EStateM Failure σ α)
    (y : EStateM Failure τ β) : Prop :=
  ∀ s t, pre s t → Matched post err rel (x s) (y t)

end Outcomes

namespace Sim

variable {σ τ α β α' β' : Type} {pre mid post err : σ → τ → Prop} {rel : α → β → Prop}
  {rel' : α' → β' → Prop} {x : EStateM Failure σ α} {y : EStateM Failure τ β}

theorem bind {f : α → EStateM Failure σ α'} {g : β → EStateM Failure τ β'}
    (hxy : Sim pre mid err rel x y) (hfg : ∀ a b, rel a b → Sim mid post err rel' (f a) (g b)) :
    Sim pre post err rel' (x >>= f) (y >>= g) := by
  intro s t hst
  simp only [Bind.bind, EStateM.bind]
  rcases (hxy s t hst).cases with ⟨a, b, s₁, t₁, hx, hy, hab, hs⟩ | ⟨e, e', s₁, t₁, hx, hy, he, hs⟩
  · rw [hx, hy]
    exact hfg a b hab s₁ t₁ hs
  · rw [hx, hy]
    exact .error he hs

theorem pure {a : α} {b : β} (hab : rel a b) (hpost : ∀ s t, pre s t → post s t) :
    Sim pre post err rel (pure a) (pure b) :=
  fun s t hst => .ok hab (hpost s t hst)

theorem throw {f g : Failure} (hfg : f.Alike g) (herr : ∀ s t, pre s t → err s t) :
    Sim pre post err rel (throw f) (throw g) :=
  fun s t hst => .error hfg (herr s t hst)

theorem ofExcept {u : Except Failure α} {v : Except Failure β} (h : Agree rel u v)
    (hpost : ∀ s t, pre s t → post s t) (herr : ∀ s t, pre s t → err s t) :
    Sim pre post err rel (ofExcept u) (ofExcept v) := by
  cases h with
  | ok hab => exact pure hab hpost
  | error hf => exact throw hf herr

theorem mono {pre' post' err' : σ → τ → Prop} {rel' : α → β → Prop}
    (h : Sim pre post err rel x y) (hpre : ∀ s t, pre' s t → pre s t)
    (hpost : ∀ s t, post s t → post' s t) (herr : ∀ s t, err s t → err' s t)
    (hrel : ∀ a b, rel a b → rel' a b) : Sim pre' post' err' rel' x y :=
  fun s t hst => (h s t (hpre s t hst)).mono hpost herr hrel

end Sim

end ObjectIr
