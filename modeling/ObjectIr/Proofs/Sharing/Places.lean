import ObjectIr.Machine.Run
import ObjectIr.Proofs.Sharing.Heaps

/-!
# Places that share a value

Two places of a result share a value when they hold one and the same (`Result.Shares`). Results are
linked when their heaps and outcomes are, and then they hold linked values at every place
(`Result.Linked.at?`). So where one shares a value the other does too, unless the value is an array
that comes to stand for several (`Result.Linked.shares`).
-/

namespace ObjectIr

/-- Where a result holds a value: in a constant or local, as its answer, or inside an array. -/
inductive Place where
  | constant (m : Module) (name : String)
  | slot (c : ScopeCell) (offset : Nat)
  | answer
  | element (p : Place) (index : Nat)

def Value.elements : Value → List Value
  | .array _ vs => vs
  | _ => []

namespace Result

/-- What a run returned or raised. -/
def answer? (r : Result) : Option Value :=
  match r.outcome with
  | .ok v => some v
  | .error f => f.raised?

def at? (r : Result) : Place → Option Value
  | .constant m name => r.heap.constant? m name
  | .slot c offset => (r.heap.slotsOf c)[offset]?
  | .answer => r.answer?
  | .element p index => (r.at? p).bind fun v => v.elements[index]?

/-- The two places hold one and the same value. -/
def Shares (r : Result) (p q : Place) : Prop :=
  ∃ x y, r.at? p = some x ∧ r.at? q = some y ∧ x.identical y = true

instance (r : Result) (p q : Place) : Decidable (r.Shares p q) :=
  decidable_of_iff (((r.at? p).bind fun x => (r.at? q).map x.identical) = some true) <| by
    simp only [Shares, Option.bind_eq_some_iff, Option.map_eq_some_iff]
    exact ⟨fun ⟨x, hx, y, hy, h⟩ => ⟨x, y, hx, hy, h⟩, fun ⟨x, y, hx, hy, h⟩ => ⟨x, hx, y, hy, h⟩⟩

end Result

/-! ### Linked values that are one and the same -/

variable {l : Links}

theorem Value.Linked.elements {v w : Value} (h : v.Linked l w) :
    List.Forall₂ (Value.Linked l) v.elements w.elements := by
  cases h with
  | @plain v harray =>
    cases v with
    | array n vs => exact absurd rfl (harray n vs)
    | _ => exact .nil
  | array _ hs => exact linkedAll_iff.1 hs
  | block => exact .nil

/-- Values that are one and the same stand for such, unless an array stands for several. -/
theorem Value.Linked.identical {literal : Nat → Prop}
    (hsingle : ∀ n m m', l n m → l n m' → m = m' ∨ literal n) {x x' y y' : Value}
    (hx : x.Linked l x') (hy : y.Linked l y') (h : x.identical y = true) :
    x'.identical y' = true ∨ ∃ n vs, x = .array n vs ∧ literal n := by
  cases hx with
  | @plain x harray hblock =>
    cases hy with
    | plain => exact .inl h
    | @array n m _ vs => cases x <;> first | exact absurd rfl (harray _ _) | cases h
    | block => cases x <;> first | exact absurd rfl (hblock _) | cases h
  | @array n m hnm vs ws hs =>
    cases hy with
    | @plain y harray => cases y <;> first | exact absurd rfl (harray _ _) | cases h
    | @array n' m' hnm' =>
      obtain rfl : n = n' := beq_iff_eq.1 h
      rcases hsingle n m m' hnm hnm' with rfl | hn
      · exact .inl (beq_self_eq_true m)
      · exact .inr ⟨n, vs, rfl, hn⟩
    | block => cases h
  | block =>
    cases hy with
    | @plain y _ hblock => cases y <;> first | exact absurd rfl (hblock _) | cases h
    | array => cases h
    | block => exact .inl h

/-! ### Results -/

structure Result.Linked (l : Links) (r r' : Result) : Prop where
  heap : r.heap.Linked l r'.heap
  context : r.context.Linked l r'.context
  outcome : Jointly (Failure.Linked l) (Value.Linked l) r.outcome r'.outcome

namespace Result.Linked

variable {r r' : Result} (h : r.Linked l r')

include h

theorem answer? : Option.Rel (Value.Linked l) r.answer? r'.answer? := by
  have ho := h.outcome
  rw [Result.answer?, Result.answer?]
  generalize r.outcome = x at ho
  generalize r'.outcome = y at ho
  cases ho with
  | ok hv => exact .some hv
  | @error f g hf =>
    cases hf with
    | raised hv => exact .some hv
    | plain hfg hf =>
      have hg : g.raised? = none := by
        cases f <;> cases g <;>
          simp_all [Failure.Alike, Failure.content, Failure.raised?]
      simp only [hf, hg]
      exact .none

theorem at? (p : Place) : Option.Rel (Value.Linked l) (r.at? p) (r'.at? p) := by
  have hget : ∀ {vs ws : List Value}, List.Forall₂ (Value.Linked l) vs ws → ∀ i : Nat,
      Option.Rel (Value.Linked l) vs[i]? ws[i]? := by
    intro vs ws hvs i
    induction hvs generalizing i with
    | nil => exact .none
    | cons hv _ ih =>
      cases i with
      | zero => exact .some hv
      | succ i => exact ih i
  induction p with
  | constant m name => exact h.heap.constants m name
  | slot c offset => exact hget (h.heap.slots c) offset
  | answer => exact h.answer?
  | element p index ih =>
    rw [Result.at?, Result.at?]
    generalize r.at? p = x at ih
    generalize r'.at? p = y at ih
    cases ih with
    | none => exact .none
    | some hv => exact hget hv.elements index

theorem shares {literal : Nat → Prop} (hsingle : ∀ n m m', l n m → l n m' → m = m' ∨ literal n)
    {p q : Place} {x y : Value} (hx : r.at? p = some x) (hy : r.at? q = some y)
    (hxy : x.identical y = true) : r'.Shares p q ∨ ∃ n vs, x = .array n vs ∧ literal n := by
  have hp := h.at? p
  have hq := h.at? q
  rw [hx] at hp
  rw [hy] at hq
  generalize hx' : r'.at? p = u at hp
  generalize hy' : r'.at? q = v at hq
  cases hp with
  | some hxx =>
    cases hq with
    | some hyy => exact (hxx.identical hsingle hyy hxy).imp_left fun h => ⟨_, _, hx', hy', h⟩

end Result.Linked

end ObjectIr
