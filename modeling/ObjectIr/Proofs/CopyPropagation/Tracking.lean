import ObjectIr.Pass.CopyPropagation
import ObjectIr.Proofs.Simulation
import ObjectIr.Proofs.Substitution
import ObjectIr.Proofs.Temps

/-!
# What is known of temporaries

Two activations run the same body, one of them with its operands simplified. They agree when the
temporaries that both use read alike, and every variable that something is known of reads, in the
first, as what replaces it reads in the second (`Temps.Agree`). A known operand is a constant or a
temporary, so it keeps its value until that temporary is set (`Temps.Agree.set`).
-/

namespace ObjectIr

namespace OperandOf

mutual

def literal : Operand → Value
  | .bool b => .bool b
  | .fixnum n => .fixnum n
  | .float x => .float x
  | .string s => .string s
  | .symbol s => .symbol s
  | .array os => .array 0 (literals os)
  | .nil | .var _ | .selfObject | .scopeModule | .undefined | .body _ => .nil

def literals : List Operand → List Value
  | [] => []
  | o :: os => literal o :: literals os

end

/-- The content of what a known operand reads as, given the slots of temporaries. -/
def worth (ts : Temps) : Operand → Option Value
  | .var (.temp t) => (ts.get? t).map Value.content
  | o => some o.literal

theorem worth_constant {o : Operand} (ho : o.isConstant = true) (ts : Temps) :
    o.worth ts = some o.literal := by
  cases o with
  | var v => simp [isConstant] at ho
  | _ => rfl

end OperandOf

namespace Substitution

variable {values : Substitution}

theorem isStable_cases {o : Operand} (ho : isStable o = true) :
    o.isConstant = true ∨ ∃ t, o = .var (.temp t) := by
  cases o with
  | var v =>
    cases v with
    | temp t => exact .inr ⟨t, rfl⟩
    | lexical => simp [isStable, OperandOf.isConstant, OperandOf.asVariable?, Variable.isTemp] at ho
  | _ => simp_all [isStable, OperandOf.asVariable?]

theorem mem_of_lookup? {v : Variable} {o : Operand} (h : values.lookup? v = some o) :
    (v, o) ∈ values := by
  unfold lookup? at h
  induction values with
  | nil => simp at h
  | cons p values ih =>
    obtain ⟨w, o'⟩ := p
    rw [List.lookup_cons] at h
    split at h
    · next hvw =>
      rw [Option.some.injEq] at h
      rw [beq_iff_eq] at hvw
      rw [hvw, h]
      exact List.mem_cons_self
    · exact List.mem_cons_of_mem _ (ih h)

theorem mem_forget {v : Variable} {p : Variable × Operand} :
    p ∈ values.forget v ↔ p ∈ values ∧ p.1 ≠ v ∧ p.2.asVariable? ≠ some v := by
  simp [forget]

end Substitution

/-- What the slots of two activations have in common. -/
structure Temps.Agree (shared : Temp → Prop) (known : Substitution) (ts ts' : Temps) : Prop where
  shared : ∀ t, shared t → (ts.get? t).map Value.content = (ts'.get? t).map Value.content
  known : ∀ p ∈ known, Substitution.isStable p.2 = true ∧
    ∃ t v, p.1 = .temp t ∧ ts.get? t = some v ∧ p.2.worth ts' = some v.content

namespace Temps.Agree

variable {shared : Temp → Prop} {known known' : Substitution} {ts ts' : Temps}

theorem mono (h : Temps.Agree shared known ts ts') (hk : ∀ p ∈ known', p ∈ known) :
    Temps.Agree shared known' ts ts' := ⟨h.shared, fun p hp => h.known p (hk p hp)⟩

theorem worth_set {o : Operand} {t : Temp} {v : Value} {us : Temps}
    (ho : o.asVariable? ≠ some (.temp t))
    (hu : ∀ u, us.get? u = if u = t then some v else ts.get? u) : o.worth us = o.worth ts := by
  match o with
  | .var (.temp u) =>
    have hut : u ≠ t := fun h => ho (by rw [h]; rfl)
    rw [OperandOf.worth, hu, if_neg hut, OperandOf.worth]
  | .var (.lexical ..) | .selfObject | .nil | .bool _ | .fixnum _ | .float _ | .string _
  | .symbol _ | .array _ | .scopeModule | .undefined | .body _ => rfl

theorem set (h : Temps.Agree shared known ts ts') {t : Temp} (ht : shared t) {v w : Value}
    (hv : v.Alike w) :
    ObjectIr.Agree (fun us us' => Temps.Agree shared (known.forget (.temp t)) us us' ∧
      us.get? t = some v ∧ ∀ u, us'.get? u = if u = t then some w else ts'.get? u)
      (ts.set t v) (ts'.set t w) := by
  have hacc : t.kind.accepts v = t.kind.accepts w := by
    rcases hv.cases with rfl | ⟨i, j, vs, ws, rfl, rfl, -⟩ | ⟨b, c, rfl, rfl, -⟩ <;>
      cases t.kind <;> rfl
  have hsome : (ts.get? t).isSome = (ts'.get? t).isSome := by
    simpa only [Option.isSome_map] using congrArg Option.isSome (h.shared t ht)
  rcases ts.set_cases t v with ⟨ha, h1⟩ | ⟨ha, ⟨hn, h1⟩ | ⟨hs, us, h1, hu⟩⟩ <;>
    rcases ts'.set_cases t w with ⟨ha', h2⟩ | ⟨ha', ⟨hn', h2⟩ | ⟨hs', us', h2, hu'⟩⟩ <;>
    simp_all only [Option.isSome_none, Bool.false_eq_true, Bool.true_eq_false]
  · exact .error (by
      simp only [Failure.Alike, Failure.content, TypeFault.content,
        show v.content = w.content from hv])
  · exact .error rfl
  · refine .ok ⟨⟨fun u hsu => ?_, fun p hp => ?_⟩, by rw [hu, if_pos rfl], hu'⟩
    · rw [hu, hu']
      split
      · exact congrArg some hv
      · exact h.shared u hsu
    · obtain ⟨hp, hne, hval⟩ := Substitution.mem_forget.1 hp
      obtain ⟨hst, u, x, hpu, hx, hw⟩ := h.known p hp
      have hut : u ≠ t := fun hut => hne (by rw [hpu, hut])
      exact ⟨hst, u, x, hpu, by rw [hu, if_neg hut, hx], by rw [worth_set hval hu', hw]⟩

end Temps.Agree

end ObjectIr
