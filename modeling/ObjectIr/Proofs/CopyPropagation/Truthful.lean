import ObjectIr.Proofs.CopyPropagation.Meaning

/-!
# Truthful substitutions

A substitution need not come from copy propagation. If, at a site, every variable that it replaces
reads as its replacement (`Substitution.Truthful`), then an instruction and its simplified form do
the same there, whatever the replacements are: constants, variables of any sort, the receiver or
arrays of such. A replacement that can be read is no absent superclass, so none comes or goes.
-/

namespace ObjectIr

/-- Sites at the same instruction of one body, that differ at most in the numbers of arrays. -/
def Site.Alike (s s' : Site) : Prop :=
  s.Tracked (fun _ => True) s.activation.body s.activation.body [] s'

/-- At the site, the operand reads as the value. -/
def Site.ReadsAs (s : Site) (o : Operand) (x : Value) : Prop :=
  ∃ n, s.evaluate o s.heap.next.arrays = .ok x n

namespace Substitution

/-- At the site, those of the variables that have a replacement read as it does. -/
def Truthful (values : Substitution) (s : Site) (vs : List Variable) : Prop :=
  ∀ v ∈ vs, ∀ o, values.lookup? v = some o → ∃ x y, s.ReadsAs (.var v) x ∧ s.ReadsAs o y ∧ x.Alike y

theorem Truthful.mono {values : Substitution} {s : Site} {vs ws : List Variable}
    (h : values.Truthful s vs) (hsub : ∀ v ∈ ws, v ∈ vs) : values.Truthful s ws :=
  fun v hv => h v (hsub v hv)

end Substitution

/-! ### Sites with other numbers of arrays -/

theorem Body.Kin.refl (b : Body) : b.Kin b := ⟨rfl, rfl, rfl, rfl⟩

theorem Activation.Tracked.refl (a : Activation) :
    a.Tracked (fun _ => True) [] a.body a.body a :=
  ⟨rfl, rfl, rfl, ⟨fun _ _ => rfl, by rintro e ⟨⟩⟩, rfl, .refl _, rfl, rfl, rfl⟩

theorem Site.Tracked.alike {s s' : Site} {b : Body} {known : Substitution}
    (h : s.Tracked (fun _ => True) b b known s') : s.Alike s' := by
  obtain rfl := h.activation.body
  exact h.forgetAll

/-- Two sites that are a given one but for the next number of an array, as far as reading leads. -/
def Site.Renumbered (s t t' : Site) : Prop :=
  ∃ n n', t = { s with heap.next.arrays := n } ∧ t' = { s with heap.next.arrays := n' }

theorem vantage_renumbered (s : Site) :
    Vantage (fun _ => True) s.activation.body s.activation.body [] s.Renumbered where
  tracked := by
    rintro _ _ ⟨n, n', rfl, rfl⟩
    exact ⟨(Heap.Alike.refl s.heap).supply n n', .refl _, .refl _⟩
  supply := by
    rintro _ _ n n' ⟨m, m', rfl, rfl⟩
    exact ⟨n, n', rfl, rfl⟩

theorem Site.Renumbered.alike {s t t' : Site} (h : s.Renumbered t t') : s.Alike t ∧ s.Alike t' := by
  obtain ⟨n, n', rfl, rfl⟩ := h
  exact ⟨((vantage_renumbered s).tracked s _ ⟨_, n, rfl, rfl⟩).alike,
    ((vantage_renumbered s).tracked s _ ⟨_, n', rfl, rfl⟩).alike⟩

theorem evaluate_alike {s s' : Site} (h : s.Alike s') (o : Operand) :
    Reads Value.Alike (s.evaluate o) (s'.evaluate o) := by
  have ho := evaluate_tracked h (.refl _) o fun _ _ => trivial
  rwa [OperandOf.simplified_nil] at ho

theorem Site.ReadsAs.evaluate {s t : Site} {o : Operand} {x : Value} (h : s.ReadsAs o x)
    (hst : s.Alike t) (n : Nat) : ∃ y m, t.evaluate o n = .ok y m ∧ x.Alike y := by
  obtain ⟨k, hk⟩ := h
  have ho := evaluate_alike hst o s.heap.next.arrays n trivial
  rw [hk] at ho
  rcases ho.cases with ⟨_, y, _, m, h1, h2, hxy, -⟩ | ⟨_, _, _, _, h1, -⟩
  · cases h1
    exact ⟨y, m, h2, hxy⟩
  · cases h1

/-! ### Instructions -/

namespace Substitution.Truthful

variable {values : Substitution} {s : Site}

theorem readsAlike {o : Operand} (h : values.Truthful s o.reads) (force : Bool) :
    ReadsAlike s.Renumbered o (o.simplified values force) := by
  intro t t' ht
  have htracked := (vantage_renumbered s).tracked t t' ht
  obtain ⟨hst, hst'⟩ := ht.alike
  refine evaluate_simplified htracked (.refl _) o fun v hv => ?_
  rcases values.puts_replace force v with ⟨hl, -⟩ | ⟨ho, -⟩
  · obtain ⟨x, y, hx, hy, hxy⟩ := h v hv _ hl
    -- Arrays may have been made since, so both are read again, from other numbers.
    intro m m' _
    obtain ⟨x', k, h1, hx'⟩ := hx.evaluate hst m
    obtain ⟨y', k', h2, hy'⟩ := hy.evaluate hst' m'
    rw [h1, h2]
    exact .ok ((hx'.symm.trans hxy).trans hy') trivial
  · rw [ho]
    exact evaluate_alike htracked.alike _

/-- What replaces a variable can be read, so it is not an absent operand. -/
theorem eq_undefined_iff {o : Operand} (h : values.Truthful s o.reads) (force : Bool) :
    o = .undefined ↔ o.simplified values force = .undefined := by
  refine OperandOf.eq_undefined_iff_simplified fun v hv hu => ?_
  obtain ⟨-, y, -, ⟨n, hy⟩, -⟩ := h v hv _ hu
  rw [Site.evaluate] at hy
  cases hy

theorem execute_tracked {i : Instr} (h : values.Truthful s (i.operands.flatMap OperandOf.reads))
    (force : Bool) :
    Matched (Site.Tracked (fun _ => True) s.activation.body s.activation.body [])
      (Site.Tracked (fun _ => True) s.activation.body s.activation.body []) Outcome.Alike
      (i.execute s) ((i.simplified values force).execute s) := by
  have hreads : ∀ o ∈ i.operands, values.Truthful s o.reads :=
    fun o ho => h.mono fun v hv => List.mem_flatMap.2 ⟨o, ho, hv⟩
  have hsim := execute_simplified (.refl _) (vantage_renumbered s) i (fun _ _ _ _ => trivial)
    (fun o ho => (hreads o ho).readsAlike force) fun o ho => (hreads o ho).eq_undefined_iff force
  exact (hsim s s ⟨_, _, rfl, rfl⟩).mono (fun t t' ht => ht.forgetAll) (fun _ _ h => h)
    fun _ _ h => h

/-- Under whichever callers, what follows the two ends together, and alike. -/
theorem follow_paired {i : Instr} (h : values.Truthful s (i.operands.flatMap OperandOf.reads))
    (force : Bool) (limit : Nat) (callers : List Caller) :
    (Machine.follow limit callers (i.execute s)).Paired
      (Machine.follow limit callers ((i.simplified values force).execute s)) := by
  refine followed_paired limit (.refl _) (h.execute_tracked force) (fun _ _ _ e he => he)
    (fun _ _ _ _ => ⟨fun _ _ => trivial, fun e he => by cases he⟩) ?_
  refine List.forall₂_same.2 fun c _ => ?_
  exact .mk (.refl _) (.refl c.activation) (fun _ _ => trivial) fun e he => he

end Substitution.Truthful

/--
Simplified operands stand in the places of the operands, and the rest of the instruction stays.
Where the substitution is truthful, the two forms of the instruction end alike, and so does all
that follows.
-/
theorem simplified_sound (i : Instr) (values : Substitution) (force : Bool) :
    (i.simplified values force).blank = i.blank ∧
    (i.simplified values force).operands = i.operands.map (fun o => o.simplified values force) ∧
    List.Forall₂ (OperandOf.Replaced (values.Puts force)) i.operands
      (i.simplified values force).operands ∧
    ∀ s : Site, values.Truthful s (i.operands.flatMap OperandOf.reads) →
      Matched Site.Alike Site.Alike Outcome.Alike (i.execute s)
        ((i.simplified values force).execute s) ∧
      ∀ (limit fuel : Nat) (callers : List Caller), Option.Rel Result.Alike
        ((Machine.follow limit callers (i.execute s)).run limit fuel)
        ((Machine.follow limit callers
          ((i.simplified values force).execute s)).run limit fuel) := by
  refine ⟨i.blank_simplified values force, i.operands_simplified values force, ?_,
    fun s h => ⟨?_, ?_⟩⟩
  · rw [InstrOf.operands_simplified]
    exact OperandOf.replaced_map_simplified fun v _ => values.puts_replace force v
  · exact (h.execute_tracked force).mono (fun _ _ ht => ht.alike) (fun _ _ ht => ht.alike)
      fun _ _ ho => ho
  · exact fun limit fuel callers => run_paired limit fuel (h.follow_paired force limit callers)

/-- A temporary with an array that was made earlier, and one that is read inside another array. -/
def heldSite : Site where
  heap := .initial
  context := {}
  activation := {
    body := copyDraft.body 0 { generic := 3 }
    pc := 1
    temps := ⟨#[.array 7 [.fixnum 1, .bool true], .symbol "x", .symbol "x"], #[], #[], #[]⟩
    args := []
    receiver := .bool true
    footing := .nowhere }

theorem simplified_sound_heldSite :
    let t (n : Nat) : Variable := .temp ⟨.generic, n⟩
    let i : Instr := .copy (t 1) (.array [.var (t 0), .var (t 1)])
    let values : Substitution := [(t 0, .array [.fixnum 1, .selfObject]), (t 1, .var (t 2))]
    i.simplified values true =
        .copy (t 1) (.array [.array [.fixnum 1, .selfObject], .var (t 2)]) ∧
      values.Truthful heldSite [t 0, t 1] ∧
      Matched Site.Alike Site.Alike Outcome.Alike (i.execute heldSite)
        ((i.simplified values true).execute heldSite) := by
  intro t i values
  have h : values.Truthful heldSite [t 0, t 1] := by
    intro v hv o ho
    rcases List.mem_pair.1 hv with rfl | rfl <;> cases ho
    · exact ⟨_, _, ⟨_, rfl⟩, ⟨_, rfl⟩, rfl⟩
    · exact ⟨_, _, ⟨_, rfl⟩, ⟨_, rfl⟩, rfl⟩
  exact ⟨rfl, h, ((simplified_sound i values true).2.2.2 heldSite h).1⟩

end ObjectIr
