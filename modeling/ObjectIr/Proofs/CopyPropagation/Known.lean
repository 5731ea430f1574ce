import ObjectIr.Proofs.CopyPropagation.Instructions
import ObjectIr.Proofs.Drafts

/-!
# What copy propagation knows at each instruction

`knownFrom` gives what is known before the instruction at each index. Copy propagation simplifies
every instruction with it (`getElem?_propagateFrom`); from one index to the next it only learns
what the instruction makes true (`knownFrom_succ`), and at a label nothing is known
(`knownFrom_label`). What replaces a variable is a constant or a temporary that the code uses
already (`Substitution.Within`), so the simplified code of a built body is built again
(`Body.optimized_of_build`).
-/

namespace ObjectIr

namespace OperandOf

mutual

theorem reads_constant : ∀ o : Operand, o.isConstant = true → o.reads = []
  | .array os, h => readsAll_constant os h
  | .nil, _ | .bool _, _ | .fixnum _, _ | .float _, _ | .string _, _ | .symbol _, _ => rfl

theorem readsAll_constant : ∀ os : List Operand, allConstant os = true → readsAll os = []
  | [], _ => rfl
  | o :: os, h => by
    rw [allConstant, Bool.and_eq_true] at h
    rw [readsAll, reads_constant o h.1, readsAll_constant os h.2, List.append_nil]

end

end OperandOf

/-- Everything known is an operand that keeps its value, and reads such variables only. -/
def Substitution.Within (p : Variable → Prop) (values : Substitution) : Prop :=
  ∀ e ∈ values, isStable e.2 = true ∧ ∀ v ∈ e.2.reads, p v

section Within

variable {p : Variable → Prop} {values : Substitution}

theorem OperandOf.mem_reads_simplified (h : values.Within p) {v : Variable} (o : Operand)
    (hv : v ∈ (o.simplified values true).reads) : v ∈ o.reads ∨ p v := by
  rw [reads_simplified, List.mem_flatMap] at hv
  obtain ⟨w, hw, hv⟩ := hv
  rw [Substitution.replace] at hv
  cases hl : Substitution.lookup? values w with
  | none =>
    simp only [hl, reads, List.mem_singleton] at hv
    exact .inl (hv ▸ hw)
  | some o =>
    simp only [hl, Bool.true_or, if_true] at hv
    exact .inr ((h _ (Substitution.mem_of_lookup? hl)).2 v hv)

variable (h : values.Within p)

include h

theorem InstrOf.mem_usedVariables_simplified {i : Instr} {v : Variable}
    (hv : v ∈ (i.simplified values true).usedVariables) : v ∈ i.usedVariables ∨ p v := by
  rw [usedVariables, result?_simplified, operands_simplified, List.mem_append,
    List.mem_flatMap] at hv
  rw [usedVariables, List.mem_append, List.mem_flatMap]
  rcases hv with hv | ⟨o, ho, hv⟩
  · exact .inl (.inl hv)
  · obtain ⟨o, hoi, rfl⟩ := List.mem_map.1 ho
    exact (OperandOf.mem_reads_simplified h o hv).imp_left fun hv => .inr ⟨o, hoi, hv⟩

namespace Substitution.Within

theorem forget (v : Variable) : (values.forget v).Within p :=
  fun e he => h e (mem_forget.1 he).1

theorem after {i : Instr} (hi : ∀ v ∈ i.usedVariables, v.isTemp = true → p v) :
    (values.after (i.simplified values true)).Within p := by
  rw [Substitution.after, InstrOf.result?_simplified]
  cases hr : i.result? with
  | none => exact h
  | some r =>
    have hf := forget h r
    cases i with
    | copy r' source =>
      simp only [InstrOf.simplified, InstrOf.traverse, Id.run, pure, bind]
      split
      · next hst =>
        rw [Bool.and_eq_true] at hst
        refine fun e he => (List.mem_cons.1 he).elim (fun he => ?_) (hf e)
        subst he
        refine ⟨hst.2, fun v hv => ?_⟩
        rcases isStable_cases hst.2 with hc | ⟨t, ht⟩
        · rw [OperandOf.reads_constant _ hc] at hv
          cases hv
        · rcases OperandOf.mem_reads_simplified h source hv with hv' | hv'
          · refine hi v (by simp [InstrOf.usedVariables, InstrOf.operands, hv']) ?_
            rw [ht, OperandOf.reads, List.mem_singleton] at hv
            rw [hv]
            rfl
          · exact hv'
      · exact hf
    | call => rw [InstrOf.simplified_call]; exact hf
    | _ => exact hf

end Substitution.Within

end Within

/-! ### Indices -/

/-- What is still known at an instruction: labels can be reached from elsewhere. -/
def Substitution.before (values : Substitution) (i : Instr) : Substitution :=
  if i.label?.isSome then [] else values

theorem Substitution.mem_of_mem_before {values : Substitution} {i : Instr}
    {e : Variable × Operand} (he : e ∈ values.before i) : e ∈ values := by
  rw [before] at he
  split at he
  · cases he
  · exact he

/-- What is known before the instruction at an index, given what is known at the start. -/
def knownFrom (values : Substitution) : List Instr → Nat → Substitution
  | [], _ => values
  | i :: _, 0 => values.before i
  | i :: is, n + 1 =>
    knownFrom ((values.before i).after (i.simplified (values.before i) true)) is n

theorem propagateFrom_cons (values : Substitution) (i : Instr) (is : List Instr) :
    propagateFrom values (i :: is) = i.simplified (values.before i) true ::
      propagateFrom ((values.before i).after (i.simplified (values.before i) true)) is := by
  cases i <;> rfl

theorem getElem?_propagateFrom (values : Substitution) (code : List Instr) (n : Nat) :
    (propagateFrom values code)[n]? =
      code[n]?.map fun i => i.simplified (knownFrom values code n) true := by
  induction code generalizing values n with
  | nil => rfl
  | cons i is ih =>
    rw [propagateFrom_cons]
    cases n with
    | zero => rfl
    | succ n => exact ih _ n

theorem mem_of_mem_knownFrom_zero {values : Substitution} {code : List Instr}
    {e : Variable × Operand} (he : e ∈ knownFrom values code 0) : e ∈ values := by
  cases code with
  | nil => exact he
  | cons i is => exact Substitution.mem_of_mem_before he

theorem knownFrom_succ {values : Substitution} {code : List Instr} {n : Nat} {i : Instr}
    (hi : code[n]? = some i) {e : Variable × Operand}
    (he : e ∈ knownFrom values code (n + 1)) :
    e ∈ (knownFrom values code n).after (i.simplified (knownFrom values code n) true) := by
  induction code generalizing values n with
  | nil => simp at hi
  | cons j is ih =>
    cases n with
    | zero =>
      obtain rfl : j = i := by simpa using hi
      exact mem_of_mem_knownFrom_zero he
    | succ n => exact ih (by simpa using hi) he

theorem knownFrom_label {values : Substitution} {code : List Instr} {n : Nat} {i : Instr}
    (hi : code[n]? = some i) (hl : i.label?.isSome = true) : knownFrom values code n = [] := by
  induction code generalizing values n with
  | nil => simp at hi
  | cons j is ih =>
    cases n with
    | zero =>
      obtain rfl : j = i := by simpa using hi
      exact if_pos hl
    | succ n => exact ih (by simpa using hi)

theorem within_knownFrom {p : Variable → Prop} {values : Substitution} (h : values.Within p)
    {code : List Instr} (hc : ∀ i ∈ code, ∀ v ∈ i.usedVariables, v.isTemp = true → p v) (n : Nat) :
    (knownFrom values code n).Within p := by
  induction code generalizing values n with
  | nil => exact h
  | cons i is ih =>
    have hb : (values.before i).Within p := fun e he => h e (Substitution.mem_of_mem_before he)
    cases n with
    | zero => exact hb
    | succ n =>
      exact ih (hb.after (hc i List.mem_cons_self)) (fun j hj => hc j (List.mem_cons_of_mem _ hj)) n

theorem map_label?_propagateFrom (values : Substitution) (code : List Instr) :
    (propagateFrom values code).map InstrOf.label? = code.map InstrOf.label? := by
  induction code generalizing values with
  | nil => rfl
  | cons i is ih =>
    rw [propagateFrom_cons, List.map_cons, List.map_cons, ih, InstrOf.label?_simplified]

/-! ### Bodies -/

theorem Body.labelIndex?_eq (b : Body) (l : Label) :
    b.labelIndex? l = (b.code.map InstrOf.label?).findIdx? (· == some l) := by
  rw [labelIndex?, List.findIdx?_map]
  rfl

theorem Body.label?_of_labelIndex? {b : Body} {l : Label} {n : Nat} (h : b.labelIndex? l = some n) :
    ∃ i, b.code[n]? = some i ∧ i.label? = some l := by
  obtain ⟨hn, hl, -⟩ := List.findIdx?_eq_some_iff_getElem.1 h
  exact ⟨_, List.getElem?_eq_getElem hn, eq_of_beq hl⟩

/-- The second body is the first with its operands simplified, each with what is known there. -/
structure Body.Propagated (shared : Temp → Prop) (known : Nat → Substitution) (b b' : Body) :
    Prop where
  kin : b.Kin b'
  code : ∀ n, b'.code[n]? = b.code[n]?.map fun i : Instr => i.simplified (known n) true
  stable : ∀ n, ∀ e ∈ known n, Substitution.isStable e.2 = true
  shared : ∀ i ∈ b'.code, Shared shared i.usedVariables
  start : known 0 = []
  next : ∀ n i, b.code[n]? = some i →
    ∀ e ∈ known (n + 1), e ∈ (known n).after (i.simplified (known n) true)
  label : ∀ l n, b.labelIndex? l = some n → known n = []

/-- Every body is its own simplified form, with nothing known. -/
theorem Body.Propagated.refl (b : Body) : b.Propagated (fun _ => True) (fun _ => []) b where
  kin := ⟨rfl, rfl, rfl, rfl⟩
  code n := by
    cases b.code[n]? with
    | none => rfl
    | some i => rw [Option.map_some, InstrOf.simplified_nil]
  stable n e he := by cases he
  shared i _ t _ := trivial
  start := rfl
  next n i _ e he := by cases he
  label l n _ := rfl

def Body.HasTemp (b : Body) (v : Variable) : Prop := ∃ t, v = .temp t ∧ b.temps.holds t = true

def Body.propagatedDraft (b : Body) : Draft where
  name := b.name
  scope := b.scope
  file := b.file
  flags := b.flags
  requiredArgs := b.requiredArgs
  code := propagate b.code

section Built

variable {d : Draft} {id : Nat} {b : Body} (hb : d.build id = .ok b)

include hb

theorem Body.within_hasTemp (n : Nat) : (knownFrom [] b.code n).Within b.HasTemp := by
  refine within_knownFrom (by rintro e ⟨⟩) ?_ n
  rintro i hi (t | _) hv ht
  · exact ⟨t, rfl, Draft.holds_of_build hb hi hv⟩
  · cases ht

/-- An instruction comes from an old one, and uses nothing new but temporaries of the body. -/
theorem Body.mem_propagate {i' : Instr} (hi' : i' ∈ propagate b.code) :
    ∃ i ∈ b.code, i'.target? = i.target? ∧
      ∀ v ∈ i'.usedVariables, v ∈ i.usedVariables ∨ b.HasTemp v := by
  obtain ⟨n, hn⟩ := List.mem_iff_getElem?.1 hi'
  rw [propagate, getElem?_propagateFrom] at hn
  obtain ⟨i, hi, rfl⟩ := Option.map_eq_some_iff.1 hn
  exact ⟨i, List.mem_of_getElem? hi, InstrOf.target?_simplified _ _ i,
    fun v hv => InstrOf.mem_usedVariables_simplified (Body.within_hasTemp hb n) hv⟩

theorem Body.propagatedDraft_sound : b.propagatedDraft.Sound := by
  obtain ⟨hd, temps, -, hbody⟩ := Draft.build_eq_ok_iff.1 hb
  have hcode : b.code = d.code := by rw [hbody]; rfl
  have hlabels : b.propagatedDraft.labels = d.labels := by
    have := congrArg (List.filterMap fun l => l) (map_label?_propagateFrom [] b.code)
    rw [List.filterMap_map, List.filterMap_map] at this
    rw [Draft.labels, Draft.labels, ← hcode]
    exact this
  refine ⟨?_, by rw [hlabels]; exact hd.labels, fun i' hi' => ?_⟩
  · show (b.flags.has .scopeEliminated && b.flags.has .reuseParentScope) = false
    rw [hbody]
    exact hd.flags
  · obtain ⟨i, hi, htarget, hused⟩ := Body.mem_propagate hb hi'
    obtain ⟨ht, hv⟩ := Draft.checkInstr_eq_ok_iff.1 (hd.code i (hcode ▸ hi))
    refine Draft.checkInstr_eq_ok_iff.2 ⟨by rw [htarget, hlabels]; exact ht, fun v hv' => ?_⟩
    rcases hused v hv' with hv' | ⟨t, rfl, -⟩
    · have := hv v hv'
      subst hbody
      exact this
    · rfl

/-- A body that was built can be optimized, and its temporaries are there in both. -/
theorem Body.optimized_of_build (id' : Nat) : ∃ b', b.optimized id' = .ok b' ∧
    b.Propagated (fun t => b.temps.holds t = true ∧ b'.temps.holds t = true)
      (knownFrom [] b.code) b' := by
  have hb' : b.optimized id' = .ok (b.propagatedDraft.body id' b.propagatedDraft.usedTemps) :=
    Draft.build_eq_ok_iff.2 ⟨Body.propagatedDraft_sound hb, _, rfl, rfl⟩
  refine ⟨_, hb', ?_⟩
  exact {
    kin := by
      refine ⟨rfl, rfl, rfl, funext fun l => ?_⟩
      rw [Body.labelIndex?_eq, Body.labelIndex?_eq]
      exact congrArg _ (map_label?_propagateFrom [] b.code).symm
    code := getElem?_propagateFrom [] b.code
    stable := fun n e he => (Body.within_hasTemp hb n e he).1
    shared := by
      intro i' hi' t ht
      refine ⟨?_, Draft.holds_of_build hb' hi' ht⟩
      obtain ⟨i, hi, -, hused⟩ := Body.mem_propagate hb hi'
      rcases hused _ ht with ht | ⟨u, hu, hh⟩
      · exact Draft.holds_of_build hb hi ht
      · cases hu
        exact hh
    start := List.eq_nil_iff_forall_not_mem.2 fun e he => by cases mem_of_mem_knownFrom_zero he
    next := fun n i hi e he => knownFrom_succ hi he
    label := by
      intro l n hl
      obtain ⟨i, hi, hli⟩ := Body.label?_of_labelIndex? hl
      exact knownFrom_label hi (by rw [hli]; rfl) }

end Built

end ObjectIr
