import Mathlib.Data.List.Forall2
import ObjectIr.Proofs.CopyPropagation.Known
import ObjectIr.Proofs.FirstUses

/-!
# Copy propagation settles at once

What a temporary is known to be is a constant, or a temporary of which nothing else is known
(`Substitution.Settled`). So a simplified operand is simplified no further, a second pass learns
what the first one learned, and it leaves the code alone (`propagate_settles`).
-/

namespace ObjectIr

namespace Substitution

/-- What is known is known of temporaries, and nothing further is known of what replaces them. -/
structure Settled (values : Substitution) : Prop where
  stable : ∀ e ∈ values, e.1.isTemp = true ∧ isStable e.2 = true
  fixed : ∀ e ∈ values, ∀ e' ∈ values, e.2 = .var e'.1 → e'.2 = e.2

variable {values : Substitution}

theorem settled_nil : Settled [] := ⟨by simp, by simp⟩

theorem mem_replace_var (values : Substitution) (v : Variable) :
    (values.lookup? v = none ∧ values.replace true (.var v) = .var v) ∨
      ∃ o, (v, o) ∈ values ∧ values.replace true (.var v) = o := by
  rcases values.puts_replace true v with ⟨hl, -⟩ | ⟨ho, hnone⟩
  · exact .inr ⟨_, mem_of_lookup? hl, rfl⟩
  · refine .inl ⟨Option.eq_none_iff_forall_ne_some.2 fun w hw => ?_, ho⟩
    exact absurd (hnone w hw).1 (by simp)

theorem ne_of_lookup?_eq_none {v : Variable} (hl : values.lookup? v = none) {e : Variable × Operand}
    (he : e ∈ values) : e.1 ≠ v := by
  rintro rfl
  exact absurd (List.lookup_eq_none_iff.1 hl e he) (by simp)

namespace Settled

variable (h : values.Settled)

include h

theorem forget (v : Variable) : (values.forget v).Settled :=
  ⟨fun e he => h.stable e (mem_forget.1 he).1,
    fun e he e' he' => h.fixed e (mem_forget.1 he).1 e' (mem_forget.1 he').1⟩

theorem before (i : Instr) : (values.before i).Settled :=
  ⟨fun e he => h.stable e (mem_of_mem_before he),
    fun e he e' he' => h.fixed e (mem_of_mem_before he) e' (mem_of_mem_before he')⟩

/-- Nothing more is known of a variable that stands where another was. -/
theorem snd_of_simplified_eq {o : Operand} {e : Variable × Operand} (he : e ∈ values)
    (ho : o.simplified values true = .var e.1) : e.2 = .var e.1 := by
  cases o with
  | var v =>
    rw [OperandOf.simplified_var] at ho
    rcases mem_replace_var values v with ⟨hl, hv⟩ | ⟨p, hp, hv⟩
    · rw [hv, OperandOf.var.injEq] at ho
      exact absurd ho.symm (ne_of_lookup?_eq_none hl he)
    · rw [hv] at ho
      rw [← ho]
      exact h.fixed _ hp e he ho
  | array os => rw [OperandOf.simplified_array] at ho; cases ho
  | _ => cases ho

theorem simplified_eq_self_of_mem {e : Variable × Operand} (he : e ∈ values) :
    e.2.simplified values true = e.2 := by
  rcases isStable_cases (h.stable e he).2 with hc | ⟨t, ht⟩
  · have hreads : ∀ v ∈ e.2.reads,
        values.replace true (.var v) = Substitution.replace [] true (.var v) := by
      simp [OperandOf.reads_constant _ hc]
    rw [OperandOf.simplified_congr hreads, OperandOf.simplified_nil]
  · rw [ht, OperandOf.simplified_var]
    rcases mem_replace_var values (.temp t) with ⟨-, hv⟩ | ⟨o, ho, hv⟩
    · exact hv
    · rw [hv, ← ht]
      exact h.fixed e he _ ho ht

/-- Setting the result of an instruction learns nothing of what replaces something already. -/
theorem after (i : Instr) : (values.after (i.simplified values true)).Settled := by
  rw [Substitution.after, InstrOf.result?_simplified]
  cases hr : i.result? with
  | none => exact h
  | some r =>
    have hf := h.forget r
    cases i with
    | copy r' source =>
      simp only [InstrOf.simplified, InstrOf.traverse, Id.run, pure, bind]
      split
      · next hst =>
        rw [Bool.and_eq_true] at hst
        refine ⟨List.forall_mem_cons.2 ⟨hst, hf.stable⟩, fun e he e' he' heq => ?_⟩
        rcases List.mem_cons.1 he with rfl | he <;> rcases List.mem_cons.1 he' with rfl | he'
        · rfl
        · exact (h.snd_of_simplified_eq (mem_forget.1 he').1 heq).trans heq.symm
        · exact absurd (by rw [heq]; rfl) (mem_forget.1 he).2.2
        · exact hf.fixed e he e' he' heq
      · exact hf
    | call => rw [InstrOf.simplified_call]; exact hf
    | _ => exact hf

end Settled

end Substitution

section Again

variable {values : Substitution}

mutual

theorem OperandOf.simplified_simplified (h : values.Settled) : ∀ o : Operand,
    (o.simplified values true).simplified values true = o.simplified values true
  | .var v => by
    rw [simplified_var]
    rcases Substitution.mem_replace_var values v with ⟨-, hv⟩ | ⟨o, ho, hv⟩
    · rw [hv, simplified_var, hv]
    · rw [hv]
      exact h.simplified_eq_self_of_mem ho
  | .array os => by
    rw [simplified_array, simplified_array, map_simplified_simplified h os]
  | .selfObject | .nil | .bool _ | .fixnum _ | .float _ | .string _ | .symbol _ | .scopeModule
  | .undefined | .body _ => rfl

theorem OperandOf.map_simplified_simplified (h : values.Settled) : ∀ os : List Operand,
    ((os.map fun o => o.simplified values true).map fun o => o.simplified values true) =
      os.map fun o => o.simplified values true
  | [] => rfl
  | o :: os => by
    rw [List.map_cons, List.map_cons, simplified_simplified h o, map_simplified_simplified h os]

end

variable (h : values.Settled)

include h

theorem InstrOf.simplified_simplified (i : Instr) :
    (i.simplified values true).simplified values true = i.simplified values true := by
  refine simplified_eq_self _ _ fun o ho => ?_
  rw [operands_simplified] at ho
  obtain ⟨o, -, rfl⟩ := List.mem_map.1 ho
  exact o.simplified_simplified h

theorem propagateFrom_propagateFrom (code : List Instr) :
    propagateFrom values (propagateFrom values code) = propagateFrom values code := by
  induction code generalizing values with
  | nil => rfl
  | cons i is ih =>
    have hbefore : values.before (i.simplified (values.before i) true) = values.before i := by
      rw [Substitution.before, InstrOf.label?_simplified, Substitution.before]
    rw [propagateFrom_cons, propagateFrom_cons, hbefore,
      InstrOf.simplified_simplified (h.before i), ih ((h.before i).after i)]

end Again

/-! ### What a pass leaves alone -/

/-- A temporary gives way to a constant or another temporary; every variable may stay. -/
def Variable.Forwards (v : Variable) (o : Operand) : Prop :=
  o = .var v ∨ v.isTemp = true ∧ Substitution.isStable o = true

/-- An instruction with temporaries forwarded in their places, and the same in all else. -/
structure InstrOf.Forwarded (i i' : Instr) : Prop where
  blank : i'.blank = i.blank
  operands : List.Forall₂ (OperandOf.Replaced Variable.Forwards) i.operands i'.operands
  locals : (i'.usedVariables.filter fun v => !v.isTemp) = i.usedVariables.filter fun v => !v.isTemp

section Forwarded

variable {values : Substitution}

theorem Substitution.Settled.forwards (h : values.Settled) (v : Variable) :
    v.Forwards (values.replace true (.var v)) := by
  rcases mem_replace_var values v with ⟨-, hv⟩ | ⟨o, ho, hv⟩
  · exact .inl hv
  · rw [hv]
    exact .inr (h.stable _ ho)

theorem Variable.Forwards.filter_reads {v : Variable} {o : Operand} (h : v.Forwards o) :
    (o.reads.filter fun v => !v.isTemp) = [v].filter fun v => !v.isTemp := by
  rcases h with rfl | ⟨hv, hst⟩
  · rfl
  · rcases Substitution.isStable_cases hst with hc | ⟨t, rfl⟩
    · simp [OperandOf.reads_constant _ hc, hv]
    · simp [OperandOf.reads, hv, show (Variable.temp t).isTemp = true from rfl]

variable (h : values.Settled)

include h

theorem OperandOf.filter_readsAll_simplified (os : List Operand) :
    ((readsAll (os.map fun o => o.simplified values true)).filter fun v => !v.isTemp) =
      (readsAll os).filter fun v => !v.isTemp := by
  rw [readsAll_simplified]
  induction readsAll os with
  | nil => rfl
  | cons v vs ih =>
    rw [List.flatMap_cons, List.filter_append, ih, (h.forwards v).filter_reads,
      ← List.filter_append, List.singleton_append]

theorem InstrOf.forwarded_simplified (i : Instr) : i.Forwarded (i.simplified values true) where
  blank := blank_simplified values true i
  operands := by
    rw [operands_simplified]
    exact OperandOf.replaced_map_simplified fun v _ => h.forwards v
  locals := by
    rw [usedVariables, usedVariables, result?_simplified, operands_simplified, List.filter_append,
      List.filter_append, ← OperandOf.readsAll_eq_flatMap, ← OperandOf.readsAll_eq_flatMap,
      OperandOf.filter_readsAll_simplified h]

theorem forwarded_propagateFrom (code : List Instr) :
    List.Forall₂ InstrOf.Forwarded code (propagateFrom values code) := by
  induction code generalizing values with
  | nil => exact .nil
  | cons i is ih =>
    rw [propagateFrom_cons]
    exact .cons (InstrOf.forwarded_simplified (h.before i) i) (ih ((h.before i).after i))

end Forwarded

/-- A pass reads and writes no temporary that the code did not read or write before it. -/
theorem temp_mem_usedVariables_propagate {code : List Instr} {t : Temp}
    (ht : .temp t ∈ usedVariables (propagate code)) : .temp t ∈ usedVariables code := by
  obtain ⟨i', hi', hv⟩ := mem_usedVariables.1 ht
  obtain ⟨n, hn⟩ := List.mem_iff_getElem?.1 hi'
  rw [propagate, getElem?_propagateFrom] at hn
  obtain ⟨i, hi, rfl⟩ := Option.map_eq_some_iff.1 hn
  have hwithin : (knownFrom [] code n).Within (· ∈ usedVariables code) :=
    within_knownFrom (by rintro e ⟨⟩) (fun i hi v hv _ => mem_usedVariables.2 ⟨i, hi, hv⟩) n
  rcases InstrOf.mem_usedVariables_simplified hwithin hv with hv | hv
  · exact mem_usedVariables.2 ⟨i, List.mem_of_getElem? hi, hv⟩
  · exact hv

/-! ### Bodies -/

namespace Body

theorem code_temps_of_optimized {b b' : Body} {id : Nat} (h : b.optimized id = .ok b') :
    b'.code = propagate b.code ∧ b'.temps = b.propagatedDraft.usedTemps := by
  obtain ⟨-, temps, ht, rfl⟩ := Draft.build_eq_ok_iff.1 h
  cases ht
  exact ⟨rfl, rfl⟩

/-- An optimized body has no more temporaries of any kind than the body that was built. -/
theorem get_temps_of_optimized_le {d : Draft} {id id' : Nat} {b b' : Body}
    (hb : d.build id = .ok b) (h : b.optimized id' = .ok b') (k : TempKind) :
    b'.temps.get k ≤ b.temps.get k := by
  rw [(code_temps_of_optimized h).2]
  refine Draft.get_foldl_cover_le_iff.2 ⟨by cases k <;> exact Nat.zero_le _, fun t ht hk => ?_⟩
  obtain ⟨i', hi', ht⟩ := List.mem_flatMap.1 ht
  obtain ⟨i, hi, -, hused⟩ := mem_propagate hb hi'
  have hholds : b.temps.holds t = true := by
    rcases hused _ ht with ht | ⟨u, hu, hh⟩
    · exact Draft.holds_of_build hb hi ht
    · cases hu
      exact hh
  rw [← hk]
  exact of_decide_eq_true hholds

/-- Optimizing an optimized body changes neither its code nor its temporaries. -/
theorem optimized_optimized {b b₁ b₂ : Body} {id₁ id₂ : Nat} (h₁ : b.optimized id₁ = .ok b₁)
    (h₂ : b₁.optimized id₂ = .ok b₂) : b₂.code = b₁.code ∧ b₂.temps = b₁.temps := by
  obtain ⟨hc₁, ht₁⟩ := code_temps_of_optimized h₁
  obtain ⟨hc₂, ht₂⟩ := code_temps_of_optimized h₂
  have hcode : propagate b₁.code = propagate b.code := by
    rw [hc₁]
    exact propagateFrom_propagateFrom Substitution.settled_nil b.code
  refine ⟨by rw [hc₂, hcode, hc₁], ?_⟩
  rw [ht₁, ht₂, Draft.usedTemps, Draft.usedTemps]
  simp only [propagatedDraft, hcode]

end Body

/--
One pass reaches the fixpoint. It only forwards operands, and a body that was built can be
optimized again and again: after the first time nothing changes, and no count of temporaries has
grown.
-/
theorem propagate_settles :
    (∀ code : List Instr,
      propagate (propagate code) = propagate code ∧
        List.Forall₂ InstrOf.Forwarded code (propagate code) ∧
        ∀ t, .temp t ∈ usedVariables (propagate code) → .temp t ∈ usedVariables code) ∧
    ∀ (d : Draft) (id : Nat) (b : Body), d.build id = .ok b → ∀ id₁ id₂ : Nat,
      ∃ b₁ b₂, b.optimized id₁ = .ok b₁ ∧ b₁.optimized id₂ = .ok b₂ ∧
        b₂.code = b₁.code ∧ b₂.temps = b₁.temps ∧ ∀ k, b₁.temps.get k ≤ b.temps.get k := by
  refine ⟨fun code => ⟨propagateFrom_propagateFrom Substitution.settled_nil code,
    forwarded_propagateFrom Substitution.settled_nil code,
    fun t => temp_mem_usedVariables_propagate⟩, fun d id b hb id₁ id₂ => ?_⟩
  obtain ⟨b₁, h₁, -⟩ := Body.optimized_of_build hb id₁
  have hbuild : b.propagatedDraft.build id₁ = .ok b₁ := h₁
  obtain ⟨b₂, h₂, -⟩ := Body.optimized_of_build hbuild id₂
  obtain ⟨hcode, htemps⟩ := Body.optimized_optimized h₁ h₂
  exact ⟨b₁, b₂, h₁, h₂, hcode, htemps, Body.get_temps_of_optimized_le hb h₁⟩

/-- A temporary copied on, and read inside an array, in a body with more room than it needs. -/
def chainDraft : Draft where
  name := "chain"
  scope := .nest ⟨0, .method, ["x"]⟩ none
  declared? := some { generic := 5 }
  code := [.copy (.temp ⟨.generic, 0⟩) (.var (.lexical "x" 0 0)),
    .copy (.temp ⟨.generic, 1⟩) (.var (.temp ⟨.generic, 0⟩)),
    .copy (.temp ⟨.generic, 2⟩) (.array [.var (.temp ⟨.generic, 1⟩), .fixnum 2]),
    .ret (.var (.temp ⟨.generic, 2⟩))]

theorem propagate_settles_chainDraft :
    ∃ b b₁ b₂, chainDraft.build 0 = .ok b ∧ b.optimized 1 = .ok b₁ ∧ b₁.optimized 2 = .ok b₂ ∧
      b₂.code = b₁.code ∧ b₂.temps = b₁.temps ∧ ∀ k, b₁.temps.get k ≤ b.temps.get k := by
  have hb : chainDraft.build 0 = .ok (chainDraft.body 0 { generic := 5 }) := rfl
  obtain ⟨b₁, b₂, h⟩ := propagate_settles.2 chainDraft 0 _ hb 1 2
  exact ⟨_, b₁, b₂, hb, h⟩

end ObjectIr
