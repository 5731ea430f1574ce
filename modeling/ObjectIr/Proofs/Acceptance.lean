import Mathlib.Order.Bounds.Basic
import ObjectIr.Proofs.Drafts

/-!
# Which drafts are built

`Draft.WellFormed` says what a draft must be without going through its checks, and
`Draft.Violates` which error a draft that is not comes with: that of the first stage it fails, and
there of the first instruction and the first variable. `build` accepts just the well-formed drafts,
refuses the others with just these errors, and gives the body the least room for temporaries
(`build_characterized`).
-/

namespace ObjectIr

/-! ### Where variables and labels stand -/

/-- A variable stands in an operand, however deep inside arrays. -/
inductive OperandOf.Mentions (v : Variable) : Operand → Prop
  | var : OperandOf.Mentions v (.var v)
  | element {os : List Operand} {o : Operand} (ho : o ∈ os) (h : OperandOf.Mentions v o) :
    OperandOf.Mentions v (.array os)

section Mentions

variable {v : Variable}

mutual

theorem OperandOf.mem_reads_iff : ∀ {o : Operand}, v ∈ o.reads ↔ o.Mentions v
  | .var w => by
    refine ⟨fun h => ?_, fun h => ?_⟩
    · rw [List.mem_singleton.1 h]
      exact .var
    · cases h
      exact List.mem_singleton_self v
  | .array os => by
    refine mem_readsAll_iff.trans ⟨fun ⟨o, ho, h⟩ => .element ho h, fun h => ?_⟩
    cases h with
    | element ho h => exact ⟨_, ho, h⟩
  | .selfObject | .nil | .bool _ | .fixnum _ | .float _ | .string _ | .symbol _ | .scopeModule
  | .undefined | .body _ => ⟨by simp [reads], by rintro ⟨⟩⟩

theorem OperandOf.mem_readsAll_iff : ∀ {os : List Operand},
    v ∈ readsAll os ↔ ∃ o ∈ os, o.Mentions v
  | [] => by simp [readsAll]
  | o :: os => by
    rw [readsAll, List.mem_append, mem_reads_iff, mem_readsAll_iff]
    simp

end

/-- A variable is the result of an instruction, or stands in one of its operands. -/
def InstrOf.Mentions (v : Variable) : Instr → Prop
  | .copy r source => r = v ∨ source.Mentions v
  | .receiveArg r _ | .receiveBlock r | .searchConst r _ | .buildClosure r _ => r = v
  | .intMath r _ lhs rhs | .floatMath r _ lhs rhs => r = v ∨ lhs.Mentions v ∨ rhs.Mentions v
  | .label _ | .jump _ | .defineMethod .. | .setVisibility _ => False
  | .branchFalse condition _ => condition.Mentions v
  | .call r receiver _ args block _ =>
    r = v ∨ receiver.Mentions v ∨ (∃ o ∈ args, o.Mentions v) ∨ ∃ o ∈ block, o.Mentions v
  | .defineClass r _ container superclass => r = v ∨ container.Mentions v ∨ superclass.Mentions v
  | .processModuleBody r method => r = v ∨ method.Mentions v
  | .putConst container _ value => container.Mentions v ∨ value.Mentions v
  | .yield r block args => r = v ∨ block.Mentions v ∨ ∃ o ∈ args, o.Mentions v
  | .ret value | .nonlocalRet value | .raise value => value.Mentions v

theorem InstrOf.mem_usedVariables_iff {i : Instr} : v ∈ i.usedVariables ↔ i.Mentions v := by
  have hr : ∀ r : Variable, v = r ↔ r = v := fun r => eq_comm
  cases i with
  | call r receiver name args block type =>
    cases block <;>
      simp [usedVariables, result?, operands, Mentions, OperandOf.mem_reads_iff, hr]
  | _ => simp [usedVariables, result?, operands, Mentions, OperandOf.mem_reads_iff,
      OperandOf.reads, hr]

end Mentions

/-- The instruction may jump to the label. -/
def InstrOf.JumpsTo (i : Instr) (l : Label) : Prop := i = .jump l ∨ ∃ o, i = .branchFalse o l

theorem InstrOf.target?_eq_some_iff {i : Instr} {l : Label} :
    i.target? = some l ↔ i.JumpsTo l := by
  cases i <;> simp [target?, JumpsTo, eq_comm]

theorem InstrOf.label?_eq_some_iff {i : Instr} {l : Label} : i.label? = some l ↔ i = .label l := by
  cases i <;> simp [label?]

/-- No label stands at two places. -/
def LabelsDiffer (code : List Instr) : Prop :=
  code.Pairwise fun i j => ∀ l, i = .label l → j ≠ .label l

theorem mem_filterMap_label?_iff {code : List Instr} {l : Label} :
    l ∈ code.filterMap InstrOf.label? ↔ .label l ∈ code := by
  simp [List.mem_filterMap, InstrOf.label?_eq_some_iff]

theorem nodup_filterMap_label?_iff {code : List Instr} :
    (code.filterMap InstrOf.label?).Nodup ↔ LabelsDiffer code := by
  rw [List.Nodup, List.pairwise_filterMap, LabelsDiffer]
  refine ⟨List.Pairwise.imp fun h l hi hj => ?_, List.Pairwise.imp fun h l hi k hj hlk => ?_⟩
  · exact h l (InstrOf.label?_eq_some_iff.2 hi) l (InstrOf.label?_eq_some_iff.2 hj) rfl
  · subst hlk
    exact h l (InstrOf.label?_eq_some_iff.1 hi) (InstrOf.label?_eq_some_iff.1 hj)

/-! ### Well-formed drafts and their opposite -/

namespace Draft

variable (d : Draft)

/-- A body without a scope of its own. -/
def Scopeless : Prop :=
  d.flags.has .scopeEliminated = true ∨ d.flags.has .reuseParentScope = true

def FlagsConflict : Prop :=
  d.flags.has .scopeEliminated = true ∧ d.flags.has .reuseParentScope = true

/-- That many levels out, there is a local at the offset. -/
def Declares (depth offset : Nat) : Prop :=
  ∃ level, d.scope.level? depth = some level ∧ offset < level.locals.length

/-- A local that can be stored. -/
def Stores : Variable → Prop
  | .temp _ => True
  | .lexical _ depth offset => (d.Scopeless → 1 ≤ depth) ∧ d.Declares depth offset

/-- An instruction whose jump target and locals are there. -/
structure Passes (i : Instr) : Prop where
  target : ∀ l, i.JumpsTo l → .label l ∈ d.code
  locals : ∀ v, i.Mentions v → d.Stores v

/-- The counts of a kind that must fit: the slots handed out, and those up to a slot in use. -/
def marks (k : TempKind) : Set Nat :=
  {n | n = d.allocated.get k ∨ ∃ i ∈ d.code, ∃ t : Temp, t.kind = k ∧ i.Mentions (.temp t) ∧
    n = t.index + 1}

/-- No label has the highest number there is, above which there is none. -/
def RoomAbove : Prop := ∀ l, .label l ∈ d.code → l.number.toNat + 1 < Label.numberRange

structure WellFormed : Prop where
  flags : ¬d.FlagsConflict
  labels : LabelsDiffer d.code
  code : ∀ i ∈ d.code, d.Passes i
  temps : ∀ declared, d.declared? = some declared → ∀ k, ∀ n ∈ d.marks k, n ≤ declared.get k

/-- Why a variable cannot be used. -/
inductive Refuses : Variable → BuildError → Prop
  | shared (h : d.Scopeless) (name : String) (offset : Nat) :
    Refuses (.lexical name 0 offset) (.sharedScopeLocal name)
  | range {name : String} {depth offset : Nat} (h : d.Scopeless → 1 ≤ depth)
    (hd : ¬d.Declares depth offset) :
    Refuses (.lexical name depth offset) (.localOutOfRange name depth offset)

/-- Why an instruction does not pass: its target, or else the first variable that is refused. -/
inductive Rejects (i : Instr) : BuildError → Prop
  | target {l : Label} (h : i.JumpsTo l) (hl : .label l ∉ d.code) : Rejects i (.unknownLabel l)
  | place {before after : List Variable} {v : Variable} {e : BuildError}
    (htarget : ∀ l, i.JumpsTo l → .label l ∈ d.code)
    (hi : i.usedVariables = before ++ v :: after) (hbefore : ∀ w ∈ before, d.Stores w)
    (hv : d.Refuses v e) : Rejects i e

/-- What is wrong at the first stage at which something is. -/
inductive Violates : BuildError → Prop
  | flags (h : d.FlagsConflict) : Violates .conflictingScopeFlags
  | label {before after : List Instr} {l : Label} (hflags : ¬d.FlagsConflict)
    (hcode : d.code = before ++ .label l :: after) (hbefore : LabelsDiffer before)
    (hl : .label l ∈ before) : Violates (.duplicateLabel l)
  | code {before after : List Instr} {i : Instr} {e : BuildError} (hflags : ¬d.FlagsConflict)
    (hlabels : LabelsDiffer d.code) (hcode : d.code = before ++ i :: after)
    (hbefore : ∀ j ∈ before, d.Passes j) (hi : d.Rejects i e) : Violates e
  | temps {declared : TempCounts} {before after : List TempKind} {k : TempKind} {n : Nat}
    (hflags : ¬d.FlagsConflict) (hlabels : LabelsDiffer d.code) (hcode : ∀ i ∈ d.code, d.Passes i)
    (hdeclared : d.declared? = some declared) (hall : TempKind.all = before ++ k :: after)
    (hbefore : ∀ j ∈ before, ∀ m ∈ d.marks j, m ≤ declared.get j)
    (hn : IsGreatest (d.marks k) n) (hk : declared.get k < n) :
    Violates (.tempOutOfRange ⟨k, (n - 1) % Temp.indexRange⟩ (declared.get k))

/-- The body that a draft describes, with what is computed for it. -/
structure Describes (id : Nat) (b : Body) : Prop where
  body : b = d.body id b.temps
  declared : ∀ declared, d.declared? = some declared → b.temps = declared
  derived : d.declared? = none → ∀ k, IsGreatest (d.marks k) (b.temps.get k)
  index : ∀ l n, b.labelIndex? l = some n ↔ d.code[n]? = some (.label l)
  next : d.RoomAbove →
    IsLeast {n | ∀ i ∈ d.code, ∀ l, i = .label l ∨ i.JumpsTo l → l.number.toNat < n} b.nextLabel

variable {d}

/-! ### The checks, one by one -/

theorem scopeless_iff : d.Scopeless ↔ d.sharesScope = true := by
  rw [Scopeless, sharesScope, Bool.or_eq_true]

theorem flagsConflict_iff :
    d.FlagsConflict ↔ (d.flags.has .scopeEliminated && d.flags.has .reuseParentScope) = true := by
  rw [FlagsConflict, Bool.and_eq_true]

theorem checkVariable_cases (d : Draft) (v : Variable) :
    (d.checkVariable v = .ok () ∧ d.Stores v ∧ ∀ e, ¬d.Refuses v e) ∨
      ∃ e, d.checkVariable v = .error e ∧ ¬d.Stores v ∧ ∀ e', d.Refuses v e' ↔ e' = e := by
  cases v with
  | temp t => exact .inl ⟨rfl, trivial, by rintro e ⟨⟩⟩
  | lexical name depth offset =>
    rw [checkVariable]
    by_cases hs : (d.sharesScope && depth == 0) = true
    · obtain ⟨hsl, hdepth⟩ : d.Scopeless ∧ depth = 0 := by
        simpa [scopeless_iff] using hs
      subst hdepth
      refine .inr ⟨.sharedScopeLocal name, by rw [if_pos hs], fun h => ?_, fun e' => ?_⟩
      · exact absurd (h.1 hsl) (by omega)
      · refine ⟨fun h => ?_, fun h => h ▸ .shared hsl name offset⟩
        cases h with
        | shared => rfl
        | range h => exact absurd (h hsl) (by omega)
    · have hdepth : d.Scopeless → 1 ≤ depth := fun h => by
        rw [scopeless_iff.1 h, Bool.true_and, beq_iff_eq] at hs
        omega
      rw [if_neg hs]
      by_cases hd : d.Declares depth offset
      · obtain ⟨level, hl, hlt⟩ := hd
        refine .inl ⟨by simp only [hl, if_pos hlt], ⟨hdepth, level, hl, hlt⟩, fun e h => ?_⟩
        cases h with
        | shared h => exact absurd (hdepth h) (by omega)
        | range h hd => exact hd ⟨level, hl, hlt⟩
      · refine .inr ⟨.localOutOfRange name depth offset, ?_, fun h => hd h.2, fun e' => ?_⟩
        · split
          · next level hl => exact if_neg fun hlt => hd ⟨level, hl, hlt⟩
          · rfl
        · refine ⟨fun h => ?_, fun h => h ▸ .range hdepth hd⟩
          cases h with
          | shared h => exact absurd (hdepth h) (by omega)
          | range => rfl

theorem checkVariable_eq_ok_iff {v : Variable} : d.checkVariable v = .ok () ↔ d.Stores v := by
  rcases checkVariable_cases d v with ⟨h, hs, -⟩ | ⟨e, h, hs, -⟩ <;> simp [h, hs]

theorem checkVariable_eq_error_iff {v : Variable} {e : BuildError} :
    d.checkVariable v = .error e ↔ d.Refuses v e := by
  rcases checkVariable_cases d v with ⟨h, -, hr⟩ | ⟨e', h, -, hr⟩
  · simp [h, hr]
  · rw [h, hr, Except.error.injEq, eq_comm]

theorem mem_labels_iff {l : Label} : l ∈ d.labels ↔ .label l ∈ d.code := mem_filterMap_label?_iff

theorem checkInstr_eq_ok_iff_passes {i : Instr} : d.checkInstr i = .ok () ↔ d.Passes i := by
  simp only [checkInstr_eq_ok_iff, InstrOf.target?_eq_some_iff, mem_labels_iff,
    InstrOf.mem_usedVariables_iff, checkVariable_eq_ok_iff]
  exact ⟨fun h => ⟨h.1, h.2⟩, fun h => ⟨h.1, h.2⟩⟩

theorem checkTarget_eq_error_iff {i : Instr} {e : BuildError} :
    d.checkTarget i = .error e ↔ ∃ l, i.JumpsTo l ∧ .label l ∉ d.code ∧ .unknownLabel l = e := by
  simp only [← InstrOf.target?_eq_some_iff, ← mem_labels_iff, checkTarget]
  cases i.target? with
  | none => simp
  | some l => by_cases hl : l ∈ d.labels <;> simp [hl]

theorem checkInstr_eq_error_iff {i : Instr} {e : BuildError} :
    d.checkInstr i = .error e ↔ d.Rejects i e := by
  have htargets : d.checkTarget i = .ok () ↔ ∀ l, i.JumpsTo l → .label l ∈ d.code := by
    simp only [checkTarget_eq_ok_iff, InstrOf.target?_eq_some_iff, mem_labels_iff]
  rw [checkInstr]
  cases ht : d.checkTarget i with
  | error e' =>
    obtain ⟨l, hl, hnone, rfl⟩ := checkTarget_eq_error_iff.1 ht
    simp only [bind, Except.bind, Except.error.injEq]
    refine ⟨fun h => h ▸ .target hl hnone, fun h => ?_⟩
    cases h with
    | target h' hnone' =>
      have := checkTarget_eq_error_iff.2 ⟨_, h', hnone', rfl⟩
      rw [ht] at this
      exact Except.error.inj this
    | place htarget => exact absurd (htarget l hl) hnone
  | ok u =>
    have hok := htargets.1 ht
    simp only [bind, Except.bind, forM_eq_error_iff, checkVariable_eq_ok_iff,
      checkVariable_eq_error_iff]
    constructor
    · rintro ⟨before, v, after, hi, hbefore, hv⟩
      exact .place hok hi hbefore hv
    · intro h
      cases h with
      | target h hl => exact absurd (hok _ h) hl
      | place htarget hi hbefore hv => exact ⟨_, _, _, hi, hbefore, hv⟩

/-! ### The checks together -/

theorem labels_nodup_iff : d.labels.Nodup ↔ LabelsDiffer d.code := nodup_filterMap_label?_iff

/-- What the checks of code ask, apart from the declared temporaries. -/
theorem sound_iff :
    d.Sound ↔ ¬d.FlagsConflict ∧ LabelsDiffer d.code ∧ ∀ i ∈ d.code, d.Passes i := by
  have hlabels : firstRepeated? [] d.labels = none ↔ LabelsDiffer d.code := by
    rw [firstRepeated?_eq_none_iff, ← labels_nodup_iff]
    simp
  constructor
  · rintro ⟨hf, hl, hc⟩
    exact ⟨by simp [flagsConflict_iff, hf], hlabels.1 hl,
      fun i hi => checkInstr_eq_ok_iff_passes.1 (hc i hi)⟩
  · rintro ⟨hf, hl, hc⟩
    exact ⟨by simpa [flagsConflict_iff] using hf, hlabels.2 hl,
      fun i hi => checkInstr_eq_ok_iff_passes.2 (hc i hi)⟩

/-- The first label that stands a second time, among labels and among instructions. -/
theorem firstRepeated?_labels_eq_some_iff {l : Label} :
    firstRepeated? [] d.labels = some l ↔ ∃ before after, d.code = before ++ .label l :: after ∧
      LabelsDiffer before ∧ .label l ∈ before := by
  rw [firstRepeated?_eq_some_iff, labels]
  constructor
  · rintro ⟨ls, ls', hsplit, hnodup, -, hl⟩
    obtain ⟨before, rest, hcode, rfl, hrest⟩ := List.filterMap_eq_append_iff.1 hsplit
    obtain ⟨between, i, after, rfl, hnone, hi, rfl⟩ := List.filterMap_eq_cons_iff.1 hrest
    obtain rfl := InstrOf.label?_eq_some_iff.1 hi
    have hbetween : between.filterMap InstrOf.label? = [] := List.filterMap_eq_nil_iff.2 hnone
    refine ⟨before ++ between, after, by rw [hcode, List.append_assoc], ?_, ?_⟩
    · rw [← nodup_filterMap_label?_iff, List.filterMap_append, hbetween, List.append_nil]
      exact hnodup
    · exact List.mem_append_left _ (mem_filterMap_label?_iff.1 (hl.resolve_right (by simp)))
  · rintro ⟨before, after, hcode, hdiffer, hl⟩
    refine ⟨before.filterMap InstrOf.label?, after.filterMap InstrOf.label?, ?_,
      nodup_filterMap_label?_iff.2 hdiffer, by simp, .inl (mem_filterMap_label?_iff.2 hl)⟩
    rw [hcode, List.filterMap_append]
    rfl

theorem check_eq_error_iff {e : BuildError} :
    d.check = .error e ↔
      (d.FlagsConflict ∧ e = .conflictingScopeFlags) ∨
      (¬d.FlagsConflict ∧ ∃ before l after, d.code = before ++ .label l :: after ∧
        LabelsDiffer before ∧ .label l ∈ before ∧ e = .duplicateLabel l) ∨
      (¬d.FlagsConflict ∧ LabelsDiffer d.code ∧ ∃ before i after, d.code = before ++ i :: after ∧
        (∀ j ∈ before, d.Passes j) ∧ d.Rejects i e) := by
  rw [check]
  by_cases hf : d.FlagsConflict
  · rw [if_pos (flagsConflict_iff.1 hf)]
    simp [hf, throw, throwThe, MonadExceptOf.throw, bind, Except.bind, eq_comm]
  · rw [if_neg (flagsConflict_iff.not.1 hf)]
    cases hl : firstRepeated? [] d.labels with
    | some l =>
      have hnot : ¬LabelsDiffer d.code := fun h => by
        rw [firstRepeated?_eq_none_iff.2 ⟨labels_nodup_iff.2 h, by simp⟩] at hl
        cases hl
      simp only [hf, hnot, false_and, false_or, not_false_eq_true, true_and, or_false, throw,
        throwThe, MonadExceptOf.throw, Except.error.injEq]
      constructor
      · rintro rfl
        obtain ⟨before, after, h⟩ := firstRepeated?_labels_eq_some_iff.1 hl
        exact ⟨before, l, after, h.1, h.2.1, h.2.2, rfl⟩
      · rintro ⟨before, k, after, hcode, hdiffer, hk, rfl⟩
        rw [firstRepeated?_labels_eq_some_iff.2 ⟨before, after, hcode, hdiffer, hk⟩] at hl
        cases hl
        rfl
    | none =>
      have hdiffer : LabelsDiffer d.code :=
        labels_nodup_iff.1 (firstRepeated?_eq_none_iff.1 hl).1
      have hnone : ¬∃ before l after, d.code = before ++ .label l :: after ∧
          LabelsDiffer before ∧ .label l ∈ before ∧ e = .duplicateLabel l := by
        rintro ⟨before, l, after, hcode, hbefore, hmem, -⟩
        rw [firstRepeated?_labels_eq_some_iff.2 ⟨before, after, hcode, hbefore, hmem⟩] at hl
        cases hl
      simp only [hf, hdiffer, hnone, false_and, false_or, not_false_eq_true, true_and, and_false,
        ← checkInstr_eq_ok_iff_passes, ← checkInstr_eq_error_iff]
      exact forM_eq_error_iff

/-! ### Counts of temporaries -/

theorem mem_marks_iff {k : TempKind} {n : Nat} :
    n ∈ d.marks k ↔ n = d.allocated.get k ∨
      ∃ t, .temp t ∈ d.code.flatMap InstrOf.usedVariables ∧ t.kind = k ∧ n = t.index + 1 := by
  simp only [marks, Set.mem_ofPred_eq, List.mem_flatMap, InstrOf.mem_usedVariables_iff]
  refine or_congr_right ⟨?_, ?_⟩
  · rintro ⟨i, hi, t, hk, ht, hn⟩
    exact ⟨t, ⟨i, hi, ht⟩, hk, hn⟩
  · rintro ⟨t, ⟨i, hi, ht⟩, hk, hn⟩
    exact ⟨i, hi, t, hk, ht, hn⟩

theorem usedTemps_le_iff {k : TempKind} {n : Nat} :
    d.usedTemps.get k ≤ n ↔ ∀ m ∈ d.marks k, m ≤ n := by
  refine Iff.trans get_foldl_cover_le_iff ?_
  simp only [mem_marks_iff]
  constructor
  · rintro ⟨ha, ht⟩ m (rfl | ⟨t, hin, hk, rfl⟩)
    · exact ha
    · exact ht t hin hk
  · exact fun h => ⟨h _ (.inl rfl), fun t hin hk => h _ (.inr ⟨t, hin, hk, rfl⟩)⟩

/-- The counts derived from use are the greatest marks. -/
theorem isGreatest_usedTemps (k : TempKind) : IsGreatest (d.marks k) (d.usedTemps.get k) := by
  have hle := usedTemps_le_iff.1 (Nat.le_refl (d.usedTemps.get k))
  refine ⟨?_, hle⟩
  by_contra hnot
  have hlt : ∀ m ∈ d.marks k, m < d.usedTemps.get k := fun m hm =>
    Nat.lt_of_le_of_ne (hle m hm) fun h => hnot (h ▸ hm)
  have hpos : d.allocated.get k < d.usedTemps.get k := hlt _ (mem_marks_iff.2 (.inl rfl))
  have hpred : d.usedTemps.get k ≤ d.usedTemps.get k - 1 :=
    usedTemps_le_iff.2 fun m hm => Nat.le_sub_one_of_lt (hlt m hm)
  omega

theorem temps_eq_ok_iff {temps : TempCounts} :
    d.temps = .ok temps ↔
      (d.declared? = none ∧ temps = d.usedTemps) ∨
      (d.declared? = some temps ∧ ∀ k, ∀ n ∈ d.marks k, n ≤ temps.get k) := by
  rw [Draft.temps]
  cases hd : d.declared? with
  | none => simp [eq_comm]
  | some declared =>
    simp only [reduceCtorEq, false_and, false_or, Option.some.injEq]
    split
    · next hfind =>
      have hroom : ∀ k, ∀ n ∈ d.marks k, n ≤ declared.get k := fun k => by
        rw [← usedTemps_le_iff]
        simpa using List.find?_eq_none.1 hfind k k.mem_all
      simp only [Except.ok.injEq]
      exact ⟨fun h => ⟨h, h ▸ hroom⟩, fun h => h.1⟩
    · next k hfind =>
      refine ⟨by rintro ⟨⟩, ?_⟩
      rintro ⟨rfl, hroom⟩
      have := List.find?_some hfind
      rw [decide_eq_true_eq, ← Nat.not_le, usedTemps_le_iff] at this
      exact absurd (hroom k) this

theorem temps_eq_error_iff {e : BuildError} :
    d.temps = .error e ↔ ∃ declared before k after n, d.declared? = some declared ∧
      TempKind.all = before ++ k :: after ∧
      (∀ j ∈ before, ∀ m ∈ d.marks j, m ≤ declared.get j) ∧ IsGreatest (d.marks k) n ∧
      declared.get k < n ∧ .tempOutOfRange ⟨k, (n - 1) % Temp.indexRange⟩ (declared.get k) = e := by
  have hshort : ∀ (declared : TempCounts) (k : TempKind),
      TempKind.all.find? (fun k => declared.get k < d.usedTemps.get k) = some k ↔
        ∃ before after, TempKind.all = before ++ k :: after ∧
          (∀ j ∈ before, ∀ m ∈ d.marks j, m ≤ declared.get j) ∧
          declared.get k < d.usedTemps.get k := by
    intro declared k
    rw [List.find?_eq_some_iff_append]
    simp only [decide_eq_true_eq, Bool.not_eq_true', decide_eq_false_iff_not, Nat.not_lt,
      usedTemps_le_iff]
    constructor
    · rintro ⟨hk, before, after, hall, hbefore⟩
      exact ⟨before, after, hall, hbefore, hk⟩
    · rintro ⟨before, after, hall, hbefore, hk⟩
      exact ⟨hk, before, after, hall, hbefore⟩
  rw [Draft.temps]
  cases hd : d.declared? with
  | none => simp
  | some declared =>
    simp only [Option.some.injEq]
    constructor
    · intro h
      split at h
      · cases h
      · next k hfind =>
        obtain ⟨before, after, hall, hbefore, hk⟩ := (hshort declared k).1 hfind
        exact ⟨declared, before, k, after, _, rfl, hall, hbefore, isGreatest_usedTemps k, hk,
          Except.error.inj h⟩
    · rintro ⟨declared, before, k, after, n, rfl, hall, hbefore, hn, hk, rfl⟩
      obtain rfl := hn.unique (isGreatest_usedTemps k)
      simp only [(hshort declared k).2 ⟨before, after, hall, hbefore, hk⟩]

/-! ### The body -/

theorem labelIndex?_body_eq_some_iff {id : Nat} {temps : TempCounts} (h : LabelsDiffer d.code)
    {l : Label} {n : Nat} :
    (d.body id temps).labelIndex? l = some n ↔ d.code[n]? = some (.label l) := by
  rw [Body.labelIndex?, List.findIdx?_eq_some_iff_getElem]
  simp only [body, beq_iff_eq, InstrOf.label?_eq_some_iff, List.getElem?_eq_some_iff]
  constructor
  · rintro ⟨hn, hl, -⟩
    exact ⟨hn, hl⟩
  · rintro ⟨hn, hl⟩
    refine ⟨hn, hl, fun m hm hml => ?_⟩
    exact List.pairwise_iff_getElem.1 h m n (Nat.lt_trans hm hn) hn hm l hml hl

/-- Where a label stands or may be jumped to, its number is below the next label, and no lower. -/
theorem isLeast_nextLabel_body {id : Nat} {temps : TempCounts} (hcode : ∀ i ∈ d.code, d.Passes i)
    (hroom : d.RoomAbove) :
    IsLeast {n | ∀ i ∈ d.code, ∀ l, i = .label l ∨ i.JumpsTo l → l.number.toNat < n}
      (d.body id temps).nextLabel := by
  have hle : ∀ {n}, (d.body id temps).nextLabel ≤ n ↔
      ∀ l ∈ d.labels, l.number.toNat < n :=
    Body.nextLabel_le_iff_lt (b := d.body id temps) fun l hl => hroom l (mem_labels_iff.1 hl)
  constructor
  · intro i hi l hl
    refine hle.1 (Nat.le_refl _) l (mem_labels_iff.2 ?_)
    rcases hl with rfl | hl
    · exact hi
    · exact (hcode i hi).target l hl
  · exact fun n hn => hle.2 fun l hl => hn _ (mem_labels_iff.1 hl) l (.inl rfl)

theorem describes_of_build {id : Nat} {b : Body} (hb : d.build id = .ok b) :
    d.Describes id b := by
  obtain ⟨hsound, temps, htemps, rfl⟩ := build_eq_ok_iff.1 hb
  obtain ⟨-, hdiffer, hcode⟩ := sound_iff.1 hsound
  refine ⟨rfl, fun declared hd => ?_, fun hd k => ?_, fun l n => ?_, isLeast_nextLabel_body hcode⟩
  · rcases temps_eq_ok_iff.1 htemps with ⟨hnone, -⟩ | ⟨hsome, -⟩
    · rw [hd] at hnone
      cases hnone
    · exact Option.some.inj (hsome.symm.trans hd)
  · rcases temps_eq_ok_iff.1 htemps with ⟨-, rfl⟩ | ⟨hsome, -⟩
    · exact isGreatest_usedTemps k
    · rw [hd] at hsome
      cases hsome
  · exact labelIndex?_body_eq_some_iff hdiffer

theorem wellFormed_iff : d.WellFormed ↔ d.Sound ∧ ∃ temps, d.temps = .ok temps := by
  simp only [sound_iff, temps_eq_ok_iff]
  constructor
  · rintro ⟨hflags, hlabels, hcode, htemps⟩
    refine ⟨⟨hflags, hlabels, hcode⟩, ?_⟩
    cases hd : d.declared? with
    | none => exact ⟨_, .inl ⟨rfl, rfl⟩⟩
    | some declared => exact ⟨declared, .inr ⟨rfl, htemps declared hd⟩⟩
  · rintro ⟨⟨hflags, hlabels, hcode⟩, temps, htemps⟩
    refine ⟨hflags, hlabels, hcode, fun declared hd => ?_⟩
    rcases htemps with ⟨hnone, -⟩ | ⟨hsome, hroom⟩
    · rw [hd] at hnone
      cases hnone
    · rw [hd] at hsome
      cases hsome
      exact hroom

theorem violates_iff {e : BuildError} :
    d.Violates e ↔ d.check = .error e ∨ d.Sound ∧ d.temps = .error e := by
  rw [check_eq_error_iff, sound_iff, temps_eq_error_iff]
  constructor
  · intro h
    cases h with
    | flags hf => exact .inl (.inl ⟨hf, rfl⟩)
    | label hf hcode hbefore hl => exact .inl (.inr (.inl ⟨hf, _, _, _, hcode, hbefore, hl, rfl⟩))
    | code hf hlabels hcode hbefore hi =>
      exact .inl (.inr (.inr ⟨hf, hlabels, _, _, _, hcode, hbefore, hi⟩))
    | temps hf hlabels hcode hd hall hbefore hn hk =>
      exact .inr ⟨⟨hf, hlabels, hcode⟩, _, _, _, _, _, hd, hall, hbefore, hn, hk, rfl⟩
  · rintro ((⟨hf, rfl⟩ | ⟨hf, before, l, after, hcode, hbefore, hl, rfl⟩ |
      ⟨hf, hlabels, before, i, after, hcode, hbefore, hi⟩) |
      ⟨⟨hf, hlabels, hcode⟩, declared, before, k, after, n, hd, hall, hbefore, hn, hk, rfl⟩)
    · exact .flags hf
    · exact .label hf hcode hbefore hl
    · exact .code hf hlabels hcode hbefore hi
    · exact .temps hf hlabels hcode hd hall hbefore hn hk

/-- A loop that ends when its local is false. -/
def loopDraft : Draft where
  name := "loop"
  scope := .nest ⟨0, .method, ["x"]⟩ none
  code := [.label ⟨0⟩, .branchFalse (.var (.lexical "x" 0 0)) ⟨3⟩,
    .copy (.temp ⟨.fixnum, 1⟩) (.fixnum 2), .jump ⟨0⟩, .label ⟨3⟩, .ret .nil]

/-- The label with the highest number is accepted, and not counted. -/
def lastLabelDraft : Draft where
  name := "last"
  scope := .nest ⟨0, .method, []⟩ none
  code := [.label ⟨4294967295⟩, .label ⟨3⟩]

example : (lastLabelDraft.build 0).map Body.nextLabel = .ok 4 := by rfl

end Draft

end ObjectIr
