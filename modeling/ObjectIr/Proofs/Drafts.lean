import ObjectIr.Code.Draft

/-!
# What a body that was built satisfies

A draft is built when its scope flags do not conflict, its labels differ, and every instruction
passes its checks (`Draft.Sound`); the temporaries of the body then hold every one in use
(`Draft.build_eq_ok_iff`, `Draft.holds_of_build`).
-/

namespace ObjectIr

theorem forM_eq_ok_iff {α ε : Type} {f : α → Except ε Unit} {as : List α} :
    as.forM f = .ok () ↔ ∀ a ∈ as, f a = .ok () := by
  induction as with
  | nil => simp [List.forM, pure, Except.pure]
  | cons a as ih =>
    rw [show (a :: as).forM f = f a >>= fun _ => as.forM f from rfl, List.forall_mem_cons, ← ih]
    cases f a with
    | error e => simp [bind, Except.bind]
    | ok u => simp [bind, Except.bind]

theorem forM_eq_error_iff {α ε : Type} {f : α → Except ε Unit} {as : List α} {e : ε} :
    as.forM f = .error e ↔ ∃ before a after, as = before ++ a :: after ∧
      (∀ b ∈ before, f b = .ok ()) ∧ f a = .error e := by
  induction as with
  | nil => simp [List.forM, pure, Except.pure]
  | cons a as ih =>
    rw [show (a :: as).forM f = f a >>= fun _ => as.forM f from rfl]
    cases ha : f a with
    | error e' =>
      constructor
      · intro h
        exact ⟨[], a, as, rfl, by simp, ha.trans h⟩
      · rintro ⟨before, b, after, has, hbefore, hb⟩
        cases before with
        | nil => cases has; exact ha.symm.trans hb
        | cons c before =>
          cases has
          rw [hbefore a List.mem_cons_self] at ha
          cases ha
    | ok u =>
      refine Iff.trans ih ⟨?_, ?_⟩
      · rintro ⟨before, b, after, rfl, hbefore, hb⟩
        exact ⟨a :: before, b, after, rfl, List.forall_mem_cons.2 ⟨ha, hbefore⟩, hb⟩
      · rintro ⟨before, b, after, has, hbefore, hb⟩
        cases before with
        | nil =>
          cases has
          rw [ha] at hb
          cases hb
        | cons c before =>
          cases has
          exact ⟨before, b, after, rfl, (List.forall_mem_cons.1 hbefore).2, hb⟩

theorem firstRepeated?_eq_none_iff {α : Type} [DecidableEq α] {seen as : List α} :
    firstRepeated? seen as = none ↔ as.Nodup ∧ ∀ a ∈ as, a ∉ seen := by
  induction as generalizing seen with
  | nil => simp [firstRepeated?]
  | cons a as ih =>
    rw [firstRepeated?]
    split
    · next h => simp [h]
    · next h =>
      rw [ih, List.nodup_cons, List.forall_mem_cons]
      simp only [List.mem_cons, not_or]
      constructor
      · rintro ⟨hnodup, hseen⟩
        exact ⟨⟨fun ha => (hseen a ha).1 rfl, hnodup⟩, h, fun x hx => (hseen x hx).2⟩
      · rintro ⟨⟨ha, hnodup⟩, -, hseen⟩
        exact ⟨hnodup, fun x hx => ⟨fun hxa => ha (hxa ▸ hx), hseen x hx⟩⟩

theorem firstRepeated?_eq_some_iff {α : Type} [DecidableEq α] {seen as : List α} {a : α} :
    firstRepeated? seen as = some a ↔ ∃ before after, as = before ++ a :: after ∧
      before.Nodup ∧ (∀ b ∈ before, b ∉ seen) ∧ (a ∈ before ∨ a ∈ seen) := by
  induction as generalizing seen with
  | nil => simp [firstRepeated?]
  | cons b as ih =>
    rw [firstRepeated?]
    split
    · next hb =>
      rw [Option.some.injEq]
      constructor
      · rintro rfl
        exact ⟨[], as, rfl, List.nodup_nil, by simp, .inr hb⟩
      · rintro ⟨before, after, has, -, hseen, -⟩
        cases before with
        | nil => exact (List.cons.inj has).1
        | cons c before =>
          cases has
          exact absurd hb (hseen b List.mem_cons_self)
    · next hb =>
      rw [ih]
      constructor
      · rintro ⟨before, after, rfl, hnodup, hseen, ha⟩
        refine ⟨b :: before, after, rfl, List.nodup_cons.2 ⟨?_, hnodup⟩, ?_, ?_⟩
        · exact fun hmem => hseen b hmem List.mem_cons_self
        · exact List.forall_mem_cons.2 ⟨hb, fun c hc h => hseen c hc (List.mem_cons_of_mem _ h)⟩
        · grind
      · rintro ⟨before, after, has, hnodup, hseen, ha⟩
        cases before with
        | nil =>
          cases has
          exact absurd (ha.resolve_left (by simp)) hb
        | cons c before =>
          cases has
          refine ⟨before, after, rfl, (List.nodup_cons.1 hnodup).2, fun c hc h => ?_, by grind⟩
          rcases List.mem_cons.1 h with rfl | h
          · exact (List.nodup_cons.1 hnodup).1 hc
          · exact hseen c (List.mem_cons_of_mem _ hc) h

namespace Body

/-- The next label is the least bound on what follows on the labels of the body. -/
theorem nextLabel_le_iff {b : Body} {n : Nat} :
    b.nextLabel ≤ n ↔ ∀ l ∈ b.code.filterMap InstrOf.label?, l.next.number.toNat ≤ n := by
  have hfold : ∀ (ls : List Label) (m : Nat),
      ls.foldl (fun m l => max m l.next.number.toNat) m ≤ n ↔
        m ≤ n ∧ ∀ l ∈ ls, l.next.number.toNat ≤ n := by
    intro ls
    induction ls with
    | nil => simp
    | cons k ls ih =>
      intro m
      rw [List.foldl_cons, ih, Nat.max_le, List.forall_mem_cons, and_assoc]
  rw [nextLabel, hfold, and_iff_right (Nat.zero_le n)]

/-- Below the highest number, the next label is the least number above all labels of the body. -/
theorem nextLabel_le_iff_lt {b : Body}
    (h : ∀ l ∈ b.code.filterMap InstrOf.label?, l.number.toNat + 1 < Label.numberRange) {n : Nat} :
    b.nextLabel ≤ n ↔ ∀ l ∈ b.code.filterMap InstrOf.label?, l.number.toNat < n := by
  rw [nextLabel_le_iff]
  exact forall₂_congr fun l hl => by rw [Label.toNat_next (h l hl), Nat.succ_le_iff]

end Body

namespace Draft

theorem checkTarget_eq_ok_iff {d : Draft} {i : Instr} :
    d.checkTarget i = .ok () ↔ ∀ l, i.target? = some l → l ∈ d.labels := by
  rw [checkTarget]
  cases i.target? with
  | none => simp
  | some l => by_cases hl : l ∈ d.labels <;> simp [hl]

theorem checkInstr_eq_ok_iff {d : Draft} {i : Instr} :
    d.checkInstr i = .ok () ↔ (∀ l, i.target? = some l → l ∈ d.labels) ∧
      ∀ v ∈ i.usedVariables, d.checkVariable v = .ok () := by
  rw [checkInstr, ← checkTarget_eq_ok_iff, ← forM_eq_ok_iff]
  cases d.checkTarget i with
  | error e => simp [bind, Except.bind]
  | ok u => simp [bind, Except.bind]

/-- What `check` asks of a draft. -/
structure Sound (d : Draft) : Prop where
  flags : (d.flags.has .scopeEliminated && d.flags.has .reuseParentScope) = false
  labels : firstRepeated? [] d.labels = none
  code : ∀ i ∈ d.code, d.checkInstr i = .ok ()

theorem check_eq_ok_iff {d : Draft} : d.check = .ok () ↔ d.Sound := by
  rw [check]
  cases hf : d.flags.has .scopeEliminated && d.flags.has .reuseParentScope with
  | true => exact ⟨by rintro ⟨⟩, fun h => by rw [h.flags] at hf; cases hf⟩
  | false =>
    cases hl : firstRepeated? [] d.labels with
    | some l => exact ⟨by rintro ⟨⟩, fun h => by rw [h.labels] at hl; cases hl⟩
    | none =>
      refine ⟨fun h => ⟨hf, hl, forM_eq_ok_iff.1 h⟩, fun h => ?_⟩
      exact forM_eq_ok_iff.2 h.code

def body (d : Draft) (id : Nat) (temps : TempCounts) : Body :=
  { id, name := d.name, file := d.file, scope := d.scope, flags := d.flags
    requiredArgs := d.requiredArgs, temps, code := d.code }

theorem build_eq_ok_iff {d : Draft} {id : Nat} {b : Body} :
    d.build id = .ok b ↔ d.Sound ∧ ∃ temps, d.temps = .ok temps ∧ b = d.body id temps := by
  rw [← check_eq_ok_iff, build]
  cases hc : d.check with
  | error e => simp [bind, Except.bind]
  | ok u =>
    cases ht : d.temps with
    | error e => simp [bind, Except.bind]
    | ok temps =>
      simp only [bind, Except.bind, pure, Except.pure, Except.ok.injEq, true_and,
        exists_eq_left']
      exact eq_comm

theorem build_eq_error_iff {d : Draft} {id : Nat} {e : BuildError} :
    d.build id = .error e ↔ d.check = .error e ∨ d.Sound ∧ d.temps = .error e := by
  rw [← check_eq_ok_iff, build]
  cases d.check with
  | error e' => simp [bind, Except.bind]
  | ok u => cases d.temps <;> simp [bind, Except.bind, pure, Except.pure]

/-! ### Temporaries -/

/-- Counts grown over some variables are the least with room for their temporaries. -/
theorem get_foldl_cover_le_iff {vs : List Variable} {c : TempCounts} {k : TempKind} {n : Nat} :
    (vs.foldl (fun counts v => match v with
      | .temp t => counts.cover t
      | .lexical .. => counts) c).get k ≤ n ↔
      c.get k ≤ n ∧ ∀ t, .temp t ∈ vs → t.kind = k → t.index < n := by
  induction vs generalizing c with
  | nil => simp
  | cons v vs ih =>
    rw [List.foldl_cons, ih]
    cases v with
    | lexical name depth offset => simp
    | temp u =>
      simp only [TempCounts.cover, TempCounts.get_set, List.mem_cons, Variable.temp.injEq,
        forall_eq_or_imp, ← and_assoc]
      refine and_congr_left fun _ => ?_
      split
      · next hk =>
        subst hk
        simp only [forall_const]
        omega
      · next hk => simp [hk]

theorem holds_foldl_cover (vs : List Variable) (c : TempCounts) :
    let counts := vs.foldl (fun counts v => match v with
      | .temp t => counts.cover t
      | .lexical .. => counts) c
    (∀ k, c.get k ≤ counts.get k) ∧ ∀ t, .temp t ∈ vs → counts.holds t = true :=
  ⟨fun _ => (get_foldl_cover_le_iff.1 (Nat.le_refl _)).1, fun t ht =>
    decide_eq_true ((get_foldl_cover_le_iff.1 (Nat.le_refl _)).2 t ht rfl)⟩

/-- A built body has every temporary that its instructions use. -/
theorem holds_of_build {d : Draft} {id : Nat} {b : Body} (hb : d.build id = .ok b) {i : Instr}
    (hi : i ∈ b.code) {t : Temp} (ht : .temp t ∈ i.usedVariables) : b.temps.holds t = true := by
  obtain ⟨-, temps, htemps, rfl⟩ := build_eq_ok_iff.1 hb
  have hused : d.usedTemps.holds t = true :=
    (holds_foldl_cover _ d.allocated).2 t (List.mem_flatMap.2 ⟨i, hi, ht⟩)
  rw [Draft.temps] at htemps
  split at htemps
  · cases htemps
    exact hused
  · next declared hd =>
    split at htemps
    · next hfind =>
      cases htemps
      have hk := List.find?_eq_none.1 hfind t.kind t.kind.mem_all
      simp only [TempCounts.holds, decide_eq_true_eq, Nat.not_lt] at hused hk ⊢
      exact Nat.lt_of_lt_of_le hused hk
    · cases htemps

end Draft

end ObjectIr
