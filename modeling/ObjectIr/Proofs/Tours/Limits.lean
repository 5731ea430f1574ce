import ObjectIr.Demo.Tour
import ObjectIr.Proofs.DepthLimit
import ObjectIr.Proofs.UsedTemporaries

/-!
# Programs under two limits of depth

A program that shows something runs one machine after the other, and prints between the runs. Under
the lower of two limits a run does the same as under the higher one, or it overflows, and then it is
over no later (`Machine.run_of_le`). So a program that asks for the outcome of each run does the
same under both limits, until it fails for an overflow (`Show.Steady`). What was printed by then is
printed under the higher limit, too, because nothing is ever taken back.
-/

namespace ObjectIr

variable {limit limit' : Nat}

namespace Machine

/-! ### Runs -/

/-- The machine is on its way out of a refused call, and the other one has no shorter way to go. -/
structure Outlasted (m m' : Machine) : Prop where
  overflown : m.control.Overflown
  busy : m.result? = none → m'.result? = none ∧ m.callers.length < m'.callers.length

/-- With callers, a machine goes on for at least as many steps. -/
theorem step_busy (limit : Nat) {m : Machine} (hm : m.result? = none) (hcallers : m.callers ≠ []) :
    (m.step limit).result? = none ∧ m.callers.length ≤ (m.step limit).callers.length + 1 := by
  refine ⟨step_result? (fun h => hcallers h.2) hm, ?_⟩
  have hgoes : ∀ {s : Site} {cs : List Caller} {u : Machine}, GoesOn s cs u → u.callers = cs := by
    intro s cs u hu
    obtain ⟨_, -, -, -, hcs, -⟩ := hu.active
    exact hcs
  obtain ⟨heap, context, control, callers⟩ := m
  cases control with
  | finished r => cases hm
  | running a =>
    obtain ⟨pc, ⟨-, h⟩ | ⟨inv, t, callee, r, -, -, -, h⟩⟩ :=
      step_running limit (m := ⟨heap, context, .running a, callers⟩) rfl
    · rw [hgoes h]
      exact Nat.le_succ _
    · rw [h]
      exact Nat.le_succ_of_le (Nat.le_succ _)
  | leaving a r =>
    rcases resume_cases heap (leave a.body context) (a.settle r) callers with
      ⟨hnil, -⟩ | ⟨caller, cs, hcs, h⟩
    · exact absurd hnil hcallers
    · have hstep : (step limit ⟨heap, context, .leaving a r, callers⟩).callers = cs := hgoes h
      rw [hstep]
      simp only [hcs, List.length_cons, Nat.le_refl]

theorem Outlasted.step {m m' : Machine} (h : m.Outlasted m') :
    (m.step limit).Outlasted (m'.step limit') where
  overflown := step_overflown h.overflown
  busy hstep := by
    obtain ⟨heap, context, control, callers⟩ := m
    cases control with
    | running a => cases h.overflown
    | finished o => cases hstep
    | leaving a r =>
      obtain ⟨hbusy, hless⟩ := h.busy rfl
      have hne : m'.callers ≠ [] := by
        intro hnil
        rw [hnil] at hless
        exact absurd hless (Nat.not_lt_zero _)
      obtain ⟨hresult, hlength⟩ := step_busy limit' hbusy hne
      cases callers with
      | nil =>
        have hr : r = .error (.failure .stackOverflow) := h.overflown
        subst hr
        cases hstep
      | cons caller callers =>
        have hcallers : (Machine.step limit
            ⟨heap, context, .leaving a r, caller :: callers⟩).callers = callers :=
          resume_callers _ _ _ caller callers
        rw [hcallers]
        simp only [List.length_cons] at hless
        exact ⟨hresult, by omega⟩

theorem follow_outlasted (hle : limit ≤ limit') (cs : List Caller)
    (r : EStateM.Result Failure Site Outcome) :
    follow limit cs r = follow limit' cs r ∨
      (follow limit cs r).Outlasted (follow limit' cs r) := by
  rcases r with ⟨o, t⟩ | ⟨f, t⟩
  · cases o with
    | call result i =>
      simp only [follow]
      cases ht : enter limit t.heap t.context i with
      | ok callee =>
        have hlt := frameDepth_lt_of_enter ht
        rw [enter_of_lt i hlt (Nat.lt_of_lt_of_le hlt hle)] at ht
        rw [ht]
        exact .inl rfl
      | error f =>
        rw [enter_eq_error ht]
        cases ht' : enter limit' t.heap t.context i with
        | ok callee => exact .inr ⟨rfl, fun _ => ⟨rfl, Nat.lt_succ_self _⟩⟩
        | error f' =>
          rw [enter_eq_error ht']
          exact .inl rfl
    | _ => exact .inl rfl
  · exact .inl rfl

theorem step_outlasted (hle : limit ≤ limit') (m : Machine) :
    m.step limit = m.step limit' ∨ (m.step limit).Outlasted (m.step limit') := by
  cases hnext : m.next? with
  | some p =>
    rw [step_of_next hnext, step_of_next hnext]
    exact follow_outlasted hle _ _
  | none =>
    obtain ⟨heap, context, control, callers⟩ := m
    cases control with
    | running a =>
      have hcode : a.body.code[a.pc]? = none := Option.map_eq_none_iff.1 hnext
      simp only [step, hcode, true_or]
    | _ => exact .inl rfl

theorem after_outlasted (hle : limit ≤ limit') {m m' : Machine} (hm : m = m' ∨ m.Outlasted m')
    (n : Nat) :
    m.after limit n = m'.after limit' n ∨ (m.after limit n).Outlasted (m'.after limit' n) := by
  induction n with
  | zero => exact hm
  | succ n ih =>
    rw [after_succ, after_succ]
    rcases ih with ih | ih
    · rw [ih]
      exact step_outlasted hle _
    · exact .inr ih.step

/-- Under the lower limit a run comes to the same within the same fuel, or it overflows. -/
theorem run_of_le (hle : limit ≤ limit') {m m' : Machine} (hm : m = m' ∨ m.Outlasted m')
    (fuel : Nat) : m.run limit fuel = m'.run limit' fuel ∨
      ∃ r, m.run limit fuel = some r ∧ r.outcome = .error .stackOverflow := by
  rw [run_eq_after, run_eq_after]
  rcases after_outlasted hle hm fuel with hsame | hover
  · exact .inl (by rw [hsame])
  · cases hr : (m.after limit fuel).result? with
    | none => exact .inl (hover.busy hr).1.symm
    | some r =>
      have hoverflown := hover.overflown
      rw [(control_of_result hr).1] at hoverflown
      exact .inr ⟨r, rfl, hoverflown⟩

end Machine

theorem Entry.start_outlasted (hle : limit ≤ limit') (h : Heap) (c : Context) (e : Entry) :
    e.start limit h c = e.start limit' h c ∨
      (e.start limit h c).Outlasted (e.start limit' h c) := by
  rw [start_eq, start_eq]
  rcases e.reply h c with f | ⟨v | i, k⟩
  · exact .inl rfl
  · exact .inl rfl
  · simp only [Machine.awaiting, Machine.start]
    cases hs : enter limit k c i with
    | ok s =>
      have hlt := frameDepth_lt_of_enter hs
      rw [enter_of_lt i hlt (Nat.lt_of_lt_of_le hlt hle)] at hs
      rw [hs]
      exact .inl rfl
    | error f =>
      rw [enter_eq_error hs]
      exact .inr ⟨rfl, by rintro ⟨⟩⟩

/-! ### Programs that show something -/

namespace Demo

variable {α β : Type}

/-- The stage that a program leaves, whether it fails or not. -/
def stageOf : EStateM.Result Trouble Stage α → Stage
  | .ok _ stage | .error _ stage => stage

/-- An end under the lower limit: it is the same, or an overflow with no more printed. -/
inductive Cuts : EStateM.Result Trouble Stage α → EStateM.Result Trouble Stage α → Prop
  | same (r : EStateM.Result Trouble Stage α) : Cuts r r
  | overflow {stage : Stage} {r : EStateM.Result Trouble Stage α}
    (h : stage.printed <+: (stageOf r).printed) :
    Cuts (.error (.failure .stackOverflow) stage) r

namespace Show

/-- A program prints behind what was printed, and does not ask for the number of threads. -/
structure Plain (x : Show α) : Prop where
  prints : ∀ settings stage, stage.printed <+: (stageOf (x settings stage)).printed
  threads : ∀ settings threads stage, x { settings with threads } stage = x settings stage

/-- Under the lower of two limits the program does the same, until it fails for an overflow. -/
structure Steady (x : Show α) : Prop extends Plain x where
  cuts : ∀ (settings : Settings) (limit : Nat), settings.limit ≤ limit → ∀ stage,
    Cuts (x settings stage) (x { settings with limit } stage)

section Bind

variable {x : Show α} {f : α → Show β}

theorem bind_of_ok {settings : Settings} {stage stage' : Stage} {a : α}
    (h : x settings stage = .ok a stage') : (x >>= f) settings stage = f a settings stage' := by
  simp only [bind, ReaderT.bind, EStateM.bind, h]

theorem bind_of_error {settings : Settings} {stage stage' : Stage} {t : Trouble}
    (h : x settings stage = .error t stage') : (x >>= f) settings stage = .error t stage' := by
  simp only [bind, ReaderT.bind, EStateM.bind, h]

theorem Plain.bind (hx : Plain x) (hf : ∀ a, Plain (f a)) : Plain (x >>= f) where
  prints settings stage := by
    have hprints := hx.prints settings stage
    cases h : x settings stage with
    | error t stage' =>
      rw [bind_of_error h]
      rwa [h] at hprints
    | ok a stage' =>
      rw [bind_of_ok h]
      rw [h] at hprints
      exact hprints.trans ((hf a).prints settings stage')
  threads settings threads stage := by
    have hsame := hx.threads settings threads stage
    cases h : x settings stage with
    | error t stage' => rw [bind_of_error h, bind_of_error (hsame.trans h)]
    | ok a stage' => rw [bind_of_ok h, bind_of_ok (hsame.trans h), (hf a).threads]

/-- What follows a program has to be compared on the stages only that the program leaves. -/
theorem cuts_bind {settings : Settings} {limit : Nat} {stage : Stage}
    (hx : Cuts (x settings stage) (x { settings with limit } stage)) (hplain : ∀ a, Plain (f a))
    (hf : ∀ a stage', x settings stage = .ok a stage' →
      Cuts (f a settings stage') (f a { settings with limit } stage')) :
    Cuts ((x >>= f) settings stage) ((x >>= f) { settings with limit } stage) := by
  generalize hr : x settings stage = r at hx
  generalize hr' : x { settings with limit } stage = r' at hx
  cases hx with
  | same =>
    cases r with
    | error t stage' =>
      rw [bind_of_error hr, bind_of_error hr']
      exact .same _
    | ok a stage' =>
      rw [bind_of_ok hr, bind_of_ok hr']
      exact hf a stage' hr
  | overflow h =>
    rw [bind_of_error hr]
    cases r' with
    | error t stage' =>
      rw [bind_of_error hr']
      exact .overflow h
    | ok a stage' =>
      rw [bind_of_ok hr']
      exact .overflow (h.trans ((hplain a).prints _ stage'))

theorem Steady.bind (hx : Steady x) (hf : ∀ a, Steady (f a)) : Steady (x >>= f) where
  toPlain := hx.toPlain.bind fun a => (hf a).toPlain
  cuts settings limit hle stage := cuts_bind (hx.cuts settings limit hle stage)
    (fun a => (hf a).toPlain) fun a stage' _ => (hf a).cuts settings limit hle stage'

end Bind

/-- What does not look at the settings, and only prints, is steady. -/
theorem Steady.of_const {x : EStateM Trouble Stage α}
    (hx : ∀ stage, stage.printed <+: (stageOf (x stage)).printed) : Steady fun _ => x where
  prints _ := hx
  threads _ _ _ := rfl
  cuts _ _ _ stage := .same (x stage)

theorem Steady.pure (a : α) : Steady (pure a : Show α) := .of_const fun _ => List.prefix_rfl

theorem Steady.throw (t : Trouble) : Steady (throw t : Show α) := .of_const fun _ => List.prefix_rfl

theorem Steady.print (s : String) : Steady (print s) := .of_const fun _ => List.prefix_append _ _

theorem Steady.line (s : String) : Steady (line s) := .print _

theorem Steady.built (e : Except BuildError α) : Steady (built e) := by
  cases e with
  | ok a => exact .pure a
  | error e => exact .throw _

theorem Steady.forM (bs : List Body) {f : Body → Show Unit} (hf : ∀ b, Steady (f b)) :
    Steady (bs.forM f) := by
  induction bs with
  | nil => exact .pure ()
  | cons b bs ih => exact (hf b).bind fun _ => ih

/-- What looks at the one setting that is not at issue here is as steady as its branches. -/
theorem Steady.ofDump {f : Bool → Show α} (hf : ∀ dump, Steady (f dump)) :
    Steady fun settings => f settings.dump settings where
  prints settings := (hf settings.dump).prints settings
  threads settings := (hf settings.dump).threads settings
  cuts settings := (hf settings.dump).cuts settings

theorem Steady.dump (b : Body) : Steady (dump b) := by
  refine .ofDump (f := fun dump => if dump then (b :: b.nested).forM fun b => Show.print b.listing
    else Pure.pure ()) fun dump => ?_
  cases dump with
  | true => exact .forM _ fun b => .print b.listing
  | false => exact .pure ()

theorem runMachine_eq (start : Nat → Heap → Machine) (settings : Settings) (stage : Stage) :
    runMachine start settings stage =
      match (start settings.limit stage.heap).run settings.limit fuel with
      | none => .error .unfinished stage
      | some r => .ok r { stage with heap := r.heap } := by
  have hread : runMachine start settings stage = (match
      (start settings.limit stage.heap).run settings.limit fuel with
    | none => MonadExcept.throw .unfinished
    | some r => do
      modify fun stage => { stage with heap := r.heap }
      return r : Show Result) settings stage := rfl
  rw [hread]
  cases (start settings.limit stage.heap).run settings.limit fuel <;> rfl

theorem Plain.runMachine (start : Nat → Heap → Machine) : Plain (runMachine start) where
  prints settings stage := by
    rw [runMachine_eq]
    cases (start settings.limit stage.heap).run settings.limit fuel <;> exact List.prefix_rfl
  threads settings threads stage := by rw [runMachine_eq, runMachine_eq]

/-- Under the lower limit the run comes to the same, or it overflows. -/
theorem runMachine_of_le {settings : Settings} {limit : Nat} (hle : settings.limit ≤ limit)
    (e : Entry) (c : Context) (stage : Stage) :
    Show.runMachine (fun limit h => e.start limit h c) settings stage =
        Show.runMachine (fun limit h => e.start limit h c) { settings with limit } stage ∨
      ∃ r, Show.runMachine (fun limit h => e.start limit h c) settings stage =
          .ok r { stage with heap := r.heap } ∧ r.outcome = .error .stackOverflow := by
  rw [runMachine_eq, runMachine_eq]
  rcases Machine.run_of_le hle (e.start_outlasted hle stage.heap c) fuel with hsame | ⟨r, hr, ho⟩
  · exact .inl (by rw [hsame])
  · exact .inr ⟨r, by rw [hr], ho⟩

/-- A program is steady that runs an entry and wants a value from it. -/
theorem Steady.run (e : Entry) (c : Context) {f : Result → Value → Show α}
    (hf : ∀ r v, Steady (f r v)) :
    Steady (Show.runMachine (fun limit h => e.start limit h c) >>= fun r =>
      settled r.outcome >>= fun v => f r v) := by
  have hsettled : ∀ r : Result, Steady (settled r.outcome >>= fun v => f r v) := by
    intro r
    cases r.outcome with
    | ok v => exact (Steady.pure v).bind (hf r)
    | error g => exact (Steady.throw _).bind (hf r)
  have hplain := (Plain.runMachine fun limit h => e.start limit h c).bind fun r =>
    (hsettled r).toPlain
  refine ⟨hplain, fun settings limit hle stage => ?_⟩
  rcases runMachine_of_le hle e c stage with hsame | ⟨r, hrun, ho⟩
  · refine cuts_bind ?_ (fun r => (hsettled r).toPlain) fun r stage' _ =>
      (hsettled r).cuts settings limit hle stage'
    rw [hsame]
    exact .same _
  · rw [bind_of_ok hrun, ho]
    exact .overflow (hplain.prints _ stage)

theorem Steady.runScript (c : Context) (b : Body) : Steady (runScript c b) :=
  (Steady.dump b).bind fun _ => .run (.script b) c fun _ _ => (Steady.line _).bind fun _ => .pure _

theorem Steady.send (c : Context) (receiver : Value) (name : String) :
    Steady (send c receiver name) :=
  .run (.send receiver name []) c fun _ _ => .pure _

end Show

open Show

theorem steady_showReopened (id : Nat) : Steady (showReopened id) := by
  refine (Steady.built _).bind fun shape => (Steady.built _).bind fun square =>
    (Steady.built _).bind fun reopened => (Steady.runScript _ _).bind fun p =>
    (Steady.runScript _ _).bind fun q => (Steady.runScript _ _).bind fun r =>
    (Steady.line _).bind fun _ => ?_
  simp only
  cases r.1.module? with
  | none => exact .throw _
  | some m =>
    exact Steady.bind (.of_const fun _ => List.prefix_rfl) fun object =>
      (Steady.send _ _ _).bind fun p => (Steady.send _ _ _).bind fun q =>
      (Steady.line _).bind fun _ => .pure _

theorem steady_showNonlocalReturn (id : Nat) : Steady (showNonlocalReturn id) :=
  (Steady.built _).bind fun _ => (Steady.runScript _ _).bind fun _ => .pure _

theorem steady_showSingleton (id : Nat) : Steady (showSingleton id) :=
  (Steady.built _).bind fun _ => (Steady.runScript _ _).bind fun _ =>
    (Steady.runScript _ _).bind fun _ => .pure _

end Demo

end ObjectIr
