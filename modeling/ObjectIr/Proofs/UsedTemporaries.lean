import ObjectIr.Proofs.Primitives
import ObjectIr.Proofs.Validation

/-!
# The temporaries that an instruction uses

An instruction reads and sets no temporary but those among its used variables. Two activations that
differ in others only carry it out alike (`execute_agrees`), and in either of them all temporaries
but the result stay (`execute_keepsTemps`). A call is carried out once the activation that it waits
for has left. Until then the machine works above the waiting activation and does not look at it
(`Machine.after_above`), so what holds of one execution holds of the instruction with all that it
calls (`instruction_touches_named_temporaries`).
-/

namespace ObjectIr

/-! ### Activations that differ in temporaries -/

/-- The same activation, but for temporaries that are not among the variables. -/
structure Activation.Agrees (used : List Variable) (a a' : Activation) : Prop where
  rest : a' = { a with temps := a'.temps }
  temps : ∀ t, .temp t ∈ used → a'.temps.get? t = a.temps.get? t

namespace Activation.Agrees

variable {used : List Variable} {a a' : Activation}

theorem setPc (h : a.Agrees used a') (pc : Nat) :
    Activation.Agrees used { a with pc } { a' with pc } where
  rest := by
    rw [h.rest]
  temps := h.temps

end Activation.Agrees

structure Site.Agrees (used : List Variable) (s s' : Site) : Prop where
  heap : s'.heap = s.heap
  context : s'.context = s.context
  activation : s.activation.Agrees used s'.activation

namespace Site.Agrees

variable {used : List Variable} {s s' : Site}

/-- The other site is this one with temporaries of its own. -/
theorem exists_temps (h : s.Agrees used s') :
    ∃ ts, s' = { s with activation := { s.activation with temps := ts } } ∧
      ∀ t, .temp t ∈ used → ts.get? t = s.activation.temps.get? t := by
  obtain ⟨heap, context, activation⟩ := s'
  obtain ⟨rfl, rfl, hrest, htemps⟩ := h
  exact ⟨activation.temps, by rw [← hrest], htemps⟩

theorem of_temps {ts : Temps} (h : ∀ t, .temp t ∈ used → ts.get? t = s.activation.temps.get? t) :
    s.Agrees used { s with activation := { s.activation with temps := ts } } :=
  ⟨rfl, rfl, rfl, h⟩

theorem load_eq (h : s.Agrees used s') {v : Variable} (hv : v ∈ used) : s'.load v = s.load v := by
  obtain ⟨ts, rfl, hts⟩ := h.exists_temps
  cases v with
  | temp t => simp only [load, hts t hv]
  | lexical name depth offset => rfl

/-- Setting a used variable fails alike at both sites, or sets it at both. -/
theorem store (h : s.Agrees used s') {r : Variable} (hr : r ∈ used) (v : Value) :
    Jointly Eq (Site.Agrees used) (s.store r v) (s'.store r v) := by
  obtain ⟨ts, rfl, hts⟩ := h.exists_temps
  cases r with
  | lexical name depth offset =>
    rw [Site.store_lexical, Site.store_lexical]
    cases s.activation.footing.locate? depth with
    | none => exact .error rfl
    | some p =>
      simp only
      cases s.heap.writeLocal p.1 p.2 offset v with
      | error f => exact .error rfl
      | ok k => exact .ok (of_temps (s := { s with heap := k }) hts)
  | temp t =>
    have hsame := hts t hr
    simp only [Site.store]
    rcases s.activation.temps.set_cases t v with ⟨hno, hset⟩ | ⟨hyes, hplace⟩ <;>
      rcases ts.set_cases t v with ⟨hno', hset'⟩ | ⟨hyes', hplace'⟩
    · rw [hset, hset']
      exact .error rfl
    · rw [hno] at hyes'; cases hyes'
    · rw [hyes] at hno'; cases hno'
    · rw [← hsame] at hplace
      rcases hplace with ⟨hnone, hset⟩ | ⟨hsome, us, hset, hus⟩ <;>
        rcases hplace' with ⟨hnone', hset'⟩ | ⟨hsome', us', hset', hus'⟩
      · rw [hset, hset']
        exact .error rfl
      · rw [hnone] at hsome'; cases hsome'
      · rw [hnone'] at hsome; cases hsome
      · rw [hset, hset']
        refine .ok ⟨rfl, rfl, rfl, fun u hu => ?_⟩
        simp only [hus, hus', hts u hu]

theorem captureScope (h : s.Agrees used s') :
    s.captureScope.1 = s'.captureScope.1 ∧ s.captureScope.2.Agrees used s'.captureScope.2 := by
  obtain ⟨ts, rfl, hts⟩ := h.exists_temps
  obtain ⟨heap, context, ⟨body, pc, temps, args, receiver, footing, bridge?, answer?⟩⟩ := s
  cases footing <;> cases bridge? <;> exact ⟨rfl, rfl, rfl, rfl, hts⟩

end Site.Agrees

/-! ### One execution -/

/-- Code beside itself, at sites that agree on the variables. -/
def agreement (used : List Variable) : Correspondence where
  place v w := v = w ∧ v ∈ used
  label := Eq
  body := Eq
  value := Eq
  failure := Eq
  frame := Eq
  invocation := Eq
  target := Eq
  site := Site.Agrees used
  after := Site.Agrees used

section Agreement

variable (used : List Variable)

theorem agreement_equal : (agreement used).Equal where
  value := rfl
  body := rfl
  frame := rfl
  invocation := rfl
  plain _ _ := rfl
  heap h := h.heap.symm
  context h := h.context.symm
  scope h := by rw [h.activation.rest]
  noFrame _ _ := rfl
  setHeap _ h _ := ⟨rfl, h.context, h.activation⟩
  setContext _ h _ := ⟨h.heap, rfl, h.activation⟩

theorem agreement_siteLaws : (agreement used).SiteLaws where
  after h := h
  supply h := by rw [h.heap]
  setSupply n h := ⟨by rw [h.heap], h.context, h.activation⟩
  load {s s' v v'} h hv := by
    obtain ⟨rfl, hv⟩ := hv
    rw [h.load_eq hv]
    exact .refl (fun _ => rfl) _
  store {s s' r r' v v'} h hr hv := by
    obtain ⟨rfl, hr⟩ := hr
    cases hv
    exact h.store hr v
  receiver h := by
    rw [h.activation.rest]
    rfl
  args n h := by
    rw [h.activation.rest]
    rfl
  kind h := by rw [h.activation.rest]
  goTo {s s' l l'} h hl := by
    cases hl
    have hbody : s'.activation.body = s.activation.body := by rw [h.activation.rest]
    rw [hbody]
    cases s.activation.body.labelIndex? l with
    | none => exact .inr ⟨rfl, rfl, rfl⟩
    | some n => exact .inl ⟨n, n, rfl, rfl, h.heap, h.context, h.activation.setPc n⟩

theorem agreement_findsHome : (agreement used).FindsHome := by
  intro s s' h _
  have hfooting : s'.activation.footing = s.activation.footing := by rw [h.activation.rest]
  rw [hfooting]
  cases s.activation.footing.scope?.bind DynamicScope.returnTarget? with
  | none => exact .none
  | some c => exact .some rfl

theorem agreement_lawful : (agreement used).Lawful :=
  (agreement_equal used).lawful (agreement_siteLaws used) (agreement_findsHome used)
    fun _ _ h => h.captureScope

end Agreement

/-- An instruction does the same at sites that agree on the variables that it uses. -/
theorem execute_agrees (i : Instr) {s s' : Site} (h : s.Agrees i.usedVariables s') :
    (agreement i.usedVariables).Meets (agreement i.usedVariables).Outcomes
      (Site.Agrees i.usedVariables) (i.execute s) (i.execute s') :=
  (agreement_lawful i.usedVariables).execute
    (InstrOf.like_self (fun _ => rfl) i (fun _ hv => ⟨rfl, hv⟩) fun _ _ => rfl) h

/-- The same temporaries, but for one variable at most. -/
def Activation.KeepsTemps (result? : Option Variable) (a b : Activation) : Prop :=
  ∀ t, result? ≠ some (.temp t) → b.temps.get? t = a.temps.get? t

theorem Site.store_keepsTemps {s t : Site} {r : Variable} {v : Value} (h : s.store r v = .ok t) :
    s.activation.KeepsTemps (some r) t.activation := by
  intro u hu
  rcases Site.store_cases h with ⟨x, ts, rfl, hts, rfl⟩ | ⟨scope, depth, offset, k, -, rfl⟩
  · exact (hts u).trans (if_neg fun hux => hu (by rw [hux]))
  · rfl

theorem Site.captureScope_temps (s : Site) :
    s.captureScope.2.activation.temps = s.activation.temps := by
  unfold captureScope
  split <;> rfl

/-- Of the changes that an instruction makes, only setting its result is about temporaries. -/
theorem InstrOf.Effect.keepsTemps {i : Instr} {s t : Site} (h : i.Effect s t) :
    s.activation.KeepsTemps i.result? t.activation := by
  cases h with
  | store hr ht => exact hr ▸ Site.store_keepsTemps ht
  | buildClosure => exact fun u _ => by rw [s.captureScope_temps]
  | _ => exact fun _ _ => rfl

theorem keepsTemps_of_effects {i : Instr} {s t : Site} (h : Relation.ReflTransGen i.Effect s t) :
    s.activation.KeepsTemps i.result? t.activation :=
  InstrOf.effects_keep (P := fun t => s.activation.KeepsTemps i.result? t.activation)
    (fun _ _ heffect ht u hu => (heffect.keepsTemps u hu).trans (ht u hu)) h fun _ _ => rfl

/-! ### Above a waiting activation -/

namespace Machine

/-- The machine on top of further callers. -/
def above (m : Machine) (base : List Caller) : Machine := { m with callers := m.callers ++ base }

/-- The outermost activation of the machine has ended, and is the next to leave. -/
def Departs (m : Machine) : Prop := (∃ a r, m.control = .leaving a r) ∧ m.callers = []

variable {limit : Nat} {base : List Caller}

theorem follow_above (callers : List Caller) (r : EStateM.Result Failure Site Outcome) :
    follow limit (callers ++ base) r = (follow limit callers r).above base := by
  cases r with
  | error f s => rfl
  | ok o s =>
    cases o with
    | call x i =>
      simp only [follow]
      cases enter limit s.heap s.context i <;> rfl
    | _ => rfl

theorem GoesOn.result? {s : Site} {cs : List Caller} {m : Machine} (h : GoesOn s cs m) :
    m.result? = none := by
  obtain ⟨t, -, rfl | ⟨r, rfl⟩⟩ := h <;> rfl

theorem step_result? {m : Machine} (hm : ¬m.Departs) (hr : m.result? = none) :
    (m.step limit).result? = none := by
  obtain ⟨heap, context, control, callers⟩ := m
  cases control with
  | finished r => cases hr
  | running a =>
    obtain ⟨pc, ⟨-, h⟩ | ⟨inv, t, callee, r, -, -, -, h⟩⟩ :=
      step_running limit (m := ⟨heap, context, .running a, callers⟩) rfl
    · exact h.result?
    · rw [h]
      rfl
  | leaving a r =>
    rcases resume_cases heap (leave a.body context) (a.settle r) callers with
      ⟨rfl, -⟩ | ⟨caller, cs, -, h⟩
    · exact absurd ⟨⟨a, r, rfl⟩, rfl⟩ hm
    · exact h.result?

/-- What lies below the outermost activation is not looked at before that has left. -/
theorem step_above {m : Machine} (hm : ¬m.Departs) (hr : m.result? = none) :
    (m.above base).step limit = (m.step limit).above base := by
  obtain ⟨heap, context, control, callers⟩ := m
  cases control with
  | finished r => cases hr
  | running a =>
    simp only [above, step]
    cases a.body.code[a.pc]? with
    | none => rfl
    | some i => exact follow_above callers _
  | leaving a r =>
    cases callers with
    | nil => exact absurd ⟨⟨a, r, rfl⟩, rfl⟩ hm
    | cons caller callers =>
      simp only [above, step, List.cons_append, resume]
      cases a.settle r with
      | error u => rfl
      | ok v =>
        simp only
        cases Site.store ⟨heap, leave a.body context, caller.activation⟩ caller.result v <;> rfl

theorem after_above {m : Machine} (hm : m.result? = none) {n : Nat}
    (hn : ∀ k < n, ¬(m.after limit k).Departs) :
    (m.after limit n).result? = none ∧
      (m.above base).after limit n = (m.after limit n).above base := by
  induction n with
  | zero => exact ⟨hm, rfl⟩
  | succ n ih =>
    obtain ⟨hnone, habove⟩ := ih fun k hk => hn k (Nat.lt_succ_of_lt hk)
    have hdeparts := hn n (Nat.lt_succ_self n)
    refine ⟨?_, by rw [after_succ, after_succ, habove, step_above hdeparts hnone]⟩
    rw [after_succ]
    exact step_result? hdeparts hnone

/-- As the outermost activation leaves, the one below it is resumed. -/
theorem step_above_of_departs (limit : Nat) {m : Machine} (hm : m.Departs) :
    ∃ h c r, ∀ base, (m.above base).step limit = resume h c r base := by
  obtain ⟨heap, context, control, callers⟩ := m
  obtain ⟨⟨a, r, hcontrol⟩, hcallers⟩ := hm
  simp only at hcontrol hcallers
  subst hcontrol hcallers
  exact ⟨heap, leave a.body context, a.settle r, fun _ => rfl⟩

theorem resume_callers (h : Heap) (c : Context) (r : Except Unwind Value) (caller : Caller)
    (cs : List Caller) : (resume h c r (caller :: cs)).callers = cs := by
  rcases resume_cases h c r (caller :: cs) with ⟨hnil, -⟩ | ⟨caller', cs', hcons, hgoes⟩
  · cases hnil
  · cases hcons
    obtain ⟨t, -, -, -, hcallers, -⟩ := hgoes.active
    exact hcallers

/-! ### An instruction with all that it calls -/

/-- The activation that the first instruction waits for has not left within so many steps. -/
def UnderWay (limit : Nat) (m : Machine) (n : Nat) : Prop :=
  ∀ k, 0 < k → k ≤ n → m.callers.length < (m.after limit k).callers.length

/-- After so many steps the first instruction is carried out, with all that it calls. -/
def CarriesOut (limit : Nat) (m : Machine) (n : Nat) : Prop :=
  ∃ k, n = k + 1 ∧ m.UnderWay limit k ∧ (m.after limit n).callers.length = m.callers.length

theorem underWay_zero (m : Machine) : m.UnderWay limit 0 := fun _ hpos hle => by omega

section AtOnce

variable {m : Machine} (h : (m.step limit).callers = m.callers)

include h

theorem underWay_iff_of_callers {n : Nat} : m.UnderWay limit n ↔ n = 0 := by
  refine ⟨fun hn => ?_, fun hn => hn ▸ m.underWay_zero⟩
  by_contra hpos
  have hlt := hn 1 Nat.one_pos (Nat.one_le_iff_ne_zero.2 hpos)
  rw [after_succ, after_zero, h] at hlt
  exact Nat.lt_irrefl _ hlt

theorem carriesOut_iff_of_callers {n : Nat} : m.CarriesOut limit n ↔ n = 1 := by
  simp only [CarriesOut, underWay_iff_of_callers h]
  constructor
  · rintro ⟨_, rfl, rfl, -⟩
    rfl
  · rintro rfl
    exact ⟨0, rfl, rfl, by rw [after_succ, after_zero, h]⟩

end AtOnce

section Waiting

variable {m inner : Machine} {caller : Caller}
  (h : m.step limit = inner.above (caller :: m.callers)) (hinner : inner.result? = none)

include h hinner

theorem after_succ_of_waiting {n : Nat} (hn : ∀ k < n, ¬(inner.after limit k).Departs) :
    m.after limit (n + 1) = (inner.after limit n).above (caller :: m.callers) := by
  rw [after_succ', h, (after_above hinner hn).2]

theorem underWay_succ_iff_of_waiting {n : Nat} :
    m.UnderWay limit (n + 1) ↔ ∀ k < n, ¬(inner.after limit k).Departs := by
  constructor
  · intro hunder k
    -- until it departs, the machine is the inner one above the caller
    induction k using Nat.strongRecOn with
    | ind k ih =>
      intro hk hdeparts
      have hbefore : ∀ j < k, ¬(inner.after limit j).Departs := fun j hj =>
        ih j hj (Nat.lt_trans hj hk)
      obtain ⟨h', c, r, hstep⟩ := step_above_of_departs limit hdeparts
      have hlt := hunder (k + 2) (Nat.succ_pos _) (by omega)
      rw [after_succ, after_succ_of_waiting h hinner hbefore, hstep, resume_callers] at hlt
      exact Nat.lt_irrefl _ hlt
  · intro hno k hpos hk
    obtain ⟨k, rfl⟩ := Nat.exists_eq_succ_of_ne_zero (Nat.pos_iff_ne_zero.1 hpos)
    rw [after_succ_of_waiting h hinner fun j hj => hno j (by omega)]
    simp only [above, List.length_append, List.length_cons]
    omega

theorem carriesOut_iff_of_waiting {n : Nat} :
    m.CarriesOut limit n ↔ ∃ k, n = k + 2 ∧ (inner.after limit k).Departs ∧
      ∀ j < k, ¬(inner.after limit j).Departs := by
  constructor
  · rintro ⟨k, rfl, hunder, hback⟩
    have habove : ∀ k, (∀ j < k, ¬(inner.after limit j).Departs) →
        (m.after limit (k + 1)).callers.length ≠ m.callers.length := by
      intro k hk hback
      rw [after_succ_of_waiting h hinner hk] at hback
      simp only [above, List.length_append, List.length_cons] at hback
      omega
    cases k with
    | zero => exact absurd hback (habove 0 fun j hj => by omega)
    | succ k =>
      have hno := (underWay_succ_iff_of_waiting h hinner).1 hunder
      refine ⟨k, rfl, ?_, hno⟩
      by_contra hdeparts
      refine absurd hback (habove (k + 1) fun j hj => ?_)
      rcases Nat.lt_succ_iff_lt_or_eq.1 hj with hj | rfl
      · exact hno j hj
      · exact hdeparts
  · rintro ⟨k, rfl, hdeparts, hno⟩
    refine ⟨k + 1, rfl, (underWay_succ_iff_of_waiting h hinner).2 hno, ?_⟩
    obtain ⟨k', c, r, hstep⟩ := step_above_of_departs limit hdeparts
    rw [after_succ, after_succ_of_waiting h hinner hno, hstep, resume_callers]

end Waiting

end Machine

/-! ### Two runs -/

/-- Activations that differ in temporaries at most, and go on or end alike. -/
inductive Control.Agrees (used : List Variable) : Control → Control → Prop
  | running {a a' : Activation} (h : a.Agrees used a') : Agrees used (.running a) (.running a')
  | leaving {a a' : Activation} (h : a.Agrees used a') (r : Except Unwind Value) :
    Agrees used (.leaving a r) (.leaving a' r)

/-- Machines in one state, but for temporaries of the activation on top. -/
structure Machine.Agrees (used : List Variable) (m m' : Machine) : Prop where
  heap : m'.heap = m.heap
  context : m'.context = m.context
  callers : m'.callers = m.callers
  control : m.control.Agrees used m'.control

/-- The activations on top have the same temporaries, but for one variable at most. -/
def Machine.KeepsTemps (result? : Option Variable) (m u : Machine) : Prop :=
  ∃ a b, m.active.head? = some a ∧ u.active.head? = some b ∧ a.KeepsTemps result? b

namespace Machine

variable {limit : Nat} {used : List Variable} {cs : List Caller}

/-- Machines that agree carry out the same instruction next, at sites that agree. -/
theorem Agrees.next? {m m' : Machine} (h : m.Agrees used m') {i : Instr} {s : Site}
    (hnext : m.next? = some (i, s)) : ∃ s', m'.next? = some (i, s') ∧ s.Agrees used s' := by
  obtain ⟨heap, context, control, callers⟩ := m
  obtain ⟨heap', context', control', callers'⟩ := m'
  obtain ⟨hheap, hcontext, hcallers, hcontrol⟩ := h
  simp only at hheap hcontext hcallers
  subst hheap hcontext hcallers
  cases hcontrol with
  | leaving => cases hnext
  | @running a a' ha =>
    simp only [Machine.next?, Option.map_eq_some_iff, Prod.mk.injEq] at hnext
    obtain ⟨_, hi, rfl, rfl⟩ := hnext
    refine ⟨⟨heap', context', { a' with pc := a'.pc + 1 }⟩, ?_, rfl, rfl, ?_⟩
    · have hbody : a'.body = a.body ∧ a'.pc = a.pc := by
        rw [ha.rest]
        exact ⟨rfl, rfl⟩
      simp only [Machine.next?, hbody.1, hbody.2, hi, Option.map_some]
    · have hpc : a'.pc = a.pc := by rw [ha.rest]
      rw [hpc]
      exact ha.setPc (a.pc + 1)

theorem agrees_runningAt {s s' : Site} (h : s.Agrees used s') :
    (runningAt s cs).Agrees used (runningAt s' cs) :=
  ⟨h.heap, h.context, rfl, .running h.activation⟩

theorem agrees_leavingAt {s s' : Site} (h : s.Agrees used s') (r : Except Unwind Value) :
    (leavingAt s r cs).Agrees used (leavingAt s' r cs) :=
  ⟨h.heap, h.context, rfl, .leaving h.activation r⟩

/-- Machines above waiting activations that agree, and wait with the same used variable. -/
def WaitAlike (used : List Variable) (cs : List Caller) (w m m' : Machine) : Prop :=
  ∃ b b' r, r ∈ used ∧ b.Agrees used b' ∧ m = w.above (⟨b, r⟩ :: cs) ∧
    m' = w.above (⟨b', r⟩ :: cs)

/-- The instruction is carried out at once in both runs, or both wait for the same activation. -/
theorem step_agrees (limit : Nat) {m m' : Machine} {i : Instr} {s : Site}
    (h : m.Agrees i.usedVariables m') (hnext : m.next? = some (i, s)) :
    ((m.step limit).callers = m.callers ∧ (m.step limit).Agrees i.usedVariables (m'.step limit)) ∨
      ∃ callee, WaitAlike i.usedVariables m.callers (runningAt callee []) (m.step limit)
        (m'.step limit) := by
  obtain ⟨s', hnext', hs⟩ := h.next? hnext
  rw [step_of_next hnext, step_of_next hnext', h.callers]
  have hmeets := execute_agrees i hs
  generalize i.execute s = x at hmeets
  generalize i.execute s' = x' at hmeets
  cases hmeets with
  | error hf ht =>
    cases hf
    exact .inl ⟨rfl, agrees_leavingAt ht _⟩
  | ok ho ht =>
    cases ho with
    | next => exact .inl ⟨rfl, agrees_runningAt ht⟩
    | complete hv =>
      cases hv
      exact .inl ⟨rfl, agrees_leavingAt ht _⟩
    | «return» hn hv =>
      cases hn
      cases hv
      exact .inl ⟨rfl, agrees_leavingAt ht _⟩
    | call hr hinv =>
      cases hinv
      obtain ⟨rfl, hr⟩ := hr
      rename_i t t' r inv
      simp only [follow, ht.heap, ht.context]
      cases enter limit t.heap t.context inv with
      | error f => exact .inl ⟨rfl, agrees_leavingAt ht _⟩
      | ok callee =>
        exact .inr ⟨callee, t.activation, t'.activation, r, hr, ht.activation, rfl, rfl⟩

/-- Waiting activations that agree are resumed alike. -/
theorem resume_agrees {b b' : Activation} (h : b.Agrees used b') {r : Variable} (hr : r ∈ used)
    (k : Heap) (c : Context) (e : Except Unwind Value) :
    (resume k c e (⟨b, r⟩ :: cs)).Agrees used (resume k c e (⟨b', r⟩ :: cs)) := by
  have hsite : Site.Agrees used ⟨k, c, b⟩ ⟨k, c, b'⟩ := ⟨rfl, rfl, h⟩
  simp only [resume]
  cases e with
  | error u => exact agrees_leavingAt hsite _
  | ok v =>
    rcases (hsite.store hr v).elim with ⟨f, _, hf, hf', rfl⟩ | ⟨t, t', ht, ht', htt⟩
    · simp only [hf, hf']
      exact agrees_leavingAt hsite _
    · simp only [ht, ht']
      exact agrees_runningAt htt

/-! ### One run -/

theorem follow_keepsTemps (limit : Nat) (cs : List Caller) {r? : Option Variable}
    {a : Activation} {x : EStateM.Result Failure Site Outcome}
    (herror : ∀ f t, x = .error f t → a.KeepsTemps r? t.activation)
    (hok : ∀ o t, x = .ok o t → a.KeepsTemps r? t.activation)
    (hcall : ∀ r inv t, x = .ok (.call r inv) t → r? = some r) :
    ((follow limit cs x).callers = cs ∧
        ∃ b, (follow limit cs x).active.head? = some b ∧ a.KeepsTemps r? b) ∨
      ∃ callee b r, r? = some r ∧ a.KeepsTemps r? b ∧
        follow limit cs x = (runningAt callee []).above (⟨b, r⟩ :: cs) := by
  cases x with
  | error f t => exact .inl ⟨rfl, _, rfl, herror f t rfl⟩
  | ok o t =>
    have hkeeps := hok o t rfl
    cases o with
    | next | complete | «return» => exact .inl ⟨rfl, _, rfl, hkeeps⟩
    | call r inv =>
      simp only [follow]
      cases enter limit t.heap t.context inv with
      | error f => exact .inl ⟨rfl, _, rfl, hkeeps⟩
      | ok callee => exact .inr ⟨callee, _, r, hcall r inv t rfl, hkeeps, rfl⟩

/-- The instruction leaves the other temporaries alone, and waits at most to set its result. -/
theorem step_keepsTemps (limit : Nat) {m : Machine} {i : Instr} {s : Site}
    (hnext : m.next? = some (i, s)) :
    ((m.step limit).callers = m.callers ∧ m.KeepsTemps i.result? (m.step limit)) ∨
      ∃ callee b r, i.result? = some r ∧ s.activation.KeepsTemps i.result? b ∧
        m.step limit = (runningAt callee []).above (⟨b, r⟩ :: m.callers) := by
  rw [step_of_next hnext]
  obtain ⟨a, ha, -, rfl⟩ := next?_eq_some hnext
  rcases follow_keepsTemps limit m.callers
      (fun f t h => keepsTemps_of_effects (effects_of_error h))
      (fun o t h => keepsTemps_of_effects (effects_of_ok h))
      (fun r inv t h => (execute_call h).2) with ⟨hcallers, b, hb, hkeeps⟩ | hwaits
  · exact .inl ⟨hcallers, a, b, by rw [active, ha]; rfl, hb, hkeeps⟩
  · exact .inr hwaits

theorem resume_keepsTemps (cs : List Caller) (h : Heap) (c : Context) (e : Except Unwind Value)
    (b : Activation) (r : Variable) : ∃ b', (resume h c e (⟨b, r⟩ :: cs)).active.head? = some b' ∧
      b.KeepsTemps (some r) b' := by
  simp only [resume]
  cases e with
  | error u => exact ⟨b, rfl, fun _ _ => rfl⟩
  | ok v =>
    cases ht : Site.store ⟨h, c, b⟩ r v with
    | error f =>
      simp only [ht]
      exact ⟨b, rfl, fun _ _ => rfl⟩
    | ok t =>
      simp only [ht]
      exact ⟨t.activation, rfl, Site.store_keepsTemps ht⟩

/-- Once the instruction is carried out, all temporaries but its result are what they were. -/
theorem keepsTemps_of_carriesOut {m : Machine} {i : Instr} {s : Site}
    (hnext : m.next? = some (i, s)) {n : Nat} (hn : m.CarriesOut limit n) :
    m.KeepsTemps i.result? (m.after limit n) := by
  obtain ⟨a, ha, -, hs⟩ := next?_eq_some hnext
  have hactive : m.active.head? = some a := by
    rw [active, ha]
    rfl
  rcases step_keepsTemps limit hnext with
    ⟨hcallers, hkeeps⟩ | ⟨callee, b, r, hr, hb, hstep⟩
  · obtain rfl := (carriesOut_iff_of_callers hcallers).1 hn
    exact hkeeps
  · obtain ⟨k, rfl, hdeparts, hbefore⟩ := (carriesOut_iff_of_waiting hstep rfl).1 hn
    obtain ⟨h, c, e, hresume⟩ := step_above_of_departs limit hdeparts
    rw [after_succ, after_succ_of_waiting hstep rfl hbefore, hresume, hr]
    obtain ⟨b', hb', hkeeps⟩ := resume_keepsTemps m.callers h c e b r
    refine ⟨a, b', hactive, hb', fun u hu => ?_⟩
    rw [hkeeps u hu, hb u (by rw [hr]; exact hu), hs]

/-! ### Instructions with all that they call -/

/--
Runs of one instruction from machines that differ in temporaries which it does not use. As long as
it waits they do the same above the waiting activations, they carry it out after the same steps, and
then they differ in such temporaries at most. In each run all temporaries but the result are then
what they were.
-/
theorem instruction_touches_named_temporaries (limit : Nat) {m m' : Machine} {i : Instr} {s : Site}
    (hnext : m.next? = some (i, s)) (h : m.Agrees i.usedVariables m') :
    (∀ n, m.UnderWay limit n ↔ m'.UnderWay limit n) ∧
      (∀ n, 0 < n → m.UnderWay limit n →
        ∃ w, WaitAlike i.usedVariables m.callers w (m.after limit n) (m'.after limit n)) ∧
      ∀ n, (m.CarriesOut limit n ↔ m'.CarriesOut limit n) ∧
        (m.CarriesOut limit n →
          (m.after limit n).Agrees i.usedVariables (m'.after limit n) ∧
            m.KeepsTemps i.result? (m.after limit n) ∧
            m'.KeepsTemps i.result? (m'.after limit n)) := by
  obtain ⟨s', hnext', -⟩ := h.next? hnext
  suffices hruns : (∀ n, m.UnderWay limit n ↔ m'.UnderWay limit n) ∧
      (∀ n, 0 < n → m.UnderWay limit n →
        ∃ w, WaitAlike i.usedVariables m.callers w (m.after limit n) (m'.after limit n)) ∧
      ∀ n, (m.CarriesOut limit n ↔ m'.CarriesOut limit n) ∧
        (m.CarriesOut limit n → (m.after limit n).Agrees i.usedVariables (m'.after limit n)) by
    obtain ⟨hunder, hwait, hcarries⟩ := hruns
    refine ⟨hunder, hwait, fun n => ⟨(hcarries n).1, fun hn => ⟨(hcarries n).2 hn, ?_, ?_⟩⟩⟩
    · exact keepsTemps_of_carriesOut hnext hn
    · exact keepsTemps_of_carriesOut hnext' ((hcarries n).1.1 hn)
  rcases step_agrees limit h hnext with
    ⟨hcallers, hstep⟩ | ⟨callee, b, b', r, hr, hb, hstep, hstep'⟩
  · have hcallers' : (m'.step limit).callers = m'.callers := by
      rw [hstep.callers, hcallers, h.callers]
    simp only [underWay_iff_of_callers hcallers, underWay_iff_of_callers hcallers',
      carriesOut_iff_of_callers hcallers, carriesOut_iff_of_callers hcallers', true_and]
    refine ⟨fun _ => trivial, fun n hpos hn => absurd hn (Nat.pos_iff_ne_zero.1 hpos), ?_⟩
    rintro _ rfl
    exact hstep
  · rw [← h.callers] at hstep'
    have hunder : ∀ n, m.UnderWay limit n ↔ m'.UnderWay limit n := fun n => by
      cases n with
      | zero => exact iff_of_true m.underWay_zero m'.underWay_zero
      | succ n =>
        rw [underWay_succ_iff_of_waiting hstep rfl, underWay_succ_iff_of_waiting hstep' rfl]
    refine ⟨hunder, fun n hpos hn => ?_, fun n => ⟨?_, fun hn => ?_⟩⟩
    · obtain ⟨n, rfl⟩ := Nat.exists_eq_succ_of_ne_zero (Nat.pos_iff_ne_zero.1 hpos)
      have hno := (underWay_succ_iff_of_waiting hstep rfl).1 hn
      rw [after_succ_of_waiting hstep rfl hno, after_succ_of_waiting hstep' rfl hno, h.callers]
      exact ⟨_, b, b', r, hr, hb, rfl, rfl⟩
    · rw [carriesOut_iff_of_waiting hstep rfl, carriesOut_iff_of_waiting hstep' rfl]
    · obtain ⟨k, rfl, hdeparts, hno⟩ := (carriesOut_iff_of_waiting hstep rfl).1 hn
      obtain ⟨k', c, e, hresume⟩ := step_above_of_departs limit hdeparts
      rw [after_succ, after_succ_of_waiting hstep rfl hno, after_succ,
        after_succ_of_waiting hstep' rfl hno, hresume, hresume, h.callers]
      exact resume_agrees hb hr k' c e

/-- An activation about to yield to a block that answers 7, with a temporary to spare. -/
def yielding (spare : Value) : Machine where
  heap := {}
  context := {}
  control := .running {
    body := {
      id := 0, name := "yielding", file := "-", scope := .nest ⟨0, .method, []⟩ none, flags := {}
      requiredArgs := 0, temps := { generic := 3 }
      code := [.yield (.temp ⟨.generic, 0⟩) (.var (.temp ⟨.generic, 1⟩)) []] }
    pc := 0
    temps := ⟨#[.nil, .block {
      id := 0
      body := {
        id := 1, name := "seven", file := "-", scope := .nest ⟨1, .closure, []⟩ none, flags := {}
        requiredArgs := 0, temps := {}, code := [.ret (.fixnum 7)] }
      receiver := .nil, scope? := none, module := Core.object, visibility := .public }, spare],
      #[], #[], #[]⟩
    args := [], receiver := .nil, footing := .nowhere }
  callers := []

theorem instruction_touches_named_temporaries_yielding :
    (yielding .nil).CarriesOut 1 3 ∧ (yielding (.bool true)).CarriesOut 1 3 ∧
      ((yielding .nil).after 1 3).Agrees [.temp ⟨.generic, 0⟩, .temp ⟨.generic, 1⟩]
        ((yielding (.bool true)).after 1 3) ∧
      (yielding (.bool true)).KeepsTemps (some (.temp ⟨.generic, 0⟩))
        ((yielding (.bool true)).after 1 3) := by
  have hnext : ∃ s, (yielding .nil).next? =
      some (.yield (.temp ⟨.generic, 0⟩) (.var (.temp ⟨.generic, 1⟩)) [], s) := ⟨_, rfl⟩
  obtain ⟨s, hnext⟩ := hnext
  have hagree : (yielding .nil).Agrees [.temp ⟨.generic, 0⟩, .temp ⟨.generic, 1⟩]
      (yielding (.bool true)) := by
    refine ⟨rfl, rfl, rfl, .running ⟨rfl, fun t ht => ?_⟩⟩
    rcases List.mem_cons.1 ht with ht | ht
    · cases ht
      rfl
    · cases List.mem_singleton.1 ht
      rfl
  have hcarries : (yielding .nil).CarriesOut 1 3 := by
    refine ⟨2, rfl, fun k hpos hk => ?_, rfl⟩
    obtain rfl | rfl : k = 1 ∨ k = 2 := by omega
    · exact Nat.one_pos
    · exact Nat.one_pos
  obtain ⟨-, -, hruns⟩ := instruction_touches_named_temporaries 1 hnext hagree
  obtain ⟨hagrees, -, hkeeps⟩ := (hruns 3).2 hcarries
  exact ⟨hcarries, (hruns 3).1.1 hcarries, hagrees, hkeeps⟩

end Machine

end ObjectIr
