import ObjectIr.Pass.CopyPropagation
import ObjectIr.Proofs.Balance
import ObjectIr.Proofs.Correspondence.Equal
import ObjectIr.Proofs.Temps

/-!
# Checked code finds its places

The checks of a draft rule out failures for want of a place: every temporary in use is there, every
jump has a destination, and a body with a scope of its own has a slot for each of its own locals
that it names (`Body.Accepted.checked`). At run time an activation keeps the temporaries and the
slots that it started with (`Activation.Equipped`), whatever code runs meanwhile. So no instruction
of a checked body raises a failure of that kind (`accepted_never_raises`), and where all code was
checked, no run ends with one.
-/

namespace ObjectIr

/-! ### What the checks say of a body -/

/-- All ways to a body: a draft, a body given other instructions, copy propagation. -/
inductive Body.Accepted : Body → Prop
  | built {d : Draft} {id : Nat} {b : Body} (h : d.build id = .ok b) : Accepted b
  | recoded {b b' : Body} {code : List Instr} {id : Nat} (h : b.withCode code id = .ok b') :
    Accepted b'
  | optimized {b b' : Body} {id : Nat} (h : b.optimized id = .ok b') : Accepted b'

theorem Body.Accepted.exists_draft {b : Body} (h : b.Accepted) :
    ∃ (d : Draft) (id : Nat), d.build id = .ok b := by
  rcases h with h | h | h
  · exact ⟨_, _, h⟩
  · exact ⟨_, _, h⟩
  · exact ⟨_, _, h⟩

/-- The variables that an activation of the body has a place for, if they are its own. -/
def Body.HasPlace (b : Body) : Variable → Prop
  | .temp t => b.temps.holds t = true
  | .lexical _ depth offset => b.pushesScope = true → depth = 0 → offset < b.scope.locals.length

structure Body.Checked (b : Body) : Prop where
  places : ∀ i ∈ b.code, ∀ v ∈ i.usedVariables, b.HasPlace v
  targets : ∀ i ∈ b.code, ∀ l, i.target? = some l → (b.labelIndex? l).isSome

theorem Draft.lt_of_checkVariable {d : Draft} {name : String} {offset : Nat}
    (h : d.checkVariable (.lexical name 0 offset) = .ok ()) (hd : d.sharesScope = false) :
    offset < d.scope.locals.length := by
  simp only [checkVariable, hd, Bool.false_and, Bool.false_eq_true, if_false, StaticScope.level?,
    StaticScope.levels, List.getElem?_cons_zero] at h
  by_contra hoffset
  rw [if_neg (show ¬ offset < d.scope.level.locals.length from hoffset)] at h
  cases h

theorem Body.Accepted.checked {b : Body} (h : b.Accepted) : b.Checked := by
  obtain ⟨d, id, hd⟩ := h.exists_draft
  obtain ⟨hsound, temps, -, rfl⟩ := Draft.build_eq_ok_iff.1 hd
  refine ⟨fun i hi v hv => ?_, fun i hi l hl => ?_⟩
  · cases v with
    | temp t => exact Draft.holds_of_build hd hi hv
    | lexical name depth offset =>
      rintro hp rfl
      refine d.lt_of_checkVariable ((Draft.checkInstr_eq_ok_iff.1 (hsound.code i hi)).2 _ hv) ?_
      simpa [Body.pushesScope, Body.isEliminated, Body.reusesScope, Draft.sharesScope,
        Draft.body] using hp
  · have hmem := (Draft.checkInstr_eq_ok_iff.1 (hsound.code i hi)).1 l hl
    rw [Draft.labels, List.mem_filterMap] at hmem
    obtain ⟨j, hj, hlabel⟩ := hmem
    rw [Body.labelIndex?, List.findIdx?_isSome, List.any_eq_true]
    exact ⟨j, hj, by simp [hlabel]⟩

/-- The faults that the checks of a body exclude. -/
def InternalFault.Excluded (b : Body) : InternalFault → Prop
  | .outsideTemps _ | .undefinedJump _ | .noFrame => True
  | .noScope .. => b.pushesScope = true
  | .noSlot depth _ => b.pushesScope = true ∧ depth = 0
  | .undefinedOperand | .bodyOperand _ | .notModuleBody .. => False

def Failure.Excluded (b : Body) : Failure → Prop
  | .internal fault => fault.Excluded b
  | _ => False

theorem Failure.IsPlain.not_excluded {f : Failure} (h : f.IsPlain) (b : Body) : ¬ f.Excluded b := by
  intro hf
  unfold Excluded at hf
  split at hf
  · next fault =>
    have hplain := h fault rfl
    cases fault <;> simp_all [InternalFault.isMissing, InternalFault.Excluded]
  · exact hf

/-! ### Locals that are not there -/

theorem Heap.readLocal_error {h : Heap} {s : DynamicScope} {depth offset : Nat} {f : Failure}
    (hf : h.readLocal s depth offset = .error f) : f = .internal (.noSlot depth offset) ∧
      ∀ c, s.cell? depth = some c → (h.slotsOf c).length ≤ offset := by
  unfold readLocal at hf
  split at hf
  · cases hf
  · next hnone =>
    cases hf
    refine ⟨rfl, fun c hc => ?_⟩
    simpa [hc] using hnone

theorem Heap.writeLocal_error {h : Heap} {s : DynamicScope} {depth offset : Nat} {v : Value}
    {f : Failure} (hf : h.writeLocal s depth offset v = .error f) :
    f = .internal (.noSlot depth offset) ∧
      ∀ c, s.cell? depth = some c → (h.slotsOf c).length ≤ offset := by
  unfold writeLocal at hf
  cases hc : s.cell? depth with
  | none =>
    rw [hc] at hf
    cases hf
    exact ⟨rfl, by simp⟩
  | some c =>
    simp only [hc] at hf
    split at hf
    · cases hf
    · next hlt =>
      cases hf
      refine ⟨rfl, ?_⟩
      rintro c' ⟨⟩
      exact Nat.le_of_not_lt hlt

/-- Setting a local changes the heap where the local is found. -/
theorem Site.store_lexical (s : Site) (name : String) (depth offset : Nat) (v : Value) :
    s.store (.lexical name depth offset) v =
      match s.activation.footing.locate? depth with
      | some (scope, d) =>
        (s.heap.writeLocal scope d offset v).map fun h => { s with heap := h }
      | none => .error (.internal (.noScope s.activation.body.name depth)) := by
  simp only [store]
  cases s.activation.footing.locate? depth with
  | none => rfl
  | some p => cases s.heap.writeLocal p.1 p.2 offset v <;> rfl

/-! ### What an activation keeps -/

/-- The temporaries of the body are there, and its scope with all slots, if it has its own. -/
structure Activation.Equipped (h : Heap) (a : Activation) : Prop where
  temps : ∀ t, a.body.temps.holds t = true → (a.temps.get? t).isSome
  scope : a.body.pushesScope = true → ∃ s, a.footing = .own s ∧ s.id < h.next.scopes ∧
    (h.slotsOf s.cell).length = a.body.scope.locals.length

theorem Activation.Equipped.grows {h k : Heap} {a : Activation} (ha : a.Equipped h)
    (hk : h.Grows k) : a.Equipped k where
  temps := ha.temps
  scope hp := by
    obtain ⟨s, hs, hid, hlength⟩ := ha.scope hp
    exact ⟨s, hs, Nat.lt_of_lt_of_le hid hk.scopes, by rw [hk.slots s.cell hid, hlength]⟩

structure Site.Equipped (b : Body) (s : Site) : Prop where
  body : s.activation.body = b
  frames : s.context.frames ≠ []
  activation : s.activation.Equipped s.heap

namespace Site.Equipped

variable {b : Body} {s : Site} (hs : s.Equipped b)

include hs

theorem grows {k : Heap} (hk : s.heap.Grows k) : Site.Equipped b { s with heap := k } :=
  ⟨hs.body, hs.frames, hs.activation.grows hk⟩

/-- Where a local is looked for; if it is one of the body's own, it has a slot there. -/
theorem locate_cases {name : String} {depth offset : Nat}
    (hv : b.HasPlace (.lexical name depth offset)) :
    (b.pushesScope = false ∧ s.activation.footing.locate? depth = none) ∨
      ∃ scope d, s.activation.footing.locate? depth = some (scope, d) ∧
        (b.pushesScope = true → d = depth ∧
          (d = 0 → offset < (s.heap.slotsOf scope.cell).length)) := by
  by_cases hp : b.pushesScope = true
  · obtain ⟨scope, hfooting, -, hlength⟩ := hs.activation.scope (by rw [hs.body]; exact hp)
    refine .inr ⟨scope, depth, by rw [hfooting]; rfl, fun _ => ⟨rfl, fun hdepth => ?_⟩⟩
    rw [hlength, hs.body]
    exact hv hp hdepth
  · cases hl : s.activation.footing.locate? depth with
    | none => exact .inl ⟨by simpa using hp, rfl⟩
    | some p => exact .inr ⟨p.1, p.2, rfl, fun h => absurd h hp⟩

/-- A local of the body itself can be read and set. -/
theorem local_accessible {name : String} {offset : Nat} (hp : b.pushesScope = true)
    (hv : b.HasPlace (.lexical name 0 offset)) :
    (∃ v, s.load (.lexical name 0 offset) = .ok v) ∧
      ∀ v, ∃ t, s.store (.lexical name 0 offset) v = .ok t := by
  rcases hs.locate_cases hv with ⟨hn, -⟩ | ⟨scope, d, hl, hslot⟩
  · simp [hp] at hn
  · obtain ⟨rfl, hoffset⟩ := hslot hp
    have hcell : scope.cell? 0 = some scope.cell := rfl
    refine ⟨⟨(s.heap.slotsOf scope.cell).get ⟨offset, hoffset rfl⟩, ?_⟩, fun v => ?_⟩
    · simp only [Site.load, hl]
      exact (s.heap.readLocal_eq_ok_iff scope 0 offset _).2 ⟨_, hcell, by simp [hoffset rfl]⟩
    · rw [Site.store_lexical, hl]
      simp only
      rw [(s.heap.writeLocal_eq_ok_iff scope 0 offset v _).2 ⟨_, hcell, hoffset rfl, rfl⟩]
      exact ⟨_, rfl⟩

theorem load_excluded {v : Variable} (hv : b.HasPlace v) {f : Failure} (hf : s.load v = .error f) :
    ¬ f.Excluded b := by
  cases v with
  | temp t =>
    obtain ⟨x, hx⟩ := Option.isSome_iff_exists.1 (hs.activation.temps t (by rw [hs.body]; exact hv))
    simp only [Site.load, hx] at hf
    cases hf
  | lexical name depth offset =>
    simp only [Site.load] at hf
    rcases hs.locate_cases hv with ⟨hp, hl⟩ | ⟨scope, d, hl, hslot⟩
    · rw [hl] at hf
      cases hf
      simp [Failure.Excluded, InternalFault.Excluded, hp]
    · rw [hl] at hf
      obtain ⟨rfl, hno⟩ := Heap.readLocal_error hf
      rintro ⟨hp, rfl⟩
      have hle := hno scope.cell rfl
      have hlt := (hslot hp).2 rfl
      omega

theorem store_excluded {r : Variable} (hr : b.HasPlace r) {v : Value} {f : Failure}
    (hf : s.store r v = .error f) : ¬ f.Excluded b := by
  cases r with
  | temp t =>
    rcases s.activation.temps.set_cases t v with ⟨-, hset⟩ | ⟨-, ⟨hnone, -⟩ | ⟨-, ts, hset, -⟩⟩
    · simp only [Site.store, hset] at hf
      cases hf
      simp [Failure.Excluded]
    · have hsome := hs.activation.temps t (by rw [hs.body]; exact hr)
      simp [hnone] at hsome
    · simp only [Site.store, hset] at hf
      cases hf
  | lexical name depth offset =>
    rw [Site.store_lexical] at hf
    rcases hs.locate_cases hr with ⟨hp, hl⟩ | ⟨scope, d, hl, hslot⟩
    · rw [hl] at hf
      cases hf
      simp [Failure.Excluded, InternalFault.Excluded, hp]
    · simp only [hl] at hf
      cases hw : s.heap.writeLocal scope d offset v with
      | ok h => rw [hw] at hf; cases hf
      | error g =>
        rw [hw] at hf
        cases hf
        obtain ⟨rfl, hno⟩ := Heap.writeLocal_error hw
        rintro ⟨hp, rfl⟩
        have hle := hno scope.cell rfl
        have hlt := (hslot hp).2 rfl
        omega

/-- A variable that is set leaves the places as they were. -/
theorem store {t : Site} {r : Variable} {v : Value} (ht : s.store r v = .ok t) :
    t.Equipped b := by
  obtain ⟨k, ts, hk, rfl⟩ := Site.store_changes ht
  refine ⟨hs.body, hs.frames, ⟨fun u hu => ?_, (hs.activation.grows hk).scope⟩⟩
  have hu := hs.activation.temps u hu
  cases r with
  | lexical name depth offset =>
    have hsame : ts = s.activation.temps := by
      rw [Site.store_lexical] at ht
      split at ht
      · next scope d _ =>
        cases hw : s.heap.writeLocal scope d offset v with
        | error f => rw [hw] at ht; cases ht
        | ok h => rw [hw] at ht; exact (congrArg (·.activation.temps) (Except.ok.inj ht)).symm
      · cases ht
    rw [hsame]
    exact hu
  | temp x =>
    simp only [Site.store] at ht
    rcases s.activation.temps.set_cases x v with ⟨-, hset⟩ | ⟨-, ⟨-, hset⟩ | ⟨-, ts', hset, hget⟩⟩
    · rw [hset] at ht; cases ht
    · rw [hset] at ht; cases ht
    · rw [hset] at ht
      have hts : ts' = ts := congrArg (·.activation.temps) (Except.ok.inj ht)
      rw [← hts, hget]
      split
      · rfl
      · exact hu

end Site.Equipped

/-! ### Instructions -/

/-- An instruction beside itself: what it raises is not excluded, if its body was checked. -/
def Body.beside (b : Body) : Correspondence where
  place v w := v = w ∧ (b.Checked → b.HasPlace v)
  label l k := l = k ∧ (b.Checked → (b.labelIndex? l).isSome)
  body := Eq
  value := Eq
  failure f g := f = g ∧ (b.Checked → ¬ f.Excluded b)
  frame := Eq
  invocation := Eq
  target := Eq
  site s t := s = t ∧ s.Equipped b
  after s t := s = t ∧ s.Equipped b

theorem Body.beside_equal (b : Body) : b.beside.Equal where
  value := rfl
  body := rfl
  frame := rfl
  invocation := rfl
  plain f hf := ⟨rfl, fun _ => hf.not_excluded b⟩
  heap h := by rw [h.1]
  context h := by rw [h.1]
  scope h := by rw [h.1]
  noFrame h hf := absurd hf h.2.frames
  setHeap k h hk := by
    obtain ⟨rfl, hs⟩ := h
    exact ⟨rfl, hs.grows hk⟩
  setContext c h hc := by
    obtain ⟨rfl, hs⟩ := h
    refine ⟨rfl, hs.body, fun hnil => hs.frames ?_, hs.activation⟩
    rw [hnil] at hc
    exact List.length_eq_zero_iff.1 hc.symm

theorem Site.captureScope_equipped {b : Body} {s : Site} (hs : s.Equipped b) :
    s.captureScope.2.Equipped b := by
  have hev := s.captureScope_evolves
  have htemps : s.captureScope.2.activation.temps = s.activation.temps := by
    unfold captureScope
    split <;> rfl
  refine ⟨hev.body.trans hs.body, ?_, ?_, ?_⟩
  · intro hnil
    have hdepth := hev.depth
    rw [hnil] at hdepth
    exact hs.frames (List.length_eq_zero_iff.1 hdepth.symm)
  · rw [htemps, hev.body]
    exact hs.activation.temps
  · rw [hev.body, hev.footing]
    exact (hs.activation.grows hev.heap).scope

namespace Body

variable (b : Body)

theorem beside_siteLaws : b.beside.SiteLaws where
  after h := h
  supply h := by rw [h.1]
  setSupply n h := by
    obtain ⟨rfl, hs⟩ := h
    exact ⟨rfl, hs.grows ⟨Nat.le_refl _, Nat.le_refl _, fun _ _ => rfl⟩⟩
  load {s s' v v'} h hv := by
    obtain ⟨rfl, hs⟩ := h
    obtain ⟨rfl, hv⟩ := hv
    cases hl : s.load v with
    | ok x => exact .ok rfl
    | error f => exact .error ⟨rfl, fun hb => hs.load_excluded (hv hb) hl⟩
  store {s s' r r' v v'} h hr hv := by
    obtain ⟨rfl, hs⟩ := h
    obtain ⟨rfl, hr⟩ := hr
    cases hv
    cases ht : s.store r v with
    | ok t => exact .ok ⟨rfl, hs.store ht⟩
    | error f => exact .error ⟨rfl, fun hb => hs.store_excluded (hr hb) ht⟩
  receiver h := by
    rw [h.1]
    rfl
  args n h := by
    rw [h.1]
    rfl
  kind h := by rw [h.1]
  goTo {s s' l l'} h hl := by
    obtain ⟨rfl, hs⟩ := h
    obtain ⟨rfl, hl⟩ := hl
    rw [hs.body]
    cases hindex : b.labelIndex? l with
    | some n =>
      have ha : Activation.Equipped s.heap { s.activation with pc := n } :=
        ⟨hs.activation.temps, hs.activation.scope⟩
      exact .inl ⟨n, n, rfl, rfl, rfl, hs.body, hs.frames, ha⟩
    | none =>
      refine .inr ⟨rfl, rfl, rfl, fun hb => ?_⟩
      have hsome := hl hb
      simp [hindex] at hsome

theorem beside_findsHome : b.beside.FindsHome := by
  rintro s s' ⟨rfl, hs⟩ -
  cases s.activation.footing.scope?.bind DynamicScope.returnTarget? with
  | none => exact .none
  | some c => exact .some rfl

theorem beside_lawful : b.beside.Lawful :=
  b.beside_equal.lawful b.beside_siteLaws b.beside_findsHome fun s s' h => by
    obtain ⟨rfl, hs⟩ := h
    exact ⟨rfl, rfl, s.captureScope_equipped hs⟩

end Body

/-- An instruction leaves the places there, and if the body was checked, it misses none. -/
theorem execute_equipped {b : Body} {i : Instr} (hi : i ∈ b.code) {s : Site} (hs : s.Equipped b) :
    (∃ o t, i.execute s = .ok o t ∧ t.Equipped b) ∨
      ∃ f t, i.execute s = .error f t ∧ (b.Checked → ¬ f.Excluded b) := by
  have hlike : i.Like b.beside.toCounterparts i := by
    refine InstrOf.like_self (fun _ => rfl) i (fun v hv => ⟨rfl, fun hb => ?_⟩) fun l hl =>
      ⟨rfl, fun hb => ?_⟩
    · exact hb.places i hi v hv
    · rcases hl with hl | hl
      · exact hb.targets i hi l hl
      · rw [Body.labelIndex?, List.findIdx?_isSome, List.any_eq_true]
        exact ⟨i, hi, by simp [hl]⟩
  have hsite : b.beside.site s s := ⟨rfl, hs⟩
  have h := b.beside_lawful.execute hlike hsite
  generalize i.execute s = x at h
  cases h with
  | ok h ht => exact .inl ⟨_, _, rfl, ht.1 ▸ ht.2⟩
  | error h ht => exact .inr ⟨_, _, rfl, h.2⟩

/-! ### Machines -/

/-- A caller waits with a variable that one of its instructions sets. -/
def Caller.Waits (c : Caller) : Prop :=
  ∃ i ∈ c.activation.body.code, i.result? = some c.result

structure Machine.Equipped (m : Machine) : Prop where
  running : ∀ a, m.control = .running a → a.Equipped m.heap
  callers : ∀ c ∈ m.callers, c.activation.Equipped m.heap ∧ c.Waits

theorem enter_equipped {limit : Nat} {h : Heap} {c : Context} {i : Invocation} {s : Site}
    (hs : enter limit h c i = .ok s) : h.Grows s.heap ∧ s.activation.Equipped s.heap := by
  have htemps : ∀ t, i.body.temps.holds t = true → ((Temps.init i.body.temps).get? t).isSome := by
    intro t ht
    simp [Temps.get?_init, ht]
  have hnew := h.slotsOf_newScope_self i.body.scope i.parent?
  rw [enter_eq_ok hs]
  rcases i.settleIn_cases h (c.withFrame i.frame) with
    ⟨-, -, hset⟩ | ⟨ha, parent, -, ⟨-, hset⟩ | ⟨-, hset⟩⟩ | ⟨ha, -, -, hset⟩
  · rw [hset]
    refine ⟨.newScope h i.body.scope i.parent?, htemps, fun _ => ⟨_, rfl, Nat.lt_succ_self _, ?_⟩⟩
    simp only [hnew, List.length_replicate]
    rfl
  all_goals
    rw [hset]
    refine ⟨.refl h, htemps, fun hp => ?_⟩
    have hp : i.body.pushesScope = true := hp
    simp [Invocation.allocates, hp] at ha

namespace Machine

/--
The failure that the next step raises, and the activation whose instruction raises it. A failure
that a callee hands on was raised before.
-/
def raises? (limit : Nat) (m : Machine) : Option (Activation × Failure) :=
  match m.control with
  | .running a =>
    match m.next? with
    | none => none
    | some (i, s) =>
      match i.execute s with
      | .error f _ => some (a, f)
      | .ok (.call _ inv) t =>
        match enter limit t.heap t.context inv with
        | .error f => some (a, f)
        | .ok _ => none
      | .ok _ _ => none
  | .leaving a r =>
    match a.settle r, m.callers with
    | .ok v, caller :: _ =>
      match Site.store ⟨m.heap, leave a.body m.context, caller.activation⟩ caller.result v with
      | .error f => some (caller.activation, f)
      | .ok _ => none
    | _, _ => none
  | .finished _ => none

variable {limit : Nat} {m : Machine}

theorem Equipped.site (h : m.Equipped) (hf : m.Framed) {i : Instr} {s : Site}
    (hnext : m.next? = some (i, s)) :
    i ∈ s.activation.body.code ∧ s.Equipped s.activation.body ∧ s.heap = m.heap := by
  obtain ⟨a, hcontrol, hi, rfl⟩ := next?_eq_some hnext
  have ha := h.running a hcontrol
  refine ⟨hi, ⟨rfl, ?_, ha.temps, ha.scope⟩, rfl⟩
  intro hnil
  simp only [Framed, active, hcontrol, List.length_cons] at hf
  simp only at hnil
  rw [hnil] at hf
  simp at hf

theorem Equipped.caller (h : m.Equipped) (hf : m.Framed) {a : Activation}
    {r : Except Unwind Value} (hcontrol : m.control = .leaving a r) {caller : Caller}
    {cs : List Caller} (hcs : m.callers = caller :: cs) :
    Site.Equipped caller.activation.body
      ⟨m.heap, leave a.body m.context, caller.activation⟩ := by
  refine ⟨rfl, ?_, (h.callers caller (by rw [hcs]; exact List.mem_cons_self)).1⟩
  simp only [Framed, active, hcontrol, hcs, List.length_cons, List.length_map] at hf
  have hpop : ∀ c : Context, 2 ≤ c.frames.length → c.popFrame.frames ≠ [] := by
    intro c hc hnil
    unfold Context.popFrame at hnil
    split at hnil
    · next hn => simp [hn] at hc
    · next f fs hfs =>
      rw [hfs, List.length_cons] at hc
      simp only at hnil
      rw [hnil] at hc
      simp at hc
  have hdepth : 2 ≤ m.context.frames.length := by omega
  refine hpop _ ?_
  split
  · unfold Context.popScope
    split <;> exact hdepth
  · exact hdepth

theorem Caller.equipped_grows {h k : Heap} (hk : h.Grows k) {cs : List Caller}
    (hcs : ∀ c ∈ cs, c.activation.Equipped h ∧ c.Waits) :
    ∀ c ∈ cs, c.activation.Equipped k ∧ c.Waits :=
  fun c hc => ⟨(hcs c hc).1.grows hk, (hcs c hc).2⟩

theorem Equipped.follow (h : m.Equipped) (hf : m.Framed) {i : Instr} {s : Site}
    (hnext : m.next? = some (i, s)) : (Machine.follow limit m.callers (i.execute s)).Equipped := by
  obtain ⟨hi, hs, hheap⟩ := h.site hf hnext
  have hev := execute_evolves i s
  have hcallers : ∀ {t : Site}, s.Evolves t → ∀ c ∈ m.callers,
      c.activation.Equipped t.heap ∧ c.Waits := fun ht =>
    Caller.equipped_grows (hheap ▸ ht.heap) h.callers
  rcases execute_equipped hi hs with ⟨o, t, he, ht⟩ | ⟨f, t, he, -⟩
  · rw [he] at hev ⊢
    cases o with
    | next => exact ⟨by rintro a ⟨⟩; exact ht.activation, hcallers hev⟩
    | complete v => exact ⟨by rintro a ⟨⟩, hcallers hev⟩
    | «return» target v => exact ⟨by rintro a ⟨⟩, hcallers hev⟩
    | call r inv =>
      simp only [Machine.follow]
      cases hc : enter limit t.heap t.context inv with
      | error f => exact ⟨by rintro a ⟨⟩, hcallers hev⟩
      | ok callee =>
        obtain ⟨hgrows, hcallee⟩ := enter_equipped hc
        refine ⟨by rintro a ⟨⟩; exact hcallee, ?_⟩
        intro c hc
        rcases List.mem_cons.1 hc with rfl | hc
        · have hbody : t.activation.body = s.activation.body := hev.body
          refine ⟨ht.activation.grows hgrows, i, by rw [hbody]; exact hi, ?_⟩
          exact (execute_call he).2
        · exact Caller.equipped_grows hgrows (hcallers hev) c hc
  · rw [he] at hev ⊢
    exact ⟨by rintro a ⟨⟩, hcallers hev⟩

theorem Equipped.step (h : m.Equipped) (hf : m.Framed) : (m.step limit).Equipped := by
  cases hcontrol : m.control with
  | finished r =>
    rw [Machine.step, hcontrol]
    exact h
  | running a =>
    cases hnext : m.next? with
    | some p =>
      rw [step_of_next hnext]
      exact h.follow hf hnext
    | none =>
      have hcode : a.body.code[a.pc]? = none := by
        simpa [next?, hcontrol] using hnext
      rw [Machine.step, hcontrol]
      simp only [hcode]
      exact ⟨by rintro b ⟨⟩, h.callers⟩
  | leaving a r =>
    have hstep : m.step limit = resume m.heap (leave a.body m.context) (a.settle r) m.callers := by
      rw [Machine.step, hcontrol]
    rw [hstep]
    generalize a.settle r = ending
    cases hcs : m.callers with
    | nil => exact ⟨by rintro b ⟨⟩, by rintro c ⟨⟩⟩
    | cons caller cs =>
      have hcallers : ∀ c ∈ cs, c.activation.Equipped m.heap ∧ c.Waits := fun c hc =>
        h.callers c (by rw [hcs]; exact List.mem_cons_of_mem _ hc)
      have hsite := h.caller hf hcontrol hcs
      cases ending with
      | error u => exact ⟨by rintro b ⟨⟩, hcallers⟩
      | ok v =>
        rw [resume]
        cases ht : Site.store ⟨m.heap, leave a.body m.context, caller.activation⟩
          caller.result v with
        | error f => exact ⟨by rintro b ⟨⟩, hcallers⟩
        | ok t =>
          obtain ⟨k, ts, hk, rfl⟩ := Site.store_changes ht
          refine ⟨?_, Caller.equipped_grows hk hcallers⟩
          rintro b ⟨⟩
          exact (hsite.store ht).activation

/-- What a step raises, the checks of its body do not exclude. -/
theorem Equipped.raises (h : m.Equipped) (hf : m.Framed) {a : Activation} {f : Failure}
    (hr : m.raises? limit = some (a, f)) (ha : a.body.Checked) : ¬ f.Excluded a.body := by
  unfold raises? at hr
  split at hr
  · next b hcontrol =>
    cases hnext : m.next? with
    | none => rw [hnext] at hr; cases hr
    | some p =>
      obtain ⟨i, s⟩ := p
      obtain ⟨hi, hs, -⟩ := h.site hf hnext
      obtain ⟨b', hcontrol', -, rfl⟩ := next?_eq_some hnext
      rw [hcontrol] at hcontrol'
      cases hcontrol'
      rw [hnext] at hr
      simp only at hr
      rcases execute_equipped hi hs with ⟨o, t, he, -⟩ | ⟨g, t, he, hg⟩
      · rw [he] at hr
        split at hr
        · next he' => cases he'
        · next inv t' he' =>
          cases he'
          split at hr
          · next g hg =>
            cases hr
            rw [enter_eq] at hg
            split at hg
            · cases hg
              exact id
            · cases hg
          · cases hr
        · cases hr
      · rw [he] at hr
        cases hr
        exact hg ha
  · next b r hcontrol =>
    split at hr
    · next v caller cs _ hcs =>
      split at hr
      · next g hg =>
        cases hr
        obtain ⟨-, i, hi, hresult⟩ := h.callers caller (by rw [hcs]; exact List.mem_cons_self)
        exact (h.caller hf hcontrol hcs).store_excluded
          (ha.places i hi _ (by simp [InstrOf.usedVariables, hresult])) hg
      · cases hr
    · cases hr
  · cases hr

/-! ### Where failures come from -/

/-- A failure that an activation ends with was raised, or handed on by the one above it. -/
theorem raised_of_leaving {a : Activation} {f : Failure}
    (h : (m.step limit).control = .leaving a (.error (.failure f))) :
    (∃ b, m.raises? limit = some (b, f)) ∨ ∃ b, m.control = .leaving b (.error (.failure f)) := by
  cases hcontrol : m.control with
  | finished r =>
    rw [Machine.step, hcontrol] at h
    rw [hcontrol] at h
    cases h
  | running b =>
    refine .inl ⟨b, ?_⟩
    cases hnext : m.next? with
    | none =>
      have hcode : b.body.code[b.pc]? = none := by simpa [next?, hcontrol] using hnext
      rw [Machine.step, hcontrol] at h
      simp only [hcode] at h
      cases h
    | some p =>
      rw [step_of_next hnext] at h
      simp only [raises?, hcontrol, hnext]
      cases he : p.1.execute p.2 with
      | error g t =>
        rw [he] at h
        cases h
        rfl
      | ok o t =>
        rw [he] at h
        cases o with
        | call r inv =>
          simp only [Machine.follow] at h
          cases hc : enter limit t.heap t.context inv with
          | error g =>
            rw [hc] at h
            cases h
            simp only [hc]
          | ok callee => rw [hc] at h; cases h
        | _ => cases h
  | leaving b r =>
    have hstep : m.step limit = resume m.heap (leave b.body m.context) (b.settle r) m.callers := by
      rw [Machine.step, hcontrol]
    rw [hstep] at h
    simp only [raises?, hcontrol]
    cases hcs : m.callers with
    | nil => rw [hcs] at h; cases h
    | cons caller cs =>
      rw [hcs, resume.eq_def] at h
      simp only at h
      cases hs : b.settle r with
      | error u =>
        refine .inr ⟨b, ?_⟩
        rw [hs] at h
        cases h
        rcases r with (g | ⟨target, v⟩) | v
        · cases hs
          rfl
        · simp only [Activation.settle] at hs
          split at hs <;> cases hs
        · cases hs
      | ok v =>
        rw [hs] at h
        simp only at h ⊢
        cases ht : Site.store ⟨m.heap, leave b.body m.context, caller.activation⟩
          caller.result v with
        | ok t => rw [ht] at h; cases h
        | error g =>
          rw [ht] at h
          cases h
          exact .inl ⟨_, rfl⟩

/-- A run ends with a failure that was raised on the way, or with a return that nobody took. -/
theorem raised_of_finished {f : Failure} {n : Nat} (hm : ∀ r, m.control ≠ .finished r)
    (hl : ∀ a r, m.control ≠ .leaving a r)
    (h : (m.after limit n).control = .finished (.error f)) :
    (∃ k a, (m.after limit k).raises? limit = some (a, f)) ∨ f = .jump .unexpectedReturn := by
  have hleaving : ∀ k a, (m.after limit k).control = .leaving a (.error (.failure f)) →
      ∃ k a, (m.after limit k).raises? limit = some (a, f) := by
    intro k
    induction k with
    | zero => exact fun a ha => absurd ha (hl a _)
    | succ k ih =>
      intro a ha
      rw [after_succ] at ha
      rcases raised_of_leaving ha with ⟨b, hb⟩ | ⟨b, hb⟩
      · exact ⟨k, b, hb⟩
      · exact ih b hb
  induction n with
  | zero => exact absurd h (hm _)
  | succ n ih =>
    rw [after_succ] at h
    cases hcontrol : (m.after limit n).control with
    | finished r =>
      rw [Machine.step, hcontrol] at h
      exact ih h
    | running a =>
      obtain ⟨pc, ⟨-, t, -, hr | ⟨r, hr⟩⟩ | ⟨inv, t, callee, r, -, -, -, hr⟩⟩ :=
        step_running limit hcontrol
      all_goals
        rw [hr] at h
        cases h
    | leaving a r =>
      rw [Machine.step, hcontrol] at h
      rcases resume_cases (m.after limit n).heap (leave a.body (m.after limit n).context)
        (a.settle r) (m.after limit n).callers
        with ⟨hcs, hr⟩ | ⟨caller, cs, hcs, t, -, hr | ⟨x, hr⟩⟩
      · simp only [hcs] at h hr
        rw [hr] at h
        rcases r with (g | ⟨target, v⟩) | v
        · cases h
          exact .inl (hleaving n a hcontrol)
        · simp only [Activation.settle] at h
          split at h
          · cases h
          · cases h
            exact .inr rfl
        · cases h
      all_goals
        simp only at h
        rw [hr] at h
        cases h

end Machine

/-! ### Runs -/

namespace Entry

variable (limit : Nat) (h : Heap) (c : Context) (e : Entry) (n : Nat)

theorem start_callers : (e.start limit h c).callers = [] := by
  rw [start_eq]
  rcases e.reply h c with f | ⟨v | i, k⟩
  · rfl
  · rfl
  · simp only [Machine.awaiting, Machine.start]
    cases enter limit k c i <;> rfl

/-- An entry is refused for want of arguments, a method or a frame, never for want of a place. -/
theorem start_refused {f : Failure} (hf : (e.start limit h c).control = .finished (.error f)) :
    f.IsPlain := by
  have hreply : ∀ g, e.reply h c = .error g → g.IsPlain := by
    intro g hg
    cases e with
    | send receiver name args => exact Heap.dispatch_isPlain hg
    | method m receiver name args block? =>
      rw [reply] at hg
      cases hi : m.invocation c receiver name args block? with
      | error g' =>
        rw [hi] at hg
        cases hg
        exact Method.invocation_isPlain hi
      | ok i => rw [hi] at hg; cases hg
    | _ => cases hg
  rw [start_eq] at hf
  rcases hr : e.reply h c with g | ⟨v | i, k⟩
  · rw [hr] at hf
    cases hf
    exact hreply f hr
  · rw [hr] at hf
    cases hf
  · rw [hr] at hf
    simp only [Machine.awaiting, Machine.start, enter_eq] at hf
    split at hf
    · next hs =>
      split at hs <;> cases hs
      cases hf
    · next hs =>
      split at hs <;> cases hs
      cases hf
      exact Failure.isPlain_of_ne (by simp)

theorem after_equipped : ((e.start limit h c).after limit n).Equipped ∧
    ((e.start limit h c).after limit n).Framed := by
  have hframed := e.after_framed limit h c
  refine ⟨?_, hframed n⟩
  induction n with
  | zero =>
    have hcallers : ∀ x ∈ (e.start limit h c).callers, x.activation.Equipped
        (e.start limit h c).heap ∧ x.Waits := by simp [e.start_callers]
    rw [Machine.after_zero]
    rcases e.start_cases limit h c with ⟨-, -, r, hr⟩ | ⟨i, k, s, -, -, hs, hstart⟩
    · exact ⟨by simp [hr], hcallers⟩
    · refine ⟨fun a ha => ?_, hcallers⟩
      rw [hstart] at ha ⊢
      cases ha
      exact (enter_equipped hs).2
  | succ n ih =>
    rw [Machine.after_succ]
    exact ih.step (hframed n)

variable {limit h c e}

theorem after_vetted (hh : h.Vetted builtCode) (hc : c.Vetted builtCode) (he : e.Vetted builtCode)
    (n : Nat) : ((e.start limit h c).after limit n).Vetted builtCode := by
  induction n with
  | zero => exact e.start_vetted limit hh hc he
  | succ n ih =>
    rw [Machine.after_succ]
    exact step_vetted builtCode_closed limit ih fun _ _ _ _ => trivial

end Entry

/-- An activation that raises a failure is on the stacks. -/
theorem Machine.Vetted.raises {w : Vetting} {limit : Nat} {m : Machine} (hm : m.Vetted w)
    {a : Activation} {f : Failure} (hr : m.raises? limit = some (a, f)) : w.body a.body := by
  have hcontrol := hm.control
  unfold raises? at hr
  split at hr
  · next b hb =>
    rw [hb] at hcontrol
    repeat' split at hr
    all_goals cases hr
    all_goals exact hcontrol.body
  · next b r hb =>
    split at hr
    · next v caller cs _ hcs =>
      split at hr
      · cases hr
        exact (hm.callers caller (by rw [hcs]; exact List.mem_cons_self)).body
      · cases hr
    · cases hr
  · cases hr

/--
No instruction of a body that was accepted, in whatever way, raises a failure that the checks
exclude, in whatever run: there is a slot for every temporary in use, a destination for every jump,
and a frame. If the body has a scope of its own, every access to a local of its own succeeds.
-/
theorem accepted_never_raises {b : Body} (hb : b.Accepted) (limit : Nat) (h : Heap) (c : Context)
    (e : Entry) (n : Nat) :
    (∀ a f, ((e.start limit h c).after limit n).raises? limit = some (a, f) → a.body = b →
      ¬ f.Excluded b) ∧
    (b.pushesScope = true → ∀ i s, ((e.start limit h c).after limit n).next? = some (i, s) →
      s.activation.body = b → ∀ name offset, .lexical name 0 offset ∈ i.usedVariables →
        (∃ v, s.load (.lexical name 0 offset) = .ok v) ∧
          ∀ v, ∃ t, s.store (.lexical name 0 offset) v = .ok t) := by
  obtain ⟨hequipped, hframed⟩ := e.after_equipped limit h c n
  refine ⟨fun a f hr ha => ?_, fun hp i s hnext hs name offset hv => ?_⟩
  · subst ha
    exact hequipped.raises hframed hr hb.checked
  · subst hs
    obtain ⟨hi, hsite, -⟩ := hequipped.site hframed hnext
    exact hsite.local_accessible hp (hb.checked.places i hi _ hv)

/-- A script that sets a local and reads it into a temporary that takes no fixnums. -/
def misusingScript : Draft where
  name := "<main>"
  scope := ⟨⟨0, .script, ["x"]⟩, []⟩
  code := [
    .copy (.lexical "x" 0 0) (.fixnum 7),
    .copy (.temp ⟨.boolean, 0⟩) (.var (.lexical "x" 0 0))]

theorem accepted_never_raises_misusingScript :
    let b := misusingScript.body 0 { boolean := 1 }
    b.Accepted ∧ b.pushesScope = true ∧
      (∃ a f, ((Entry.script b).start 8 .initial {} |>.after 8 1).raises? 8 = some (a, f) ∧
        a.body = b ∧ ¬ f.Excluded b) ∧
      ∃ i s, ((Entry.script b).start 8 .initial {} |>.after 8 1).next? = some (i, s) ∧
        ∃ v, s.load (.lexical "x" 0 0) = .ok v := by
  intro b
  have hbuilt : misusingScript.build 0 = .ok b := rfl
  have hb : b.Accepted := .built hbuilt
  have h := accepted_never_raises hb 8 .initial {} (.script b) 1
  have hraises : (((Entry.script b).start 8 .initial {} |>.after 8 1).raises? 8).map
      (·.1.body) = some b := rfl
  obtain ⟨⟨a, f⟩, hf, ha⟩ := Option.map_eq_some_iff.1 hraises
  have hnext : ((Entry.script b).start 8 .initial {} |>.after 8 1).next?.map
      (fun p => (p.1, p.2.activation.body)) =
        some (.copy (.temp ⟨.boolean, 0⟩) (.var (.lexical "x" 0 0)), b) := rfl
  obtain ⟨⟨i, s⟩, hi, hs⟩ := Option.map_eq_some_iff.1 hnext
  obtain ⟨rfl, hbody⟩ := Prod.mk.inj hs
  refine ⟨hb, rfl, ⟨a, f, hf, ha, h.1 a f hf ha⟩, _, s, hi, ?_⟩
  exact (h.2 rfl _ s hi hbody "x" 0 (by simp [InstrOf.usedVariables, InstrOf.result?,
    InstrOf.operands, OperandOf.reads])).1

/-- Where all code was built, no run ends for want of a temporary, a destination or a frame. -/
theorem built_run_finds_places {limit fuel : Nat} {h : Heap} {c : Context} {e : Entry} {r : Result}
    (hh : h.Vetted builtCode) (hc : c.Vetted builtCode) (he : e.Vetted builtCode)
    (hr : (e.start limit h c).run limit fuel = some r) :
    ∀ fault, r.outcome = .error (.internal fault) →
      (∀ t, fault ≠ .outsideTemps t) ∧ (∀ l, fault ≠ .undefinedJump l) ∧ fault ≠ .noFrame := by
  intro fault hfault
  suffices hexcluded : (Failure.internal fault).IsPlain ∨
      ∃ b : Body, ¬ (Failure.internal fault).Excluded b by
    rcases hexcluded with hplain | ⟨b, hb⟩
    · have hfault := hplain fault rfl
      refine ⟨?_, ?_, ?_⟩ <;> intros <;> rintro rfl <;> simp [InternalFault.isMissing] at hfault
    · refine ⟨?_, ?_, ?_⟩ <;> intros <;> rintro rfl <;> exact hb trivial
  rw [Machine.run_eq_after] at hr
  obtain ⟨hcontrol, -, -⟩ := Machine.control_of_result hr
  rw [hfault] at hcontrol
  rcases e.start_cases limit h c with ⟨-, -, o, ho⟩ | ⟨i, k, s, -, -, -, hstart⟩
  · have hstart : ∃ r, (e.start limit h c).result? = some r := by
      rw [Machine.result?, ho]
      exact ⟨_, rfl⟩
    obtain ⟨r', hr'⟩ := hstart
    rw [Machine.after_of_result hr'] at hcontrol
    exact .inl (e.start_refused limit h c hcontrol)
  · rcases Machine.raised_of_finished (by simp [hstart, Machine.runningAt])
      (by simp [hstart, Machine.runningAt]) hcontrol with ⟨k, a, hraise⟩ | hjump
    · obtain ⟨hequipped, hframed⟩ := e.after_equipped limit h c k
      have hbuilt : a.body.Built := (e.after_vetted hh hc he k).raises hraise
      obtain ⟨d, id, hd⟩ := hbuilt a.body List.mem_cons_self
      exact .inr ⟨a.body, hequipped.raises hframed hraise (Body.Accepted.built hd).checked⟩
    · cases hjump

end ObjectIr
