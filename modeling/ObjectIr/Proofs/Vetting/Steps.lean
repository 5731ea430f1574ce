import ObjectIr.Proofs.Runs
import ObjectIr.Proofs.Vetting.Reach

/-!
# Steps stay within reach

An instruction reads vetted values at a vetted site, and what it stores, calls and answers is
vetted (`execute_vetted`). Only one instruction makes a block; provided that this block is admitted,
a step of a vetted machine leads to a vetted machine (`step_vetted`).
-/

namespace ObjectIr

variable {w : Vetting}

/-! ### Sites -/

namespace Site.Vetted

variable {s : Site} (hs : s.Vetted w)

include hs

theorem load {r : Variable} {v : Value} (hv : s.load r = .ok v) : v.Vetted w := by
  rcases Site.load_cases hv with ⟨x, hx⟩ | ⟨scope, depth, offset, hr⟩
  · exact hs.activation.temps x v hx
  · exact hs.heap.readLocal hr

theorem store {t : Site} {r : Variable} {v : Value} (hv : v.Vetted w) (ht : s.store r v = .ok t) :
    t.Vetted w := by
  rcases Site.store_cases ht with ⟨x, ts, -, hts, rfl⟩ | ⟨scope, depth, offset, k, hk, rfl⟩
  · refine ⟨hs.heap, hs.context, { hs.activation with temps := fun u y hy => ?_ }⟩
    simp only [hts] at hy
    split at hy
    · cases hy
      exact hv
    · exact hs.activation.temps u y hy
  · exact { hs with heap := hs.heap.writeLocal hv hk }

theorem setVisibility {v : Visibility} {c : Context} (hc : s.context.setVisibility? v = some c) :
    c.Vetted w := by
  obtain ⟨f, fs, hf, rfl⟩ := Context.setVisibility?_eq_some hc
  have hframes := hs.context
  rw [Context.Vetted, hf, List.forall_mem_cons] at hframes
  exact List.forall_mem_cons.2 ⟨⟨hframes.1.receiver, hframes.1.block?⟩, hframes.2⟩

theorem captureScope : s.captureScope.2.Vetted w := by
  rcases s.captureScope_cases with h | ⟨parent, -, -, h⟩ <;> rw [h]
  · exact hs
  · exact ⟨hs.heap.newScope s.activation.body.scope (some parent), hs.context,
      { hs.activation with }⟩

end Site.Vetted

/-! ### Instructions -/

namespace Vetting

/-- To be vetted, all along. -/
def invariant (w : Vetting) : Invariant where
  site := Site.Vetted w
  value := Value.Vetted w
  frame := Frame.Vetted w
  outcome o t := o.Vetted w ∧ t.Vetted w
  failure _ := Site.Vetted w

theorem invariant_reads (w : Vetting) : w.invariant.Reads where
  supply n hs := { hs with heap := hs.heap.supply n }
  quiet hs _ := hs
  atomic {v} hv := by cases v <;> first | exact trivial | cases hv
  array _ _ hvs := Value.vettedAll_iff.2 hvs
  load hs hv := hs.load hv
  receiver hs := hs.activation.receiver
  argument hs := hs.activation.args
  scopeModule _ _ := trivial
  frame hs hf := hs.context _ (Site.frame_mem hf)
  block hf hb := hf.block? _ hb
  constant _ _ _ hs hv := hs.heap.searchConstant hv

theorem invariant_lawful {i : Instr} (hi : ∀ b, i.body? = some b → w.body b) :
    w.invariant.Lawful i where
  toReads := w.invariant_reads
  next hs := ⟨trivial, hs⟩
  complete hs hv := ⟨hv, hs⟩
  returns _ hs hv := ⟨hv, hs⟩
  raise _ _ hs _ := hs
  store _ hs hv ht := ⟨trivial, hs.store hv ht⟩
  goTo _ hs _ := ⟨trivial, { hs with activation := { hs.activation with } }⟩
  dispatch {s k} := fun _ hs hv hvs hb hk => by
    have hq := hs.heap.dispatch hv hvs hb hk
    have ht : Site.Vetted w { s with heap := k } :=
      { hs with heap := hs.heap.of_registers (.dispatch hk) }
    refine Invariant.ends_await (fun _ _ => ht) ?_ ?_
    · rintro v rfl t hstore
      exact ⟨trivial, ht.store hq hstore⟩
    · rintro j rfl
      exact ⟨hq, ht⟩
  define := by
    rintro s k m r body container superclass v x? rfl hs - - hk
    have hm : (Value.method m).Vetted w := by
      rw [Value.Vetted, Heap.define_body hk]
      exact hi body rfl
    have ht : Site.Vetted w { s with heap := k } :=
      { hs with heap := hs.heap.of_registers (.define hk) }
    exact Invariant.ends_store (fun _ _ => ht) fun t hstore => ⟨trivial, ht.store hm hstore⟩
  defineMethod := by
    rintro s body f name rfl hs -
    exact ⟨trivial, { hs with heap := (hs.heap.of_registers
      (.newMethod s.heap body f.visibility f.module)).addMethod f.module name (hi body rfl) }⟩
  setVisibility _ hs hc := ⟨trivial, { hs with context := hs.setVisibility hc }⟩
  putConst _ hs _ hv := ⟨trivial, { hs with heap := hs.heap.setConstant _ _ hv }⟩
  yield _ hs hb hvs := ⟨BlockOf.invocation_vetted hvs hb, hs⟩
  processModuleBody {s m} := fun _ hs hm hj => by
    have hmodule : (Value.module m.module).Vetted w := trivial
    exact ⟨Method.invocation_vetted hmodule (by rintro v ⟨⟩) (by rintro b ⟨⟩) hm hj, hs⟩

end Vetting

/-- The block that an instruction makes at a site: its number, body and captured scope. -/
def InstrOf.making? (i : Instr) (s : Site) : Option (Nat × Body × Option DynamicScope) :=
  match i, s.frame with
  | .buildClosure _ b, .ok _ => some (s.heap.next.blocks, b, s.captureScope.1)
  | _, _ => none

/-- An instruction that waits makes no block. -/
theorem InstrOf.making?_of_waits {i : Instr} (hi : i.waits = true) (s : Site) :
    i.making? s = none := by
  cases i <;> first | rfl | cases hi

/-- An instruction keeps within reach, provided that the block it makes is admitted. -/
theorem execute_vetted {i : Instr} (hi : ∀ b, i.body? = some b → w.body b) {s : Site}
    (hs : s.Vetted w)
    (hnew : ∀ id b scope?, i.making? s = some (id, b, scope?) → w.block id b scope?) :
    w.invariant.Ends (i.execute s) := by
  refine (Vetting.invariant_lawful hi).execute hs ?_
  rintro r body f rfl hf
  have hcaptured := hs.captureScope
  have hblock : w.block (s.newBlock body f).1.id body s.captureScope.1 := by
    rw [s.newBlock_id]
    exact hnew _ _ _ (by simp only [InstrOf.making?, hf])
  exact ⟨⟨hi body rfl, hblock, hcaptured.activation.receiver⟩,
    ⟨hcaptured.heap.newBlock body s.captureScope.2.activation.receiver s.captureScope.1 f.module
      f.visibility, hcaptured.context, hcaptured.activation⟩⟩

/-! ### Machines -/

theorem enter_vetted {limit : Nat} {h : Heap} (hh : h.Vetted w) {c : Context} (hc : c.Vetted w)
    {i : Invocation} (hi : i.Vetted w) {s : Site} (hs : enter limit h c i = .ok s) :
    s.Vetted w := by
  rw [enter_eq_ok hs]
  have hinit : ∀ t v, (Temps.init i.body.temps).get? t = some v → v.Vetted w := by
    intro t v hv
    rw [Temps.get?_init] at hv
    split at hv
    · cases hv
      cases t.kind <;> exact trivial
    · cases hv
  have hframes : (c.withFrame i.frame).Vetted w :=
    fun f hf => (List.mem_cons.1 hf).elim (fun hf => hf ▸ hi.frame) (hc f)
  have hactivation : ∀ footing, (i.activation footing).Vetted w := fun footing =>
    ⟨hi.body, hinit, hi.args, hi.frame.receiver, hi.answer?⟩
  rcases i.settleIn_cases h (c.withFrame i.frame) with
    ⟨-, -, hset⟩ | ⟨-, parent, -, ⟨-, hset⟩ | ⟨-, hset⟩⟩ | ⟨-, -, -, hset⟩ <;> rw [hset]
  · exact ⟨hh.newScope i.body.scope i.parent?, hframes, hactivation _⟩
  · exact ⟨hh, hframes, hactivation _⟩
  · exact ⟨hh, hframes, hactivation _⟩
  · exact ⟨hh, hframes, hactivation _⟩

theorem leave_vetted (b : Body) {c : Context} (hc : c.Vetted w) : (leave b c).Vetted w := by
  intro f hf
  rw [leave_frames] at hf
  exact hc f (List.mem_of_mem_tail hf)

theorem settle_vetted {a : Activation} (ha : a.Vetted w) {r : Except Unwind Value}
    (hr : Ending.Vetted w r) : Ending.Vetted w (a.settle r) := by
  have hresult : ∀ {v : Value}, v.Vetted w → (a.result v).Vetted w := by
    intro v hv
    rw [Activation.result]
    cases h : a.answer? with
    | none => exact hv
    | some x => exact ha.answer? x h
  rcases r with (f | ⟨target, v⟩) | v
  · exact trivial
  · rw [Activation.settle]
    split
    · exact hresult hr
    · exact hr
  · exact hresult hr

theorem resume_vetted {h : Heap} (hh : h.Vetted w) {c : Context} (hc : c.Vetted w)
    {r : Except Unwind Value} (hr : Ending.Vetted w r) {cs : List Caller}
    (hcs : ∀ c ∈ cs, c.activation.Vetted w) : (Machine.resume h c r cs).Vetted w := by
  cases cs with
  | nil => exact ⟨hh, hc, trivial, by rintro c ⟨⟩⟩
  | cons caller cs =>
    obtain ⟨hcaller, hcs⟩ := List.forall_mem_cons.1 hcs
    have hs : Site.Vetted w ⟨h, c, caller.activation⟩ := ⟨hh, hc, hcaller⟩
    cases r with
    | error u => exact ⟨hh, hc, ⟨hcaller, hr⟩, hcs⟩
    | ok v =>
      simp only [Machine.resume]
      split
      · next t ht =>
        have ht := hs.store hr ht
        exact ⟨ht.heap, ht.context, ht.activation, hcs⟩
      · exact ⟨hh, hc, ⟨hcaller, trivial⟩, hcs⟩

def Machine.making? (m : Machine) : Option (Nat × Body × Option DynamicScope) :=
  m.next?.bind fun (i, s) => i.making? s

theorem Machine.site_vetted {m : Machine} (hm : m.Vetted w) {i : Instr} {s : Site}
    (h : m.next? = some (i, s)) : s.Vetted w ∧ i ∈ s.activation.body.code := by
  obtain ⟨a, ha, hi, rfl⟩ := next?_eq_some h
  have hcontrol := hm.control
  rw [ha] at hcontrol
  have ha : a.Vetted w := hcontrol
  exact ⟨⟨hm.heap, hm.context, { ha with }⟩, hi⟩

theorem follow_vetted (limit : Nat) {cs : List Caller} (hcs : ∀ c ∈ cs, c.activation.Vetted w)
    {r : EStateM.Result Failure Site Outcome} (hr : w.invariant.Ends r) :
    (Machine.follow limit cs r).Vetted w := by
  cases r with
  | error f t => exact ⟨hr.heap, hr.context, ⟨hr.activation, trivial⟩, hcs⟩
  | ok o t =>
    obtain ⟨ho, ht⟩ := hr
    cases o with
    | next => exact ⟨ht.heap, ht.context, ht.activation, hcs⟩
    | complete v => exact ⟨ht.heap, ht.context, ⟨ht.activation, ho⟩, hcs⟩
    | «return» target v => exact ⟨ht.heap, ht.context, ⟨ht.activation, ho⟩, hcs⟩
    | call r j =>
      simp only [Machine.follow]
      split
      · next u hu =>
        have hu := enter_vetted ht.heap ht.context ho hu
        exact ⟨hu.heap, hu.context, hu.activation, List.forall_mem_cons.2 ⟨ht.activation, hcs⟩⟩
      · exact ⟨ht.heap, ht.context, ⟨ht.activation, trivial⟩, hcs⟩

theorem step_vetted (hw : w.Closed) (limit : Nat) {m : Machine} (hm : m.Vetted w)
    (hnew : ∀ id b scope?, m.making? = some (id, b, scope?) → w.block id b scope?) :
    (m.step limit).Vetted w := by
  cases hnext : m.next? with
  | some p =>
    obtain ⟨i, s⟩ := p
    obtain ⟨hs, hi⟩ := Machine.site_vetted hm hnext
    rw [Machine.step_of_next hnext]
    refine follow_vetted limit hm.callers (execute_vetted (fun b hb => ?_) hs ?_)
    · exact hw s.activation.body hs.activation.body i hi b hb
    · rw [Machine.making?, hnext] at hnew
      exact hnew
  | none =>
    obtain ⟨heap, context, control, callers⟩ := m
    obtain ⟨hh, hc, hcontrol, hcallers⟩ := hm
    cases control with
    | finished r => exact ⟨hh, hc, trivial, hcallers⟩
    | leaving a r =>
      exact resume_vetted hh (leave_vetted _ hc) (settle_vetted hcontrol.1 hcontrol.2) hcallers
    | running a =>
      have hi : a.body.code[a.pc]? = none := Option.map_eq_none_iff.1 hnext
      simp only [Machine.step, hi]
      exact ⟨hh, hc, ⟨hcontrol, trivial⟩, hcallers⟩

theorem entering_vetted (hw : w.Closed) {limit : Nat} {m : Machine} (hm : m.Vetted w)
    {inv : Invocation} (h : m.entering? limit = some inv) : inv.Vetted w := by
  rw [Machine.entering?] at h
  cases hnext : m.next? with
  | none => rw [hnext] at h; cases h
  | some p =>
    obtain ⟨i, s⟩ := p
    obtain ⟨hs, hi⟩ := Machine.site_vetted hm hnext
    rw [hnext] at h
    simp only at h
    split at h
    · next r inv' t he =>
      have hresult := execute_vetted (hw s.activation.body hs.activation.body i hi) hs
        (by rw [InstrOf.making?_of_waits (execute_call he).1]; rintro id b c ⟨⟩)
      rw [he] at hresult
      split at h
      · cases h
        exact hresult.1
      · cases h
    · cases h

end ObjectIr
