import ObjectIr.Proofs.Entries
import ObjectIr.Proofs.Provenance.Reach

/-!
# Steps reach what is kept

An instruction gets at no block and no method but those that its site holds (`execute_kept`). A
block that it makes has to be kept as well; then a step of a machine leads to a machine that is kept
(`step_kept`).
-/

namespace ObjectIr

variable {w : Keeping}

/-! ### Sites -/

namespace Site.Kept

variable {s t : Site} (hs : s.Kept w)

include hs

theorem load {r : Variable} {v : Value} (hv : s.load r = .ok v) : v.Kept w := by
  rcases Site.load_cases hv with ⟨x, hx⟩ | ⟨scope, depth, offset, hr⟩
  · exact hs.activation.temps x v hx
  · exact hs.heap.readLocal hr

theorem store {r : Variable} {v : Value} (hv : v.Kept w) (ht : s.store r v = .ok t) :
    t.Kept w := by
  rcases Site.store_cases ht with ⟨x, ts, -, hts, rfl⟩ | ⟨scope, depth, offset, k, hk, rfl⟩
  · refine ⟨hs.heap, hs.context, { hs.activation with temps := fun u y hy => ?_ }⟩
    simp only [hts] at hy
    split at hy
    · cases hy
      exact hv
    · exact hs.activation.temps u y hy
  · exact { hs with heap := hs.heap.writeLocal hv hk }

theorem setVisibility {v : Visibility} {c : Context} (hc : s.context.setVisibility? v = some c) :
    c.Kept w := by
  obtain ⟨f, fs, hf, rfl⟩ := Context.setVisibility?_eq_some hc
  have hframes := hs.context
  rw [Context.Kept, hf, List.forall_mem_cons] at hframes
  exact List.forall_mem_cons.2 ⟨⟨hframes.1.receiver, hframes.1.block?⟩, hframes.2⟩

theorem captureScope : s.captureScope.2.Kept w := by
  rcases s.captureScope_cases with h | ⟨parent, -, -, h⟩ <;> rw [h]
  · exact hs
  · exact ⟨hs.heap.newScope s.activation.body.scope (some parent), hs.context,
      { hs.activation with }⟩

end Site.Kept

/-! ### Instructions -/

namespace Keeping

/-- To hold what is kept, all along. -/
def invariant (w : Keeping) : Invariant where
  site := Site.Kept w
  value := Value.Kept w
  frame := Frame.Kept w
  outcome o t := o.Kept w ∧ t.Kept w
  failure _ := Site.Kept w

theorem invariant_reads (w : Keeping) : w.invariant.Reads where
  supply n hs := { hs with heap := hs.heap.supply _ }
  quiet hs _ := hs
  atomic {v} hv := by cases v <;> first | exact trivial | cases hv
  array _ _ hvs := Value.keptAll_iff.2 hvs
  load hs hv := hs.load hv
  receiver hs := hs.activation.receiver
  argument hs := hs.activation.args
  scopeModule _ _ := trivial
  frame hs hf := hs.context _ (Site.frame_mem hf)
  block hf hb := hf.block? _ hb
  constant _ _ _ hs hv := hs.heap.searchConstant hv

theorem invariant_lawful (w : Keeping) (i : Instr) : w.invariant.Lawful i where
  toReads := w.invariant_reads
  next hs := ⟨trivial, hs⟩
  complete hs hv := ⟨hv, hs⟩
  returns _ hs hv := ⟨hv, hs⟩
  raise _ _ hs _ := hs
  store _ hs hv ht := ⟨trivial, hs.store hv ht⟩
  goTo _ hs _ := ⟨trivial, { hs with activation := { hs.activation with } }⟩
  dispatch {s k} := fun _ hs hv hvs hb hk => by
    have hq := Heap.dispatch_kept hv hvs hb hk
    have ht : Site.Kept w { s with heap := k } :=
      { hs with heap := hs.heap.of_registers (.dispatch hk) }
    refine Invariant.ends_await (fun _ _ => ht) ?_ ?_
    · rintro v rfl t hstore
      exact ⟨trivial, ht.store hq hstore⟩
    · rintro j rfl
      exact ⟨hq, ht⟩
  define {s k m} := fun _ hs _ _ hk => by
    have hm : (Value.method m).Kept w := w.method_of_public _ (Heap.define_public hk).1
    have ht : Site.Kept w { s with heap := k } :=
      { hs with heap := hs.heap.of_registers (.define hk) }
    exact Invariant.ends_store (fun _ _ => ht) fun t hstore => ⟨trivial, ht.store hm hstore⟩
  -- the method that is added need not be kept: no value is it
  defineMethod {s body f name} := fun _ hs _ =>
    ⟨trivial, { hs with heap := (hs.heap.supply _).addMethod f.module name _ }⟩
  setVisibility _ hs hc := ⟨trivial, { hs with context := hs.setVisibility hc }⟩
  putConst _ hs _ hv := ⟨trivial, { hs with heap := hs.heap.setConstant _ _ hv }⟩
  yield _ hs hb hvs := ⟨BlockOf.invocation_kept hvs hb, hs⟩
  processModuleBody {s m} := fun _ hs _ hj => by
    have hmodule : (Value.module m.module).Kept w := trivial
    exact ⟨Method.invocation_kept hmodule (by rintro v ⟨⟩) (by rintro b ⟨⟩) hj, hs⟩

end Keeping

/-- An instruction gets at what is kept, provided that the block it makes is. -/
theorem execute_kept {i : Instr} {s : Site} (hs : s.Kept w)
    (hnew : ∀ r body f b, i = .buildClosure r body → s.frame = .ok f →
      b.id = s.heap.next.blocks → b.visibility = f.visibility → w.block b) :
    w.invariant.Ends (i.execute s) := by
  refine (w.invariant_lawful i).execute hs fun r body f hi hf => ?_
  have hcaptured := hs.captureScope
  exact ⟨⟨hnew r body f _ hi hf (s.newBlock_id body f) rfl, hcaptured.activation.receiver⟩,
    { hcaptured with heap := hcaptured.heap.supply _ }⟩

/-! ### Machines -/

theorem enter_kept {limit : Nat} {h : Heap} (hh : h.Kept w) {c : Context} (hc : c.Kept w)
    {i : Invocation} (hi : i.Kept w) {s : Site} (hs : enter limit h c i = .ok s) : s.Kept w := by
  rw [enter_eq_ok hs]
  have hinit : ∀ t v, (Temps.init i.body.temps).get? t = some v → v.Kept w := by
    intro t v hv
    rw [Temps.get?_init] at hv
    split at hv
    · cases hv
      cases t.kind <;> exact trivial
    · cases hv
  have hframes : (c.withFrame i.frame).Kept w := List.forall_mem_cons.2 ⟨hi.frame, hc⟩
  have hactivation : ∀ footing, (i.activation footing).Kept w := fun footing =>
    ⟨hinit, hi.args, hi.frame.receiver, hi.answer?⟩
  rcases i.settleIn_cases h (c.withFrame i.frame) with
    ⟨-, -, hset⟩ | ⟨-, parent, -, ⟨-, hset⟩ | ⟨-, hset⟩⟩ | ⟨-, -, -, hset⟩ <;> rw [hset]
  · exact ⟨hh.newScope i.body.scope i.parent?, hframes, hactivation _⟩
  · exact ⟨hh, hframes, hactivation _⟩
  · exact ⟨hh, hframes, hactivation _⟩
  · exact ⟨hh, hframes, hactivation _⟩

theorem settle_kept {a : Activation} (ha : a.Kept w) {r : Except Unwind Value}
    (hr : Ending.Kept w r) : Ending.Kept w (a.settle r) := by
  have hresult : ∀ {v : Value}, v.Kept w → (a.result v).Kept w := by
    intro v hv
    rw [Activation.result]
    cases h : a.answer? with
    | none => exact hv
    | some x => exact ha.answer? x h
  rcases r with (f | ⟨target, v⟩) | v
  · exact trivial
  · rw [Activation.settle]
    split
    · exact hresult hr
    · exact hr
  · exact hresult hr

namespace Machine

theorem kept_runningAt {s : Site} (hs : s.Kept w) {cs : List Caller}
    (hcs : ∀ c ∈ cs, c.activation.Kept w) : (runningAt s cs).Kept w :=
  ⟨hs.heap, hs.context, hs.activation, hcs⟩

theorem kept_leavingAt {s : Site} (hs : s.Kept w) {r : Except Unwind Value}
    (hr : Ending.Kept w r) {cs : List Caller} (hcs : ∀ c ∈ cs, c.activation.Kept w) :
    (leavingAt s r cs).Kept w := ⟨hs.heap, hs.context, ⟨hs.activation, hr⟩, hcs⟩

theorem resume_kept {h : Heap} (hh : h.Kept w) {c : Context} (hc : c.Kept w)
    {r : Except Unwind Value} (hr : Ending.Kept w r) {cs : List Caller}
    (hcs : ∀ c ∈ cs, c.activation.Kept w) : (resume h c r cs).Kept w := by
  cases cs with
  | nil => exact ⟨hh, hc, trivial, by rintro c ⟨⟩⟩
  | cons caller cs =>
    obtain ⟨hcaller, hcs⟩ := List.forall_mem_cons.1 hcs
    have hs : Site.Kept w ⟨h, c, caller.activation⟩ := ⟨hh, hc, hcaller⟩
    cases r with
    | error u => exact kept_leavingAt hs hr hcs
    | ok v =>
      simp only [resume]
      split
      · next t ht => exact kept_runningAt (hs.store hr ht) hcs
      · next f _ => exact kept_leavingAt (r := .error (.failure f)) hs trivial hcs

theorem follow_kept (limit : Nat) {cs : List Caller} (hcs : ∀ c ∈ cs, c.activation.Kept w)
    {r : EStateM.Result Failure Site Outcome} (hr : w.invariant.Ends r) :
    (follow limit cs r).Kept w := by
  cases r with
  | error f t => exact kept_leavingAt (r := .error (.failure f)) hr trivial hcs
  | ok o t =>
    obtain ⟨ho, ht⟩ := hr
    cases o with
    | next => exact kept_runningAt ht hcs
    | complete v => exact kept_leavingAt (r := .ok v) ht ho hcs
    | «return» target v => exact kept_leavingAt (r := .error (.return target v)) ht ho hcs
    | call r j =>
      simp only [follow]
      split
      · next u hu =>
        exact kept_runningAt (enter_kept ht.heap ht.context ho hu)
          (List.forall_mem_cons.2 ⟨ht.activation, hcs⟩)
      · next f _ => exact kept_leavingAt (r := .error (.failure f)) ht trivial hcs

theorem Kept.site {m : Machine} (hm : m.Kept w) {i : Instr} {s : Site}
    (h : m.next? = some (i, s)) : s.Kept w := by
  obtain ⟨a, ha, -, rfl⟩ := next?_eq_some h
  have hcontrol := hm.control
  rw [ha] at hcontrol
  have ha : a.Kept w := hcontrol
  exact ⟨hm.heap, hm.context, { ha with }⟩

/-- A step keeps to the blocks and methods that there were, and the block that it makes. -/
theorem step_kept (limit : Nat) {m : Machine} (hm : m.Kept w)
    (hnew : ∀ r body s f b, m.next? = some (.buildClosure r body, s) → s.frame = .ok f →
      b.id = s.heap.next.blocks → b.visibility = f.visibility → w.block b) :
    (m.step limit).Kept w := by
  cases hnext : m.next? with
  | some p =>
    obtain ⟨i, s⟩ := p
    rw [step_of_next hnext]
    refine follow_kept limit hm.callers (execute_kept (hm.site hnext) ?_)
    rintro r body f b rfl
    exact hnew r body s f b hnext
  | none =>
    obtain ⟨heap, context, control, callers⟩ := m
    obtain ⟨hh, hc, hcontrol, hcallers⟩ := hm
    cases control with
    | finished r => exact ⟨hh, hc, trivial, hcallers⟩
    | leaving a r =>
      refine resume_kept hh (fun f hf => ?_) (settle_kept hcontrol.1 hcontrol.2) hcallers
      rw [leave_frames] at hf
      exact hc f (List.mem_of_mem_tail hf)
    | running a =>
      have hi : a.body.code[a.pc]? = none := Option.map_eq_none_iff.1 hnext
      simp only [step, hi]
      exact ⟨hh, hc, ⟨hcontrol, trivial⟩, hcallers⟩

end Machine

/-! ### Entries -/

namespace Entry

variable (w) in
/-- The method that is called need not be kept: it is called as it is. -/
def Kept : Entry → Prop
  | .execute i => i.Kept w
  | .script _ => True
  | .send receiver _ args => receiver.Kept w ∧ ∀ v ∈ args, v.Kept w
  | .method _ receiver _ args block? =>
    receiver.Kept w ∧ (∀ v ∈ args, v.Kept w) ∧ ∀ b, block? = some b → b.Kept w
  | .block b args => b.Kept w ∧ ∀ v ∈ args, v.Kept w

theorem reply_kept {h k : Heap} (hh : h.Kept w) {c : Context} {e : Entry} (he : e.Kept w)
    {q : Reply} (hq : e.reply h c = .ok (q, k)) : q.Kept w ∧ k.Kept w := by
  cases e with
  | execute i => cases hq; exact ⟨he, hh⟩
  | script b =>
    cases hq
    exact ⟨⟨⟨trivial, by rintro b ⟨⟩⟩, by rintro v ⟨⟩, by rintro v ⟨⟩⟩, hh⟩
  | send receiver name args =>
    exact ⟨Heap.dispatch_kept he.1 he.2 (by rintro b ⟨⟩) hq, hh.of_registers (.dispatch hq)⟩
  | method m receiver name args block? =>
    obtain ⟨hr, ha, hb⟩ := he
    rw [reply] at hq
    cases hi : m.invocation c receiver name args block? with
    | error f => rw [hi] at hq; cases hq
    | ok i =>
      rw [hi] at hq
      cases hq
      exact ⟨Method.invocation_kept hr ha hb hi, hh⟩
  | block b args =>
    cases hq
    exact ⟨BlockOf.invocation_kept he.2 he.1, hh⟩

theorem start_kept (limit : Nat) {h : Heap} (hh : h.Kept w) {c : Context} (hc : c.Kept w)
    {e : Entry} (he : e.Kept w) : (e.start limit h c).Kept w := by
  rw [start_eq]
  rcases hr : e.reply h c with f | ⟨q, k⟩
  · exact ⟨hh, hc, trivial, by rintro c ⟨⟩⟩
  · obtain ⟨hq, hk⟩ := reply_kept hh he hr
    cases q with
    | value v => exact ⟨hk, hc, trivial, by rintro c ⟨⟩⟩
    | invoke i =>
      simp only [Machine.awaiting, Machine.start]
      split
      · next s hs => exact Machine.kept_runningAt (enter_kept hk hc hq hs) (by rintro c ⟨⟩)
      · exact ⟨hk, hc, trivial, by rintro c ⟨⟩⟩

end Entry

end ObjectIr
