import ObjectIr.Proofs.Entries
import ObjectIr.Proofs.Population.Instructions

/-!
# Machines in a census

A machine is recorded in a census when its heap is and all else of it leads to nothing outside. A
step leads to a machine that is recorded in the same census or a larger one
(`Machine.Recorded.step`), and so does an entry with what belongs to the census
(`Entry.start_recorded`).
-/

namespace ObjectIr

structure Machine.Recorded (c : Census) (m : Machine) : Prop where
  heap : m.heap.Recorded c
  context : m.context.Among c.population
  control : m.control.Among c.population
  callers : ∀ x ∈ m.callers, x.activation.Among c.population

theorem Machine.Recorded.among {c : Census} {m : Machine} (hm : m.Recorded c) :
    m.Among c.population := ⟨hm.heap.among, hm.context, hm.control, hm.callers⟩

/-! ### Entering and leaving -/

section

variable {p : Population}

theorem leave_among (b : Body) {x : Context} (hx : x.Among p) : (leave b x).Among p := by
  intro f hf
  rw [leave_frames] at hf
  exact hx f (List.mem_of_mem_tail hf)

theorem settle_among {a : Activation} (ha : a.Among p) {r : Except Unwind Value}
    (hr : Ending.Among p r) : Ending.Among p (a.settle r) := by
  have hresult : ∀ {v : Value}, v.Among p → (a.result v).Among p := by
    intro v hv
    rw [Activation.result]
    cases h : a.answer? with
    | none => exact hv
    | some x => exact ha.answer? x h
  rcases r with (f | ⟨target, v⟩) | v
  · exact hr
  · rw [Activation.settle]
    split
    · exact hresult hr
    · exact hr
  · exact hresult hr

theorem answer_among {r : Except Unwind Value} (hr : Ending.Among p r) :
    Answer.Among p (r.mapError Unwind.toFailure) := by
  rcases r with (f | ⟨target, v⟩) | v
  · exact hr
  · exact trivial
  · exact hr

end

variable {c : Census}

theorem enter_recorded {limit : Nat} {h : Heap} (hh : h.Recorded c) {x : Context}
    (hx : x.Among c.population) {i : Invocation} (hi : i.Among c.population) {s : Site}
    (hs : enter limit h x i = .ok s) : s.Recorded c := by
  rw [enter_eq_ok hs]
  have hinit : ∀ t v, (Temps.init i.body.temps).get? t = some v → v.Among c.population := by
    intro t v hv
    rw [Temps.get?_init] at hv
    split at hv
    · cases hv
      cases t.kind <;> exact trivial
    · cases hv
  have hframes : (x.withFrame i.frame).Among c.population :=
    fun f hf => (List.mem_cons.1 hf).elim (fun hf => hf ▸ hi.frame) (hx f)
  have hactivation : ∀ footing, (i.activation footing).Among c.population := fun footing =>
    ⟨hinit, hi.args, hi.frame.receiver, hi.answer?⟩
  rcases i.settleIn_cases h (x.withFrame i.frame) with
    ⟨-, -, hset⟩ | ⟨-, parent, -, ⟨-, hset⟩ | ⟨-, hset⟩⟩ | ⟨-, -, -, hset⟩ <;> rw [hset]
  · exact ⟨hh.newScope i.body.scope i.parent?, hframes, hactivation _⟩
  · exact ⟨hh, hframes, hactivation _⟩
  · exact ⟨hh, hframes, hactivation _⟩
  · exact ⟨hh, hframes, hactivation _⟩

/-! ### Steps -/

namespace Machine

theorem recorded_runningAt {s : Site} (hs : s.Recorded c) {cs : List Caller}
    (hcs : ∀ x ∈ cs, x.activation.Among c.population) : (runningAt s cs).Recorded c :=
  ⟨hs.heap, hs.context, hs.activation, hcs⟩

theorem recorded_leavingAt {s : Site} (hs : s.Recorded c) {r : Except Unwind Value}
    (hr : Ending.Among c.population r) {cs : List Caller}
    (hcs : ∀ x ∈ cs, x.activation.Among c.population) : (leavingAt s r cs).Recorded c :=
  ⟨hs.heap, hs.context, ⟨hs.activation, hr⟩, hcs⟩

theorem recorded_resume {h : Heap} (hh : h.Recorded c) {x : Context} (hx : x.Among c.population)
    {r : Except Unwind Value} (hr : Ending.Among c.population r) {cs : List Caller}
    (hcs : ∀ x ∈ cs, x.activation.Among c.population) : (resume h x r cs).Recorded c := by
  cases cs with
  | nil => exact ⟨hh, hx, answer_among hr, hcs⟩
  | cons caller cs =>
    obtain ⟨hcaller, hcs⟩ := List.forall_mem_cons.1 hcs
    have hs : Site.Recorded c ⟨h, x, caller.activation⟩ := ⟨hh, hx, hcaller⟩
    cases r with
    | error u => exact recorded_leavingAt hs hr hcs
    | ok v =>
      simp only [resume]
      split
      · next t ht => exact recorded_runningAt (hs.store hr ht) hcs
      · next f hf =>
        have hf : f.Among c.population := Failure.among_of_quiet (Site.store_quiet _ _ _ f hf)
        exact recorded_leavingAt (r := .error (.failure f)) hs hf hcs

theorem recorded_follow (limit : Nat) {cs : List Caller}
    (hcs : ∀ x ∈ cs, x.activation.Among c.population) {i : Instr} {s : Site} (hs : s.Recorded c) :
    ∃ c', c.Grows c' ∧ (follow limit cs (i.execute s)).Recorded c' := by
  have hresult := execute_recorded i hs
  cases he : i.execute s with
  | error f t =>
    rw [he] at hresult
    obtain ⟨c', hgrows, hf, ht⟩ := hresult
    exact ⟨c', hgrows, recorded_leavingAt (r := .error (.failure f)) ht hf
      fun x hx => (hcs x hx).mono hgrows.within⟩
  | ok o t =>
    rw [he] at hresult
    obtain ⟨c', hgrows, ho, ht⟩ := hresult
    have hcs' : ∀ x ∈ cs, x.activation.Among c'.population := fun x hx =>
      (hcs x hx).mono hgrows.within
    refine ⟨c', hgrows, ?_⟩
    cases o with
    | next => exact recorded_runningAt ht hcs'
    | complete v => exact recorded_leavingAt (r := .ok v) ht ho hcs'
    | «return» target v => exact recorded_leavingAt (r := .error (.return target v)) ht ho hcs'
    | call r j =>
      simp only [follow]
      split
      · next u hu =>
        exact recorded_runningAt (enter_recorded ht.heap ht.context ho hu)
          (List.forall_mem_cons.2 ⟨ht.activation, hcs'⟩)
      · next f hf =>
        have hf : f.Among c'.population := Failure.among_of_quiet (enter_quiet _ _ _ _ f hf)
        exact recorded_leavingAt (r := .error (.failure f)) ht hf hcs'

theorem Recorded.step (limit : Nat) {m : Machine} (hm : m.Recorded c) :
    ∃ c', c.Grows c' ∧ (m.step limit).Recorded c' := by
  cases hnext : m.next? with
  | some p =>
    obtain ⟨a, ha, -, hs⟩ := next?_eq_some hnext
    have hcontrol := hm.control
    rw [ha] at hcontrol
    have hactivation : a.Among c.population := hcontrol
    rw [step_of_next hnext, hs]
    exact recorded_follow limit hm.callers ⟨hm.heap, hm.context, { hactivation with }⟩
  | none =>
    refine ⟨c, .refl c, ?_⟩
    obtain ⟨heap, context, control, callers⟩ := m
    obtain ⟨hh, hx, hcontrol, hcallers⟩ := hm
    cases control with
    | finished r => exact ⟨hh, hx, hcontrol, hcallers⟩
    | leaving a r =>
      exact recorded_resume hh (leave_among _ hx) (settle_among hcontrol.1 hcontrol.2) hcallers
    | running a =>
      have hi : a.body.code[a.pc]? = none := Option.map_eq_none_iff.1 hnext
      simp only [Machine.step, hi]
      exact ⟨hh, hx, ⟨hcontrol, trivial⟩, hcallers⟩

end Machine

/-! ### Entries -/

namespace Entry

def Among (p : Population) : Entry → Prop
  | .execute i => i.Among p
  | .script _ => True
  | .send receiver _ args => receiver.Among p ∧ ∀ v ∈ args, v.Among p
  | .method m receiver _ args block? =>
    m.module.Among p ∧ receiver.Among p ∧ (∀ v ∈ args, v.Among p) ∧
      ∀ b, block? = some b → b.Among p
  | .block b args => b.Among p ∧ ∀ v ∈ args, v.Among p

theorem reply_recorded {h k : Heap} (hh : h.Recorded c) {x : Context} {e : Entry}
    (he : e.Among c.population) {q : Reply} (hq : e.reply h x = .ok (q, k)) :
    ∃ c', c.Grows c' ∧ q.Among c'.population ∧ k.Recorded c' := by
  cases e with
  | execute i => cases hq; exact ⟨c, .refl c, he, hh⟩
  | script b => cases hq; exact ⟨c, .refl c, b.scriptInvocation_among, hh⟩
  | send receiver name args =>
    exact hh.dispatched he.1 he.2 (by rintro b ⟨⟩) (Heap.dispatch_dispatched hq)
  | method m receiver name args block? =>
    obtain ⟨hm, hr, ha, hb⟩ := he
    rw [reply] at hq
    cases hi : m.invocation x receiver name args block? with
    | error f => rw [hi] at hq; cases hq
    | ok i =>
      rw [hi] at hq
      cases hq
      exact ⟨c, .refl c, Method.invocation_among ha hr hb hm hi, hh⟩
  | block b args => cases hq; exact ⟨c, .refl c, BlockOf.invocation_among he.2 he.1, hh⟩

theorem start_recorded (limit : Nat) {h : Heap} (hh : h.Recorded c) {x : Context}
    (hx : x.Among c.population) {e : Entry} (he : e.Among c.population) :
    ∃ c', c.Grows c' ∧ (e.start limit h x).Recorded c' := by
  rw [start_eq]
  rcases hr : e.reply h x with f | ⟨q, k⟩
  · exact ⟨c, .refl c, hh, hx, Failure.among_of_quiet (e.reply_quiet h x f hr), by rintro c ⟨⟩⟩
  · obtain ⟨c', hgrows, hq, hk⟩ := reply_recorded hh he hr
    have hx' := hx.mono hgrows.within
    refine ⟨c', hgrows, ?_⟩
    cases q with
    | value v => exact ⟨hk, hx', hq, by rintro c ⟨⟩⟩
    | invoke i =>
      simp only [Machine.awaiting, Machine.start]
      split
      · next s hs => exact Machine.recorded_runningAt (enter_recorded hk hx' hq hs) (by rintro c ⟨⟩)
      · next f hf =>
        exact ⟨hk, hx', Failure.among_of_quiet (enter_quiet _ _ _ _ f hf), by rintro c ⟨⟩⟩

end Entry

end ObjectIr
