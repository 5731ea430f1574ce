import ObjectIr.Proofs.Sessions.Truth

/-!
# Every session has a true history

A session accords with its history when the history follows the machine and all code within the
machine's reach is admitted. A session starts in accord, and each move keeps it so: a step
(`Session.Accord.step`) and an entry (`Session.Accord.enter`). So it holds of every session that can
be reached (`Session.Reached.accord`), all runs among them (`Session.reached_after`), and a later
history extends an earlier one (`Session.extends_of_leads`).
-/

namespace ObjectIr

def Hereditary (p : Body → Prop) : Prop :=
  ∀ b, p b → ∀ i ∈ b.code, ∀ b', i.body? = some b' → p b'

structure Session.Accord (p : Body → Prop) (s : Session) : Prop where
  follows : s.history.Follows p s.machine.heap s.machine.active
  vetted : s.machine.Vetted (s.vetting p s.machine.heap)

/-! ### Making a block -/

theorem Site.captureScope_spec (s : Site) :
    s.captureScope.2.activation.captured? = s.captureScope.1 ∧
      (s.captureScope.1 = none → s.captureScope.2.activation.footing = .nowhere) ∧
      s.captureScope.2.heap.next.blocks = s.heap.next.blocks := by
  rw [captureScope]
  cases hf : s.activation.footing with
  | own scope =>
    refine ⟨?_, by rintro ⟨⟩, rfl⟩
    rw [Activation.captured?, hf]
  | nowhere =>
    refine ⟨?_, fun _ => hf, rfl⟩
    rw [Activation.captured?, hf]
  | guest parent =>
    cases hb : s.activation.bridge? with
    | some bridge =>
      refine ⟨?_, by rintro ⟨⟩, rfl⟩
      rw [Activation.captured?, hf]
      exact hb
    | none =>
      refine ⟨?_, by rintro ⟨⟩, rfl⟩
      rw [Activation.captured?]
      simp only [hf]

/-- Once a block is made it does not matter whether it can be stored. -/
theorem execute_making {i : Instr} {s : Site} {id : Nat} {body : Body}
    {scope? : Option DynamicScope} (h : i.making? s = some (id, body, scope?)) :
    (∃ r, i = .buildClosure r body) ∧ id = s.heap.next.blocks ∧
      ∃ t, (i.execute s = .ok .next t ∨ ∃ f, i.execute s = .error f t) ∧
        id < t.heap.next.blocks ∧ t.activation.captured? = scope? ∧
        (scope? = none → t.activation.footing = .nowhere) := by
  simp only [InstrOf.making?] at h
  split at h
  · next r b f hf =>
    cases h
    obtain ⟨hcaptured, hnone, hblocks⟩ := s.captureScope_spec
    refine ⟨⟨r, rfl⟩, rfl, ?_⟩
    rw [execute_buildClosure, hf]
    simp only
    have hless : ∀ k : Heap, (s.captureScope.2.heap.newBlock body
        s.captureScope.2.activation.receiver s.captureScope.1 f.module f.visibility).2.Grows k →
        s.heap.next.blocks < k.next.blocks := by
      intro k hk
      have : s.captureScope.2.heap.next.blocks + 1 ≤ k.next.blocks := hk.blocks
      omega
    split
    · exact ⟨_, .inr ⟨_, rfl⟩, hless _ (.refl _), hcaptured, hnone⟩
    · next u hu =>
      obtain ⟨k, ts, hk, rfl⟩ := Site.store_changes hu
      exact ⟨_, .inl rfl, hless k hk, hcaptured, hnone⟩
  · cases h

namespace Machine

/-- A step that makes a block enters nothing, and leaves the activation with the scope captured. -/
theorem step_making (limit : Nat) {m : Machine} {id : Nat} {body : Body}
    {scope? : Option DynamicScope} (h : m.making? = some (id, body, scope?)) :
    m.entering? limit = none ∧ id = m.heap.next.blocks ∧ id < (m.step limit).heap.next.blocks ∧
      ∃ a, (m.step limit).active.head? = some a ∧ a.captured? = scope? ∧
        (a.captured? = none → a.footing = .nowhere) ∧ a.body.Makes body := by
  obtain ⟨⟨i, s⟩, hnext, hmaking⟩ := Option.bind_eq_some_iff.1 h
  obtain ⟨a, -, hcode, hs⟩ := next?_eq_some hnext
  obtain ⟨⟨r, rfl⟩, hid, t, hresult, hless, hcaptured, hnone⟩ := execute_making hmaking
  have hmakes : t.activation.body.Makes body := by
    have hev := execute_evolves (.buildClosure r body) s
    have hbody : t.activation.body = s.activation.body := by
      rcases hresult with he | ⟨f, he⟩ <;> rw [he] at hev <;> exact hev.body
    rw [hbody, hs]
    exact ⟨r, hcode⟩
  have hentering : m.entering? limit = none := by
    rw [entering?, hnext]
    rcases hresult with he | ⟨f, he⟩ <;> simp only [he]
  have hstep : (m.step limit).heap = t.heap ∧ (m.step limit).active.head? = some t.activation := by
    rw [step_of_next hnext]
    rcases hresult with he | ⟨f, he⟩ <;> rw [he] <;> exact ⟨rfl, rfl⟩
  refine ⟨hentering, by rw [hid, hs], by rw [hstep.1]; exact hless, t.activation, hstep.2,
    hcaptured, hcaptured ▸ hnone, hmakes⟩

theorem step_grows (limit : Nat) (m : Machine) : m.heap.Grows (m.step limit).heap := by
  cases hcontrol : m.control with
  | finished r =>
    rw [step, hcontrol]
    exact .refl _
  | leaving a r =>
    have hstep : m.step limit = resume m.heap (leave a.body m.context) (a.settle r) m.callers := by
      rw [step, hcontrol]
    rw [hstep]
    rcases resume_cases m.heap (leave a.body m.context) (a.settle r) m.callers with
      ⟨-, hr⟩ | ⟨caller, cs, -, hgoes⟩
    · rw [hr]
      exact .refl _
    · obtain ⟨t, hst, hheap, -⟩ := hgoes.active
      rw [hheap]
      exact hst.heap
  | running a =>
    obtain ⟨pc, ⟨-, hgoes⟩ | ⟨i, t, callee, r, -, hst, hcallee, hstep⟩⟩ :=
      step_running limit hcontrol
    · obtain ⟨t, hst, hheap, -⟩ := hgoes.active
      rw [hheap]
      exact hst.heap
    · rw [hstep]
      exact hst.heap.trans (enter_grounded hcallee).1

end Machine

/-! ### Descending from the block that is run -/

namespace History

variable {h : History} {p : Body → Prop} {k : Heap}

theorem Sound.descent_creators (hs : h.Sound p k) {block? : Option Block} {i : Invocation}
    (hb : ∀ b, block? = some b → i.body = b.body ∧ i.parent? = b.scope? ∧
      ∀ o, h.origin? b.id = some o → o.body = b.body ∧ o.scope? = b.scope?) :
    h.Descent i.body (cellsOf i.parent?) (h.creators block?) := by
  unfold creators
  split
  · next o ho =>
    obtain ⟨b, hblock, horigin⟩ := Option.bind_eq_some_iff.1 ho
    obtain ⟨hbody, hparent, hmade⟩ := hb b hblock
    obtain ⟨hob, hos⟩ := hmade o horigin
    rw [hbody, hparent, ← hob, ← hos]
    exact (hs.origins b.id o horigin).2
  · exact ⟨by rintro e ⟨⟩, by unfold Aligned; trivial, .singleton _⟩

theorem origin_of_vetted {n : Nat} {b : Block} (hb : b.Vetted (h.admits p n)) (o : Origin)
    (ho : h.origin? b.id = some o) : o.body = b.body ∧ o.scope? = b.scope? := by
  obtain ⟨id, body, receiver, scope?, module, visibility⟩ := b
  exact hb.2.1.2 o ho

end History

namespace Machine

/-- What is within reach stays admitted, as long as no block is given the number of another. -/
theorem Vetted.later {p : Body → Prop} {h h' : History} {n n' : Nat} {m : Machine}
    (hm : m.Vetted (h.admits p n)) (hn : n ≤ n')
    (ho : ∀ id, id < n → h'.origin? id = h.origin? id) : m.Vetted (h'.admits p n') := by
  have hblock : ∀ id body scope?, (h.admits p n).block id body scope? →
      (h'.admits p n').block id body scope? := by
    rintro id body scope? ⟨hid, hmade⟩
    refine ⟨Nat.lt_of_lt_of_le hid hn, fun o horigin => ?_⟩
    rw [ho id hid] at horigin
    exact hmade o horigin
  have hbody : ∀ b, (h.admits p n).body b → (h'.admits p n').body b := fun b hb => hb
  exact hm.mono hbody hblock

theorem entering_block {limit : Nat} {m : Machine} {i : Invocation}
    (hi : m.entering? limit = some i) {b : Block} (hb : m.block? = some b) :
    i.body = b.body ∧ i.parent? = b.scope? := by
  obtain ⟨⟨instr, s⟩, hnext, hblock⟩ := Option.bind_eq_some_iff.1 hb
  rw [entering?, hnext] at hi
  simp only at hi hblock
  split at hi
  · next r inv t he =>
    split at hi
    · cases hi
      rcases execute_invoke he with ⟨b', args, hb', rfl⟩ | ⟨hnone, -⟩
      · rw [hblock] at hb'
        cases hb'
        exact ⟨rfl, rfl⟩
      · rw [hblock] at hnone
        cases hnone
    · cases hi
  · cases hi

theorem block?_vetted {w : Vetting} {m : Machine} (hm : m.Vetted w) {b : Block}
    (hb : m.block? = some b) : b.Vetted w := by
  obtain ⟨⟨i, s⟩, hnext, hblock⟩ := Option.bind_eq_some_iff.1 hb
  exact InstrOf.block?_vetted (site_vetted hm hnext).1 hblock

end Machine

namespace Session.Accord

variable {p : Body → Prop} {s : Session} {limit : Nat}

/-! ### Steps -/

theorem observe_leaving (limit : Nat) (hs : s.Accord p) {a : Activation}
    {r : Except Unwind Value} (hcontrol : s.machine.control = .leaving a r) :
    (s.history.observe limit s.machine).Follows p (s.machine.step limit).heap
      (s.machine.step limit).active := by
  obtain ⟨m, h⟩ := s
  have hpop := hs.follows
  simp only at hcontrol hpop ⊢
  rw [Machine.active, hcontrol] at hpop
  replace hpop := hpop.pop
  have hstep : m.step limit =
      Machine.resume m.heap (leave a.body m.context) (a.settle r) m.callers := by
    rw [Machine.step, hcontrol]
  rw [History.observe, hcontrol]
  simp only
  rw [hstep]
  rcases Machine.resume_cases m.heap (leave a.body m.context) (a.settle r) m.callers with
    ⟨hcs, hr⟩ | ⟨caller, cs, hcs, hgoes⟩
  · rw [hcs, List.map_nil] at hpop
    rw [hr]
    show (h.pop.note []).Follows p m.heap []
    rw [History.note_eq hpop.fits]
    exact hpop
  · rw [hcs] at hpop
    obtain ⟨t, hst, hheap, -, -, hactive⟩ := hgoes.active
    rw [hheap, hactive]
    exact History.Follows.note (s := ⟨m.heap, leave a.body m.context, caller.activation⟩) hpop hst

theorem observe_follows (hp : Hereditary p) (limit : Nat) (hs : s.Accord p) :
    (s.history.observe limit s.machine).Follows p (s.machine.step limit).heap
      (s.machine.step limit).active := by
  cases hcontrol : s.machine.control with
  | finished r =>
    have hstep : s.machine.step limit = s.machine := by rw [Machine.step, hcontrol]
    rw [History.observe, hcontrol, hstep]
    exact hs.follows
  | leaving a r => exact hs.observe_leaving limit hcontrol
  | running a =>
    obtain ⟨m, h⟩ := s
    obtain ⟨hfollows, hvetted⟩ := hs
    simp only at hcontrol hfollows hvetted ⊢
    rw [Machine.active, hcontrol] at hfollows
    rw [History.observe, hcontrol]
    simp only
    obtain ⟨pc, ⟨hentering, hgoes⟩ | ⟨i, t, callee, r, hentering, hst, hcallee, hstep⟩⟩ :=
      Machine.step_running limit hcontrol
    · obtain ⟨t, hst, hheap, -, -, hactive⟩ := hgoes.active
      have hnote :=
        History.Follows.note (s := ⟨m.heap, m.context, { a with pc }⟩) (hfollows.at_pc pc) hst
      rw [hentering, hactive, hheap]
      simp only
      cases hmaking : m.making? with
      | none => exact hnote
      | some made =>
        obtain ⟨id, body, scope?⟩ := made
        obtain ⟨-, -, hless, a', ha', hcaptured, hnone, hmakes⟩ := Machine.step_making limit hmaking
        rw [hactive] at ha'
        cases ha'
        rw [hheap] at hless
        rw [← hcaptured]
        exact hnote.make hless hmakes hnone
    · have hnote :=
        History.Follows.note (s := ⟨m.heap, m.context, { a with pc }⟩) (hfollows.at_pc pc) hst
      have hi := entering_vetted (w := h.admits p m.heap.next.blocks) hp hvetted hentering
      rw [hentering, hstep]
      refine hnote.push hcallee hi.body (hnote.sound.descent_creators fun b hb => ?_)
      obtain ⟨hbody, hparent⟩ := Machine.entering_block hentering hb
      exact ⟨hbody, hparent, History.origin_of_vetted (Machine.block?_vetted hvetted hb)⟩

/-- The blocks made before have the origins that they had; a new one has that which is told. -/
theorem observe_origin (limit : Nat) (hs : s.Accord p) :
    (∀ id, id < s.machine.heap.next.blocks →
      (s.history.observe limit s.machine).origin? id = s.history.origin? id) ∧
    ∀ id body scope?, s.machine.making? = some (id, body, scope?) → ∀ o,
      (s.history.observe limit s.machine).origin? id = some o →
        o.body = body ∧ o.scope? = scope? := by
  obtain ⟨m, h⟩ := s
  obtain ⟨hfollows, -⟩ := hs
  simp only at hfollows ⊢
  have hidle : ∀ r, m.making? = some r → ∃ a, m.control = .running a := by
    intro r hr
    obtain ⟨⟨i, t⟩, hnext, -⟩ := Option.bind_eq_some_iff.1 hr
    obtain ⟨a, ha, -⟩ := Machine.next?_eq_some hnext
    exact ⟨a, ha⟩
  rw [History.observe]
  cases hcontrol : m.control with
  | finished r | leaving a r =>
    refine ⟨fun id _ => rfl, fun id body scope? hmaking => ?_⟩
    obtain ⟨a, ha⟩ := hidle _ hmaking
    rw [hcontrol] at ha
    cases ha
  | running a =>
    simp only
    cases hmaking : m.making? with
    | none =>
      refine ⟨fun id _ => ?_, by rintro id body scope? ⟨⟩⟩
      split <;> rfl
    | some made =>
      obtain ⟨id, body, scope?⟩ := made
      obtain ⟨hentering, hid, -⟩ := Machine.step_making limit hmaking
      have hactive : m.active = a :: m.callers.map Caller.activation := by
        rw [Machine.active, hcontrol]
      rw [hactive] at hfollows
      obtain ⟨l, ls, -, -, hstack⟩ := List.forall₂_cons_right_iff.1 hfollows.fits
      have horigin : ∀ n,
          ((h.note (m.step limit).active).make (some (id, body, scope?))).origin? n =
            if n = id then some ⟨body, scope?, l.chain⟩ else h.origin? n := by
        intro n
        have hstack' : (h.note (m.step limit).active).stack = l :: ls := hstack
        rw [History.make]
        simp only [hstack']
        rfl
      rw [hentering]
      simp only
      refine ⟨fun n hn => ?_, ?_⟩
      · rw [horigin, if_neg (by omega)]
      · rintro _ _ _ ⟨⟩ o ho
        rw [horigin, if_pos rfl] at ho
        cases ho
        exact ⟨rfl, rfl⟩

theorem step (hp : Hereditary p) (limit : Nat) (hs : s.Accord p) : (s.step limit).Accord p := by
  obtain ⟨hold, hnew⟩ := hs.observe_origin limit
  have hgrows := s.machine.step_grows limit
  refine ⟨hs.observe_follows hp limit,
    step_vetted (w := (s.step limit).vetting p (s.machine.step limit).heap) hp limit ?_ ?_⟩
  · exact hs.vetted.later hgrows.blocks hold
  · intro id body scope? hmaking
    exact ⟨(Machine.step_making limit hmaking).2.2.1, hnew id body scope? hmaking⟩

end Session.Accord

/-! ### Entries -/

namespace Entry

variable {limit : Nat} {k : Heap} {c : Context} {e : Entry}

theorem reply_block {k' : Heap} {i : Invocation} (hr : e.reply k c = .ok (.invoke i, k'))
    {b : Block} (hb : e.block? k = some b) : i.body = b.body ∧ i.parent? = b.scope? := by
  cases e with
  | block b' args =>
    cases hb
    cases hr
    exact ⟨rfl, rfl⟩
  | send receiver name args =>
    rcases Heap.dispatch_invoke hr with ⟨b', hb', rfl⟩ | ⟨hnone, -⟩
    · rw [Entry.block?, hb'] at hb
      cases hb
      exact ⟨rfl, rfl⟩
    · rw [Entry.block?, hnone] at hb
      cases hb
  | _ => cases hb

theorem block?_vetted {w : Vetting} (he : e.Vetted w) {b : Block} (hb : e.block? k = some b) :
    b.Vetted w := by
  cases e with
  | block b' args =>
    cases hb
    exact he.1
  | send receiver name args =>
    have hreceiver : receiver.Vetted w := he.1
    rw [(Heap.called?_eq_some hb).1] at hreceiver
    exact hreceiver
  | _ => cases hb

theorem start_grows {w : Vetting} (hk : k.Vetted w) (he : e.Vetted w) :
    k.Grows (e.start limit k c).heap := by
  rw [start_eq]
  rcases hr : e.reply k c with f | ⟨q, k'⟩
  · exact .refl k
  · have hgrows := Heap.Grows.of_registers (reply_vetted hk he hr).2
    cases q with
    | value v => exact hgrows
    | invoke i =>
      simp only [Machine.awaiting, Machine.start]
      split
      · next s hs => exact hgrows.trans (enter_grounded hs).1
      · exact hgrows

end Entry

namespace Session

variable {p : Body → Prop} {s s' : Session} {limit : Nat}

theorem receive_origin (s : Session) (limit : Nat) (k : Heap) (c : Context) (e : Entry) :
    (s.history.receive limit k c e).origin? = s.history.origin? := by
  rw [History.receive]
  split <;> rfl

theorem Accord.enter (hs : s.Accord p) (hidle : s.machine.active = []) {k : Heap} {c : Context}
    {e : Entry} (hgrows : s.machine.heap.Grows k) (hk : k.Vetted (s.vetting p k))
    (hc : c.Vetted (s.vetting p k)) (he : e.Vetted (s.vetting p k)) :
    (s.enter limit k c e).Accord p := by
  have hstarted : k.Grows (e.start limit k c).heap := Entry.start_grows hk he
  have hfollows := hs.follows
  rw [hidle] at hfollows
  have hsound := hfollows.sound.grows hgrows
  have hvetted := (e.start_vetted limit hk hc he).later hstarted.blocks fun id _ =>
    congrFun (s.receive_origin limit k c e) id
  refine ⟨?_, hvetted⟩
  show (s.history.receive limit k c e).Follows p (e.start limit k c).heap
    (e.start limit k c).active
  rw [History.receive]
  rcases e.start_cases limit k c with ⟨hnone, -, r, hr⟩ | ⟨i, k', t, hreply, hi, ht, hstart⟩
  · rw [hnone, Machine.active, hr]
    exact ⟨hsound.grows hstarted, hfollows.fits, hfollows.nodup⟩
  · rw [hi, hstart]
    have hi := Entry.entering_vetted hk he hi
    have hregisters := (Entry.reply_vetted hk he hreply).2
    have hat : s.history.Follows p k' [] :=
      ⟨hsound.grows (.of_registers hregisters), hfollows.fits, hfollows.nodup⟩
    refine hat.push ht hi.body (hsound.descent_creators fun b hb => ?_)
    obtain ⟨hbody, hparent⟩ := Entry.reply_block hreply hb
    exact ⟨hbody, hparent, History.origin_of_vetted (Entry.block?_vetted he hb)⟩

theorem accord_start (p : Body → Prop) : start.Accord p where
  follows :=
    { sound :=
        { numbers := by rintro n e ⟨⟩
          bodies := by rintro e ⟨⟩
          entered := by rintro n c ⟨⟩
          cells := by rintro n c ⟨⟩
          distinct := by rintro n m c d ⟨⟩
          origins := by rintro id o ⟨⟩ }
      fits := .nil
      nodup := .nil }
  vetted := ⟨Heap.initial_vetted _, by rintro f ⟨⟩, trivial, by rintro c ⟨⟩⟩

theorem Moves.accord (hp : Hereditary p) (hm : Moves limit p s s') (hs : s.Accord p) :
    s'.Accord p := by
  cases hm with
  | step => exact hs.step hp limit
  | enter idle grows heap context entry => exact hs.enter idle grows heap context entry

/-- Every session that can be reached accords with its history. -/
theorem Reached.accord (hp : Hereditary p) (hs : s.Reached limit p) : s.Accord p := by
  induction hs with
  | refl => exact accord_start p
  | tail _ hm ih => exact hm.accord hp ih

theorem Moves.extends (hm : Moves limit p s s') (hs : s.Accord p) :
    s.history.Extends s'.history := by
  have hlt := hs.follows.sound.entered
  cases hm with
  | step =>
    show s.history.Extends (s.history.observe limit s.machine)
    rw [History.observe]
    split
    · exact .refl _
    · exact (History.extends_pop _).trans (History.note_extends _ _)
    · split
      · exact (History.note_extends _ _).push hlt _ _ _
      · exact (History.note_extends _ _).trans (History.extends_make _ _)
  | @enter k c e =>
    show s.history.Extends (s.history.receive limit k c e)
    rw [History.receive]
    split
    · exact (History.Extends.refl _).push hlt _ _ _
    · exact .refl _

theorem Moves.grows (hm : Moves limit p s s') : s.machine.heap.Grows s'.machine.heap := by
  cases hm with
  | step => exact s.machine.step_grows limit
  | enter _ grows heap _ entry => exact grows.trans (Entry.start_grows heap entry)

/-- What a history knows, every later one knows too; and no scope loses a slot. -/
theorem extends_of_leads (hp : Hereditary p) (hs : s.Accord p) (hl : Leads limit p s s') :
    s'.Accord p ∧ s.history.Extends s'.history ∧ s.machine.heap.Grows s'.machine.heap := by
  induction hl with
  | refl => exact ⟨hs, .refl _, .refl _⟩
  | tail _ hm ih =>
    obtain ⟨hs', hext, hgrows⟩ := ih
    exact ⟨hm.accord hp hs', hext.trans (hm.extends hs'), hgrows.trans hm.grows⟩

/-- Each machine that a run comes to is one of a session that can be reached. -/
theorem reached_after {h : Heap} {c : Context} {e : Entry} (hh : h.Vetted (start.vetting p h))
    (hc : c.Vetted (start.vetting p h)) (he : e.Vetted (start.vetting p h)) (n : Nat) :
    ∃ history, Reached limit p ⟨(e.start limit h c).after limit n, history⟩ := by
  induction n with
  | zero =>
    have hgrows : Heap.initial.Grows h :=
      ⟨Nat.zero_le _, Nat.zero_le _, fun c hc => absurd hc (Nat.not_lt_zero _)⟩
    exact ⟨_, .single (.enter rfl hgrows hh hc he)⟩
  | succ n ih =>
    obtain ⟨history, hreached⟩ := ih
    rw [Machine.after_succ]
    exact ⟨_, hreached.tail (.step _)⟩

end Session

end ObjectIr
