import ObjectIr.Proofs.Surroundings.Scopes

/-!
# Every lexical session is told truly

In a session of scripts that have scopes, every block that runs was made in the session and every
method that is called is one, so each activation but those of scripts and methods lies in another
(`History.Nests`). None is without any scope, and the cells around an activation are those of the
activations around it (`History.Surrounds`). A step and an entry keep this
(`LexicalSession.Accords.step`, `LexicalSession.Accords.enter`), so it holds of every session that
is reached (`LexicalSession.Reached.accords`).
-/

namespace ObjectIr

namespace History

/-- A script or a method lies in nothing, and another body in an activation that holds it. -/
def Nests (h : History) (around : Nat → List Entrant) (e : Entrant) : Prop :=
  e.body.kind.isReturnTarget = true ∧ around e.number = [] ∨
    ∃ x ∈ h.roster, x.body.Holds e.body ∧ around e.number = x :: around x.number

/-- A block with the scope that it captured, and the activation that made it. -/
def Places (h : History) (around : Nat → List Entrant) (o : Origin) : Prop :=
  ∃ x ∈ h.roster, o.creators.head? = some x ∧ o.scope?.isSome = true ∧
    h.Enclosed o.body (cellsOf o.scope?) (x :: around x.number)

structure Surrounds (h : History) (around : Nat → List Entrant) (as : List Activation) : Prop where
  rooted : ∀ e ∈ h.roster, e.rootless = false
  nests : ∀ e ∈ h.roster, h.Nests around e
  places : ∀ id o, h.origin? id = some o → h.Places around o
  enclosed : List.Forall₂ (fun l a => h.Enclosed a.body a.outer (around l.number)) h.stack as

/-- A later history, where what lies around the entrants known before is as it was. -/
structure Outlives (h' h : History) (around' around : Nat → List Entrant) : Prop where
  extends' : h.Extends h'
  numbers : ∀ e ∈ h.roster, e.number < h.roster.length
  around : ∀ n < h.roster.length, around' n = around n

variable {h h' : History} {around around' : Nat → List Entrant}

namespace Outlives

variable (hl : h'.Outlives h around' around)

include hl

theorem around_eq {e : Entrant} (he : e ∈ h.roster) : around' e.number = around e.number :=
  hl.around _ (hl.numbers e he)

theorem nests {e : Entrant} (he : e ∈ h.roster) (hn : h.Nests around e) : h'.Nests around' e := by
  rw [Nests, hl.around_eq he]
  rcases hn with hn | ⟨x, hx, hholds, hxs⟩
  · exact .inl hn
  · exact .inr ⟨x, hl.extends'.roster x hx, hholds, by rw [hxs, hl.around_eq hx]⟩

theorem places {o : Origin} (ho : h.Places around o) : h'.Places around' o := by
  obtain ⟨x, hx, hhead, hscope, henclosed⟩ := ho
  refine ⟨x, hl.extends'.roster x hx, hhead, hscope, ?_⟩
  rw [hl.around_eq hx]
  exact henclosed.mono hl.extends'

theorem enclosed {ls : List Lineage} {as : List Activation} (hknown : ∀ l ∈ ls, l.self ∈ h.roster)
    (hf : List.Forall₂ (fun l a => h.Enclosed a.body a.outer (around l.number)) ls as) :
    List.Forall₂ (fun l a => h'.Enclosed a.body a.outer (around' l.number)) ls as := by
  induction hf with
  | nil => exact .nil
  | @cons l a ls as hla _ ih =>
    obtain ⟨hl', hls⟩ := List.forall_mem_cons.1 hknown
    refine .cons ?_ (ih hls)
    rw [Lineage.number, hl.around_eq hl']
    exact hla.mono hl.extends'

end Outlives

theorem Surrounds.later {as as' : List Activation} (hs : h.Surrounds around as)
    (hl : h'.Outlives h around' around)
    (hroster : ∀ e ∈ h'.roster, e ∈ h.roster ∨ e.rootless = false ∧ h'.Nests around' e)
    (horigin : ∀ id o, h'.origin? id = some o → h.origin? id = some o ∨ h'.Places around' o)
    (henclosed : List.Forall₂ (fun l a => h'.Enclosed a.body a.outer (around' l.number)) h'.stack
      as') : h'.Surrounds around' as' where
  rooted e he := (hroster e he).elim (hs.rooted e) fun hnew => hnew.1
  nests e he := (hroster e he).elim (fun he => hl.nests he (hs.nests e he)) fun hnew => hnew.2
  places n o ho := (horigin n o ho).elim (fun ho => hl.places (hs.places n o ho)) id
  enclosed := henclosed

/-- Going on in the innermost activation leaves it where it is. -/
theorem enclosed_evolves {s t : Site} (hst : s.Evolves t) {ls : List Lineage}
    {as : List Activation}
    (hf : List.Forall₂ (fun l a => h.Enclosed a.body a.outer (around l.number)) ls
      (s.activation :: as)) :
    List.Forall₂ (fun l a => h.Enclosed a.body a.outer (around l.number)) ls
      (t.activation :: as) := by
  obtain ⟨l, ls, hla, hls, rfl⟩ := List.forall₂_cons_right_iff.1 hf
  refine .cons ?_ hls
  rw [outer_eq hst, hst.body]
  exact hla

theorem enclosed_at_pc {a : Activation} (pc : Nat) {ls : List Lineage} {as : List Activation}
    (hf : List.Forall₂ (fun l a => h.Enclosed a.body a.outer (around l.number)) ls (a :: as)) :
    List.Forall₂ (fun l a => h.Enclosed a.body a.outer (around l.number)) ls
      ({ a with pc } :: as) := by
  obtain ⟨l, ls, hla, hls, rfl⟩ := List.forall₂_cons_right_iff.1 hf
  exact .cons hla hls

/-- No entrant is without any scope if it has one of its own or was given a parent's. -/
theorem rootless_eq_false {e : Entrant} (he : e.body.pushesScope = true ∨ e.parented = true) :
    e.rootless = false := by
  unfold Entrant.rootless
  rcases he with he | he <;> simp [he]

/-- A block that is made lies in the activation that makes it. -/
theorem Fits.places {l : Lineage} {a : Activation} (hf : h.Fits l a)
    (hroot : l.self.rootless = false) (hnone : a.captured? = none → a.footing = .nowhere)
    (he : h.Enclosed a.body a.outer (around l.number)) (body : Body) :
    h.Places around ⟨body, a.captured?, l.chain⟩ := by
  obtain ⟨s, hs⟩ := hf.captured_isSome hroot hnone
  rw [hs]
  exact ⟨l.self, hf.known, rfl, rfl, hf.enclosed_captured he hs body⟩

theorem make_roster_stack (h : History) (made? : Option (Nat × Body × Option DynamicScope)) :
    (h.make made?).roster = h.roster ∧ (h.make made?).stack = h.stack := by
  unfold make
  repeat' split
  all_goals exact ⟨rfl, rfl⟩

end History

theorem Machine.running_of_making {m : Machine} {made : Nat × Body × Option DynamicScope}
    (h : m.making? = some made) : ∃ a, m.control = .running a := by
  obtain ⟨⟨i, s⟩, hnext, -⟩ := Option.bind_eq_some_iff.1 h
  obtain ⟨a, ha, -⟩ := next?_eq_some hnext
  exact ⟨a, ha⟩

theorem History.observe_making (h : History) (limit : Nat) {m : Machine} {id : Nat} {body : Body}
    {scope? : Option DynamicScope} (hmaking : m.making? = some (id, body, scope?)) {l : Lineage}
    {ls : List Lineage} (hstack : h.stack = l :: ls) (n : Nat) :
    (h.observe limit m).origin? n =
      if n = id then some ⟨body, scope?, l.chain⟩ else h.origin? n := by
  obtain ⟨a, hcontrol⟩ := Machine.running_of_making hmaking
  rw [observe, hcontrol]
  simp only [(Machine.step_making limit hmaking).1, hmaking, make, note, hstack]

/-! ### Stacks -/

namespace Machine

theorem GoesOn.stacked {s : Site} {cs : List Caller} {m : Machine} (hm : GoesOn s cs m)
    (h : Stacks (s.activation :: cs.map Caller.activation) s.context.scopeStack) :
    Stacks m.active m.context.scopeStack := by
  obtain ⟨t, hst, -, hcontext, -, hactive⟩ := hm.active
  rw [hactive, hcontext, Context.scopeStack, hst.scopes]
  exact h.replace hst.body hst.footing

theorem step_stacked (limit : Nat) {m : Machine}
    (h : m.active ≠ [] → Stacks m.active m.context.scopeStack)
    (hactive : (m.step limit).active ≠ []) :
    Stacks (m.step limit).active (m.step limit).context.scopeStack := by
  cases hcontrol : m.control with
  | finished r =>
    have hstep : m.step limit = m := by rw [step, hcontrol]
    rw [hstep] at hactive ⊢
    exact h hactive
  | leaving a r =>
    have hstep : m.step limit = resume m.heap (leave a.body m.context) (a.settle r) m.callers := by
      rw [step, hcontrol]
    rw [active, hcontrol] at h
    rw [hstep] at hactive ⊢
    rcases resume_cases m.heap (leave a.body m.context) (a.settle r) m.callers with
      ⟨-, hr⟩ | ⟨caller, cs, hcs, hgoes⟩
    · rw [hr] at hactive
      exact absurd rfl hactive
    · rw [hcs] at h
      exact hgoes.stacked ((h (by simp)).leave (by simp))
  | running a =>
    rw [active, hcontrol] at h
    have h := h (by simp)
    obtain ⟨pc, ⟨-, hgoes⟩ | ⟨i, t, callee, r, -, hst, hcallee, hstep⟩⟩ :=
      step_running limit hcontrol
    · exact hgoes.stacked (h.replace rfl rfl)
    · have hwaiting : Stacks (t.activation :: m.callers.map Caller.activation)
          t.context.scopeStack := by
        rw [Context.scopeStack, hst.scopes]
        exact h.replace hst.body hst.footing
      have hentered := Stacks.enter hcallee (fun _ => hwaiting) (by simp)
      rw [hstep]
      exact hentered

end Machine

/-! ### Steps -/

namespace LexicalSession

structure Accords (s : LexicalSession) : Prop where
  session : s.toSession.Accord Body.Placed
  known : s.machine.Vetted (s.history.knows Body.Placed)
  answers : s.machine.heap.Answers fun b => b.kind.isReturnTarget = true
  stacked : s.machine.active ≠ [] → Stacks s.machine.active s.machine.context.scopeStack
  surrounds : s.history.Surrounds s.around s.machine.active

namespace Accords

variable {s : LexicalSession} (hs : s.Accords) (limit : Nat)

include hs

theorem outlives_step :
    (s.step limit).history.Outlives s.history (s.step limit).around s.around where
  extends' := by
    have hmove : Session.Moves limit Body.Placed s.toSession (s.step limit).toSession := .step _
    exact hmove.extends hs.session
  numbers _ he := hs.session.follows.sound.number_lt he
  around _ hn := if_neg (Nat.ne_of_lt hn)

theorem lineage_known : ∀ l ∈ s.history.stack, l.self ∈ s.history.roster :=
  History.mem_roster hs.session.follows.fits

theorem origin_of_block {b : Block} (hb : s.machine.block? = some b) :
    ∃ o, s.history.origin? b.id = some o ∧ o.body = b.body ∧ o.scope? = b.scope? := by
  have hv := Machine.block?_vetted hs.known hb
  obtain ⟨id, body, receiver, scope?, module, visibility⟩ := b
  exact hv.2.1

theorem code_placed {a : Activation} (ha : s.machine.control = .running a) : a.body.Placed := by
  have hcontrol := hs.known.control
  rw [ha] at hcontrol
  exact hcontrol.body

theorem surrounds_leaving {a : Activation} {r : Except Unwind Value}
    (hcontrol : s.machine.control = .leaving a r) :
    (s.step limit).history.Surrounds (s.step limit).around (s.step limit).machine.active := by
  have hl := hs.outlives_step limit
  have hold := hl.enclosed hs.lineage_known hs.surrounds.enclosed
  have hhistory : (s.step limit).history =
      s.history.pop.note (s.machine.step limit).active := by
    show s.history.observe limit s.machine = _
    rw [History.observe, hcontrol]
  refine hs.surrounds.later hl (fun e he => .inl ?_) (fun id o ho => .inl ?_) ?_
  · rw [hhistory] at he
    exact he
  · rw [hhistory] at ho
    exact ho
  · have hstack : (s.step limit).history.stack = s.history.stack.tail := by
      rw [hhistory]
      rfl
    have hstep : (s.step limit).machine = Machine.resume s.machine.heap
        (leave a.body s.machine.context) (a.settle r) s.machine.callers := by
      show s.machine.step limit = _
      rw [Machine.step, hcontrol]
    rw [Machine.active, hcontrol] at hold
    obtain ⟨l, ls, -, hls, hstack'⟩ := List.forall₂_cons_right_iff.1 hold
    rw [hstack, hstack', List.tail_cons, hstep]
    rcases Machine.resume_cases s.machine.heap (leave a.body s.machine.context) (a.settle r)
      s.machine.callers with ⟨hcs, hr⟩ | ⟨caller, cs, hcs, hgoes⟩
    · rw [hr]
      rw [hcs] at hls
      exact hls
    · rw [hcs] at hls
      obtain ⟨t, hst, -, -, -, hactive⟩ := hgoes.active
      rw [hactive]
      exact History.enclosed_evolves hst hls

theorem surrounds_onward {a : Activation} (hcontrol : s.machine.control = .running a)
    (hentering : s.machine.entering? limit = none) {t : Site}
    {pc : Nat} (hst : Site.Evolves ⟨s.machine.heap, s.machine.context, { a with pc }⟩ t)
    (hactive : (s.machine.step limit).active =
      t.activation :: s.machine.callers.map Caller.activation) :
    (s.step limit).history.Surrounds (s.step limit).around (s.step limit).machine.active := by
  have hl := hs.outlives_step limit
  have hsession := hs.session.step Body.Placed.hereditary limit
  have hold := hl.enclosed hs.lineage_known hs.surrounds.enclosed
  rw [Machine.active, hcontrol] at hold
  replace hold := History.enclosed_evolves hst (History.enclosed_at_pc pc hold)
  have hhistory : (s.step limit).history =
      (s.history.note (s.machine.step limit).active).make s.machine.making? := by
    show s.history.observe limit s.machine = _
    rw [History.observe, hcontrol]
    simp only [hentering]
  have hroster : (s.step limit).history.roster = s.history.roster := by
    rw [hhistory, (History.make_roster_stack _ _).1]
    rfl
  have hstack : (s.step limit).history.stack = s.history.stack := by
    rw [hhistory, (History.make_roster_stack _ _).2]
    rfl
  have hactive' : (s.step limit).machine.active =
      t.activation :: s.machine.callers.map Caller.activation := hactive
  refine hs.surrounds.later hl (fun e he => .inl (hroster ▸ he)) (fun id o ho => ?_) ?_
  · obtain ⟨l, ls, hla, hls, hstack'⟩ := List.forall₂_cons_right_iff.1 hold
    have hfits : List.Forall₂ (s.step limit).history.Fits (s.step limit).history.stack
        (s.step limit).machine.active := hsession.follows.fits
    rw [hactive', hstack, hstack', List.forall₂_cons] at hfits
    cases hmaking : s.machine.making? with
    | none =>
      rw [hhistory, hmaking] at ho
      exact .inl ho
    | some made =>
      obtain ⟨id', body, scope?⟩ := made
      obtain ⟨-, -, -, a', ha', hcaptured, hnone, -⟩ := Machine.step_making limit hmaking
      rw [hactive] at ha'
      cases ha'
      replace ho := (s.history.observe_making limit hmaking hstack' id).symm.trans ho
      split at ho
      · cases ho
        rw [← hcaptured]
        exact .inr (hfits.1.places (hs.surrounds.rooted _ (hs.lineage_known l (by simp [hstack'])))
          hnone hla body)
      · exact .inl ho
  · rw [hstack, hactive']
    exact hold

/-- What is entered has a parent scope, and lies in the activation that it is said to lie in. -/
theorem entering_enclosed (habides : s.Abides limit) {i : Invocation}
    (hi : s.machine.entering? limit = some i) : i.parent?.isSome = true ∧
      (i.body.kind.isReturnTarget = true ∧ s.encloser? = none ∨
        ∃ x ∈ s.history.roster, s.encloser? = some x ∧ x.body.Holds i.body) ∧
      s.history.Enclosed i.body (cellsOf i.parent?) ((s.encloser?.map s.chain).getD []) := by
  rcases Machine.entering_cases hi with ⟨b, hb, hbody, hparent, hno⟩ | ⟨hparent, hnone, hi'⟩
  · -- a block lies in the activation that made it
    obtain ⟨o, ho, hob, hos⟩ := hs.origin_of_block hb
    obtain ⟨x, hx, hhead, hscope, henclosed⟩ := hs.surrounds.places b.id o ho
    have hencloser : s.encloser? = some x := by
      rw [encloser?]
      split
      · next r o' site hnext => exact absurd hnext (hno r o' site)
      · rw [hb, History.creators]
        simp only [Option.bind_some, ho]
        exact hhead
    have hmakes := (hs.session.follows.sound.origins b.id o ho).2.makes
    rw [hencloser, hbody, hparent, ← hob, ← hos]
    refine ⟨hscope, .inr ⟨x, hx, rfl, .inl ?_⟩, henclosed⟩
    obtain ⟨es, hes⟩ : ∃ es, o.creators = x :: es := List.head?_eq_some_iff.1 hhead
    rw [hes, List.map_cons, List.isChain_cons_cons] at hmakes
    exact hmakes.1
  · have hrunning : ∃ a, s.machine.control = .running a := by
      cases hnext : s.machine.next? with
      | none =>
        rw [Machine.entering?, hnext] at hi
        cases hi
      | some p =>
        obtain ⟨a, ha, -⟩ := Machine.next?_eq_some hnext
        exact ⟨a, ha⟩
    obtain ⟨a, ha⟩ := hrunning
    have hactive : s.machine.active = a :: s.machine.callers.map Caller.activation := by
      rw [Machine.active, ha]
    have hstacked := hs.stacked (by rw [hactive]; simp)
    rw [hactive] at hstacked
    have hsome : i.parent?.isSome = true := by
      rw [hparent, Context.currentScope?_eq, List.isSome_head?]
      simpa using hstacked.ne_nil
    refine ⟨hsome, ?_⟩
    rcases hi' with ⟨r, o, site, hnext⟩ | ⟨hno, hanswers⟩
    · -- a module body lies in the activation that processes it
      have hdefines := habides r o site i hnext hi
      obtain ⟨a', ha', -, rfl⟩ := Machine.next?_eq_some hnext
      rw [ha] at ha'
      cases ha'
      have hfits := hs.session.follows.fits
      have henclosed := hs.surrounds.enclosed
      rw [hactive] at hfits henclosed
      obtain ⟨l, ls, hla, hls, hstack⟩ := List.forall₂_cons_right_iff.1 hfits
      rw [hstack, List.forall₂_cons] at henclosed
      have hencloser : s.encloser? = some l.self := by
        simp only [encloser?, hnext, hstack, List.head?_cons, Option.map_some]
      rw [hencloser]
      refine ⟨.inr ⟨l.self, hla.known, rfl, .inr (by rw [hla.body]; exact hdefines)⟩, ?_⟩
      have hkind := ((hs.code_placed ha).encloses.modules i.body hdefines).1
      intro hhouses
      obtain ⟨scope, hhead, hcaptured⟩ :=
        hla.current_captured hstacked (by rw [← hla.body]; exact hhouses hkind)
      rw [hparent, Context.currentScope?_eq, hhead]
      exact hla.enclosed_captured henclosed.1 hcaptured i.body hhouses
    · have hencloser : s.encloser? = none := by
        rw [encloser?, hnone]
        split
        · next r o' site hnext => exact absurd hnext (hno r o' site)
        · rfl
      rw [hencloser]
      exact ⟨.inl ⟨hanswers _ hs.answers, rfl⟩, trivial⟩

theorem surrounds_entering (habides : s.Abides limit) {a : Activation}
    (hcontrol : s.machine.control = .running a) {i : Invocation}
    (hi : s.machine.entering? limit = some i) {t callee : Site} {r : Variable}
    {pc : Nat} (hst : Site.Evolves ⟨s.machine.heap, s.machine.context, { a with pc }⟩ t)
    (hcallee : ObjectIr.enter limit t.heap t.context i = .ok callee)
    (hstep : s.machine.step limit =
      .runningAt callee (⟨t.activation, r⟩ :: s.machine.callers)) :
    (s.step limit).history.Surrounds (s.step limit).around (s.step limit).machine.active := by
  have hl := hs.outlives_step limit
  have hold := hl.enclosed hs.lineage_known hs.surrounds.enclosed
  rw [Machine.active, hcontrol] at hold
  replace hold := History.enclosed_evolves hst (History.enclosed_at_pc pc hold)
  obtain ⟨hparent, hencloser, henclosed⟩ := hs.entering_enclosed limit habides hi
  have hactive : (s.step limit).machine.active = callee.activation :: t.activation ::
      s.machine.callers.map Caller.activation := by
    show (s.machine.step limit).active = _
    rw [hstep]
    rfl
  have haround : (s.step limit).around s.history.roster.length =
      (s.encloser?.map s.chain).getD [] := if_pos rfl
  obtain ⟨-, hbody, houter, -⟩ := enter_grounded hcallee
  have hhistory : (s.step limit).history =
      (s.history.note (s.machine.step limit).active.tail).push i s.machine.block?
        ((s.machine.step limit).active.head?.bind Activation.standing?) := by
    show s.history.observe limit s.machine = _
    rw [History.observe, hcontrol]
    simp only [hi]
  obtain ⟨new, hnumber, hnew, hparented, hroster, creators, hstack⟩ : ∃ e : Entrant,
      e.number = s.history.roster.length ∧ e.body = i.body ∧ e.parented = i.parent?.isSome ∧
      (s.step limit).history.roster = s.history.roster ++ [e] ∧
      ∃ creators, (s.step limit).history.stack = ⟨e, creators⟩ :: s.history.stack :=
    ⟨_, rfl, rfl, rfl, by rw [hhistory]; rfl, _, by rw [hhistory]; rfl⟩
  rw [← hnumber] at haround
  refine hs.surrounds.later hl (fun e he => ?_) (fun id o ho => .inl ?_) ?_
  · rw [hroster, List.mem_append, List.mem_singleton] at he
    refine he.imp_right ?_
    rintro rfl
    refine ⟨History.rootless_eq_false (.inr (by rw [hparented, hparent])), ?_⟩
    rw [History.Nests, haround, hnew]
    rcases hencloser with ⟨hkind, hnone⟩ | ⟨x, hx, hsome, hholds⟩
    · rw [hnone]
      exact .inl ⟨hkind, rfl⟩
    · rw [hsome]
      refine .inr ⟨x, hl.extends'.roster x hx, hholds, ?_⟩
      rw [hl.around_eq hx]
      rfl
  · rw [hhistory] at ho
    exact ho
  · rw [hstack, hactive]
    refine .cons ?_ hold
    rw [hbody, houter, Lineage.number, haround]
    exact henclosed.mono hl.extends'

theorem surrounds_step (habides : s.Abides limit) :
    (s.step limit).history.Surrounds (s.step limit).around (s.step limit).machine.active := by
  cases hcontrol : s.machine.control with
  | finished r =>
    have hstep : (s.step limit).toSession = s.toSession := by
      show s.toSession.step limit = s.toSession
      rw [Session.step, Machine.step, History.observe, hcontrol]
    have hl := hs.outlives_step limit
    have hold := hl.enclosed hs.lineage_known hs.surrounds.enclosed
    rw [hstep] at hl hold ⊢
    exact hs.surrounds.later hl (fun e => .inl) (fun id o => .inl) hold
  | leaving a r => exact hs.surrounds_leaving limit hcontrol
  | running a =>
    obtain ⟨pc, ⟨hentering, hgoes⟩ | ⟨i, t, callee, r, hentering, hst, hcallee, hstep⟩⟩ :=
      Machine.step_running limit hcontrol
    · obtain ⟨t, hst, -, -, -, hactive⟩ := hgoes.active
      exact hs.surrounds_onward limit hcontrol hentering hst hactive
    · exact hs.surrounds_entering limit habides hcontrol hentering hst hcallee hstep

theorem known_step : (s.step limit).machine.Vetted ((s.step limit).history.knows Body.Placed) := by
  obtain ⟨hold, -⟩ := hs.session.observe_origin limit
  have hblock : ∀ id body scope?, (s.history.knows Body.Placed).block id body scope? →
      ((s.step limit).history.knows Body.Placed).block id body scope? := by
    rintro id body scope? ⟨o, ho, hbody, hscope⟩
    refine ⟨o, ?_, hbody, hscope⟩
    rw [← ho]
    exact hold id (hs.session.follows.sound.origins id o ho).1
  have hbody : ∀ b, (s.history.knows Body.Placed).body b →
      ((s.step limit).history.knows Body.Placed).body b := fun b hb => hb
  refine step_vetted (w := (s.step limit).history.knows Body.Placed) Body.Placed.hereditary limit
    (hs.known.mono hbody hblock) fun id body scope? hmaking => ?_
  obtain ⟨a, hcontrol⟩ := Machine.running_of_making hmaking
  have hfits := hs.session.follows.fits
  rw [Machine.active, hcontrol] at hfits
  obtain ⟨l, ls, -, -, hstack⟩ := List.forall₂_cons_right_iff.1 hfits
  exact ⟨_, (s.history.observe_making limit hmaking hstack id).trans (if_pos rfl), rfl, rfl⟩

theorem answers_step :
    (s.step limit).machine.heap.Answers fun b => b.kind.isReturnTarget = true := by
  refine Machine.step_answers limit hs.answers fun i site hnext name b hi => ?_
  obtain ⟨a, ha, hcode, -⟩ := Machine.next?_eq_some hnext
  rw [hi] at hcode
  exact (hs.code_placed ha).encloses.methods name b hcode

theorem step (habides : s.Abides limit) : (s.step limit).Accords where
  session := hs.session.step Body.Placed.hereditary limit
  known := hs.known_step limit
  answers := hs.answers_step limit
  stacked := Machine.step_stacked limit hs.stacked
  surrounds := hs.surrounds_step limit habides

/-! ### Entries -/

variable {c : Context} {b : Body}

theorem outlives_enter : (s.enter limit c b).history.Outlives s.history (s.enter limit c b).around
    s.around where
  extends' := by
    show s.history.Extends (s.history.receive limit s.machine.heap c (.script b))
    rw [History.receive]
    split
    · exact (History.Extends.refl _).push hs.session.follows.sound.entered _ _ _
    · exact .refl _
  numbers _ he := hs.session.follows.sound.number_lt he
  around _ hn := if_neg (Nat.ne_of_lt hn)

theorem surrounds_enter (hidle : s.machine.active = []) (hkind : b.kind.isReturnTarget = true)
    (hown : b.pushesScope = true) : (s.enter limit c b).history.Surrounds
      (s.enter limit c b).around (s.enter limit c b).machine.active := by
  have hl := hs.outlives_enter limit (c := c) (b := b)
  have hold := hl.enclosed hs.lineage_known hs.surrounds.enclosed
  rw [hidle] at hold
  have hmachine : (s.enter limit c b).machine = (Entry.script b).start limit s.machine.heap c := rfl
  have hhistory : (s.enter limit c b).history =
      s.history.receive limit s.machine.heap c (.script b) := rfl
  rw [History.receive] at hhistory
  rcases (Entry.script b).start_cases limit s.machine.heap c with
    ⟨hnone, -, r, hr⟩ | ⟨i, k, site, hreply, hi, hsite, hstart⟩
  · rw [hnone] at hhistory
    refine hs.surrounds.later hl (fun e he => .inl ?_) (fun id o ho => .inl ?_) ?_
    · rw [hhistory] at he
      exact he
    · rw [hhistory] at ho
      exact ho
    · rw [hmachine, Machine.active, hr]
      rw [hhistory] at hold ⊢
      exact hold
  · rw [hi] at hhistory
    cases hreply
    have haround : (s.enter limit c b).around s.history.roster.length = [] := if_pos rfl
    obtain ⟨new, hnumber, hnew, hroster, creators, hstack⟩ : ∃ e : Entrant,
        e.number = s.history.roster.length ∧ e.body = b ∧
        (s.enter limit c b).history.roster = s.history.roster ++ [e] ∧
        ∃ creators, (s.enter limit c b).history.stack = ⟨e, creators⟩ :: s.history.stack :=
      ⟨_, rfl, rfl, by rw [hhistory]; rfl, _, by rw [hhistory]; rfl⟩
    rw [← hnumber] at haround
    refine hs.surrounds.later hl (fun e he => ?_) (fun id o ho => .inl ?_) ?_
    · rw [hroster, List.mem_append, List.mem_singleton] at he
      refine he.imp_right ?_
      rintro rfl
      refine ⟨History.rootless_eq_false (.inl (by rw [hnew, hown])), .inl ⟨?_, haround⟩⟩
      rw [hnew, hkind]
    · rw [hhistory] at ho
      exact ho
    · rw [hstack, hmachine, hstart, Machine.active_runningAt]
      refine .cons ?_ hold
      rw [Lineage.number, haround]
      trivial

theorem enter (hidle : s.machine.active = []) (hc : c.Vetted (s.history.knows Body.Placed))
    (hcode : b.Placed) (hkind : b.kind.isReturnTarget = true) (hown : b.pushesScope = true) :
    (s.enter limit c b).Accords := by
  have horigin := s.receive_origin limit s.machine.heap c (.script b)
  have hknown := Entry.start_vetted limit (e := .script b) hs.known.heap hc hcode
  have hadmits : ∀ id body scope?, (s.history.knows Body.Placed).block id body scope? →
      (s.vetting Body.Placed s.machine.heap).block id body scope? := by
    rintro id body scope? ⟨o, ho, hbody, hscope⟩
    refine ⟨(hs.session.follows.sound.origins id o ho).1, fun o' ho' => ?_⟩
    rw [ho] at ho'
    cases ho'
    exact ⟨hbody, hscope⟩
  have hbody : ∀ b, (s.history.knows Body.Placed).body b →
      (s.vetting Body.Placed s.machine.heap).body b := fun b hb => hb
  refine ⟨hs.session.enter hidle (.refl _) hs.session.vetted.heap (hc.mono hbody hadmits) hcode,
    ?_, ?_, ?_, hs.surrounds_enter limit hidle hkind hown⟩
  · have hblock : ∀ id body scope?, (s.history.knows Body.Placed).block id body scope? →
        ((s.enter limit c b).history.knows Body.Placed).block id body scope? := by
      rintro id body scope? ⟨o, ho, hmade⟩
      exact ⟨o, (congrFun horigin id).trans ho, hmade⟩
    have hbody : ∀ b, (s.history.knows Body.Placed).body b →
        ((s.enter limit c b).history.knows Body.Placed).body b := fun b hb => hb
    exact hknown.mono hbody hblock
  · show ((Entry.script b).start limit s.machine.heap c).heap.Answers _
    rw [Entry.start, Body.start, Machine.start]
    split
    · next site hsite => exact enter_answers hs.answers hsite
    · exact hs.answers
  · intro hactive
    show Stacks ((Entry.script b).start limit s.machine.heap c).active
      ((Entry.script b).start limit s.machine.heap c).context.scopeStack
    have hactive : ((Entry.script b).start limit s.machine.heap c).active ≠ [] := hactive
    rw [Entry.start, Body.start, Machine.start] at hactive ⊢
    revert hactive
    split
    · next site hsite =>
      intro _
      exact Stacks.enter hsite (fun h => absurd rfl h) fun _ => hown
    · exact fun h => absurd rfl h

end Accords

theorem start_accords : start.Accords where
  session := Session.accord_start _
  known := ⟨Heap.initial_vetted _, by rintro f ⟨⟩, trivial, by rintro c ⟨⟩⟩
  answers := Heap.initial_answers _
  stacked h := absurd rfl h
  surrounds := ⟨by rintro e ⟨⟩, by rintro e ⟨⟩, by rintro id o ⟨⟩, .nil⟩

theorem Reached.accords {limit : Nat} {s : LexicalSession} (hs : s.Reached limit) :
    s.Accords := by
  induction hs with
  | refl => exact start_accords
  | tail _ hm ih =>
    cases hm with
    | step habides => exact ih.step limit habides
    | enter hidle hcontext hcode hkind hown => exact ih.enter limit hidle hcontext hcode hkind hown

end LexicalSession

end ObjectIr
