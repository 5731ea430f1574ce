import ObjectIr.Proofs.Chronicle
import ObjectIr.Proofs.ConstantSearch
import ObjectIr.Proofs.Provenance.Annals
import ObjectIr.Proofs.Sessions.Moves

/-!
# The visibility of methods

A method is defined with the visibility of the frame on top, and `set_visibility` writes to that
frame. The frame on top is always that of the running activation, and nothing else writes to it, so
that the frames agree with the annals at any time (`Annals.Fits`): the visibility of a method that
is defined is the one that its own activation set last, or began with (`method_visibility`).
-/

namespace ObjectIr

open Relation (ReflTransGen)

/-! ### What steps do to frames -/

theorem Site.captureScope_context (s : Site) : s.captureScope.2.context = s.context := by
  rw [captureScope]
  split <;> rfl

namespace InstrOf

variable {i : Instr} {s t : Site}

theorem Effect.context (h : i.Effect s t) (hi : ∀ v, i ≠ .setVisibility v) :
    t.context = s.context := by
  cases h with
  | supply | goTo | dispatch | define | defineMethod | putConst => rfl
  | store _ ht =>
    obtain ⟨slots, ts, rfl⟩ := Site.store_eq_ok ht
    rfl
  | setVisibility hset => exact absurd hset (hi _)
  | buildClosure => exact s.captureScope_context

theorem effects_context (h : ReflTransGen i.Effect s t) (hi : ∀ v, i ≠ .setVisibility v) :
    t.context = s.context :=
  effects_keep (P := fun u => u.context = s.context)
    (fun _ _ heffect hu => (heffect.context hi).trans hu) h rfl

theorem Effect.numbered (h : i.Effect s t) : s.heap.next.methods ≤ t.heap.next.methods := by
  cases h with
  | supply | goTo | setVisibility | putConst => exact Nat.le_refl _
  | store _ ht =>
    obtain ⟨slots, ts, rfl⟩ := Site.store_eq_ok ht
    exact Nat.le_refl _
  | dispatch _ hk => exact (Heap.Registers.dispatch hk).numbered
  | define _ hk => exact (Heap.Registers.define hk).numbered
  | defineMethod => exact Nat.le_succ _
  | buildClosure =>
    rw [Site.captureScope]
    split <;> exact Nat.le_refl _

theorem effects_numbered (h : ReflTransGen i.Effect s t) :
    s.heap.next.methods ≤ t.heap.next.methods :=
  effects_keep (P := fun u => s.heap.next.methods ≤ u.heap.next.methods)
    (fun _ _ heffect hu => Nat.le_trans hu heffect.numbered) h (Nat.le_refl _)

end InstrOf

namespace Machine

variable {m : Machine}

theorem resume_spec (h : Heap) (c : Context) (r : Except Unwind Value) (cs : List Caller) :
    (resume h c r cs).context = c ∧ (resume h c r cs).active.length = cs.length ∧
      (resume h c r cs).heap.next = h.next := by
  cases cs with
  | nil => exact ⟨rfl, rfl, rfl⟩
  | cons caller cs =>
    cases r with
    | error u => exact ⟨rfl, by simp [resume], rfl⟩
    | ok v =>
      simp only [resume]
      cases ht : Site.store ⟨h, c, caller.activation⟩ caller.result v with
      | error f => exact ⟨rfl, by simp, rfl⟩
      | ok t =>
        obtain ⟨slots, ts, rfl⟩ := Site.store_eq_ok ht
        exact ⟨rfl, by simp, rfl⟩

theorem entering?_eq_some {limit : Nat} {inv : Invocation} (h : m.entering? limit = some inv) :
    ∃ i s r t, m.next? = some (i, s) ∧ i.execute s = .ok (.call r inv) t := by
  unfold entering? at h
  split at h
  · next i s hnext =>
    split at h
    · next r inv' t he =>
      split at h <;> cases h
      exact ⟨i, s, r, t, hnext, he⟩
    · cases h
  · cases h

theorem enter_numbered {limit : Nat} {h : Heap} {c : Context} {i : Invocation} {s : Site}
    (hs : enter limit h c i = .ok s) : s.heap.next.methods = h.next.methods := by
  rw [enter_eq_ok hs]
  rcases i.settleIn_cases h (c.withFrame i.frame) with
    ⟨-, -, hset⟩ | ⟨-, parent, -, ⟨-, hset⟩ | ⟨-, hset⟩⟩ | ⟨-, -, -, hset⟩ <;> rw [hset]
  all_goals rfl

/-- An instruction that sets no visibility leaves all frames as they are, or adds one. -/
theorem step_frames (limit : Nat) {i : Instr} {s : Site} (hnext : m.next? = some (i, s))
    (hi : ∀ v, i ≠ .setVisibility v) :
    (m.entering? limit = none ∧ (m.step limit).context.frames = m.context.frames ∧
        (m.step limit).active.length = m.active.length) ∨
      ∃ inv, m.entering? limit = some inv ∧
        (m.step limit).context.frames = inv.frame :: m.context.frames ∧
        (m.step limit).active.length = m.active.length + 1 := by
  obtain ⟨a, ha, -, hs⟩ := next?_eq_some hnext
  have hcontext : s.context = m.context := by rw [hs]
  have hactive : m.active.length = m.callers.length + 1 := by simp [active, ha]
  rw [step_of_next hnext, entering?, hnext, hactive, ← hcontext]
  simp only
  cases he : i.execute s with
  | error f t =>
    have ht := InstrOf.effects_context (effects_of_error he) hi
    exact .inl ⟨rfl, congrArg Context.frames ht, by simp [follow]⟩
  | ok o t =>
    have ht := congrArg Context.frames (InstrOf.effects_context (effects_of_ok he) hi)
    cases o with
    | next => exact .inl ⟨rfl, ht, by simp [follow]⟩
    | complete v => exact .inl ⟨rfl, ht, by simp [follow]⟩
    | «return» target v => exact .inl ⟨rfl, ht, by simp [follow]⟩
    | call r inv =>
      simp only [follow]
      cases hcallee : enter limit t.heap t.context inv with
      | error f => exact .inl ⟨rfl, ht, by simp⟩
      | ok callee =>
        exact .inr ⟨inv, rfl, ht ▸ enter_frames hcallee, by simp⟩

theorem step_numbered (limit : Nat) (m : Machine) :
    m.heap.next.methods ≤ (m.step limit).heap.next.methods := by
  cases hcontrol : m.control with
  | finished r => rw [step, hcontrol]
  | leaving a r =>
    have hstep : m.step limit = resume m.heap (leave a.body m.context) (a.settle r) m.callers := by
      rw [step, hcontrol]
    rw [hstep, (resume_spec ..).2.2]
  | running a =>
    cases hnext : m.next? with
    | none =>
      have hi : a.body.code[a.pc]? = none := by
        rw [next?, hcontrol] at hnext
        exact Option.map_eq_none_iff.1 hnext
      rw [step, hcontrol]
      simp only [hi]
      exact Nat.le_refl _
    | some p =>
      obtain ⟨i, s⟩ := p
      obtain ⟨_, -, -, hs⟩ := next?_eq_some hnext
      have hheap : m.heap = s.heap := by rw [hs]
      rw [step_of_next hnext, hheap]
      cases he : i.execute s with
      | error f t => exact InstrOf.effects_numbered (effects_of_error he)
      | ok o t =>
        have ht := InstrOf.effects_numbered (effects_of_ok he)
        cases o with
        | call r inv =>
          simp only [follow]
          cases hcallee : enter limit t.heap t.context inv with
          | error f => exact ht
          | ok callee => exact ht.trans_eq (enter_numbered hcallee).symm
        | _ => exact ht

/-- The method that a definition answers is public, and has a number of its own. -/
theorem defining?_fresh {x : Method} (hx : m.defining? = some x) :
    x.visibility = .public ∧ m.heap.next.methods ≤ x.id := by
  obtain ⟨⟨i, s⟩, hnext, hi⟩ := Option.bind_eq_some_iff.1 hx
  obtain ⟨_, -, -, hs⟩ := next?_eq_some hnext
  simp only [InstrOf.defining?] at hi
  split at hi
  · next r body container superclass =>
    split at hi
    · next y t hy =>
      cases hi
      rw [Exec.define_apply] at hy
      split at hy
      · cases hy
      · next v u hv =>
        split at hy
        · cases hy
        · next superclass? u' hu =>
          split at hy
          · cases hy
          · next hk =>
            cases hy
            have hnumbers : u'.heap.next.methods = m.heap.next.methods := by
              obtain ⟨n, -, rfl⟩ := Exec.reading_eq_ok hv
              split at hu
              · obtain ⟨n', rfl⟩ := Exec.superclass?_eq_ok hu
                rw [hs]
              · cases hu
                rw [hs]
            rw [Definition.carryOut] at hk
            split at hk <;> exact hnumbers ▸ Heap.define_public hk
    · cases hi
  · cases hi

end Machine

/-! ### Frames and stints -/

/-- Each active activation has a frame with the visibility of its stint, above those of the host. -/
structure Annals.Fits (a : Annals) (m : Machine) : Prop where
  depth : a.stints.length = m.active.length
  frames : ∃ below, m.context.frames.map Frame.visibility = a.stints.map Stint.visibility ++ below

namespace Annals.Fits

variable {a : Annals} {m : Machine} (hf : a.Fits m)

include hf

/-- While an activation runs, the frame on top is its own. -/
theorem running {b : Activation} (hm : m.control = .running b) :
    ∃ s rest f frames, a.stints = s :: rest ∧ rest.length = m.callers.length ∧
      m.context.frames = f :: frames ∧ f.visibility = s.visibility ∧
        ∃ below, frames.map Frame.visibility = rest.map Stint.visibility ++ below := by
  obtain ⟨below, hframes⟩ := hf.frames
  have hdepth := hf.depth
  rw [Machine.active, hm, List.length_cons, List.length_map] at hdepth
  obtain ⟨s, rest, hs⟩ := List.exists_cons_of_length_eq_add_one hdepth
  rw [hs, List.map_cons, List.cons_append] at hframes
  obtain ⟨f, frames, hcontext, hvisibility, hrest⟩ := List.map_eq_cons_iff.1 hframes
  rw [hs, List.length_cons] at hdepth
  exact ⟨s, rest, f, frames, hs, Nat.succ.inj hdepth, hcontext, hvisibility, below, hrest⟩

end Annals.Fits

namespace Machine

variable {m : Machine} {limit : Nat}

theorem event?_of_finished {r : Except Failure Value} (hm : m.control = .finished r) :
    m.event? limit = none := by
  have hnext : m.next? = none := by rw [next?, hm]
  rw [event?, hm, hnext]
  rfl

theorem event?_of_leaving {b : Activation} {r : Except Unwind Value}
    (hm : m.control = .leaving b r) : m.event? limit = some .ends := by rw [event?, hm]

theorem event?_of_next {i : Instr} {s : Site} (hnext : m.next? = some (i, s)) :
    m.event? limit = m.brought? limit i s := by
  obtain ⟨b, hb, -⟩ := next?_eq_some hnext
  rw [event?, hb, hnext]
  rfl

theorem brought?_cases (limit : Nat) (m : Machine) (i : Instr) (s : Site) :
    (∃ v, i = .setVisibility v ∧ m.brought? limit i s = some (.sets v)) ∨
      m.brought? limit i s = m.making?.map (fun made => .makes made.1) ∨
      m.brought? limit i s = m.defining?.map .answers ∨
      m.brought? limit i s = (m.entering? limit).bind fun _ => (i.beginning? s).map .begins := by
  cases i with
  | setVisibility v => exact .inl ⟨v, rfl, rfl⟩
  | buildClosure r body => exact .inr (.inl rfl)
  | defineClass r body container superclass => exact .inr (.inr (.inl rfl))
  | _ => exact .inr (.inr (.inr rfl))

/-- What is told to be made is made, and what is told to be answered is answered. -/
theorem event?_new {e : Event} (h : m.event? limit = some e) :
    (∀ id, e = .makes id → ∃ body scope?, m.making? = some (id, body, scope?)) ∧
      ∀ x, e = .answers x → m.defining? = some x := by
  unfold event? at h
  split at h
  · cases h
    exact ⟨by rintro id ⟨⟩, by rintro x ⟨⟩⟩
  · obtain ⟨⟨i, s⟩, -, h⟩ := Option.bind_eq_some_iff.1 h
    have h : m.brought? limit i s = some e := h
    rcases m.brought?_cases limit i s with ⟨v, -, hb⟩ | hb | hb | hb <;> rw [hb] at h
    · cases h
      exact ⟨by rintro id ⟨⟩, by rintro x ⟨⟩⟩
    · obtain ⟨⟨id, body, scope?⟩, hmaking, rfl⟩ := Option.map_eq_some_iff.1 h
      exact ⟨by rintro id ⟨⟩; exact ⟨body, scope?, hmaking⟩, by rintro x ⟨⟩⟩
    · obtain ⟨x, hx, rfl⟩ := Option.map_eq_some_iff.1 h
      exact ⟨by rintro id ⟨⟩, by rintro x ⟨⟩; exact hx⟩
    · obtain ⟨inv, -, h⟩ := Option.bind_eq_some_iff.1 h
      obtain ⟨b, -, rfl⟩ := Option.map_eq_some_iff.1 h
      exact ⟨by rintro id ⟨⟩, by rintro x ⟨⟩⟩

/-- What is entered is what the event says. -/
theorem event?_of_entering {inv : Invocation} (h : m.entering? limit = some inv) :
    ∃ b i s, m.next? = some (i, s) ∧ i.beginning? s = some b ∧ b.Opens inv ∧
      m.event? limit = some (.begins b) := by
  obtain ⟨i, s, r, t, hnext, he⟩ := entering?_eq_some h
  obtain ⟨b, hb, hopens⟩ := execute_begins he
  refine ⟨b, i, s, hnext, hb, hopens, ?_⟩
  have hwaits := (execute_call he).1
  have hbrought : m.brought? limit i s =
      (m.entering? limit).bind fun _ => (i.beginning? s).map .begins := by
    cases i <;> first | rfl | cases hwaits
  rw [event?_of_next hnext, hbrought, h, hb]
  rfl

end Machine

namespace Annals

variable {a : Annals} {m : Machine} {limit : Nat}

theorem observe_passing {i : Instr} {s : Site} (hnext : m.next? = some (i, s))
    (hi : ∀ v, i ≠ .setVisibility v) (hentering : m.entering? limit = none) :
    (a.observe limit m).stints = a.stints := by
  rw [observe, Machine.event?_of_next hnext]
  rcases m.brought?_cases limit i s with ⟨v, hset, -⟩ | hb | hb | hb
  · exact absurd hset (hi v)
  · rw [hb]
    cases m.making? <;> rfl
  · rw [hb]
    cases m.defining? <;> rfl
  · rw [hb, hentering]
    rfl

/-- Only new blocks and new methods become known. -/
theorem observe_old (a : Annals) (limit : Nat) (m : Machine) :
    (∀ id, id < m.heap.next.blocks → (a.observe limit m).made? id = a.made? id) ∧
      ∀ id, id < m.heap.next.methods → (a.observe limit m).answered id = a.answered id := by
  rw [observe]
  cases he : m.event? limit with
  | none => exact ⟨fun _ _ => rfl, fun _ _ => rfl⟩
  | some e =>
    cases e with
    | begins | sets | ends => exact ⟨fun _ _ => rfl, fun _ _ => rfl⟩
    | makes id =>
      obtain ⟨body, scope?, hmaking⟩ := (Machine.event?_new he).1 id rfl
      obtain ⟨-, hid, -⟩ := Machine.step_making limit hmaking
      refine ⟨fun n hn => if_neg ?_, fun _ _ => rfl⟩
      omega
    | answers x =>
      obtain ⟨-, hx⟩ := Machine.defining?_fresh ((Machine.event?_new he).2 x rfl)
      refine ⟨fun _ _ => rfl, fun n hn => ?_⟩
      have hne : (n == x.id) = false := beq_false_of_ne (by omega)
      show (n == x.id || a.answered n) = a.answered n
      rw [hne, Bool.false_or]

theorem keeping_within {a' : Annals} {n n' : Supply} (hblocks : n.blocks ≤ n'.blocks)
    (hmethods : n.methods ≤ n'.methods) (hmade : ∀ id, id < n.blocks → a'.made? id = a.made? id)
    (hanswered : ∀ id, id < n.methods → a'.answered id = a.answered id) :
    (a.keeping n).Within (a'.keeping n') where
  block b hb := ⟨Nat.lt_of_lt_of_le hb.1 hblocks, by rw [hmade b.id hb.1]; exact hb.2⟩
  method x hx := hx.imp_right fun ⟨hid, hnot⟩ =>
    ⟨Nat.lt_of_lt_of_le hid hmethods, by rw [hanswered x.id hid, hnot]⟩

variable (hf : a.Fits m)

include hf

theorem Fits.sets {v : Visibility} {i : Instr} {s : Site} (hnext : m.next? = some (i, s))
    (hi : i = .setVisibility v) : (a.observe limit m).Fits (m.step limit) := by
  subst hi
  obtain ⟨b, hb, -, rfl⟩ := Machine.next?_eq_some hnext
  obtain ⟨stint, rest, f, frames, hstints, hlength, hframes, -, below, hrest⟩ := hf.running hb
  have hset : m.context.setVisibility? v =
      some { m.context with frames := { f with visibility := v } :: frames } := by
    rw [Context.setVisibility?, hframes]
  have hobserve : (a.observe limit m).stints =
      { stint with settings := v :: stint.settings } :: rest := by
    rw [observe, Machine.event?_of_next hnext]
    show a.stints.modifyHead _ = _
    rw [hstints]
    rfl
  rw [Machine.step_of_next hnext, execute_setVisibility, hset]
  refine ⟨?_, below, ?_⟩
  · rw [hobserve, Machine.follow, Machine.active_runningAt, List.length_cons, List.length_cons,
      List.length_map, hlength]
  · rw [hobserve, List.map_cons, List.cons_append, ← hrest]
    rfl

theorem Fits.ends {b : Activation} {r : Except Unwind Value} (hm : m.control = .leaving b r) :
    (a.observe limit m).Fits (m.step limit) := by
  obtain ⟨hcontext, hactive, -⟩ :=
    Machine.resume_spec m.heap (leave b.body m.context) (b.settle r) m.callers
  have hstep : m.step limit =
      Machine.resume m.heap (leave b.body m.context) (b.settle r) m.callers := by
    rw [Machine.step, hm]
  obtain ⟨below, hframes⟩ := hf.frames
  have hdepth := hf.depth
  rw [Machine.active, hm, List.length_cons, List.length_map] at hdepth
  obtain ⟨stint, rest, hstints⟩ := List.exists_cons_of_length_eq_add_one hdepth
  have hobserve : (a.observe limit m).stints = rest := by
    rw [observe, Machine.event?_of_leaving hm]
    show a.stints.tail = rest
    rw [hstints, List.tail_cons]
  rw [hstints, List.length_cons] at hdepth
  rw [hstep]
  refine ⟨by rw [hobserve, hactive]; exact Nat.succ.inj hdepth, below, ?_⟩
  rw [hobserve, hcontext, leave_frames, List.map_tail, hframes, hstints]
  rfl

/-- The annals that hear of a step fit the machine after it. -/
theorem Fits.observe (hk : m.Kept (a.keeping m.heap.next)) :
    (a.observe limit m).Fits (m.step limit) := by
  cases hcontrol : m.control with
  | finished r =>
    have hstep : m.step limit = m := by rw [Machine.step, hcontrol]
    rw [Annals.observe, Machine.event?_of_finished hcontrol, hstep]
    exact hf
  | leaving b r => exact hf.ends hcontrol
  | running b =>
    cases hnext : m.next? with
    | none =>
      have hi : b.body.code[b.pc]? = none := by
        rw [Machine.next?, hcontrol] at hnext
        exact Option.map_eq_none_iff.1 hnext
      have hdepth := hf.depth
      rw [Machine.active, hcontrol] at hdepth
      rw [Annals.observe, Machine.event?, hcontrol, hnext, Machine.step, hcontrol]
      simp only [hi]
      exact ⟨hdepth, hf.frames⟩
    | some p =>
      obtain ⟨i, s⟩ := p
      by_cases hset : ∃ v, i = .setVisibility v
      · obtain ⟨v, hi⟩ := hset
        exact hf.sets hnext hi
      · obtain ⟨below, hframes⟩ := hf.frames
        rcases Machine.step_frames limit hnext (not_exists.1 hset) with
          ⟨hentering, hcontext, hactive⟩ | ⟨inv, hentering, hcontext, hactive⟩
        · have hobserve := observe_passing (a := a) hnext (not_exists.1 hset) hentering
          exact ⟨by rw [hobserve, hactive, hf.depth], below, by rw [hobserve, hcontext, hframes]⟩
        · obtain ⟨d, j, t, hnext', hd, hopens, hevent⟩ := Machine.event?_of_entering hentering
          have hinitial := initial_eq (InstrOf.beginning?_kept (hk.site hnext') hd)
          rw [Annals.observe, hevent]
          refine ⟨by rw [hactive, ← hf.depth]; rfl, below, ?_⟩
          rw [hcontext, List.map_cons, hframes, hopens.visibility, ← hinitial]
          rfl

/-- A step reaches no other blocks and methods than the annals tell of. -/
theorem Fits.kept (hk : m.Kept (a.keeping m.heap.next)) :
    (m.step limit).Kept ((a.observe limit m).keeping (m.step limit).heap.next) := by
  obtain ⟨hmade, hanswered⟩ := a.observe_old limit m
  have hwithin : (a.keeping m.heap.next).Within
      ((a.observe limit m).keeping (m.step limit).heap.next) :=
    keeping_within (m.step_grows limit).blocks (m.step_numbered limit) hmade hanswered
  refine Machine.step_kept limit (hk.mono hwithin) ?_
  intro r body s f b hnext hframe hid hvisibility
  have hmaking : m.making? = some (s.heap.next.blocks, body, s.captureScope.1) := by
    rw [Machine.making?, hnext, Option.bind_some]
    simp only [InstrOf.making?, hframe]
  obtain ⟨-, -, hless, -⟩ := Machine.step_making limit hmaking
  refine ⟨by rw [hid]; exact hless, fun v hv => ?_⟩
  obtain ⟨c, hc, -, rfl⟩ := Machine.next?_eq_some hnext
  obtain ⟨stint, rest, g, frames, hstints, -, hframes, hg, -⟩ := hf.running hc
  rw [Annals.observe, Machine.event?_of_next hnext, Machine.brought?, hmaking] at hv
  have hv : (if b.id = m.heap.next.blocks then a.stints.head?.map Stint.visibility
      else a.made? b.id) = some v := hv
  rw [if_pos hid, hstints] at hv
  rw [Site.frame, Context.currentFrame?, hframes] at hframe
  cases hframe
  rw [hvisibility, hg]
  exact Option.some.inj hv

end Annals

/-! ### Tales -/

theorem Heap.initial_kept (w : Keeping) : Heap.initial.Kept w := by
  have hfold : ∀ (ms : List Module) (h : Heap), h.Kept w →
      (ms.foldl (fun h m => h.setConstant Core.object m.name (.module m)) h).Kept w := by
    intro ms
    induction ms with
    | nil => exact fun h hh => hh
    | cons m ms ih => exact fun h hh => ih _ (hh.setConstant _ _ trivial)
  refine hfold Core.all _ ⟨?_, ?_⟩
  · intro m name v hv
    simp [Heap.constant?, Heap.table] at hv
  · intro c v hv
    simp [Heap.slotsOf] at hv

theorem Entry.start_numbers (limit : Nat) (h : Heap) (c : Context) (e : Entry) :
    h.next.blocks ≤ (e.start limit h c).heap.next.blocks ∧
      h.next.methods ≤ (e.start limit h c).heap.next.methods := by
  have hreply : ∀ q k, e.reply h c = .ok (q, k) → h.Registers k := by
    intro q k hq
    cases e with
    | send receiver name args => exact .dispatch hq
    | method x receiver name args block? =>
      rw [reply] at hq
      cases hi : x.invocation c receiver name args block? with
      | error f => rw [hi] at hq; cases hq
      | ok i => rw [hi] at hq; cases hq; exact .refl h
    | _ => cases hq; exact .refl h
  rw [start_eq]
  rcases hr : e.reply h c with f | ⟨v | i, k⟩
  · exact ⟨Nat.le_refl _, Nat.le_refl _⟩
  · have hk := hreply _ _ hr
    exact ⟨Nat.le_of_eq hk.blocks.symm, hk.numbered⟩
  · have hk := hreply _ _ hr
    simp only [Machine.awaiting, Machine.start]
    split
    · next s hs =>
      have hgrows := (enter_grounded hs).1.blocks
      rw [hk.blocks] at hgrows
      exact ⟨hgrows, hk.numbered.trans_eq (Machine.enter_numbered hs).symm⟩
    · exact ⟨Nat.le_of_eq hk.blocks.symm, hk.numbered⟩

/-- A machine and what has been done about visibilities. -/
structure Tale where
  machine : Machine
  annals : Annals

namespace Tale

def start : Tale := ⟨.idle, {}⟩

def step (limit : Nat) (t : Tale) : Tale :=
  ⟨t.machine.step limit, t.annals.observe limit t.machine⟩

def enter (limit : Nat) (t : Tale) (h : Heap) (c : Context) (e : Entry) : Tale :=
  ⟨e.start limit h c, t.annals.receive limit h c e⟩

/--
The tales of all runs, one after the other. Between two runs the host may change heap and context as
it likes, and enters with whatever it has got hold of, as long as its blocks are as they were made.
-/
inductive Reached : Tale → Prop
  | start : Reached start
  | step (limit : Nat) {t : Tale} (ht : Reached t) : Reached (t.step limit)
  | enter (limit : Nat) {t : Tale} (ht : Reached t) (hidle : t.machine.active = []) {h : Heap}
    {c : Context} {e : Entry} (hheap : h.Kept (t.annals.keeping h.next))
    (hcontext : c.Kept (t.annals.keeping h.next)) (hentry : e.Kept (t.annals.keeping h.next)) :
    Reached (t.enter limit h c e)

/-- The annals tell what the frames say. -/
structure Accurate (t : Tale) : Prop where
  fits : t.annals.Fits t.machine
  kept : t.machine.Kept (t.annals.keeping t.machine.heap.next)

theorem Accurate.entered {t : Tale} (ht : t.Accurate) (limit : Nat) (hidle : t.machine.active = [])
    {h : Heap} {c : Context} {e : Entry} (hheap : h.Kept (t.annals.keeping h.next))
    (hcontext : c.Kept (t.annals.keeping h.next)) (hentry : e.Kept (t.annals.keeping h.next)) :
    (t.enter limit h c e).Accurate := by
  obtain ⟨hblocks, hmethods⟩ := e.start_numbers limit h c
  have hstints : t.annals.stints = [] := by
    have hdepth := ht.fits.depth
    rw [hidle] at hdepth
    exact List.length_eq_zero_iff.1 hdepth
  have hreceived : (t.annals.receive limit h c e).made? = t.annals.made? ∧
      (t.annals.receive limit h c e).answered = t.annals.answered := by
    rw [Annals.receive]
    split <;> exact ⟨rfl, rfl⟩
  refine ⟨?_, (e.start_kept limit hheap hcontext hentry).mono (Annals.keeping_within hblocks
    hmethods (fun _ _ => by rw [enter, hreceived.1]) fun _ _ => by rw [enter, hreceived.2])⟩
  rcases e.start_cases limit h c with ⟨hnone, hc, r, hr⟩ | ⟨i, k, s, hreply, hi, hs, hstart⟩
  · have hreceive : t.annals.receive limit h c e = t.annals := by rw [Annals.receive, hnone]
    refine ⟨?_, c.frames.map Frame.visibility, ?_⟩
    · rw [enter, hreceive, hstints, Machine.active, hr]
      rfl
    · rw [enter, hreceive, hstints, hc]
      rfl
  · obtain ⟨b, hb, hopens⟩ := e.reply_begins hreply
    have hinitial := Annals.initial_eq (e.beginning?_kept hentry hb)
    have hreceive : t.annals.receive limit h c e = t.annals.begin b := by
      rw [Annals.receive, hi, hb]
    refine ⟨?_, c.frames.map Frame.visibility, ?_⟩
    · rw [enter, hreceive, hstart, Annals.begin, hstints]
      rfl
    · rw [enter, hreceive, hstart, Annals.begin, hstints]
      show s.context.frames.map Frame.visibility = _
      rw [enter_frames hs, List.map_cons, hopens.visibility, ← hinitial]
      rfl

theorem Reached.accurate {t : Tale} (ht : t.Reached) : t.Accurate := by
  induction ht with
  | start => exact ⟨⟨rfl, [], rfl⟩, Heap.initial_kept _, by rintro f ⟨⟩, trivial, by rintro c ⟨⟩⟩
  | step limit _ ih => exact ⟨ih.fits.observe ih.kept, ih.fits.kept ih.kept⟩
  | enter limit _ hidle hheap hcontext hentry ih =>
    exact ih.entered limit hidle hheap hcontext hentry

theorem Reached.after (limit n : Nat) {t : Tale} (ht : t.Reached) :
    ((Tale.step limit)^[n] t).Reached := by
  induction n with
  | zero => exact ht
  | succ n ih =>
    rw [Function.iterate_succ_apply']
    exact ih.step limit

end Tale

/--
A method is defined with the visibility that its own activation set last, or else began with. The
stints are those of the active activations, one for each. An activation begins with what the annals
say; for a block that is the visibility of the frame under which the block was made, and public for
what a class definition answered.
-/
theorem method_visibility {t : Tale} (ht : t.Reached) (limit : Nat) :
    t.annals.stints.length = t.machine.active.length ∧
      (∀ name body s, t.machine.next? = some (.defineMethod name body, s) →
        ∃ stint rest f, t.annals.stints = stint :: rest ∧
          t.machine.context.currentFrame? = some f ∧
          (t.machine.step limit).heap.method? f.module name =
            some ⟨t.machine.heap.next.methods, body, stint.visibility, f.module⟩) ∧
      (∀ i, t.machine.entering? limit = some i → ∃ b j s, t.machine.next? = some (j, s) ∧
        j.beginning? s = some b ∧ i.body = b.body ∧ i.frame.visibility = t.annals.initial b ∧
        (t.step limit).annals.stints = ⟨t.annals.initial b, []⟩ :: t.annals.stints) ∧
      (∀ id body scope?, t.machine.making? = some (id, body, scope?) →
        ∃ f, t.machine.context.currentFrame? = some f ∧
          (t.step limit).annals.made? id = some f.visibility) ∧
      ∀ x, t.machine.defining? = some x → (t.step limit).annals.answered x.id = true := by
  obtain ⟨hfits, hkept⟩ := ht.accurate
  refine ⟨hfits.depth, fun name body s hnext => ?_, fun i hi => ?_, fun id body scope? h => ?_,
    fun x hx => ?_⟩
  · obtain ⟨b, hb, -, hs⟩ := Machine.next?_eq_some hnext
    obtain ⟨stint, rest, f, frames, hstints, -, hframes, hvisibility, -⟩ := hfits.running hb
    have hadding : t.machine.addingMethod? = some (name, body, f) := by
      rw [Machine.addingMethod?, hnext]
      simp only [hs, Context.currentFrame?, hframes, List.head?_cons, Option.map_some]
    obtain ⟨hcurrent, _, -, hstep⟩ := Machine.step_of_addingMethod limit hadding
    refine ⟨stint, rest, f, hstints, hcurrent, ?_⟩
    rw [hstep, ← hvisibility]
    exact (Heap.method?_addMethod ..).trans (if_pos ⟨rfl, rfl⟩)
  · obtain ⟨b, j, s, hnext, hb, hopens, hevent⟩ := Machine.event?_of_entering hi
    have hinitial := Annals.initial_eq (InstrOf.beginning?_kept (hkept.site hnext) hb)
    refine ⟨b, j, s, hnext, hb, hopens.body, hopens.visibility.trans hinitial.symm, ?_⟩
    rw [Tale.step, Annals.observe, hevent]
    rfl
  · obtain ⟨⟨j, s⟩, hnext, hmaking⟩ := Option.bind_eq_some_iff.1 h
    obtain ⟨⟨r, rfl⟩, -⟩ := execute_making hmaking
    obtain ⟨b, hb, -⟩ := Machine.next?_eq_some hnext
    obtain ⟨stint, rest, f, frames, hstints, -, hframes, hvisibility, -⟩ := hfits.running hb
    refine ⟨f, by rw [Context.currentFrame?, hframes]; rfl, ?_⟩
    rw [Tale.step, Annals.observe, Machine.event?_of_next hnext, Machine.brought?, h, hvisibility]
    refine (if_pos rfl).trans ?_
    rw [hstints]
    rfl
  · obtain ⟨⟨j, s⟩, hnext, hj⟩ := Option.bind_eq_some_iff.1 hx
    cases j with
    | defineClass r body container superclass =>
      rw [Tale.step, Annals.observe, Machine.event?_of_next hnext, Machine.brought?, hx]
      exact Bool.or_eq_true_iff.2 (.inl (beq_self_eq_true _))
    | _ => cases hj

/-- A block that sets a visibility of its own and defines a method. -/
def guardedBlock : Draft where
  name := "block"
  scope := ⟨⟨1, .closure, []⟩, [⟨0, .script, []⟩]⟩
  code := [.setVisibility .protected, .defineMethod "inner" (inner.body 2 {}), .ret .nil]
where
  inner : Draft := { name := "inner", scope := ⟨⟨2, .method, []⟩, []⟩, code := [] }

/-- A script that makes the block, sets a visibility, yields to the block and defines a method. -/
def guardingScript : Draft where
  name := "<main>"
  scope := ⟨⟨0, .script, []⟩, []⟩
  code := [
    .buildClosure (.temp ⟨.generic, 0⟩) (guardedBlock.body 1 {}),
    .setVisibility .public,
    .yield (.temp ⟨.generic, 1⟩) (.var (.temp ⟨.generic, 0⟩)) [],
    .defineMethod "outer" (outer.body 3 {}),
    .ret .nil]
where
  outer : Draft := { name := "outer", scope := ⟨⟨3, .method, []⟩, []⟩, code := [] }

def guardingTale (steps : Nat) : Tale :=
  (Tale.step 8)^[steps]
    (Tale.start.enter 8 .initial {} (.script (guardingScript.body 0 { generic := 2 })))

theorem guardingTale_reached (steps : Nat) : (guardingTale steps).Reached :=
  .after 8 steps (.enter 8 .start rfl (Heap.initial_kept _) (by rintro f ⟨⟩) trivial)

/-- The block began as private as its creator was then, and set nothing for the script. -/
theorem method_visibility_guarding :
    (guardingTale 4).annals.stints = [⟨.private, [.protected]⟩, ⟨.private, [.public]⟩] ∧
      (∃ x, ((guardingTale 4).machine.step 8).heap.method? Core.object "inner" = some x ∧
        x.visibility = .protected) ∧
      ∃ x, ((guardingTale 7).machine.step 8).heap.method? Core.object "outer" = some x ∧
        x.visibility = .public := by
  have hdefined : ∀ (n : Nat) (name : String) (v : Visibility),
      ((guardingTale n).machine.addingMethod?.map fun d => (d.1, d.2.2.module)) =
          some (name, Core.object) →
        (guardingTale n).annals.stints.head?.map Stint.visibility = some v →
          ∃ x, ((guardingTale n).machine.step 8).heap.method? Core.object name = some x ∧
            x.visibility = v := by
    intro n name v hadds hv
    obtain ⟨⟨_, body, f⟩, hadding, heq⟩ := Option.map_eq_some_iff.1 hadds
    obtain ⟨rfl, hmodule⟩ := Prod.mk.inj heq
    obtain ⟨hf, -⟩ := Machine.step_of_addingMethod 8 hadding
    obtain ⟨s, hnext, -⟩ := Machine.next?_of_addingMethod hadding
    obtain ⟨stint, rest, g, hstints, hg, hx⟩ :=
      (method_visibility (guardingTale_reached n) 8).2.1 _ body s hnext
    rw [hf] at hg
    cases hg
    rw [hmodule] at hx
    rw [hstints] at hv
    exact ⟨_, hx, Option.some.inj hv⟩
  exact ⟨by decide +kernel, hdefined 4 "inner" .protected (by decide +kernel) (by decide +kernel),
    hdefined 7 "outer" .public (by decide +kernel) (by decide +kernel)⟩

end ObjectIr
