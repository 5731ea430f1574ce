import ObjectIr.Proofs.CopyPropagation.Meaning
import ObjectIr.Proofs.Runs
import ObjectIr.Proofs.Sharing.Instructions
import ObjectIr.Proofs.Sharing.Places

/-!
# Machines with linked arrays

A machine that runs a body and one that runs its simplified form are linked when their heaps and
stacks are, the outermost activations run the two bodies, and all others one body each
(`Machine.Linked`). A step keeps them linked, by links that may have grown, as long as the arrays
are literal that the outermost activation makes where the simplified body copies a constant into a
temporary (`Machine.Linked.step`). So they stay linked for good (`Machine.Linked.after`).
-/

namespace ObjectIr

/-! ### Stacks -/

namespace Context.Linked

variable {l : Links} {c c' : Context} (hc : c.Linked l c')

include hc

theorem pushFrame (limit : Nat) {f f' : Frame} (hf : f.Linked l f') :
    Jointly (Failure.Linked l) (Context.Linked l) (c.pushFrame limit f)
      (c'.pushFrame limit f') := by
  rw [Context.pushFrame, Context.pushFrame, frameDepth, frameDepth, hc.frames.length_eq]
  split
  · exact .error (.plain rfl rfl)
  · exact .ok ⟨.cons hf hc.frames, hc.scopes, by rw [hc.stats]⟩

theorem pushScope (s : DynamicScope) (origin : ScopeOrigin) :
    (c.pushScope s origin).Linked l (c'.pushScope s origin) :=
  ⟨hc.frames, by simp only [Context.pushScope, hc.scopes], by
    simp only [Context.pushScope, hc.stats]⟩

theorem popScope : c.popScope.Linked l c'.popScope := by
  rw [Context.popScope, Context.popScope, ← hc.scopes]
  split
  · exact hc
  · exact ⟨hc.frames, rfl, by rw [hc.stats]⟩

theorem popFrame : c.popFrame.Linked l c'.popFrame := by
  obtain ⟨frames, scopes, stats⟩ := c
  obtain ⟨frames', scopes', stats'⟩ := c'
  obtain ⟨hframes, rfl, rfl⟩ := hc
  cases hframes with
  | nil => exact ⟨.nil, rfl, rfl⟩
  | cons _ h => exact ⟨h, rfl, rfl⟩

theorem leave {b b' : Body} (hflags : b.flags = b'.flags) :
    (ObjectIr.leave b c).Linked l (ObjectIr.leave b' c') := by
  have hpops : b.popsScope = b'.popsScope := by
    rw [Body.popsScope, Body.popsScope, Body.pushesScope, Body.pushesScope, Body.isEliminated,
      Body.isEliminated, Body.reusesScope, Body.reusesScope, hflags]
  rw [ObjectIr.leave, ObjectIr.leave, hpops]
  split
  · exact hc.popScope.popFrame
  · exact hc.popFrame

end Context.Linked

/-! ### Entering -/

section Entering

theorem Invocation.settleIn_arrays (i : Invocation) (h : Heap) (c : Context) :
    (i.settleIn h c).2.1.next.arrays = h.next.arrays := by
  rcases i.settleIn_cases h c with
    ⟨-, -, hset⟩ | ⟨-, parent, -, ⟨-, hset⟩ | ⟨-, hset⟩⟩ | ⟨-, -, -, hset⟩ <;> rw [hset]
  rfl

variable {l : Links} {h h' : Heap} (H : h.Linked l h') {c c' : Context} (hc : c.Linked l c')
  {i i' : Invocation} (hi : i.Linked l i') {b' : Body} (hb : i.body.Kin b')

include H hc hi hb

theorem settleIn_linked :
    (i.settleIn h c).1 = ({ i' with body := b' }.settleIn h' c').1 ∧
      (i.settleIn h c).2.1.Linked l ({ i' with body := b' }.settleIn h' c').2.1 ∧
      (i.settleIn h c).2.2.Linked l ({ i' with body := b' }.settleIn h' c').2.2 := by
  have hpushes : i.body.pushesScope = b'.pushesScope := by
    rw [Body.pushesScope, Body.isEliminated, Body.reusesScope, hb.flags]
    rfl
  have hreuses : i.body.reusesScope = b'.reusesScope := by
    rw [Body.reusesScope, hb.flags]
    rfl
  have hnew : ∀ parent? : Option DynamicScope,
      (Footing.own (h.newScope b'.scope parent?).1) = .own (h'.newScope b'.scope parent?).1 ∧
        (h.newScope b'.scope parent?).2.Linked l (h'.newScope b'.scope parent?).2 ∧
        (c.pushScope (h.newScope b'.scope parent?).1 .allocated).Linked l
          (c'.pushScope (h'.newScope b'.scope parent?).1 .allocated) := by
    intro parent?
    obtain ⟨hs, hh⟩ := H.newScope b'.scope parent?
    exact ⟨congrArg Footing.own hs, hh, hs ▸ hc.pushScope _ _⟩
  rw [Invocation.settleIn, Invocation.settleIn, hpushes, hreuses, hb.scope, hi.parent?]
  cases b'.pushesScope with
  | true => exact hnew i'.parent?
  | false =>
    cases i'.parent? with
    | some parent =>
      cases b'.reusesScope with
      | true => exact ⟨rfl, H, hc.pushScope parent .reused⟩
      | false => exact ⟨rfl, H, hc⟩
    | none =>
      cases b'.reusesScope with
      | true => exact hnew none
      | false => exact ⟨rfl, H, hc⟩

theorem enter_linked (limit : Nat) {literal : Nat → Prop} {shared : Temp → Prop}
    (hshared : ∀ t, shared t → i.body.temps.holds t = b'.temps.holds t)
    (hsound : l.Sound literal h.next.arrays h'.next.arrays) :
    Jointly (Failure.Linked l)
      (fun s s' => s.activation.pc = 0 ∧ s.Tied literal shared i.body b' [] l s')
      (enter limit h c i) (enter limit h' c' { i' with body := b' }) := by
  rcases (hc.pushFrame limit hi.frame).elim with ⟨f, g, h1, h2, hf⟩ | ⟨d, d', h1, h2, hd⟩
  · rw [enter, enter, h1, h2]
    exact .error hf
  · obtain ⟨hfooting, hheap, hcontext⟩ := settleIn_linked H hd hi hb
    rw [enter, enter, h1, h2]
    refine .ok ⟨rfl, ⟨hheap, hcontext, rfl, rfl, rfl, ⟨fun t ht => ?_, by simp⟩, hi.args,
      hi.frame.receiver, hfooting, rfl, hi.answer?⟩, ?_⟩
    · show Option.Rel (Value.Linked l) ((Temps.init i.body.temps).get? t)
        ((Temps.init b'.temps).get? t)
      rw [Temps.get?_init, Temps.get?_init, hshared t ht]
      split
      · exact .some (.plain (by cases t.kind <;> simp [TempKind.initial])
          (by cases t.kind <;> simp [TempKind.initial]))
      · exact .none
    · show l.Sound literal (i.settleIn h d).2.1.next.arrays
        ({ i' with body := b' }.settleIn h' d').2.1.next.arrays
      rw [Invocation.settleIn_arrays, Invocation.settleIn_arrays]
      exact hsound

end Entering

/-! ### Ends -/

inductive Ending.Linked (l : Links) : Except Unwind Value → Except Unwind Value → Prop
  | ok {v w : Value} (h : v.Linked l w) : Linked l (.ok v) (.ok w)
  | failure {f g : Failure} (h : f.Linked l g) :
    Linked l (.error (.failure f)) (.error (.failure g))
  | return (target : Nat) {v w : Value} (h : v.Linked l w) :
    Linked l (.error (.return target v)) (.error (.return target w))

theorem Ending.Linked.outcome {l : Links} {r r' : Except Unwind Value} (h : Ending.Linked l r r') :
    Jointly (Failure.Linked l) (Value.Linked l) (r.mapError Unwind.toFailure)
      (r'.mapError Unwind.toFailure) := by
  cases h with
  | ok h => exact .ok h
  | failure h => exact .error h
  | «return» => exact .error (.plain rfl rfl)

theorem Ending.Linked.settle {literal : Nat → Prop} {shared : Temp → Prop} {b b' : Body}
    {known : Substitution} {l : Links} (hb : b.Kin b') {a a' : Activation}
    (ha : a.Linked literal shared b b' known l a') {r r' : Except Unwind Value}
    (hr : Ending.Linked l r r') : Ending.Linked l (a.settle r) (a'.settle r') := by
  have hresult : ∀ {v w : Value}, v.Linked l w → (a.result v).Linked l (a'.result w) := by
    intro v w hv
    have hanswer := ha.answer?
    rw [Activation.result, Activation.result]
    generalize a.answer? = x at hanswer
    generalize a'.answer? = y at hanswer
    cases hanswer with
    | none => exact hv
    | some h => exact h
  cases hr with
  | ok hv => exact .ok (hresult hv)
  | failure hf => exact .failure hf
  | «return» target hv =>
    have hkind : a.body.kind = a'.body.kind := by
      rw [ha.body, ha.body', Body.kind, hb.scope, Body.kind]
    have howns : a.owns target = a'.owns target := by
      rw [Activation.owns, Activation.owns, ha.footing, ha.bridge?]
    rw [Activation.settle, Activation.settle, hkind, howns]
    split
    · exact .ok (hresult hv)
    · exact .return target hv

/-! ### Machines -/

/-- A body and its simplified form, with what is known before each instruction. -/
structure Propagation where
  shared : Temp → Prop
  known : Nat → Substitution
  body : Body
  body' : Body
  propagated : body.Propagated shared known body'

namespace Propagation

/-- A body stands for itself, with nothing known. -/
def refl (b : Body) : Propagation := ⟨_, _, b, b, .refl b⟩

/-- What activations run over these callers: the outermost the two bodies, any other one body. -/
def Over (p : Propagation) : List Caller → Propagation → Prop
  | [], q => q = p
  | _ :: _, q => ∃ b, q = .refl b

end Propagation

section Machines

variable (literal : Nat → Prop) (p : Propagation) (l : Links)

/-- Callers that wait with the same variable, of which nothing is known where they go on. -/
inductive Callers.Linked : List Caller → List Caller → Prop
  | nil : Linked [] []
  | cons {q : Propagation} {now : Substitution} {a a' : Activation} {r : Variable}
    {cs cs' : List Caller} (hq : p.Over cs q)
    (ha : a.Linked literal q.shared q.body q.body' now l a') (hr : Shared q.shared [r])
    (hnow : ∀ e ∈ q.known a.pc, e ∈ now.forget r) (hcs : Linked cs cs') :
    Linked (⟨a, r⟩ :: cs) (⟨a', r⟩ :: cs')

inductive Control.Linked (cs : List Caller) : Control → Control → Prop
  | running {q : Propagation} (hq : p.Over cs q) {a a' : Activation}
    (ha : a.Linked literal q.shared q.body q.body' (q.known a.pc) l a') :
    Linked cs (.running a) (.running a')
  | leaving {q : Propagation} (hq : p.Over cs q) {a a' : Activation}
    (ha : a.Linked literal q.shared q.body q.body' [] l a') {r r' : Except Unwind Value}
    (hr : Ending.Linked l r r') : Linked cs (.leaving a r) (.leaving a' r')
  | finished {r r' : Except Failure Value} (hr : Jointly (Failure.Linked l) (Value.Linked l) r r') :
    Linked cs (.finished r) (.finished r')

structure Machine.Linked (m m' : Machine) : Prop where
  heap : m.heap.Linked l m'.heap
  context : m.context.Linked l m'.context
  control : m.control.Linked literal p l m.callers m'.control
  callers : Callers.Linked literal p l m.callers m'.callers
  sound : l.Sound literal m.heap.next.arrays m'.heap.next.arrays

end Machines

/--
The number goes to an array that the outermost activation makes where the simplified body copies a
constant into a temporary.
-/
def Machine.MakesLiteral (limit : Nat) (b' : Body) (m : Machine) (n : Nat) : Prop :=
  ∃ a i, m.control = .running a ∧ m.callers = [] ∧ b'.code[a.pc]? = some i ∧ i.isLiteral = true ∧
    m.heap.next.arrays ≤ n ∧ n < (m.step limit).heap.next.arrays

variable {literal : Nat → Prop} {p q : Propagation} {l l' : Links} {cs cs' : List Caller}
  {now : Substitution} {s s' : Site}

theorem Callers.Linked.mono (hl : l.Within l') (h : Callers.Linked literal p l cs cs') :
    Callers.Linked literal p l' cs cs' := by
  induction h with
  | nil => exact .nil
  | cons hq ha hr hnow _ ih => exact .cons hq (ha.mono hl) hr hnow ih

theorem runningAt_linked (hq : p.Over cs q)
    (hs : s.Tied literal q.shared q.body q.body' (q.known s.activation.pc) l s')
    (hcs : Callers.Linked literal p l cs cs') :
    (Machine.runningAt s cs).Linked literal p l (Machine.runningAt s' cs') :=
  ⟨hs.heap, hs.context, .running hq hs.activation, hcs, hs.sound⟩

theorem leavingAt_linked (hq : p.Over cs q)
    (hs : s.Tied literal q.shared q.body q.body' now l s') {r r' : Except Unwind Value}
    (hr : Ending.Linked l r r') (hcs : Callers.Linked literal p l cs cs') :
    (Machine.leavingAt s r cs).Linked literal p l (Machine.leavingAt s' r' cs') :=
  ⟨hs.heap, hs.context, .leaving hq hs.forgetAll.activation hr, hcs, hs.sound⟩

/-! ### Steps -/

theorem resume_linked {h h' : Heap} (hh : h.Linked l h') {c c' : Context} (hc : c.Linked l c')
    (hsound : l.Sound literal h.next.arrays h'.next.arrays) {r r' : Except Unwind Value}
    (hr : Ending.Linked l r r') (hcs : Callers.Linked literal p l cs cs') :
    (Machine.resume h c r cs).Linked literal p l (Machine.resume h' c' r' cs') := by
  cases hcs with
  | nil => exact ⟨hh, hc, .finished hr.outcome, .nil, hsound⟩
  | @cons q now a a' x cs cs' hq ha hx hnow hcs =>
    have hs : Site.Tied literal q.shared q.body q.body' now l ⟨h, c, a⟩ ⟨h', c', a'⟩ :=
      ⟨⟨hh, hc, ha⟩, hsound⟩
    cases hr with
    | failure hf => exact leavingAt_linked hq hs (.failure hf) hcs
    | «return» target hv => exact leavingAt_linked hq hs (.return target hv) hcs
    | @ok v w hv =>
      simp only [Machine.resume]
      rcases (hs.store q.propagated.kin hx hv).elim with
        ⟨f, g, h1, h2, hf⟩ | ⟨t, t', h1, h2, ht⟩
      · rw [h1, h2]
        exact leavingAt_linked hq hs (.failure hf) hcs
      · rw [h1, h2]
        have hpc : t.activation.pc = a.pc := by
          obtain ⟨k, ts, -, rfl⟩ := Site.store_changes h1
          rfl
        exact runningAt_linked hq (ht.learn (by rw [hpc]; exact hnow)) hcs

/--
Executions that end linked are followed by linked machines, if no more is known where the activation
stands than holds there, and a call sets a variable of which nothing is.
-/
theorem followed_linked (limit : Nat) (hq : p.Over cs q)
    {r r' : EStateM.Result Failure Site Outcome}
    (hr : l.Meets (Site.Tied literal q.shared q.body q.body' now)
      (Site.Tied literal q.shared q.body q.body' []) Outcome.Linked r r')
    (hnext : ∀ o t, r = .ok o t → ∀ e ∈ q.known t.activation.pc, e ∈ now)
    (hcall : ∀ x j t, r' = .ok (.call x j) t →
      Shared q.shared [x] ∧ ∀ e ∈ now, e ∈ now.forget x)
    (hcs : Callers.Linked literal p l cs cs') :
    ∃ l', (Machine.follow limit cs r).Linked literal p l' (Machine.follow limit cs' r') := by
  rcases hr.elim with ⟨l', o, o', s, s', h1, h2, hl, ho, hs⟩ | ⟨l', f, g, s, s', h1, h2, hl, hf, hs⟩
  · have hknown := hnext o s h1
    have hcs := hcs.mono hl
    refine ⟨l', ?_⟩
    rw [h1, h2]
    cases ho with
    | next => exact runningAt_linked hq (hs.learn hknown) hcs
    | complete hv => exact leavingAt_linked hq hs (.ok hv) hcs
    | «return» target hv => exact leavingAt_linked hq hs (.return target hv) hcs
    | @call x j j' hj =>
      have hsame : { j' with body := j.body } = j' := by rw [hj.body]
      have hentered : Jointly (Failure.Linked l')
          (fun t t' => t.activation.pc = 0 ∧
            t.Tied literal (fun _ => True) j.body j.body [] l' t')
          (enter limit s.heap s.context j) (enter limit s'.heap s'.context j') :=
        hsame ▸ enter_linked hs.heap hs.context hj ⟨rfl, rfl, rfl, rfl⟩ limit (fun _ _ => rfl)
          hs.sound
      rcases hentered.elim with ⟨f, g, h3, h4, hf⟩ | ⟨t, t', h3, h4, -, ht⟩
      · simp only [Machine.follow, h3, h4]
        exact leavingAt_linked hq hs (.failure hf) hcs
      · simp only [Machine.follow, h3, h4]
        obtain ⟨hx, hforget⟩ := hcall x j' s' h2
        exact runningAt_linked ⟨j.body, rfl⟩ ht
          (.cons hq hs.activation hx (fun e he => hforget e (hknown e he)) hcs)
  · rw [h1, h2]
    exact ⟨l', leavingAt_linked hq hs (.failure hf) (hcs.mono hl)⟩

/-- An instruction of the outermost activation, where arrays that it makes may become literal. -/
theorem follow_outermost (limit : Nat) {a a' : Activation}
    (ha : a.Linked literal p.shared p.body p.body' (p.known a.pc) l a') {i : Instr}
    (hi : p.body.code[a.pc]? = some i) {h h' : Heap} (hh : h.Linked l h') {c c' : Context}
    (hc : c.Linked l c') (hsound : l.Sound literal h.next.arrays h'.next.arrays)
    (hliteral : (i.simplified (p.known a.pc) true).isLiteral = true →
      ∀ u, i.execute ⟨h, c, { a with pc := a.pc + 1 }⟩ = .ok .next u →
        ∀ n, h.next.arrays ≤ n → n < u.heap.next.arrays → literal n) :
    ∃ l', (Machine.follow limit [] (i.execute ⟨h, c, { a with pc := a.pc + 1 }⟩)).Linked literal p
      l' (Machine.follow limit [] ((i.simplified (p.known a.pc) true).execute
        ⟨h', c', { a' with pc := a'.pc + 1 }⟩)) := by
  have hb := p.propagated
  have hcode : p.body'.code[a.pc]? = some (i.simplified (p.known a.pc) true) := by
    rw [hb.code, hi]
    rfl
  have hused := hb.shared _ (List.mem_of_getElem? hcode)
  have hsite : Site.Tied literal p.shared p.body p.body' (p.known a.pc) l
      ⟨h, c, { a with pc := a.pc + 1 }⟩ ⟨h', c', { a' with pc := a'.pc + 1 }⟩ :=
    ⟨⟨hh, hc, { ha with pc := by rw [ha.pc] }⟩, hsound⟩
  refine followed_linked limit (show p.Over [] p from rfl)
    (Links.execute_linked hb.kin (hb.stable a.pc) i hused hsite hliteral)
    (fun o t h1 => known_after hb ha.body hi h1) (fun x j t h2 => ?_) .nil
  obtain ⟨hwaits, hx⟩ := execute_call h2
  refine ⟨fun u hu => hused u ?_, fun e he => ?_⟩
  · rw [InstrOf.usedVariables, hx]
    exact List.mem_append_left _ hu
  · rw [after_of_waits hwaits hx] at he ⊢
    exact Substitution.mem_forget.2 ⟨he, (Substitution.mem_forget.1 he).2⟩

/-- An instruction of any other activation, which both run from one body. -/
theorem follow_inner (limit : Nat) {a a' : Activation} (hq : p.Over cs (.refl a.body))
    (ha : a.Linked literal (fun _ => True) a.body a.body [] l a') (i : Instr) {h h' : Heap}
    (hh : h.Linked l h') {c c' : Context} (hc : c.Linked l c')
    (hsound : l.Sound literal h.next.arrays h'.next.arrays)
    (hcs : Callers.Linked literal p l cs cs') :
    ∃ l', (Machine.follow limit cs (i.execute ⟨h, c, { a with pc := a.pc + 1 }⟩)).Linked literal p
      l' (Machine.follow limit cs' (i.execute ⟨h', c', { a' with pc := a'.pc + 1 }⟩)) := by
  have hsite : Site.Tied literal (fun _ => True) a.body a.body [] l
      ⟨h, c, { a with pc := a.pc + 1 }⟩ ⟨h', c', { a' with pc := a'.pc + 1 }⟩ :=
    ⟨⟨hh, hc, { ha with pc := by rw [ha.pc] }⟩, hsound⟩
  refine followed_linked limit hq (Links.execute_unknowing i hsite) (fun _ _ _ e he => he)
    (fun x j t _ => ⟨fun _ _ => trivial, fun e he => ?_⟩) hcs
  cases he

/-- A step adds to what is linked, if the arrays that it makes from constants are literal. -/
theorem Machine.Linked.step (limit : Nat) {m m' : Machine} (h : m.Linked literal p l m')
    (hliteral : ∀ n, m.MakesLiteral limit p.body' n → literal n) :
    ∃ l', (m.step limit).Linked literal p l' (m'.step limit) := by
  obtain ⟨heap, context, control, callers⟩ := m
  obtain ⟨heap', context', control', callers'⟩ := m'
  obtain ⟨hheap, hcontext, hcontrol, hcallers, hsound⟩ := h
  simp only at hheap hcontext hcontrol hcallers hsound
  cases hcontrol with
  | finished hr => exact ⟨l, hheap, hcontext, .finished hr, hcallers, hsound⟩
  | @leaving q hq a a' ha r r' hr =>
    have hkin := q.propagated.kin
    refine ⟨l, resume_linked hheap (hcontext.leave ?_) hsound (hr.settle hkin ha) hcallers⟩
    rw [ha.body, ha.body', hkin.flags]
  | @running q hq a a' ha =>
    obtain ⟨shared, known, b, b', hb⟩ := q
    obtain rfl : a.body = b := ha.body
    obtain rfl : a'.body = b' := ha.body'
    dsimp only at ha
    have hcode := hb.code a.pc
    simp only [Machine.step, ← ha.pc, hcode]
    cases hi : a.body.code[a.pc]? with
    | none =>
      have hs : Site.Tied literal shared a.body a'.body (known a.pc) l ⟨heap, context, a⟩
          ⟨heap', context', a'⟩ := ⟨⟨hheap, hcontext, ha⟩, hsound⟩
      exact ⟨l, leavingAt_linked hq hs (.ok Value.linked_nil) hcallers⟩
    | some i =>
      cases callers with
      | nil =>
        obtain rfl : Propagation.mk shared known a.body a'.body hb = p := hq
        cases hcallers
        have hmade : (i.simplified (known a.pc) true).isLiteral = true →
            ∀ u, i.execute ⟨heap, context, { a with pc := a.pc + 1 }⟩ = .ok .next u →
              ∀ n, heap.next.arrays ≤ n → n < u.heap.next.arrays → literal n := by
          intro hi' u hu n hn hn'
          refine hliteral n ⟨a, _, rfl, rfl, by rw [hcode, hi]; rfl, hi', hn, ?_⟩
          simp only [Machine.step, hi, EStateM.run, hu]
          exact hn'
        have hfollow := follow_outermost (p := ⟨shared, known, a.body, a'.body, hb⟩) limit ha hi
          hheap hcontext hsound hmade
        rw [← ha.pc] at hfollow
        exact hfollow
      | cons c cs =>
        obtain ⟨b, hq⟩ := hq
        simp only [Propagation.refl, Propagation.mk.injEq] at hq
        obtain ⟨rfl, rfl, rfl, hsame⟩ := hq
        rw [hsame] at ha
        simp only [Option.map_some, InstrOf.simplified_nil]
        have hover : p.Over (c :: cs) (.refl a.body) := ⟨a.body, rfl⟩
        have hfollow := follow_inner limit hover ha i hheap hcontext hsound hcallers
        rw [← ha.pc] at hfollow
        exact hfollow

/-! ### Runs -/

section Runs

variable {m m' : Machine} (h : m.Linked literal p l m')

include h

theorem Machine.Linked.after (limit : Nat)
    (hliteral : ∀ k n, (m.after limit k).MakesLiteral limit p.body' n → literal n) (k : Nat) :
    ∃ l', (m.after limit k).Linked literal p l' (m'.after limit k) := by
  induction k with
  | zero => exact ⟨l, h⟩
  | succ k ih =>
    obtain ⟨l', hk⟩ := ih
    rw [Machine.after_succ, Machine.after_succ]
    exact hk.step limit (hliteral k)

theorem Machine.Linked.result {r : Result} (hr : m.result? = some r) :
    ∃ r', m'.result? = some r' ∧ r.Linked l r' := by
  obtain ⟨heap, context, control, callers⟩ := m
  obtain ⟨heap', context', control', callers'⟩ := m'
  obtain ⟨hheap, hcontext, hcontrol, -, -⟩ := h
  cases hcontrol with
  | finished ho =>
    cases hr
    exact ⟨_, rfl, hheap, hcontext, ho⟩
  | _ => cases hr

end Runs

end ObjectIr
