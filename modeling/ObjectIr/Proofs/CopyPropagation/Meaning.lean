import Mathlib.Data.List.Forall2
import ObjectIr.Machine.Run
import ObjectIr.Proofs.CopyPropagation.Known
import ObjectIr.Proofs.Primitives

/-!
# Optimized bodies mean the same

Two machines run side by side, one with a body and one with its optimized form. They are paired
when their heaps and contexts are alike and their activations agree on what copy propagation knows
where they stand (`Machine.Paired`). A step keeps them paired (`step_paired`): after an instruction
the activation is at the next one or at a label, and either way what is known there holds. So the
runs end together, and alike (`run_paired`).
-/

namespace ObjectIr

/-! ### Ends -/

/-- Ends of activations with the same values and failures, up to the numbers of arrays. -/
inductive Ends : Except Unwind Value → Except Unwind Value → Prop
  | ok {v w : Value} (h : v.Alike w) : Ends (.ok v) (.ok w)
  | failure {f g : Failure} (h : f.Alike g) : Ends (.error (.failure f)) (.error (.failure g))
  | return (target : Nat) {v w : Value} (h : v.Alike w) :
    Ends (.error (.return target v)) (.error (.return target w))

theorem Ends.outcome {r r' : Except Unwind Value} (h : Ends r r') :
    Agree Value.Alike (r.mapError Unwind.toFailure) (r'.mapError Unwind.toFailure) := by
  cases h with
  | ok h => exact .ok h
  | failure h => exact .error h
  | «return» => exact .error rfl

/-- Results that differ at most in the numbers of arrays. Failures read the same. -/
structure Result.Alike (r r' : Result) : Prop where
  heap : r.heap.Alike r'.heap
  context : r.context.Alike r'.context
  outcome : Agree Value.Alike r.outcome r'.outcome
  failure : ∀ f g, r.outcome = .error f → r'.outcome = .error g →
    f.text = g.text ∧ f.message = g.message

theorem Result.Alike.of_outcome {r r' : Result} (hh : r.heap.Alike r'.heap)
    (hc : r.context.Alike r'.context) (ho : Agree Value.Alike r.outcome r'.outcome) :
    r.Alike r' := by
  refine ⟨hh, hc, ho, fun f g hf hg => ?_⟩
  rw [hf, hg] at ho
  cases ho with
  | error hfg => exact ⟨hfg.text_eq, hfg.message_eq⟩

/-! ### Machines -/

/-- Callers that wait with the same variable, of which nothing is known where they go on. -/
inductive Caller.Paired : Caller → Caller → Prop
  | mk {shared : Temp → Prop} {known : Nat → Substitution} {now : Substitution} {b b' : Body}
    {a a' : Activation} {r : Variable} (hb : b.Propagated shared known b')
    (ha : a.Tracked shared now b b' a') (hr : Shared shared [r])
    (hnow : ∀ e ∈ known a.pc, e ∈ now.forget r) : Paired ⟨a, r⟩ ⟨a', r⟩

inductive Control.Paired : Control → Control → Prop
  | running {shared : Temp → Prop} {known : Nat → Substitution} {b b' : Body} {a a' : Activation}
    (hb : b.Propagated shared known b') (ha : a.Tracked shared (known a.pc) b b' a') :
    Paired (.running a) (.running a')
  | leaving {shared : Temp → Prop} {b b' : Body} {a a' : Activation} {r r' : Except Unwind Value}
    (hb : b.Kin b') (ha : a.Tracked shared [] b b' a') (hr : Ends r r') :
    Paired (.leaving a r) (.leaving a' r')
  | finished {r r' : Except Failure Value} (hr : Agree Value.Alike r r') :
    Paired (.finished r) (.finished r')

structure Machine.Paired (m m' : Machine) : Prop where
  heap : m.heap.Alike m'.heap
  context : m.context.Alike m'.context
  control : m.control.Paired m'.control
  callers : List.Forall₂ Caller.Paired m.callers m'.callers

section

variable {shared : Temp → Prop} {known : Nat → Substitution} {b b' : Body}

theorem leavingAt_paired (hb : b.Kin b') {now : Substitution} {s s' : Site}
    (hs : s.Tracked shared b b' now s') {r r' : Except Unwind Value} (hr : Ends r r')
    {cs cs' : List Caller} (hcs : List.Forall₂ Caller.Paired cs cs') :
    (Machine.leavingAt s r cs).Paired (Machine.leavingAt s' r' cs') :=
  ⟨hs.heap, hs.context, .leaving hb hs.forgetAll.activation hr, hcs⟩

theorem runningAt_paired (hb : b.Propagated shared known b') {s s' : Site}
    (hs : s.Tracked shared b b' (known s.activation.pc) s')
    {cs cs' : List Caller} (hcs : List.Forall₂ Caller.Paired cs cs') :
    (Machine.runningAt s cs).Paired (Machine.runningAt s' cs') :=
  ⟨hs.heap, hs.context, .running hb hs.activation, hcs⟩

/-! ### Entering -/

structure Invocation.Paired (b b' : Body) (i i' : Invocation) : Prop where
  body : i.body = b
  body' : i'.body = b'
  frame : i.frame.content = i'.frame.content
  parent? : i.parent? = i'.parent?
  args : i.args.map Value.content = i'.args.map Value.content
  answer? : i.answer?.map Value.content = i'.answer?.map Value.content

theorem settleIn_paired (hb : b.Kin b') {i i' : Invocation} (hi : i.Paired b b' i') {h h' : Heap}
    (hh : h.Alike h') {c c' : Context} (hc : c.Alike c') :
    (i.settleIn h c).1 = (i'.settleIn h' c').1 ∧
      (i.settleIn h c).2.1.Alike (i'.settleIn h' c').2.1 ∧
      (i.settleIn h c).2.2.Alike (i'.settleIn h' c').2.2 := by
  have hpush : ∀ (s : DynamicScope) (o : ScopeOrigin), (c.pushScope s o).Alike (c'.pushScope s o) :=
    fun s o => by
      rw [Context.Alike, Context.pushScope_content, hc, ← Context.pushScope_content]
  have hpushes : i.body.pushesScope = i'.body.pushesScope := by
    rw [hi.body, hi.body', Body.pushesScope, Body.isEliminated, Body.reusesScope, hb.flags]
    rfl
  have hreuses : i.body.reusesScope = i'.body.reusesScope := by
    rw [hi.body, hi.body', Body.reusesScope, hb.flags]
    rfl
  have hscope : i.body.scope = i'.body.scope := by rw [hi.body, hi.body', hb.scope]
  have hnew : ∀ parent? : Option DynamicScope,
      (Footing.own (h.newScope i'.body.scope parent?).1) =
          .own (h'.newScope i'.body.scope parent?).1 ∧
        (h.newScope i'.body.scope parent?).2.Alike (h'.newScope i'.body.scope parent?).2 ∧
        (c.pushScope (h.newScope i'.body.scope parent?).1 .allocated).Alike
          (c'.pushScope (h'.newScope i'.body.scope parent?).1 .allocated) := by
    intro parent?
    obtain ⟨h1, h2⟩ := hh.newScope i'.body.scope parent?
    exact ⟨congrArg Footing.own h1, h2, by rw [show _ = _ from h1]; exact hpush _ _⟩
  rw [Invocation.settleIn, Invocation.settleIn, hpushes, hreuses, hscope, hi.parent?]
  cases i'.body.pushesScope with
  | true => exact hnew i'.parent?
  | false =>
    cases i'.parent? with
    | some parent =>
      cases i'.body.reusesScope with
      | true => exact ⟨rfl, hh, hpush parent .reused⟩
      | false => exact ⟨rfl, hh, hc⟩
    | none =>
      cases i'.body.reusesScope with
      | true => exact hnew none
      | false => exact ⟨rfl, hh, hc⟩

theorem enter_paired (limit : Nat) (hb : b.Kin b') {i i' : Invocation} (hi : i.Paired b b' i')
    (hshared : ∀ t, shared t → b.temps.holds t = true ∧ b'.temps.holds t = true ∨ b = b')
    {h h' : Heap} (hh : h.Alike h') {c c' : Context} (hc : c.Alike c') :
    Agree (fun s s' => s.activation.pc = 0 ∧ s.Tracked shared b b' [] s')
      (enter limit h c i) (enter limit h' c' i') := by
  have hframe := hc.pushFrame_agree limit hi.frame
  rcases hframe.cases with ⟨c₁, c₁', h1, h2, hc₁⟩ | ⟨f, f', h1, h2, hf⟩
  · obtain ⟨h3, h4, h5⟩ := settleIn_paired hb hi hh hc₁
    rw [enter, enter, h1, h2]
    refine .ok ⟨rfl, h4, h5, hi.body, hi.body', rfl, ⟨fun t ht => ?_, ?_⟩, hi.args, ?_, h3, rfl,
      hi.answer?⟩
    · show ((Temps.init i.body.temps).get? t).map Value.content =
        ((Temps.init i'.body.temps).get? t).map Value.content
      rw [hi.body, hi.body', Temps.get?_init, Temps.get?_init]
      rcases hshared t ht with ⟨h6, h7⟩ | rfl
      · rw [h6, h7]
      · rfl
    · rintro e ⟨⟩
    · exact
        (congrArg Frame.receiver hi.frame : i.frame.content.receiver = i'.frame.content.receiver)
  · rw [enter, enter, h1, h2]
    exact .error hf

theorem Invocation.Paired.of_content {i i' : Invocation} (h : i.content = i'.content) :
    i.Paired i.body i.body i' where
  body := rfl
  body' := (congrArg Invocation.body h : i.content.body = i'.content.body).symm
  frame := (congrArg Invocation.frame h : i.content.frame = i'.content.frame)
  parent? := (congrArg Invocation.parent? h : i.content.parent? = i'.content.parent?)
  args := (congrArg Invocation.args h : i.content.args = i'.content.args)
  answer? := (congrArg Invocation.answer? h : i.content.answer? = i'.content.answer?)

/-! ### Steps -/

theorem leave_alike {a a' : Body} (h : a.flags = a'.flags) {c c' : Context} (hc : c.Alike c') :
    (leave a c).Alike (leave a' c') := by
  have hpop : ∀ b c, (leave b c).content = leave b c.content := by
    intro b c
    rw [leave, leave, Context.popFrame_content]
    cases b.popsScope with
    | true => exact congrArg Context.popFrame (Context.popScope_content c)
    | false => rfl
  have hflags : ∀ c, leave a c = leave a' c := by
    intro c
    rw [leave, leave, Body.popsScope, Body.popsScope, Body.pushesScope, Body.pushesScope,
      Body.isEliminated, Body.isEliminated, Body.reusesScope, Body.reusesScope, h]
  rw [Context.Alike, hpop, hpop, hflags, show c.content = c'.content from hc]

theorem settle_paired {now : Substitution} {a a' : Activation} (hb : b.Kin b')
    (ha : a.Tracked shared now b b' a') {r r' : Except Unwind Value} (hr : Ends r r') :
    Ends (a.settle r) (a'.settle r') := by
  have hresult : ∀ {v w : Value}, v.Alike w → (a.result v).Alike (a'.result w) := by
    intro v w hv
    rw [Activation.result, Activation.result]
    rcases map_eq_cases ha.answer? with ⟨h1, h2⟩ | ⟨x, y, h1, h2, hxy⟩
    · rw [h1, h2]
      exact hv
    · rw [h1, h2]
      exact hxy
  cases hr with
  | ok h => exact .ok (hresult h)
  | failure h => exact .failure h
  | «return» target h =>
    have hkind : a.body.kind = a'.body.kind := by
      rw [ha.body, ha.body', Body.kind, hb.scope]
      rfl
    have howns : a.owns target = a'.owns target := by
      rw [Activation.owns, Activation.owns, ha.footing, ha.bridge?]
    rw [Activation.settle, Activation.settle, hkind, howns]
    split
    · exact .ok (hresult h)
    · exact .return target h

theorem resume_paired {h h' : Heap} (hh : h.Alike h') {c c' : Context} (hc : c.Alike c')
    {r r' : Except Unwind Value} (hr : Ends r r') {cs cs' : List Caller}
    (hcs : List.Forall₂ Caller.Paired cs cs') :
    (Machine.resume h c r cs).Paired (Machine.resume h' c' r' cs') := by
  cases hcs with
  | nil => exact ⟨hh, hc, .finished hr.outcome, .nil⟩
  | cons hcaller hcs =>
    obtain @⟨shared, known, now, b, b', a, a', r, hb, ha, hshared, hnow⟩ := hcaller
    cases hr with
    | failure hf => exact leavingAt_paired hb.kin ⟨hh, hc, ha⟩ (.failure hf) hcs
    | «return» target hv => exact leavingAt_paired hb.kin ⟨hh, hc, ha⟩ (.return target hv) hcs
    | @ok v w hv =>
      have hstore := store_tracked hb.kin hshared hv ⟨h, c, _⟩ ⟨h', c', _⟩ ⟨hh, hc, ha⟩
      rw [Exec.store_apply, Exec.store_apply] at hstore
      simp only [Machine.resume]
      cases ht : Site.store ⟨h, c, a⟩ r v with
      | error f =>
        cases ht' : Site.store ⟨h', c', a'⟩ r w with
        | ok s' =>
          rw [ht, ht'] at hstore
          cases hstore
        | error f' =>
          rw [ht, ht'] at hstore
          cases hstore with
          | error hf hs => exact leavingAt_paired hb.kin hs (.failure hf) hcs
      | ok s =>
        cases ht' : Site.store ⟨h', c', a'⟩ r w with
        | error f' =>
          rw [ht, ht'] at hstore
          cases hstore
        | ok s' =>
          rw [ht, ht'] at hstore
          have hpc : s.activation.pc = a.pc := by
            obtain ⟨k, ts, -, rfl⟩ := Site.store_changes ht
            rfl
          cases hstore with
          | ok _ hs => exact runningAt_paired hb (hs.mono (by rw [hpc]; exact hnow)) hcs

/-- After an instruction, no more is known where the activation stands than was learned. -/
theorem known_after (hb : b.Propagated shared known b') {a : Activation} (ha : a.body = b)
    {i : Instr} (hi : b.code[a.pc]? = some i) {h : Heap} {c : Context} {t : Site} {o : Outcome}
    (hexec : i.execute ⟨h, c, { a with pc := a.pc + 1 }⟩ = .ok o t) :
    ∀ e ∈ known t.activation.pc, e ∈ (known a.pc).after (i.simplified (known a.pc) true) := by
  have hev := execute_evolves i ⟨h, c, { a with pc := a.pc + 1 }⟩
  rw [hexec] at hev
  rcases hev.pc with hpc | ⟨l, hl⟩
  · rw [hpc]
    exact hb.next a.pc i hi
  · rw [hb.label l _ (by rw [← ha]; exact hl)]
    rintro e ⟨⟩

/-- What a call leaves known does not mention the variable it sets. -/
theorem after_of_waits {values : Substitution} {i : Instr} {r : Variable} (hi : i.waits = true)
    (hr : i.result? = some r) : values.after i = values.forget r := by
  rw [Substitution.after, hr]
  cases i <;> first | rfl | cases hi

/--
Executions that end alike are followed by paired machines, if no more is known where the activation
stands than is tracked, and a call sets a variable of which nothing is.
-/
theorem followed_paired (limit : Nat) (hb : b.Propagated shared known b') {now : Substitution}
    {r r' : EStateM.Result Failure Site Outcome}
    (hr : Matched (Site.Tracked shared b b' now) (Site.Tracked shared b b' []) Outcome.Alike r r')
    (hnext : ∀ o t, r = .ok o t → ∀ e ∈ known t.activation.pc, e ∈ now)
    (hcall : ∀ x j t, r' = .ok (.call x j) t → Shared shared [x] ∧ ∀ e ∈ now, e ∈ now.forget x)
    {cs cs' : List Caller} (hcs : List.Forall₂ Caller.Paired cs cs') :
    (Machine.follow limit cs r).Paired (Machine.follow limit cs' r') := by
  rcases hr.cases with ⟨o, o', s, s', h1, h2, ho, hs⟩ | ⟨f, f', s, s', h1, h2, hf, hs⟩
  · have hknown := hnext o s h1
    rw [h1, h2]
    cases ho with
    | next => exact runningAt_paired hb (hs.mono hknown) hcs
    | complete hv => exact leavingAt_paired hb.kin hs (.ok hv) hcs
    | «return» target hv => exact leavingAt_paired hb.kin hs (.return target hv) hcs
    | call x hinv =>
      rename_i j j'
      have hentered : Agree
          (fun t t' => t.activation.pc = 0 ∧ t.Tracked (fun _ => True) j.body j.body [] t')
          (enter limit s.heap s.context j) (enter limit s'.heap s'.context j') :=
        enter_paired limit ⟨rfl, rfl, rfl, rfl⟩ (.of_content hinv) (fun _ _ => .inr rfl) hs.heap
          hs.context
      rcases hentered.cases with ⟨t, t', h3, h4, hpc, ht⟩ | ⟨f, f', h3, h4, hf⟩
      · simp only [Machine.follow, h3, h4]
        obtain ⟨hx, hforget⟩ := hcall x j' s' h2
        exact runningAt_paired (Body.Propagated.refl _) ht
          (.cons (.mk hb hs.activation hx fun e he => hforget e (hknown e he)) hcs)
      · simp only [Machine.follow, h3, h4]
        exact leavingAt_paired hb.kin hs (.failure hf) hcs
  · rw [h1, h2]
    exact leavingAt_paired hb.kin hs (.failure hf) hcs

theorem follow_paired (limit : Nat) (hb : b.Propagated shared known b') {a a' : Activation}
    (ha : a.Tracked shared (known a.pc) b b' a') {i : Instr} (hi : b.code[a.pc]? = some i)
    {h h' : Heap} (hh : h.Alike h') {c c' : Context} (hc : c.Alike c') {cs cs' : List Caller}
    (hcs : List.Forall₂ Caller.Paired cs cs') :
    (Machine.follow limit cs (i.execute ⟨h, c, { a with pc := a.pc + 1 }⟩)).Paired
      (Machine.follow limit cs' ((i.simplified (known a.pc) true).execute
        ⟨h', c', { a' with pc := a'.pc + 1 }⟩)) := by
  have hcode : b'.code[a.pc]? = some (i.simplified (known a.pc) true) := by
    rw [hb.code, hi]
    rfl
  have hused := hb.shared _ (List.mem_of_getElem? hcode)
  have hsite : Site.Tracked shared b b' (known a.pc) ⟨h, c, { a with pc := a.pc + 1 }⟩
      ⟨h', c', { a' with pc := a'.pc + 1 }⟩ := ⟨hh, hc, { ha with pc := by rw [ha.pc] }⟩
  refine followed_paired limit hb (execute_tracked hb.kin (hb.stable a.pc) i hused _ _ hsite)
    (fun o t h1 => known_after hb ha.body hi h1) (fun x j t h2 => ?_) hcs
  obtain ⟨hwaits, hx⟩ := execute_call h2
  refine ⟨fun u hu => hused u ?_, fun e he => ?_⟩
  · rw [InstrOf.usedVariables, hx]
    exact List.mem_append_left _ hu
  · rw [after_of_waits hwaits hx] at he ⊢
    exact Substitution.mem_forget.2 ⟨he, (Substitution.mem_forget.1 he).2⟩

theorem step_paired (limit : Nat) {m m' : Machine} (h : m.Paired m') :
    (m.step limit).Paired (m'.step limit) := by
  obtain ⟨heap, context, control, callers⟩ := m
  obtain ⟨heap', context', control', callers'⟩ := m'
  obtain ⟨hheap, hcontext, hcontrol, hcallers⟩ := h
  simp only at hheap hcontext hcontrol hcallers
  cases hcontrol with
  | finished hr => exact ⟨hheap, hcontext, .finished hr, hcallers⟩
  | leaving hb ha hr =>
    refine resume_paired hheap (leave_alike ?_ hcontext) (settle_paired hb ha hr) hcallers
    rw [ha.body, ha.body', hb.flags]
  | @running _ known _ _ a a' hb ha =>
    obtain rfl := ha.body
    obtain rfl := ha.body'
    simp only [Machine.step, ← ha.pc]
    rw [hb.code]
    cases hi : a.body.code[a.pc]? with
    | none =>
      have hs : Site.Tracked _ a.body a'.body (known a.pc) ⟨heap, context, a⟩
          ⟨heap', context', a'⟩ :=
        ⟨hheap, hcontext, ha⟩
      exact leavingAt_paired hb.kin hs (.ok rfl) hcallers
    | some i =>
      have hfollow := follow_paired limit hb ha hi hheap hcontext hcallers
      rw [← ha.pc] at hfollow
      exact hfollow

/-! ### Runs -/

theorem run_paired (limit fuel : Nat) {m m' : Machine} (h : m.Paired m') :
    Option.Rel Result.Alike (m.run limit fuel) (m'.run limit fuel) := by
  have hresult : ∀ {m m' : Machine}, m.Paired m' →
      Option.Rel Result.Alike m.result? m'.result? := by
    rintro ⟨heap, context, control, callers⟩ ⟨heap', context', control', callers'⟩
      ⟨hheap, hcontext, hcontrol, -⟩
    simp only at hheap hcontext hcontrol
    cases hcontrol with
    | finished hr => exact .some (.of_outcome hheap hcontext hr)
    | _ => exact .none
  induction fuel generalizing m m' with
  | zero => exact hresult h
  | succ fuel ih =>
    have hr := hresult h
    rw [Machine.run, Machine.run]
    cases h1 : m.result? <;> cases h2 : m'.result? <;> rw [h1, h2] at hr
    · exact ih (step_paired limit h)
    · cases hr
    · cases hr
    · exact hr

end

/--
Every body that was built can be optimized. From any heap and context, in any frame, parent scope
and with any arguments, a run of the optimized body ends when a run of the body does, with a like
outcome, heap and context.
-/
theorem optimized_runs_alike {d : Draft} {id : Nat} {b : Body} (hb : d.build id = .ok b)
    (id' : Nat) :
    ∃ b', b.optimized id' = .ok b' ∧
      ∀ (limit fuel : Nat) (h : Heap) (c : Context) (frame : Frame)
        (parent? : Option DynamicScope) (args : List Value),
        Option.Rel Result.Alike
          ((Machine.start limit h c { body := b, frame, parent?, args }).run limit fuel)
          ((Machine.start limit h c { body := b', frame, parent?, args }).run limit fuel) := by
  obtain ⟨b', hb', hp⟩ := b.optimized_of_build hb id'
  refine ⟨b', hb', fun limit fuel h c frame parent? args => run_paired limit fuel ?_⟩
  have hi : Invocation.Paired b b' { body := b, frame, parent?, args }
      { body := b', frame, parent?, args } := ⟨rfl, rfl, rfl, rfl, rfl, rfl⟩
  have hentered := enter_paired limit hp.kin hi (fun t ht => .inl ht) (.refl h) (.refl c)
  rw [Machine.start, Machine.start]
  rcases hentered.cases with ⟨s, s', h1, h2, hpc, hs⟩ | ⟨f, f', h1, h2, hf⟩
  · rw [h1, h2]
    refine runningAt_paired hp ?_ .nil
    rw [hpc, hp.start]
    exact hs
  · rw [h1, h2]
    exact ⟨.refl h, .refl c, .finished (.error hf), .nil⟩

/-- A method that copies a constant and answers the copy. -/
def copyDraft : Draft where
  name := "copy"
  scope := .nest ⟨0, .method, []⟩ none
  code := [.copy (.temp ⟨.generic, 0⟩) (.fixnum 1), .ret (.var (.temp ⟨.generic, 0⟩))]

theorem optimized_runs_alike_copyDraft :
    ∃ b b', copyDraft.build 0 = .ok b ∧ b.optimized 1 = .ok b' ∧
      ∀ (fuel : Nat) (frame : Frame),
        Option.Rel Result.Alike
          ((Machine.start 8 .initial {} ⟨b, frame, none, [], none⟩).run 8 fuel)
          ((Machine.start 8 .initial {} ⟨b', frame, none, [], none⟩).run 8 fuel) := by
  have hb : copyDraft.build 0 = .ok (copyDraft.body 0 { generic := 1 }) := rfl
  obtain ⟨b', hb', h⟩ := optimized_runs_alike hb 1
  exact ⟨_, b', hb, hb', fun fuel frame => h 8 fuel .initial {} frame none []⟩

end ObjectIr
