import Mathlib.Logic.Function.Iterate
import ObjectIr.Machine.Run
import ObjectIr.Proofs.Primitives

/-!
# Steps and runs

What a step can do, once and for all. `settleIn_cases` says where a new activation stands,
`step_running` what becomes of the activation that runs and `resume_cases` of one that is resumed:
in either case the activation goes on or ends at a site that evolved from its own, and only an
instruction that waits enters another (`Machine.entering?`). A run of `fuel` steps is an iterated
step (`run_eq_iterate`).
-/

namespace ObjectIr

/-! ### Entering -/

/-- Whether the activation gets a new scope: to run in, or for want of a parent to reuse. -/
def Invocation.allocates (i : Invocation) : Bool :=
  i.body.pushesScope || (i.body.reusesScope && i.parent?.isNone)

/-- A new activation has a scope of its own, is a guest in its parent's, or stands nowhere. -/
theorem Invocation.settleIn_cases (i : Invocation) (h : Heap) (c : Context) :
    (i.allocates = true ∧ i.body.popsScope = true ∧ i.settleIn h c =
      (.own (h.newScope i.body.scope i.parent?).1, (h.newScope i.body.scope i.parent?).2,
        c.pushScope (h.newScope i.body.scope i.parent?).1 .allocated)) ∨
    (i.allocates = false ∧ ∃ parent, i.parent? = some parent ∧
      (i.body.popsScope = true ∧ i.settleIn h c = (.guest parent, h, c.pushScope parent .reused) ∨
        i.body.popsScope = false ∧ i.settleIn h c = (.guest parent, h, c))) ∨
    (i.allocates = false ∧ i.parent? = none ∧ i.body.popsScope = false ∧
      i.settleIn h c = (.nowhere, h, c)) := by
  rw [allocates, Body.popsScope, settleIn]
  cases hp : i.body.pushesScope with
  | true => exact .inl ⟨rfl, rfl, rfl⟩
  | false =>
    cases i.parent? with
    | some parent =>
      refine .inr (.inl ⟨by simp, parent, rfl, ?_⟩)
      cases i.body.reusesScope with
      | true => exact .inl ⟨rfl, rfl⟩
      | false => exact .inr ⟨rfl, rfl⟩
    | none =>
      cases i.body.reusesScope with
      | true => exact .inl ⟨rfl, rfl, rfl⟩
      | false => exact .inr (.inr ⟨rfl, rfl, rfl, rfl⟩)

def Invocation.activation (i : Invocation) (footing : Footing) : Activation :=
  { body := i.body, pc := 0, temps := .init i.body.temps, args := i.args
    receiver := i.frame.receiver, footing, answer? := i.answer? }

def Context.withFrame (c : Context) (f : Frame) : Context :=
  { c with
    frames := f :: c.frames
    stats := { c.stats with framePushes := c.stats.framePushes + 1 } }

/-- Entering is refused when the frames are at their limit, and for no other reason. -/
theorem enter_eq (limit : Nat) (h : Heap) (c : Context) (i : Invocation) :
    enter limit h c i =
      if limit ≤ c.frameDepth then .error .stackOverflow
      else
        let settled := i.settleIn h (c.withFrame i.frame)
        .ok ⟨settled.2.1, settled.2.2, i.activation settled.1⟩ := by
  rw [enter, Context.pushFrame]
  split <;> rfl

theorem enter_quiet (limit : Nat) (h : Heap) (c : Context) (i : Invocation) :
    Quiet (enter limit h c i) := by
  rw [enter_eq]
  split
  · exact .error rfl
  · exact .ok _

theorem enter_eq_ok {limit : Nat} {h : Heap} {c : Context} {i : Invocation} {s : Site}
    (hs : enter limit h c i = .ok s) :
    s = ⟨(i.settleIn h (c.withFrame i.frame)).2.1, (i.settleIn h (c.withFrame i.frame)).2.2,
      i.activation (i.settleIn h (c.withFrame i.frame)).1⟩ := by
  rw [enter_eq] at hs
  split at hs
  · cases hs
  · exact (Except.ok.inj hs).symm

theorem leave_frames (b : Body) (c : Context) : (leave b c).frames = c.frames.tail := by
  have hpop : ∀ c : Context, c.popFrame.frames = c.frames.tail := by
    rintro ⟨frames, scopes, stats⟩
    cases frames <;> rfl
  rw [leave, hpop]
  split
  · rw [Context.popScope]
    split <;> rfl
  · rfl

namespace Machine

/-! ### Steps -/

/-- The instruction carried out next, and the site where it is carried out. -/
def next? (m : Machine) : Option (Instr × Site) :=
  match m.control with
  | .running a =>
    a.body.code[a.pc]?.map fun i => (i, ⟨m.heap, m.context, { a with pc := a.pc + 1 }⟩)
  | _ => none

def entering? (limit : Nat) (m : Machine) : Option Invocation :=
  match m.next? with
  | some (i, s) =>
    match i.execute s with
    | .ok (.call _ inv) t =>
      match enter limit t.heap t.context inv with
      | .ok _ => some inv
      | .error _ => none
    | _ => none
  | none => none

/-- The method that is defined next: its name, its body and the frame of the activation. -/
def addingMethod? (m : Machine) : Option (String × Body × Frame) :=
  match m.next? with
  | some (.defineMethod name body, s) => s.context.currentFrame?.map fun f => (name, body, f)
  | _ => none

def active (m : Machine) : List Activation :=
  match m.control with
  | .running a | .leaving a _ => a :: m.callers.map Caller.activation
  | .finished _ => []

@[simp] theorem active_runningAt (s : Site) (cs : List Caller) :
    (runningAt s cs).active = s.activation :: cs.map Caller.activation := rfl

@[simp] theorem active_leavingAt (s : Site) (r : Except Unwind Value) (cs : List Caller) :
    (leavingAt s r cs).active = s.activation :: cs.map Caller.activation := rfl

theorem next?_eq_some {m : Machine} {i : Instr} {s : Site} (h : m.next? = some (i, s)) :
    ∃ a, m.control = .running a ∧ i ∈ a.body.code ∧
      s = ⟨m.heap, m.context, { a with pc := a.pc + 1 }⟩ := by
  unfold next? at h
  split at h
  · next a ha =>
    obtain ⟨j, hj, h⟩ := Option.map_eq_some_iff.1 h
    cases h
    exact ⟨a, ha, List.mem_of_getElem? hj, rfl⟩
  · cases h

theorem step_of_next {limit : Nat} {m : Machine} {i : Instr} {s : Site}
    (h : m.next? = some (i, s)) : m.step limit = follow limit m.callers (i.execute s) := by
  obtain ⟨heap, context, control, callers⟩ := m
  cases control with
  | running a =>
    simp only [next?, Option.map_eq_some_iff, Prod.mk.injEq] at h
    obtain ⟨i', hi, rfl, rfl⟩ := h
    simp only [step, hi]
    rfl
  | _ => cases h

theorem next?_of_addingMethod {m : Machine} {name : String} {body : Body} {f : Frame}
    (h : m.addingMethod? = some (name, body, f)) :
    ∃ s, m.next? = some (.defineMethod name body, s) ∧ s.context.currentFrame? = some f := by
  unfold addingMethod? at h
  split at h
  · next s hnext =>
    obtain ⟨f', hframe, heq⟩ := Option.map_eq_some_iff.1 h
    cases heq
    exact ⟨s, hnext, hframe⟩
  · cases h

/-- The method takes the next number, and is put in the module that the frame implements. -/
theorem step_of_addingMethod {m : Machine} {name : String} {body : Body} {f : Frame} (limit : Nat)
    (h : m.addingMethod? = some (name, body, f)) :
    m.context.currentFrame? = some f ∧ ∃ a, m.control = .running a ∧
      m.step limit = runningAt ⟨(m.heap.newMethod body f.visibility f.module).2.addMethod f.module
        name (m.heap.newMethod body f.visibility f.module).1, m.context,
          { a with pc := a.pc + 1 }⟩ m.callers := by
  obtain ⟨s, hnext, hframe⟩ := next?_of_addingMethod h
  obtain ⟨a, ha, -, rfl⟩ := next?_eq_some hnext
  refine ⟨hframe, a, ha, ?_⟩
  have hf : Site.frame ⟨m.heap, m.context, { a with pc := a.pc + 1 }⟩ = .ok f := by
    rw [Site.frame]
    simp only [hframe]
  rw [step_of_next hnext, execute_defineMethod, hf]
  rfl

/-- A site of an activation that goes on to another site of it, or ends there. -/
def GoesOn (s : Site) (callers : List Caller) (m : Machine) : Prop :=
  ∃ t, s.Evolves t ∧ (m = runningAt t callers ∨ ∃ r, m = leavingAt t r callers)

/--
A step of a running activation: it goes on or ends without entering another, or it waits for the
one that it enters.
-/
theorem step_running (limit : Nat) {m : Machine} {a : Activation} (hm : m.control = .running a) :
    ∃ pc, (m.entering? limit = none ∧
        GoesOn ⟨m.heap, m.context, { a with pc }⟩ m.callers (m.step limit)) ∨
      ∃ inv t callee r, m.entering? limit = some inv ∧
        Site.Evolves ⟨m.heap, m.context, { a with pc }⟩ t ∧
        enter limit t.heap t.context inv = .ok callee ∧
        m.step limit = runningAt callee (⟨t.activation, r⟩ :: m.callers) := by
  obtain ⟨heap, context, control, callers⟩ := m
  simp only at hm
  subst hm
  cases hi : a.body.code[a.pc]? with
  | none =>
    have hnext : next? ⟨heap, context, .running a, callers⟩ = none := by
      rw [next?]
      simp only [hi]
      rfl
    refine ⟨a.pc, .inl ⟨by rw [entering?, hnext], ⟨heap, context, a⟩, .refl _, .inr ⟨.ok .nil, ?_⟩⟩⟩
    simp only [step, hi]
    rfl
  | some i =>
    have hnext : next? ⟨heap, context, .running a, callers⟩ =
        some (i, ⟨heap, context, { a with pc := a.pc + 1 }⟩) := by
      rw [next?]
      simp only [hi]
      rfl
    refine ⟨a.pc + 1, ?_⟩
    rw [step_of_next hnext, entering?, hnext]
    have hev := execute_evolves i ⟨heap, context, { a with pc := a.pc + 1 }⟩
    cases he : i.execute ⟨heap, context, { a with pc := a.pc + 1 }⟩ with
    | error f t =>
      rw [he] at hev
      exact .inl ⟨by simp only [he], t, hev, .inr ⟨_, rfl⟩⟩
    | ok o t =>
      rw [he] at hev
      cases o with
      | next => exact .inl ⟨by simp only [he], t, hev, .inl rfl⟩
      | complete v => exact .inl ⟨by simp only [he], t, hev, .inr ⟨_, rfl⟩⟩
      | «return» target v => exact .inl ⟨by simp only [he], t, hev, .inr ⟨_, rfl⟩⟩
      | call r inv =>
        simp only [he, follow]
        cases hc : enter limit t.heap t.context inv with
        | error f => exact .inl ⟨rfl, t, hev, .inr ⟨_, rfl⟩⟩
        | ok callee => exact .inr ⟨inv, t, callee, r, rfl, hev, hc, rfl⟩

theorem resume_cases (h : Heap) (c : Context) (r : Except Unwind Value) (cs : List Caller) :
    (cs = [] ∧ resume h c r cs = ⟨h, c, .finished (r.mapError Unwind.toFailure), []⟩) ∨
      ∃ caller cs', cs = caller :: cs' ∧
        GoesOn ⟨h, c, caller.activation⟩ cs' (resume h c r cs) := by
  cases cs with
  | nil => exact .inl ⟨rfl, rfl⟩
  | cons caller cs =>
    refine .inr ⟨caller, cs, rfl, ?_⟩
    cases r with
    | error u => exact ⟨_, .refl _, .inr ⟨_, rfl⟩⟩
    | ok v =>
      simp only [resume]
      cases hs : Site.store ⟨h, c, caller.activation⟩ caller.result v with
      | error f => exact ⟨_, .refl _, .inr ⟨_, rfl⟩⟩
      | ok t =>
        obtain ⟨k, ts, hk, rfl⟩ := Site.store_changes hs
        exact ⟨_, .of_eq hk, .inl rfl⟩

theorem GoesOn.active {s : Site} {cs : List Caller} {m : Machine} (h : GoesOn s cs m) :
    ∃ t, s.Evolves t ∧ m.heap = t.heap ∧ m.context = t.context ∧ m.callers = cs ∧
      m.active = t.activation :: cs.map Caller.activation := by
  obtain ⟨t, ht, rfl | ⟨r, rfl⟩⟩ := h
  · exact ⟨t, ht, rfl, rfl, rfl, rfl⟩
  · exact ⟨t, ht, rfl, rfl, rfl, rfl⟩

/-! ### Runs -/

/-- The machine after a number of steps. -/
def after (limit n : Nat) (m : Machine) : Machine := (step limit)^[n] m

theorem after_zero (limit : Nat) (m : Machine) : m.after limit 0 = m := rfl

theorem after_succ (limit n : Nat) (m : Machine) :
    m.after limit (n + 1) = (m.after limit n).step limit :=
  Function.iterate_succ_apply' _ _ _

theorem after_succ' (limit n : Nat) (m : Machine) :
    m.after limit (n + 1) = (m.step limit).after limit n := rfl

theorem after_add (limit n k : Nat) (m : Machine) :
    m.after limit (n + k) = (m.after limit n).after limit k := by
  rw [after, Nat.add_comm, Function.iterate_add_apply]
  rfl

theorem step_of_result {limit : Nat} {m : Machine} {r : Result} (h : m.result? = some r) :
    m.step limit = m := by
  obtain ⟨heap, context, control, callers⟩ := m
  cases control with
  | finished => rfl
  | _ => cases h

theorem after_of_result {limit : Nat} {m : Machine} {r : Result} (h : m.result? = some r)
    (n : Nat) : m.after limit n = m := by
  induction n with
  | zero => rfl
  | succ n ih => rw [after_succ, ih, step_of_result h]

theorem run_eq_after (limit fuel : Nat) (m : Machine) :
    m.run limit fuel = (m.after limit fuel).result? := by
  induction fuel generalizing m with
  | zero => rfl
  | succ fuel ih =>
    rw [run, after_succ']
    cases hr : m.result? with
    | none => exact ih _
    | some r => rw [step_of_result hr, after_of_result hr, hr]

theorem control_of_result {m : Machine} {r : Result} (h : m.result? = some r) :
    m.control = .finished r.outcome ∧ m.heap = r.heap ∧ m.context = r.context := by
  obtain ⟨heap, context, control, callers⟩ := m
  cases control with
  | finished => cases h; exact ⟨rfl, rfl, rfl⟩
  | _ => cases h

end Machine

end ObjectIr
