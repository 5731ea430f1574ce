import ObjectIr.Proofs.DepthLimit
import ObjectIr.Proofs.Primitives

/-!
# Code without backward jumps comes to an end

An instruction leaves its activation at the next one, or at its own target
(`execute_proceeds`). So where all jumps go forward, an activation has fewer instructions in front
of it with each one it carries out, and each call leaves fewer frames to be had. By induction on the
frames left, and then on the instructions left, every activation comes to leave
(`Machine.comes_to_leave`): a callee has one frame less than its caller, however long its code is
and wherever the run got it from. So every run of such code ends (`forward_run_ends`).
-/

namespace ObjectIr

open Relation (ReflTransGen)

variable {limit : Nat}

/-! ### Forward jumps -/

/-- The label of each jump stands later than the jump. -/
def Body.JumpsForward (b : Body) : Prop :=
  ∀ p ∈ b.code.zipIdx, ∀ index ∈ p.1.target?.bind b.labelIndex?, p.2 < index

instance (b : Body) : Decidable b.JumpsForward := by
  unfold Body.JumpsForward
  infer_instance

theorem Body.JumpsForward.lt {b : Body} (hb : b.JumpsForward) {i : Instr} {k index : Nat}
    {l : Label} (hi : b.code[k]? = some i) (hl : i.target? = some l)
    (hindex : b.labelIndex? l = some index) : k < index :=
  hb (i, k) (List.mem_zipIdx_iff_getElem?.2 hi) index (by rw [hl]; exact hindex)

/-- Bodies that jump forward, and all below them, with whatever blocks there are. -/
def forwardCode : Vetting := ⟨fun b => ∀ x ∈ b :: b.nested, x.JumpsForward, fun _ _ _ => True⟩

theorem forwardCode_closed : forwardCode.Closed := fun _ hb _ hi _ hb' x hx =>
  hb x (List.mem_cons_of_mem _ (Body.nested_of_body? hi hb' x hx))

/-! ### Where an activation goes on -/

/-- A site of the activation after the instruction: it stands where it stood, or at the target. -/
structure InstrOf.Proceeds (i : Instr) (s t : Site) : Prop where
  body : t.activation.body = s.activation.body
  pc : t.activation.pc = s.activation.pc ∨
    ∃ l, i.target? = some l ∧ s.activation.body.labelIndex? l = some t.activation.pc

theorem InstrOf.Effect.proceeds {i : Instr} {s t : Site} (h : i.Effect s t) : i.Proceeds s t := by
  cases h with
  | store _ ht =>
    obtain ⟨k, ts, -, rfl⟩ := Site.store_changes ht
    exact ⟨rfl, .inl rfl⟩
  | goTo hl hindex => exact ⟨rfl, .inr ⟨_, hl, hindex⟩⟩
  | buildClosure =>
    have hcapture := s.captureScope_evolves
    refine ⟨hcapture.body, .inl ?_⟩
    rw [Site.captureScope]
    split <;> rfl
  | _ => exact ⟨rfl, .inl rfl⟩

theorem execute_proceeds {i : Instr} {s t : Site} (h : ReflTransGen i.Effect s t) :
    i.Proceeds s t := by
  refine InstrOf.effects_keep (P := i.Proceeds s) (fun u v heffect hu => ?_) h ⟨rfl, .inl rfl⟩
  obtain ⟨hbody, hpc⟩ := heffect.proceeds
  refine ⟨hbody.trans hu.body, ?_⟩
  rcases hpc with hpc | ⟨l, hl, hindex⟩
  · rw [hpc]
    exact hu.pc
  · rw [hu.body] at hindex
    exact .inr ⟨l, hl, hindex⟩

/-- How many instructions the activation has in front of it. -/
def Activation.remaining (a : Activation) : Nat := a.body.code.length - a.pc

/-- An instruction of forward code leaves fewer in front. -/
theorem remaining_lt {a : Activation} (ha : a.body.JumpsForward) {i : Instr}
    (hi : a.body.code[a.pc]? = some i) {h : Heap} {c : Context} {t : Site}
    (ht : i.Proceeds ⟨h, c, { a with pc := a.pc + 1 }⟩ t) :
    t.activation.remaining < a.remaining := by
  obtain ⟨hlength, -⟩ := List.getElem?_eq_some_iff.1 hi
  have hlater : a.pc < t.activation.pc := by
    rcases ht.pc with hpc | ⟨l, hl, hindex⟩
    · rw [hpc]
      exact Nat.lt_succ_self _
    · exact ha.lt hi hl hindex
  rw [Activation.remaining, Activation.remaining, ht.body]
  show a.body.code.length - t.activation.pc < a.body.code.length - a.pc
  omega

namespace Machine

/-! ### One step -/

/--
A step of forward code: the activation ends, or it has fewer instructions in front of it, and goes
on or waits for the one it enters.
-/
theorem step_forward (limit : Nat) {m : Machine} {a : Activation} (hm : m.control = .running a)
    (ha : a.body.JumpsForward) :
    ∃ t : Site, t.context.frameDepth = m.context.frameDepth ∧
      ((∃ r, m.step limit = leavingAt t r m.callers) ∨
        t.activation.remaining < a.remaining ∧
          (m.step limit = runningAt t m.callers ∨
            ∃ i callee r, enter limit t.heap t.context i = .ok callee ∧
              m.step limit = runningAt callee (⟨t.activation, r⟩ :: m.callers))) := by
  obtain ⟨heap, context, control, callers⟩ := m
  simp only at hm
  subst hm
  cases hi : a.body.code[a.pc]? with
  | none =>
    refine ⟨⟨heap, context, a⟩, rfl, .inl ⟨.ok .nil, ?_⟩⟩
    simp only [step, hi]
    rfl
  | some i =>
    have hnext : next? ⟨heap, context, .running a, callers⟩ =
        some (i, ⟨heap, context, { a with pc := a.pc + 1 }⟩) := by
      simp only [next?, hi, Option.map_some]
    rw [step_of_next hnext]
    have hev := execute_evolves i ⟨heap, context, { a with pc := a.pc + 1 }⟩
    cases he : i.execute ⟨heap, context, { a with pc := a.pc + 1 }⟩ with
    | error f t =>
      rw [he] at hev
      exact ⟨t, hev.depth, .inl ⟨_, rfl⟩⟩
    | ok o t =>
      rw [he] at hev
      have hless := remaining_lt ha hi (execute_proceeds (effects_of_ok he))
      refine ⟨t, hev.depth, ?_⟩
      cases o with
      | next => exact .inr ⟨hless, .inl rfl⟩
      | complete v => exact .inl ⟨_, rfl⟩
      | «return» target v => exact .inl ⟨_, rfl⟩
      | call r inv =>
        simp only [follow]
        cases hcallee : enter limit t.heap t.context inv with
        | error f => exact .inl ⟨_, rfl⟩
        | ok callee => exact .inr ⟨hless, .inr ⟨inv, callee, r, hcallee, rfl⟩⟩

/-- A caller ends with its callee, or goes on where it waited. -/
theorem resume_waiting (h : Heap) (c : Context) (r : Except Unwind Value) (caller : Caller)
    (cs : List Caller) :
    (∃ r', resume h c r (caller :: cs) = leavingAt ⟨h, c, caller.activation⟩ r' cs) ∨
      ∃ t : Site, t.context = c ∧ t.activation.remaining = caller.activation.remaining ∧
        resume h c r (caller :: cs) = runningAt t cs := by
  cases r with
  | error u => exact .inl ⟨_, rfl⟩
  | ok v =>
    simp only [resume]
    cases ht : Site.store ⟨h, c, caller.activation⟩ caller.result v with
    | error f => exact .inl ⟨_, rfl⟩
    | ok t =>
      obtain ⟨k, ts, -, rfl⟩ := Site.store_changes ht
      exact .inr ⟨_, rfl, rfl, rfl⟩

/-! ### Whole activations -/

/-- The activation on top comes to its end, and all below it is then as it was. -/
def ComesToLeave (limit : Nat) (m : Machine) : Prop :=
  ∃ n a r, (m.after limit n).control = .leaving a r ∧ (m.after limit n).callers = m.callers ∧
    (m.after limit n).context.frameDepth = m.context.frameDepth

theorem ComesToLeave.of_after {m : Machine} {n : Nat} (h : (m.after limit n).ComesToLeave limit)
    (hcallers : (m.after limit n).callers = m.callers)
    (hdepth : (m.after limit n).context.frameDepth = m.context.frameDepth) :
    m.ComesToLeave limit := by
  obtain ⟨k, a, r, hcontrol, hcs, hd⟩ := h
  rw [← after_add] at hcontrol hcs hd
  exact ⟨n + k, a, r, hcontrol, hcs.trans hcallers, hd.trans hdepth⟩

theorem comesToLeave_leavingAt (s : Site) (r : Except Unwind Value) (cs : List Caller) :
    (leavingAt s r cs).ComesToLeave limit := ⟨0, s.activation, r, rfl, rfl, rfl⟩

theorem after_forward {m : Machine} (hm : m.Vetted forwardCode) (n : Nat) :
    (m.after limit n).Vetted forwardCode := by
  induction n with
  | zero => exact hm
  | succ n ih =>
    rw [after_succ]
    exact step_vetted forwardCode_closed limit ih fun _ _ _ _ => trivial

/--
A callee that comes to leave has its caller on top again, which ends with it, or goes on with what
it had left.
-/
theorem ComesToLeave.caller {m : Machine} (hm : m.ComesToLeave limit) {caller : Caller}
    {cs : List Caller} (hcallers : m.callers = caller :: cs) :
    ∃ n, (m.after limit n).callers = cs ∧
      (m.after limit n).context.frameDepth = m.context.frameDepth - 1 ∧
      ((m.after limit n).ComesToLeave limit ∨ ∃ b, (m.after limit n).control = .running b ∧
        b.remaining = caller.activation.remaining) := by
  obtain ⟨n, a, r, hcontrol, hcs, hd⟩ := hm
  refine ⟨n + 1, ?_⟩
  have hstep : m.after limit (n + 1) = resume (m.after limit n).heap
      (leave a.body (m.after limit n).context) (a.settle r) (caller :: cs) := by
    rw [after_succ, step, hcontrol, hcs, hcallers]
  have hdepth := leave_frameDepth a.body (m.after limit n).context
  rw [hd] at hdepth
  rw [hstep]
  rcases resume_waiting (m.after limit n).heap (leave a.body (m.after limit n).context) (a.settle r)
    caller cs with ⟨r', hended⟩ | ⟨t, hcontext, hremaining, hgoes⟩
  · rw [hended]
    exact ⟨rfl, hdepth, .inl (comesToLeave_leavingAt _ _ _)⟩
  · rw [hgoes]
    rw [← hcontext] at hdepth
    exact ⟨rfl, hdepth, .inr ⟨t.activation, rfl, hremaining⟩⟩

/-- An activation comes to leave if all that it can enter do. The induction is on what is left. -/
theorem comesToLeave_of_deeper {depth : Nat}
    (hdeeper : depth < limit → ∀ (m : Machine) (a : Activation), m.control = .running a →
      m.Vetted forwardCode → m.context.frameDepth = depth + 1 → m.ComesToLeave limit)
    (left : Nat) {m : Machine} {a : Activation} (hcontrol : m.control = .running a)
    (hm : m.Vetted forwardCode) (hdepth : m.context.frameDepth = depth)
    (hleft : a.remaining < left) : m.ComesToLeave limit := by
  induction left generalizing m a with
  | zero => exact absurd hleft (Nat.not_lt_zero _)
  | succ left ih =>
    have ha : a.body.JumpsForward := by
      have hvetted := hm.control
      rw [hcontrol] at hvetted
      exact hvetted.body _ List.mem_cons_self
    have hnext : (m.step limit).Vetted forwardCode := after_forward hm 1
    obtain ⟨t, ht, ⟨r, hstep⟩ | ⟨hless, hstep | ⟨i, callee, r, hcallee, hstep⟩⟩⟩ :=
      step_forward limit hcontrol ha
    · refine ComesToLeave.of_after (m := m) (n := 1) ?_ ?_ ?_ <;>
        rw [after_succ', after_zero, hstep]
      · exact comesToLeave_leavingAt _ _ _
      · rfl
      · exact ht
    · refine ComesToLeave.of_after (m := m) (n := 1) ?_ ?_ ?_ <;>
        rw [after_succ', after_zero, hstep]
      · rw [hstep] at hnext
        exact ih rfl hnext (ht.trans hdepth) (Nat.lt_of_lt_of_le hless (Nat.le_of_lt_succ hleft))
      · rfl
      · exact ht
    · have hcount := enter_frameDepth hcallee
      have hlt := frameDepth_lt_of_enter hcallee
      rw [ht, hdepth] at hcount hlt
      rw [hstep] at hnext
      have hleaves := hdeeper hlt _ _ rfl hnext hcount
      -- the activation stands on top again, with less in front of it than before
      obtain ⟨n, hcallers, hback, htop⟩ := hleaves.caller rfl
      have hback : ((runningAt callee (⟨t.activation, r⟩ :: m.callers)).after limit
          n).context.frameDepth = depth := by
        rw [hback]
        show callee.context.frameDepth - 1 = depth
        omega
      have hreturned : ((runningAt callee (⟨t.activation, r⟩ :: m.callers)).after limit
          n).ComesToLeave limit := by
        rcases htop with hleaves | ⟨b, hb, hsame⟩
        · exact hleaves
        · refine ih hb (after_forward hnext n) hback ?_
          rw [hsame]
          exact Nat.lt_of_lt_of_le hless (Nat.le_of_lt_succ hleft)
      refine ComesToLeave.of_after (m := m) (n := n + 1) ?_ ?_ ?_ <;> rw [after_succ', hstep]
      · exact hreturned
      · exact hcallers
      · rw [hback, hdepth]

/-- Every activation comes to leave. The induction is on the frames that are to be had. -/
theorem comes_to_leave (free : Nat) {m : Machine} {a : Activation}
    (hcontrol : m.control = .running a) (hm : m.Vetted forwardCode)
    (hfree : limit ≤ m.context.frameDepth + free) : m.ComesToLeave limit := by
  induction free generalizing m a with
  | zero =>
    exact comesToLeave_of_deeper (fun hlt => absurd hfree (Nat.not_le_of_lt hlt)) _ hcontrol hm rfl
      (Nat.lt_succ_self _)
  | succ free ih =>
    exact comesToLeave_of_deeper
      (fun _ _ _ hcallee hvetted hdepth => ih hcallee hvetted (by omega)) _ hcontrol hm rfl
      (Nat.lt_succ_self _)

end Machine

/-- Whatever a run of forward code is entered with, and whatever it calls and defines, it ends. -/
theorem forward_run_ends (limit : Nat) {h : Heap} (hh : h.Vetted forwardCode) {c : Context}
    (hc : c.Vetted forwardCode) {e : Entry} (he : e.Vetted forwardCode) :
    ∃ fuel r, (e.start limit h c).run limit fuel = some r := by
  have hstart := e.start_vetted limit hh hc he
  rcases e.start_cases limit h c with ⟨-, -, r, hr⟩ | ⟨i, k, s, -, -, -, hs⟩
  · refine ⟨0, ⟨(e.start limit h c).heap, (e.start limit h c).context, r⟩, ?_⟩
    rw [Machine.run_eq_after, Machine.after_zero, Machine.result?, hr]
  · rw [hs] at hstart ⊢
    obtain ⟨n, a, r, hcontrol, hcallers, -⟩ :=
      Machine.comes_to_leave limit (m := .runningAt s []) rfl hstart (Nat.le_add_left _ _)
    have hcallers : ((Machine.runningAt s []).after limit n).callers = [] := hcallers
    refine ⟨n + 1, Option.isSome_iff_exists.1 ?_⟩
    rw [Machine.run_eq_after, Machine.after_succ, Machine.step, hcontrol, hcallers]
    rfl

/-- A method that calls itself, behind a jump to a later label. -/
def recurringMethod : Draft where
  name := "m"
  scope := ⟨⟨1, .method, []⟩, []⟩
  code := [
    .branchFalse .nil ⟨0⟩,
    .ret .nil,
    .label ⟨0⟩,
    .call (.temp ⟨.generic, 0⟩) .selfObject "m" [] none .functional]

/-- A script that defines the method, and calls it. -/
def recurringScript : Draft where
  name := "<main>"
  scope := ⟨⟨0, .script, []⟩, []⟩
  code := [
    .defineMethod "m" (recurringMethod.body 1 { generic := 1 }),
    .call (.temp ⟨.generic, 0⟩) .selfObject "m" [] none .functional]

theorem forward_run_ends_recurringScript :
    (∀ b ∈ recurringScript.body 0 { generic := 1 } ::
      (recurringScript.body 0 { generic := 1 }).nested, b.JumpsForward) ∧
      ∃ fuel r, ((Entry.script (recurringScript.body 0 { generic := 1 })).start 64 .initial {}).run
        64 fuel = some r := by
  have hforward : ∀ b ∈ recurringScript.body 0 { generic := 1 } ::
      (recurringScript.body 0 { generic := 1 }).nested, b.JumpsForward := by
    have hnested : (recurringScript.body 0 { generic := 1 }).nested =
        [recurringMethod.body 1 { generic := 1 }] := rfl
    rw [hnested, List.forall_mem_cons, List.forall_mem_singleton]
    decide
  exact ⟨hforward, forward_run_ends 64 (Heap.initial_vetted forwardCode) (by rintro f ⟨⟩)
    (e := .script _) hforward⟩

end ObjectIr
