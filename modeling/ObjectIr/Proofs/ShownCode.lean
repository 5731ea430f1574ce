import ObjectIr.Proofs.Chronicle
import ObjectIr.Proofs.Raising

/-!
# Code that was shown before it runs

To show a script is to list its body and the bodies nested in it. Whatever scripts are run, and
whatever is sent in between to what the runs gave out, only bodies run that were shown with one of
the scripts so far (`shown_before_run`). All code within reach of a run comes from these lists,
which go through the instructions that define code and through no operand; and all that a run gives
out, as an answer or as a value that was raised, leads to no other code (`Machine.Yields`).
-/

namespace ObjectIr

/-! ### Nested bodies -/

mutual

/-- The bodies below one that is below `x` are below `x`. -/
theorem Body.nested_trans : ∀ (x : Body) {b y : Body}, b ∈ x.nested → y ∈ b.nested → y ∈ x.nested
  | ⟨_, _, _, _, _, _, _, code⟩, _, _, hb, hy => nestedIn_trans code hb hy

theorem nestedIn_trans : ∀ (is : List Instr) {b y : Body}, b ∈ nestedIn is → y ∈ b.nested →
    y ∈ nestedIn is
  | [], _, _, hb, _ => by cases hb
  | i :: is, _, _, hb, hy => by
    rw [nestedIn, List.mem_append] at hb ⊢
    exact hb.imp (nestedAt_trans i · hy) (nestedIn_trans is · hy)

theorem nestedAt_trans : ∀ (i : Instr) {b y : Body}, b ∈ nestedAt i → y ∈ b.nested →
    y ∈ nestedAt i
  | .defineMethod _ x, _, _, hb, hy | .defineClass _ x .., _, _, hb, hy
  | .buildClosure _ x, _, _, hb, hy => by
    rw [nestedAt, List.mem_cons] at hb ⊢
    rcases hb with rfl | hb
    · exact .inr hy
    · exact .inr (Body.nested_trans x hb hy)
  | .copy .., _, _, hb, _ | .receiveArg .., _, _, hb, _ | .receiveBlock .., _, _, hb, _
  | .intMath .., _, _, hb, _ | .floatMath .., _, _, hb, _ | .label .., _, _, hb, _
  | .jump .., _, _, hb, _ | .branchFalse .., _, _, hb, _ | .call .., _, _, hb, _
  | .processModuleBody .., _, _, hb, _ | .setVisibility .., _, _, hb, _
  | .putConst .., _, _, hb, _ | .searchConst .., _, _, hb, _ | .yield .., _, _, hb, _
  | .ret .., _, _, hb, _ | .nonlocalRet .., _, _, hb, _ | .raise .., _, _, hb, _ => by cases hb

end

/-- What is shown before an entry: the body of a script, and the bodies nested in it. -/
def Entry.shown : Entry → List Body
  | .script b => b :: b.nested
  | _ => []

def shown (es : List Entry) : List Body := es.flatMap Entry.shown

theorem shown_closed {es : List Entry} {b b' : Body} (hb : b ∈ shown es) {i : Instr}
    (hi : i ∈ b.code) (hb' : i.body? = some b') : b' ∈ shown es := by
  have hnested : b' ∈ b.nested := Body.nested_of_body? hi hb' b' List.mem_cons_self
  obtain ⟨e, he, hb⟩ := List.mem_flatMap.1 hb
  refine List.mem_flatMap.2 ⟨e, he, ?_⟩
  cases e with
  | script x =>
    rcases List.mem_cons.1 hb with rfl | hb
    · exact List.mem_cons_of_mem _ hnested
    · exact List.mem_cons_of_mem _ (Body.nested_trans x hb hnested)
  | _ => cases hb

/-! ### What a run gives out -/

section Yields

variable (w : Vetting)

def Failure.Vetted : Failure → Prop
  | .raised v => v.Vetted w
  | _ => True

/-- The values that leave a run, or are about to, lead to admitted code. -/
def Machine.Yields (m : Machine) : Prop :=
  match m.control with
  | .finished (.ok v) => v.Vetted w
  | .finished (.error f) | .leaving _ (.error (.failure f)) => f.Vetted w
  | _ => True

variable {w}

theorem Failure.vetted_of_quiet {f : Failure} (hf : f.raised? = none) : f.Vetted w := by
  cases f with
  | raised v => cases hf
  | _ => exact trivial

theorem execute_failure_vetted {i : Instr} {s t : Site} (hs : s.Vetted w) {f : Failure}
    (h : i.execute s = .error f t) : f.Vetted w := by
  cases f with
  | raised v =>
    obtain ⟨o, -, hv⟩ := execute_raised h
    exact w.invariant_reads.value_of_ok hs hv
  | _ => exact trivial

namespace Machine

theorem yields_resume {h : Heap} {c : Context} {r : Except Unwind Value} (hr : Ending.Vetted w r)
    (hf : ∀ f, r = .error (.failure f) → f.Vetted w) (cs : List Caller) :
    (resume h c r cs).Yields w := by
  cases cs with
  | nil =>
    rcases r with (f | ⟨target, v⟩) | v
    · exact hf f rfl
    · exact trivial
    · exact hr
  | cons caller cs =>
    rcases r with (f | ⟨target, v⟩) | v
    · exact hf f rfl
    · exact trivial
    · simp only [resume]
      split
      · exact trivial
      · next f hstore => exact Failure.vetted_of_quiet (Site.store_quiet _ _ _ f hstore)

theorem yields_follow (limit : Nat) (cs : List Caller) {i : Instr} {s : Site} (hs : s.Vetted w) :
    (follow limit cs (i.execute s)).Yields w := by
  cases he : i.execute s with
  | error f t => exact execute_failure_vetted hs he
  | ok o t =>
    cases o with
    | call r j =>
      simp only [follow]
      split
      · exact trivial
      · next f hf => exact Failure.vetted_of_quiet (enter_quiet _ _ _ _ f hf)
    | _ => exact trivial

theorem yields_step (limit : Nat) {m : Machine} (hm : m.Vetted w) (hyields : m.Yields w) :
    (m.step limit).Yields w := by
  cases hnext : m.next? with
  | some p =>
    rw [step_of_next hnext]
    exact yields_follow limit m.callers (site_vetted hm hnext).1
  | none =>
    obtain ⟨heap, context, control, callers⟩ := m
    cases control with
    | finished r => exact hyields
    | leaving a r =>
      refine yields_resume (settle_vetted hm.control.1 hm.control.2) (fun f hf => ?_) callers
      rcases r with (g | ⟨target, v⟩) | v
      · cases hf; exact hyields
      · rw [Activation.settle] at hf
        split at hf <;> cases hf
      · cases hf
    | running a =>
      have hi : a.body.code[a.pc]? = none := Option.map_eq_none_iff.1 hnext
      simp only [step, Yields, hi]

end Machine

theorem Entry.start_yields (limit : Nat) {h : Heap} (hh : h.Vetted w) (c : Context) {e : Entry}
    (he : e.Vetted w) : (e.start limit h c).Yields w := by
  rw [start_eq]
  rcases hr : e.reply h c with f | ⟨q, k⟩
  · exact Failure.vetted_of_quiet (e.reply_quiet h c f hr)
  · obtain ⟨hq, -⟩ := reply_vetted hh he hr
    cases q with
    | value v => exact hq
    | invoke i =>
      simp only [Machine.awaiting, Machine.start]
      split
      · exact trivial
      · next f hf => exact Failure.vetted_of_quiet (enter_quiet _ _ _ _ f hf)

end Yields

/-! ### Chronicles -/

/-- Certain bodies, with whatever blocks there are. -/
def Vetting.ofBodies (q : Body → Prop) : Vetting := ⟨q, fun _ _ _ => True⟩

/--
The host runs a script, or it enters with what it has got hold of: with values that lead to no code
but that which earlier states and what was given out lead to.
-/
def CodeAtHand (ms : List Machine) (e : Entry) (c : Context) : Prop :=
  ∀ q : Body → Prop, (∀ b ∈ e.shown, q b) →
    (∀ m ∈ ms, m.Vetted (.ofBodies q) ∧ m.Yields (.ofBodies q)) →
      e.Vetted (.ofBodies q) ∧ c.Vetted (.ofBodies q)

theorem Machine.Yields.mono {w w' : Vetting} (hb : ∀ b, w.body b → w'.body b)
    (hk : ∀ id b s, w.block id b s → w'.block id b s) {m : Machine} (h : m.Yields w) :
    m.Yields w' := by
  have hfailure : ∀ f : Failure, f.Vetted w → f.Vetted w' := by
    intro f hf
    cases f with
    | raised v => exact Value.Vetted.mono hb hk v hf
    | _ => exact trivial
  obtain ⟨heap, context, control, callers⟩ := m
  cases control with
  | running a => exact trivial
  | leaving a r =>
    rcases r with (f | ⟨target, v⟩) | v
    · exact hfailure f h
    · exact trivial
    · exact trivial
  | finished r =>
    rcases r with f | v
    · exact hfailure f h
    · exact Value.Vetted.mono hb hk v h

theorem Chronicle.vetted {es : List Entry} {ms : List Machine} (h : Chronicle CodeAtHand es ms) :
    ∀ m ∈ ms, m.Vetted (.ofBodies (· ∈ shown es)) ∧ m.Yields (.ofBodies (· ∈ shown es)) := by
  induction h with
  | start =>
    refine List.forall_mem_singleton.2 ⟨⟨Heap.initial_vetted _, ?_, trivial, ?_⟩, trivial⟩
    · rintro f ⟨⟩
    · rintro c ⟨⟩
  | @step es m ms limit _ ih =>
    obtain ⟨⟨hm, hyields⟩, -⟩ := List.forall_mem_cons.1 ih
    have hclosed : (Vetting.ofBodies (· ∈ shown es)).Closed :=
      fun b hb i hi b' hb' => shown_closed hb hi hb'
    exact List.forall_mem_cons.2 ⟨⟨step_vetted hclosed limit hm fun _ _ _ _ => trivial,
      Machine.yields_step limit hm hyields⟩, ih⟩
  | @enter es m ms e c limit _ he ih =>
    have hmore : ∀ b ∈ shown es, b ∈ shown (e :: es) := fun b hb => List.mem_append_right _ hb
    have hearlier : ∀ m' ∈ m :: ms, m'.Vetted (.ofBodies (· ∈ shown (e :: es))) ∧
        m'.Yields (.ofBodies (· ∈ shown (e :: es))) := fun m' hm' =>
      ⟨(ih m' hm').1.mono hmore fun _ _ _ _ => trivial,
        (ih m' hm').2.mono hmore fun _ _ _ _ => trivial⟩
    obtain ⟨hentry, hcontext⟩ := he _ (fun b hb => List.mem_append_left _ hb) hearlier
    have hheap := (hearlier m List.mem_cons_self).1.heap
    exact List.forall_mem_cons.2 ⟨⟨Entry.start_vetted limit hheap hcontext hentry,
      Entry.start_yields limit hheap c hentry⟩, hearlier⟩

theorem Machine.Vetted.active {w : Vetting} {m : Machine} (hm : m.Vetted w) {a : Activation}
    (ha : a ∈ m.active) : w.body a.body := by
  obtain ⟨heap, context, control, callers⟩ := m
  have hcallers : ∀ a ∈ callers.map Caller.activation, w.body a.body := by
    intro a ha
    obtain ⟨c, hc, rfl⟩ := List.mem_map.1 ha
    exact (hm.callers c hc).body
  cases control with
  | running b =>
    rcases List.mem_cons.1 ha with rfl | ha
    · exact Activation.Vetted.body hm.control
    · exact hcallers a ha
  | leaving b r =>
    rcases List.mem_cons.1 ha with rfl | ha
    · exact hm.control.1.body
    · exact hcallers a ha
  | finished r => cases ha

/-- Every body that ever is active was shown with one of the scripts that were run by then. -/
theorem shown_before_run {es : List Entry} {m : Machine} {ms : List Machine}
    (h : Chronicle CodeAtHand es (m :: ms)) : ∀ a ∈ m.active, a.body ∈ shown es :=
  fun _ ha => (h.vetted m List.mem_cons_self).1.active ha

/-- A script that answers a block. -/
def blockScript : Draft where
  name := "<main>"
  scope := ⟨⟨0, .script, []⟩, []⟩
  code := [
    .buildClosure (.temp ⟨.generic, 0⟩) (closure.body 1 {}),
    .ret (.var (.temp ⟨.generic, 0⟩))]
where
  closure : Draft :=
    { name := "block", scope := ⟨⟨1, .closure, []⟩, []⟩, code := [.ret .selfObject] }

def blockEntry : Entry := .script (blockScript.body 0 { generic := 1 })

def blockRun : Machine := (blockEntry.start 8 .initial {}).after 8 3

/-- What the script answers. -/
def answeredBlock : Value :=
  match blockRun.control with
  | .finished (.ok v) => v
  | _ => .nil

/-- The block is called after the script has answered it. -/
def blockCall : Entry := .send answeredBlock "call" []

theorem shown_before_run_block :
    (blockCall.start 8 blockRun.heap {}).active.map (fun a => a.body.name) = ["block"] ∧
      ∀ a ∈ (blockCall.start 8 blockRun.heap {}).active,
        a.body ∈ shown [blockCall, blockEntry] := by
  have hanswered : ∀ w, blockRun.Yields w → answeredBlock.Vetted w := by
    intro w hyields
    rw [answeredBlock]
    rw [Machine.Yields] at hyields
    split
    · next v hv => rw [hv] at hyields; exact hyields
    · exact trivial
  have hscript : Chronicle CodeAtHand [blockEntry]
      (blockRun :: ((blockEntry.start 8 .initial {}).trail 8 2 ++ [.idle])) :=
    (Chronicle.start.enter 8 (e := blockEntry) (c := {})
      fun q hq _ => ⟨hq _ List.mem_cons_self, by rintro f ⟨⟩⟩).after 8 3
  have hcall := hscript.enter 8 (e := blockCall) (c := {}) fun q _ hms =>
    ⟨⟨hanswered _ (hms _ List.mem_cons_self).2, by rintro v ⟨⟩⟩, by rintro f ⟨⟩⟩
  exact ⟨by decide +kernel, shown_before_run hcall⟩

end ObjectIr
