import ObjectIr.Proofs.Sessions.History

/-!
# What is called by name

A call by name runs what the tables of methods hold, and only the definition of a method adds to
them. So what can be asked of the bodies of all methods holds of the tables after each step
(`Machine.step_answers`) and of each body that is called by name (`execute_answers`).
-/

namespace ObjectIr

def Heap.Answers (q : Body → Prop) (h : Heap) : Prop :=
  ∀ m name x, h.method? m name = some x → q x.body

variable {q : Body → Prop}

theorem Heap.initial_answers (q : Body → Prop) : Heap.initial.Answers q :=
  (Heap.initial_vetted ⟨q, fun _ _ _ => True⟩).methods

namespace Heap.Answers

variable {h k : Heap} (hh : h.Answers q)

include hh

theorem of_registers (hk : h.Registers k) : k.Answers q := fun m name x hx =>
  hh m name x (by rw [← hk.methods, hx])

theorem addMethod (m : Module) (name : String) {x : Method} (hx : q x.body) :
    (h.addMethod m name x).Answers q := by
  intro n b y hy
  rw [method?_addMethod] at hy
  split at hy
  · cases hy
    exact hx
  · exact hh n b y hy

theorem setConstant (m : Module) (name : String) (v : Value) :
    (h.setConstant m name v).Answers q := fun n b x hx =>
  hh n b x (by rwa [method?_setConstant] at hx)

theorem writeLocal {s : DynamicScope} {depth offset : Nat} {v : Value}
    (hk : h.writeLocal s depth offset v = .ok k) : k.Answers q := by
  obtain ⟨c, -, -, rfl⟩ := (writeLocal_eq_ok_iff h s depth offset v k).1 hk
  exact hh

theorem findMethod? {v : Value} {name : String} {m : Method}
    (hm : h.findMethod? v name = some m) : q m.body := by
  obtain ⟨n, -, hn⟩ := List.exists_of_findSome?_eq_some hm
  exact hh n name m hn

/-- A call runs a block that is called by name, or what the tables hold. -/
theorem dispatch {c : Context} {v : Value} {name : String} {args : List Value}
    {block? : Option Block} {type : CallType} {i : Invocation}
    (hi : h.dispatch c v name args block? type = .ok (.invoke i, k))
    (hblock : h.called? v name = none) : q i.body := by
  cases dispatch_dispatched hi with
  | method hm hj =>
    obtain rfl := Method.invocation_eq hj
    exact hh.findMethod? hm
  | block hv hm => simp only [called?, hv, hv ▸ hm, reduceCtorEq] at hblock
  | constructed _ _ _ hm hj =>
    obtain rfl := Method.invocation_eq hj
    exact Answers.findMethod? (hh.of_registers (.newObject h _)) hm

end Heap.Answers

/-! ### Instructions -/

theorem Site.store_answers {s t : Site} (hs : s.heap.Answers q) {r : Variable} {v : Value}
    (ht : s.store r v = .ok t) : t.heap.Answers q := by
  rcases store_cases ht with ⟨x, ts, -, -, rfl⟩ | ⟨scope, depth, offset, k, hk, rfl⟩
  · exact hs
  · exact hs.writeLocal hk

theorem Site.captureScope_answers {s : Site} (hs : s.heap.Answers q) :
    s.captureScope.2.heap.Answers q := by
  rcases s.captureScope_cases with h | ⟨parent, -, -, h⟩ <;> rw [h] <;> exact hs

theorem InstrOf.Effect.answers {i : Instr} (hi : ∀ name b, i = .defineMethod name b → q b)
    {s t : Site} (h : i.Effect s t) (hs : s.heap.Answers q) : t.heap.Answers q := by
  cases h with
  | supply | goTo | setVisibility => exact hs
  | store _ ht => exact Site.store_answers hs ht
  | dispatch _ hk => exact hs.of_registers (.dispatch hk)
  | define _ hk => exact hs.of_registers (.define hk)
  | @defineMethod name body f hdefine =>
    exact (hs.of_registers (.newMethod s.heap body f.visibility f.module)).addMethod f.module name
      (hi name body hdefine)
  | putConst m v => exact hs.setConstant m _ v
  | buildClosure => exact Site.captureScope_answers hs

/-- The tables hold such methods as they held, or were told to add. -/
theorem execute_answering {i : Instr} (hi : ∀ name b, i = .defineMethod name b → q b) {s : Site}
    (hs : s.heap.Answers q) :
    Exec.Ends (fun _ t => t.heap.Answers q) (fun _ t => t.heap.Answers q) (i.execute s) :=
  execute_keeps (P := fun t => t.heap.Answers q) (fun _ _ h => h.answers hi) hs

open Exec in
/-- What a call enters is a block that it runs, or the body of a method in the tables. -/
theorem execute_answers {r : Variable} {receiver : Operand} {name : String} {args : List Operand}
    {block : Option Operand} {type : CallType} {s t : Site} {r' : Variable} {inv : Invocation}
    (hs : s.heap.Answers q)
    (h : InstrOf.execute (.call r receiver name args block type) s = .ok (.call r' inv) t)
    (hblock : (InstrOf.call r receiver name args block type : Instr).block? s = none) :
    q inv.body := by
  obtain ⟨v, s₁, hv, h⟩ := bind_eq_ok h
  obtain ⟨vs, s₂, hvs, h⟩ := bind_eq_ok h
  simp only [InstrOf.block?, hv] at hblock
  obtain ⟨n₁, -, rfl⟩ := reading_eq_ok hv
  obtain ⟨n₂, -, rfl⟩ := reading_eq_ok hvs
  have hrest : ∀ (b? : Option Block) (n : Nat), (do
      let context := (← MonadState.get).context
      await r (← attempt fun h => h.dispatch context v name vs b? type) : Exec Outcome)
        { s with heap.next.arrays := n } = .ok (.call r' inv) t → q inv.body := by
    intro b? n h
    obtain ⟨_, _, hget, h⟩ := bind_eq_ok h
    cases hget
    obtain ⟨a, u, ha, h⟩ := bind_eq_ok h
    obtain ⟨k, hk⟩ := attempt_eq_ok ha
    cases a with
    | value x =>
      obtain ⟨_, _, -, h⟩ := bind_eq_ok h
      cases h
    | invoke j =>
      cases h
      exact Heap.Answers.dispatch (h := { s.heap with next.arrays := n }) hs hk hblock
  cases block with
  | none => exact hrest none n₂ h
  | some o =>
    obtain ⟨b?, s₃, hb, h⟩ := bind_eq_ok h
    obtain ⟨x, hx, -⟩ := block?_eq_ok hb
    obtain ⟨n₃, -, rfl⟩ := reading_eq_ok hx
    exact hrest b? n₃ h

/-! ### Steps -/

theorem enter_answers {limit : Nat} {h : Heap} {c : Context} {i : Invocation} {s : Site}
    (hh : h.Answers q) (hs : enter limit h c i = .ok s) : s.heap.Answers q := by
  rw [enter_eq_ok hs]
  rcases i.settleIn_cases h (c.withFrame i.frame) with
    ⟨-, -, hset⟩ | ⟨-, parent, -, ⟨-, hset⟩ | ⟨-, hset⟩⟩ | ⟨-, -, -, hset⟩
  all_goals
    rw [hset]
    exact hh

theorem Machine.step_answers (limit : Nat) {m : Machine} (hm : m.heap.Answers q)
    (hcode : ∀ i s, m.next? = some (i, s) → ∀ name b, i = .defineMethod name b → q b) :
    (m.step limit).heap.Answers q := by
  cases hnext : m.next? with
  | some p =>
    obtain ⟨i, s⟩ := p
    rw [step_of_next hnext]
    obtain ⟨a, -, -, rfl⟩ := next?_eq_some hnext
    have h := execute_answering (s := ⟨m.heap, m.context, { a with pc := a.pc + 1 }⟩)
      (hcode i _ hnext) hm
    cases he : i.execute ⟨m.heap, m.context, { a with pc := a.pc + 1 }⟩ with
    | error f t =>
      rw [he] at h
      exact h
    | ok o t =>
      rw [he] at h
      cases o with
      | call r inv =>
        simp only [follow]
        split
        · next callee hcallee => exact enter_answers h hcallee
        · exact h
      | _ => exact h
  | none =>
    obtain ⟨heap, context, control, callers⟩ := m
    cases control with
    | finished r => exact hm
    | leaving a r =>
      simp only [step]
      generalize a.settle r = ending
      rcases callers with _ | ⟨caller, cs⟩
      · exact hm
      · cases ending with
        | error u => exact hm
        | ok v =>
          simp only [resume]
          split
          · next t ht =>
            exact Site.store_answers (s := ⟨heap, leave a.body context, caller.activation⟩) hm ht
          · exact hm
    | running a =>
      simp only [next?, Option.map_eq_none_iff] at hnext
      simp only [step, hnext]
      exact hm

end ObjectIr
