import ObjectIr.Proofs.Balance

/-!
# Runs under two limits of depth

The limit of frames is asked for when an activation is entered, and nowhere else (`enter_of_lt`,
`enter_eq_error`). So under the lower of two limits a machine takes the same steps as under the
higher, until a call is refused (`Machine.after_of_le`). The failure that ends the refused call is
taken by nobody on its way out (`Machine.step_overflown`), so a run that ends in any other way was
never refused a call (`depthLimit_cuts_off`).
-/

namespace ObjectIr

variable {limit limit' : Nat}

/-! ### Entering -/

theorem enter_frameDepth {h : Heap} {c : Context} {i : Invocation} {s : Site}
    (hs : enter limit h c i = .ok s) : s.context.frameDepth = c.frameDepth + 1 := by
  rw [Context.frameDepth, enter_frames hs]
  rfl

theorem frameDepth_lt_of_enter {h : Heap} {c : Context} {i : Invocation} {s : Site}
    (hs : enter limit h c i = .ok s) : c.frameDepth < limit := by
  rw [enter_eq] at hs
  split at hs
  · cases hs
  · next hlt => exact Nat.lt_of_not_le hlt

theorem enter_eq_error {h : Heap} {c : Context} {i : Invocation} {f : Failure}
    (hf : enter limit h c i = .error f) : f = .stackOverflow := by
  rw [enter_eq] at hf
  split at hf <;> cases hf
  rfl

/-- What is entered does not depend on the limit. -/
theorem enter_of_lt {h : Heap} {c : Context} (i : Invocation) (hlt : c.frameDepth < limit)
    (hlt' : c.frameDepth < limit') : enter limit h c i = enter limit' h c i := by
  rw [enter_eq, enter_eq, if_neg (Nat.not_le_of_lt hlt), if_neg (Nat.not_le_of_lt hlt')]

theorem leave_frameDepth (b : Body) (c : Context) :
    (leave b c).frameDepth = c.frameDepth - 1 := by
  rw [Context.frameDepth, leave_frames, List.length_tail]
  rfl

/-! ### The overflow -/

/-- A call was refused for want of frames, and the failure is on its way out, or is out. -/
def Control.Overflown : Control → Prop
  | .running _ => False
  | .leaving _ r => r = .error (.failure .stackOverflow)
  | .finished o => o = .error .stackOverflow

namespace Machine

/-- No activation takes the failure or makes another of it. -/
theorem step_overflown {m : Machine} (hm : m.control.Overflown) :
    (m.step limit).control.Overflown := by
  obtain ⟨heap, context, control, callers⟩ := m
  cases control with
  | running a => cases hm
  | finished o => exact hm
  | leaving a r =>
    cases hm
    cases callers with
    | nil => exact rfl
    | cons caller callers => exact rfl

/-! ### Two limits -/

/-- Under the lower limit the same comes of an instruction, or a call is refused. -/
theorem follow_of_le (hle : limit ≤ limit') (cs : List Caller)
    (r : EStateM.Result Failure Site Outcome) :
    follow limit cs r = follow limit' cs r ∨ (follow limit cs r).control.Overflown := by
  rcases r with ⟨o, t⟩ | ⟨f, t⟩
  · cases o with
    | call result i =>
      simp only [follow]
      cases ht : enter limit t.heap t.context i with
      | ok callee =>
        have hlt := frameDepth_lt_of_enter ht
        rw [enter_of_lt i hlt (Nat.lt_of_lt_of_le hlt hle)] at ht
        rw [ht]
        exact .inl rfl
      | error f =>
        rw [enter_eq_error ht]
        exact .inr rfl
    | _ => exact .inl rfl
  · exact .inl rfl

theorem step_of_le (hle : limit ≤ limit') (m : Machine) :
    m.step limit = m.step limit' ∨ (m.step limit).control.Overflown := by
  cases hnext : m.next? with
  | some p =>
    rw [step_of_next hnext, step_of_next hnext]
    exact follow_of_le hle _ _
  | none =>
    obtain ⟨heap, context, control, callers⟩ := m
    cases control with
    | running a =>
      have hcode : a.body.code[a.pc]? = none := Option.map_eq_none_iff.1 hnext
      simp only [step, hcode, true_or]
    | _ => exact .inl rfl

theorem after_of_le (hle : limit ≤ limit') {m m' : Machine} (hm : m = m' ∨ m.control.Overflown)
    (n : Nat) : m.after limit n = m'.after limit' n ∨ (m.after limit n).control.Overflown := by
  induction n with
  | zero => exact hm
  | succ n ih =>
    rw [after_succ, after_succ]
    rcases ih with ih | ih
    · rw [ih]
      exact step_of_le hle _
    · exact .inr (step_overflown ih)

/-- Where the higher limit never comes to more frames than the lower allows, both are one. -/
theorem step_of_frameDepth_le (hle : limit ≤ limit') {m : Machine}
    (hdepth : (m.step limit').context.frameDepth ≤ limit) : m.step limit = m.step limit' := by
  cases hnext : m.next? with
  | some p =>
    obtain ⟨i, s⟩ := p
    rw [step_of_next hnext] at hdepth ⊢
    rw [step_of_next hnext]
    cases he : i.execute s with
    | error f t => rfl
    | ok o t =>
      cases o with
      | call r inv =>
        rw [he] at hdepth
        simp only [follow] at hdepth ⊢
        by_cases hfull : limit' ≤ t.context.frameDepth
        · rw [enter_eq, enter_eq, if_pos hfull, if_pos (Nat.le_trans hle hfull)]
        · have hlt' := Nat.lt_of_not_le hfull
          cases hcallee : enter limit' t.heap t.context inv with
          | error f =>
            rw [enter_eq, if_neg hfull] at hcallee
            cases hcallee
          | ok callee =>
            rw [hcallee] at hdepth
            have hlt : t.context.frameDepth < limit := by
              have hcount := enter_frameDepth hcallee
              have hwithin : callee.context.frameDepth ≤ limit := hdepth
              omega
            rw [enter_of_lt inv hlt hlt', hcallee]
      | _ => rfl
  | none =>
    obtain ⟨heap, context, control, callers⟩ := m
    cases control with
    | running a =>
      have hcode : a.body.code[a.pc]? = none := Option.map_eq_none_iff.1 hnext
      simp only [step, hcode]
    | _ => rfl

/-! ### The depth of a run -/

theorem GoesOn.frameDepth {s : Site} {cs : List Caller} {m : Machine} (hm : GoesOn s cs m) :
    m.context.frameDepth = s.context.frameDepth := by
  obtain ⟨t, hst, -, hcontext, -⟩ := hm.active
  rw [hcontext]
  exact hst.depth

theorem step_frameDepth_le {m : Machine} (hm : m.context.frameDepth ≤ limit) :
    (m.step limit).context.frameDepth ≤ limit := by
  cases hcontrol : m.control with
  | finished r =>
    rw [step, hcontrol]
    exact hm
  | leaving a r =>
    have hleft : (leave a.body m.context).frameDepth ≤ limit := by
      rw [leave_frameDepth]
      omega
    have hstep : m.step limit = resume m.heap (leave a.body m.context) (a.settle r) m.callers := by
      rw [step, hcontrol]
    rw [hstep]
    rcases resume_cases m.heap (leave a.body m.context) (a.settle r) m.callers with
      ⟨-, hr⟩ | ⟨caller, cs, -, hgoes⟩
    · rw [hr]
      exact hleft
    · rw [hgoes.frameDepth]
      exact hleft
  | running a =>
    obtain ⟨pc, ⟨-, hgoes⟩ | ⟨i, t, callee, r, -, -, hcallee, hstep⟩⟩ := step_running limit hcontrol
    · rw [hgoes.frameDepth]
      exact hm
    · have hcount := enter_frameDepth hcallee
      have hlt := frameDepth_lt_of_enter hcallee
      have hdepth : (m.step limit).context.frameDepth = callee.context.frameDepth := by
        rw [hstep]
        rfl
      omega

end Machine

namespace Entry

variable {h : Heap} {c : Context} (e : Entry)

theorem start_of_le (hle : limit ≤ limit') :
    e.start limit h c = e.start limit' h c ∨ (e.start limit h c).control.Overflown := by
  rw [start_eq, start_eq]
  rcases e.reply h c with f | ⟨v | i, k⟩
  · exact .inl rfl
  · exact .inl rfl
  · simp only [Machine.awaiting, Machine.start]
    cases ht : enter limit k c i with
    | ok s =>
      have hlt := frameDepth_lt_of_enter ht
      rw [enter_of_lt i hlt (Nat.lt_of_lt_of_le hlt hle)] at ht
      rw [ht]
      exact .inl rfl
    | error f =>
      rw [enter_eq_error ht]
      exact .inr rfl

theorem start_of_frameDepth_le (hle : limit ≤ limit')
    (hdepth : (e.start limit' h c).context.frameDepth ≤ limit) :
    e.start limit h c = e.start limit' h c := by
  rw [start_eq] at hdepth ⊢
  rw [start_eq]
  rcases hr : e.reply h c with f | ⟨v | i, k⟩
  · rfl
  · rfl
  · rw [hr] at hdepth
    simp only [Machine.awaiting, Machine.start] at hdepth ⊢
    by_cases hfull : limit' ≤ c.frameDepth
    · rw [enter_eq, enter_eq, if_pos hfull, if_pos (Nat.le_trans hle hfull)]
    · have hlt' := Nat.lt_of_not_le hfull
      cases hs : enter limit' k c i with
      | error f =>
        rw [enter_eq, if_neg hfull] at hs
        cases hs
      | ok s =>
        rw [hs] at hdepth
        have hlt : c.frameDepth < limit := by
          have hcount := enter_frameDepth hs
          have hwithin : s.context.frameDepth ≤ limit := hdepth
          omega
        rw [enter_of_lt i hlt hlt', hs]

theorem start_frameDepth_le (hc : c.frameDepth ≤ limit) :
    (e.start limit h c).context.frameDepth ≤ limit := by
  rcases e.start_cases limit h c with ⟨-, hcontext, -⟩ | ⟨i, k, s, -, -, hs, hstart⟩
  · rw [hcontext]
    exact hc
  · have hcount := enter_frameDepth hs
    have hlt := frameDepth_lt_of_enter hs
    rw [hstart]
    show s.context.frameDepth ≤ limit
    omega

end Entry

/--
The limit of frames only ever cuts a run off. A run has at most as many frames at once; if it ends
otherwise than by an overflow, it ends alike under a higher limit, with the same heap, stacks and
counts; and a run that a higher limit never takes beyond the lower goes the same way under both.
-/
theorem depthLimit_cuts_off (hle : limit ≤ limit') (h : Heap) {c : Context} (e : Entry)
    (hc : c.frameDepth ≤ limit) :
    (∀ n, ((e.start limit h c).after limit n).context.frameDepth ≤ limit) ∧
      (∀ fuel r, (e.start limit h c).run limit fuel = some r →
        r.outcome ≠ .error .stackOverflow → (e.start limit' h c).run limit' fuel = some r) ∧
      ((∀ n, ((e.start limit' h c).after limit' n).context.frameDepth ≤ limit) →
        ∀ n, (e.start limit h c).after limit n = (e.start limit' h c).after limit' n) := by
  refine ⟨fun n => ?_, fun fuel r hr hne => ?_, fun hdepth n => ?_⟩
  · induction n with
    | zero => exact e.start_frameDepth_le hc
    | succ n ih =>
      rw [Machine.after_succ]
      exact Machine.step_frameDepth_le ih
  · rw [Machine.run_eq_after] at hr ⊢
    rcases Machine.after_of_le hle (e.start_of_le hle) fuel with hsame | hover
    · rw [← hsame, hr]
    · rw [(Machine.control_of_result hr).1] at hover
      exact absurd hover hne
  · induction n with
    | zero => exact e.start_of_frameDepth_le hle (hdepth 0)
    | succ n ih =>
      have hnext := hdepth (n + 1)
      rw [Machine.after_succ] at hnext ⊢
      rw [Machine.after_succ, ih]
      exact Machine.step_of_frameDepth_le hle hnext

/-- Two frames are enough for a script that yields to a block; with one, it overflows. -/
theorem depthLimit_cuts_off_yieldingScript : 2 ≤ 8 ∧ ({} : Context).frameDepth ≤ 2 ∧
    ∃ r, ((Entry.script (yieldingScript.body 0 { generic := 2 })).start 2 .initial {}).run 2 8 =
        some r ∧ r.outcome ≠ .error .stackOverflow ∧
      ((Entry.script (yieldingScript.body 0 { generic := 2 })).start 8 .initial {}).run 8 8 =
        some r := by
  have hle : 2 ≤ 8 := by decide
  have hc : ({} : Context).frameDepth ≤ 2 := by decide
  have hvalue : (((Entry.script (yieldingScript.body 0 { generic := 2 })).start 2 .initial {}).run
      2 8).map (fun r => r.outcome.isOk) = some true := by decide +kernel
  obtain ⟨r, hr, hok⟩ := Option.map_eq_some_iff.1 hvalue
  have hne : r.outcome ≠ .error .stackOverflow := by
    intro ho
    rw [ho] at hok
    cases hok
  exact ⟨hle, hc, r, hr, hne, (depthLimit_cuts_off hle .initial _ hc).2.1 8 r hr hne⟩

end ObjectIr
