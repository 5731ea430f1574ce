import ObjectIr.Proofs.Sharing.Reading

/-!
# Instructions with links that grow

From sites that are tied, an instruction and its simplified form lead to linked outcomes
(`execute_linked`). Only reading the operands adds to what is linked; what is done once they are
read is a matter of the laws. A temporary that was set to a constant holds what was made from it,
as long as the arrays that the instruction makes are literal (`copy_linked`).
-/

namespace ObjectIr

inductive Outcome.Linked (l : Links) : Outcome → Outcome → Prop
  | next : Linked l .next .next
  | call (r : Variable) {i i' : Invocation} (h : i.Linked l i') : Linked l (.call r i) (.call r i')
  | complete {v w : Value} (h : v.Linked l w) : Linked l (.complete v) (.complete w)
  | return (target : Nat) {v w : Value} (h : v.Linked l w) :
    Linked l (.return target v) (.return target w)

/-- The instruction sets a temporary to a constant. -/
def InstrOf.isLiteral : Instr → Bool
  | .copy (.temp _) o => o.isConstant
  | _ => false

theorem Substitution.forget_forget (values : Substitution) (v : Variable) :
    (values.forget v).forget v = values.forget v := by
  simp [forget]

theorem Substitution.mem_of_mem_forget {values : Substitution} {v : Variable} :
    ∀ p ∈ values.forget v, p ∈ values := fun _ hp => (mem_forget.1 hp).1

namespace Links

/-- Executions from tied sites to tied sites, with what is known before and after. -/
abbrev Ties (literal : Nat → Prop) (shared : Temp → Prop) (b b' : Body) (l : Links)
    (known known' : Substitution) {α β : Type} (rel : Links → α → β → Prop) (x : Exec α)
    (y : Exec β) : Prop :=
  l.Sim (Site.Tied literal shared b b' known) (Site.Tied literal shared b b' known')
    (Site.Tied literal shared b b' []) rel x y

variable {literal : Nat → Prop} {shared : Temp → Prop} {b b' : Body} {known known' : Substitution}
  {l : Links} {α β : Type}

/-! ### Acting -/

theorem ties_joins {rel : α → β → Prop} {x : Exec α} {y : Exec β}
    (h : (l.correspondence literal shared b b' known).Joins rel x y) :
    l.Ties literal shared b b' known known (fun _ => rel) x y := by
  intro s s' hs
  rcases (h s s' hs).elim with ⟨f, g, t, t', h1, h2, hf, ht⟩ | ⟨a, c, t, t', h1, h2, hac, ht⟩
  · rw [h1, h2]
    exact .error (.refl l) hf ht
  · rw [h1, h2]
    exact .ok (.refl l) hac ht

theorem ties_outcomes {x y : Exec Outcome} (hk : ∀ p ∈ known', p ∈ known)
    (h : (l.correspondence literal shared b b' known').Joins
      (l.correspondence literal shared b b' known').Outcomes x y) :
    l.Ties literal shared b b' known known' Outcome.Linked x y := by
  intro s s' hs
  rcases (h s s' (hs.learn hk)).elim with
    ⟨f, g, t, t', h1, h2, hf, ht⟩ | ⟨o, o', t, t', h1, h2, ho, ht⟩
  · rw [h1, h2]
    exact .error (.refl l) hf ht
  · rw [h1, h2]
    refine .ok (.refl l) ?_ ht
    cases ho with
    | next => exact .next
    | call hr hi => exact hr.1 ▸ .call _ hi
    | complete hv => exact .complete hv
    | «return» hn hv => exact hn ▸ .return _ hv

theorem ties_stored (hb : b.Kin b') {r : Variable} (hr : Shared shared [r]) {v w : Value}
    (hv : v.Linked l w) :
    l.Ties literal shared b b' known (known.forget r) Outcome.Linked
      (do Exec.store r v; return .next) (do Exec.store r w; return .next) :=
  ties_outcomes Substitution.mem_of_mem_forget
    ((acts literal shared (known.forget r) l hb).joins_stored
      ⟨rfl, hr, known.forget_forget r⟩ hv)

theorem ties_get : l.Ties literal shared b b' known known (Site.Tied literal shared b b' known) get
    get := fun _ _ h => .ok (.refl l) h h

theorem ties_ofExcept {rel : Links → α → β → Prop} {u : Except Failure α} {v : Except Failure β}
    (h : Jointly (Failure.Linked l) (rel l) u v) :
    l.Ties literal shared b b' known known rel (ofExcept u) (ofExcept v) :=
  .ofExcept h (fun _ _ h => h) fun _ _ h => h.forgetAll

theorem ties_throw {rel : Links → α → β → Prop} {f g : Failure} (h : f.Linked l g) :
    l.Ties literal shared b b' known known' rel (throw f) (throw g) :=
  .throw h fun _ _ h => h.forgetAll

theorem ties_frame : l.Ties literal shared b b' known known Frame.Linked Exec.frame Exec.frame :=
  ties_get.bind fun _ _ _ _ h => ties_ofExcept h.frame

/-- Changes of linked heaps that make no arrays. -/
theorem ties_change {rel : Links → α → β → Prop} {f : Heap → α × Heap} {g : Heap → β × Heap}
    (h : ∀ h h', h.Linked l h' → Heap.Linked.Made l (rel l) (f h) (g h'))
    (hf : ∀ h, (f h).2.next.arrays = h.next.arrays)
    (hg : ∀ h, (g h).2.next.arrays = h.next.arrays) :
    l.Ties literal shared b b' known known rel (Exec.change f) (Exec.change g) := fun _ _ hs =>
  .ok (.refl l) (h _ _ hs.heap).1 (hs.withHeap (h _ _ hs.heap).2 (hf _) (hg _))

/-! ### Reading -/

theorem ties_reading {rel : Links → α → β → Prop} {read : Site → Reading α}
    {read' : Site → Reading β}
    (h : ∀ s s', s.Linked literal shared b b' known l s' →
      l.Reads literal rel (read s) (read' s')) :
    l.Ties literal shared b b' known known rel (Exec.reading read) (Exec.reading read') := by
  intro s s' hs
  unfold Exec.reading
  simp only [EStateM.run]
  rcases (h s s' hs.toLinked s.heap.next.arrays s'.heap.next.arrays hs.sound).elim with
    ⟨l', a, c, n, n', h1, h2, hl, hac, hn⟩ | ⟨l', f, g, n, n', h1, h2, hl, hf, hn⟩
  · rw [h1, h2]
    exact .ok hl hac (hs.supplied hl hn)
  · rw [h1, h2]
    exact .error hl hf (hs.supplied hl hn).forgetAll

section Reading

variable (hb : b.Kin b') {o : Operand} (ho : Shared shared (o.simplified known true).reads)

include hb

theorem ties_values {os : List Operand}
    (hos : ∀ o ∈ os, Shared shared (o.simplified known true).reads) :
    l.Ties literal shared b b' known known (fun l => List.Forall₂ (Value.Linked l))
      (Exec.values os) (Exec.values (os.map fun o => o.simplified known true)) := by
  refine ties_reading fun s s' h => ?_
  refine (evaluateAll_linked hb os h fun v hv => ?_).mono (fun _ _ h => h) (fun _ _ _ h => h)
    fun _ _ _ h => Value.linkedAll_iff.1 h
  rw [OperandOf.readsAll_eq_flatMap, List.mem_flatMap] at hv
  obtain ⟨o, hin, hv⟩ := hv
  have ho := hos o hin
  rw [OperandOf.reads_simplified, Shared.flatMap] at ho
  exact ho v hv

include ho

theorem ties_value : l.Ties literal shared b b' known known Value.Linked (Exec.value o)
    (Exec.value (o.simplified known true)) := by
  rw [OperandOf.reads_simplified, Shared.flatMap] at ho
  exact ties_reading fun s s' h => evaluate_linked hb o h ho

theorem ties_fixnum : l.Ties literal shared b b' known known (fun _ => Eq) (Exec.fixnum o)
    (Exec.fixnum (o.simplified known true)) := by
  rw [Exec.fixnum_eq, Exec.fixnum_eq]
  exact (ties_value hb ho).bind fun l' _ v w hv =>
    ties_ofExcept ((formLaws literal shared b b' known l').toFixnum hv)

theorem ties_float : l.Ties literal shared b b' known known (fun _ => Eq) (Exec.float o)
    (Exec.float (o.simplified known true)) := by
  rw [Exec.float_eq, Exec.float_eq]
  exact (ties_value hb ho).bind fun l' _ v w hv =>
    ties_ofExcept ((formLaws literal shared b b' known l').toFloat hv)

theorem ties_block? : l.Ties literal shared b b' known known
    (fun l => Option.Rel (BlockOf.Linked l)) (Exec.block? o)
    (Exec.block? (o.simplified known true)) := by
  rw [Exec.block?_eq, Exec.block?_eq]
  exact (ties_value hb ho).bind fun l' _ v w hv =>
    ties_ofExcept ((formLaws literal shared b b' known l').toBlock? hv)

theorem ties_yielded : l.Ties literal shared b b' known known BlockOf.Linked (Exec.yielded o)
    (Exec.yielded (o.simplified known true)) := by
  rw [Exec.yielded_eq, Exec.yielded_eq]
  exact (ties_block? hb ho).bind fun l' _ x y hx =>
    ties_ofExcept ((formLaws literal shared b b' known l').required hx)

theorem ties_superclass? (hu : o = .undefined ↔ o.simplified known true = .undefined) :
    l.Ties literal shared b b' known known (fun l => Option.Rel (Value.Linked l))
      (Exec.superclass? o) (Exec.superclass? (o.simplified known true)) := by
  by_cases hundefined : o = .undefined
  · rw [hu.1 hundefined, hundefined]
    exact .pure .none fun _ _ h => h
  · rw [Exec.superclass?_eq hundefined, Exec.superclass?_eq (hu.not.1 hundefined)]
    exact (ties_value hb ho).bind fun l' _ v w hv => .pure (.some hv) fun _ _ h => h

end Reading

/-! ### Instructions -/

section Instructions

variable (hb : b.Kin b')

include hb

theorem ties_copy {r : Variable} (hr : Shared shared [r]) {o : Operand}
    (ho : Shared shared (o.simplified known true).reads) :
    l.Ties literal shared b b' known (known.forget r) Outcome.Linked
      (InstrOf.execute (.copy r o)) (InstrOf.execute (.copy r (o.simplified known true))) :=
  (ties_value hb ho).bind fun _ _ _ _ hv => ties_stored hb hr hv

/-- A temporary that was set to what an operand reads as is known to be that operand. -/
theorem copy_linked {t : Temp} (ht : shared t) {o : Operand}
    (ho : Shared shared (o.simplified known true).reads)
    (hst : Substitution.isStable (o.simplified known true) = true) {s s' : Site}
    (hs : s.Tied literal shared b b' known l s')
    (hliteral : (o.simplified known true).isConstant = true →
      ∀ u, InstrOf.execute (.copy (.temp t) o) s = .ok .next u →
        ∀ n, s.heap.next.arrays ≤ n → n < u.heap.next.arrays → literal n) :
    l.Meets
      (Site.Tied literal shared b b' ((.temp t, o.simplified known true) :: known.forget (.temp t)))
      (Site.Tied literal shared b b' []) Outcome.Linked
      (InstrOf.execute (.copy (.temp t) o) s)
      (InstrOf.execute (.copy (.temp t) (o.simplified known true)) s') := by
  simp only [InstrOf.execute, bind, EStateM.bind] at hliteral ⊢
  rcases (ties_value hb ho s s' hs).elim with
    ⟨l', v, w, u, u', h1, h2, hl, hv, hu⟩ | ⟨l', f, g, u, u', h1, h2, hl, hf, hu⟩
  · simp only [h1, h2, Exec.store_apply, Site.store] at hliteral ⊢
    rcases (hu.activation.temps.set ht hv).elim with
      ⟨f, g, h3, h4, hf⟩ | ⟨ts, ts', h3, h4, hset, hget, hget'⟩
    · rw [h3, h4]
      exact .error hl hf hu.forgetAll
    · rw [h3] at hliteral ⊢
      rw [h4]
      refine .ok hl .next
        { hu with activation := { hu.activation with temps := hset.cons ht hget ?_ } }
      rcases Substitution.isStable_cases hst with hc | ⟨x, hx⟩
      · obtain ⟨n, h5, rfl⟩ := Exec.reading_eq_ok h1
        exact .constant hc ((evaluate_literal hs.activation.temps o h5 hc).2 (hliteral hc _ rfl))
      · rw [hx] at h2 ⊢
        obtain ⟨n, h5, rfl⟩ := Exec.reading_eq_ok h2
        have h6 : s'.activation.temps.get? x = some w := by
          rw [Site.evaluate, Site.load] at h5
          cases hx : s'.activation.temps.get? x with
          | none => rw [hx] at h5; cases h5
          | some y => rw [hx] at h5; cases h5; rfl
        refine .temp (w := w) ?_ hv
        rw [hget', h6, ite_self]
  · simp only [h1, h2]
    exact .error hl hf hu

theorem ties_call {r : Variable} (hr : Shared shared [r]) {receiver : Operand}
    (hreceiver : Shared shared (receiver.simplified known true).reads) (name : String)
    {args : List Operand} (hargs : ∀ o ∈ args, Shared shared (o.simplified known true).reads)
    {block : Option Operand} (hblock : ∀ o ∈ block, Shared shared (o.simplified known true).reads)
    (type : CallType) :
    l.Ties literal shared b b' known (known.forget r) Outcome.Linked
      (InstrOf.execute (.call r receiver name args block type))
      (InstrOf.execute (.call r (receiver.simplified known true) name
        (args.map fun o => o.simplified known true) (block.map fun o => o.simplified known true)
        type)) := by
  refine (ties_value hb hreceiver).bind fun l₁ _ v w hv => ?_
  refine (ties_values hb hargs).bind fun l₂ hl₂ vs ws hvs => ?_
  cases block with
  | none =>
    exact ties_outcomes Substitution.mem_of_mem_forget
      ((acts literal shared (known.forget r) l₂ hb).joins_call ⟨rfl, hr, known.forget_forget r⟩
        (hv.mono hl₂) name hvs type .none)
  | some o =>
    refine (ties_block? hb (hblock o rfl)).bind fun l₃ hl₃ c d hcd => ?_
    exact ties_outcomes Substitution.mem_of_mem_forget
      ((acts literal shared (known.forget r) l₃ hb).joins_call ⟨rfl, hr, known.forget_forget r⟩
        (hv.mono (hl₂.trans hl₃)) name (Value.forall₂_linked_mono hl₃ hvs) type hcd)

theorem ties_defineClass {r : Variable} (hr : Shared shared [r]) (body : Body)
    {container superclass : Operand}
    (hcontainer : Shared shared (container.simplified known true).reads)
    (hsuperclass : Shared shared (superclass.simplified known true).reads)
    (hu : superclass = .undefined ↔ superclass.simplified known true = .undefined) :
    l.Ties literal shared b b' known (known.forget r) Outcome.Linked
      (InstrOf.execute (.defineClass r body container superclass))
      (InstrOf.execute (.defineClass r body (container.simplified known true)
        (superclass.simplified known true))) := by
  refine (ties_value hb hcontainer).bind fun l₁ _ v w hv => ?_
  have hasks : Heap.asksSuperclass body v = Heap.asksSuperclass body w := by
    rw [Heap.asksSuperclass, Heap.asksSuperclass,
      (formLaws literal shared b b' known l₁).module?_eq hv]
  have hdefine : ∀ l₂ : Links, l₁.Within l₂ → ∀ x y, Option.Rel (Value.Linked l₂) x y →
      l₂.Ties literal shared b b' known (known.forget r) Outcome.Linked
        (do
          Exec.store r (.method (← Exec.attempt fun h => h.define body v x))
          return .next)
        (do
          Exec.store r (.method (← Exec.attempt fun h => h.define body w y))
          return .next) :=
    fun l₂ hl x y hxy => ties_outcomes Substitution.mem_of_mem_forget
      ((acts literal shared (known.forget r) l₂ hb).joins_define
        ⟨rfl, hr, known.forget_forget r⟩ rfl (hv.mono hl) hxy)
  simp only [hasks]
  split
  · exact (ties_superclass? hb hsuperclass hu).bind hdefine
  · exact hdefine l₁ (.refl l₁) none none .none

theorem ties_processModuleBody {o : Operand} (ho : Shared shared (o.simplified known true).reads)
    (r : Variable) :
    l.Ties literal shared b b' known (known.forget r) Outcome.Linked
      (InstrOf.execute (.processModuleBody r o))
      (InstrOf.execute (.processModuleBody r (o.simplified known true))) := by
  refine (ties_value hb ho).bind fun l₁ _ v w hv => ?_
  have hfail := (formLaws literal shared b b' known l₁).thrown (.notModuleBody hv)
  cases hv with
  | plain =>
    cases v with
    | method m =>
      refine ties_get.bind fun l₂ _ s s' hs => ?_
      refine (ties_ofExcept (m.invocation_linked (Value.linked_module rfl) m.body.name .nil .none
        hs.context)).bind fun l₃ _ i i' hi => ?_
      exact .pure (.call r hi) fun s s' h => h.learn Substitution.mem_of_mem_forget
    | _ => exact ties_throw hfail
  | array | block => exact ties_throw hfail

theorem ties_putConst {container : Operand}
    (hcontainer : Shared shared (container.simplified known true).reads) (name : String)
    {o : Operand} (ho : Shared shared (o.simplified known true).reads) :
    l.Ties literal shared b b' known known Outcome.Linked
      (InstrOf.execute (.putConst container name o))
      (InstrOf.execute (.putConst (container.simplified known true) name
        (o.simplified known true))) := by
  refine (ties_value hb hcontainer).bind fun l₁ _ v w hv => ?_
  have hfail := (formLaws literal shared b b' known l₁).thrown (.notModule hv)
  cases hv with
  | plain =>
    cases v with
    | module m =>
      refine (ties_value hb ho).bind fun l₂ _ x y hxy => ?_
      have hset : l₂.Ties literal shared b b' known known (fun _ _ _ => True)
          (Exec.change fun h => ((), h.setConstant m name x))
          (Exec.change fun h => ((), h.setConstant m name y)) :=
        ties_change (fun h h' H => ⟨trivial, H.setConstant m name hxy⟩) (fun _ => rfl) fun _ => rfl
      exact hset.bind fun _ _ _ _ _ => .pure .next fun _ _ h => h
    | _ => exact ties_throw hfail
  | array | block => exact ties_throw hfail

omit hb in
theorem ties_defineMethod (name : String) (body : Body) :
    l.Ties literal shared b b' known known Outcome.Linked
      (InstrOf.execute (.defineMethod name body)) (InstrOf.execute (.defineMethod name body)) := by
  refine ties_frame.bind fun l₁ _ f f' hf => ?_
  rw [hf.module, hf.visibility]
  have hmake : l₁.Ties literal shared b b' known known (fun _ => Eq)
      (Exec.change fun h => h.newMethod body f'.visibility f'.module)
      (Exec.change fun h => h.newMethod body f'.visibility f'.module) :=
    ties_change (fun h h' H => H.newMethod body _ _) (fun _ => rfl) fun _ => rfl
  refine hmake.bind fun l₂ _ m m' hm => ?_
  have hadd : l₂.Ties literal shared b b' known known (fun _ _ _ => True)
      (Exec.change fun h => ((), h.addMethod f'.module name m))
      (Exec.change fun h => ((), h.addMethod f'.module name m')) :=
    ties_change (fun h h' H => ⟨trivial, hm ▸ H.addMethod _ name m⟩) (fun _ => rfl) fun _ => rfl
  exact hadd.bind fun _ _ _ _ _ => .pure .next fun _ _ h => h

theorem ties_buildClosure {r : Variable} (hr : Shared shared [r]) (body : Body) :
    l.Ties literal shared b b' known (known.forget r) Outcome.Linked
      (InstrOf.execute (.buildClosure r body)) (InstrOf.execute (.buildClosure r body)) := by
  refine ties_frame.bind fun l₁ _ f f' hf => ties_get.bind fun l₂ _ s s' hs => ?_
  obtain ⟨hscope, hcaptured⟩ := hs.captureScope hb
  rw [hf.module, hf.visibility]
  simp only [hscope]
  have hset : l₂.Ties literal shared b b' known known (fun _ _ _ => True)
      (set s.captureScope.2) (set s'.captureScope.2) :=
    fun _ _ _ => .ok (.refl l₂) trivial hcaptured
  refine hset.bind fun l₃ hl₃ _ _ _ => ?_
  have hreceiver := hcaptured.activation.receiver.mono hl₃
  have hmake : l₃.Ties literal shared b b' known known BlockOf.Linked
      (Exec.change fun h => h.newBlock body s.captureScope.2.activation.receiver
        s'.captureScope.1 f'.module f'.visibility)
      (Exec.change fun h => h.newBlock body s'.captureScope.2.activation.receiver
        s'.captureScope.1 f'.module f'.visibility) :=
    ties_change (fun h h' H => H.newBlock body hreceiver _ _ _) (fun _ => rfl) fun _ => rfl
  exact hmake.bind fun l₄ _ c d hcd => ties_stored hb hr hcd

theorem ties_nonlocalRet {o : Operand} (ho : Shared shared (o.simplified known true).reads) :
    l.Ties literal shared b b' known known Outcome.Linked
      (InstrOf.execute (.nonlocalRet o))
      (InstrOf.execute (.nonlocalRet (o.simplified known true))) := by
  refine (ties_value hb ho).bind fun l₁ _ v w hv => ties_get.bind fun l₂ hl₂ s s' hs => ?_
  have hkind : s.activation.body.kind = s'.activation.body.kind := by
    rw [hs.activation.body, hs.activation.body', Body.kind, hb.scope, Body.kind]
  simp only [hkind, hs.activation.footing]
  split
  · exact .pure (.complete (hv.mono hl₂)) fun _ _ h => h
  · cases s'.activation.footing.scope?.bind DynamicScope.returnTarget? with
    | none => exact ties_throw (.plain rfl rfl)
    | some target => exact .pure (.return target.id (hv.mono hl₂)) fun _ _ h => h

/-- Instructions other than copies lead to the same, and nothing is learned from them. -/
theorem ties_execute (hk : ∀ p ∈ known, Substitution.isStable p.2 = true) (i : Instr)
    (hr : ∀ r, i.result? = some r → Shared shared [r])
    (ho : ∀ o ∈ i.operands, Shared shared (o.simplified known true).reads)
    (hcopy : ∀ r o, i ≠ .copy r o) :
    l.Ties literal shared b b' known (known.after (i.simplified known true)) Outcome.Linked
      i.execute (i.simplified known true).execute := by
  have hu : ∀ o : Operand, o = .undefined ↔ o.simplified known true = .undefined := by
    refine fun o => OperandOf.eq_undefined_iff_simplified fun v _ hv => ?_
    have hstable := hk _ (Substitution.mem_of_lookup? hv)
    simp [Substitution.isStable, OperandOf.isConstant, OperandOf.asVariable?] at hstable
  have hkeeping : ∀ {j : Instr},
      j.Like (l.correspondence literal shared b b' known).toCounterparts j →
      j.isLexical = false → j.operands = [] →
      l.Ties literal shared b b' known known Outcome.Linked j.execute j.execute :=
    fun hj hlexical hoperands => ties_outcomes (fun _ h => h)
      ((acts literal shared known l hb).joins_closed hj hlexical hoperands)
  have hsetting : ∀ {j : Instr} (r : Variable), Shared shared [r] →
      ((l.correspondence literal shared b b' (known.forget r)).place r r →
        j.Like (l.correspondence literal shared b b' (known.forget r)).toCounterparts j) →
      j.isLexical = false → j.operands = [] →
      l.Ties literal shared b b' known (known.forget r) Outcome.Linked j.execute j.execute :=
    fun r hr hj hlexical hoperands => ties_outcomes Substitution.mem_of_mem_forget
      ((acts literal shared (known.forget r) l hb).joins_closed
        (hj ⟨rfl, hr, known.forget_forget r⟩) hlexical hoperands)
  cases i with
  | copy r o => exact absurd rfl (hcopy r o)
  | receiveArg r index => exact hsetting r (hr r rfl) (fun hr => .receiveArg hr index) rfl rfl
  | receiveBlock r => exact hsetting r (hr r rfl) .receiveBlock rfl rfl
  | searchConst r name => exact hsetting r (hr r rfl) (fun hr => .searchConst hr name) rfl rfl
  | label n => exact hkeeping (.label rfl) rfl rfl
  | jump n => exact hkeeping (.jump rfl) rfl rfl
  | setVisibility v => exact hkeeping (.setVisibility v) rfl rfl
  | intMath r op lhs rhs =>
    refine (ties_fixnum hb (ho lhs (by simp [InstrOf.operands]))).bind fun l₁ _ m m' hm => ?_
    refine (ties_fixnum hb (ho rhs (by simp [InstrOf.operands]))).bind fun l₂ _ n n' hn => ?_
    subst hm hn
    exact ties_stored hb (hr r rfl) (.plain (by cases op <;> simp [MathOp.onFixnums])
      (by cases op <;> simp [MathOp.onFixnums]))
  | floatMath r op lhs rhs =>
    refine (ties_float hb (ho lhs (by simp [InstrOf.operands]))).bind fun l₁ _ m m' hm => ?_
    refine (ties_float hb (ho rhs (by simp [InstrOf.operands]))).bind fun l₂ _ n n' hn => ?_
    subst hm hn
    exact ties_stored hb (hr r rfl) (.plain (by cases op <;> simp [MathOp.onFloats])
      (by cases op <;> simp [MathOp.onFloats]))
  | branchFalse condition n =>
    refine (ties_value hb (ho condition (by simp [InstrOf.operands]))).bind fun l₁ _ v w hv => ?_
    simp only [(formLaws literal shared b b' known l₁).isTruthy_eq hv]
    split
    · exact .pure .next fun _ _ h => h
    · exact (ties_joins ((acts literal shared known l₁ hb).joins_goTo rfl)).bind fun _ _ _ _ _ =>
        .pure .next fun _ _ h => h
  | call r receiver name args block type =>
    rw [InstrOf.simplified_call]
    exact ties_call hb (hr r rfl) (ho receiver (by simp [InstrOf.operands])) name
      (fun o hin => ho o (by simp [InstrOf.operands, hin]))
      (fun o hin => ho o (by simp [InstrOf.operands, Option.mem_def.1 hin])) type
  | defineMethod name body => exact ties_defineMethod name body
  | defineClass r body container superclass =>
    exact ties_defineClass hb (hr r rfl) body (ho container (by simp [InstrOf.operands]))
      (ho superclass (by simp [InstrOf.operands])) (hu superclass)
  | processModuleBody r method =>
    exact ties_processModuleBody hb (ho method (by simp [InstrOf.operands])) r
  | putConst container name o =>
    exact ties_putConst hb (ho container (by simp [InstrOf.operands])) name
      (ho o (by simp [InstrOf.operands]))
  | buildClosure r body => exact ties_buildClosure hb (hr r rfl) body
  | yield r block args =>
    rw [InstrOf.simplified_yield]
    refine (ties_yielded hb (ho block (by simp [InstrOf.operands]))).bind fun l₁ _ c d hcd => ?_
    refine (ties_values hb fun o hin =>
      ho o (by simp [InstrOf.operands, hin])).bind fun l₂ hl₂ vs ws hvs => ?_
    exact .pure (.call r (BlockOf.Linked.invocation hvs (hcd.mono hl₂))) fun _ _ h =>
      h.learn Substitution.mem_of_mem_forget
  | ret o =>
    exact (ties_value hb (ho o (by simp [InstrOf.operands]))).bind fun l₁ _ v w hv =>
      .pure (.complete hv) fun _ _ h => h
  | nonlocalRet o => exact ties_nonlocalRet hb (ho o (by simp [InstrOf.operands]))
  | raise o =>
    exact (ties_value hb (ho o (by simp [InstrOf.operands]))).bind fun l₁ _ v w hv =>
      ties_throw (.raised hv)

/-- Each instruction, with what is known put in, leads to the same by links that may have grown. -/
theorem execute_linked (hk : ∀ p ∈ known, Substitution.isStable p.2 = true) (i : Instr)
    (hi : Shared shared (i.simplified known true).usedVariables) {s s' : Site}
    (hs : s.Tied literal shared b b' known l s')
    (hliteral : (i.simplified known true).isLiteral = true → ∀ u, i.execute s = .ok .next u →
      ∀ n, s.heap.next.arrays ≤ n → n < u.heap.next.arrays → literal n) :
    l.Meets (Site.Tied literal shared b b' (known.after (i.simplified known true)))
      (Site.Tied literal shared b b' []) Outcome.Linked (i.execute s)
      ((i.simplified known true).execute s') := by
  rw [InstrOf.usedVariables, Shared.append, Shared.flatMap, InstrOf.operands_simplified,
    InstrOf.result?_simplified] at hi
  obtain ⟨hr, ho⟩ := hi
  have ho : ∀ o ∈ i.operands, Shared shared (o.simplified known true).reads :=
    fun o hin => ho _ (List.mem_map_of_mem hin)
  have hr : ∀ r, i.result? = some r → Shared shared [r] := fun r hir => by rwa [hir] at hr
  by_cases hcopy : ∃ r o, i = .copy r o
  · obtain ⟨r, o, rfl⟩ := hcopy
    have hread := ho o (by simp [InstrOf.operands])
    have hafter : known.after (InstrOf.simplified (.copy r o) known true) =
        if r.isTemp && Substitution.isStable (o.simplified known true) then
          (r, o.simplified known true) :: known.forget r else known.forget r := rfl
    rw [hafter]
    split
    · next hst =>
      rw [Bool.and_eq_true] at hst
      cases r with
      | lexical => cases hst.1
      | temp t => exact copy_linked hb (hr _ rfl t (by simp)) hread hst.2 hs hliteral
    · exact ties_copy hb (hr r rfl) hread s s' hs
  · exact ties_execute hb hk i hr ho (fun r o h => hcopy ⟨r, o, h⟩) s s' hs

omit hb in
/-- Where nothing is known, nothing need be learned either. -/
theorem execute_unknowing (i : Instr) {s s' : Site}
    (hs : s.Tied literal (fun _ => True) b b [] l s') :
    l.Meets (Site.Tied literal (fun _ => True) b b []) (Site.Tied literal (fun _ => True) b b [])
      Outcome.Linked (i.execute s) (i.execute s') := by
  have hb : b.Kin b := ⟨rfl, rfl, rfl, rfl⟩
  by_cases hcopy : ∃ r o, i = .copy r o
  · obtain ⟨r, o, rfl⟩ := hcopy
    have hcopied : l.Ties literal (fun _ => True) b b [] [] Outcome.Linked
        (InstrOf.execute (.copy r o)) (InstrOf.execute (.copy r (o.simplified [] true))) :=
      ties_copy hb (fun _ _ => trivial) fun _ _ => trivial
    rw [OperandOf.simplified_nil] at hcopied
    exact hcopied s s' hs
  · have hdone : l.Ties literal (fun _ => True) b b []
        (Substitution.after [] (i.simplified [] true)) Outcome.Linked i.execute
        (i.simplified [] true).execute :=
      ties_execute hb (by simp) i (fun _ _ _ _ => trivial) (fun _ _ _ _ => trivial)
        fun r o h => hcopy ⟨r, o, h⟩
    rw [InstrOf.simplified_nil] at hdone
    exact hdone.mono (fun _ _ h => h) (fun _ _ _ h => h.forgetAll) (fun _ _ _ h => h) s s' hs

end Instructions

end Links

end ObjectIr
