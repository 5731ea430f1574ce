import ObjectIr.Proofs.CopyPropagation.Tracking
import ObjectIr.Proofs.Effects

/-!
# Instructions with simplified operands

An instruction does the same as its simplified form, at two sites at which the operands read as
their simplified forms do (`execute_simplified`). They do when the second site reads every known
variable as the first does (`execute_tracked`), and what is known afterwards is what copy
propagation takes to be known.
-/

namespace ObjectIr

/-- Bodies that differ at most in operands, numbers of temporaries and their own number. -/
structure Body.Kin (b b' : Body) : Prop where
  name : b.name = b'.name
  scope : b.scope = b'.scope
  flags : b.flags = b'.flags
  labelIndex? : b.labelIndex? = b'.labelIndex?

/-- Two activations at the same instruction of two bodies, with slots that agree. -/
structure Activation.Tracked (shared : Temp → Prop) (known : Substitution) (b b' : Body)
    (a a' : Activation) : Prop where
  body : a.body = b
  body' : a'.body = b'
  pc : a.pc = a'.pc
  temps : Temps.Agree shared known a.temps a'.temps
  args : a.args.map Value.content = a'.args.map Value.content
  receiver : a.receiver.Alike a'.receiver
  footing : a.footing = a'.footing
  bridge? : a.bridge? = a'.bridge?
  answer? : a.answer?.map Value.content = a'.answer?.map Value.content

structure Site.Tracked (shared : Temp → Prop) (b b' : Body) (known : Substitution)
    (s s' : Site) : Prop where
  heap : s.heap.Alike s'.heap
  context : s.context.Alike s'.context
  activation : s.activation.Tracked shared known b b' s'.activation

inductive Outcome.Alike : Outcome → Outcome → Prop
  | next : Alike .next .next
  | call (r : Variable) {i i' : Invocation} (h : i.content = i'.content) :
    Alike (.call r i) (.call r i')
  | complete {v w : Value} (h : v.Alike w) : Alike (.complete v) (.complete w)
  | return (target : Nat) {v w : Value} (h : v.Alike w) :
    Alike (.return target v) (.return target w)

section

variable {shared : Temp → Prop} {b b' : Body} {known : Substitution}

theorem Site.Tracked.mono {s s' : Site} (h : s.Tracked shared b b' known s')
    {known' : Substitution} (hk : ∀ p ∈ known', p ∈ known) : s.Tracked shared b b' known' s' :=
  ⟨h.heap, h.context, { h.activation with temps := h.activation.temps.mono hk }⟩

theorem Site.Tracked.forgetAll {s s' : Site} (h : s.Tracked shared b b' known s') :
    s.Tracked shared b b' [] s' := h.mono (by simp)

/-- Two readings with answers in a relation, from any numbers of arrays. -/
abbrev Reads {α : Type} (rel : α → α → Prop) : Reading α → Reading α → Prop :=
  Sim (fun _ _ => True) (fun _ _ => True) (fun _ _ => True) rel

mutual

theorem evaluate_constant (s : Site) (n : Nat) : ∀ o : Operand, o.isConstant = true →
    ∃ v n', s.evaluate o n = .ok v n' ∧ v.content = o.literal
  | .nil, _ | .bool _, _ | .fixnum _, _ | .float _, _ | .string _, _ | .symbol _, _ =>
    ⟨_, n, rfl, rfl⟩
  | .array os, h => by
    obtain ⟨vs, n', h1, h2⟩ := evaluateAll_constant s n os h
    refine ⟨.array n' vs, n' + 1, ?_, ?_⟩
    · rw [Site.evaluate]
      simp only [bind, EStateM.bind, h1]
      rfl
    · rw [Value.content, h2, OperandOf.literal]

theorem evaluateAll_constant (s : Site) (n : Nat) : ∀ os : List Operand,
    OperandOf.allConstant os = true →
    ∃ vs n', s.evaluateAll os n = .ok vs n' ∧ Value.contents vs = OperandOf.literals os
  | [], _ => ⟨[], n, rfl, rfl⟩
  | o :: os, h => by
    rw [OperandOf.allConstant, Bool.and_eq_true] at h
    obtain ⟨v, n₁, h1, h2⟩ := evaluate_constant s n o h.1
    obtain ⟨vs, n₂, h3, h4⟩ := evaluateAll_constant s n₁ os h.2
    refine ⟨v :: vs, n₂, ?_, ?_⟩
    · rw [Site.evaluateAll]
      simp only [bind, EStateM.bind, h1, h3]
      rfl
    · rw [Value.contents, h2, h4, OperandOf.literals]

end

/-- What replaces a known variable reads as the variable does. -/
theorem evaluate_known {s' : Site} {v : Value} {o : Operand}
    (ho : Substitution.isStable o = true)
    (hw : o.worth s'.activation.temps = some v.content) (n : Nat) :
    ∃ w n', s'.evaluate o n = .ok w n' ∧ v.Alike w := by
  rcases Substitution.isStable_cases ho with hc | ⟨t, rfl⟩
  · obtain ⟨w, n', h1, h2⟩ := evaluate_constant s' n o hc
    rw [OperandOf.worth_constant hc, Option.some.injEq] at hw
    exact ⟨w, n', h1, by rw [Value.Alike, h2, hw]⟩
  · rw [OperandOf.worth, Option.map_eq_some_iff] at hw
    obtain ⟨w, h1, h2⟩ := hw
    refine ⟨w, n, ?_, h2.symm⟩
    rw [Site.evaluate, Site.load, h1]
    rfl

/-- What an operand that keeps its value reads as is its worth. -/
theorem worth_of_value {s s' : Site} {o : Operand} (ho : Substitution.isStable o = true) {w : Value}
    (h : Exec.value o s = .ok w s') : o.worth s'.activation.temps = some w.content := by
  rw [Exec.value, Exec.reading] at h
  simp only [EStateM.run] at h
  rcases Substitution.isStable_cases ho with hc | ⟨t, rfl⟩
  · obtain ⟨v, n', h1, h2⟩ := evaluate_constant s s.heap.next.arrays o hc
    rw [h1] at h
    cases h
    rw [OperandOf.worth_constant hc, h2]
  · rw [Site.evaluate, Site.load] at h
    cases ht : s.activation.temps.get? t with
    | none => rw [ht] at h; cases h
    | some v =>
      rw [ht] at h
      cases h
      rw [OperandOf.worth, ht]
      rfl

def Shared (shared : Temp → Prop) (vs : List Variable) : Prop := ∀ t, .temp t ∈ vs → shared t

theorem Shared.append {vs ws : List Variable} :
    Shared shared (vs ++ ws) ↔ Shared shared vs ∧ Shared shared ws := by
  simp only [Shared, List.mem_append]
  exact ⟨fun h => ⟨fun t ht => h t (.inl ht), fun t ht => h t (.inr ht)⟩,
    fun h t => Or.rec (h.1 t) (h.2 t)⟩

theorem Shared.flatMap {α : Type} {as : List α} {f : α → List Variable} :
    Shared shared (as.flatMap f) ↔ ∀ a ∈ as, Shared shared (f a) := by
  simp only [Shared, List.mem_flatMap]
  exact ⟨fun h a ha t ht => h t ⟨a, ha, ht⟩, fun h t ⟨a, ha, ht⟩ => h a ha t ht⟩

theorem Frame.defining_eq {f f' : Frame} (h : f.content = f'.content) :
    f.module = f'.module ∧ f.visibility = f'.visibility :=
  ⟨show f.content.module = f'.content.module by rw [h],
    show f.content.visibility = f'.content.visibility by rw [h]⟩

section Reading

variable {s s' : Site} (h : s.Tracked shared b b' known s') (hb : b.Kin b')

include h

theorem frame_tracked : Agree (fun f f' => f.content = f'.content) s.frame s'.frame := by
  have hc : s.context.currentFrame?.map Frame.content =
      s'.context.currentFrame?.map Frame.content := by
    rw [← Context.currentFrame?_content, h.context, Context.currentFrame?_content]
  rw [Site.frame, Site.frame]
  rcases map_eq_cases hc with ⟨h1, h2⟩ | ⟨f, f', h1, h2, hf⟩
  · rw [h1, h2]
    exact .error rfl
  · rw [h1, h2]
    exact .ok hf

include hb

theorem load_tracked {v : Variable} (hv : Shared shared [v]) :
    Agree Value.Alike (s.load v) (s'.load v) := by
  cases v with
  | temp t =>
    rw [Site.load, Site.load]
    rcases map_eq_cases (h.activation.temps.shared t (hv t (by simp))) with
      ⟨h1, h2⟩ | ⟨v, w, h1, h2, hvw⟩
    · rw [h1, h2]
      exact .error rfl
    · rw [h1, h2]
      exact .ok hvw
  | lexical name depth offset =>
    rw [Site.load, Site.load, h.activation.footing, h.activation.body, h.activation.body', hb.name]
    cases s'.activation.footing.locate? depth with
    | none => exact .error rfl
    | some p => exact h.heap.readLocal_agree _ _ _

theorem scopeModule_tracked : Agree Eq s.scopeModule s'.scopeModule := by
  rw [Site.scopeModule, Site.scopeModule, h.activation.body, h.activation.body', hb.scope,
    h.heap.lexicalModule?_eq]
  cases s'.heap.lexicalModule? b'.scope with
  | some m => exact .ok rfl
  | none =>
    rcases (frame_tracked h).cases with ⟨f, f', h1, h2, hf⟩ | ⟨f, f', h1, h2, hf⟩
    · simp only [h1, h2]
      exact .ok (congrArg (fun f : Frame => f.module) hf : f.content.module = f'.content.module)
    · simp only [h1, h2]
      exact .error hf

end Reading

section Evaluation

variable {s s' : Site} {values : Substitution} {force : Bool}

mutual

/-- An operand reads as its simplified form when the variables in it read as what is put there. -/
theorem evaluate_simplified (h : s.Tracked shared b b' known s') (hb : b.Kin b') : ∀ o : Operand,
    (∀ v ∈ o.reads, Reads Value.Alike (s.evaluate (.var v))
      (s'.evaluate (values.replace force (.var v)))) →
    Reads Value.Alike (s.evaluate o) (s'.evaluate (o.simplified values force))
  | .var v, hv => hv v (List.mem_singleton.2 rfl)
  | .array os, hv => by
    rw [OperandOf.simplified_array, Site.evaluate, Site.evaluate]
    refine (evaluateAll_simplified h hb os hv).bind fun vs ws hvs => ?_
    intro n n' _
    exact .ok (by rw [Value.Alike, Value.content, Value.content, Value.contents_eq_map,
      Value.contents_eq_map, hvs]) trivial
  | .selfObject, _ => .pure h.activation.receiver (by simp)
  | .nil, _ | .bool _, _ | .fixnum _, _ | .float _, _ | .string _, _ | .symbol _, _ =>
    .pure rfl (by simp)
  | .scopeModule, _ => by
    have hm : Reads Eq (ofExcept s.scopeModule) (ofExcept s'.scopeModule) :=
      .ofExcept (scopeModule_tracked h hb) (by simp) (by simp)
    rw [show OperandOf.simplified .scopeModule values force = .scopeModule from rfl, Site.evaluate,
      Site.evaluate]
    exact hm.bind fun m m' hm => .pure (by rw [hm]) (by simp)
  | .undefined, _ | .body _, _ => .throw rfl (by simp)

theorem evaluateAll_simplified (h : s.Tracked shared b b' known s') (hb : b.Kin b') :
    ∀ os : List Operand,
    (∀ v ∈ OperandOf.readsAll os, Reads Value.Alike (s.evaluate (.var v))
      (s'.evaluate (values.replace force (.var v)))) →
    Reads (fun vs ws => vs.map Value.content = ws.map Value.content) (s.evaluateAll os)
      (s'.evaluateAll (os.map fun o => o.simplified values force))
  | [], _ => .pure rfl (by simp)
  | o :: os, hv => by
    rw [List.map_cons, Site.evaluateAll, Site.evaluateAll]
    refine (evaluate_simplified h hb o fun v hin =>
      hv v (List.mem_append_left _ hin)).bind fun v w hvw => ?_
    refine (evaluateAll_simplified h hb os fun v hin =>
      hv v (List.mem_append_right _ hin)).bind fun vs ws hvs => ?_
    exact .pure (by rw [List.map_cons, List.map_cons, hvs, show v.content = w.content from hvw])
      (by simp)

end

theorem evaluate_var_tracked (h : s.Tracked shared b b' known s') (hb : b.Kin b') {v : Variable}
    (hv : Shared shared (known.replace true (.var v)).reads) :
    Reads Value.Alike (s.evaluate (.var v)) (s'.evaluate (known.replace true (.var v))) := by
  rcases known.puts_replace true v with ⟨hl, -⟩ | ⟨ho, -⟩
  · obtain ⟨hst, t, x, rfl, hx, hw⟩ :=
      h.activation.temps.known _ (Substitution.mem_of_lookup? hl)
    intro n n' _
    obtain ⟨w, m, h1, h2⟩ := evaluate_known hst hw n'
    rw [h1, Site.evaluate, Site.load, hx]
    exact .ok h2 trivial
  · rw [ho] at hv ⊢
    exact .ofExcept (load_tracked h hb hv) (by simp) (by simp)

theorem evaluate_tracked (h : s.Tracked shared b b' known s') (hb : b.Kin b') (o : Operand)
    (ho : Shared shared (o.simplified known true).reads) :
    Reads Value.Alike (s.evaluate o) (s'.evaluate (o.simplified known true)) := by
  rw [OperandOf.reads_simplified, Shared.flatMap] at ho
  exact evaluate_simplified h hb o fun v hv => evaluate_var_tracked h hb (ho v hv)

end Evaluation

/-! ### Executions -/

section Steps

variable (shared b b')

/-- Executions that keep what is known, and answer in a relation. -/
abbrev Keeps {α β : Type} (known : Substitution) (rel : α → β → Prop) (x : Exec α) (y : Exec β) :
    Prop :=
  Sim (Site.Tracked shared b b' known) (Site.Tracked shared b b' known)
    (Site.Tracked shared b b' []) rel x y

/-- Executions that set a variable at most, and lead to the same. -/
abbrev Sets (known : Substitution) (r : Variable) (x y : Exec Outcome) : Prop :=
  Sim (Site.Tracked shared b b' known) (Site.Tracked shared b b' (known.forget r))
    (Site.Tracked shared b b' []) Outcome.Alike x y

/-- Pairs of sites that reading does not lead away from. -/
structure Vantage (known : Substitution) (pre : Site → Site → Prop) : Prop where
  tracked : ∀ s s', pre s s' → Site.Tracked shared b b' known s s'
  supply : ∀ s s' n n', pre s s' →
    pre { s with heap.next.arrays := n } { s' with heap.next.arrays := n' }

/-- Executions that only read at such sites, and answer in a relation. -/
abbrev Peeks (pre : Site → Site → Prop) {α β : Type} (rel : α → β → Prop) (x : Exec α)
    (y : Exec β) : Prop :=
  Sim pre pre (Site.Tracked shared b b' []) rel x y

/-- At each pair of sites, the second operand reads as the first does. -/
def ReadsAlike (pre : Site → Site → Prop) (o o' : Operand) : Prop :=
  ∀ s s', pre s s' → Reads Value.Alike (s.evaluate o) (s'.evaluate o')

variable {shared b b'}

theorem captureScope_tracked {s s' : Site} (h : Site.Tracked shared b b' known s s')
    (hb : b.Kin b') : s.captureScope.1 = s'.captureScope.1 ∧
      Site.Tracked shared b b' known s.captureScope.2 s'.captureScope.2 := by
  have hf := h.activation.footing
  have hr := h.activation.bridge?
  rw [Site.captureScope, Site.captureScope, ← hf, ← hr]
  cases h1 : s.activation.footing with
  | own scope => exact ⟨rfl, h⟩
  | nowhere => exact ⟨rfl, h⟩
  | guest parent =>
    cases h2 : s.activation.bridge? with
    | some bridge => exact ⟨rfl, h⟩
    | none =>
      have hl : s.activation.body.scope = s'.activation.body.scope := by
        rw [h.activation.body, h.activation.body', hb.scope]
      obtain ⟨hs, hh⟩ := h.heap.newScope s.activation.body.scope (some parent)
      simp only [← hl]
      exact ⟨congrArg some hs, hh, h.context,
        { h.activation with bridge? := congrArg some hs, footing := hf }⟩

theorem vantage_tracked : Vantage shared b b' known (Site.Tracked shared b b' known) where
  tracked _ _ h := h
  supply _ _ n n' h := ⟨h.heap.supply n n', h.context, h.activation⟩

/-- What leads to the same from sites that agree on what is known. -/
theorem Vantage.sim {pre post err : Site → Site → Prop} {α β : Type} {rel : α → β → Prop}
    {x : Exec α} {y : Exec β} (hpre : Vantage shared b b' known pre)
    (h : Sim (Site.Tracked shared b b' known) post err rel x y) : Sim pre post err rel x y :=
  h.mono hpre.tracked (fun _ _ h => h) (fun _ _ h => h) fun _ _ h => h

theorem keeps_get : Keeps shared b b' known (Site.Tracked shared b b' known) get get :=
  fun _ _ h => .ok h h

theorem keeps_frame :
    Keeps shared b b' known (fun f f' => f.content = f'.content) Exec.frame Exec.frame :=
  keeps_get.bind fun _ _ h =>
    .ofExcept (frame_tracked h) (fun _ _ h => h) (fun _ _ h => h.forgetAll)

theorem keeps_change {α : Type} {rel : α → α → Prop} {f g : Heap → α × Heap}
    (hfg : ∀ h h', h.Alike h' → Heap.Alike.Made rel (f h) (g h')) :
    Keeps shared b b' known rel (Exec.change f) (Exec.change g) := by
  intro s s' h
  obtain ⟨ha, hh⟩ := hfg _ _ h.heap
  exact .ok ha ⟨hh, h.context, h.activation⟩

theorem keeps_update {f g : Heap → Heap} (hfg : ∀ h h', h.Alike h' → (f h).Alike (g h')) :
    Keeps shared b b' known (fun _ _ => True) (Exec.change fun h => ((), f h))
      (Exec.change fun h => ((), g h)) :=
  keeps_change fun h h' hh => ⟨trivial, hfg h h' hh⟩

theorem keeps_attempt {α : Type} {rel : α → α → Prop} {f g : Heap → Except Failure (α × Heap)}
    (hfg : ∀ h h', h.Alike h' → Agree (Heap.Alike.Made rel) (f h) (g h')) :
    Keeps shared b b' known rel (Exec.attempt f) (Exec.attempt g) := by
  refine keeps_get.bind fun s s' h => ?_
  rcases (hfg _ _ h.heap).cases with ⟨⟨a, k⟩, ⟨a', k'⟩, h1, h2, ha, hk⟩ | ⟨e, e', h1, h2, he⟩
  · rw [h1, h2]
    exact fun _ _ _ => .ok ha ⟨hk, h.context, h.activation⟩
  · rw [h1, h2]
    exact fun _ _ h => .error he h.forgetAll

/-- A temporary that was set to what an operand reads as is known to be that operand. -/
theorem store_copied {t : Temp} (ht : shared t) {o : Operand}
    (ho : Substitution.isStable o = true) {v w : Value} (hv : v.Alike w) :
    Sim (fun s s' => Site.Tracked shared b b' known s s' ∧
        o.worth s'.activation.temps = some w.content)
      (Site.Tracked shared b b' ((.temp t, o) :: known.forget (.temp t)))
      (Site.Tracked shared b b' []) (fun _ _ => True)
      (Exec.store (.temp t) v) (Exec.store (.temp t) w) := by
  rintro s s' ⟨h, hw⟩
  rw [Exec.store_apply, Exec.store_apply, Site.store, Site.store]
  rcases (h.activation.temps.set ht hv).cases with
    ⟨us, us', h1, h2, hu, h3, h4⟩ | ⟨e, e', h1, h2, he⟩
  · rw [h1, h2]
    refine .ok trivial ⟨h.heap, h.context, { h.activation with temps := ⟨hu.shared, ?_⟩ }⟩
    intro p hp
    rcases List.mem_cons.1 hp with rfl | hp
    · refine ⟨ho, t, v, rfl, h3, ?_⟩
      by_cases hot : o.asVariable? = some (.temp t)
      · cases o with
        | var x =>
          cases hot
          rw [OperandOf.worth, h4, if_pos rfl, Option.map_some, show v.content = w.content from hv]
        | _ => cases hot
      · rw [Temps.Agree.worth_set hot h4, hw, show v.content = w.content from hv]
    · exact hu.known p hp
  · rw [h1, h2]
    exact .error he h.forgetAll

/-! #### Reading operands -/

section Reading

variable {pre : Site → Site → Prop} (hpre : Vantage shared b b' known pre)

include hpre

theorem peeks_error : ∀ s s', pre s s' → Site.Tracked shared b b' [] s s' :=
  fun s s' h => (hpre.tracked s s' h).forgetAll

theorem peeks_reading {α : Type} {rel : α → α → Prop} {read read' : Site → Reading α}
    (hr : ∀ s s', pre s s' → Reads rel (read s) (read' s')) :
    Peeks shared b b' pre rel (Exec.reading read) (Exec.reading read') := by
  intro s s' h
  unfold Exec.reading
  simp only [EStateM.run]
  rcases (hr s s' h s.heap.next.arrays s'.heap.next.arrays trivial).cases with
    ⟨a, a', n, n', h1, h2, ha, -⟩ | ⟨f, f', n, n', h1, h2, hf, -⟩
  · rw [h1, h2]
    exact .ok ha (hpre.supply s s' n n' h)
  · rw [h1, h2]
    exact .error hf (peeks_error hpre _ _ (hpre.supply s s' n n' h))

theorem peeks_value {o o' : Operand} (ho : ReadsAlike pre o o') :
    Peeks shared b b' pre Value.Alike (Exec.value o) (Exec.value o') :=
  peeks_reading hpre ho

theorem peeks_values {os os' : List Operand} (ho : List.Forall₂ (ReadsAlike pre) os os') :
    Peeks shared b b' pre (fun vs ws => vs.map Value.content = ws.map Value.content)
      (Exec.values os) (Exec.values os') := by
  refine peeks_reading hpre fun s s' h => ?_
  induction ho with
  | nil => exact .pure rfl (by simp)
  | cons ho _ ih =>
    rw [Site.evaluateAll, Site.evaluateAll]
    refine (ho s s' h).bind fun v w hvw => ih.bind fun vs ws hvs => ?_
    exact .pure (by rw [List.map_cons, List.map_cons, hvs, show v.content = w.content from hvw])
      (by simp)

theorem peeks_fixnum {o o' : Operand} (ho : ReadsAlike pre o o') :
    Peeks shared b b' pre Eq (Exec.fixnum o) (Exec.fixnum o') := by
  refine (peeks_value hpre ho).bind fun v w hv => ?_
  rcases hv.cases with rfl | ⟨i, j, vs, ws, rfl, rfl, -⟩ | ⟨c, d, rfl, rfl, -⟩
  · cases v with
    | fixnum n => exact .pure rfl (fun _ _ h => h)
    | _ => exact .throw rfl (peeks_error hpre)
  · exact .throw rfl (peeks_error hpre)
  · exact .throw rfl (peeks_error hpre)

theorem peeks_float {o o' : Operand} (ho : ReadsAlike pre o o') :
    Peeks shared b b' pre Eq (Exec.float o) (Exec.float o') := by
  refine (peeks_value hpre ho).bind fun v w hv => ?_
  rcases hv.cases with rfl | ⟨i, j, vs, ws, rfl, rfl, -⟩ | ⟨c, d, rfl, rfl, -⟩
  · cases v with
    | fixnum _ | float _ => exact .pure rfl (fun _ _ h => h)
    | _ => exact .throw rfl (peeks_error hpre)
  · exact .throw rfl (peeks_error hpre)
  · exact .throw rfl (peeks_error hpre)

theorem peeks_block? {o o' : Operand} (ho : ReadsAlike pre o o') :
    Peeks shared b b' pre
      (fun c d : Option Block => c.map BlockOf.content = d.map BlockOf.content)
      (Exec.block? o) (Exec.block? o') := by
  refine (peeks_value hpre ho).bind fun v w hv => ?_
  rcases hv.cases with rfl | ⟨i, j, vs, ws, rfl, rfl, -⟩ | ⟨c, d, rfl, rfl, hcd⟩
  · cases v with
    | nil | block _ => exact .pure rfl (fun _ _ h => h)
    | _ => exact .throw rfl (peeks_error hpre)
  · exact .throw rfl (peeks_error hpre)
  · exact .pure (congrArg some hcd) (fun _ _ h => h)

theorem peeks_yielded {o o' : Operand} (ho : ReadsAlike pre o o') :
    Peeks shared b b' pre (fun c d : Block => c.content = d.content)
      (Exec.yielded o) (Exec.yielded o') := by
  refine (peeks_block? hpre ho).bind fun c d hcd => ?_
  rcases map_eq_cases hcd with ⟨rfl, rfl⟩ | ⟨x, y, rfl, rfl, hxy⟩
  · exact .throw rfl (peeks_error hpre)
  · exact .pure hxy (fun _ _ h => h)

/-- An absent superclass is not read, so it must be absent in both. -/
theorem peeks_superclass? {o o' : Operand} (hu : o = .undefined ↔ o' = .undefined)
    (ho : ReadsAlike pre o o') :
    Peeks shared b b' pre (fun v w => v.map Value.content = w.map Value.content)
      (Exec.superclass? o) (Exec.superclass? o') := by
  by_cases hundefined : o = .undefined
  · have hundefined' := hu.1 hundefined
    subst hundefined hundefined'
    exact .pure rfl (fun _ _ h => h)
  · rw [Exec.superclass?_eq hundefined, Exec.superclass?_eq (hu.not.1 hundefined)]
    exact (peeks_value hpre ho).bind fun v w hv => .pure (congrArg some hv) (fun _ _ h => h)

end Reading

variable (hb : b.Kin b')

include hb

theorem store_tracked {r : Variable} (hr : Shared shared [r]) {v w : Value} (hv : v.Alike w) :
    Sim (Site.Tracked shared b b' known) (Site.Tracked shared b b' (known.forget r))
      (Site.Tracked shared b b' []) (fun _ _ => True) (Exec.store r v) (Exec.store r w) := by
  refine keeps_get.bind fun s s' h => ?_
  have hforget : ∀ p ∈ Substitution.forget known r, p ∈ known :=
    fun p hp => (Substitution.mem_forget.1 hp).1
  cases r with
  | temp t =>
    rw [Site.store, Site.store]
    rcases (h.activation.temps.set (hr t (by simp)) hv).cases with
      ⟨us, us', h1, h2, hu, -⟩ | ⟨e, e', h1, h2, he⟩
    · rw [h1, h2]
      exact fun _ _ _ => .ok trivial ⟨h.heap, h.context, { h.activation with temps := hu }⟩
    · rw [h1, h2]
      exact fun _ _ h => .error he h.forgetAll
  | lexical name depth offset =>
    rw [Site.store, Site.store, h.activation.footing, h.activation.body, h.activation.body',
      hb.name]
    cases s'.activation.footing.locate? depth with
    | none => exact fun _ _ h => .error rfl h.forgetAll
    | some p =>
      obtain ⟨scope, depth'⟩ := p
      rcases (h.heap.writeLocal_agree scope depth' offset hv).cases with
        ⟨k, k', h1, h2, hk⟩ | ⟨e, e', h1, h2, he⟩
      · simp only [h1, h2]
        exact fun _ _ _ => .ok trivial ⟨hk, h.context, (h.mono hforget).activation⟩
      · simp only [h1, h2]
        exact fun _ _ h => .error he h.forgetAll

theorem keeps_goTo (l : Label) :
    Keeps shared b b' known (fun _ _ => True) (Exec.goTo l) (Exec.goTo l) := by
  refine keeps_get.bind fun s s' h => ?_
  rw [h.activation.body, h.activation.body', hb.labelIndex?]
  cases b'.labelIndex? l with
  | none => exact .throw rfl (fun _ _ h => h.forgetAll)
  | some index =>
    exact fun _ _ h => .ok trivial ⟨h.heap, h.context, { h.activation with pc := rfl }⟩

theorem await_tracked {r : Variable} (hr : Shared shared [r]) {q q' : Reply}
    (hq : q.content = q'.content) :
    Sets shared b b' known r (Exec.await r q) (Exec.await r q') := by
  cases q <;> cases q' <;> simp only [Reply.content, Reply.value.injEq, Reply.invoke.injEq,
    reduceCtorEq] at hq
  · exact (store_tracked hb hr hq).bind fun _ _ _ => .pure .next fun _ _ h => h
  · exact .pure (.call r hq) fun s s' h => h.mono fun p hp => (Substitution.mem_forget.1 hp).1

theorem put_tracked {r : Variable} (hr : Shared shared [r]) {v w : Value} (hv : v.Alike w) :
    Sets shared b b' known r (do Exec.store r v; return .next) (do Exec.store r w; return .next) :=
  (store_tracked hb hr hv).bind fun _ _ _ => .pure .next fun _ _ h => h

theorem buildClosure_tracked {r : Variable} (hr : Shared shared [r]) (body : Body) :
    Sets shared b b' known r (InstrOf.execute (.buildClosure r body))
      (InstrOf.execute (.buildClosure r body)) := by
  refine keeps_frame.bind fun f f' hf => ?_
  obtain ⟨hm, hv⟩ := Frame.defining_eq hf
  rw [hm, hv]
  refine keeps_get.bind fun s s' h => ?_
  obtain ⟨hs, hc⟩ := captureScope_tracked h hb
  simp only [hs]
  have hset : Keeps shared b b' known (fun _ _ => True) (set s.captureScope.2)
      (set s'.captureScope.2) := fun _ _ _ => .ok trivial hc
  refine hset.bind fun _ _ _ => ?_
  refine (keeps_change fun k k' hk => hk.newBlock body hc.activation.receiver
    s'.captureScope.1 f'.module f'.visibility).bind fun c d hcd => put_tracked hb hr ?_
  rw [Value.Alike, Value.content_block, Value.content_block, hcd]

/-! #### Instructions that read -/

section Instructions

variable {pre : Site → Site → Prop} (hpre : Vantage shared b b' known pre)

include hpre

/-- A copy is known afterwards, if it is of something that keeps its value. -/
theorem copy_tracked {r : Variable} {o o' : Operand} (hr : Shared shared [r])
    (ho : ReadsAlike pre o o') :
    Sim pre (Site.Tracked shared b b' (known.after (.copy r o'))) (Site.Tracked shared b b' [])
      Outcome.Alike (InstrOf.execute (.copy r o)) (InstrOf.execute (.copy r o')) := by
  have hafter : known.after (.copy r o') = if r.isTemp && Substitution.isStable o' then
      (r, o') :: known.forget r else known.forget r := rfl
  rw [hafter]
  split
  · next hst =>
    rw [Bool.and_eq_true] at hst
    obtain ⟨t, rfl⟩ : ∃ t, r = .temp t := by
      cases r with
      | temp t => exact ⟨t, rfl⟩
      | lexical => exact absurd hst.1 (by simp [Variable.isTemp])
    intro s s' h
    simp only [InstrOf.execute, bind, EStateM.bind]
    rcases (peeks_value hpre ho s s' h).cases with
      ⟨v, w, s₁, s₁', h1, h2, hv, h₁⟩ | ⟨e, e', s₁, s₁', h1, h2, he, h₁⟩
    · rw [h1, h2]
      exact ((store_copied (hr t (by simp)) hst.2 hv).bind fun _ _ _ =>
        .pure .next fun _ _ h => h) s₁ s₁' ⟨hpre.tracked _ _ h₁, worth_of_value hst.2 h2⟩
    · rw [h1, h2]
      exact .error he h₁
  · exact (peeks_value hpre ho).bind fun v w hv => hpre.sim (put_tracked hb hr hv)

theorem call_tracked {r : Variable} (hr : Shared shared [r]) {receiver receiver' : Operand}
    (hreceiver : ReadsAlike pre receiver receiver') {args args' : List Operand}
    (hargs : List.Forall₂ (ReadsAlike pre) args args') {block block' : Option Operand}
    (hblock : Option.Rel (ReadsAlike pre) block block') (name : String) (type : CallType) :
    Sim pre (Site.Tracked shared b b' (known.forget r)) (Site.Tracked shared b b' [])
      Outcome.Alike (InstrOf.execute (.call r receiver name args block type))
      (InstrOf.execute (.call r receiver' name args' block' type)) := by
  refine (peeks_value hpre hreceiver).bind fun v w hv => ?_
  refine (peeks_values hpre hargs).bind fun vs ws hvs => ?_
  have hrest : ∀ c d : Option Block, c.map BlockOf.content = d.map BlockOf.content →
      Sim pre (Site.Tracked shared b b' (known.forget r)) (Site.Tracked shared b b' [])
        Outcome.Alike
        (do
          let context := (← get).context
          Exec.await r (← Exec.attempt fun h => h.dispatch context v name vs c type))
        (do
          let context := (← get).context
          Exec.await r (← Exec.attempt fun h => h.dispatch context w name ws d type)) := by
    intro c d hcd
    refine hpre.sim (keeps_get.bind fun s s' h => ?_)
    exact (keeps_attempt fun k k' hk =>
      hk.dispatch_agree h.context hv hvs hcd name type).bind fun q q' hq => await_tracked hb hr hq
  cases hblock with
  | none => exact hrest none none rfl
  | some ho => exact (peeks_block? hpre ho).bind hrest

theorem defineClass_tracked {r : Variable} (hr : Shared shared [r])
    {container container' superclass superclass' : Operand}
    (hcontainer : ReadsAlike pre container container')
    (hundefined : superclass = .undefined ↔ superclass' = .undefined)
    (hsuperclass : ReadsAlike pre superclass superclass') (body : Body) :
    Sim pre (Site.Tracked shared b b' (known.forget r)) (Site.Tracked shared b b' [])
      Outcome.Alike (InstrOf.execute (.defineClass r body container superclass))
      (InstrOf.execute (.defineClass r body container' superclass')) := by
  refine (peeks_value hpre hcontainer).bind fun v w hv => ?_
  have hasks : Heap.asksSuperclass body v = Heap.asksSuperclass body w := by
    rw [Heap.asksSuperclass, Heap.asksSuperclass, hv.module?_eq]
  have hrest : ∀ x y : Option Value, x.map Value.content = y.map Value.content →
      Sim pre (Site.Tracked shared b b' (known.forget r)) (Site.Tracked shared b b' [])
        Outcome.Alike
        (do
          Exec.store r (.method (← Exec.attempt fun h => h.define body v x))
          return .next)
        (do
          Exec.store r (.method (← Exec.attempt fun h => h.define body w y))
          return .next) := by
    intro x y hxy
    refine hpre.sim ((keeps_attempt fun k k' hk => hk.define_agree body hv hxy).bind
      fun m m' hm => ?_)
    exact put_tracked hb hr (by rw [hm])
  simp only [hasks]
  split
  · exact (peeks_superclass? hpre hundefined hsuperclass).bind hrest
  · exact hrest none none rfl

omit hb in
theorem processModuleBody_tracked {o o' : Operand} (ho : ReadsAlike pre o o') (r : Variable) :
    Sim pre (Site.Tracked shared b b' (known.forget r)) (Site.Tracked shared b b' [])
      Outcome.Alike (InstrOf.execute (.processModuleBody r o))
      (InstrOf.execute (.processModuleBody r o')) := by
  refine (peeks_value hpre ho).bind fun v w hv => hpre.sim ?_
  have hfail : ∀ {f g : Failure}, f.Alike g → Sets shared b b' known r (throw f) (throw g) :=
    fun hfg => .throw hfg fun _ _ h => h.forgetAll
  rcases hv.cases with rfl | ⟨i, j, vs, ws, rfl, rfl, hvs⟩ | ⟨c, d, rfl, rfl, hcd⟩
  · cases v with
    | method m =>
      refine keeps_get.bind fun s s' h => ?_
      refine Sim.bind (.ofExcept (m.invocation_agree h.context rfl rfl rfl m.body.name)
        (fun _ _ h => h) fun _ _ h => h.forgetAll) fun i i' hi => ?_
      exact .pure (.call r hi) fun s s' h => h.mono fun p hp => (Substitution.mem_forget.1 hp).1
    | _ => exact hfail rfl
  · exact hfail (by rw [Failure.Alike, Failure.content, TypeFault.content, hv]; rfl)
  · exact hfail (by rw [Failure.Alike, Failure.content, TypeFault.content, hv]; rfl)

omit hb in
theorem putConst_tracked {container container' o o' : Operand}
    (hcontainer : ReadsAlike pre container container') (ho : ReadsAlike pre o o')
    (name : String) :
    Sim pre (Site.Tracked shared b b' known) (Site.Tracked shared b b' []) Outcome.Alike
      (InstrOf.execute (.putConst container name o))
      (InstrOf.execute (.putConst container' name o')) := by
  refine (peeks_value hpre hcontainer).bind fun v w hv => ?_
  have hfail : ∀ {f g : Failure}, f.Alike g →
      Sim pre (Site.Tracked shared b b' known) (Site.Tracked shared b b' []) Outcome.Alike
        (throw f) (throw g) :=
    fun hfg => .throw hfg (peeks_error hpre)
  rcases hv.cases with rfl | ⟨i, j, vs, ws, rfl, rfl, hvs⟩ | ⟨c, d, rfl, rfl, hcd⟩
  · cases v with
    | module m =>
      refine (peeks_value hpre ho).bind fun x y hxy => hpre.sim ?_
      exact (keeps_update fun k k' hk => hk.setConstant m name hxy).bind fun _ _ _ =>
        .pure .next fun _ _ h => h
    | _ => exact hfail rfl
  · exact hfail (by rw [Failure.Alike, Failure.content, TypeFault.content, hv]; rfl)
  · exact hfail (by rw [Failure.Alike, Failure.content, TypeFault.content, hv]; rfl)

theorem nonlocalRet_tracked {o o' : Operand} (ho : ReadsAlike pre o o') :
    Sim pre (Site.Tracked shared b b' known) (Site.Tracked shared b b' []) Outcome.Alike
      (InstrOf.execute (.nonlocalRet o)) (InstrOf.execute (.nonlocalRet o')) := by
  refine (peeks_value hpre ho).bind fun v w hv => hpre.sim ?_
  refine keeps_get.bind fun s s' h => ?_
  have hkind : s.activation.body.kind = s'.activation.body.kind := by
    rw [h.activation.body, h.activation.body', Body.kind, hb.scope, Body.kind]
  simp only [hkind, h.activation.footing]
  split
  · exact .pure (.complete hv) fun _ _ h => h
  · cases s'.activation.footing.scope?.bind DynamicScope.returnTarget? with
    | none => exact .throw rfl fun _ _ h => h.forgetAll
    | some target => exact .pure (.return target.id hv) fun _ _ h => h

/--
An instruction and its simplified form lead to the same, from sites at which each operand reads as
its simplified form does and is no absent superclass unless that is.
-/
theorem execute_simplified {values : Substitution} {force : Bool} (i : Instr)
    (hi : ∀ r, i.result? = some r → Shared shared [r])
    (ho : ∀ o ∈ i.operands, ReadsAlike pre o (o.simplified values force))
    (hu : ∀ o ∈ i.operands, o = .undefined ↔ o.simplified values force = .undefined) :
    Sim pre (Site.Tracked shared b b' (known.after (i.simplified values force)))
      (Site.Tracked shared b b' []) Outcome.Alike i.execute
      (i.simplified values force).execute := by
  have hos : ∀ os : List Operand, (∀ o ∈ os, o ∈ i.operands) →
      List.Forall₂ (ReadsAlike pre) os (os.map fun o => o.simplified values force) := by
    intro os hos
    rw [List.forall₂_map_right_iff, List.forall₂_same]
    exact fun o hin => ho o (hos o hin)
  cases i with
  | copy r source => exact copy_tracked hb hpre (hi r rfl) (ho source (by simp [InstrOf.operands]))
  | receiveArg r index =>
    refine hpre.sim (keeps_get.bind fun s s' h => put_tracked hb (hi r rfl) ?_)
    have hi := congrArg (·[index]?) h.activation.args
    simp only [List.getElem?_map] at hi
    rw [List.getD_eq_getElem?_getD, List.getD_eq_getElem?_getD]
    rcases map_eq_cases hi with ⟨h1, h2⟩ | ⟨v, w, h1, h2, hvw⟩
    · rw [h1, h2]
    · rw [h1, h2]
      exact hvw
  | receiveBlock r =>
    refine hpre.sim (keeps_frame.bind fun f f' hf => put_tracked hb (hi r rfl) ?_)
    have hblock : f.block?.map BlockOf.content = f'.block?.map BlockOf.content :=
      show f.content.block? = f'.content.block? by rw [hf]
    rcases map_eq_cases hblock with ⟨h1, h2⟩ | ⟨c, d, h1, h2, hcd⟩
    · rw [h1, h2]
    · rw [h1, h2]
      simpa only [Option.elim, Value.Alike, Value.content_block, Value.block.injEq] using hcd
  | intMath r op lhs rhs =>
    refine (peeks_fixnum hpre (ho lhs (by simp [InstrOf.operands]))).bind fun m m' hm => ?_
    refine (peeks_fixnum hpre (ho rhs (by simp [InstrOf.operands]))).bind fun n n' hn => ?_
    exact hpre.sim (put_tracked hb (hi r rfl) (by rw [hm, hn]))
  | floatMath r op lhs rhs =>
    refine (peeks_float hpre (ho lhs (by simp [InstrOf.operands]))).bind fun m m' hm => ?_
    refine (peeks_float hpre (ho rhs (by simp [InstrOf.operands]))).bind fun n n' hn => ?_
    exact hpre.sim (put_tracked hb (hi r rfl) (by rw [hm, hn]))
  | label l => exact .pure .next hpre.tracked
  | jump l =>
    exact hpre.sim ((keeps_goTo hb l).bind fun _ _ _ => .pure .next fun _ _ h => h)
  | branchFalse condition l =>
    refine (peeks_value hpre (ho condition (by simp [InstrOf.operands]))).bind fun v w hv => ?_
    simp only [hv.isTruthy_eq]
    split
    · exact .pure .next hpre.tracked
    · exact hpre.sim ((keeps_goTo hb l).bind fun _ _ _ => .pure .next fun _ _ h => h)
  | call r receiver name args block type =>
    have hblock : Option.Rel (ReadsAlike pre) block
        (block.map fun o => o.simplified values force) := by
      cases block with
      | none => exact .none
      | some o => exact .some (ho o (by simp [InstrOf.operands]))
    rw [InstrOf.simplified_call]
    exact call_tracked hb hpre (hi r rfl) (ho receiver (by simp [InstrOf.operands]))
      (hos args fun o ho => by simp [InstrOf.operands, ho]) hblock name type
  | defineMethod name body =>
    refine hpre.sim (keeps_frame.bind fun f f' hf => ?_)
    obtain ⟨hm, hv⟩ := Frame.defining_eq hf
    rw [hm, hv]
    refine (keeps_change fun k k' hk => hk.newMethod body _ _).bind fun m m' hmm => ?_
    subst hmm
    exact (keeps_update fun k k' hk => hk.addMethod _ name m).bind fun _ _ _ =>
      .pure .next fun _ _ h => h
  | defineClass r body container superclass =>
    exact defineClass_tracked hb hpre (hi r rfl) (ho container (by simp [InstrOf.operands]))
      (hu superclass (by simp [InstrOf.operands])) (ho superclass (by simp [InstrOf.operands])) body
  | processModuleBody r method =>
    exact processModuleBody_tracked hpre (ho method (by simp [InstrOf.operands])) r
  | setVisibility v =>
    refine hpre.sim (keeps_get.bind fun s s' h => ?_)
    have hc := Context.setVisibility?_content s.context v
    rw [h.context, ← Context.setVisibility?_content] at hc
    rcases map_eq_cases hc with ⟨h1, h2⟩ | ⟨c, c', h1, h2, hcc⟩
    · rw [h1, h2]
      exact .throw rfl fun _ _ h => h.forgetAll
    · rw [h1, h2]
      exact fun _ _ h => .ok .next ⟨h.heap, hcc, h.activation⟩
  | putConst container name o =>
    exact putConst_tracked hpre (ho container (by simp [InstrOf.operands]))
      (ho o (by simp [InstrOf.operands])) name
  | searchConst r name =>
    refine hpre.sim (keeps_frame.bind fun f f' hf => ?_)
    refine keeps_get.bind fun s s' h => ?_
    rw [h.activation.body, h.activation.body', hb.scope, (Frame.defining_eq hf).1]
    exact Sim.bind (.ofExcept (h.heap.searchConstant_agree b'.scope f'.module name)
      (fun _ _ h => h) fun _ _ h => h.forgetAll) fun v w hv => put_tracked hb (hi r rfl) hv
  | buildClosure r body => exact hpre.sim (buildClosure_tracked hb (hi r rfl) body)
  | yield r block args =>
    rw [InstrOf.simplified_yield]
    refine (peeks_yielded hpre (ho block (by simp [InstrOf.operands]))).bind fun c d hcd => ?_
    refine (peeks_values hpre (hos args fun o ho => by
      simp [InstrOf.operands, ho])).bind fun vs ws hvs => ?_
    exact .pure (.call r (BlockOf.invocation_content hvs hcd)) fun s s' h =>
      (hpre.tracked s s' h).mono fun p hp => (Substitution.mem_forget.1 hp).1
  | ret o =>
    exact (peeks_value hpre (ho o (by simp [InstrOf.operands]))).bind fun v w hv =>
      .pure (.complete hv) hpre.tracked
  | nonlocalRet o => exact nonlocalRet_tracked hb hpre (ho o (by simp [InstrOf.operands]))
  | raise o =>
    exact (peeks_value hpre (ho o (by simp [InstrOf.operands]))).bind fun v w hv =>
      .throw (congrArg Failure.raised hv) (peeks_error hpre)

end Instructions

/-- Each instruction, with what is known put in, leads to the same and keeps what is known. -/
theorem execute_tracked (hk : ∀ p ∈ known, Substitution.isStable p.2 = true) (i : Instr)
    (hi : Shared shared (i.simplified known true).usedVariables) :
    Sim (Site.Tracked shared b b' known)
      (Site.Tracked shared b b' (known.after (i.simplified known true)))
      (Site.Tracked shared b b' []) Outcome.Alike i.execute (i.simplified known true).execute := by
  rw [InstrOf.usedVariables, Shared.append, Shared.flatMap, InstrOf.operands_simplified,
    InstrOf.result?_simplified] at hi
  obtain ⟨hr, ho⟩ := hi
  refine execute_simplified hb vantage_tracked i (fun r hir => ?_) (fun o hoi => ?_)
    fun o _ => OperandOf.eq_undefined_iff_simplified fun v _ hu => ?_
  · rw [hir] at hr
    exact hr
  · exact fun s s' h => evaluate_tracked h hb o (ho _ (List.mem_map_of_mem hoi))
  · have hstable := hk _ (Substitution.mem_of_lookup? hu)
    simp [Substitution.isStable, OperandOf.isConstant, OperandOf.asVariable?] at hstable

end Steps

end

end ObjectIr
