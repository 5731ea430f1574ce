import ObjectIr.Heap.Lemmas
import ObjectIr.Machine.Execution
import ObjectIr.Proofs.Dispatching
import ObjectIr.Proofs.Temps

/-!
# What an instruction leaves alone

Definitions and calls register modules, and change neither scopes, nor blocks, nor methods
(`Heap.Registers.define`, `Heap.Registers.dispatch`). An instruction as a whole can change the heap,
the temporaries, where its activation goes on, and the visibility of the frame on top
(`Site.Evolves`): the scope stack, the other frames and all counts stay, the body goes on at the
next instruction or at one of its labels, and no scope loses a slot. Executions are taken apart by
equations, one for each of their parts (`Exec.store_apply`, `execute_buildClosure`).
-/

namespace ObjectIr

/-! ### The heap -/

/-- A later heap in which objects, modules and methods were made and modules were named. -/
structure Heap.Registers (h k : Heap) : Prop where
  slots : k.slots = h.slots
  scopes : k.next.scopes = h.next.scopes
  blocks : k.next.blocks = h.next.blocks
  arrays : k.next.arrays = h.next.arrays
  numbered : h.next.methods ≤ k.next.methods
  methods : ∀ m name, k.method? m name = h.method? m name
  constants : ∀ m name v, k.constant? m name = some v →
    h.constant? m name = some v ∨ ∃ n, v = .module n

namespace Heap.Registers

variable {h k l : Heap}

theorem refl (h : Heap) : h.Registers h :=
  ⟨rfl, rfl, rfl, rfl, Nat.le_refl _, fun _ _ => rfl, fun _ _ _ => .inl⟩

theorem trans (hk : h.Registers k) (kl : k.Registers l) : h.Registers l :=
  ⟨kl.slots.trans hk.slots, kl.scopes.trans hk.scopes, kl.blocks.trans hk.blocks,
    kl.arrays.trans hk.arrays, Nat.le_trans hk.numbered kl.numbered,
    fun m name => (kl.methods m name).trans (hk.methods m name),
    fun m name v hv => (kl.constants m name v hv).elim (hk.constants m name v) .inr⟩

theorem newModule (h : Heap) (make : Nat → Module) : h.Registers (h.newModule make).2 :=
  { refl h with }

theorem newObject (h : Heap) (m : Module) : h.Registers (h.newObject m).2 := { refl h with }

theorem newMethod (h : Heap) (b : Body) (v : Visibility) (m : Module) :
    h.Registers (h.newMethod b v m).2 := { refl h with numbered := Nat.le_succ _ }

theorem bindScope (h : Heap) (s : StaticScope) (m : Module) : h.Registers (h.bindScope s m) :=
  { refl h with }

theorem bindBody (h : Heap) (m : Module) (b : Body) : h.Registers (h.bindBody m b) :=
  { refl h with
    methods := fun n name => method?_bindBody h m n name b
    constants := fun n name v hv => .inl (by rw [← hv, constant?_bindBody]) }

theorem setConstant (h : Heap) (m : Module) (name : String) (n : Module) :
    h.Registers (h.setConstant m name (.module n)) :=
  { refl h with
    methods := fun o b => method?_setConstant h m o name b (.module n)
    constants := fun o b v hv => by
      rw [constant?_setConstant] at hv
      split at hv
      · exact .inr ⟨n, (Option.some.inj hv).symm⟩
      · exact .inl hv }

theorem setSingleton (h : Heap) (owner : Value) (s : Module) :
    h.Registers (h.setSingleton owner s) := by
  cases owner with
  | module m =>
    have ht : ∀ n, ((h.setSingleton (.module m) s).table n).methods = (h.table n).methods ∧
        ((h.setSingleton (.module m) s).table n).constants = (h.table n).constants := by
      intro n
      rw [Heap.setSingleton, table_setTable]
      split
      · next hm => rw [table_congr h m n hm]; exact ⟨rfl, rfl⟩
      · exact ⟨rfl, rfl⟩
    exact { refl h with
      methods := fun n name => by rw [method?, method?, (ht n).1]
      constants := fun n name v hv => .inl (by rwa [constant?, (ht n).2] at hv) }
  | _ => exact { refl h with }

theorem singletonClass {owner : Value} {m : Module}
    (hk : h.singletonClass owner = .ok (m, k)) : h.Registers k := by
  unfold Heap.singletonClass at hk
  split at hk
  · cases hk
    exact refl h
  · have hnew : ∀ make : Nat → Module,
        h.Registers ((h.newModule make).2.setSingleton owner (h.newModule make).1) :=
      fun make => (newModule h make).trans (setSingleton _ _ _)
    cases owner with
    | object _ | module _ =>
      cases hk
      exact hnew fun id => .root id _ .singleton
    | _ => cases hk

theorem openClass {container m : Module} {name : String} {superclass? : Option Module}
    (hk : h.openClass container name superclass? = .ok (m, k)) : h.Registers k := by
  simp only [Heap.openClass] at hk
  repeat' split at hk
  all_goals cases hk
  · exact refl h
  · exact refl h
  · exact (newModule h fun id => .subclass id _ true _).trans (setConstant _ _ _ _)

theorem openModule {container m : Module} {name : String}
    (hk : h.openModule container name = .ok (m, k)) : h.Registers k := by
  simp only [Heap.openModule] at hk
  repeat' split at hk
  all_goals cases hk
  · exact refl h
  · exact (newModule h fun id => .root id _ .module).trans (setConstant _ _ _ _)

theorem openBody {body : Body} {container m : Module} {superclass? : Option Value}
    (hk : h.openBody body container superclass? = .ok (m, k)) : h.Registers k := by
  unfold Heap.openBody at hk
  split at hk
  · exact singletonClass hk
  · exact openModule hk
  · split at hk
    · exact openClass hk
    · split at hk
      · cases hk
      · exact openClass hk
  · cases hk

theorem define {body : Body} {container : Value} {superclass? : Option Value} {m : Method}
    (hk : h.define body container superclass? = .ok (m, k)) : h.Registers k := by
  rw [Heap.define] at hk
  split at hk
  · cases hk
  · split at hk
    · cases hk
    · next n _ hn =>
      cases hk
      exact (((openBody hn).trans (bindScope _ body.scope n)).trans (bindBody _ n body)).trans
        (newMethod _ body .public n)

theorem dispatch {c : Context} {receiver : Value} {name : String} {args : List Value}
    {block? : Option Block} {type : CallType} {q : Reply}
    (hk : h.dispatch c receiver name args block? type = .ok (q, k)) : h.Registers k := by
  cases Heap.dispatch_dispatched hk with
  | method | classOf | block => exact refl h
  | singleton hs => exact singletonClass hs
  | object | constructed => exact newObject h _

end Heap.Registers

theorem Heap.slotsOf_newScope_self (h : Heap) (layout : StaticScope)
    (parent? : Option DynamicScope) :
    (h.newScope layout parent?).2.slotsOf (h.newScope layout parent?).1.cell =
      List.replicate layout.locals.length .nil :=
  (slotsOf_newScope ..).trans (if_pos rfl)

/-- A later heap: numbers that were given out stay so, and scopes keep their slots. -/
structure Heap.Grows (h k : Heap) : Prop where
  scopes : h.next.scopes ≤ k.next.scopes
  blocks : h.next.blocks ≤ k.next.blocks
  slots : ∀ c : ScopeCell, c.id < h.next.scopes →
    (k.slotsOf c).length = (h.slotsOf c).length

namespace Heap.Grows

variable {h k l : Heap}

theorem refl (h : Heap) : h.Grows h := ⟨Nat.le_refl _, Nat.le_refl _, fun _ _ => rfl⟩

theorem trans (hk : h.Grows k) (kl : k.Grows l) : h.Grows l :=
  ⟨Nat.le_trans hk.scopes kl.scopes, Nat.le_trans hk.blocks kl.blocks, fun c hc => by
    rw [kl.slots c (Nat.lt_of_lt_of_le hc hk.scopes), hk.slots c hc]⟩

theorem of_registers (hk : h.Registers k) : h.Grows k :=
  ⟨Nat.le_of_eq hk.scopes.symm, Nat.le_of_eq hk.blocks.symm, fun c _ => by
    rw [slotsOf, slotsOf, hk.slots]⟩

theorem addMethod (h : Heap) (m : Module) (name : String) (x : Method) :
    h.Grows (h.addMethod m name x) := ⟨Nat.le_refl _, Nat.le_refl _, fun _ _ => rfl⟩

theorem setConstant (h : Heap) (m : Module) (name : String) (v : Value) :
    h.Grows (h.setConstant m name v) := ⟨Nat.le_refl _, Nat.le_refl _, fun _ _ => rfl⟩

theorem newBlock (h : Heap) (b : Body) (receiver : Value) (scope? : Option DynamicScope)
    (m : Module) (v : Visibility) : h.Grows (h.newBlock b receiver scope? m v).2 :=
  ⟨Nat.le_refl _, Nat.le_succ _, fun _ _ => rfl⟩

theorem newScope (h : Heap) (layout : StaticScope) (parent? : Option DynamicScope) :
    h.Grows (h.newScope layout parent?).2 := by
  refine ⟨Nat.le_succ _, Nat.le_refl _, fun c hc => ?_⟩
  rw [slotsOf_newScope, if_neg]
  simp only [Heap.newScope, DynamicScope.nest, DynamicScope.id]
  omega

theorem writeLocal {s : DynamicScope} {depth offset : Nat} {v : Value}
    (hk : h.writeLocal s depth offset v = .ok k) : h.Grows k := by
  obtain ⟨c, -, -, rfl⟩ := (writeLocal_eq_ok_iff h s depth offset v k).1 hk
  refine ⟨Nat.le_refl _, Nat.le_refl _, fun d _ => ?_⟩
  simp only [slotsOf, Std.ExtTreeMap.getElem?_insert, Nat.compare_eq_eq]
  split
  · next hcd => simp [hcd]
  · rfl

end Heap.Grows

/-! ### Sites -/

/-- A bridge that was made on the way to a later site. -/
structure Site.Bridges (s t : Site) (bridge : DynamicScope) : Prop where
  absent : s.activation.bridge? = none
  nested : ∃ parent, s.activation.footing = .guest parent ∧
    bridge = .nest ⟨bridge.id, s.activation.body.scope⟩ (some parent)
  fresh : s.heap.next.scopes ≤ bridge.id
  made : bridge.id < t.heap.next.scopes
  slots : (t.heap.slotsOf bridge.cell).length = s.activation.body.scope.locals.length

/-- A site that the same activation can be at later, within one instruction. -/
structure Site.Evolves (s t : Site) : Prop where
  heap : s.heap.Grows t.heap
  scopes : t.context.scopes = s.context.scopes
  stats : t.context.stats = s.context.stats
  depth : t.context.frames.length = s.context.frames.length
  frames : t.context.frames.tail = s.context.frames.tail
  body : t.activation.body = s.activation.body
  pc : t.activation.pc = s.activation.pc ∨
    ∃ l, s.activation.body.labelIndex? l = some t.activation.pc
  args : t.activation.args = s.activation.args
  receiver : t.activation.receiver = s.activation.receiver
  footing : t.activation.footing = s.activation.footing
  answer? : t.activation.answer? = s.activation.answer?
  bridge? : t.activation.bridge? = s.activation.bridge? ∨
    ∃ bridge, t.activation.bridge? = some bridge ∧ s.Bridges t bridge

namespace Site.Evolves

variable {s t u : Site}

theorem of_eq {h : Heap} {ts : Temps} (hh : s.heap.Grows h) :
    s.Evolves { s with heap := h, activation := { s.activation with temps := ts } } :=
  ⟨hh, rfl, rfl, rfl, rfl, rfl, .inl rfl, rfl, rfl, rfl, rfl, .inl rfl⟩

theorem refl (s : Site) : s.Evolves s := of_eq (.refl _)

theorem trans (h : s.Evolves t) (k : t.Evolves u) : s.Evolves u where
  heap := h.heap.trans k.heap
  scopes := k.scopes.trans h.scopes
  stats := k.stats.trans h.stats
  depth := k.depth.trans h.depth
  frames := k.frames.trans h.frames
  body := k.body.trans h.body
  pc := by
    rcases k.pc with hp | hl
    · rw [hp]; exact h.pc
    · rw [h.body] at hl; exact .inr hl
  args := k.args.trans h.args
  receiver := k.receiver.trans h.receiver
  footing := k.footing.trans h.footing
  answer? := k.answer?.trans h.answer?
  bridge? := by
    rcases k.bridge? with hk | ⟨bridge, hb, hk⟩
    · rw [hk]
      refine h.bridge?.imp_right fun ⟨bridge, hb, hm⟩ => ⟨bridge, hb, hm.absent, hm.nested,
        hm.fresh, Nat.lt_of_lt_of_le hm.made k.heap.scopes, ?_⟩
      rw [k.heap.slots bridge.cell hm.made, hm.slots]
    · refine .inr ⟨bridge, hb, ?_, ?_, Nat.le_trans h.heap.scopes hk.fresh, hk.made, ?_⟩
      · rcases h.bridge? with hs | ⟨bridge', hb', -⟩
        · rw [← hs, hk.absent]
        · rw [hk.absent] at hb'; cases hb'
      · rw [← h.footing, ← h.body]; exact hk.nested
      · rw [← h.body]; exact hk.slots

end Site.Evolves

theorem Site.load_cases {s : Site} {r : Variable} {v : Value} (h : s.load r = .ok v) :
    (∃ x, s.activation.temps.get? x = some v) ∨
      ∃ scope depth offset, s.heap.readLocal scope depth offset = .ok v := by
  cases r with
  | temp x =>
    rw [load] at h
    cases hx : s.activation.temps.get? x with
    | none => rw [hx] at h; cases h
    | some u => rw [hx] at h; cases h; exact .inl ⟨x, hx⟩
  | lexical name depth offset =>
    rw [load] at h
    cases hl : s.activation.footing.locate? depth with
    | none => rw [hl] at h; cases h
    | some p => rw [hl] at h; exact .inr ⟨p.1, p.2, offset, h⟩

/-- Storing sets the slot of a temporary, or that of a local. -/
theorem Site.store_cases {s t : Site} {r : Variable} {v : Value} (h : s.store r v = .ok t) :
    (∃ x ts, r = .temp x ∧
      (∀ u, ts.get? u = if u = x then some v else s.activation.temps.get? u) ∧
      t = { s with activation := { s.activation with temps := ts } }) ∨
    ∃ scope depth offset k, s.heap.writeLocal scope depth offset v = .ok k ∧
      t = { s with heap := k } := by
  cases r with
  | temp x =>
    rw [store] at h
    rcases s.activation.temps.set_cases x v with ⟨-, hset⟩ | ⟨-, ⟨-, hset⟩ | ⟨-, ts, hset, hts⟩⟩ <;>
      rw [hset] at h <;> cases h
    exact .inl ⟨x, ts, rfl, hts, rfl⟩
  | lexical name depth offset =>
    rw [store] at h
    cases hl : s.activation.footing.locate? depth with
    | none => rw [hl] at h; cases h
    | some p =>
      simp only [hl] at h
      cases hw : s.heap.writeLocal p.1 p.2 offset v with
      | error f => rw [hw] at h; cases h
      | ok k => rw [hw] at h; cases h; exact .inr ⟨p.1, p.2, offset, k, hw, rfl⟩

theorem Site.store_changes {s t : Site} {r : Variable} {v : Value} (h : s.store r v = .ok t) :
    ∃ k ts, s.heap.Grows k ∧
      t = { s with heap := k, activation := { s.activation with temps := ts } } := by
  rcases store_cases h with ⟨x, ts, -, -, rfl⟩ | ⟨scope, depth, offset, k, hk, rfl⟩
  · exact ⟨s.heap, ts, .refl _, rfl⟩
  · exact ⟨k, s.activation.temps, .writeLocal hk, rfl⟩

theorem Site.frame_mem {s : Site} {f : Frame} (h : s.frame = .ok f) : f ∈ s.context.frames := by
  rw [frame, Context.currentFrame?] at h
  cases hc : s.context.frames with
  | nil => rw [hc] at h; cases h
  | cons g gs => rw [hc] at h; cases h; exact List.mem_cons_self

/-- The visibility of the frame on top is set. -/
theorem Context.setVisibility?_eq_some {c d : Context} {v : Visibility}
    (h : c.setVisibility? v = some d) :
    ∃ f fs, c.frames = f :: fs ∧ d = { c with frames := { f with visibility := v } :: fs } := by
  rw [setVisibility?] at h
  cases hf : c.frames with
  | nil => rw [hf] at h; cases h
  | cons f fs => rw [hf] at h; cases h; exact ⟨f, fs, rfl, rfl⟩

/-- A scope is captured as it stands, unless a guest has to make its bridge first. -/
theorem Site.captureScope_cases (s : Site) :
    s.captureScope.2 = s ∨
      ∃ parent, s.activation.footing = .guest parent ∧ s.activation.bridge? = none ∧
        s.captureScope.2 = { s with
          heap := (s.heap.newScope s.activation.body.scope (some parent)).2
          activation := { s.activation with
            bridge? := some (s.heap.newScope s.activation.body.scope (some parent)).1 } } := by
  rw [captureScope]
  cases hf : s.activation.footing with
  | own _ | nowhere => exact .inl rfl
  | guest parent =>
    cases hb : s.activation.bridge? with
    | some bridge => exact .inl rfl
    | none => exact .inr ⟨parent, rfl, rfl, rfl⟩

theorem Site.captureScope_evolves (s : Site) : s.Evolves s.captureScope.2 := by
  rcases s.captureScope_cases with h | ⟨parent, hf, hb, h⟩ <;> rw [h]
  · exact .refl s
  · exact { Site.Evolves.refl s with
      heap := .newScope s.heap s.activation.body.scope (some parent)
      bridge? := .inr ⟨_, rfl, hb, ⟨parent, hf, rfl⟩, Nat.le_refl _, Nat.lt_succ_self _, by
        rw [Heap.slotsOf_newScope_self, List.length_replicate]⟩ }

/-! ### Executions -/

namespace Exec

variable {α β : Type} {s t : Site}

theorem bind_of_ok {x : Exec α} {f : α → Exec β} {a : α} (h : x s = .ok a t) :
    (x >>= f) s = f a t := by
  simp only [bind, EStateM.bind, h]

theorem bind_of_error {x : Exec α} {f : α → Exec β} {e : Failure} (h : x s = .error e t) :
    (x >>= f) s = .error e t := by
  simp only [bind, EStateM.bind, h]

theorem get_bind (f : Site → Exec β) (s : Site) : (MonadState.get >>= f) s = f s s := rfl

theorem frame_apply (s : Site) :
    frame s =
      match s.frame with
      | .ok f => .ok f s
      | .error e => .error e s := by
  rw [frame, get_bind]
  cases s.frame <;> rfl

theorem store_apply (r : Variable) (v : Value) (s : Site) :
    store r v s =
      match s.store r v with
      | .ok t => .ok () t
      | .error f => .error f s := by
  rw [store, get_bind]
  cases s.store r v <;> rfl

theorem attempt_apply (f : Heap → Except Failure (α × Heap)) (s : Site) :
    attempt f s =
      match f s.heap with
      | .ok p => .ok p.1 { s with heap := p.2 }
      | .error e => .error e s := by
  rw [attempt, get_bind]
  cases f s.heap <;> rfl

theorem goTo_apply (l : Label) (s : Site) :
    goTo l s =
      match s.activation.body.labelIndex? l with
      | some index => .ok () { s with activation := { s.activation with pc := index } }
      | none => .error (.internal (.undefinedJump l)) s := by
  rw [goTo, get_bind]
  cases s.activation.body.labelIndex? l <;> rfl

/-! #### What a value that was read is taken for -/

def toFixnum : Value → Except Failure Int64
  | .fixnum n => .ok n
  | v => .error (.type (.notCoercible v.class.name .integer))

def toFloat : Value → Except Failure Double
  | .float x => .ok x
  | .fixnum n => .ok (.ofInt64 n)
  | v => .error (.type (.notCoercible v.class.name .float))

def toBlock? : Value → Except Failure (Option Block)
  | .block b => .ok (some b)
  | .nil => .ok none
  | v => .error (.type (.notBlock v.class.name))

def required : Option Block → Except Failure Block
  | some b => .ok b
  | none => .error (.jump .noBlock)

theorem fixnum_eq (o : Operand) : fixnum o = value o >>= fun v => ofExcept (toFixnum v) :=
  congrArg (value o >>= ·) (funext fun v => by cases v <;> rfl)

theorem float_eq (o : Operand) : float o = value o >>= fun v => ofExcept (toFloat v) :=
  congrArg (value o >>= ·) (funext fun v => by cases v <;> rfl)

theorem block?_eq (o : Operand) : block? o = value o >>= fun v => ofExcept (toBlock? v) :=
  congrArg (value o >>= ·) (funext fun v => by cases v <;> rfl)

theorem yielded_eq (o : Operand) : yielded o = block? o >>= fun b? => ofExcept (required b?) :=
  congrArg (block? o >>= ·) (funext fun b? => by cases b? <;> rfl)

theorem superclass?_eq {o : Operand} (ho : o ≠ .undefined) :
    superclass? o = value o >>= fun v => pure (some v) := by
  cases o <;> first | exact absurd rfl ho | exact (bind_pure_comp _ _).symm

/-! #### Successes -/

theorem bind_eq_ok {x : Exec α} {f : α → Exec β} {b : β} (h : (x >>= f) s = .ok b t) :
    ∃ a u, x s = .ok a u ∧ f a u = .ok b t := by
  simp only [bind, EStateM.bind] at h
  cases hx : x s with
  | ok a u => rw [hx] at h; exact ⟨a, u, rfl, h⟩
  | error e u => rw [hx] at h; cases h

theorem reading_eq_ok {read : Site → Reading α} {a : α} (h : reading read s = .ok a t) :
    ∃ n, read s s.heap.next.arrays = .ok a n ∧ t = { s with heap.next.arrays := n } := by
  unfold reading EStateM.run at h
  split at h
  · next n hn =>
    cases h
    exact ⟨n, hn, rfl⟩
  · cases h

theorem attempt_eq_ok {f : Heap → Except Failure (α × Heap)} {a : α} (h : attempt f s = .ok a t) :
    ∃ k, f s.heap = .ok (a, k) := by
  rw [attempt_apply] at h
  cases hf : f s.heap with
  | error e => rw [hf] at h; cases h
  | ok p => rw [hf] at h; cases h; exact ⟨p.2, rfl⟩

end Exec

theorem execute_setVisibility (v : Visibility) (s : Site) :
    InstrOf.execute (.setVisibility v) s =
      match s.context.setVisibility? v with
      | some context => .ok .next { s with context }
      | none => .error (.internal .noFrame) s := by
  rw [InstrOf.execute, Exec.get_bind]
  cases s.context.setVisibility? v <;> rfl

/-- A method is made with the visibility of the frame, and put in the module it implements. -/
theorem execute_defineMethod (name : String) (body : Body) (s : Site) :
    InstrOf.execute (.defineMethod name body) s =
      match s.frame with
      | .error f => .error f s
      | .ok f =>
        .ok .next { s with
          heap := (s.heap.newMethod body f.visibility f.module).2.addMethod f.module name
            (s.heap.newMethod body f.visibility f.module).1 } := by
  rw [InstrOf.execute]
  cases hf : s.frame with
  | error f => exact Exec.bind_of_error (by rw [Exec.frame_apply, hf])
  | ok f => exact Exec.bind_of_ok (by rw [Exec.frame_apply, hf])

/-- Making a block: the scope is captured, the block is made, and then it is stored. -/
theorem execute_buildClosure (r : Variable) (body : Body) (s : Site) :
    InstrOf.execute (.buildClosure r body) s =
      match s.frame with
      | .error f => .error f s
      | .ok f =>
        let made := s.captureScope.2.heap.newBlock body s.captureScope.2.activation.receiver
          s.captureScope.1 f.module f.visibility
        let t : Site := { s.captureScope.2 with heap := made.2 }
        match t.store r (.block made.1) with
        | .error f => .error f t
        | .ok u => .ok .next u := by
  have hstored : ∀ (v : Value) (t : Site), (Exec.store r v >>= fun _ => pure Outcome.next) t =
      match t.store r v with
      | .error f => .error f t
      | .ok u => .ok .next u := by
    intro v t
    cases ht : t.store r v with
    | error f => exact Exec.bind_of_error (by rw [Exec.store_apply, ht])
    | ok u => exact Exec.bind_of_ok (by rw [Exec.store_apply, ht])
  rw [InstrOf.execute]
  cases hf : s.frame with
  | error f => exact Exec.bind_of_error (by rw [Exec.frame_apply, hf])
  | ok f =>
    refine (Exec.bind_of_ok (by rw [Exec.frame_apply, hf])).trans ?_
    rw [Exec.get_bind]
    exact hstored _ _

end ObjectIr
