import ObjectIr.Proofs.Raising

/-!
# What instructions keep

An `Invariant` says what is asked of sites, of all that is read there, and of the way in which an
instruction ends. The instructions are gone through once, for any invariant
(`Invariant.Lawful.execute`): it has to survive reading (`Invariant.Reads`) and the one change that
each instruction comes down to (`Invariant.Lawful`). The block that an instruction makes is asked
for where it is made (`Site.newBlock`), since which blocks are admitted may depend on the site.
-/

namespace ObjectIr

/-! ### Triples -/

namespace Exec

variable {α β : Type}

/-- An answer that is as `Q` says, or a failure that is as `E` says. -/
def Ends (Q : α → Site → Prop) (E : Failure → Site → Prop) :
    EStateM.Result Failure Site α → Prop
  | .ok a t => Q a t
  | .error f t => E f t

/-- From a site where `P` holds, an execution answers as `Q` says, or fails as `E` says. -/
def Triple (P : Site → Prop) (x : Exec α) (Q : α → Site → Prop) (E : Failure → Site → Prop) :
    Prop := ∀ s, P s → Ends Q E (x s)

namespace Triple

variable {P : Site → Prop} {p : α → Prop} {Q : β → Site → Prop} {E : Failure → Site → Prop}

/-- The second part may rely on what the first answers, and on what holds of the site as before. -/
theorem bind {x : Exec α} {f : α → Exec β} (hx : Triple P x (fun a t => p a ∧ P t) E)
    (hf : ∀ a, p a → Triple P (f a) Q E) : Triple P (x >>= f) Q E := by
  intro s hs
  have h := hx s hs
  cases hxs : x s with
  | ok a t =>
    rw [hxs] at h
    rw [bind_of_ok hxs]
    exact hf a h.1 t h.2
  | error f t =>
    rw [hxs] at h
    rw [bind_of_error hxs]
    exact h

theorem pure {b : β} (hb : ∀ s, P s → Q b s) : Triple P (pure b) Q E := hb

theorem get : Triple P (MonadState.get : Exec Site) (fun s t => P s ∧ P t) E :=
  fun _ hs => ⟨hs, hs⟩

theorem throw {f : Failure} (hf : ∀ s, P s → E f s) : Triple P (throw f) Q E := hf

end Triple

end Exec

/-! ### Values at hand -/

/-- Values that lead to no other value, and to nothing on the heap. -/
def Value.isAtomic : Value → Bool
  | .nil | .bool _ | .fixnum _ | .float _ | .string _ | .symbol _ => true
  | .array .. | .object _ | .module _ | .method _ | .block _ => false

theorem MathOp.onFixnums_isAtomic (op : MathOp) (a b : Int64) :
    (op.onFixnums a b).isAtomic = true := by
  cases op <;> rfl

theorem MathOp.onFloats_isAtomic (op : MathOp) (a b : Double) :
    (op.onFloats a b).isAtomic = true := by
  cases op <;> rfl

/-- The block that is made at a site, in the scope that it captures there. -/
def Site.newBlock (s : Site) (body : Body) (f : Frame) : Block × Site :=
  let t := s.captureScope.2
  let made := t.heap.newBlock body t.activation.receiver s.captureScope.1 f.module f.visibility
  (made.1, { t with heap := made.2 })

theorem Site.newBlock_id (s : Site) (body : Body) (f : Frame) :
    (s.newBlock body f).1.id = s.heap.next.blocks := by
  show s.captureScope.2.heap.next.blocks = _
  rw [captureScope]
  split <;> rfl

/-- What is asked of sites, of what is read there, and of how an instruction ends. -/
structure Invariant where
  site : Site → Prop
  value : Value → Prop
  frame : Frame → Prop
  outcome : Outcome → Site → Prop
  failure : Failure → Site → Prop

namespace Invariant

open Exec

section Definitions

variable (w : Invariant)

abbrev Keeps {α : Type} (p : α → Prop) (x : Exec α) : Prop :=
  Triple w.site x (fun a t => p a ∧ w.site t) w.failure

abbrev Leads (x : Exec Outcome) : Prop := Triple w.site x w.outcome w.failure

abbrev Ends (r : EStateM.Result Failure Site Outcome) : Prop := Exec.Ends w.outcome w.failure r

/-- What is asked of reading. It fails for reasons of its own. -/
structure Reads : Prop where
  supply : ∀ {s} (n : Nat), w.site s → w.site { s with heap.next.arrays := n }
  quiet : ∀ {s f}, w.site s → f.raised? = none → w.failure f s
  atomic : ∀ {v}, v.isAtomic = true → w.value v
  array : ∀ (n : Nat) {vs}, (∀ v ∈ vs, w.value v) → w.value (.array n vs)
  load : ∀ {s r v}, w.site s → s.load r = .ok v → w.value v
  receiver : ∀ {s}, w.site s → w.value s.activation.receiver
  argument : ∀ {s}, w.site s → ∀ v ∈ s.activation.args, w.value v
  scopeModule : ∀ {s m}, w.site s → s.scopeModule = .ok m → w.value (.module m)
  frame : ∀ {s f}, w.site s → s.frame = .ok f → w.frame f
  block : ∀ {f b}, w.frame f → f.block? = some b → w.value (.block b)
  constant : ∀ {s v} (scope : StaticScope) (m : Module) (name : String), w.site s →
    s.heap.searchConstant scope m name = .ok v → w.value v

/-- What is asked of the changes that an instruction may come down to, and of how it may end. -/
structure Lawful (i : Instr) : Prop extends Reads w where
  next : ∀ {s}, w.site s → w.outcome .next s
  complete : ∀ {s v}, w.site s → w.value v → w.outcome (.complete v) s
  returns : ∀ {s v} (target : Nat), w.site s → w.value v → w.outcome (.return target v) s
  raise : ∀ {s v} (o : Operand), i = .raise o → w.site s → w.value v → w.failure (.raised v) s
  store : ∀ {s t r v}, i.result? = some r → w.site s → w.value v → s.store r v = .ok t →
    w.outcome .next t
  goTo : ∀ {s l n}, i.target? = some l → w.site s → s.activation.body.labelIndex? l = some n →
    w.outcome .next { s with activation.pc := n }
  dispatch : ∀ {s k q r receiver name args block type v vs b?},
    i = .call r receiver name args block type → w.site s → w.value v → (∀ v ∈ vs, w.value v) →
      (∀ b, b? = some b → w.value (.block b)) →
        s.heap.dispatch s.context v name vs b? type = .ok (q, k) →
          w.Ends (await r q { s with heap := k })
  define : ∀ {s k m r body container superclass v x?},
    i = .defineClass r body container superclass → w.site s → w.value v →
      (∀ x, x? = some x → w.value x) → s.heap.define body v x? = .ok (m, k) →
        w.Ends ((do Exec.store r (.method m); return Outcome.next) { s with heap := k })
  defineMethod : ∀ {s body f name}, i = .defineMethod name body → w.site s → s.frame = .ok f →
    w.outcome .next { s with heap := ((s.heap.newMethod body f.visibility f.module).2.addMethod
      f.module name (s.heap.newMethod body f.visibility f.module).1) }
  setVisibility : ∀ {s v c}, i = .setVisibility v → w.site s →
    s.context.setVisibility? v = some c → w.outcome .next { s with context := c }
  putConst : ∀ {s container name o m v}, i = .putConst container name o → w.site s →
    w.value (.module m) → w.value v →
      w.outcome .next { s with heap := s.heap.setConstant m name v }
  yield : ∀ {s r o os b vs}, i = .yield r o os → w.site s → w.value (.block b) →
    (∀ v ∈ vs, w.value v) → w.outcome (.call r (b.invocation vs)) s
  processModuleBody : ∀ {s m r o c j}, i = .processModuleBody r o → w.site s →
    w.value (.method m) → m.invocation c (.module m.module) m.body.name [] none = .ok j →
      w.outcome (.call r j) s

end Definitions

variable {w : Invariant}

/-! ### Reading -/

/-- Nothing is asked of what is read. -/
def ofSites (site : Site → Prop) (outcome : Outcome → Site → Prop)
    (failure : Failure → Site → Prop) : Invariant :=
  ⟨site, fun _ => True, fun _ => True, outcome, failure⟩

theorem reads_ofSites {site : Site → Prop} {outcome : Outcome → Site → Prop}
    {failure : Failure → Site → Prop}
    (hsupply : ∀ s n, site s → site { s with heap.next.arrays := n })
    (hquiet : ∀ s f, site s → f.raised? = none → failure f s) :
    (ofSites site outcome failure).Reads where
  supply n hs := hsupply _ n hs
  quiet hs hf := hquiet _ _ hs hf
  atomic _ := trivial
  array _ _ _ := trivial
  load _ _ := trivial
  receiver _ := trivial
  argument _ _ _ := trivial
  scopeModule _ _ := trivial
  frame _ _ := trivial
  block _ _ := trivial
  constant _ _ _ _ _ := trivial

section

variable {s : Site}

mutual

theorem Reads.evaluate (hw : w.Reads) (hs : w.site s) : ∀ (o : Operand) (n : Nat) {v : Value}
    {n' : Nat}, s.evaluate o n = .ok v n' → w.value v
  | .var x, n, v, n', h => by
    rw [Site.evaluate] at h
    cases hx : s.load x with
    | error f => rw [hx] at h; cases h
    | ok u => rw [hx] at h; cases h; exact hw.load hs hx
  | .array os, n, v, n', h => by
    rw [Site.evaluate] at h
    simp only [bind, EStateM.bind] at h
    cases hos : s.evaluateAll os n with
    | error f m => rw [hos] at h; cases h
    | ok vs m =>
      rw [hos] at h
      cases h
      exact hw.array _ (hw.evaluateAll hs os n hos)
  | .scopeModule, n, v, n', h => by
    rw [Site.evaluate] at h
    cases hm : s.scopeModule with
    | error f => rw [hm] at h; cases h
    | ok m => rw [hm] at h; cases h; exact hw.scopeModule hs hm
  | .selfObject, n, v, n', h => by cases h; exact hw.receiver hs
  | .nil, n, v, n', h | .bool _, n, v, n', h | .fixnum _, n, v, n', h | .float _, n, v, n', h
  | .string _, n, v, n', h | .symbol _, n, v, n', h => by cases h; exact hw.atomic rfl
  | .undefined, n, v, n', h | .body _, n, v, n', h => by cases h

theorem Reads.evaluateAll (hw : w.Reads) (hs : w.site s) : ∀ (os : List Operand) (n : Nat)
    {vs : List Value} {n' : Nat}, s.evaluateAll os n = .ok vs n' → ∀ v ∈ vs, w.value v
  | [], n, vs, n', h => by
    cases h
    rintro v ⟨⟩
  | o :: os, n, vs, n', h => by
    rw [Site.evaluateAll] at h
    simp only [bind, EStateM.bind] at h
    cases ho : s.evaluate o n with
    | error f m => rw [ho] at h; cases h
    | ok v m =>
      rw [ho] at h
      simp only at h
      cases hos : s.evaluateAll os m with
      | error f m' => rw [hos] at h; cases h
      | ok us m' =>
        rw [hos] at h
        cases h
        exact List.forall_mem_cons.2 ⟨hw.evaluate hs o n ho, hw.evaluateAll hs os m hos⟩

end

end

namespace Reads

variable {α : Type} {p : α → Prop} (hw : w.Reads)

include hw

theorem keeps_reading {read : Site → Reading α}
    (hok : ∀ s n a n', w.site s → read s n = .ok a n' → p a)
    (herror : ∀ s n f n', read s n = .error f n' → f.raised? = none) :
    w.Keeps p (reading read) := by
  intro s hs
  unfold reading
  simp only [EStateM.run]
  cases hr : read s s.heap.next.arrays with
  | ok a n => exact ⟨hok s _ a n hs hr, hw.supply n hs⟩
  | error f n => exact hw.quiet (hw.supply n hs) (herror s _ f n hr)

theorem keeps_value (o : Operand) : w.Keeps w.value (Exec.value o) :=
  hw.keeps_reading (fun _ n _ _ hs h => hw.evaluate hs o n h) fun s n _ _ h =>
    s.evaluate_quiet o n h

theorem value_of_ok {s t : Site} (hs : w.site s) {o : Operand} {v : Value}
    (h : Exec.value o s = .ok v t) : w.value v := by
  have hvalue := hw.keeps_value o s hs
  rw [h] at hvalue
  exact hvalue.1

theorem keeps_values (os : List Operand) : w.Keeps (fun vs => ∀ v ∈ vs, w.value v) (values os) :=
  hw.keeps_reading (fun _ n _ _ hs h => hw.evaluateAll hs os n h) fun s n _ _ h =>
    s.evaluateAll_quiet os n h

theorem keeps_ofExcept {x : Except Failure α} (hx : ∀ a, x = .ok a → p a) (hq : Quiet x) :
    w.Keeps p (ofExcept x : Exec α) := by
  intro s hs
  cases x with
  | ok a => exact ⟨hx a rfl, hs⟩
  | error f => exact hw.quiet hs (hq f rfl)

theorem keeps_frame : w.Keeps w.frame Exec.frame := by
  intro s hs
  rw [frame_apply]
  cases hf : s.frame with
  | ok f => exact ⟨hw.frame hs hf, hs⟩
  | error f => exact hw.quiet hs (s.frame_quiet f hf)

theorem keeps_fixnum (o : Operand) : w.Keeps (fun _ => True) (fixnum o) := by
  rw [fixnum_eq]
  exact (hw.keeps_value o).bind fun v _ =>
    hw.keeps_ofExcept (fun _ _ => trivial) (toFixnum_quiet v)

theorem keeps_float (o : Operand) : w.Keeps (fun _ => True) (float o) := by
  rw [float_eq]
  exact (hw.keeps_value o).bind fun v _ =>
    hw.keeps_ofExcept (fun _ _ => trivial) (toFloat_quiet v)

theorem keeps_block? (o : Operand) :
    w.Keeps (fun b? => ∀ b, b? = some b → w.value (.block b)) (block? o) := by
  rw [block?_eq]
  refine (hw.keeps_value o).bind fun v hv => hw.keeps_ofExcept ?_ (toBlock?_quiet v)
  rintro b? hb b rfl
  cases v <;> cases hb
  exact hv

theorem keeps_yielded (o : Operand) : w.Keeps (fun b => w.value (.block b)) (yielded o) := by
  rw [yielded_eq]
  refine (hw.keeps_block? o).bind fun b? hb => hw.keeps_ofExcept ?_ (required_quiet b?)
  intro b h
  cases b? <;> cases h
  exact hb _ rfl

theorem keeps_superclass? (o : Operand) :
    w.Keeps (fun x? => ∀ x, x? = some x → w.value x) (superclass? o) := by
  by_cases ho : o = .undefined
  · exact ho ▸ .pure fun s hs => ⟨by rintro x ⟨⟩, hs⟩
  · rw [superclass?_eq ho]
    exact (hw.keeps_value o).bind fun v hv => .pure fun s hs => ⟨by rintro x ⟨⟩; exact hv, hs⟩

end Reads

/-! ### Instructions -/

section

variable {s : Site} {r : Variable} (hquiet : ∀ f, f.raised? = none → w.failure f s)

include hquiet

/-- An instruction that comes down to setting a variable. -/
theorem ends_store {v : Value} (hstore : ∀ t, s.store r v = .ok t → w.outcome .next t) :
    w.Ends ((do Exec.store r v; return Outcome.next) s) := by
  cases ht : s.store r v with
  | error f =>
    rw [bind_of_error (e := f) (t := s) (by rw [store_apply, ht])]
    exact hquiet f (s.store_quiet r v f ht)
  | ok t =>
    rw [bind_of_ok (a := ()) (t := t) (by rw [store_apply, ht])]
    exact hstore t ht

theorem ends_await {q : Reply}
    (hvalue : ∀ v, q = .value v → ∀ t, s.store r v = .ok t → w.outcome .next t)
    (hinvoke : ∀ j, q = .invoke j → w.outcome (.call r j) s) : w.Ends (await r q s) := by
  cases q with
  | value v => exact ends_store hquiet (hvalue v rfl)
  | invoke j => exact hinvoke j rfl

end

namespace Lawful

variable {i : Instr} (hw : w.Lawful i)

include hw

theorem leads_store {r : Variable} (hr : i.result? = some r) {v : Value} (hv : w.value v) :
    w.Leads (do Exec.store r v; return Outcome.next) := fun _ hs =>
  ends_store (fun _ => hw.quiet hs) fun _ ht => hw.store hr hs hv ht

theorem leads_goTo {l : Label} (hl : i.target? = some l) :
    w.Leads (do Exec.goTo l; return Outcome.next) := by
  intro s hs
  cases hn : s.activation.body.labelIndex? l with
  | none =>
    rw [bind_of_error (e := .internal (.undefinedJump l)) (t := s) (by rw [goTo_apply, hn])]
    exact hw.quiet hs rfl
  | some n =>
    rw [bind_of_ok (a := ()) (t := { s with activation.pc := n }) (by rw [goTo_apply, hn])]
    exact hw.goTo hl hs hn

theorem leads_throw {f : Failure} (hf : f.raised? = none) : w.Leads (throw f) :=
  .throw fun _ hs => hw.quiet hs hf

/-- Instructions keep what they have to, the one that makes a block apart. -/
theorem leads_execute (hi : ∀ r b, i ≠ .buildClosure r b) : w.Leads i.execute := by
  cases i with
  | copy r source => exact (hw.keeps_value source).bind fun v hv => hw.leads_store rfl hv
  | receiveArg r index =>
    refine Triple.get.bind fun s hs => hw.leads_store rfl ?_
    rw [List.getD_eq_getElem?_getD]
    cases hv : s.activation.args[index]? with
    | none => exact hw.atomic rfl
    | some v => exact hw.argument hs v (List.mem_of_getElem? hv)
  | receiveBlock r =>
    refine hw.keeps_frame.bind fun f hf => hw.leads_store rfl ?_
    cases hb : f.block? with
    | none => exact hw.atomic rfl
    | some b => exact hw.block hf hb
  | intMath r op lhs rhs =>
    exact (hw.keeps_fixnum lhs).bind fun a _ => (hw.keeps_fixnum rhs).bind fun b _ =>
      hw.leads_store rfl (hw.atomic (op.onFixnums_isAtomic a b))
  | floatMath r op lhs rhs =>
    exact (hw.keeps_float lhs).bind fun a _ => (hw.keeps_float rhs).bind fun b _ =>
      hw.leads_store rfl (hw.atomic (op.onFloats_isAtomic a b))
  | label l => exact .pure fun _ => hw.next
  | jump l => exact hw.leads_goTo rfl
  | branchFalse condition l =>
    refine (hw.keeps_value condition).bind fun v _ => ?_
    split
    · exact .pure fun _ => hw.next
    · exact hw.leads_goTo rfl
  | call r receiver name args block type =>
    refine (hw.keeps_value receiver).bind fun v hv => (hw.keeps_values args).bind fun vs hvs => ?_
    -- the context that the call is dispatched in is read just before, so it is the site's
    have hrest : ∀ b? : Option Block, (∀ b, b? = some b → w.value (.block b)) → w.Leads (do
        let context := (← MonadState.get).context
        await r (← attempt fun h => h.dispatch context v name vs b? type)) := by
      intro b? hb s hs
      rw [get_bind]
      cases hk : s.heap.dispatch s.context v name vs b? type with
      | error f =>
        rw [bind_of_error (e := f) (t := s) (by rw [attempt_apply, hk])]
        exact hw.quiet hs (s.heap.dispatch_quiet _ v name vs b? type f hk)
      | ok p =>
        rw [bind_of_ok (a := p.1) (t := { s with heap := p.2 }) (by rw [attempt_apply, hk])]
        exact hw.dispatch rfl hs hv hvs hb hk
    cases block with
    | none => exact hrest none (by rintro b ⟨⟩)
    | some o => exact (hw.keeps_block? o).bind hrest
  | defineMethod name body =>
    intro s hs
    rw [execute_defineMethod]
    cases hf : s.frame with
    | error f => exact hw.quiet hs (s.frame_quiet f hf)
    | ok f => exact hw.defineMethod rfl hs hf
  | defineClass r body container superclass =>
    refine (hw.keeps_value container).bind fun v hv => ?_
    have hrest : ∀ x? : Option Value, (∀ x, x? = some x → w.value x) → w.Leads (do
        Exec.store r (.method (← attempt fun h => h.define body v x?))
        return Outcome.next) := by
      intro x? hx s hs
      cases hk : s.heap.define body v x? with
      | error f =>
        rw [bind_of_error (e := f) (t := s) (by rw [attempt_apply, hk])]
        exact hw.quiet hs (s.heap.define_quiet body v x? f hk)
      | ok p =>
        rw [bind_of_ok (a := p.1) (t := { s with heap := p.2 }) (by rw [attempt_apply, hk])]
        exact hw.define rfl hs hv hx hk
    simp only
    split
    · exact (hw.keeps_superclass? superclass).bind hrest
    · exact hrest none (by rintro x ⟨⟩)
  | processModuleBody r method =>
    refine (hw.keeps_value method).bind fun v hv => ?_
    cases v with
    | method m =>
      refine Triple.get.bind fun s _ => ?_
      exact (hw.keeps_ofExcept (fun _ => id) (m.invocation_quiet s.context _ _ _ _)).bind
        fun j hj => .pure fun _ hs => hw.processModuleBody rfl hs hv hj
    | _ => exact hw.leads_throw rfl
  | setVisibility v =>
    intro s hs
    rw [execute_setVisibility]
    cases hc : s.context.setVisibility? v with
    | none => exact hw.quiet hs rfl
    | some c => exact hw.setVisibility rfl hs hc
  | putConst container name o =>
    refine (hw.keeps_value container).bind fun v hv => ?_
    cases v with
    | module m =>
      exact (hw.keeps_value o).bind fun x hx s hs => hw.putConst rfl hs hv hx
    | _ => exact hw.leads_throw rfl
  | searchConst r name =>
    refine hw.keeps_frame.bind fun f _ => Triple.get.bind fun s hs => ?_
    exact (hw.keeps_ofExcept (fun v hv => hw.constant _ _ _ hs hv)
      (s.heap.searchConstant_quiet _ _ name)).bind fun v hv => hw.leads_store rfl hv
  | buildClosure r body => exact absurd rfl (hi r body)
  | yield r block args =>
    exact (hw.keeps_yielded block).bind fun b hb => (hw.keeps_values args).bind fun vs hvs =>
      .pure fun s hs => hw.yield rfl hs hb hvs
  | ret o => exact (hw.keeps_value o).bind fun v hv => .pure fun s hs => hw.complete hs hv
  | nonlocalRet o =>
    refine (hw.keeps_value o).bind fun v hv => Triple.get.bind fun s _ => ?_
    simp only
    split
    · exact .pure fun _ hs => hw.complete hs hv
    · split
      · exact .pure fun _ hs => hw.returns _ hs hv
      · exact hw.leads_throw rfl
  | raise o => exact (hw.keeps_value o).bind fun v hv => .throw fun s hs => hw.raise o rfl hs hv

/-- An instruction ends as it has to, provided that the block it makes is admitted at its site. -/
theorem execute {s : Site} (hs : w.site s)
    (hnew : ∀ r body f, i = .buildClosure r body → s.frame = .ok f →
      w.value (.block (s.newBlock body f).1) ∧ w.site (s.newBlock body f).2) :
    w.Ends (i.execute s) := by
  cases i with
  | buildClosure r body =>
    rw [execute_buildClosure]
    cases hf : s.frame with
    | error f => exact hw.quiet hs (s.frame_quiet f hf)
    | ok f =>
      obtain ⟨hblock, hmade⟩ := hnew r body f rfl hf
      simp only
      cases ht : Site.store _ r _ with
      | error e => exact hw.quiet hmade (Site.store_quiet _ _ _ e ht)
      | ok t => exact hw.store rfl hmade hblock ht
  | _ => exact hw.leads_execute (by rintro r b ⟨⟩) s hs

end Lawful

end Invariant

end ObjectIr
