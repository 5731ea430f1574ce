import Mathlib.Data.List.Forall2
import ObjectIr.Proofs.Correspondence.Code
import ObjectIr.Proofs.Effects

/-!
# Corresponding executions

Two instructions that correspond do corresponding things at sites that correspond, if only the
primitive operations do: reading and setting a variable, jumping, defining, finding a method, making
a closure (`Correspondence.Lawful`). Then both go on alike, or both fail with failures that
correspond (`Correspondence.Lawful.execute`).
-/

namespace ObjectIr

/-- Two computations succeed with related values, or both fail, with related failures. -/
inductive Jointly {α β : Type} (fail : Failure → Failure → Prop) (rel : α → β → Prop) :
    Except Failure α → Except Failure β → Prop
  | ok {a : α} {b : β} (h : rel a b) : Jointly fail rel (.ok a) (.ok b)
  | error {f g : Failure} (h : fail f g) : Jointly fail rel (.error f) (.error g)

theorem Jointly.refl {α : Type} {fail : Failure → Failure → Prop} (hf : ∀ f, fail f f)
    (x : Except Failure α) : Jointly fail Eq x x := by
  cases x with
  | ok a => exact .ok rfl
  | error f => exact .error (hf f)

theorem Jointly.mono {α β : Type} {fail fail' : Failure → Failure → Prop} {rel rel' : α → β → Prop}
    {x : Except Failure α} {y : Except Failure β} (h : Jointly fail rel x y)
    (hf : ∀ f g, fail f g → fail' f g) (hr : ∀ a b, rel a b → rel' a b) :
    Jointly fail' rel' x y := by
  cases h with
  | ok h => exact .ok (hr _ _ h)
  | error h => exact .error (hf _ _ h)

theorem Jointly.answers {α β : Type} {fail : Failure → Failure → Prop} {rel rel' : α → β → Prop}
    {x : Except Failure α} {y : Except Failure β} (h : Jointly fail rel x y)
    (hr : ∀ a b, x = .ok a → y = .ok b → rel a b → rel' a b) : Jointly fail rel' x y := by
  cases h with
  | ok h => exact .ok (hr _ _ rfl rfl h)
  | error h => exact .error h

theorem Jointly.elim {α β : Type} {fail : Failure → Failure → Prop} {rel : α → β → Prop}
    {x : Except Failure α} {y : Except Failure β} (h : Jointly fail rel x y) :
    (∃ f g, x = .error f ∧ y = .error g ∧ fail f g) ∨ ∃ a b, x = .ok a ∧ y = .ok b ∧ rel a b := by
  cases h with
  | ok h => exact .inr ⟨_, _, rfl, rfl, h⟩
  | error h => exact .inl ⟨_, _, rfl, rfl, h⟩

theorem Jointly.bind {α β α' β' : Type} {fail : Failure → Failure → Prop} {rel : α → β → Prop}
    {rel' : α' → β' → Prop} {x : Except Failure α} {y : Except Failure β}
    {f : α → Except Failure α'} {g : β → Except Failure β'} (h : Jointly fail rel x y)
    (hfg : ∀ a b, rel a b → Jointly fail rel' (f a) (g b)) :
    Jointly fail rel' (x >>= f) (y >>= g) := by
  cases h with
  | ok h => exact hfg _ _ h
  | error h => exact .error h

theorem forall₂_set {α β : Type} {rel : α → β → Prop} {as : List α} {bs : List β}
    (h : List.Forall₂ rel as bs) {a : α} {b : β} (hab : rel a b) (n : Nat) :
    List.Forall₂ rel (as.set n a) (bs.set n b) := by
  induction h generalizing n with
  | nil => exact .nil
  | cons hxy h ih =>
    cases n with
    | zero => exact .cons hab h
    | succ n => exact .cons hxy (ih n)

/-- Searches that find the like of each other anywhere find it in the end. -/
theorem rel_findSome? {α β γ : Type} {rel : β → γ → Prop} {f : α → Option β} {g : α → Option γ}
    (h : ∀ a, Option.Rel rel (f a) (g a)) (as : List α) :
    Option.Rel rel (as.findSome? f) (as.findSome? g) := by
  induction as with
  | nil => exact .none
  | cons a as ih =>
    have ha := h a
    rw [List.findSome?_cons, List.findSome?_cons]
    generalize f a = x at ha
    generalize g a = y at ha
    cases ha with
    | none => exact ih
    | some ha => exact .some ha

theorem isEmpty_eq_of_forall₂ {α β : Type} {rel : α → β → Prop} {as : List α} {bs : List β}
    (h : List.Forall₂ rel as bs) : as.isEmpty = bs.isEmpty := by
  rw [Bool.eq_iff_iff, List.isEmpty_iff_length_eq_zero, List.isEmpty_iff_length_eq_zero,
    h.length_eq]

/-- The same constructor, and the same content outside of arrays, methods and blocks. -/
def Value.SameShape : Value → Value → Prop
  | .array .., .array .. => True
  | .method _, .method _ => True
  | .block _, .block _ => True
  | .array .., _ | .method _, _ | .block _, _ => False
  | v, w => v = w

/-- What these instructions do is about the place of a body in others. -/
def InstrOf.isLexical : Instr → Bool
  | .defineMethod .. | .processModuleBody .. | .buildClosure .. | .nonlocalRet _ => true
  | _ => false

/-- What corresponds to what in two executions. `after` says how the sites end up. -/
structure Correspondence extends Counterparts where
  value : Value → Value → Prop
  failure : Failure → Failure → Prop
  frame : Frame → Frame → Prop
  invocation : Invocation → Invocation → Prop
  target : Nat → Nat → Prop
  site : Site → Site → Prop
  after : Site → Site → Prop

/-- The failures that instructions raise themselves, those of their primitives apart. -/
inductive Failure.Thrown (value : Value → Value → Prop) : Failure → Failure → Prop
  | notCoercible (name : String) (target : NumberClass) :
    Thrown value (.type (.notCoercible name target)) (.type (.notCoercible name target))
  | notBlock (name : String) : Thrown value (.type (.notBlock name)) (.type (.notBlock name))
  | notModuleBody {v v' : Value} (h : value v v') :
    Thrown value (.type (.notModuleBody v)) (.type (.notModuleBody v'))
  | notModule {v v' : Value} (h : value v v') :
    Thrown value (.type (.notModule v)) (.type (.notModule v'))
  | jump (fault : JumpFault) : Thrown value (.jump fault) (.jump fault)
  | raised {v v' : Value} (h : value v v') : Thrown value (.raised v) (.raised v')
  | undefinedOperand : Thrown value (.internal .undefinedOperand) (.internal .undefinedOperand)
  | bodyOperand (name : String) :
    Thrown value (.internal (.bodyOperand name)) (.internal (.bodyOperand name))

namespace Correspondence

section Definitions

variable (w : Correspondence)

abbrev Pairs {α β : Type} (rel : α → β → Prop) (x : Except Failure α) (y : Except Failure β) :
    Prop := Jointly w.failure rel x y

inductive Replies : Reply → Reply → Prop
  | value {v v' : Value} (h : w.value v v') : Replies (.value v) (.value v')
  | invoke {i i' : Invocation} (h : w.invocation i i') : Replies (.invoke i) (.invoke i')

inductive Outcomes : Outcome → Outcome → Prop
  | next : Outcomes .next .next
  | call {r r' : Variable} {i i' : Invocation} (hr : w.place r r') (hi : w.invocation i i') :
    Outcomes (.call r i) (.call r' i')
  | complete {v v' : Value} (h : w.value v v') : Outcomes (.complete v) (.complete v')
  | return {n n' : Nat} {v v' : Value} (hn : w.target n n') (h : w.value v v') :
    Outcomes (.return n v) (.return n' v')

/-- An answer with the heap it leaves, for sites that go on with this heap. -/
def Changes {α β : Type} (rel : α → β → Prop) (s s' : Site) (p : α × Heap) (p' : β × Heap) : Prop :=
  rel p.1 p'.1 ∧ w.site { s with heap := p.2 } { s' with heap := p'.2 }

/-- What is asked of values that are at hand, and of all that is made of them. -/
structure FormLaws : Prop where
  shape : ∀ {v v'}, w.value v v' → v.SameShape v'
  plain : ∀ {v : Value}, (∀ n vs, v ≠ .array n vs) → (∀ m, v ≠ .method m) → (∀ b, v ≠ .block b) →
    w.value v v
  thrown : ∀ {f g}, Failure.Thrown w.value f g → w.failure f g
  bodies : ∀ {b b'}, w.body b b' → b.name = b'.name ∧ b.kind = b'.kind
  blockOf : ∀ {f f'}, w.frame f f' →
    Option.Rel (fun b b' : Block => w.value (.block b) (.block b')) f.block? f'.block?
  invokeBlock : ∀ {b b' : Block} {vs vs'}, w.value (.block b) (.block b') →
    List.Forall₂ w.value vs vs' → w.invocation (b.invocation vs) (b'.invocation vs')

structure ValueLaws : Prop extends FormLaws w where
  array : ∀ (n : Nat) {vs vs'}, List.Forall₂ w.value vs vs' →
    w.value (.array n vs) (.array n vs')

/-- What is asked of variables, and of moving about in an activation. -/
structure PlaceLaws : Prop where
  after : ∀ {s s'}, w.site s s' → w.after s s'
  load : ∀ {s s' v v'}, w.site s s' → w.place v v' → w.Pairs w.value (s.load v) (s'.load v')
  store : ∀ {s s' r r' v v'}, w.site s s' → w.place r r' → w.value v v' →
    w.Pairs w.site (s.store r v) (s'.store r' v')
  receiver : ∀ {s s'}, w.site s s' → w.value s.activation.receiver s'.activation.receiver
  args : ∀ {s s'} (n : Nat), w.site s s' →
    w.value (s.activation.args.getD n .nil) (s'.activation.args.getD n .nil)
  kind : ∀ {s s'}, w.site s s' → s.activation.body.kind = s'.activation.body.kind
  goTo : ∀ {s s' l l'}, w.site s s' → w.label l l' →
    (∃ n n', s.activation.body.labelIndex? l = some n ∧
      s'.activation.body.labelIndex? l' = some n' ∧
      w.site { s with activation.pc := n } { s' with activation.pc := n' }) ∨
    (s.activation.body.labelIndex? l = none ∧ s'.activation.body.labelIndex? l' = none ∧
      w.failure (.internal (.undefinedJump l)) (.internal (.undefinedJump l')))

/-- Both activations make the same numbers of arrays, and number them alike. -/
structure SiteLaws : Prop extends PlaceLaws w where
  supply : ∀ {s s'}, w.site s s' → s.heap.next.arrays = s'.heap.next.arrays
  setSupply : ∀ {s s'} (n : Nat), w.site s s' →
    w.site { s with heap.next.arrays := n } { s' with heap.next.arrays := n }

/-- What is asked of the heap and of the stacks. -/
structure HeapLaws : Prop where
  frame : ∀ {s s'}, w.site s s' → w.Pairs w.frame s.frame s'.frame
  scopeModule : ∀ {s s'}, w.site s s' → w.Pairs Eq s.scopeModule s'.scopeModule
  dispatch : ∀ {s s' v v' vs vs' b? b?'} (name : String) (type : CallType), w.site s s' →
    w.value v v' → List.Forall₂ w.value vs vs' →
    Option.Rel (fun b b' : Block => w.value (.block b) (.block b')) b? b?' →
    w.Pairs (w.Changes w.Replies s s') (s.heap.dispatch s.context v name vs b? type)
      (s'.heap.dispatch s'.context v' name vs' b?' type)
  define : ∀ {s s' b b' v v' x x'}, w.site s s' → w.body b b' → w.value v v' →
    Option.Rel w.value x x' →
    w.Pairs (w.Changes (fun m m' => w.value (.method m) (.method m')) s s')
      (s.heap.define b v x) (s'.heap.define b' v' x')
  setConstant : ∀ {s s' v v'} (m : Module) (name : String), w.site s s' → w.value v v' →
    w.site { s with heap := s.heap.setConstant m name v }
      { s' with heap := s'.heap.setConstant m name v' }
  searchConstant : ∀ {s s' f f'} (name : String), w.site s s' → w.frame f f' →
    w.Pairs w.value (s.heap.searchConstant s.activation.body.scope f.module name)
      (s'.heap.searchConstant s'.activation.body.scope f'.module name)
  setVisibility : ∀ {s s'} (v : Visibility), w.site s s' →
    Option.Rel (fun c c' => w.site { s with context := c } { s' with context := c' })
      (s.context.setVisibility? v) (s'.context.setVisibility? v)
  noFrame : ∀ {s s'} (v : Visibility), w.site s s' → s.context.setVisibility? v = none →
    w.failure (.internal .noFrame) (.internal .noFrame)

/-- Both executions succeed with related answers, or both fail with related failures. -/
inductive Meets {α β : Type} (rel : α → β → Prop) (post : Site → Site → Prop) :
    EStateM.Result Failure Site α → EStateM.Result Failure Site β → Prop
  | ok {a : α} {b : β} {s s' : Site} (h : rel a b) (hs : post s s') :
    Meets rel post (.ok a s) (.ok b s')
  | error {f g : Failure} {s s' : Site} (h : w.failure f g) (hs : w.after s s') :
    Meets rel post (.error f s) (.error g s')

inductive ReadsTo {α β : Type} (rel : α → β → Prop) :
    EStateM.Result Failure Nat α → EStateM.Result Failure Nat β → Prop
  | ok {a : α} {b : β} {n : Nat} (h : rel a b) : ReadsTo rel (.ok a n) (.ok b n)
  | error {f g : Failure} {n : Nat} (h : w.failure f g) : ReadsTo rel (.error f n) (.error g n)

/-- Two readings from one number of arrays. -/
def Reads {α β : Type} (rel : α → β → Prop) (x : Reading α) (y : Reading β) : Prop :=
  ∀ n, w.ReadsTo rel (x n) (y n)

def Joins {α β : Type} (rel : α → β → Prop) (x : Exec α) (y : Exec β) : Prop :=
  ∀ s s', w.site s s' → w.Meets rel w.site (x s) (y s')

/-- What is asked of all that an instruction does once its operands are read. -/
structure Acts : Prop extends FormLaws w, PlaceLaws w, HeapLaws w

structure Laws : Prop extends ValueLaws w, SiteLaws w, HeapLaws w

/-- What is asked of non-local returns: they aim at what corresponds, if at anything. -/
def FindsHome : Prop :=
  ∀ {s s'}, w.site s s' → s.activation.body.kind.isReturnTarget = false →
    Option.Rel (fun c c' : ScopeCell => w.target c.id c'.id)
      (s.activation.footing.scope?.bind DynamicScope.returnTarget?)
      (s'.activation.footing.scope?.bind DynamicScope.returnTarget?)

/-- The laws, and what is asked of instructions that are about the place of a body. -/
structure Lawful : Prop extends Laws w where
  findsHome : w.FindsHome
  addMethod : ∀ {s s' f f' b b'} (name : String), w.site s s' → w.frame f f' → w.body b b' →
    w.site
      { s with heap := ((s.heap.newMethod b f.visibility f.module).2.addMethod f.module name
          (s.heap.newMethod b f.visibility f.module).1) }
      { s' with heap := ((s'.heap.newMethod b' f'.visibility f'.module).2.addMethod f'.module name
          (s'.heap.newMethod b' f'.visibility f'.module).1) }
  invokeMethod : ∀ {s s' m m'}, w.site s s' → w.value (.method m) (.method m') →
    w.Pairs w.invocation (m.invocation s.context (.module m.module) m.body.name [] none)
      (m'.invocation s'.context (.module m'.module) m'.body.name [] none)
  buildClosure : ∀ {s s' r r' b b'}, w.site s s' → w.place r r' → w.body b b' →
    w.Meets w.Outcomes w.after ((InstrOf.buildClosure r b : Instr).execute s)
      ((InstrOf.buildClosure r' b' : Instr).execute s')

end Definitions

variable {w : Correspondence} {α β α' β' : Type}

theorem Meets.mono {rel rel' : α → β → Prop} {post post' : Site → Site → Prop}
    {x : EStateM.Result Failure Site α} {y : EStateM.Result Failure Site β}
    (h : w.Meets rel post x y) (hrel : ∀ a b, rel a b → rel' a b)
    (hpost : ∀ s s', post s s' → post' s s') : w.Meets rel' post' x y := by
  cases h with
  | ok h hs => exact .ok (hrel _ _ h) (hpost _ _ hs)
  | error h hs => exact .error h hs

theorem Meets.elim {rel : α → β → Prop} {post : Site → Site → Prop}
    {x : EStateM.Result Failure Site α} {y : EStateM.Result Failure Site β}
    (h : w.Meets rel post x y) :
    (∃ f g t t', x = .error f t ∧ y = .error g t' ∧ w.failure f g ∧ w.after t t') ∨
      ∃ a b t t', x = .ok a t ∧ y = .ok b t' ∧ rel a b ∧ post t t' := by
  cases h with
  | ok h hs => exact .inr ⟨_, _, _, _, rfl, rfl, h, hs⟩
  | error h hs => exact .inl ⟨_, _, _, _, rfl, rfl, h, hs⟩

/-- An instruction that comes down to setting a variable. -/
theorem PlaceLaws.meets_store (hw : w.PlaceLaws) {s s' : Site} (hs : w.site s s') {r r' : Variable}
    (hr : w.place r r') {v v' : Value} (hv : w.value v v') :
    w.Meets w.Outcomes w.after
      (match s.store r v with
        | .error f => .error f s
        | .ok t => .ok .next t)
      (match s'.store r' v' with
        | .error f => .error f s'
        | .ok t => .ok .next t) := by
  have h := hw.store hs hr hv
  generalize s.store r v = x at h
  generalize s'.store r' v' = y at h
  cases h with
  | ok h => exact .ok .next (hw.after h)
  | error h => exact .error h (hw.after hs)

namespace Joins

variable {rel : α → β → Prop} {rel' : α' → β' → Prop} {x : Exec α} {y : Exec β}

theorem bind {f : α → Exec α'} {g : β → Exec β'} (hxy : w.Joins rel x y)
    (hfg : ∀ a b, rel a b → w.Joins rel' (f a) (g b)) : w.Joins rel' (x >>= f) (y >>= g) := by
  intro s s' hs
  have h := hxy s s' hs
  simp only [Bind.bind, EStateM.bind]
  cases hx : x s with
  | ok a t =>
    cases hy : y s' with
    | ok b t' =>
      rw [hx, hy] at h
      cases h with
      | ok hab ht => exact hfg a b hab t t' ht
    | error g t' => rw [hx, hy] at h; cases h
  | error e t =>
    cases hy : y s' with
    | ok b t' => rw [hx, hy] at h; cases h
    | error g t' =>
      rw [hx, hy] at h
      cases h with
      | error he ht => exact .error he ht

theorem pure {a : α} {b : β} (h : rel a b) : w.Joins rel (pure a) (pure b) :=
  fun _ _ hs => .ok h hs

theorem get : w.Joins w.site (MonadState.get : Exec Site) MonadState.get := fun _ _ hs => .ok hs hs

end Joins

namespace Reads

variable {rel : α → β → Prop} {rel' : α' → β' → Prop} {x : Reading α} {y : Reading β}

theorem pure {a : α} {b : β} (h : rel a b) : w.Reads rel (pure a) (pure b) := fun _ => .ok h

theorem throw {f g : Failure} (h : w.failure f g) :
    w.Reads rel (throw f : Reading α) (throw g : Reading β) := fun _ => .error h

theorem ofExcept {u : Except Failure α} {v : Except Failure β} (h : w.Pairs rel u v) :
    w.Reads rel (ofExcept u : Reading α) (ofExcept v : Reading β) := by
  cases h with
  | ok h => exact pure h
  | error h => exact throw h

theorem bind {f : α → Reading α'} {g : β → Reading β'} (hxy : w.Reads rel x y)
    (hfg : ∀ a b, rel a b → w.Reads rel' (f a) (g b)) : w.Reads rel' (x >>= f) (y >>= g) := by
  intro n
  have h := hxy n
  simp only [Bind.bind, EStateM.bind]
  cases hx : x n with
  | ok a m =>
    cases hy : y n with
    | ok b m' =>
      rw [hx, hy] at h
      cases h with
      | ok hab => exact hfg a b hab m
    | error g m' => rw [hx, hy] at h; cases h
  | error e m =>
    cases hy : y n with
    | ok b m' => rw [hx, hy] at h; cases h
    | error g m' =>
      rw [hx, hy] at h
      cases h with
      | error he => exact .error he

end Reads

/-! ### What is done with values that are at hand -/

namespace FormLaws

variable (hw : w.FormLaws) {v v' : Value} (hv : w.value v v')

include hw hv

theorem class_eq : v.class = v'.class := by
  have h := hw.shape hv
  cases v <;> cases v' <;> simp_all [Value.SameShape, Value.class]

theorem isTruthy_eq : v.isTruthy = v'.isTruthy := by
  have h := hw.shape hv
  cases v <;> cases v' <;> simp_all [Value.SameShape, Value.isTruthy]

theorem module?_eq : v.module? = v'.module? := by
  have h := hw.shape hv
  cases v <;> cases v' <;> simp_all [Value.SameShape, Value.module?]

theorem toFixnum : w.Pairs Eq (Exec.toFixnum v) (Exec.toFixnum v') := by
  have hc := hw.class_eq hv
  have hs := hw.shape hv
  cases v <;> cases v' <;> simp only [Value.SameShape, reduceCtorEq] at hs <;>
    first
      | exact .ok (Value.fixnum.inj hs)
      | exact .error (hc ▸ hw.thrown (.notCoercible _ _))

theorem toFloat : w.Pairs Eq (Exec.toFloat v) (Exec.toFloat v') := by
  have hc := hw.class_eq hv
  have hs := hw.shape hv
  cases v <;> cases v' <;> simp only [Value.SameShape, reduceCtorEq] at hs <;>
    first
      | exact .ok (Value.float.inj hs)
      | exact .ok (by rw [Value.fixnum.inj hs])
      | exact .error (hc ▸ hw.thrown (.notCoercible _ _))

theorem toBlock? : w.Pairs (Option.Rel fun b b' : Block => w.value (.block b) (.block b'))
    (Exec.toBlock? v) (Exec.toBlock? v') := by
  have hc := hw.class_eq hv
  have hs := hw.shape hv
  cases v <;> cases v' <;> simp only [Value.SameShape, reduceCtorEq] at hs <;>
    first
      | exact .ok (.some hv)
      | exact .ok .none
      | exact .error (hc ▸ hw.thrown (.notBlock _))

omit hv in
theorem required {b? b?' : Option Block}
    (h : Option.Rel (fun b b' : Block => w.value (.block b) (.block b')) b? b?') :
    w.Pairs (fun b b' : Block => w.value (.block b) (.block b')) (Exec.required b?)
      (Exec.required b?') := by
  cases h with
  | none => exact .error (hw.thrown (.jump _))
  | some h => exact .ok h

end FormLaws

namespace Acts

variable (hw : w.Acts) {rel : α → β → Prop}

include hw

theorem joins_throw {f g : Failure} (h : w.failure f g) :
    w.Joins rel (throw f : Exec α) (throw g : Exec β) := fun _ _ hs => .error h (hw.after hs)

theorem joins_ofExcept {x : Except Failure α} {y : Except Failure β} (h : w.Pairs rel x y) :
    w.Joins rel (ofExcept x : Exec α) (ofExcept y : Exec β) := by
  cases h with
  | ok h => exact .pure h
  | error h => exact hw.joins_throw h

theorem joins_store {r r' : Variable} {v v' : Value} (hr : w.place r r') (hv : w.value v v') :
    w.Joins (fun _ _ => True) (Exec.store r v) (Exec.store r' v') := by
  intro s s' hs
  rw [Exec.store_apply, Exec.store_apply]
  have h := hw.store hs hr hv
  generalize s.store r v = x at h
  generalize s'.store r' v' = y at h
  cases h with
  | ok h => exact .ok trivial h
  | error h => exact .error h (hw.after hs)

theorem joins_stored {r r' : Variable} {v v' : Value} (hr : w.place r r') (hv : w.value v v') :
    w.Joins w.Outcomes (do Exec.store r v; return Outcome.next)
      (do Exec.store r' v'; return Outcome.next) :=
  .bind (hw.joins_store hr hv) fun _ _ _ => .pure .next

theorem joins_frame : w.Joins w.frame Exec.frame Exec.frame := by
  intro s s' hs
  rw [Exec.frame_apply, Exec.frame_apply]
  have h := hw.frame hs
  generalize s.frame = x at h
  generalize s'.frame = y at h
  cases h with
  | ok h => exact .ok h hs
  | error h => exact .error h (hw.after hs)

theorem joins_goTo {l l' : Label} (hl : w.label l l') :
    w.Joins (fun _ _ => True) (Exec.goTo l) (Exec.goTo l') := by
  intro s s' hs
  rw [Exec.goTo_apply, Exec.goTo_apply]
  rcases hw.goTo hs hl with ⟨n, n', hn, hn', ht⟩ | ⟨hn, hn', hf⟩
  · rw [hn, hn']
    exact .ok trivial ht
  · rw [hn, hn']
    exact .error hf (hw.after hs)

theorem joins_attempt {rel : α → β → Prop} {f : Heap → Except Failure (α × Heap)}
    {g : Heap → Except Failure (β × Heap)}
    (h : ∀ s s', w.site s s' → w.Pairs (w.Changes rel s s') (f s.heap) (g s'.heap)) :
    w.Joins rel (Exec.attempt f) (Exec.attempt g) := by
  intro s s' hs
  rw [Exec.attempt_apply, Exec.attempt_apply]
  have h := h s s' hs
  generalize f s.heap = x at h
  generalize g s'.heap = y at h
  cases h with
  | ok h => exact .ok h.1 h.2
  | error h => exact .error h (hw.after hs)

theorem nil_value : w.value .nil .nil := hw.plain (by simp) (by simp) (by simp)

theorem joins_call {r r' : Variable} (hr : w.place r r') {v v' : Value} (hv : w.value v v')
    (name : String) {vs vs' : List Value} (hvs : List.Forall₂ w.value vs vs') (type : CallType)
    {b? b?' : Option Block}
    (hb : Option.Rel (fun b b' : Block => w.value (.block b) (.block b')) b? b?') :
    w.Joins w.Outcomes
      (do
        let context := (← get).context
        Exec.await r (← Exec.attempt fun h => h.dispatch context v name vs b? type))
      (do
        let context := (← get).context
        Exec.await r' (← Exec.attempt fun h => h.dispatch context v' name vs' b?' type)) := by
  -- the context is read first, and is still the site's when the call is dispatched
  intro s s' hs
  rw [Exec.get_bind, Exec.get_bind]
  simp only [bind, EStateM.bind, Exec.attempt_apply]
  have h := hw.dispatch name type hs hv hvs hb
  generalize s.heap.dispatch s.context v name vs b? type = x at h
  generalize s'.heap.dispatch s'.context v' name vs' b?' type = y at h
  cases h with
  | error h => exact .error h (hw.after hs)
  | ok h =>
    have hawait : ∀ {q q' : Reply}, w.Replies q q' →
        w.Joins w.Outcomes (Exec.await r q) (Exec.await r' q') := by
      rintro _ _ (hv | hi)
      · exact hw.joins_stored hr hv
      · exact .pure (.call hr hi)
    exact hawait h.1 _ _ h.2

theorem joins_define {r r' : Variable} (hr : w.place r r') {b b' : Body} (hb : w.body b b')
    {v v' : Value} (hv : w.value v v') {x x' : Option Value} (hx : Option.Rel w.value x x') :
    w.Joins w.Outcomes
      (do
        Exec.store r (.method (← Exec.attempt fun h => h.define b v x))
        return Outcome.next)
      (do
        Exec.store r' (.method (← Exec.attempt fun h => h.define b' v' x'))
        return Outcome.next) :=
  .bind (hw.joins_attempt fun _ _ hs => hw.define hs hb hv hx) fun _ _ hm => hw.joins_stored hr hm

/-- Corresponding instructions without operands do corresponding things. -/
theorem joins_closed {i i' : Instr} (h : i.Like w.toCounterparts i') (hi : i.isLexical = false)
    (ho : i.operands = []) : w.Joins w.Outcomes i.execute i'.execute := by
  cases h with
  | receiveArg hr index =>
    exact .bind .get fun _ _ hs => hw.joins_stored hr (hw.args index hs)
  | receiveBlock hr =>
    refine .bind hw.joins_frame fun f f' hf => hw.joins_stored hr ?_
    have hb := hw.blockOf hf
    generalize f.block? = x at hb
    generalize f'.block? = y at hb
    cases hb with
    | none => exact hw.nil_value
    | some hb => exact hb
  | label hl => exact .pure .next
  | jump hl => exact .bind (hw.joins_goTo hl) fun _ _ _ => .pure .next
  | setVisibility v =>
    refine fun s s' hs => ?_
    rw [execute_setVisibility, execute_setVisibility]
    have h := hw.setVisibility v hs
    have hn := hw.noFrame v hs
    generalize s.context.setVisibility? v = x at h hn
    generalize s'.context.setVisibility? v = y at h
    cases h with
    | none => exact .error (hn rfl) (hw.after hs)
    | some h => exact .ok .next h
  | searchConst hr name =>
    refine .bind hw.joins_frame fun f f' hf => .bind .get fun s s' hs => ?_
    exact .bind (hw.joins_ofExcept (hw.searchConstant name hs hf)) fun _ _ hv =>
      hw.joins_stored hr hv
  | defineMethod | buildClosure => cases hi
  | _ => simp [InstrOf.operands] at ho

end Acts

/-! ### Reading -/

section

variable {s s' : Site}

mutual

theorem Laws.evaluate (hw : w.Laws) (hs : w.site s s') :
    ∀ {o o' : Operand}, o.Like w.toCounterparts o' →
      w.Reads w.value (s.evaluate o) (s'.evaluate o')
  | _, _, .var h => by
    simp only [Site.evaluate]
    exact .ofExcept (hw.load hs h)
  | _, _, .array h => by
    simp only [Site.evaluate]
    exact .bind (hw.evaluateAll hs h) fun vs vs' hvs n => .ok (hw.array n hvs)
  | _, _, .scopeModule => by
    simp only [Site.evaluate]
    refine .bind (.ofExcept (hw.scopeModule hs)) ?_
    rintro m _ rfl
    exact .pure (hw.plain (by simp) (by simp) (by simp))
  | _, _, .selfObject => .pure (hw.receiver hs)
  | _, _, .nil | _, _, .bool _ | _, _, .fixnum _ | _, _, .float _ | _, _, .string _
  | _, _, .symbol _ => .pure (hw.plain (by simp) (by simp) (by simp))
  | _, _, .undefined => .throw (hw.thrown .undefinedOperand)
  | _, _, .body h => by
    simp only [Site.evaluate, (hw.bodies h).1]
    exact .throw (hw.thrown (.bodyOperand _))

theorem Laws.evaluateAll (hw : w.Laws) (hs : w.site s s') :
    ∀ {os os' : List Operand}, OperandOf.LikeAll w.toCounterparts os os' →
      w.Reads (List.Forall₂ w.value) (s.evaluateAll os) (s'.evaluateAll os')
  | _, _, .nil => .pure .nil
  | _, _, .cons h hos => by
    simp only [Site.evaluateAll]
    exact .bind (hw.evaluate hs h) fun v v' hv => .bind (hw.evaluateAll hs hos) fun vs vs' hvs =>
      .pure (.cons hv hvs)

end

end

namespace Laws

variable (hw : w.Laws) {rel : α → β → Prop}

include hw

theorem acts : w.Acts := ⟨hw.toFormLaws, hw.toPlaceLaws, hw.toHeapLaws⟩

theorem joins_reading {read read' : Site → Reading α} {rel : α → α → Prop}
    (h : ∀ s s', w.site s s' → w.Reads rel (read s) (read' s')) :
    w.Joins rel (Exec.reading read) (Exec.reading read') := by
  intro s s' hs
  have hr := h s s' hs s.heap.next.arrays
  unfold Exec.reading
  simp only [EStateM.run, ← hw.supply hs]
  generalize read s s.heap.next.arrays = x at hr
  generalize read' s' s.heap.next.arrays = y at hr
  cases hr with
  | ok h => exact .ok h (hw.setSupply _ hs)
  | error h => exact .error h (hw.after (hw.setSupply _ hs))

theorem joins_value {o o' : Operand} (h : o.Like w.toCounterparts o') :
    w.Joins w.value (Exec.value o) (Exec.value o') :=
  hw.joins_reading fun _ _ hs => hw.evaluate hs h

theorem joins_values {os os' : List Operand} (h : OperandOf.LikeAll w.toCounterparts os os') :
    w.Joins (List.Forall₂ w.value) (Exec.values os) (Exec.values os') :=
  hw.joins_reading fun _ _ hs => hw.evaluateAll hs h

theorem joins_fixnum {o o' : Operand} (h : o.Like w.toCounterparts o') :
    w.Joins Eq (Exec.fixnum o) (Exec.fixnum o') := by
  rw [Exec.fixnum_eq, Exec.fixnum_eq]
  exact .bind (hw.joins_value h) fun _ _ hv => hw.acts.joins_ofExcept (hw.toFixnum hv)

theorem joins_float {o o' : Operand} (h : o.Like w.toCounterparts o') :
    w.Joins Eq (Exec.float o) (Exec.float o') := by
  rw [Exec.float_eq, Exec.float_eq]
  exact .bind (hw.joins_value h) fun _ _ hv => hw.acts.joins_ofExcept (hw.toFloat hv)

theorem joins_block? {o o' : Operand} (h : o.Like w.toCounterparts o') :
    w.Joins (Option.Rel fun b b' : Block => w.value (.block b) (.block b')) (Exec.block? o)
      (Exec.block? o') := by
  rw [Exec.block?_eq, Exec.block?_eq]
  exact .bind (hw.joins_value h) fun _ _ hv => hw.acts.joins_ofExcept (hw.toBlock? hv)

theorem joins_yielded {o o' : Operand} (h : o.Like w.toCounterparts o') :
    w.Joins (fun b b' : Block => w.value (.block b) (.block b')) (Exec.yielded o)
      (Exec.yielded o') := by
  rw [Exec.yielded_eq, Exec.yielded_eq]
  exact .bind (hw.joins_block? h) fun _ _ hb => hw.acts.joins_ofExcept (hw.required hb)

theorem joins_superclass? {o o' : Operand} (h : o.Like w.toCounterparts o') :
    w.Joins (Option.Rel w.value) (Exec.superclass? o) (Exec.superclass? o') := by
  by_cases ho : o = .undefined
  · subst ho
    cases h
    exact .pure .none
  · have ho' : o' ≠ .undefined := by
      rintro rfl
      cases h
      exact ho rfl
    rw [Exec.superclass?_eq ho, Exec.superclass?_eq ho']
    exact .bind (hw.joins_value h) fun _ _ hv => .pure (.some hv)

theorem joins_nonlocalRet (hhome : w.FindsHome) {o o' : Operand}
    (ho : o.Like w.toCounterparts o') :
    w.Joins w.Outcomes (InstrOf.nonlocalRet o : Instr).execute
      (InstrOf.nonlocalRet o' : Instr).execute := by
  refine .bind (hw.joins_value ho) fun v v' hv => .bind .get fun s s' hs => ?_
  simp only [← hw.kind hs]
  cases hk : s.activation.body.kind.isReturnTarget with
  | true => exact .pure (.complete hv)
  | false =>
    have h := hhome hs hk
    generalize s.activation.footing.scope?.bind DynamicScope.returnTarget? = x at h
    generalize s'.activation.footing.scope?.bind DynamicScope.returnTarget? = y at h
    cases h with
    | none => exact hw.acts.joins_throw (hw.thrown (.jump _))
    | some h => exact .pure (.return h hv)

theorem joins_processModuleBody
    (hinvoke : ∀ {s s' m m'}, w.site s s' → w.value (.method m) (.method m') →
      w.Pairs w.invocation (m.invocation s.context (.module m.module) m.body.name [] none)
        (m'.invocation s'.context (.module m'.module) m'.body.name [] none))
    {r r' : Variable} (hr : w.place r r') {o o' : Operand} (ho : o.Like w.toCounterparts o') :
    w.Joins w.Outcomes (InstrOf.processModuleBody r o : Instr).execute
      (InstrOf.processModuleBody r' o' : Instr).execute := by
  refine .bind (hw.joins_value ho) fun v v' hv => ?_
  have hs := hw.shape hv
  cases v <;> cases v' <;> simp only [Value.SameShape, reduceCtorEq] at hs <;>
    first
      | exact .bind .get fun _ _ hs =>
          .bind (hw.acts.joins_ofExcept (hinvoke hs hv)) fun _ _ hi => .pure (.call hr hi)
      | exact hw.acts.joins_throw (hw.thrown (.notModuleBody hv))

/-- Corresponding instructions do corresponding things, if they are about no place of a body. -/
theorem joins_execute {i i' : Instr} (h : i.Like w.toCounterparts i')
    (hi : i.isLexical = false) : w.Joins w.Outcomes i.execute i'.execute := by
  cases h with
  | defineMethod | processModuleBody | buildClosure | nonlocalRet => cases hi
  | copy hr ho => exact .bind (hw.joins_value ho) fun _ _ hv => hw.acts.joins_stored hr hv
  | receiveArg hr index => exact hw.acts.joins_closed (.receiveArg hr index) rfl rfl
  | receiveBlock hr => exact hw.acts.joins_closed (.receiveBlock hr) rfl rfl
  | intMath hr op ho hp =>
    refine .bind (hw.joins_fixnum ho) ?_
    rintro a _ rfl
    refine .bind (hw.joins_fixnum hp) ?_
    rintro b _ rfl
    exact hw.acts.joins_stored hr (hw.plain (by cases op <;> simp [MathOp.onFixnums])
      (by cases op <;> simp [MathOp.onFixnums]) (by cases op <;> simp [MathOp.onFixnums]))
  | floatMath hr op ho hp =>
    refine .bind (hw.joins_float ho) ?_
    rintro a _ rfl
    refine .bind (hw.joins_float hp) ?_
    rintro b _ rfl
    exact hw.acts.joins_stored hr (hw.plain (by cases op <;> simp [MathOp.onFloats])
      (by cases op <;> simp [MathOp.onFloats]) (by cases op <;> simp [MathOp.onFloats]))
  | label hl => exact hw.acts.joins_closed (.label hl) rfl rfl
  | jump hl => exact hw.acts.joins_closed (.jump hl) rfl rfl
  | branchFalse ho hl =>
    refine .bind (hw.joins_value ho) fun v v' hv => ?_
    rw [hw.isTruthy_eq hv]
    cases v'.isTruthy with
    | true => exact .pure .next
    | false => exact .bind (hw.acts.joins_goTo hl) fun _ _ _ => .pure .next
  | call hr ho name hos hp type =>
    refine .bind (hw.joins_value ho) fun v v' hv =>
      .bind (hw.joins_values hos) fun vs vs' hvs => ?_
    cases hp with
    | none => exact hw.acts.joins_call hr hv name hvs type .none
    | some hp =>
      exact .bind (hw.joins_block? hp) fun b b' hb => hw.acts.joins_call hr hv name hvs type hb
  | @defineClass r r' b b' o o' p p' hr hb ho hp =>
    refine .bind (hw.joins_value ho) fun v v' hv => ?_
    have hasks : Heap.asksSuperclass b v = Heap.asksSuperclass b' v' := by
      rw [Heap.asksSuperclass, hw.module?_eq hv, (hw.bodies hb).2, Heap.asksSuperclass]
    simp only [hasks]
    split
    · exact .bind (hw.joins_superclass? hp) fun x x' hx => hw.acts.joins_define hr hb hv hx
    · exact hw.acts.joins_define hr hb hv .none
  | setVisibility v => exact hw.acts.joins_closed (.setVisibility v) rfl rfl
  | putConst ho name hp =>
    refine .bind (hw.joins_value ho) fun v v' hv => ?_
    have hs := hw.shape hv
    cases v <;> cases v' <;> simp only [Value.SameShape, reduceCtorEq] at hs <;>
      first
        | (cases hs
           exact .bind (hw.joins_value hp) fun x x' hx s s' hs =>
             .ok .next (hw.setConstant _ name hs hx))
        | exact hw.acts.joins_throw (hw.thrown (.notModule hv))
  | searchConst hr name => exact hw.acts.joins_closed (.searchConst hr name) rfl rfl
  | yield hr ho hos =>
    exact .bind (hw.joins_yielded ho) fun b b' hb => .bind (hw.joins_values hos)
      fun vs vs' hvs => .pure (.call hr (hw.invokeBlock hb hvs))
  | ret ho => exact .bind (hw.joins_value ho) fun _ _ hv => .pure (.complete hv)
  | raise ho =>
    exact .bind (hw.joins_value ho) fun _ _ hv => hw.acts.joins_throw (hw.thrown (.raised hv))

end Laws

namespace Lawful

variable (hw : w.Lawful)

include hw

/-- Corresponding instructions do corresponding things. -/
theorem execute {i i' : Instr} (h : i.Like w.toCounterparts i') {s s' : Site}
    (hs : w.site s s') : w.Meets w.Outcomes w.after (i.execute s) (i'.execute s') := by
  have hafter : ∀ {x y : Exec Outcome}, w.Joins w.Outcomes x y →
      w.Meets w.Outcomes w.after (x s) (y s') := fun hjoins =>
    (hjoins s s' hs).mono (fun _ _ h => h) fun _ _ h => hw.after h
  cases hi : i.isLexical with
  | false => exact hafter (hw.toLaws.joins_execute h hi)
  | true =>
    cases h with
    | defineMethod name hb =>
      refine hafter (.bind hw.toLaws.acts.joins_frame fun f f' hf => ?_)
      exact fun s s' hs => .ok .next (hw.addMethod name hs hf hb)
    | processModuleBody hr ho =>
      exact hafter (hw.toLaws.joins_processModuleBody hw.invokeMethod hr ho)
    | buildClosure hr hb => exact hw.buildClosure hs hr hb
    | nonlocalRet ho => exact hafter (hw.toLaws.joins_nonlocalRet hw.findsHome ho)
    | _ => cases hi

end Lawful

end Correspondence

end ObjectIr
