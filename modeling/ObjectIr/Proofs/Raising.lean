import ObjectIr.Proofs.Effects
import ObjectIr.Proofs.Temps

/-!
# Values that failures carry

A failure that carries a value to its caller was raised by code. What an instruction reads with, and
what it changes the heap with, fails for reasons of its own and carries none (`Quiet`).
-/

namespace ObjectIr

/-- The value that a failure carries. -/
def Failure.raised? : Failure → Option Value
  | .raised v => some v
  | _ => none

/-- A computation that does not fail with a value. -/
def Quiet {α : Type} (x : Except Failure α) : Prop := ∀ f, x = .error f → f.raised? = none

namespace Quiet

variable {α β : Type}

theorem ok (a : α) : Quiet (.ok a : Except Failure α) := by rintro f ⟨⟩

theorem error {f : Failure} (hf : f.raised? = none) : Quiet (.error f : Except Failure α) := by
  rintro g ⟨⟩
  exact hf

theorem bind {x : Except Failure α} {f : α → Except Failure β} (hx : Quiet x)
    (hf : ∀ a, Quiet (f a)) : Quiet (x >>= f) := by
  cases x with
  | ok a => exact hf a
  | error e => exact error (hx e rfl)

end Quiet

/-! ### Sites and the heap -/

theorem Temps.set_quiet (ts : Temps) (t : Temp) (v : Value) : Quiet (ts.set t v) := by
  rcases ts.set_cases t v with ⟨-, h⟩ | ⟨-, ⟨-, h⟩ | ⟨-, ts', h, -⟩⟩ <;> rw [h]
  · exact .error rfl
  · exact .error rfl
  · exact .ok ts'

theorem Heap.readLocal_quiet (h : Heap) (s : DynamicScope) (depth offset : Nat) :
    Quiet (h.readLocal s depth offset) := by
  unfold readLocal
  split
  · exact .ok _
  · exact .error rfl

theorem Heap.writeLocal_quiet (h : Heap) (s : DynamicScope) (depth offset : Nat) (v : Value) :
    Quiet (h.writeLocal s depth offset v) := by
  unfold writeLocal
  split
  · simp only
    split
    · exact .ok _
    · exact .error rfl
  · exact .error rfl

namespace Site

variable (s : Site)

theorem load_quiet (r : Variable) : Quiet (s.load r) := by
  cases r with
  | temp t =>
    rw [load]
    split
    · exact .ok _
    · exact .error rfl
  | lexical name depth offset =>
    rw [load]
    split
    · exact s.heap.readLocal_quiet _ _ _
    · exact .error rfl

theorem store_quiet (r : Variable) (v : Value) : Quiet (s.store r v) := by
  cases r with
  | temp t => exact .bind (s.activation.temps.set_quiet t v) fun ts => .ok _
  | lexical name depth offset =>
    rw [store]
    split
    · exact .bind (s.heap.writeLocal_quiet _ _ _ v) fun h => .ok _
    · exact .error rfl

theorem frame_quiet : Quiet s.frame := by
  rw [frame]
  split
  · exact .ok _
  · exact .error rfl

theorem scopeModule_quiet : Quiet s.scopeModule := by
  rw [scopeModule]
  split
  · exact .ok _
  · exact .bind s.frame_quiet fun f => .ok _

mutual

theorem evaluate_quiet : ∀ (o : Operand) (n : Nat) {f : Failure} {n' : Nat},
    s.evaluate o n = .error f n' → f.raised? = none
  | .var x, n, f, n', h => by
    rw [evaluate] at h
    cases hx : s.load x with
    | error e => rw [hx] at h; cases h; exact s.load_quiet x f hx
    | ok v => rw [hx] at h; cases h
  | .array os, n, f, n', h => by
    rw [evaluate] at h
    simp only [bind, EStateM.bind] at h
    cases hos : s.evaluateAll os n with
    | error e m => rw [hos] at h; cases h; exact evaluateAll_quiet os n hos
    | ok vs m => rw [hos] at h; cases h
  | .scopeModule, n, f, n', h => by
    rw [evaluate] at h
    cases hm : s.scopeModule with
    | error e => rw [hm] at h; cases h; exact s.scopeModule_quiet f hm
    | ok m => rw [hm] at h; cases h
  | .undefined, n, f, n', h | .body _, n, f, n', h => by cases h; rfl
  | .selfObject, n, f, n', h | .nil, n, f, n', h | .bool _, n, f, n', h | .fixnum _, n, f, n', h
  | .float _, n, f, n', h | .string _, n, f, n', h | .symbol _, n, f, n', h => by cases h

theorem evaluateAll_quiet : ∀ (os : List Operand) (n : Nat) {f : Failure} {n' : Nat},
    s.evaluateAll os n = .error f n' → f.raised? = none
  | [], n, f, n', h => by cases h
  | o :: os, n, f, n', h => by
    rw [evaluateAll] at h
    simp only [bind, EStateM.bind] at h
    cases ho : s.evaluate o n with
    | error e m => rw [ho] at h; cases h; exact evaluate_quiet o n ho
    | ok v m =>
      rw [ho] at h
      simp only at h
      cases hos : s.evaluateAll os m with
      | error e m' => rw [hos] at h; cases h; exact evaluateAll_quiet os m hos
      | ok vs m' => rw [hos] at h; cases h

end

end Site

theorem Method.invocation_quiet (m : Method) (c : Context) (receiver : Value) (name : String)
    (args : List Value) (block? : Option Block) :
    Quiet (m.invocation c receiver name args block?) := by
  rw [invocation]
  split
  · exact .ok _
  · exact .error rfl

namespace Heap

variable (h : Heap)

theorem singletonClass_quiet (v : Value) : Quiet (h.singletonClass v) := by
  unfold singletonClass
  split
  · exact .ok _
  · cases v <;> first | exact .ok _ | exact .error rfl

theorem searchConstant_quiet (s : StaticScope) (m : Module) (name : String) :
    Quiet (h.searchConstant s m name) := by
  rw [searchConstant]
  split
  · exact .ok _
  · exact .error rfl

theorem dispatch_quiet (c : Context) (receiver : Value) (name : String) (args : List Value)
    (block? : Option Block) (type : CallType) :
    Quiet (h.dispatch c receiver name args block? type) := by
  have hreflect : Quiet (builtin.reflect h receiver name args
      (.error (.method (.undefined name receiver.described)))) := by
    rw [builtin.reflect]
    split
    · exact .ok _
    · split
      · exact .bind (h.singletonClass_quiet receiver) fun p => .ok _
      · exact .error rfl
  rw [dispatch]
  split
  · simp only [builtin]
    split
    · split
      · simp only [instantiate]
        split
        · exact .bind (Method.invocation_quiet _ c _ _ args block?) fun i => .ok _
        · split
          · exact .ok _
          · exact .error rfl
      · exact hreflect
    · split
      · exact .ok _
      · exact hreflect
    · exact hreflect
  · split
    · exact .error rfl
    · exact .bind (Method.invocation_quiet _ c _ _ args block?) fun i => .ok _

theorem define_quiet (body : Body) (container : Value) (superclass? : Option Value) :
    Quiet (h.define body container superclass?) := by
  have hclass : ∀ c s?, Quiet (h.openClass c body.name s?) := by
    intro c s?
    simp only [openClass]
    repeat' split
    all_goals first | exact .ok _ | exact .error rfl
  have hmodule : ∀ c, Quiet (h.openModule c body.name) := by
    intro c
    simp only [openModule]
    repeat' split
    all_goals first | exact .ok _ | exact .error rfl
  have hsuper : ∀ v : Value, Quiet v.asSuperclass := by
    intro v
    unfold Value.asSuperclass
    repeat' split
    all_goals first | exact .ok _ | exact .error rfl
  have hopen : ∀ c, Quiet (h.openBody body c superclass?) := by
    intro c
    unfold openBody
    split
    · exact h.singletonClass_quiet _
    · exact hmodule c
    · split
      · exact hclass c none
      · split
        · next f hf => exact .error (hsuper _ f hf)
        · exact hclass c _
    · exact .error rfl
  rw [define]
  split
  · exact .error rfl
  · split
    · next c _ _ f hf => exact .error (hopen c f hf)
    · exact .ok _

end Heap

/-! ### Operands -/

namespace Exec

theorem value_quiet {o : Operand} {s t : Site} {f : Failure} (h : value o s = .error f t) :
    f.raised? = none := by
  unfold value reading EStateM.run at h
  split at h
  · cases h
  · next hf => cases h; exact s.evaluate_quiet o _ hf

theorem toFixnum_quiet (v : Value) : Quiet (toFixnum v) := by
  cases v <;> first | exact .ok _ | exact .error rfl

theorem toFloat_quiet (v : Value) : Quiet (toFloat v) := by
  cases v <;> first | exact .ok _ | exact .error rfl

theorem toBlock?_quiet (v : Value) : Quiet (toBlock? v) := by
  cases v <;> first | exact .ok _ | exact .error rfl

theorem required_quiet (b? : Option Block) : Quiet (required b?) := by
  cases b? <;> first | exact .ok _ | exact .error rfl

end Exec

end ObjectIr
