import ObjectIr.Proofs.Correspondence.Execution
import ObjectIr.Proofs.Vetting.Steps

/-!
# Correspondence on one heap

Where both executions have the same heap, the same stacks and the same values, the laws of values
and of the heap hold as soon as the sites stay in correspondence under later heaps
(`Correspondence.Equal`). Definitions and calls fail for reasons of their own, never for want of a
place (`Heap.dispatch_isPlain`, `Heap.define_isPlain`).
-/

namespace ObjectIr

/-- Temporaries, jumps, scopes and frames that are not there. -/
def InternalFault.isMissing : InternalFault → Bool
  | .outsideTemps _ | .undefinedJump _ | .noScope .. | .noSlot .. | .noFrame => true
  | .undefinedOperand | .bodyOperand _ | .notModuleBody .. => false

/-- No fault of a missing place. -/
def Failure.IsPlain (f : Failure) : Prop := ∀ fault, f = .internal fault → fault.isMissing = false

theorem Failure.isPlain_of_ne {f : Failure} (h : ∀ fault, f ≠ .internal fault) : f.IsPlain :=
  fun fault hf => absurd hf (h fault)

theorem Method.invocation_isPlain {m : Method} {c : Context} {receiver : Value} {name : String}
    {args : List Value} {block? : Option Block} {f : Failure}
    (h : m.invocation c receiver name args block? = .error f) : f.IsPlain := by
  simp only [Method.invocation] at h
  split at h
  · cases h
  · cases h
    exact Failure.isPlain_of_ne (by simp)

namespace Heap

variable {h : Heap} {f : Failure}

theorem singletonClass_isPlain {owner : Value} (hf : h.singletonClass owner = .error f) :
    f.IsPlain := by
  unfold singletonClass at hf
  split at hf
  · cases hf
  · cases owner <;> cases hf
    all_goals exact Failure.isPlain_of_ne (by simp)

theorem instantiate_isPlain {c : Context} {m : Module} {args : List Value} {block? : Option Block}
    (hf : h.instantiate c m args block? = .error f) : f.IsPlain := by
  simp only [instantiate] at hf
  split at hf
  · next method _ =>
    cases hi : method.invocation c (.object (h.newObject m).1) "initialize" args block? with
    | error g =>
      rw [hi] at hf
      cases hf
      exact Method.invocation_isPlain hi
    | ok i => rw [hi] at hf; cases hf
  · split at hf
    · cases hf
    · cases hf
      exact Failure.isPlain_of_ne (by simp)

theorem builtin_isPlain {c : Context} {receiver : Value} {name : String} {args : List Value}
    {block? : Option Block} (hf : h.builtin c receiver name args block? = .error f) :
    f.IsPlain := by
  have hreflect : ∀ {missing : MissingMethod},
      builtin.reflect h receiver name args (.error (.method missing)) = .error f → f.IsPlain := by
    intro missing hf
    unfold builtin.reflect at hf
    split at hf
    · cases hf
    · split at hf
      · cases hs : h.singletonClass receiver with
        | error g =>
          rw [hs] at hf
          cases hf
          exact singletonClass_isPlain hs
        | ok p => rw [hs] at hf; cases hf
      · cases hf
        exact Failure.isPlain_of_ne (by simp)
  simp only [builtin] at hf
  split at hf
  · split at hf
    · exact instantiate_isPlain hf
    · exact hreflect hf
  · split at hf
    · cases hf
    · exact hreflect hf
  · exact hreflect hf

theorem dispatch_isPlain {c : Context} {receiver : Value} {name : String} {args : List Value}
    {block? : Option Block} {type : CallType}
    (hf : h.dispatch c receiver name args block? type = .error f) : f.IsPlain := by
  unfold dispatch at hf
  split at hf
  · exact builtin_isPlain hf
  · next m _ =>
    split at hf
    · cases hf
      exact Failure.isPlain_of_ne (by simp)
    · cases hi : m.invocation c receiver name args block? with
      | error g =>
        rw [hi] at hf
        cases hf
        exact Method.invocation_isPlain hi
      | ok i => rw [hi] at hf; cases hf

theorem openBody_isPlain {body : Body} {container : Module} {superclass? : Option Value}
    (hf : h.openBody body container superclass? = .error f) : f.IsPlain := by
  have hopen : ∀ {superclass? : Option Module},
      h.openClass container body.name superclass? = .error f → f.IsPlain := by
    intro superclass? hf
    simp only [openClass] at hf
    repeat' split at hf
    all_goals cases hf
    all_goals exact Failure.isPlain_of_ne (by simp)
  unfold openBody at hf
  split at hf
  · exact singletonClass_isPlain hf
  · simp only [openModule] at hf
    repeat' split at hf
    all_goals cases hf
    all_goals exact Failure.isPlain_of_ne (by simp)
  · split at hf
    · exact hopen hf
    · split at hf
      · next v _ g hv =>
        cases hf
        unfold Value.asSuperclass at hv
        repeat' split at hv
        all_goals cases hv
        all_goals exact Failure.isPlain_of_ne (by simp)
      · exact hopen hf
  · cases hf
    intro fault hfault
    cases hfault
    rfl

theorem define_isPlain {body : Body} {container : Value} {superclass? : Option Value}
    (hf : h.define body container superclass? = .error f) : f.IsPlain := by
  unfold define at hf
  split at hf
  · cases hf
    exact Failure.isPlain_of_ne (by simp)
  · split at hf
    · next g hg =>
      cases hf
      exact openBody_isPlain hg
    · cases hf

theorem searchConstant_isPlain {s : StaticScope} {m : Module} {name : String}
    (hf : h.searchConstant s m name = .error f) : f.IsPlain := by
  unfold searchConstant at hf
  split at hf <;> cases hf
  exact Failure.isPlain_of_ne (by simp)

end Heap

/-- Values, frames, calls and nested bodies correspond only to themselves, on one heap. -/
structure Correspondence.Equal (w : Correspondence) : Prop where
  value : w.value = Eq
  body : w.body = Eq
  frame : w.frame = Eq
  invocation : w.invocation = Eq
  plain : ∀ f, f.IsPlain → w.failure f f
  heap : ∀ {s s'}, w.site s s' → s.heap = s'.heap
  context : ∀ {s s'}, w.site s s' → s.context = s'.context
  scope : ∀ {s s'}, w.site s s' → s.activation.body.scope = s'.activation.body.scope
  noFrame : ∀ {s s'}, w.site s s' → s.context.frames = [] →
    w.failure (.internal .noFrame) (.internal .noFrame)
  setHeap : ∀ {s s'} (h : Heap), w.site s s' → s.heap.Grows h →
    w.site { s with heap := h } { s' with heap := h }
  setContext : ∀ {s s'} (c : Context), w.site s s' → c.frames.length = s.context.frames.length →
    w.site { s with context := c } { s' with context := c }

namespace Correspondence.Equal

variable {w : Correspondence} (hw : w.Equal)

include hw

theorem blocks_eq {b? b?' : Option Block}
    (h : Option.Rel (fun b b' : Block => w.value (.block b) (.block b')) b? b?') : b? = b?' := by
  rw [hw.value] at h
  cases h with
  | none => rfl
  | some h => rw [Value.block.inj h]

theorem values_eq {vs vs' : List Value} (h : List.Forall₂ w.value vs vs') : vs = vs' := by
  rw [hw.value] at h
  exact List.forall₂_eq_eq_eq ▸ h

theorem valueLaws : w.ValueLaws where
  shape {v v'} h := by
    rw [hw.value] at h
    subst h
    cases v <;> simp [Value.SameShape]
  plain _ _ _ := by rw [hw.value]
  array n vs vs' h := by rw [hw.values_eq h, hw.value]
  thrown {f g} h := by
    rw [hw.value] at h
    have hplain : f = g ∧ f.IsPlain := by
      cases h with
      | undefinedOperand | bodyOperand =>
        refine ⟨rfl, ?_⟩
        rintro fault ⟨⟩
        rfl
      | notModuleBody h | notModule h | raised h =>
        subst h
        exact ⟨rfl, Failure.isPlain_of_ne (by simp)⟩
      | _ => exact ⟨rfl, Failure.isPlain_of_ne (by simp)⟩
    rw [← hplain.1]
    exact hw.plain f hplain.2
  bodies h := by
    rw [hw.body] at h
    subst h
    exact ⟨rfl, rfl⟩
  blockOf {f f'} h := by
    rw [hw.frame] at h
    subst h
    rw [hw.value]
    cases f.block? with
    | none => exact .none
    | some b => exact .some rfl
  invokeBlock h hvs := by
    rw [hw.value] at h
    rw [Value.block.inj h, hw.values_eq hvs, hw.invocation]

/-- One computation, whose failures are plain. -/
theorem pairs_self {α : Type} {rel : α → α → Prop} {x : Except Failure α}
    (hok : ∀ a, x = .ok a → rel a a) (herror : ∀ f, x = .error f → f.IsPlain) :
    w.Pairs rel x x := by
  cases x with
  | ok a => exact .ok (hok a rfl)
  | error f => exact .error (hw.plain f (herror f rfl))

theorem frame_pairs {s s' : Site} (hs : w.site s s') : w.Pairs Eq s.frame s'.frame := by
  have hn := hw.noFrame hs
  rw [Site.frame, Site.frame, ← hw.context hs, Context.currentFrame?]
  cases hf : s.context.frames with
  | nil => exact .error (hn hf)
  | cons f fs => exact .ok rfl

theorem heapLaws : w.HeapLaws where
  frame hs := by
    rw [hw.frame]
    exact hw.frame_pairs hs
  scopeModule {s s'} hs := by
    rw [Site.scopeModule, Site.scopeModule, ← hw.heap hs, ← hw.scope hs]
    cases s.heap.lexicalModule? s.activation.body.scope with
    | some m => exact .ok rfl
    | none => exact (hw.frame_pairs hs).bind fun f f' hf => .ok (by rw [hf])
  dispatch name type hs hv hvs hb := by
    rw [hw.value] at hv
    rw [← hv, ← hw.values_eq hvs, ← hw.blocks_eq hb, ← hw.heap hs, ← hw.context hs]
    refine hw.pairs_self (fun p hp => ⟨?_, ?_⟩) fun f hf => Heap.dispatch_isPlain hf
    · cases p.1 with
      | value v => exact .value (by rw [hw.value])
      | invoke i => exact .invoke (by rw [hw.invocation])
    · exact hw.setHeap _ hs (.of_registers (Heap.Registers.dispatch hp))
  define {s s' b b' v v' x x'} hs hb hv hx := by
    rw [hw.body] at hb
    rw [hw.value] at hv hx
    have hx : x = x' := by
      cases hx with
      | none => rfl
      | some h => rw [h]
    rw [← hb, ← hv, ← hx, ← hw.heap hs]
    refine hw.pairs_self (fun p hp => ⟨by rw [hw.value], ?_⟩) fun f hf => Heap.define_isPlain hf
    exact hw.setHeap _ hs (.of_registers (Heap.Registers.define hp))
  setConstant m name hs hv := by
    rw [hw.value] at hv
    rw [← hv, ← hw.heap hs]
    exact hw.setHeap _ hs (.setConstant _ _ _ _)
  searchConstant name hs hf := by
    rw [hw.frame] at hf
    rw [← hf, ← hw.heap hs, ← hw.scope hs]
    exact hw.pairs_self (fun v _ => by rw [hw.value]) fun f hf => Heap.searchConstant_isPlain hf
  setVisibility {s s'} v hs := by
    rw [← hw.context hs, Context.setVisibility?]
    cases hf : s.context.frames with
    | nil => exact .none
    | cons f fs => exact .some (hw.setContext _ hs (by simp [hf]))
  noFrame {s s'} v hs hv := by
    refine hw.noFrame hs ?_
    rw [Context.setVisibility?] at hv
    cases hf : s.context.frames with
    | nil => rfl
    | cons f fs => rw [hf] at hv; cases hv

/-- All that is left to ask for is what an activation reads, sets and captures. -/
theorem lawful (hlaws : w.SiteLaws) (hhome : w.FindsHome)
    (hcapture : ∀ s s', w.site s s' → s.captureScope.1 = s'.captureScope.1 ∧
      w.site s.captureScope.2 s'.captureScope.2) : w.Lawful where
  toValueLaws := hw.valueLaws
  toSiteLaws := hlaws
  toHeapLaws := hw.heapLaws
  findsHome := hhome
  addMethod {s s' f f' b b'} name hs hf hb := by
    rw [hw.frame] at hf
    rw [hw.body] at hb
    rw [← hf, ← hb, ← hw.heap hs]
    exact hw.setHeap _ hs (.trans (.of_registers (.newMethod s.heap b _ _)) (.addMethod _ _ _ _))
  invokeMethod hs hm := by
    rw [hw.value] at hm
    rw [← Value.method.inj hm, ← hw.context hs]
    exact hw.pairs_self (fun i _ => by rw [hw.invocation]) fun f hf => Method.invocation_isPlain hf
  buildClosure {s s' r r' b b'} hs hr hb := by
    rw [hw.body] at hb
    subst hb
    have hframe := hw.frame_pairs hs
    rw [execute_buildClosure, execute_buildClosure]
    generalize s.frame = x at hframe
    generalize s'.frame = y at hframe
    cases hframe with
    | error h => exact .error h (hlaws.after hs)
    | @ok f f' hff =>
      obtain ⟨hscope, ht⟩ := hcapture s s' hs
      have hreceiver := hlaws.receiver ht
      rw [hw.value] at hreceiver
      simp only [← hff, ← hscope, ← hreceiver, ← hw.heap ht]
      exact hlaws.meets_store (hw.setHeap _ ht (.newBlock _ _ _ _ _ _)) hr (by rw [hw.value])

end Correspondence.Equal

end ObjectIr
