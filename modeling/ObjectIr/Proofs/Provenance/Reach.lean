import ObjectIr.Proofs.Runs
import ObjectIr.Proofs.Temps

/-!
# Where blocks and methods come from

Blocks and methods are made in one place and run in another. In between they are held by values,
frames, slots and activations. A `Keeping` says which blocks and which methods values may be or
hold, and `Kept` says of each part of a machine that it holds no others. Methods that are public are
always among them, so that only the making of a block needs looking at.
-/

namespace ObjectIr

/-- Blocks and methods that values may be, all public methods among the latter. -/
structure Keeping where
  block : Block → Prop
  method : Method → Prop
  method_of_public : ∀ x, x.visibility = .public → method x

/-- The second keeping has all of the first. -/
structure Keeping.Within (w w' : Keeping) : Prop where
  block : ∀ b, w.block b → w'.block b
  method : ∀ x, w.method x → w'.method x

section Definitions

variable (w : Keeping)

mutual

def Value.Kept : Value → Prop
  | .array _ vs => KeptAll vs
  | .method x => w.method x
  | .block ⟨id, body, receiver, scope?, m, v⟩ =>
    w.block ⟨id, body, receiver, scope?, m, v⟩ ∧ Kept receiver
  | .nil | .bool _ | .fixnum _ | .float _ | .string _ | .symbol _ | .object _ | .module _ => True

def Value.KeptAll : List Value → Prop
  | [] => True
  | v :: vs => Kept v ∧ KeptAll vs

end

def BlockOf.Kept (b : Block) : Prop := (Value.block b).Kept w

structure Frame.Kept (f : Frame) : Prop where
  receiver : f.receiver.Kept w
  block? : ∀ b, f.block? = some b → b.Kept w

def Context.Kept (c : Context) : Prop := ∀ f ∈ c.frames, f.Kept w

structure Heap.Kept (h : Heap) : Prop where
  constants : ∀ m name v, h.constant? m name = some v → v.Kept w
  slots : ∀ (c : ScopeCell), ∀ v ∈ h.slotsOf c, v.Kept w

structure Invocation.Kept (i : Invocation) : Prop where
  frame : i.frame.Kept w
  args : ∀ v ∈ i.args, v.Kept w
  answer? : ∀ v, i.answer? = some v → v.Kept w

structure Activation.Kept (a : Activation) : Prop where
  temps : ∀ t v, a.temps.get? t = some v → v.Kept w
  args : ∀ v ∈ a.args, v.Kept w
  receiver : a.receiver.Kept w
  answer? : ∀ v, a.answer? = some v → v.Kept w

structure Site.Kept (s : Site) : Prop where
  heap : s.heap.Kept w
  context : s.context.Kept w
  activation : s.activation.Kept w

/-- What an activation hands on as it ends. Code never gets at what was raised. -/
def Ending.Kept : Except Unwind Value → Prop
  | .ok v | .error (.return _ v) => v.Kept w
  | .error (.failure _) => True

def Control.Kept : Control → Prop
  | .running a => a.Kept w
  | .leaving a r => a.Kept w ∧ Ending.Kept w r
  | .finished _ => True

structure Machine.Kept (m : Machine) : Prop where
  heap : m.heap.Kept w
  context : m.context.Kept w
  control : m.control.Kept w
  callers : ∀ c ∈ m.callers, c.activation.Kept w

def Reply.Kept : Reply → Prop
  | .value v => v.Kept w
  | .invoke i => i.Kept w

def Outcome.Kept : Outcome → Prop
  | .next => True
  | .call _ i => i.Kept w
  | .complete v | .return _ v => v.Kept w

end Definitions

variable {w w' : Keeping}

theorem Value.keptAll_iff {vs : List Value} : KeptAll w vs ↔ ∀ v ∈ vs, v.Kept w := by
  induction vs with
  | nil => simp [KeptAll]
  | cons v vs ih => rw [KeptAll, ih, List.forall_mem_cons]

/-! ### More blocks and methods -/

section Mono

mutual

theorem Value.Kept.mono (hw : w.Within w') : ∀ {v : Value}, v.Kept w → v.Kept w'
  | .array _ _, h => KeptAll.mono hw h
  | .method x, h => hw.method x h
  | .block ⟨_, _, _, _, _, _⟩, h => ⟨hw.block _ h.1, Value.Kept.mono hw h.2⟩
  | .nil, _ | .bool _, _ | .fixnum _, _ | .float _, _ | .string _, _ | .symbol _, _ | .object _, _
  | .module _, _ => trivial

theorem Value.KeptAll.mono (hw : w.Within w') : ∀ {vs : List Value}, KeptAll w vs → KeptAll w' vs
  | [], _ => trivial
  | _ :: _, h => ⟨Value.Kept.mono hw h.1, KeptAll.mono hw h.2⟩

end

variable (hw : w.Within w')

include hw

theorem Context.Kept.mono {c : Context} (h : c.Kept w) : c.Kept w' := fun f hf =>
  ⟨(h f hf).receiver.mono hw, fun b hb => Value.Kept.mono hw ((h f hf).block? b hb)⟩

theorem Heap.Kept.mono {h : Heap} (hh : h.Kept w) : h.Kept w' :=
  ⟨fun m name v hv => (hh.constants m name v hv).mono hw, fun c v hv => (hh.slots c v hv).mono hw⟩

theorem Activation.Kept.mono {a : Activation} (h : a.Kept w) : a.Kept w' :=
  ⟨fun t v hv => (h.temps t v hv).mono hw, fun v hv => (h.args v hv).mono hw, h.receiver.mono hw,
    fun v hv => (h.answer? v hv).mono hw⟩

theorem Machine.Kept.mono {m : Machine} (h : m.Kept w) : m.Kept w' := by
  obtain ⟨heap, context, control, callers⟩ := m
  obtain ⟨hh, hc, hcontrol, hcallers⟩ := h
  refine ⟨hh.mono hw, hc.mono hw, ?_, fun c hc => (hcallers c hc).mono hw⟩
  cases control with
  | running a => exact Activation.Kept.mono hw hcontrol
  | finished r => exact trivial
  | leaving a r =>
    refine ⟨Activation.Kept.mono hw hcontrol.1, ?_⟩
    have hr := hcontrol.2
    rcases r with (f | ⟨target, v⟩) | v
    · exact trivial
    · exact Value.Kept.mono hw hr
    · exact Value.Kept.mono hw hr

end Mono

/-! ### Heaps -/

namespace Heap.Kept

variable {h k : Heap} (hh : h.Kept w)

include hh

theorem of_registers (hk : h.Registers k) : k.Kept w where
  constants m name v hv := by
    rcases hk.constants m name v hv with hv | ⟨n, rfl⟩
    · exact hh.constants m name v hv
    · exact trivial
  slots c v hv := hh.slots c v (by rw [Heap.slotsOf, ← hk.slots]; exact hv)

theorem supply (n : Supply) : Heap.Kept w { h with next := n } := ⟨hh.constants, hh.slots⟩

theorem addMethod (m : Module) (name : String) (x : Method) : (h.addMethod m name x).Kept w :=
  ⟨fun n b v hv => hh.constants n b v (by rwa [constant?_addMethod] at hv), hh.slots⟩

theorem setConstant (m : Module) (name : String) {v : Value} (hv : v.Kept w) :
    (h.setConstant m name v).Kept w where
  constants n b x hx := by
    rw [constant?_setConstant] at hx
    split at hx
    · cases hx
      exact hv
    · exact hh.constants n b x hx
  slots := hh.slots

theorem newScope (layout : StaticScope) (parent? : Option DynamicScope) :
    (h.newScope layout parent?).2.Kept w where
  constants := hh.constants
  slots c v hv := by
    rw [slotsOf_newScope] at hv
    split at hv
    · rw [List.eq_of_mem_replicate hv]
      exact trivial
    · exact hh.slots c v hv

theorem writeLocal {s : DynamicScope} {depth offset : Nat} {v : Value} (hv : v.Kept w)
    (hk : h.writeLocal s depth offset v = .ok k) : k.Kept w := by
  obtain ⟨c, -, -, rfl⟩ := (writeLocal_eq_ok_iff h s depth offset v k).1 hk
  refine ⟨hh.constants, fun d x hx => ?_⟩
  rw [slotsOf_insert] at hx
  split at hx
  · rcases List.mem_or_eq_of_mem_set hx with hx | rfl
    · exact hh.slots c x hx
    · exact hv
  · exact hh.slots d x hx

theorem readLocal {s : DynamicScope} {depth offset : Nat} {v : Value}
    (hv : h.readLocal s depth offset = .ok v) : v.Kept w := by
  obtain ⟨c, -, hc⟩ := (readLocal_eq_ok_iff h s depth offset v).1 hv
  exact hh.slots c v (List.mem_of_getElem? hc)

theorem searchConstant {s : StaticScope} {m : Module} {name : String} {v : Value}
    (hv : h.searchConstant s m name = .ok v) : v.Kept w := by
  rw [Heap.searchConstant] at hv
  split at hv
  · next hs =>
    cases hv
    obtain ⟨n, -, hn⟩ := List.exists_of_findSome?_eq_some hs
    exact hh.constants n name _ hn
  · cases hv

end Heap.Kept

/-! ### Calls -/

section Calls

variable {h k : Heap} {c : Context} {receiver : Value} {name : String} {args : List Value}
  {block? : Option Block} (hr : receiver.Kept w) (ha : ∀ v ∈ args, v.Kept w)
  (hb : ∀ b, block? = some b → b.Kept w)

include ha

theorem BlockOf.invocation_kept {b : Block} (hv : b.Kept w) : (b.invocation args).Kept w :=
  ⟨⟨hv.2, by rintro b ⟨⟩⟩, ha, by rintro v ⟨⟩⟩

include hr hb

/-- Methods that are called need not be values, whatever their visibility. -/
theorem Method.invocation_kept {m : Method} {i : Invocation}
    (hi : m.invocation c receiver name args block? = .ok i) : i.Kept w := by
  obtain rfl := Method.invocation_eq hi
  exact ⟨⟨hr, hb⟩, ha, by rintro v ⟨⟩⟩

theorem Heap.dispatch_kept {type : CallType} {q : Reply}
    (hq : h.dispatch c receiver name args block? type = .ok (q, k)) : q.Kept w := by
  cases Heap.dispatch_dispatched hq with
  | method _ hi => exact Method.invocation_kept hr ha hb hi
  | classOf | singleton | object => exact trivial
  | block hblock =>
    subst hblock
    exact BlockOf.invocation_kept ha hr
  | @constructed m _ _ _ _ _ _ hi =>
    have hobject : (Value.object (h.newObject m).1).Kept w := trivial
    have hv := Method.invocation_kept hobject ha hb hi
    exact ⟨hv.frame, hv.args, by rintro v ⟨⟩; exact trivial⟩

end Calls

theorem Heap.define_public {h k : Heap} {body : Body} {container : Value}
    {superclass? : Option Value} {x : Method}
    (hk : h.define body container superclass? = .ok (x, k)) :
    x.visibility = .public ∧ h.next.methods ≤ x.id := by
  rw [Heap.define] at hk
  split at hk
  · cases hk
  · split at hk
    · cases hk
    · next hopen =>
      cases hk
      exact ⟨rfl, (Heap.Registers.openBody hopen).numbered⟩

end ObjectIr
