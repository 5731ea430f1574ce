import ObjectIr.Machine.Run
import ObjectIr.Proofs.Effects

/-!
# Code and blocks within reach

Running code gets at bodies and blocks in many places: in values, in frames, on the heap, in the
activations under way. A `Vetting` says which bodies and which blocks are admitted, and `Vetted`
says of each of these places that all it leads to is. What is written to a vetted heap has to be
vetted; then all that is read from it, and every call that is dispatched on it, is vetted too.
-/

namespace ObjectIr

/-- Which bodies are admitted, and which blocks, by number, body and the scope they captured. -/
structure Vetting where
  body : Body → Prop
  block : Nat → Body → Option DynamicScope → Prop

def InstrOf.body? : Instr → Option Body
  | .defineMethod _ b | .defineClass _ b .. | .buildClosure _ b => some b
  | _ => none

def Vetting.Closed (w : Vetting) : Prop :=
  ∀ b, w.body b → ∀ i ∈ b.code, ∀ b', i.body? = some b' → w.body b'

section Definitions

variable (w : Vetting)

mutual

/-- All bodies and blocks that the value leads to are admitted. -/
def Value.Vetted : Value → Prop
  | .array _ vs => VettedAll vs
  | .method m => w.body m.body
  | .block ⟨id, body, receiver, scope?, _, _⟩ =>
    w.body body ∧ w.block id body scope? ∧ Vetted receiver
  | .nil | .bool _ | .fixnum _ | .float _ | .string _ | .symbol _ | .object _ | .module _ => True

def Value.VettedAll : List Value → Prop
  | [] => True
  | v :: vs => Vetted v ∧ VettedAll vs

end

def BlockOf.Vetted (b : Block) : Prop := (Value.block b).Vetted w

structure Frame.Vetted (f : Frame) : Prop where
  receiver : f.receiver.Vetted w
  block? : ∀ b, f.block? = some b → b.Vetted w

def Context.Vetted (c : Context) : Prop := ∀ f ∈ c.frames, f.Vetted w

structure Heap.Vetted (h : Heap) : Prop where
  methods : ∀ m name x, h.method? m name = some x → w.body x.body
  constants : ∀ m name v, h.constant? m name = some v → v.Vetted w
  slots : ∀ (c : ScopeCell), ∀ v ∈ h.slotsOf c, v.Vetted w

structure Invocation.Vetted (i : Invocation) : Prop where
  body : w.body i.body
  frame : i.frame.Vetted w
  args : ∀ v ∈ i.args, v.Vetted w
  answer? : ∀ v, i.answer? = some v → v.Vetted w

structure Activation.Vetted (a : Activation) : Prop where
  body : w.body a.body
  temps : ∀ t v, a.temps.get? t = some v → v.Vetted w
  args : ∀ v ∈ a.args, v.Vetted w
  receiver : a.receiver.Vetted w
  answer? : ∀ v, a.answer? = some v → v.Vetted w

structure Site.Vetted (s : Site) : Prop where
  heap : s.heap.Vetted w
  context : s.context.Vetted w
  activation : s.activation.Vetted w

/-- The values that an activation hands on as it ends. -/
def Ending.Vetted : Except Unwind Value → Prop
  | .ok v | .error (.return _ v) => v.Vetted w
  | .error (.failure _) => True

def Control.Vetted : Control → Prop
  | .running a => a.Vetted w
  | .leaving a r => a.Vetted w ∧ Ending.Vetted w r
  | .finished _ => True

structure Machine.Vetted (m : Machine) : Prop where
  heap : m.heap.Vetted w
  context : m.context.Vetted w
  control : m.control.Vetted w
  callers : ∀ c ∈ m.callers, c.activation.Vetted w

def Reply.Vetted : Reply → Prop
  | .value v => v.Vetted w
  | .invoke i => i.Vetted w

def Outcome.Vetted : Outcome → Prop
  | .next => True
  | .call _ i => i.Vetted w
  | .complete v | .return _ v => v.Vetted w

end Definitions

variable {w : Vetting}

theorem Value.vettedAll_iff {vs : List Value} : VettedAll w vs ↔ ∀ v ∈ vs, v.Vetted w := by
  induction vs with
  | nil => simp [VettedAll]
  | cons v vs ih => rw [VettedAll, ih, List.forall_mem_cons]

/-! ### Admitting more -/

section Mono

variable {w' : Vetting} (hb : ∀ b, w.body b → w'.body b)
  (hk : ∀ id b s, w.block id b s → w'.block id b s)

mutual

theorem Value.Vetted.mono (hb : ∀ b, w.body b → w'.body b)
    (hk : ∀ id b s, w.block id b s → w'.block id b s) : ∀ v : Value, v.Vetted w → v.Vetted w'
  | .array _ vs, h => VettedAll.mono hb hk vs h
  | .method m, h => hb m.body h
  | .block ⟨id, body, receiver, scope?, _, _⟩, h =>
    ⟨hb body h.1, hk id body scope? h.2.1, Value.Vetted.mono hb hk receiver h.2.2⟩
  | .nil, _ | .bool _, _ | .fixnum _, _ | .float _, _ | .string _, _ | .symbol _, _ | .object _, _
  | .module _, _ => trivial

theorem Value.VettedAll.mono (hb : ∀ b, w.body b → w'.body b)
    (hk : ∀ id b s, w.block id b s → w'.block id b s) :
    ∀ vs : List Value, VettedAll w vs → VettedAll w' vs
  | [], _ => trivial
  | v :: vs, h => ⟨Value.Vetted.mono hb hk v h.1, VettedAll.mono hb hk vs h.2⟩

end

include hb hk

theorem Context.Vetted.mono {c : Context} (h : c.Vetted w) : c.Vetted w' := fun f hf =>
  ⟨Value.Vetted.mono hb hk _ (h f hf).receiver,
    fun b hfb => Value.Vetted.mono hb hk (.block b) ((h f hf).block? b hfb)⟩

theorem Heap.Vetted.mono {h : Heap} (hh : h.Vetted w) : h.Vetted w' :=
  ⟨fun m name x hx => hb _ (hh.methods m name x hx),
    fun m name v hv => Value.Vetted.mono hb hk v (hh.constants m name v hv),
    fun c v hv => Value.Vetted.mono hb hk v (hh.slots c v hv)⟩

theorem Activation.Vetted.mono {a : Activation} (h : a.Vetted w) : a.Vetted w' :=
  ⟨hb _ h.body, fun t v hv => Value.Vetted.mono hb hk v (h.temps t v hv),
    fun v hv => Value.Vetted.mono hb hk v (h.args v hv), Value.Vetted.mono hb hk _ h.receiver,
    fun v hv => Value.Vetted.mono hb hk v (h.answer? v hv)⟩

theorem Machine.Vetted.mono {m : Machine} (h : m.Vetted w) : m.Vetted w' := by
  obtain ⟨heap, context, control, callers⟩ := m
  obtain ⟨hh, hc, hcontrol, hcallers⟩ := h
  refine ⟨hh.mono hb hk, hc.mono hb hk, ?_, fun c hc => (hcallers c hc).mono hb hk⟩
  cases control with
  | running a => exact Activation.Vetted.mono hb hk hcontrol
  | finished r => exact trivial
  | leaving a r =>
    refine ⟨Activation.Vetted.mono hb hk hcontrol.1, ?_⟩
    have hr := hcontrol.2
    rcases r with (f | ⟨target, v⟩) | v
    · exact trivial
    · exact Value.Vetted.mono hb hk v hr
    · exact Value.Vetted.mono hb hk v hr

end Mono

/-! ### Heaps -/

namespace Heap.Vetted

variable {h k : Heap}

theorem of_registers (hh : h.Vetted w) (hk : h.Registers k) : k.Vetted w where
  methods m name x hx := hh.methods m name x (by rw [← hk.methods]; exact hx)
  constants m name v hv := by
    rcases hk.constants m name v hv with hv | ⟨n, rfl⟩
    · exact hh.constants m name v hv
    · exact trivial
  slots c v hv := hh.slots c v (by rw [Heap.slotsOf, ← hk.slots]; exact hv)

theorem supply (hh : h.Vetted w) (n : Nat) : Heap.Vetted w { h with next.arrays := n } :=
  ⟨hh.methods, hh.constants, hh.slots⟩

theorem addMethod (hh : h.Vetted w) (m : Module) (name : String) {x : Method} (hx : w.body x.body) :
    (h.addMethod m name x).Vetted w where
  methods n b y hy := by
    rw [method?_addMethod] at hy
    split at hy
    · cases hy
      exact hx
    · exact hh.methods n b y hy
  constants n b v hv := hh.constants n b v (by rwa [constant?_addMethod] at hv)
  slots := hh.slots

theorem setConstant (hh : h.Vetted w) (m : Module) (name : String) {v : Value} (hv : v.Vetted w) :
    (h.setConstant m name v).Vetted w where
  methods n b y hy := hh.methods n b y (by rwa [method?_setConstant] at hy)
  constants n b x hx := by
    rw [constant?_setConstant] at hx
    split at hx
    · cases hx
      exact hv
    · exact hh.constants n b x hx
  slots := hh.slots

theorem newBlock (hh : h.Vetted w) (b : Body) (receiver : Value) (scope? : Option DynamicScope)
    (m : Module) (v : Visibility) : (h.newBlock b receiver scope? m v).2.Vetted w :=
  ⟨hh.methods, hh.constants, hh.slots⟩

theorem newScope (hh : h.Vetted w) (layout : StaticScope) (parent? : Option DynamicScope) :
    (h.newScope layout parent?).2.Vetted w where
  methods := hh.methods
  constants := hh.constants
  slots c v hv := by
    rw [slotsOf_newScope] at hv
    split at hv
    · rw [List.eq_of_mem_replicate hv]
      exact trivial
    · exact hh.slots c v hv

theorem writeLocal (hh : h.Vetted w) {s : DynamicScope} {depth offset : Nat} {v : Value}
    (hv : v.Vetted w) (hk : h.writeLocal s depth offset v = .ok k) : k.Vetted w := by
  obtain ⟨c, -, -, rfl⟩ := (writeLocal_eq_ok_iff h s depth offset v k).1 hk
  refine ⟨hh.methods, hh.constants, fun d x hx => ?_⟩
  simp only [slotsOf, Std.ExtTreeMap.getElem?_insert, Nat.compare_eq_eq] at hx
  split at hx
  · rcases List.mem_or_eq_of_mem_set hx with hx | rfl
    · exact hh.slots c x hx
    · exact hv
  · exact hh.slots d x hx

theorem readLocal (hh : h.Vetted w) {s : DynamicScope} {depth offset : Nat} {v : Value}
    (hv : h.readLocal s depth offset = .ok v) : v.Vetted w := by
  obtain ⟨c, -, hc⟩ := (readLocal_eq_ok_iff h s depth offset v).1 hv
  exact hh.slots c v (List.mem_of_getElem? hc)

theorem findMethod? (hh : h.Vetted w) {receiver : Value} {name : String} {m : Method}
    (hm : h.findMethod? receiver name = some m) : w.body m.body := by
  obtain ⟨n, -, hn⟩ := List.exists_of_findSome?_eq_some hm
  exact hh.methods n name m hn

theorem searchConstant (hh : h.Vetted w) {s : StaticScope} {m : Module} {name : String} {v : Value}
    (hv : h.searchConstant s m name = .ok v) : v.Vetted w := by
  rw [Heap.searchConstant] at hv
  split at hv
  · next hs =>
    cases hv
    obtain ⟨n, -, hn⟩ := List.exists_of_findSome?_eq_some hs
    exact hh.constants n name _ hn
  · cases hv

end Heap.Vetted

theorem Heap.define_body {h k : Heap} {body : Body} {container : Value}
    {superclass? : Option Value} {m : Method}
    (hk : h.define body container superclass? = .ok (m, k)) : m.body = body := by
  rw [Heap.define] at hk
  split at hk
  · cases hk
  · split at hk
    · cases hk
    · cases hk
      rfl

/-! ### Dispatch -/

section Dispatch

variable {c : Context} {receiver : Value} {name : String} {args : List Value}
  {block? : Option Block} (hr : receiver.Vetted w) (ha : ∀ v ∈ args, v.Vetted w)
  (hb : ∀ b, block? = some b → b.Vetted w)

include hr ha hb in
theorem Method.invocation_vetted {m : Method} (hm : w.body m.body) {i : Invocation}
    (hi : m.invocation c receiver name args block? = .ok i) : i.Vetted w := by
  obtain rfl := Method.invocation_eq hi
  exact ⟨hm, ⟨hr, hb⟩, ha, by rintro v ⟨⟩⟩

include ha in
theorem BlockOf.invocation_vetted {b : Block} (hv : b.Vetted w) : (b.invocation args).Vetted w :=
  ⟨hv.1, ⟨hv.2.2, by rintro b ⟨⟩⟩, ha, by rintro v ⟨⟩⟩

namespace Heap.Vetted

variable {h k : Heap} (hh : h.Vetted w)

include hr ha hb hh in
theorem dispatch {type : CallType} {q : Reply}
    (hq : h.dispatch c receiver name args block? type = .ok (q, k)) : q.Vetted w := by
  cases Heap.dispatch_dispatched hq with
  | method hm hi => exact Method.invocation_vetted hr ha hb (hh.findMethod? hm) hi
  | classOf | singleton | object => exact trivial
  | block hblock =>
    subst hblock
    exact BlockOf.invocation_vetted ha hr
  | @constructed m _ _ _ _ _ hm hi =>
    have hobject : (Value.object (h.newObject m).1).Vetted w := trivial
    have hv := Method.invocation_vetted hobject ha hb
      ((hh.of_registers (.newObject h m)).findMethod? hm) hi
    exact ⟨hv.body, hv.frame, hv.args, by rintro v ⟨⟩; exact trivial⟩

end Heap.Vetted

end Dispatch

end ObjectIr
