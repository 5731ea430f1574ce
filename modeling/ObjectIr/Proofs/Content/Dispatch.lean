import ObjectIr.Machine.Dispatch
import ObjectIr.Proofs.Content.Heap

/-!
# Calls of like content

A call on a receiver and arguments of like content comes to the same: it finds the same method,
and starts it with the same content, or fails alike (`dispatch_agree`).
-/

namespace ObjectIr

def Frame.content (f : Frame) : Frame :=
  { f with receiver := f.receiver.content, block? := f.block?.map BlockOf.content }

namespace Context

def content (c : Context) : Context := { c with frames := c.frames.map Frame.content }

def Alike (c c' : Context) : Prop := c.content = c'.content

@[refl] theorem Alike.refl (c : Context) : c.Alike c := rfl

theorem currentScope?_content (c : Context) : c.content.currentScope? = c.currentScope? := rfl

theorem frameDepth_content (c : Context) : c.content.frameDepth = c.frameDepth :=
  List.length_map _

theorem currentFrame?_content (c : Context) :
    c.content.currentFrame? = c.currentFrame?.map Frame.content := List.head?_map

theorem popFrame_content (c : Context) : c.popFrame.content = c.content.popFrame := by
  obtain ⟨fs, ss, st⟩ := c
  cases fs <;> rfl

theorem popScope_content (c : Context) : c.popScope.content = c.content.popScope := by
  obtain ⟨fs, ss, st⟩ := c
  cases ss <;> rfl

theorem pushScope_content (c : Context) (s : DynamicScope) (origin : ScopeOrigin) :
    (c.pushScope s origin).content = c.content.pushScope s origin := rfl

theorem setVisibility?_content (c : Context) (v : Visibility) :
    (c.setVisibility? v).map content = c.content.setVisibility? v := by
  obtain ⟨fs, ss, st⟩ := c
  cases fs <;> rfl

namespace Alike

variable {c c' : Context} (hc : c.Alike c')

include hc

theorem currentScope?_eq : c.currentScope? = c'.currentScope? := by
  rw [← currentScope?_content, hc, currentScope?_content]

theorem pushFrame_agree (limit : Nat) {f f' : Frame} (hf : f.content = f'.content) :
    Agree Alike (c.pushFrame limit f) (c'.pushFrame limit f') := by
  unfold pushFrame
  rw [← c.frameDepth_content, hc, frameDepth_content]
  split
  · exact .error rfl
  · refine .ok ?_
    simp only [Alike, content, Context.mk.injEq] at hc
    obtain ⟨hframes, hscopes, hstats⟩ := hc
    simp only [Alike, content, List.map_cons, hf, hframes, hscopes, hstats]

end Alike

end Context

def Invocation.content (i : Invocation) : Invocation :=
  { i with
    frame := i.frame.content
    args := i.args.map Value.content
    answer? := i.answer?.map Value.content }

def Reply.content : Reply → Reply
  | .value v => .value v.content
  | .invoke i => .invoke i.content

theorem Value.Alike.described_eq {v w : Value} (h : v.Alike w) : v.described = w.described := by
  rcases h.cases with rfl | ⟨i, j, vs, ws, rfl, rfl, -⟩ | ⟨b, c, rfl, rfl, -⟩ <;> rfl

section Calls

variable {c c' : Context} (hc : c.Alike c') {v w : Value} (hv : v.Alike w)
  {args args' : List Value} (ha : args.map Value.content = args'.map Value.content)
  {block? block?' : Option Block}
  (hb : block?.map BlockOf.content = block?'.map BlockOf.content) (name : String)

include hc hv ha hb in
theorem Method.invocation_agree (m : Method) :
    Agree (fun i i' => i.content = i'.content) (m.invocation c v name args block?)
      (m.invocation c' w name args' block?') := by
  have hlen : args.length = args'.length := by
    simpa only [List.length_map] using congrArg List.length ha
  unfold Method.invocation
  simp only [hlen]
  split
  · refine .ok ?_
    simp only [Invocation.content, Frame.content, ha, hb, hc.currentScope?_eq,
      show v.content = w.content from hv]
  · exact .error rfl

include ha in
theorem BlockOf.invocation_content {b b' : Block} (h : b.content = b'.content) :
    (b.invocation args).content = (b'.invocation args').content := by
  obtain ⟨id, body, r, s, m, vis⟩ := b
  obtain ⟨id', body', r', s', m', vis'⟩ := b'
  simp only [BlockOf.content, BlockOf.mk.injEq] at h
  obtain ⟨rfl, rfl, hr, rfl, rfl, rfl⟩ := h
  simp only [BlockOf.invocation, Invocation.content, Frame.content, ha, hr]

namespace Heap.Alike

variable {h h' : Heap} (H : h.Alike h')

/-- The answers of two calls: values or invocations of like content, on heaps that are alike. -/
abbrev Replied : Reply × Heap → Reply × Heap → Prop :=
  Made fun r r' => r.content = r'.content

include H hc ha hb in
theorem instantiate_agree (m : Module) :
    Agree Replied (h.instantiate c m args block?) (h'.instantiate c' m args' block?') := by
  obtain ⟨ho, hh⟩ := H.newObject m
  have hlen : args.length = args'.length := by
    simpa only [List.length_map] using congrArg List.length ha
  have hemp : args.isEmpty = args'.isEmpty := by
    simpa only [List.isEmpty_map] using congrArg List.isEmpty ha
  unfold instantiate
  simp only [← hh.findMethod?_eq (show (Value.object (h.newObject m).1).Alike
    (.object (h'.newObject m).1) from congrArg (Value.content ∘ Value.object) ho)]
  cases (h.newObject m).2.findMethod? (.object (h.newObject m).1) "initialize" with
  | none =>
    simp only [hemp, hlen]
    split
    · exact .ok ⟨congrArg (Reply.content ∘ Reply.value ∘ Value.object) ho, hh⟩
    · exact .error rfl
  | some method =>
    rcases (method.invocation_agree hc (v := .object (h.newObject m).1)
      (w := .object (h'.newObject m).1) (congrArg (Value.content ∘ Value.object) ho) ha hb
      "initialize").cases with ⟨i, i', h1, h2, hi⟩ | ⟨f, g, h1, h2, hf⟩
    · simp only [h1, h2]
      refine .ok ⟨?_, hh⟩
      simp only [Reply.content, Invocation.content, Invocation.mk.injEq, Reply.invoke.injEq,
        ho] at hi ⊢
      exact ⟨hi.1, hi.2.1, hi.2.2.1, hi.2.2.2.1, trivial⟩
    · simp only [h1, h2]
      exact .error hf

include H hv ha in
theorem reflect_agree {x y : Except Failure (Reply × Heap)} (hxy : Agree Replied x y) :
    Agree Replied (builtin.reflect h v name args x) (builtin.reflect h' w name args' y) := by
  have hemp : args.isEmpty = args'.isEmpty := by
    simpa only [List.isEmpty_map] using congrArg List.isEmpty ha
  unfold builtin.reflect
  simp only [hemp]
  split
  · exact .ok ⟨by rw [hv.class_eq], H⟩
  · split
    · rcases (H.singletonClass_agree hv).cases with
        ⟨⟨s, k⟩, ⟨_, k'⟩, h1, h2, rfl, hk⟩ | ⟨f, g, h1, h2, hf⟩
      · simp only [h1, h2]
        exact .ok ⟨rfl, hk⟩
      · simp only [h1, h2]
        exact .error hf
    · exact hxy

include H hc hv ha hb in
theorem builtin_agree :
    Agree Replied (h.builtin c v name args block?) (h'.builtin c' w name args' block?') := by
  have hu : Agree Replied (.error (.method (.undefined name v.described)))
      (.error (.method (.undefined name w.described))) := .error (by rw [hv.described_eq])
  have hr := H.reflect_agree hv ha name hu
  rcases hv.cases with rfl | ⟨i, j, vs, ws, rfl, rfl, -⟩ | ⟨b, d, rfl, rfl, hbd⟩
  · cases v with
    | module m =>
      simp only [builtin]
      split
      · exact H.instantiate_agree hc ha hb m
      · exact hr
    | block b =>
      simp only [builtin]
      split
      · exact .ok ⟨congrArg Reply.invoke (BlockOf.invocation_content ha rfl), H⟩
      · exact hr
    | _ => exact hr
  · exact hr
  · simp only [builtin]
    split
    · exact .ok ⟨congrArg Reply.invoke (BlockOf.invocation_content ha hbd), H⟩
    · exact hr

include H hc hv ha hb in
theorem dispatch_agree (type : CallType) :
    Agree Replied (h.dispatch c v name args block? type)
      (h'.dispatch c' w name args' block?' type) := by
  unfold dispatch
  rw [← H.findMethod?_eq hv name]
  cases h.findMethod? v name with
  | none => exact H.builtin_agree hc hv ha hb name
  | some m =>
    simp only
    split
    · exact .error (by rw [hv.described_eq])
    · rcases (m.invocation_agree hc hv ha hb name).cases with
        ⟨i, i', h1, h2, hi⟩ | ⟨f, g, h1, h2, hf⟩
      · simp only [h1, h2]
        exact .ok ⟨congrArg Reply.invoke hi, H⟩
      · simp only [h1, h2]
        exact .error hf

end Heap.Alike

end Calls

end ObjectIr
