import ObjectIr.Proofs.Reflagging.Heaps

/-!
# Calls of two runs

A call on twins comes to the same: it finds the same method and starts it with twins, or answers
twins, or fails with twins (`Heap.Twin.dispatch`). A method runs in the scope that is current, which
may stand for another activation in the other run; that does not matter, as its code is free
(`Method.Free`).
-/

namespace ObjectIr

variable {w : World}

inductive Reply.Twin (w : World) : Reply → Reply → Prop
  | value {v v' : Value} (h : v.Twin w v') : Twin w (.value v) (.value v')
  | invoke {i i' : Invocation} (h : i.Twin w i') : Twin w (.invoke i) (.invoke i')

section Calls

variable {v v' : Value} (hv : v.Twin w v') (name : String) {args args' : List Value}
  (ha : List.Forall₂ (Value.Twin w) args args') {block? block?' : Option Block}
  (hb : Option.Rel (BlockOf.Twin w) block? block?')

include hv ha hb in
theorem Method.Twin.invocation {m m' : Method} (hm : m.Twin m') {c c' : Context} (hc : c.Twin w c')
    (haround : w.Around m'.body (cellsOf c.currentScope?) (cellsOf c'.currentScope?)) :
    Jointly (Failure.Twin w) (Invocation.Twin w) (m.invocation c v name args block?)
      (m'.invocation c' v' name args' block?') := by
  have hlength : m.parameters = m'.parameters := hm.body.parameters
  unfold Method.invocation
  simp only [hlength, ha.length_eq]
  by_cases hgiven : args'.length = m'.parameters.length
  · rw [if_pos hgiven, if_pos hgiven]
    exact .ok ⟨hm.body, ⟨hv, hm.visibility, rfl, hb, hm.module⟩, haround, hc.rootless, ha, .none⟩
  · rw [if_neg hgiven, if_neg hgiven]
    exact .error (.plain rfl)

include hv ha hb in
theorem Method.Free.invocation {m m' : Method} (hm : m.Free m') {c c' : Context}
    (hc : c.Twin w c') : Jointly (Failure.Twin w) (Invocation.Twin w)
      (m.invocation c v name args block?) (m'.invocation c' v' name args' block?') :=
  hm.1.invocation hv name ha hb hc (w.around_of_confined hm.2 _ _)

include ha in
theorem BlockOf.Twin.invocation {b b' : Block} (h : BlockOf.Twin w b b') :
    (b.invocation args).Twin w (b'.invocation args') := by
  cases h with
  | plain _ _ block => exact absurd rfl (block b)
  | block id hbody hr hs hnone m visibility =>
    exact ⟨hbody, ⟨hr, rfl, hbody.name, .none, rfl⟩, hs, hnone, ha, .none⟩

namespace Heap.Twin

variable {h h' : Heap} (H : h.Twin w h') {c c' : Context} (hc : c.Twin w c')

include H

include ha hb hc

theorem instantiate (m : Module) :
    Jointly (Failure.Twin w) (Made w (Reply.Twin w)) (h.instantiate c m args block?)
      (h'.instantiate c' m args' block?') := by
  obtain ⟨ho, hh⟩ := H.newObject m
  have hobject := Value.twin_object (w := w) ho
  have hfound := hh.findMethod? hobject "initialize"
  unfold Heap.instantiate
  simp only
  generalize (h.newObject m).2.findMethod? (.object (h.newObject m).1) "initialize" = x at hfound
  generalize (h'.newObject m).2.findMethod? (.object (h'.newObject m).1) "initialize" = y
    at hfound
  cases hfound with
  | none =>
    simp only [isEmpty_eq_of_forall₂ ha, ha.length_eq]
    split
    · exact .ok ⟨.value hobject, hh⟩
    · exact .error (.plain rfl)
  | some hm =>
    refine (hm.invocation hobject "initialize" ha hb hc).bind fun i i' hi => ?_
    exact .ok ⟨.invoke { hi with answer? := .some hobject }, hh⟩

omit hb hc in
include hv in
theorem reflect {x y : Except Failure (Reply × Heap)}
    (hxy : Jointly (Failure.Twin w) (Made w (Reply.Twin w)) x y) :
    Jointly (Failure.Twin w) (Made w (Reply.Twin w)) (builtin.reflect h v name args x)
      (builtin.reflect h' v' name args' y) := by
  unfold builtin.reflect
  rw [isEmpty_eq_of_forall₂ ha, hv.class_eq]
  split
  · exact .ok ⟨.value (Value.twin_module rfl), H⟩
  · split
    · refine (H.singletonClass hv).bind fun p p' hp => ?_
      exact .ok ⟨.value (Value.twin_module hp.1), hp.2⟩
    · exact hxy

include hv

theorem builtin : Jointly (Failure.Twin w) (Made w (Reply.Twin w))
    (h.builtin c v name args block?) (h'.builtin c' v' name args' block?') := by
  have hreflect := H.reflect hv name ha (x := .error (.method (.undefined name v.described)))
    (y := .error (.method (.undefined name v'.described)))
    (.error (hv.described_eq ▸ .plain rfl))
  cases hv with
  | plain array method block =>
    cases v with
    | module m =>
      simp only [Heap.builtin]
      split
      · exact H.instantiate ha hb hc m
      · exact hreflect
    | block b => exact absurd rfl (block b)
    | _ => exact hreflect
  | array | method => exact hreflect
  | block id hbody hr hs hnone m visibility =>
    simp only [Heap.builtin]
    split
    · have hblock := BlockOf.Twin.invocation ha (.block id hbody hr hs hnone m visibility)
      exact .ok ⟨.invoke hblock, H⟩
    · exact hreflect

theorem dispatch (type : CallType) : Jointly (Failure.Twin w) (Made w (Reply.Twin w))
    (h.dispatch c v name args block? type) (h'.dispatch c' v' name args' block?' type) := by
  have hfound := H.findMethod? hv name
  have hbuiltin := H.builtin hv name ha hb hc
  unfold Heap.dispatch
  generalize h.findMethod? v name = x at hfound
  generalize h'.findMethod? v' name = y at hfound
  cases hfound with
  | none => exact hbuiltin
  | @some m m' hm =>
    simp only [hm.1.visibility, hv.described_eq]
    split
    · exact .error (.plain rfl)
    · exact (hm.invocation hv name ha hb hc).bind fun i i' hi => .ok ⟨.invoke hi, H⟩

end Heap.Twin

end Calls

end ObjectIr
