import Mathlib.Data.List.Forall2
import ObjectIr.Proofs.Content.Dispatch
import ObjectIr.Proofs.Correspondence.Execution
import ObjectIr.Proofs.Raising

/-!
# Values with linked arrays

Two runs number their arrays differently. `Links` say which arrays of one run stand for which of the
other, and values are linked when they are of like content and so are the arrays inside them, one by
one (`Value.Linked`). What is linked stays so as more arrays come to stand for others
(`Value.Linked.mono`).
-/

namespace ObjectIr

/-- Which arrays of two runs stand for each other, by their numbers. -/
abbrev Links := Nat → Nat → Prop

def Links.Within (l l' : Links) : Prop := ∀ n m, l n m → l' n m

theorem Links.Within.refl (l : Links) : l.Within l := fun _ _ h => h

theorem Links.Within.trans {l l' l'' : Links} (h : l.Within l') (h' : l'.Within l'') :
    l.Within l'' := fun n m hnm => h' n m (h n m hnm)

section Definitions

variable (l : Links)

mutual

inductive Value.Linked : Value → Value → Prop
  | plain {v : Value} (array : ∀ n vs, v ≠ .array n vs) (block : ∀ b, v ≠ .block b) : Linked v v
  | array {n m : Nat} (h : l n m) {vs ws : List Value} (hs : Value.LinkedAll vs ws) :
    Linked (.array n vs) (.array m ws)
  | block (id : Nat) (body : Body) {r r' : Value} (h : Linked r r')
    (scope? : Option DynamicScope) (m : Module) (v : Visibility) :
    Linked (.block ⟨id, body, r, scope?, m, v⟩) (.block ⟨id, body, r', scope?, m, v⟩)

inductive Value.LinkedAll : List Value → List Value → Prop
  | nil : LinkedAll [] []
  | cons {v w : Value} {vs ws : List Value} (h : Value.Linked v w) (hs : LinkedAll vs ws) :
    LinkedAll (v :: vs) (w :: ws)

end

abbrev BlockOf.Linked (b c : Block) : Prop := Value.Linked l (.block b) (.block c)

structure Frame.Linked (f f' : Frame) : Prop where
  receiver : f.receiver.Linked l f'.receiver
  visibility : f.visibility = f'.visibility
  name : f.name = f'.name
  block? : Option.Rel (BlockOf.Linked l) f.block? f'.block?
  module : f.module = f'.module

structure Context.Linked (c c' : Context) : Prop where
  frames : List.Forall₂ (Frame.Linked l) c.frames c'.frames
  scopes : c.scopes = c'.scopes
  stats : c.stats = c'.stats

structure Invocation.Linked (i i' : Invocation) : Prop where
  body : i.body = i'.body
  frame : i.frame.Linked l i'.frame
  parent? : i.parent? = i'.parent?
  args : List.Forall₂ (Value.Linked l) i.args i'.args
  answer? : Option.Rel (Value.Linked l) i.answer? i'.answer?

/-- Failures read the same, and what was raised is linked. -/
inductive Failure.Linked : Failure → Failure → Prop
  | plain {f g : Failure} (h : f.Alike g) (hf : f.raised? = none) : Linked f g
  | raised {v w : Value} (h : v.Linked l w) : Linked (.raised v) (.raised w)

end Definitions

variable {l l' : Links}

/-! ### Values -/

theorem Value.linkedAll_iff {vs ws : List Value} :
    Value.LinkedAll l vs ws ↔ List.Forall₂ (Value.Linked l) vs ws := by
  constructor
  · intro h
    induction vs generalizing ws with
    | nil => cases h; exact .nil
    | cons v vs ih =>
      cases h with
      | cons h hs => exact .cons h (ih hs)
  · intro h
    induction h with
    | nil => exact .nil
    | cons h _ ih => exact .cons h ih

mutual

theorem Value.Linked.alike : ∀ {v w : Value}, v.Linked l w → v.Alike w
  | _, _, .plain _ _ => rfl
  | _, _, .array _ hs => by
    simp only [Alike, content, Value.array.injEq, true_and]
    exact hs.contents_eq
  | _, _, .block id body h scope? m v => by
    have hr := h.alike
    simp only [Alike] at hr
    simp only [Alike, content, hr]

theorem Value.LinkedAll.contents_eq : ∀ {vs ws : List Value}, LinkedAll l vs ws →
    contents vs = contents ws
  | _, _, .nil => rfl
  | _, _, .cons h hs => by
    have hv := h.alike
    simp only [Alike] at hv
    rw [contents, contents, hv, hs.contents_eq]

end

mutual

theorem Value.Linked.mono (hl : l.Within l') : ∀ {v w : Value}, v.Linked l w → v.Linked l' w
  | _, _, .plain harray hblock => .plain harray hblock
  | _, _, .array h hs => .array (hl _ _ h) (hs.mono hl)
  | _, _, .block id body h scope? m v => .block id body (h.mono hl) scope? m v

theorem Value.LinkedAll.mono (hl : l.Within l') :
    ∀ {vs ws : List Value}, LinkedAll l vs ws → LinkedAll l' vs ws
  | _, _, .nil => .nil
  | _, _, .cons h hs => .cons (h.mono hl) (hs.mono hl)

end

theorem Value.forall₂_linked_mono (hl : l.Within l') {vs ws : List Value}
    (h : List.Forall₂ (Value.Linked l) vs ws) : List.Forall₂ (Value.Linked l') vs ws :=
  h.imp fun _ _ h => h.mono hl

theorem Value.rel_linked_mono (hl : l.Within l') {x y : Option Value}
    (h : Option.Rel (Value.Linked l) x y) : Option.Rel (Value.Linked l') x y := by
  cases h with
  | none => exact .none
  | some h => exact .some (h.mono hl)

namespace Value

theorem linked_nil : Value.Linked l .nil .nil := .plain (by simp) (by simp)

theorem linked_module {m m' : Module} (h : m = m') : Value.Linked l (.module m) (.module m') :=
  h ▸ .plain (by simp) (by simp)

theorem linked_object {o o' : Object} (h : o = o') : Value.Linked l (.object o) (.object o') :=
  h ▸ .plain (by simp) (by simp)

theorem Alike.eq_module {v : Value} {m : Module} (h : v.Alike (.module m)) : v = .module m := by
  rcases h.cases with rfl | ⟨i, j, vs, ws, -, hm, -⟩ | ⟨b, c, -, hm, -⟩
  · rfl
  · cases hm
  · cases hm

end Value

theorem Value.Linked.sameShape {v w : Value} (h : v.Linked l w) : v.SameShape w := by
  cases h with
  | plain harray hblock => cases v <;> simp_all [SameShape]
  | array | block => simp [SameShape]

/-! ### What is made of values -/

section Mono

variable (hl : l.Within l')

include hl

theorem BlockOf.rel_linked_mono {x y : Option Block} (h : Option.Rel (BlockOf.Linked l) x y) :
    Option.Rel (BlockOf.Linked l') x y := by
  cases h with
  | none => exact .none
  | some h => exact .some (h.mono hl)

theorem Frame.Linked.mono {f f' : Frame} (h : f.Linked l f') : f.Linked l' f' :=
  { h with receiver := h.receiver.mono hl, block? := BlockOf.rel_linked_mono hl h.block? }

theorem Context.Linked.mono {c c' : Context} (h : c.Linked l c') : c.Linked l' c' :=
  { h with frames := h.frames.imp fun _ _ hf => hf.mono hl }

end Mono

/-! ### Calls -/

section Calls

variable {v v' : Value} (hv : v.Linked l v') (name : String) {args args' : List Value}
  (ha : List.Forall₂ (Value.Linked l) args args') {block? block?' : Option Block}
  (hb : Option.Rel (BlockOf.Linked l) block? block?')

include ha in
theorem BlockOf.Linked.invocation {b b' : Block} (h : BlockOf.Linked l b b') :
    (b.invocation args).Linked l (b'.invocation args') := by
  cases h with
  | plain _ hblock => exact absurd rfl (hblock b)
  | block id body hr scope? m v => exact ⟨rfl, ⟨hr, rfl, rfl, .none, rfl⟩, rfl, ha, .none⟩

include hv ha hb in
theorem Method.invocation_linked (m : Method) {c c' : Context} (hc : c.Linked l c') :
    Jointly (Failure.Linked l) (Invocation.Linked l) (m.invocation c v name args block?)
      (m.invocation c' v' name args' block?') := by
  unfold Method.invocation
  simp only [ha.length_eq]
  split
  · have hscope : c.currentScope? = c'.currentScope? := by
      rw [Context.currentScope?, hc.scopes, Context.currentScope?]
    exact .ok ⟨rfl, ⟨hv, rfl, rfl, hb, rfl⟩, hscope, ha, .none⟩
  · exact .error (.plain rfl rfl)

end Calls

end ObjectIr
