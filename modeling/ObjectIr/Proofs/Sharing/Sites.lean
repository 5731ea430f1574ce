import ObjectIr.Proofs.CopyPropagation.Instructions
import ObjectIr.Proofs.Sharing.Heaps

/-!
# Activations with linked arrays

Two activations run a body and its simplified form. The simplified form reads array constants where
the body reads one array that a copy of the constant made, so such arrays, the literal ones, come to
stand for several, and no others do (`Links.Sound`). Activations are linked when the temporaries
that both use are, and every variable that something is known of holds what a temporary of the other
holds, or what a copy of a constant made (`Temps.Linked`). Then the laws hold on which instructions
rest once their operands are read (`Links.acts`).
-/

namespace ObjectIr

/-! ### Linked numbers -/

/-- Only arrays that were made are linked, given the next numbers, and only literal ones to many. -/
structure Links.Sound (literal : Nat → Prop) (l : Links) (c c' : Nat) : Prop where
  made : ∀ n m, l n m → n < c ∧ m < c'
  single : ∀ n m m', l n m → l n m' → m = m' ∨ literal n

namespace Links

def join (l : Links) (n m : Nat) : Links := fun i j => l i j ∨ i = n ∧ j = m

variable {literal : Nat → Prop} {l : Links} {c c' : Nat}

theorem within_join (l : Links) (n m : Nat) : l.Within (l.join n m) := fun _ _ h => .inl h

theorem join_self (l : Links) (n m : Nat) : l.join n m n m := .inr ⟨rfl, rfl⟩

/-- Both runs make an array. -/
theorem Sound.fresh (h : l.Sound literal c c') : (l.join c c').Sound literal (c + 1) (c' + 1) where
  made := by
    rintro n m (hnm | ⟨rfl, rfl⟩)
    · obtain ⟨hn, hm⟩ := h.made n m hnm
      omega
    · omega
  single := by
    rintro n m m' (hm | ⟨rfl, rfl⟩) (hm' | ⟨hn, rfl⟩)
    · exact h.single n m m' hm hm'
    · have := (h.made n m hm).1
      omega
    · have := (h.made n m' hm').1
      omega
    · exact .inl rfl

/-- The second run makes an array anew that was made once in the first. -/
theorem Sound.again (h : l.Sound literal c c') {n m : Nat} (hnm : l n m) (hn : literal n) :
    (l.join n c').Sound literal c (c' + 1) where
  made := by
    rintro i j (hij | ⟨rfl, rfl⟩)
    · obtain ⟨hi, hj⟩ := h.made i j hij
      omega
    · exact ⟨(h.made i m hnm).1, Nat.lt_succ_self j⟩
  single := by
    rintro i j k (hj | ⟨rfl, rfl⟩) (hk | ⟨hi, rfl⟩)
    · exact h.single i j k hj hk
    · exact .inr (hi ▸ hn)
    · exact .inr hn
    · exact .inl rfl

end Links

/-! ### Copies of constants -/

namespace OperandOf

mutual

/-- The value was read from the constant, as literal arrays. -/
def Made (literal : Nat → Prop) : Operand → Value → Prop
  | .array os, v => ∃ n vs, v = .array n vs ∧ literal n ∧ MadeAll literal os vs
  | o, v => v = o.literal

def MadeAll (literal : Nat → Prop) : List Operand → List Value → Prop
  | [], vs => vs = []
  | o :: os, vs => ∃ w ws, vs = w :: ws ∧ o.Made literal w ∧ MadeAll literal os ws

end

end OperandOf

section Reading

variable {literal : Nat → Prop}

mutual

/-- A constant that is read anew is linked to what was read from it before. -/
theorem evaluate_made (s' : Site) {l : Links} {c : Nat} : ∀ (o : Operand) {c' : Nat} {v w : Value},
    l.Sound literal c c' → o.isConstant = true → o.Made literal v → v.Linked l w →
    ∃ x c'' l', s'.evaluate o c' = .ok x c'' ∧ l.Within l' ∧ l'.Sound literal c c'' ∧
      v.Linked l' x
  | .array os, c', v, w, hl, ho, hv, hvw => by
    obtain ⟨n, vs, rfl, hn, hvs⟩ := hv
    cases hvw with
    | plain harray _ => exact absurd rfl (harray n vs)
    | @array _ m hnm _ ws hws =>
      obtain ⟨xs, k, l₁, hxs, hwithin, hsound, hlinked⟩ := evaluateAll_made s' os hl ho hvs hws
      refine ⟨.array k xs, k + 1, l₁.join n k, ?_, hwithin.trans (l₁.within_join n k),
        hsound.again (hwithin n m hnm) hn, .array (l₁.join_self n k)
          (hlinked.mono (l₁.within_join n k))⟩
      rw [Site.evaluate]
      simp only [bind, EStateM.bind, hxs]
      rfl
  | .nil, c', v, _, hl, _, hv, _ | .bool _, c', v, _, hl, _, hv, _
  | .fixnum _, c', v, _, hl, _, hv, _ | .float _, c', v, _, hl, _, hv, _
  | .string _, c', v, _, hl, _, hv, _ | .symbol _, c', v, _, hl, _, hv, _ => by
    cases hv
    exact ⟨_, c', l, rfl, .refl l, hl, .plain (by simp [OperandOf.literal])
      (by simp [OperandOf.literal])⟩

theorem evaluateAll_made (s' : Site) {l : Links} {c : Nat} : ∀ (os : List Operand) {c' : Nat}
    {vs ws : List Value}, l.Sound literal c c' → OperandOf.allConstant os = true →
    OperandOf.MadeAll literal os vs → Value.LinkedAll l vs ws →
    ∃ xs c'' l', s'.evaluateAll os c' = .ok xs c'' ∧ l.Within l' ∧ l'.Sound literal c c'' ∧
      Value.LinkedAll l' vs xs
  | [], c', vs, _, hl, _, hvs, _ => by
    cases hvs
    exact ⟨[], c', l, rfl, .refl l, hl, .nil⟩
  | o :: os, c', vs, ws, hl, ho, hvs, hlinked => by
    rw [OperandOf.allConstant, Bool.and_eq_true] at ho
    obtain ⟨v, vs, rfl, hv, hvs⟩ := hvs
    cases hlinked with
    | cons hvw hws =>
      obtain ⟨x, k, l₁, hx, hwithin, hsound, hvx⟩ := evaluate_made s' o hl ho.1 hv hvw
      obtain ⟨xs, k', l₂, hxs, hwithin', hsound', hvxs⟩ :=
        evaluateAll_made s' os hsound ho.2 hvs (hws.mono hwithin)
      refine ⟨x :: xs, k', l₂, ?_, hwithin.trans hwithin', hsound', .cons (hvx.mono hwithin') hvxs⟩
      rw [Site.evaluateAll]
      simp only [bind, EStateM.bind, hx, hxs]
      rfl

end

end Reading

/-! ### Activations -/

/-- The value is the one that the temporary holds, or was read from the constant. -/
inductive Temps.Stands (literal : Nat → Prop) (l : Links) (ts' : Temps) (v : Value) : Operand → Prop
  | temp {u : Temp} {w : Value} (hw : ts'.get? u = some w) (h : v.Linked l w) :
    Stands literal l ts' v (.var (.temp u))
  | constant {o : Operand} (ho : o.isConstant = true) (h : o.Made literal v) :
    Stands literal l ts' v o

structure Temps.Linked (literal : Nat → Prop) (shared : Temp → Prop) (known : Substitution)
    (l : Links) (ts ts' : Temps) : Prop where
  both : ∀ t, shared t → Option.Rel (Value.Linked l) (ts.get? t) (ts'.get? t)
  known : ∀ p ∈ known, ∃ t v, p.1 = .temp t ∧ shared t ∧ ts.get? t = some v ∧
    ts'.Stands literal l v p.2

/-- Two activations at the same instruction of two bodies. -/
structure Activation.Linked (literal : Nat → Prop) (shared : Temp → Prop) (b b' : Body)
    (known : Substitution) (l : Links) (a a' : Activation) : Prop where
  body : a.body = b
  body' : a'.body = b'
  pc : a.pc = a'.pc
  temps : a.temps.Linked literal shared known l a'.temps
  args : List.Forall₂ (Value.Linked l) a.args a'.args
  receiver : a.receiver.Linked l a'.receiver
  footing : a.footing = a'.footing
  bridge? : a.bridge? = a'.bridge?
  answer? : Option.Rel (Value.Linked l) a.answer? a'.answer?

structure Site.Linked (literal : Nat → Prop) (shared : Temp → Prop) (b b' : Body)
    (known : Substitution) (l : Links) (s s' : Site) : Prop where
  heap : s.heap.Linked l s'.heap
  context : s.context.Linked l s'.context
  activation : s.activation.Linked literal shared b b' known l s'.activation

structure Site.Tied (literal : Nat → Prop) (shared : Temp → Prop) (b b' : Body)
    (known : Substitution) (l : Links) (s s' : Site) : Prop
    extends Site.Linked literal shared b b' known l s s' where
  sound : l.Sound literal s.heap.next.arrays s'.heap.next.arrays

section

variable {literal : Nat → Prop} {shared : Temp → Prop} {b b' : Body} {known : Substitution}
  {l l' : Links}

theorem Temps.Stands.mono (hl : l.Within l') {ts' : Temps} {v : Value} {o : Operand}
    (h : ts'.Stands literal l v o) : ts'.Stands literal l' v o := by
  cases h with
  | temp hw h => exact .temp hw (h.mono hl)
  | constant ho h => exact .constant ho h

theorem Temps.Linked.mono (hl : l.Within l') {ts ts' : Temps}
    (h : ts.Linked literal shared known l ts') : ts.Linked literal shared known l' ts' where
  both t ht := Value.rel_linked_mono hl (h.both t ht)
  known p hp := by
    obtain ⟨t, v, hpt, ht, hv, hstands⟩ := h.known p hp
    exact ⟨t, v, hpt, ht, hv, hstands.mono hl⟩

theorem Activation.Linked.mono (hl : l.Within l') {a a' : Activation}
    (h : a.Linked literal shared b b' known l a') : a.Linked literal shared b b' known l' a' :=
  { h with
    temps := h.temps.mono hl
    args := Value.forall₂_linked_mono hl h.args
    receiver := h.receiver.mono hl
    answer? := Value.rel_linked_mono hl h.answer? }

theorem Temps.Linked.learn {ts ts' : Temps} (h : ts.Linked literal shared known l ts')
    {known' : Substitution} (hk : ∀ p ∈ known', p ∈ known) :
    ts.Linked literal shared known' l ts' := ⟨h.both, fun p hp => h.known p (hk p hp)⟩

theorem Site.Linked.mono (hl : l.Within l') {s s' : Site}
    (h : s.Linked literal shared b b' known l s') : s.Linked literal shared b b' known l' s' :=
  ⟨h.heap.mono hl, h.context.mono hl, h.activation.mono hl⟩

/-- Less is known of the sites. -/
theorem Site.Tied.learn {s s' : Site} (h : s.Tied literal shared b b' known l s')
    {known' : Substitution} (hk : ∀ p ∈ known', p ∈ known) :
    s.Tied literal shared b b' known' l s' :=
  { h with activation := { h.activation with temps := h.activation.temps.learn hk } }

theorem Site.Tied.forgetAll {s s' : Site} (h : s.Tied literal shared b b' known l s') :
    s.Tied literal shared b b' [] l s' := h.learn (by simp)

theorem Temps.Linked.cons {ts ts' : Temps} (h : ts.Linked literal shared known l ts') {t : Temp}
    (ht : shared t) {v : Value} (hv : ts.get? t = some v) {o : Operand}
    (ho : ts'.Stands literal l v o) : ts.Linked literal shared ((.temp t, o) :: known) l ts' where
  both := h.both
  known p hp := by
    rcases List.mem_cons.1 hp with rfl | hp
    · exact ⟨t, v, rfl, ht, hv, ho⟩
    · exact h.known p hp

/-- Setting another temporary leaves in place what a value stands for. -/
theorem Temps.Stands.set {ts' us' : Temps} {v w : Value} {o : Operand} {t : Temp}
    (h : ts'.Stands literal l v o) (ho : o.asVariable? ≠ some (.temp t))
    (hu : ∀ u, us'.get? u = if u = t then some w else ts'.get? u) :
    us'.Stands literal l v o := by
  cases h with
  | @temp u x hx hvx =>
    have hut : u ≠ t := fun hut => ho (by rw [hut]; rfl)
    exact .temp (by rw [hu, if_neg hut, hx]) hvx
  | constant ho h => exact .constant ho h

theorem Temps.Linked.set {ts ts' : Temps} (h : ts.Linked literal shared known l ts') {t : Temp}
    (ht : shared t) {v w : Value} (hv : v.Linked l w) :
    Jointly (Failure.Linked l)
      (fun us us' => us.Linked literal shared (known.forget (.temp t)) l us' ∧
        us.get? t = some v ∧ ∀ u, us'.get? u = if u = t then some w else ts'.get? u)
      (ts.set t v) (ts'.set t w) := by
  have hacc : t.kind.accepts v = t.kind.accepts w := by
    cases hv with
    | plain => rfl
    | array | block => cases t.kind <;> rfl
  have hsome : (ts.get? t).isSome = (ts'.get? t).isSome := by
    have hrel := h.both t ht
    generalize ts.get? t = x at hrel
    generalize ts'.get? t = y at hrel
    cases hrel <;> rfl
  rcases ts.set_cases t v with ⟨ha, h1⟩ | ⟨ha, ⟨hn, h1⟩ | ⟨hs, us, h1, hu⟩⟩ <;>
    rcases ts'.set_cases t w with ⟨ha', h2⟩ | ⟨ha', ⟨hn', h2⟩ | ⟨hs', us', h2, hu'⟩⟩ <;>
    simp_all only [Option.isSome_none, Bool.false_eq_true, Bool.true_eq_false]
  · exact .error (.plain (by
      simp only [Failure.Alike, Failure.content, TypeFault.content,
        show v.content = w.content from hv.alike]) rfl)
  · exact .error (.plain rfl rfl)
  · refine .ok ⟨⟨fun u hsu => ?_, fun p hp => ?_⟩, by rw [hu, if_pos rfl], hu'⟩
    · rw [hu, hu']
      split
      · exact .some hv
      · exact h.both u hsu
    · obtain ⟨hp, hne, hval⟩ := Substitution.mem_forget.1 hp
      obtain ⟨u, x, hpu, hsu, hx, hstands⟩ := h.known p hp
      have hut : u ≠ t := fun hut => hne (by rw [hpu, hut])
      exact ⟨u, x, hpu, hsu, by rw [hu, if_neg hut, hx], hstands.set hval hu'⟩

end

/-! ### Laws -/

/-- Activations that run two bodies, where the variables are those of which nothing is known. -/
def Links.correspondence (literal : Nat → Prop) (shared : Temp → Prop) (b b' : Body)
    (known : Substitution) (l : Links) : Correspondence where
  place v v' := v = v' ∧ Shared shared [v] ∧ known.forget v = known
  label := Eq
  body := Eq
  value := Value.Linked l
  failure := Failure.Linked l
  frame := Frame.Linked l
  invocation := Invocation.Linked l
  target := Eq
  site := Site.Tied literal shared b b' known l
  after := Site.Tied literal shared b b' [] l

namespace Links

variable (literal : Nat → Prop) (shared : Temp → Prop) (b b' : Body) (known : Substitution)
  (l : Links)

theorem formLaws : (l.correspondence literal shared b b' known).FormLaws where
  shape h := h.sameShape
  plain harray _ hblock := .plain harray hblock
  thrown h := by
    cases h with
    | notModuleBody h | notModule h =>
      exact .plain (by simp only [Failure.Alike, Failure.content, TypeFault.content,
        show Value.content _ = Value.content _ from h.alike]) rfl
    | raised h => exact .raised h
    | _ => exact .plain rfl rfl
  bodies := by
    rintro b _ rfl
    exact ⟨rfl, rfl⟩
  blockOf h := h.block?
  invokeBlock h hvs := BlockOf.Linked.invocation hvs h

end Links

variable {literal : Nat → Prop} {shared : Temp → Prop} {b b' : Body} {known : Substitution}
  {l : Links} {s s' : Site}

theorem Site.Linked.frame (h : s.Linked literal shared b b' known l s') :
    Jointly (Failure.Linked l) (Frame.Linked l) s.frame s'.frame := by
  have hframes := h.context.frames
  rw [Site.frame, Site.frame, Context.currentFrame?, Context.currentFrame?]
  generalize s.context.frames = fs at hframes
  generalize s'.context.frames = fs' at hframes
  cases hframes with
  | nil => exact .error (.plain rfl rfl)
  | cons h _ => exact .ok h

theorem Site.Linked.scopeModule (h : s.Linked literal shared b b' known l s') (hb : b.Kin b') :
    Jointly (Failure.Linked l) Eq s.scopeModule s'.scopeModule := by
  rw [Site.scopeModule, Site.scopeModule, h.activation.body, h.activation.body', hb.scope,
    h.heap.alike.lexicalModule?_eq]
  cases s'.heap.lexicalModule? b'.scope with
  | some m => exact .ok rfl
  | none => exact h.frame.bind fun f f' hf => .ok hf.module

theorem Site.Linked.load (h : s.Linked literal shared b b' known l s') (hb : b.Kin b')
    {v : Variable} (hv : Shared shared [v]) :
    Jointly (Failure.Linked l) (Value.Linked l) (s.load v) (s'.load v) := by
  cases v with
  | temp t =>
    have ht := h.activation.temps.both t (hv t (by simp))
    rw [Site.load, Site.load]
    generalize s.activation.temps.get? t = x at ht
    generalize s'.activation.temps.get? t = y at ht
    cases ht with
    | none => exact .error (.plain rfl rfl)
    | some h => exact .ok h
  | lexical name depth offset =>
    rw [Site.load, Site.load, h.activation.footing, h.activation.body, h.activation.body', hb.name]
    cases s'.activation.footing.locate? depth with
    | none => exact .error (.plain rfl rfl)
    | some p => exact h.heap.readLocal _ _ _

theorem Site.Tied.store (h : s.Tied literal shared b b' known l s') (hb : b.Kin b')
    {r : Variable} (hr : Shared shared [r]) {v w : Value} (hv : v.Linked l w) :
    Jointly (Failure.Linked l) (Site.Tied literal shared b b' (known.forget r) l)
      (s.store r v) (s'.store r w) := by
  cases r with
  | temp t =>
    refine (h.activation.temps.set (hr t (by simp)) hv).bind fun us us' hus => .ok ?_
    exact { h with activation := { h.activation with temps := hus.1 } }
  | lexical name depth offset =>
    rw [Site.store, Site.store, h.activation.footing, h.activation.body, h.activation.body',
      hb.name]
    cases s'.activation.footing.locate? depth with
    | none => exact .error (.plain rfl rfl)
    | some p =>
      rcases (h.heap.writeLocal p.1 p.2 offset hv).elim with
        ⟨f, g, h1, h2, hf⟩ | ⟨k, k', h1, h2, hk⟩
      · simp only [h1, h2]
        exact .error hf
      · simp only [h1, h2]
        obtain ⟨_, -, -, rfl⟩ := (Heap.writeLocal_eq_ok_iff ..).1 h1
        obtain ⟨_, -, -, rfl⟩ := (Heap.writeLocal_eq_ok_iff ..).1 h2
        have hless : s.Tied literal shared b b' (known.forget (.lexical name depth offset)) l s' :=
          h.learn fun p hp => (Substitution.mem_forget.1 hp).1
        exact .ok { hless with heap := hk }

/-- The activations go on with linked heaps that make no arrays. -/
theorem Site.Tied.withHeap (h : s.Tied literal shared b b' known l s') {k k' : Heap}
    (hk : k.Linked l k') (hn : k.next.arrays = s.heap.next.arrays)
    (hn' : k'.next.arrays = s'.heap.next.arrays) :
    Site.Tied literal shared b b' known l { s with heap := k } { s' with heap := k' } :=
  { h with heap := hk, sound := by rw [hn, hn']; exact h.sound }

/-- The activations go on with more numbers given out to arrays. -/
theorem Site.Tied.supplied (h : s.Tied literal shared b b' known l s') {l' : Links}
    (hl : l.Within l') {n n' : Nat} (hn : l'.Sound literal n n') :
    Site.Tied literal shared b b' known l' { s with heap.next.arrays := n }
      { s' with heap.next.arrays := n' } :=
  { h.toLinked.mono hl with
    heap := (h.heap.mono hl).supply n n'
    sound := hn }

theorem Site.Tied.captureScope (h : s.Tied literal shared b b' known l s') (hb : b.Kin b') :
    s.captureScope.1 = s'.captureScope.1 ∧
      Site.Tied literal shared b b' known l s.captureScope.2 s'.captureScope.2 := by
  have hf := h.activation.footing
  have hr := h.activation.bridge?
  rw [Site.captureScope, Site.captureScope, ← hf, ← hr]
  cases h1 : s.activation.footing with
  | own scope => exact ⟨rfl, h⟩
  | nowhere => exact ⟨rfl, h⟩
  | guest parent =>
    cases h2 : s.activation.bridge? with
    | some bridge => exact ⟨rfl, h⟩
    | none =>
      have hl : s.activation.body.scope = s'.activation.body.scope := by
        rw [h.activation.body, h.activation.body', hb.scope]
      obtain ⟨hs, hh⟩ := h.heap.newScope s.activation.body.scope (some parent)
      simp only [← hl]
      exact ⟨congrArg some hs, { h with
        heap := hh
        activation := { h.activation with bridge? := congrArg some hs, footing := hf } }⟩

namespace Links

variable (literal shared known l)

theorem placeLaws (hb : b.Kin b') : (l.correspondence literal shared b b' known).PlaceLaws where
  after h := h.forgetAll
  load := by
    rintro s s' v _ hs ⟨rfl, hv, -⟩
    exact hs.load hb hv
  store := by
    rintro s s' r _ v w hs ⟨rfl, hr, hk⟩ hv
    have hstore := hs.store hb hr hv
    rw [hk] at hstore
    exact hstore
  receiver h := h.activation.receiver
  args {s s'} n h := by
    have hargs := h.activation.args
    generalize s.activation.args = vs at hargs
    generalize s'.activation.args = ws at hargs
    induction hargs generalizing n with
    | nil => exact Value.linked_nil
    | cons hv _ ih =>
      cases n with
      | zero => exact hv
      | succ n => exact ih n
  kind h := by rw [h.activation.body, h.activation.body', Body.kind, hb.scope, Body.kind]
  goTo := by
    rintro s s' m _ hs rfl
    have hindex : s.activation.body.labelIndex? m = s'.activation.body.labelIndex? m := by
      rw [hs.activation.body, hs.activation.body', hb.labelIndex?]
    cases hm : s'.activation.body.labelIndex? m with
    | none => exact .inr ⟨hindex.trans hm, rfl, .plain rfl rfl⟩
    | some n =>
      exact .inl ⟨n, n, hindex.trans hm, rfl,
        { hs with activation := { hs.activation with pc := rfl } }⟩

theorem heapLaws (hb : b.Kin b') : (l.correspondence literal shared b b' known).HeapLaws where
  frame h := h.frame
  scopeModule h := h.scopeModule hb
  dispatch name type h hv hvs hbl := by
    refine (h.heap.dispatch h.context hv name hvs hbl type).answers fun p p' hp hp' hpp => ?_
    refine ⟨?_, h.withHeap hpp.2 (Heap.Registers.dispatch hp).arrays
      (Heap.Registers.dispatch hp').arrays⟩
    have hq := hpp.1
    generalize p.1 = q at hq
    generalize p'.1 = q' at hq
    cases hq with
    | value h => exact .value h
    | invoke h => exact .invoke h
  define := by
    rintro s s' b _ v v' x x' h rfl hv hx
    refine (h.heap.define b hv hx).answers fun p p' hp hp' hpp => ?_
    exact ⟨hpp.1 ▸ .plain (by simp) (by simp), h.withHeap hpp.2 (Heap.Registers.define hp).arrays
      (Heap.Registers.define hp').arrays⟩
  setConstant m name h hv := h.withHeap (h.heap.setConstant m name hv) rfl rfl
  searchConstant name h hf := by
    rw [h.activation.body, h.activation.body', hb.scope, hf.module]
    exact h.heap.searchConstant _ _ name
  setVisibility {s s'} v h := by
    have hframes := h.context.frames
    rw [Context.setVisibility?, Context.setVisibility?]
    cases hf : s.context.frames with
    | nil =>
      rw [hf] at hframes
      rw [List.forall₂_nil_left_iff.1 hframes]
      exact .none
    | cons f fs =>
      rw [hf] at hframes
      obtain ⟨f', fs', hff, hfs, hf'⟩ := List.forall₂_cons_left_iff.1 hframes
      rw [hf']
      refine .some { h with context := { h.context with frames := ?_ } }
      exact .cons { hff with visibility := rfl } hfs
  noFrame _ _ _ := .plain rfl rfl

theorem acts (hb : b.Kin b') : (l.correspondence literal shared b b' known).Acts where
  toFormLaws := formLaws literal shared b b' known l
  toPlaceLaws := placeLaws literal shared known l hb
  toHeapLaws := heapLaws literal shared known l hb

end Links

end ObjectIr
