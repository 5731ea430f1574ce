import ObjectIr.Proofs.Reflagging.Sites

/-!
# New scopes of two runs

A scope is made when an activation with a scope of its own is entered, and a bridge when one
without makes its first closure. So an activation may have a scope in one run before it has one in
the other, where its locals are as good as nil (`Heap.localsOf`). Making a scope changes nothing but
which scope stands for the activation: twins they stay when a closure captures
(`Site.Twin.capture`), and twins they are when they are entered (`Invocation.Twin.enter`).
-/

namespace ObjectIr

/-! ### One run -/

/-- A later heap in which scopes were made, and nothing else happened. -/
structure Heap.Scopes (h k : Heap) : Prop where
  tables : k.tables = h.tables
  singletons : k.singletons = h.singletons
  bindings : k.bindings = h.bindings
  next : ∃ n, h.next.scopes ≤ n ∧ k.next = { h.next with scopes := n }
  slots : ∀ c : ScopeCell, c.id < h.next.scopes → k.slotsOf c = h.slotsOf c

theorem Heap.Scopes.refl (h : Heap) : h.Scopes h :=
  ⟨rfl, rfl, rfl, ⟨_, Nat.le_refl _, rfl⟩, fun _ _ => rfl⟩

theorem Heap.Scopes.newScope (h : Heap) (layout : StaticScope) (parent? : Option DynamicScope) :
    h.Scopes (h.newScope layout parent?).2 := by
  refine ⟨rfl, rfl, rfl, ⟨_, Nat.le_succ _, rfl⟩, fun c hc => ?_⟩
  have hid : (h.newScope layout parent?).1.id = h.next.scopes := rfl
  rw [slotsOf_newScope, hid, if_neg (Nat.ne_of_gt hc)]

/-- A later site, where a scope may have come to stand for the activation. -/
structure Site.Captures (s t : Site) : Prop where
  heap : s.heap.Scopes t.heap
  context : t.context = s.context
  activation : ∃ bridge?, t.activation = { s.activation with bridge? }
  grounded : ∀ e, s.activation.Grounded e → t.activation.Grounded e
  standing : ∀ c, s.activation.standing? = some c → t.activation.standing? = some c
  fresh : ∀ c, t.activation.standing? = some c →
    s.activation.standing? = some c ∨ s.heap.next.scopes ≤ c.id
  locals : t.heap.localsOf s.activation.body.scope t.activation.standing? =
    s.heap.localsOf s.activation.body.scope s.activation.standing?

theorem Site.Captures.refl (s : Site) : s.Captures s :=
  ⟨.refl _, rfl, ⟨_, rfl⟩, fun _ => id, fun _ => id, fun _ => .inl, rfl⟩

theorem Site.captureScope_captures (s : Site) : s.Captures s.captureScope.2 := by
  rw [captureScope]
  cases hf : s.activation.footing with
  | own _ | nowhere => exact .refl s
  | guest parent =>
    cases hb : s.activation.bridge? with
    | some bridge => exact .refl s
    | none =>
      have hnone : s.activation.standing? = none := by
        rw [Activation.standing?, Activation.captured?, hf, hb]
        rfl
      refine ⟨.newScope s.heap s.activation.body.scope (some parent), rfl, ⟨_, rfl⟩, ?_, ?_, ?_, ?_⟩
      · intro e he
        simp only [Activation.Grounded, hf] at he ⊢
        refine ⟨he.1, ?_⟩
        rintro bridge ⟨⟩
        exact ⟨rfl, rfl⟩
      · rw [hnone]
        rintro c ⟨⟩
      · simp only [Activation.standing?, Activation.captured?, hf]
        rintro c ⟨⟩
        exact .inr (Nat.le_refl _)
      · rw [hnone]
        simp only [Activation.standing?, Activation.captured?, hf]
        exact s.heap.slotsOf_newScope_self s.activation.body.scope (some parent)

/-- What is entered, and that its locals are nil. -/
theorem enter_scopes {limit : Nat} {h : Heap} {c : Context} {i : Invocation} {t : Site}
    (ht : enter limit h c i = .ok t) : h.Scopes t.heap ∧
      t.heap.localsOf i.body.scope t.activation.standing? =
        List.replicate i.body.scope.locals.length .nil ∧
      t.activation = i.activation t.activation.footing ∧
      t.context.frames = i.frame :: c.frames ∧
      t.context.stats.framePushes = c.stats.framePushes + 1 ∧
      t.context.stats.framePops = c.stats.framePops := by
  rw [enter_eq_ok ht]
  rcases i.settleIn_cases h (c.withFrame i.frame) with
    ⟨-, -, hset⟩ | ⟨-, parent, -, ⟨-, hset⟩ | ⟨-, hset⟩⟩ | ⟨-, -, -, hset⟩ <;> rw [hset]
  · exact ⟨.newScope h i.body.scope i.parent?, h.slotsOf_newScope_self i.body.scope i.parent?,
      rfl, rfl, rfl, rfl⟩
  · exact ⟨.refl _, rfl, rfl, rfl, rfl, rfl⟩
  · exact ⟨.refl _, rfl, rfl, rfl, rfl, rfl⟩
  · exact ⟨.refl _, rfl, rfl, rfl, rfl, rfl⟩

/-- An activation stands nowhere when it has neither a scope nor a parent's. -/
theorem enter_nowhere {limit : Nat} {h : Heap} {c : Context} {i : Invocation} {t : Site}
    (ht : enter limit h c i = .ok t) : t.activation.footing = .nowhere ↔
      i.body.pushesScope = false ∧ i.body.reusesScope = false ∧ i.parent? = none := by
  have hpops : i.body.popsScope = (i.body.pushesScope || i.body.reusesScope) := rfl
  rw [enter_eq_ok ht]
  rcases i.settleIn_cases h (c.withFrame i.frame) with
    ⟨-, hp, hset⟩ | ⟨-, parent, hparent, ⟨-, hset⟩ | ⟨-, hset⟩⟩ | ⟨-, hparent, hp, hset⟩ <;>
    rw [hset]
  · rw [hpops] at hp
    refine ⟨by rintro ⟨⟩, ?_⟩
    rintro ⟨hpush, hreuse, -⟩
    rw [hpush, hreuse] at hp
    cases hp
  · refine ⟨by rintro ⟨⟩, ?_⟩
    rintro ⟨-, -, hnone⟩
    rw [hparent] at hnone
    cases hnone
  · refine ⟨by rintro ⟨⟩, ?_⟩
    rintro ⟨-, -, hnone⟩
    rw [hparent] at hnone
    cases hnone
  · rw [hpops, Bool.or_eq_false_iff] at hp
    exact ⟨fun _ => ⟨hp.1, hp.2, hparent⟩, fun _ => rfl⟩

theorem enter_footed {limit : Nat} {h : Heap} {c : Context} {i : Invocation} {t : Site}
    (ht : enter limit h c i = .ok t) : t.activation.Footed := by
  obtain ⟨-, hbody, -⟩ := enter_grounded ht
  intro hpops
  rw [hbody, Body.popsScope] at hpops
  cases hfooting : t.activation.footing with
  | own | guest => rfl
  | nowhere =>
    obtain ⟨hpush, hreuse, -⟩ := (enter_nowhere ht).1 hfooting
    rw [hpush, hreuse] at hpops
    cases hpops

/-- No scope is current then if none was, and the body leaves none on the stack. -/
theorem enter_current {limit : Nat} {h : Heap} {c : Context} {i : Invocation} {t : Site}
    (ht : enter limit h c i = .ok t) : t.context.currentScope? = none ↔
      i.body.popsScope = false ∧ c.currentScope? = none := by
  rw [enter_eq_ok ht]
  rcases i.settleIn_cases h (c.withFrame i.frame) with
    ⟨-, hp, hset⟩ | ⟨-, parent, hparent, ⟨hp, hset⟩ | ⟨hp, hset⟩⟩ | ⟨-, hparent, hp, hset⟩ <;>
    rw [hset, hp]
  · simp [Context.currentScope?, Context.pushScope]
  · simp [Context.currentScope?, Context.pushScope]
  · simp [Context.currentScope?, Context.withFrame]
  · simp [Context.currentScope?, Context.withFrame]

theorem execute_processModuleBody (r : Variable) (o : Operand) (s : Site) :
    (InstrOf.processModuleBody r o : Instr).execute s =
      match Exec.value o s with
      | .error f t => .error f t
      | .ok (.method m) t =>
        match m.invocation t.context (.module m.module) m.body.name [] none with
        | .error f => .error f t
        | .ok i => .ok (.call r i) t
      | .ok v t => .error (.type (.notModuleBody v)) t := by
  cases hv : Exec.value o s with
  | error f t => rw [InstrOf.execute, Exec.bind_of_error hv]
  | ok v t =>
    rw [InstrOf.execute, Exec.bind_of_ok hv]
    cases v with
    | method m =>
      simp only [Exec.get_bind]
      cases m.invocation t.context (.module m.module) m.body.name [] none <;> rfl
    | _ => rfl

/-- On top of the stack is the scope of the activation, if it has put one there. -/
def Context.Tops (c : Context) (a : Activation) : Prop :=
  a.body.popsScope = true → c.currentScope? = a.footing.scope?

/-- The body that an instruction processes for its module. -/
def InstrOf.module? (i : Instr) (s : Site) : Option Body :=
  match i with
  | .processModuleBody _ o =>
    match Exec.value o s with
    | .ok (.method m) _ => some m.body
    | _ => none
  | _ => none

/--
Bodies that need others around have them around: closures are made in some scope, and the body of a
module is processed in a body that admits it, as its holder does, and that has a scope of its own.
-/
structure Site.Houses (s : Site) (i : Instr) : Prop where
  closure : ∀ r x, i = .buildClosure r x → s.activation.footing = .nowhere → x.Confined []
  module : ∀ x, i.module? s = some x → x.Confined [] ∨
    s.activation.body.Admits x ∧ s.activation.body.pushesScope = true

/-! ### Two runs -/

variable {w w' : World} {n : Nat}

/-- The scopes that stand for activations are on the heaps. -/
structure World.Within (w : World) (h h' : Heap) : Prop where
  left : ∀ m c, w.left m = some c → c.id < h.next.scopes
  right : ∀ m c, w.right m = some c → c.id < h'.next.scopes

/-- On later heaps they still are, and so is what comes to stand for one activation. -/
theorem World.Within.later {h h' k k' : Heap} (hin : w.Within h h')
    (hk : h.next.scopes ≤ k.next.scopes) (hk' : h'.next.scopes ≤ k'.next.scopes)
    (hsame : ∀ m, m ≠ n → w'.left m = w.left m ∧ w'.right m = w.right m)
    (hl : ∀ c, w'.left n = some c → c.id < k.next.scopes)
    (hr : ∀ c, w'.right n = some c → c.id < k'.next.scopes) : w'.Within k k' where
  left m c hc := by
    by_cases hm : m = n
    · exact hl c (hm ▸ hc)
    · rw [(hsame m hm).1] at hc
      exact Nat.lt_of_lt_of_le (hin.left m c hc) hk
  right m c hc := by
    by_cases hm : m = n
    · exact hr c (hm ▸ hc)
    · rw [(hsame m hm).2] at hc
      exact Nat.lt_of_lt_of_le (hin.right m c hc) hk'

/-- What stands for an activation stood for it before, or is new. -/
theorem World.Distinct.stand (hw : w.Distinct) {h h' : Heap} (hin : w.Within h h')
    {c? c?' : Option ScopeCell}
    (hl : ∀ c, c? = some c → w.left n = some c ∨ h.next.scopes ≤ c.id)
    (hr : ∀ c, c?' = some c → w.right n = some c ∨ h'.next.scopes ≤ c.id) :
    (w.stand n c? c?').Distinct := by
  have hside : ∀ {f : Nat → Option ScopeCell} {d? : Option ScopeCell} {k : Nat},
      (∀ m c, f m = some c → c.id < k) →
      (∀ m m' c d, f m = some c → f m' = some d → c.id = d.id → m = m') →
      (∀ c, d? = some c → f n = some c ∨ k ≤ c.id) → ∀ m m' c d,
      (if m = n then d? else f m) = some c → (if m' = n then d? else f m') = some d →
      c.id = d.id → m = m' := by
    intro f d? k hlt hdistinct hnew m m' c d hc hd hid
    split at hc <;> split at hd
    · next hm hm' => rw [hm, hm']
    · next hm _ =>
      rcases hnew c hc with hold | hge
      · exact hm.trans (hdistinct n m' c d hold hd hid)
      · have := hlt m' d hd
        omega
    · next _ hm' =>
      rcases hnew d hd with hold | hge
      · exact (hdistinct m n c d hc hold hid).trans hm'.symm
      · have := hlt m c hc
        omega
    · exact hdistinct m m' c d hc hd hid
  exact ⟨hside hin.left hw.left hl, hside hin.right hw.right hr⟩

theorem Heap.Twin.scopes {h h' k k' : Heap} (H : h.Twin w h') (hk : h.Scopes k)
    (hk' : h'.Scopes k') (hgrows : w.Grows w') (hl : w'.Locals k k') : k.Twin w' k' := by
  have htable : ∀ m, k.table m = h.table m := fun m => by rw [table, hk.tables, table]
  have htable' : ∀ m, k'.table m = h'.table m := fun m => by rw [table, hk'.tables, table]
  refine ⟨fun m => ?_, ?_, ?_, hl, ?_⟩
  · rw [htable, htable']
    exact (H.tables m).mono hgrows
  · rw [hk.singletons, hk'.singletons, H.singletons]
  · rw [hk.bindings, hk'.bindings, H.bindings]
  · obtain ⟨m, -, hm⟩ := hk.next
    obtain ⟨m', -, hm'⟩ := hk'.next
    obtain ⟨j, hj⟩ := H.next
    exact ⟨m', by rw [hm, hm', hj]⟩

/-! ### Captures -/

theorem Activation.Twin.mono (hgrows : w.Grows w') {a a' : Activation} (h : a.Twin w a') :
    a.Twin w' a' where
  body := h.body
  pc := h.pc
  temps := h.temps.mono hgrows
  args := Value.forall₂_twin_mono hgrows h.args
  receiver := h.receiver.mono hgrows
  answer? := Value.rel_twin_mono hgrows h.answer?
  around := h.around.mono hgrows
  nowhere := h.nowhere

/-- The world where the activations are at these sites. -/
abbrev World.atSites (w : World) (n : Nat) (t t' : Site) : World :=
  w.stand n t.activation.standing? t'.activation.standing?

theorem World.atSites_of_ne (w : World) (t t' : Site) {m : Nat} (hm : m ≠ n) :
    (w.atSites n t t').left m = w.left m ∧ (w.atSites n t t').right m = w.right m :=
  ⟨if_neg hm, if_neg hm⟩

namespace Site.Twin

variable {s s' t t' : Site} (hs : s.Twin w n s') (ht : s.Captures t) (ht' : s'.Captures t')

include hs ht ht'

theorem grows : w.Grows (w.atSites n t t') :=
  World.grows_stand (fun c hc => ht.standing c (hs.left ▸ hc))
    fun c hc => ht'.standing c (hs.right ▸ hc)

variable (hin : w.Within s.heap s'.heap)

include hin

theorem distinct (hw : w.Distinct) : (w.atSites n t t').Distinct :=
  hw.stand hin (hs.left ▸ ht.fresh) (hs.right ▸ ht'.fresh)

theorem locals : (w.atSites n t t').Locals t.heap t'.heap := by
  obtain ⟨e, he⟩ := hs.grounded
  obtain ⟨e', he'⟩ := hs.grounded'
  obtain ⟨bridge?, hbridge⟩ := ht.activation
  obtain ⟨bridge?', hbridge'⟩ := ht'.activation
  have hscope := hs.activation.body.scope
  have hlayout : ∀ c, t.activation.standing? = some c → c.layout = s.activation.body.scope := by
    intro c hc
    rw [(ht.grounded e he).layout hc, hbridge]
  have hlayout' : ∀ c, t'.activation.standing? = some c → c.layout = s.activation.body.scope := by
    intro c hc
    rw [(ht'.grounded e' he').layout hc, hbridge', hscope]
  have hgrows := hs.grows ht ht'
  obtain ⟨-, -, hlength, htwin⟩ : w.Shares s.heap s'.heap n s.activation.body.scope := by
    refine hs.heap.locals.shares (fun c hc => ?_) fun c hc => ?_
    · exact hlayout c (ht.standing c (hs.left ▸ hc))
    · exact hlayout' c (ht'.standing c (hs.right ▸ hc))
  rw [hs.left, ← ht.locals] at hlength htwin
  have hlocals' := ht'.locals
  rw [← hscope] at hlocals'
  rw [hs.right, ← hlocals'] at htwin
  have hat : (w.atSites n t t').Shares t.heap t'.heap n s.activation.body.scope := by
    refine ⟨?_, ?_, ?_, ?_⟩ <;> simp only [World.stand, if_true]
    · exact hlayout
    · exact hlayout'
    · exact hlength
    · exact Value.forall₂_twin_mono hgrows htwin
  exact hs.heap.locals.stand hgrows (fun m c _ hc => ht.heap.slots c (hin.left m c hc))
    (fun m c _ hc => ht'.heap.slots c (hin.right m c hc)) hat

/-- Twins go on as twins when scopes come to stand for them. -/
theorem capture : t.Twin (w.atSites n t t') n t' := by
  obtain ⟨e, he⟩ := hs.grounded
  obtain ⟨e', he'⟩ := hs.grounded'
  obtain ⟨bridge?, hbridge⟩ := ht.activation
  obtain ⟨bridge?', hbridge'⟩ := ht'.activation
  have hgrows := hs.grows ht ht'
  exact {
    heap := hs.heap.scopes ht.heap ht'.heap hgrows (hs.locals ht ht' hin)
    context := by
      rw [ht.context, ht'.context]
      exact hs.context.mono hgrows
    activation := by
      have ha := hs.activation.mono hgrows
      rw [hbridge, hbridge']
      exact { ha with }
    left := if_pos rfl
    right := if_pos rfl
    grounded := ⟨e, ht.grounded e he⟩
    grounded' := ⟨e', ht'.grounded e' he'⟩
    footed := by
      rw [hbridge]
      exact hs.footed
    footed' := by
      rw [hbridge']
      exact hs.footed' }

end Site.Twin

/-! ### Instructions -/

namespace Site.Twin

variable {s s' : Site} (hs : s.Twin w n s')

include hs

/-- What the activations capture are the same cells, as far as what they admit reaches. -/
theorem captured
    (hnone : s.activation.captured? = none → s.activation.footing = .nowhere)
    (hnone' : s'.activation.captured? = none → s'.activation.footing = .nowhere) {x : Body}
    (hx : s'.activation.body.Admits x) (hfree : s'.activation.footing = .nowhere → x.Confined []) :
    w.Around x (cellsOf s.activation.captured?) (cellsOf s'.activation.captured?) ∧
      (s.activation.captured? = none → s'.activation.captured? = none) := by
  obtain ⟨e, he⟩ := hs.grounded
  obtain ⟨e', he'⟩ := hs.grounded'
  have hnowhere : s.activation.captured? = none → s'.activation.footing = .nowhere := fun h =>
    hs.activation.nowhere (hnone h)
  refine ⟨?_, fun h => by rw [Activation.captured?, hnowhere h]⟩
  -- with no scope in the run with the flags, there may yet be one in the other
  by_cases hfooting : s'.activation.footing = .nowhere
  · exact w.around_of_confined (hfree hfooting) _ _
  cases hc' : s'.activation.captured? with
  | none => exact absurd (hnone' hc') hfooting
  | some scope' =>
    cases hc : s.activation.captured? with
    | none => exact absurd (hnowhere hc) hfooting
    | some scope =>
      obtain ⟨hcells, hlayout⟩ := he.captured hc
      obtain ⟨hcells', -⟩ := he'.captured hc'
      rw [cellsOf, cellsOf, Option.map_some, Option.map_some, Option.getD_some, Option.getD_some,
        hcells, hcells']
      refine hs.activation.around.inside (hs.pairs ?_ ?_) ?_ hx
      · rw [Activation.standing?, hc, Option.map_some]
      · rw [Activation.standing?, hc', Option.map_some]
      · rw [hlayout, hs.activation.body.scope]

theorem atSites_self : w.atSites n s s' = w := by
  rw [World.atSites, ← hs.left, ← hs.right, w.stand_self]

/-- Closures that two runs make are twins, in scopes that stand for their makers. -/
theorem buildClosure (hin : w.Within s.heap s'.heap) (hw : w.Distinct) {r : Variable} {b b' : Body}
    (hi : .buildClosure r b' ∈ s'.activation.body.code) (hb : b.Reflagged b')
    (hfree : s'.activation.footing = .nowhere → b'.Confined []) : ∃ t t', s.Captures t ∧
      s'.Captures t' ∧ ((w.atSites n t t').correspondence n s'.activation.body).Meets
        ((w.atSites n t t').correspondence n s'.activation.body).Outcomes
        ((w.atSites n t t').correspondence n s'.activation.body).after
        ((InstrOf.buildClosure r b : Instr).execute s)
        ((InstrOf.buildClosure r b' : Instr).execute s') := by
  have hframe := hs.frame
  rw [execute_buildClosure, execute_buildClosure]
  generalize s.frame = x at hframe
  generalize s'.frame = y at hframe
  cases hframe with
  | error hf =>
    refine ⟨s, s', .refl s, .refl s', ?_⟩
    rw [hs.atSites_self]
    exact .error hf ⟨hs, rfl⟩
  | @ok f f' hf =>
    have ht := s.captureScope_captures
    have ht' := s'.captureScope_captures
    refine ⟨_, _, ht, ht', ?_⟩
    have htwin := hs.capture ht ht' hin
    have hdistinct := hs.distinct ht ht' hin hw
    obtain ⟨bridge?', hbridge'⟩ := ht'.activation
    have hbody' : s'.captureScope.2.activation.body = s'.activation.body := by rw [hbridge']
    obtain ⟨hcaptured, hnone, -⟩ := s.captureScope_spec
    obtain ⟨hcaptured', hnone', -⟩ := s'.captureScope_spec
    rw [← hcaptured] at hnone
    rw [← hcaptured'] at hnone'
    obtain ⟨haround, hrootless⟩ := htwin.captured hnone hnone' (x := b')
      (by rw [hbody']; exact Body.Holds.admits (.inl ⟨r, hi⟩)) (by rw [hbridge']; exact hfree)
    rw [hcaptured, hcaptured'] at haround hrootless
    obtain ⟨hblock, hheap⟩ := htwin.heap.newBlock hb htwin.activation.receiver haround hrootless
      f.module f.visibility
    have hr : s'.activation.body.Mentions r :=
      ⟨_, hi, by simp [InstrOf.usedVariables, InstrOf.result?]⟩
    simp only [← hf.module, ← hf.visibility]
    exact (World.siteLaws _ n s'.activation.body hdistinct).meets_store
      ⟨htwin.withHeap hheap, hbody'⟩ ⟨rfl, hr⟩ hblock

/-- Methods that two runs define are twins, and need no body around. -/
theorem defineMethod {name : String} {b b' : Body}
    (hi : .defineMethod name b' ∈ s'.activation.body.code) (hb : b.Reflagged b') :
    (w.correspondence n s'.activation.body).Meets
      (w.correspondence n s'.activation.body).Outcomes
      (w.correspondence n s'.activation.body).after
      ((InstrOf.defineMethod name b : Instr).execute s)
      ((InstrOf.defineMethod name b' : Instr).execute s') := by
  have haround := hs.activation.around
  obtain ⟨levels, hconfined, -⟩ := haround
  have hframe := hs.frame
  rw [execute_defineMethod, execute_defineMethod]
  generalize s.frame = x at hframe
  generalize s'.frame = y at hframe
  cases hframe with
  | error hf => exact .error hf ⟨hs, rfl⟩
  | @ok f f' hf =>
    obtain ⟨hm, hheap⟩ := hs.heap.newMethod hb f.visibility f.module
    have hadd := hheap.addMethod f.module name ⟨hm, hconfined.method hi⟩
    simp only [← hf.module, ← hf.visibility]
    exact .ok .next ⟨hs.withHeap hadd, rfl⟩

/-- In bodies that have scopes of their own, what they admit finds the same cells in these. -/
theorem current_around (hcurrent : s.context.Tops s.activation)
    (hcurrent' : s'.context.Tops s'.activation) {x : Body} (hx : s'.activation.body.Admits x)
    (hpushes : s'.activation.body.pushesScope = true) :
    w.Around x (cellsOf s.context.currentScope?) (cellsOf s'.context.currentScope?) := by
  obtain ⟨e, he⟩ := hs.grounded
  obtain ⟨e', he'⟩ := hs.grounded'
  obtain ⟨scope, hfooting, -, -⟩ := he.own_of_pushes (hs.activation.body.pushesScope hpushes)
  obtain ⟨scope', hfooting', -, -⟩ := he'.own_of_pushes hpushes
  have hcaptured : s.activation.captured? = some scope := by rw [Activation.captured?, hfooting]
  have hcaptured' : s'.activation.captured? = some scope' := by
    rw [Activation.captured?, hfooting']
  have hpops : s'.activation.body.popsScope = true := by rw [Body.popsScope, hpushes, Bool.true_or]
  obtain ⟨haround, -⟩ := hs.captured (by simp [hcaptured]) (by simp [hcaptured']) hx
    (by simp [hfooting'])
  rw [hcurrent (hs.activation.body.popsScope hpops), hcurrent' hpops, hfooting, hfooting']
  rw [hcaptured, hcaptured'] at haround
  exact haround

/-- Module bodies that two runs process are those of twins, with the same activations around. -/
theorem processModuleBody (hw : w.Distinct) {r : Variable} {o o' : Operand}
    (hi : .processModuleBody r o' ∈ s'.activation.body.code)
    (ho : o.Like (w.correspondence n s'.activation.body).toCounterparts o')
    (hcurrent : s.context.Tops s.activation) (hcurrent' : s'.context.Tops s'.activation)
    (hhouses : s'.Houses (.processModuleBody r o')) :
    (w.correspondence n s'.activation.body).Meets
      (w.correspondence n s'.activation.body).Outcomes
      (w.correspondence n s'.activation.body).after
      ((InstrOf.processModuleBody r o : Instr).execute s)
      ((InstrOf.processModuleBody r o' : Instr).execute s') := by
  have hvalue := (w.laws n _ hw).joins_value ho s s' ⟨hs, rfl⟩
  rw [execute_processModuleBody, execute_processModuleBody]
  rcases hvalue.elim with ⟨f, f', t, t', hx, hy, hf, ht⟩ | ⟨v, v', t, t', hx, hy, hv, ht⟩
  · rw [hx, hy]
    exact .error hf ht
  have hmodule := hhouses.module
  simp only [InstrOf.module?, hy] at hmodule
  rw [hx, hy]
  obtain ⟨k, -, htk⟩ := Exec.reading_eq_ok hx
  obtain ⟨k', -, htk'⟩ := Exec.reading_eq_ok hy
  cases hv with
  | plain array method block =>
    have hthrown : Failure.Twin w (.type (.notModuleBody v)) (.type (.notModuleBody v)) :=
      .notModuleBody (.plain array method block)
    cases v with
    | method m => exact absurd rfl (method m)
    | _ => exact .error hthrown ht
  | array k h => exact .error (.notModuleBody (.array k h)) ht
  | block id hb hr hs hn m v => exact .error (.notModuleBody (.block id hb hr hs hn m v)) ht
  | @method m m' hm =>
    have haround : w.Around m'.body (cellsOf t.context.currentScope?)
        (cellsOf t'.context.currentScope?) := by
      rcases hmodule m'.body rfl with hfree | ⟨hadmits, hpushes⟩
      · exact w.around_of_confined hfree _ _
      · rw [htk, htk']
        exact hs.current_around hcurrent hcurrent' hadmits hpushes
    have hinvocation := hm.invocation (Value.twin_module hm.module) m'.body.name .nil .none
      ht.1.context haround
    simp only [hm.body.name]
    generalize m.invocation t.context (.module m.module) m'.body.name [] none = x at hinvocation
    generalize m'.invocation t'.context (.module m'.module) m'.body.name [] none = y
      at hinvocation
    have hr : s'.activation.body.Mentions r :=
      ⟨_, hi, by simp [InstrOf.usedVariables, InstrOf.result?]⟩
    cases hinvocation with
    | error hf => exact .error hf ht
    | ok hi => exact .ok (.call ⟨rfl, hr⟩ hi) ht

/-- Instructions of both runs do corresponding things, in a world where scopes may have come. -/
theorem execute (hin : w.Within s.heap s'.heap) (hw : w.Distinct) {i i' : Instr}
    (hi : i' ∈ s'.activation.body.code)
    (hlike : i.Like ⟨Eq, Eq, Body.Reflagged⟩ i') (hcurrent : s.context.Tops s.activation)
    (hcurrent' : s'.context.Tops s'.activation) (hhouses : s'.Houses i') :
    ∃ t t', s.Captures t ∧ s'.Captures t' ∧
      ((w.atSites n t t').correspondence n s'.activation.body).Meets
        ((w.atSites n t t').correspondence n s'.activation.body).Outcomes
        ((w.atSites n t t').correspondence n s'.activation.body).after
        (i.execute s) (i'.execute s') := by
  by_cases hclosure : ∃ r b, i' = .buildClosure r b
  · obtain ⟨r, b', rfl⟩ := hclosure
    cases hlike with
    | buildClosure hr hb =>
      cases hr
      exact hs.buildClosure hin hw hi hb (hhouses.closure r b' rfl)
  refine ⟨s, s', .refl s, .refl s', ?_⟩
  rw [hs.atSites_self]
  have hplace : ∀ v ∈ i.usedVariables, ∀ v', v = v' →
      (w.correspondence n s'.activation.body).place v v' := fun v hv v' hvv =>
    ⟨hvv, i', hi, hlike.usedVariables_eq ▸ hvv ▸ hv⟩
  have hlike' : i.Like (w.correspondence n s'.activation.body).toCounterparts i' := by
    refine hlike.imp ?_ hplace fun _ _ _ h => h
    exact fun _ _ hb => hb
  have hsite : (w.correspondence n s'.activation.body).site s s' := ⟨hs, rfl⟩
  cases hlexical : i.isLexical with
  | false => exact (w.laws n _ hw).joins_execute hlike' hlexical s s' hsite
  | true =>
    cases hlike' with
    | defineMethod name hb => exact hs.defineMethod hi hb
    | processModuleBody hr ho =>
      obtain ⟨rfl, -⟩ := hr
      exact hs.processModuleBody hw hi ho hcurrent hcurrent' hhouses
    | buildClosure => exact absurd ⟨_, _, rfl⟩ hclosure
    | nonlocalRet ho =>
      exact (w.laws n _ hw).joins_nonlocalRet (w.findsHome n _ hi) ho s s' hsite
    | _ => cases hlexical

end Site.Twin

/-! ### Entries -/

/-- Activations that are entered are twins, if the cells around them stand for the same. -/
theorem Invocation.Twin.enter (limit : Nat) {h h' : Heap} {c c' : Context} {i i' : Invocation}
    (hi : i.Twin w i') (hh : h.Twin w h') (hc : c.Twin w c') (hin : w.Within h h')
    (hleft : w.left n = none) (hright : w.right n = none) :
    enter limit h c i = .error .stackOverflow ∧ enter limit h' c' i' = .error .stackOverflow ∨
      ∃ t t', enter limit h c i = .ok t ∧ enter limit h' c' i' = .ok t' ∧
        t.Twin (w.atSites n t t') n t' := by
  have hdepth : c.frameDepth = c'.frameDepth := hc.frames.length_eq
  by_cases hfull : limit ≤ c.frameDepth
  · left
    rw [enter_eq, enter_eq, if_pos hfull, if_pos (hdepth ▸ hfull)]
    exact ⟨rfl, rfl⟩
  right
  obtain ⟨t, ht⟩ : ∃ t, ObjectIr.enter limit h c i = .ok t := by
    rw [enter_eq, if_neg hfull]
    exact ⟨_, rfl⟩
  obtain ⟨t', ht'⟩ : ∃ t, ObjectIr.enter limit h' c' i' = .ok t := by
    rw [enter_eq, if_neg (hdepth ▸ hfull)]
    exact ⟨_, rfl⟩
  refine ⟨t, t', ht, ht', ?_⟩
  obtain ⟨hk, hlocals, ha, hframes, hpushes, hpops⟩ := enter_scopes ht
  obtain ⟨hk', hlocals', ha', hframes', hpushes', hpops'⟩ := enter_scopes ht'
  obtain ⟨-, hbody, houter, hground, -⟩ := enter_grounded ht
  obtain ⟨-, hbody', houter', hground', -⟩ := enter_grounded ht'
  have hscope := hi.body.scope
  have hgrows : w.Grows (w.atSites n t t') := World.grows_stand_new hleft hright _ _
  have hat : (w.atSites n t t').Shares t.heap t'.heap n i.body.scope := by
    refine ⟨?_, ?_, ?_, ?_⟩ <;> simp only [World.stand, if_true]
    · intro c hc
      rw [(hground n).layout hc, hbody]
    · intro c hc
      rw [(hground' n).layout hc, hbody', hscope]
    · rw [hlocals, List.length_replicate]
    · rw [← hscope] at hlocals'
      rw [hlocals, hlocals']
      exact List.forall₂_same.2 fun v hv => List.eq_of_mem_replicate hv ▸ Value.twin_nil
  exact {
    heap := hh.scopes hk hk' hgrows <| hh.locals.stand hgrows
      (fun m c _ hc => hk.slots c (hin.left m c hc))
      (fun m c _ hc => hk'.slots c (hin.right m c hc)) hat
    context := by
      refine ⟨?_, ?_, ?_, ?_⟩
      · rw [hframes, hframes']
        exact .cons (hi.frame.mono hgrows) (hc.mono hgrows).frames
      · rw [enter_current ht, enter_current ht']
        rintro ⟨hpops, hnone⟩
        refine ⟨?_, hc.rootless hnone⟩
        cases hpops' : i'.body.popsScope with
        | false => rfl
        | true => rw [hi.body.popsScope hpops'] at hpops; cases hpops
      · rw [hpushes, hpushes', hc.framePushes]
      · rw [hpops, hpops', hc.framePops]
    activation := by
      have hnowhere : t.activation.footing = .nowhere → t'.activation.footing = .nowhere := by
        rw [enter_nowhere ht, enter_nowhere ht']
        rintro ⟨hpush, hreuse, hnone⟩
        rcases hi.body.toMatches.flags with hp | ⟨he, hr⟩
        · rw [hp] at hpush
          cases hpush
        · refine ⟨?_, hr ▸ hreuse, hi.rootless hnone⟩
          rw [Body.pushesScope, ← he, ← hr]
          exact hpush
      have haround' := hi.around.mono hgrows
      rw [← houter, ← houter', ← hbody'] at haround'
      rw [ha, ha'] at hnowhere haround' ⊢
      exact {
        body := hi.body
        pc := rfl
        temps := by
          have htemps : i.body.temps = i'.body.temps := hi.body.toMatches.temps
          show (Temps.init i.body.temps).Twin _ (Temps.init i'.body.temps)
          rw [htemps]
          exact Temps.init_twin _
        args := Value.forall₂_twin_mono hgrows hi.args
        receiver := hi.frame.receiver.mono hgrows
        answer? := Value.rel_twin_mono hgrows hi.answer?
        around := haround'
        nowhere := hnowhere }
    left := if_pos rfl
    right := if_pos rfl
    grounded := ⟨_, hground 0⟩
    grounded' := ⟨_, hground' 0⟩
    footed := enter_footed ht
    footed' := enter_footed ht' }

end ObjectIr
