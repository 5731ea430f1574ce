import ObjectIr.Proofs.DepthLimit
import ObjectIr.Proofs.Reflagging.Scopes
import ObjectIr.Proofs.Surroundings.Scopes

/-!
# Machines of two runs

Two machines are twins when they are at the same point of the same code, with activations of the
same numbers on their stacks (`Machine.Twin`). Scopes that come to stand for an activation leave the
others as they were (`Site.Under.evolve`), and an activation that is entered gets a number that
nothing stands for yet (`Invocation.Twin.enters`). A return that aims at the scope of an activation
is taken by this activation in either run (`Activation.Seated.settle`). So twins step to twins, as
long as the run with the flags finds bodies housed (`Machine.Twin.step`).
-/

namespace ObjectIr

/-! ### The stack of scopes -/

/-- What an activation has on the stack of scopes. -/
def Activation.stacked (a : Activation) : List DynamicScope :=
  if a.body.popsScope then a.footing.scope?.toList else []

/-- The scopes on the stack are those of the active activations. -/
def Context.Carries (c : Context) (as : List Activation) : Prop :=
  c.scopeStack = as.flatMap Activation.stacked

namespace Context.Carries

variable {c d : Context} {a b : Activation} {as : List Activation}

theorem tops (h : c.Carries (a :: as)) (ha : a.Footed) : c.Tops a := by
  intro hpops
  obtain ⟨s, hs⟩ := Option.isSome_iff_exists.1 (ha hpops)
  rw [currentScope?_eq, h, List.flatMap_cons, Activation.stacked, if_pos hpops, hs]
  rfl

theorem replace (h : c.Carries (a :: as)) (hbody : b.body = a.body)
    (hfooting : b.footing = a.footing) (hscopes : d.scopes = c.scopes) : d.Carries (b :: as) := by
  rw [Carries, scopeStack, hscopes, List.flatMap_cons, Activation.stacked, hbody, hfooting]
  exact h

theorem leave (h : c.Carries (a :: as)) (ha : a.Footed) : (leave a.body c).Carries as := by
  rw [Carries, scopeStack_leave, h, List.flatMap_cons, Activation.stacked]
  split
  · next hpops =>
    obtain ⟨s, hs⟩ := Option.isSome_iff_exists.1 (ha hpops)
    rw [hs]
    rfl
  · rfl

theorem enter {limit : Nat} {k : Heap} {i : Invocation} {t : Site}
    (ht : enter limit k c i = .ok t) (h : c.Carries as) :
    t.context.Carries (t.activation :: as) := by
  rw [Carries, List.flatMap_cons, Activation.stacked, ← h, enter_eq_ok ht]
  rcases i.settleIn_cases k (c.withFrame i.frame) with
    ⟨-, hp, hset⟩ | ⟨-, parent, -, ⟨hp, hset⟩ | ⟨hp, hset⟩⟩ | ⟨-, -, hp, hset⟩ <;> rw [hset]
  all_goals
    rw [Invocation.activation, hp]
    rfl

end Context.Carries

/-! ### Activations -/

variable {w w' : World} {n : Nat} {ns : List Nat}

/-- The activations on two stacks are twins, each with a number of its own. -/
inductive World.Seats (w : World) : List Nat → List Activation → List Activation → Prop
  | nil : Seats w [] [] []
  | cons {n : Nat} {ns : List Nat} {a a' : Activation} {as as' : List Activation}
    (h : a.Seated w n a') (new : n ∉ ns) (hs : Seats w ns as as') :
    Seats w (n :: ns) (a :: as) (a' :: as')

theorem Activation.Seated.later {a a' : Activation} (h : a.Seated w n a') (hgrows : w.Grows w')
    (hsame : w'.left n = w.left n ∧ w'.right n = w.right n) : a.Seated w' n a' :=
  { h with
    activation := h.activation.mono hgrows
    left := hsame.1.trans h.left
    right := hsame.2.trans h.right }

namespace World.Seats

variable {as as' : List Activation}

theorem later (h : w.Seats ns as as') (hgrows : w.Grows w')
    (hsame : ∀ m ∈ ns, w'.left m = w.left m ∧ w'.right m = w.right m) : w'.Seats ns as as' := by
  induction h with
  | nil => exact .nil
  | cons h new _ ih =>
    obtain ⟨hn, hns⟩ := List.forall_mem_cons.1 hsame
    exact .cons (h.later hgrows hn) new (ih hns)

/-- The stack of scopes with the flags is empty whenever the one without them is. -/
theorem rootless (h : w.Seats ns as as') {c c' : Context} (hc : c.Carries as)
    (hc' : c'.Carries as') (hnone : c.currentScope? = none) : c'.currentScope? = none := by
  rw [Context.currentScope?_eq, List.head?_eq_none_iff, hc] at hnone
  rw [Context.currentScope?_eq, List.head?_eq_none_iff, hc']
  clear hc hc'
  induction h with
  | nil => rfl
  | @cons _ _ a a' _ _ h _ _ ih =>
    rw [List.flatMap_cons, List.append_eq_nil_iff] at hnone ⊢
    refine ⟨?_, ih hnone.2⟩
    have hempty := hnone.1
    rw [Activation.stacked] at hempty ⊢
    split
    · next hpops' =>
      have hpops := h.activation.body.popsScope hpops'
      obtain ⟨s, hs⟩ := Option.isSome_iff_exists.1 (h.footed hpops)
      rw [if_pos hpops, hs] at hempty
      cases hempty
    · rfl

end World.Seats

/-! ### Endings -/

inductive Ending.Twin (w : World) : Except Unwind Value → Except Unwind Value → Prop
  | ok {v v' : Value} (h : v.Twin w v') : Twin w (.ok v) (.ok v')
  | failure {f f' : Failure} (h : f.Twin w f') : Twin w (.error (.failure f)) (.error (.failure f'))
  | return {c c' : ScopeCell} (hc : w.Pairs c c') {v v' : Value} (h : v.Twin w v') :
    Twin w (.error (.return c.id v)) (.error (.return c'.id v'))

theorem Ending.Twin.outcome {r r' : Except Unwind Value} (h : Ending.Twin w r r') :
    Jointly (Failure.Twin w) (Value.Twin w) (r.mapError Unwind.toFailure)
      (r'.mapError Unwind.toFailure) := by
  cases h with
  | ok h => exact .ok h
  | failure h => exact .error h
  | «return» => exact .error (.plain rfl)

namespace Activation.Seated

variable {a a' : Activation} (h : a.Seated w n a')

include h

theorem owns_eq (hw : w.Distinct) {c c' : ScopeCell} (hc : w.Pairs c c') :
    a.owns c.id = a'.owns c'.id := by
  obtain ⟨e, he⟩ := h.grounded
  obtain ⟨e', he'⟩ := h.grounded'
  obtain ⟨-, m, hm, hm'⟩ := hc
  rw [Bool.eq_iff_iff, he.owns_iff, he'.owns_iff, ← h.left, ← h.right]
  constructor
  · rintro ⟨d, hd, hid⟩
    cases hw.left n m d c hd hm hid
    exact ⟨c', hm', rfl⟩
  · rintro ⟨d, hd, hid⟩
    cases hw.right n m d c' hd hm' hid
    exact ⟨c, hm, rfl⟩

theorem result {v v' : Value} (hv : v.Twin w v') : (a.result v).Twin w (a'.result v') := by
  have hanswer := h.activation.answer?
  rw [Activation.result, Activation.result]
  generalize a.answer? = x at hanswer
  generalize a'.answer? = y at hanswer
  cases hanswer with
  | none => exact hv
  | some h => exact h

theorem settle (hw : w.Distinct) {r r' : Except Unwind Value} (hr : Ending.Twin w r r') :
    Ending.Twin w (a.settle r) (a'.settle r') := by
  cases hr with
  | ok hv => exact .ok (h.result hv)
  | failure hf => exact .failure hf
  | «return» hc hv =>
    rw [Activation.settle, Activation.settle, h.activation.body.kind, h.owns_eq hw hc]
    split
    · exact .ok (h.result hv)
    · exact .return hc hv

end Activation.Seated

/-! ### Machines -/

/-- A caller waits for the value of a variable that its code has. -/
structure Caller.Twin (c c' : Caller) : Prop where
  result : c.result = c'.result
  mentions : c'.activation.body.Mentions c'.result

inductive Control.Twin (w : World) : Control → Control → Prop
  | running (a a' : Activation) : Twin w (.running a) (.running a')
  | leaving (a a' : Activation) {r r' : Except Unwind Value} (h : Ending.Twin w r r') :
    Twin w (.leaving a r) (.leaving a' r')
  | finished {r r' : Except Failure Value} (h : Jointly (Failure.Twin w) (Value.Twin w) r r') :
    Twin w (.finished r) (.finished r')

/-- A world for these heaps, where the activations of some numbers are active. -/
structure World.Bears (w : World) (ns : List Nat) (h h' : Heap) : Prop where
  distinct : w.Distinct
  within : w.Within h h'
  spare : ∃ k, (∀ n, k ≤ n → w.left n = none ∧ w.right n = none) ∧ ∀ n ∈ ns, n < k

/-- Activations of the numbers `ns` are active. -/
structure Machine.Twin (w : World) (ns : List Nat) (m m' : Machine) : Prop where
  heap : m.heap.Twin w m'.heap
  context : m.context.Twin w m'.context
  control : m.control.Twin w m'.control
  callers : List.Forall₂ Caller.Twin m.callers m'.callers
  seats : w.Seats ns m.active m'.active
  carries : m.context.Carries m.active
  carries' : m'.context.Carries m'.active
  world : w.Bears ns m.heap m'.heap

/-- Sites of twins, under callers that are twins. -/
structure Site.Under (w : World) (n : Nat) (ns : List Nat) (cs cs' : List Caller) (s s' : Site) :
    Prop where
  site : s.Twin w n s'
  callers : List.Forall₂ Caller.Twin cs cs'
  seats : w.Seats ns (cs.map Caller.activation) (cs'.map Caller.activation)
  new : n ∉ ns
  carries : s.context.Carries (s.activation :: cs.map Caller.activation)
  carries' : s'.context.Carries (s'.activation :: cs'.map Caller.activation)
  world : w.Bears (n :: ns) s.heap s'.heap

theorem Site.Evolves.standing_lt {s t : Site} (h : s.Evolves t)
    (hs : ∀ c, s.activation.standing? = some c → c.id < s.heap.next.scopes) {c : ScopeCell}
    (hc : t.activation.standing? = some c) : c.id < t.heap.next.scopes := by
  have hold : s.activation.standing? = some c → c.id < t.heap.next.scopes := fun hc =>
    Nat.lt_of_lt_of_le (hs c hc) h.heap.scopes
  rw [Activation.standing?, Activation.captured?] at hc hold
  rw [h.footing] at hc
  cases hfooting : s.activation.footing with
  | own scope =>
    rw [hfooting] at hc hold
    exact hold hc
  | nowhere =>
    rw [hfooting] at hc
    cases hc
  | guest parent =>
    rw [hfooting] at hc hold
    rcases h.bridge? with hsame | ⟨bridge, hb, hbridge⟩
    · rw [hsame] at hc
      exact hold hc
    · rw [hb] at hc
      cases hc
      exact hbridge.made

namespace Site.Under

variable {cs cs' : List Caller} {s s' t t' : Site} (hs : s.Under w n ns cs cs' s')

include hs

theorem runningAt : (Machine.runningAt s cs).Twin w (n :: ns) (Machine.runningAt s' cs') where
  heap := hs.site.heap
  context := hs.site.context
  control := .running _ _
  callers := hs.callers
  seats := .cons hs.site.toSeated hs.new hs.seats
  carries := hs.carries
  carries' := hs.carries'
  world := hs.world

theorem leavingAt {r r' : Except Unwind Value} (hr : Ending.Twin w r r') :
    (Machine.leavingAt s r cs).Twin w (n :: ns) (Machine.leavingAt s' r' cs') where
  heap := hs.site.heap
  context := hs.site.context
  control := .leaving _ _ hr
  callers := hs.callers
  seats := .cons hs.site.toSeated hs.new hs.seats
  carries := hs.carries
  carries' := hs.carries'
  world := hs.world

/-- The activations go on where scopes may have come to stand for them, and for no others. -/
theorem evolve (hst : s.Evolves t) (hst' : s'.Evolves t') (ht : t.Twin w' n t')
    (hgrows : w.Grows w') (hdistinct : w'.Distinct)
    (hsame : ∀ m, m ≠ n → w'.left m = w.left m ∧ w'.right m = w.right m) :
    t.Under w' n ns cs cs' t' where
  site := ht
  callers := hs.callers
  seats := hs.seats.later hgrows fun m hm => hsame m fun hmn => hs.new (hmn ▸ hm)
  new := hs.new
  carries := hs.carries.replace hst.body hst.footing hst.scopes
  carries' := hs.carries'.replace hst'.body hst'.footing hst'.scopes
  world := by
    have hin := hs.world.within
    refine ⟨hdistinct, ?_, ?_⟩
    · refine hin.later hst.heap.scopes hst'.heap.scopes hsame (fun c hc => ?_) fun c hc => ?_
      · rw [ht.left] at hc
        exact hst.standing_lt (fun c hc => hin.left n c (hs.site.left.trans hc)) hc
      · rw [ht.right] at hc
        exact hst'.standing_lt (fun c hc => hin.right n c (hs.site.right.trans hc)) hc
    · obtain ⟨k, hk, hlt⟩ := hs.world.spare
      refine ⟨k, fun m hm => ?_, hlt⟩
      have hmn : m ≠ n := Nat.ne_of_gt (Nat.lt_of_lt_of_le (hlt n List.mem_cons_self) hm)
      rw [(hsame m hmn).1, (hsame m hmn).2]
      exact hk m hm

end Site.Under

/-- Twins are entered as twins, with a number that nothing stands for, or neither is. -/
theorem Invocation.Twin.enters (limit : Nat) {h h' : Heap} {c c' : Context} {i i' : Invocation}
    {cs cs' : List Caller} (hi : i.Twin w i') (hh : h.Twin w h') (hc : c.Twin w c')
    (hworld : w.Bears ns h h') (hcallers : List.Forall₂ Caller.Twin cs cs')
    (hseats : w.Seats ns (cs.map Caller.activation) (cs'.map Caller.activation))
    (hcarries : c.Carries (cs.map Caller.activation))
    (hcarries' : c'.Carries (cs'.map Caller.activation)) :
    ObjectIr.enter limit h c i = .error .stackOverflow ∧
        ObjectIr.enter limit h' c' i' = .error .stackOverflow ∨
      ∃ t t' w' n, ObjectIr.enter limit h c i = .ok t ∧ ObjectIr.enter limit h' c' i' = .ok t' ∧
        w.Grows w' ∧ t.Under w' n ns cs cs' t' := by
  -- the activation gets a number above all those that scopes have come to stand for
  obtain ⟨k, hk, hlt⟩ := hworld.spare
  obtain ⟨hleft, hright⟩ := hk k (Nat.le_refl k)
  have hnew : k ∉ ns := fun hmem => Nat.lt_irrefl k (hlt k hmem)
  have hin := hworld.within
  rcases hi.enter limit hh hc hin hleft hright with hfull | ⟨t, t', ht, ht', htwin⟩
  · exact .inl hfull
  refine .inr ⟨t, t', w.atSites k t t', k, ht, ht', ?_⟩
  obtain ⟨hgrow, -, -, -, hcell⟩ := enter_grounded ht
  obtain ⟨hgrow', -, -, -, hcell'⟩ := enter_grounded ht'
  have hgrows : w.Grows (w.atSites k t t') := World.grows_stand_new hleft hright _ _
  have hsame := fun m (hm : m ≠ k) => w.atSites_of_ne t t' hm
  refine ⟨hgrows, htwin, hcallers, ?_, hnew, hcarries.enter ht, hcarries'.enter ht', ?_, ?_, ?_⟩
  · exact hseats.later hgrows fun m hm => hsame m fun hmk => hnew (hmk ▸ hm)
  · exact hworld.distinct.stand hin (fun c hc => .inr (hcell c hc).1) fun c hc =>
      .inr (hcell' c hc).1
  · exact hin.later hgrow.scopes hgrow'.scopes hsame
      (fun c hc => (hcell c (htwin.left.symm.trans hc)).2.1)
      fun c hc => (hcell' c (htwin.right.symm.trans hc)).2.1
  · refine ⟨k + 1, fun m hm => ?_, ?_⟩
    · rw [(hsame m (Nat.ne_of_gt hm)).1, (hsame m (Nat.ne_of_gt hm)).2]
      exact hk m (Nat.le_of_lt hm)
    · refine List.forall_mem_cons.2 ⟨Nat.lt_succ_self k, fun m hm => ?_⟩
      exact Nat.lt_succ_of_lt (hlt m hm)

/-! ### Steps -/

namespace Site.Under

variable {cs cs' : List Caller} {s s' : Site} (hs : s.Under w n ns cs cs' s') (limit : Nat)

include hs

/-- Instructions lead twins to twins. -/
theorem follow {i i' : Instr} (hi : i' ∈ s'.activation.body.code)
    (hlike : i.Like ⟨Eq, Eq, Body.Reflagged⟩ i') (hhouses : s'.Houses i') :
    ∃ w' ns', w.Grows w' ∧ (Machine.follow limit cs (i.execute s)).Twin w' ns'
      (Machine.follow limit cs' (i'.execute s')) := by
  have hin := hs.world.within
  obtain ⟨t, t', ht, ht', hmeets⟩ := hs.site.execute hin hs.world.distinct hi hlike
    (hs.carries.tops hs.site.footed) (hs.carries'.tops hs.site.footed') hhouses
  have hgrows := hs.site.grows ht ht'
  have hdistinct := hs.site.distinct ht ht' hin hs.world.distinct
  have hsame := fun m (hm : m ≠ n) => w.atSites_of_ne t t' hm
  have hev := execute_evolves i s
  have hev' := execute_evolves i' s'
  generalize w.atSites n t t' = v at hmeets hgrows hdistinct hsame
  generalize i.execute s = x at hmeets hev
  generalize i'.execute s' = y at hmeets hev'
  cases hmeets with
  | error hf hu =>
    have hunder := hs.evolve hev hev' hu.1 hgrows hdistinct hsame
    exact ⟨v, n :: ns, hgrows, hunder.leavingAt (.failure hf)⟩
  | @ok o o' u u' ho hu =>
    have hunder := hs.evolve hev hev' hu.1 hgrows hdistinct hsame
    cases ho with
    | next => exact ⟨v, n :: ns, hgrows, hunder.runningAt⟩
    | complete hv => exact ⟨v, n :: ns, hgrows, hunder.leavingAt (.ok hv)⟩
    | «return» htarget hv =>
      obtain ⟨c, c', hc, rfl, rfl⟩ := htarget
      exact ⟨v, n :: ns, hgrows, hunder.leavingAt (.return hc hv)⟩
    | @call r _ inv inv' hr hinv =>
      obtain ⟨rfl, hmentions⟩ := hr
      rw [← hu.2] at hmentions
      have hcallers : List.Forall₂ Caller.Twin (⟨u.activation, r⟩ :: cs)
          (⟨u'.activation, r⟩ :: cs') := .cons ⟨rfl, hmentions⟩ hunder.callers
      have hseats := World.Seats.cons hunder.site.toSeated hunder.new hunder.seats
      rcases hinv.enters limit hunder.site.heap hunder.site.context hunder.world hcallers hseats
        hunder.carries hunder.carries' with ⟨hfull, hfull'⟩ | ⟨x, x', w', k, hx, hx', hg, hentered⟩
      · simp only [Machine.follow, hfull, hfull']
        exact ⟨v, n :: ns, hgrows, hunder.leavingAt (.failure (.plain rfl))⟩
      · simp only [Machine.follow, hx, hx']
        exact ⟨w', k :: n :: ns, hgrows.trans hg, hentered.runningAt⟩

/-- What is stored for a caller leads it on. -/
theorem store {r : Variable} (hr : s'.activation.body.Mentions r) {v v' : Value}
    (hv : v.Twin w v') :
    Jointly (Failure.Twin w) (Site.Under w n ns cs cs') (s.store r v) (s'.store r v') := by
  rcases (hs.site.store hs.world.distinct hr hv).elim with
    ⟨f, f', ht, ht', hf⟩ | ⟨t, t', ht, ht', htwin⟩ <;> rw [ht, ht']
  · exact .error hf
  · obtain ⟨k, ts, hk, rfl⟩ := Site.store_changes ht
    obtain ⟨k', ts', hk', rfl⟩ := Site.store_changes ht'
    exact .ok (hs.evolve (.of_eq hk) (.of_eq hk') htwin.1 (.refl w) hs.world.distinct
      fun m _ => ⟨rfl, rfl⟩)

end Site.Under

theorem leave_counts (b : Body) (c : Context) :
    (leave b c).stats.framePushes = c.stats.framePushes ∧
      (leave b c).stats.framePops = c.stats.framePops + min c.frames.length 1 := by
  have hpop : ∀ c : Context, c.popFrame.stats.framePushes = c.stats.framePushes ∧
      c.popFrame.stats.framePops = c.stats.framePops + min c.frames.length 1 := by
    rintro ⟨frames, scopes, stats⟩
    cases frames with
    | nil => exact ⟨rfl, rfl⟩
    | cons f fs =>
      refine ⟨rfl, ?_⟩
      rw [List.length_cons, Nat.min_eq_right (Nat.succ_le_succ (Nat.zero_le _))]
      rfl
  rw [leave, (hpop _).1, (hpop _).2]
  split
  · rw [Context.popScope]
    split <;> exact ⟨rfl, rfl⟩
  · exact ⟨rfl, rfl⟩

theorem Context.Twin.leave {c c' : Context} (hc : c.Twin w c') (b b' : Body)
    (hrootless : (leave b c).currentScope? = none → (leave b' c').currentScope? = none) :
    (leave b c).Twin w (leave b' c') where
  frames := by
    have htwins := hc.frames
    rw [leave_frames, leave_frames]
    generalize c.frames = fs at htwins
    generalize c'.frames = fs' at htwins
    cases htwins with
    | nil => exact .nil
    | cons _ h => exact h
  rootless := hrootless
  framePushes := by rw [(leave_counts b c).1, (leave_counts b' c').1, hc.framePushes]
  framePops := by
    rw [(leave_counts b c).2, (leave_counts b' c').2, hc.framePops, hc.frames.length_eq]

namespace Machine.Twin

variable {m m' : Machine} (hm : m.Twin w ns m') (limit : Nat)

include hm

/-- Activations that end hand twins to callers that are twins. -/
theorem step_leaving {a a' : Activation} {r r' : Except Unwind Value}
    (hcontrol : m.control = .leaving a r) (hcontrol' : m'.control = .leaving a' r') :
    ∃ ns', (m.step limit).Twin w ns' (m'.step limit) := by
  have hending := hm.control
  rw [hcontrol, hcontrol'] at hending
  cases hending with
  | leaving _ _ hr =>
  have hseats := hm.seats
  have hcarries := hm.carries
  have hcarries' := hm.carries'
  rw [active, hcontrol] at hcarries
  rw [active, hcontrol'] at hcarries'
  rw [active, active, hcontrol, hcontrol'] at hseats
  cases hseats with
  | @cons n ns _ _ _ _ ha new hseats =>
  have hleft := hcarries.leave ha.footed
  have hleft' := hcarries'.leave ha.footed'
  have hcontext := hm.context.leave a.body a'.body (hseats.rootless hleft hleft')
  have hsettled := ha.settle hm.world.distinct hr
  have hstep : m.step limit = resume m.heap (leave a.body m.context) (a.settle r) m.callers := by
    rw [step, hcontrol]
  have hstep' : m'.step limit =
      resume m'.heap (leave a'.body m'.context) (a'.settle r') m'.callers := by
    rw [step, hcontrol']
  rw [hstep, hstep']
  have hcallers := hm.callers
  have hworld := hm.world
  generalize m.callers = cs at hseats hleft hcallers
  generalize m'.callers = cs' at hseats hleft' hcallers
  cases hcallers with
  | nil =>
    cases hseats
    refine ⟨[], hm.heap, hcontext, .finished hsettled.outcome, .nil, .nil, hleft, hleft', ?_⟩
    obtain ⟨k, hk, -⟩ := hworld.spare
    exact ⟨hworld.distinct, hworld.within, k, hk, by simp⟩
  | @cons d d' ds ds' hd hds =>
    cases hseats with
    | @cons n' ns' _ _ _ _ hseat new' hseats =>
    have hunder : Site.Under w n' ns' ds ds' ⟨m.heap, leave a.body m.context, d.activation⟩
        ⟨m'.heap, leave a'.body m'.context, d'.activation⟩ := by
      refine ⟨⟨hseat, hm.heap, hcontext⟩, hds, hseats, new', hleft, hleft', hworld.distinct,
        hworld.within, ?_⟩
      obtain ⟨k, hk, hlt⟩ := hworld.spare
      exact ⟨k, hk, fun m hm => hlt m (List.mem_cons_of_mem _ hm)⟩
    refine ⟨n' :: ns', ?_⟩
    generalize a.settle r = x at hsettled
    generalize a'.settle r' = y at hsettled
    cases hsettled with
    | failure hf => exact hunder.leavingAt (.failure hf)
    | «return» hc hv => exact hunder.leavingAt (.return hc hv)
    | @ok v v' hv =>
      obtain ⟨hresult, hmentions⟩ := hd
      have hstore := hunder.store hmentions hv
      simp only [resume, hresult]
      generalize Site.store _ d'.result v = x at hstore
      generalize Site.store _ d'.result v' = y at hstore
      cases hstore with
      | error hf => exact hunder.leavingAt (.failure hf)
      | ok hu => exact hu.runningAt

theorem step_running {a a' : Activation} (hcontrol : m.control = .running a)
    (hcontrol' : m'.control = .running a')
    (hhouses : ∀ i s, m'.next? = some (i, s) → s.Houses i) :
    ∃ w' ns', w.Grows w' ∧ (m.step limit).Twin w' ns' (m'.step limit) := by
  have hseats := hm.seats
  have hcarries := hm.carries
  have hcarries' := hm.carries'
  rw [active, hcontrol] at hcarries
  rw [active, hcontrol'] at hcarries'
  rw [active, active, hcontrol, hcontrol'] at hseats
  cases hseats with
  | @cons n ns _ _ _ _ ha new hseats =>
  have hunder : Site.Under w n ns m.callers m'.callers ⟨m.heap, m.context, a⟩
      ⟨m'.heap, m'.context, a'⟩ :=
    ⟨⟨ha, hm.heap, hm.context⟩, hm.callers, hseats, new, hcarries, hcarries', hm.world⟩
  have hpc := ha.activation.pc
  rcases ha.activation.body.code_at a'.pc with ⟨hnone, hnone'⟩ | ⟨i, i', hi, hi', hlike⟩
  · refine ⟨w, n :: ns, .refl w, ?_⟩
    have hleaving := hunder.leavingAt (.ok Value.twin_nil)
    simp only [step, hcontrol, hcontrol', hpc, hnone, hnone']
    exact hleaving
  · have hnext : m.next? = some (i, ⟨m.heap, m.context, { a with pc := a.pc + 1 }⟩) := by
      simp only [next?, hcontrol, hpc, hi, Option.map_some]
    have hnext' : m'.next? = some (i', ⟨m'.heap, m'.context, { a' with pc := a'.pc + 1 }⟩) := by
      simp only [next?, hcontrol', hi', Option.map_some]
    have hat : Site.Under w n ns m.callers m'.callers
        ⟨m.heap, m.context, { a with pc := a.pc + 1 }⟩
        ⟨m'.heap, m'.context, { a' with pc := a'.pc + 1 }⟩ := by
      refine { hunder with site := { hunder.site with activation := ?_ } }
      exact { ha.activation with pc := congrArg (· + 1) hpc }
    rw [step_of_next hnext, step_of_next hnext']
    exact hat.follow limit (List.mem_of_getElem? hi') hlike (hhouses i' _ hnext')

/-- Twins step to twins. -/
theorem step (hhouses : ∀ i s, m'.next? = some (i, s) → s.Houses i) :
    ∃ w' ns', w.Grows w' ∧ (m.step limit).Twin w' ns' (m'.step limit) := by
  have hcontrols := hm.control
  cases hcontrol : m.control <;> cases hcontrol' : m'.control <;>
    rw [hcontrol, hcontrol'] at hcontrols
  all_goals try cases hcontrols
  · exact hm.step_running limit hcontrol hcontrol' hhouses
  · obtain ⟨ns', hstep⟩ := hm.step_leaving limit hcontrol hcontrol'
    exact ⟨w, ns', .refl w, hstep⟩
  · have hfinished : m.step limit = m := by rw [Machine.step, hcontrol]
    have hfinished' : m'.step limit = m' := by rw [Machine.step, hcontrol']
    exact ⟨w, ns, .refl w, by rw [hfinished, hfinished']; exact hm⟩

/-- Twins come to twins, as far as the run with the flags finds bodies housed. -/
theorem after (k : Nat)
    (hhouses : ∀ j < k, ∀ i s, (m'.after limit j).next? = some (i, s) → s.Houses i) :
    ∃ w' ns', w.Grows w' ∧ (m.after limit k).Twin w' ns' (m'.after limit k) := by
  induction k with
  | zero => exact ⟨w, ns, .refl w, hm⟩
  | succ k ih =>
    obtain ⟨v, ms, hv, hk⟩ := ih fun j hj => hhouses j (Nat.lt_succ_of_lt hj)
    obtain ⟨u, ls, hu, hstep⟩ := hk.step limit (hhouses k (Nat.lt_succ_self k))
    rw [after_succ, after_succ]
    exact ⟨u, ls, hv.trans hu, hstep⟩

end Machine.Twin

end ObjectIr
