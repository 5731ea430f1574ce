import Mathlib.Tactic.IntervalCases
import ObjectIr.Proofs.Sessions.Moves

/-!
# Locals of the activations around a closure

Code addresses a local by how many static levels out it lives. In code where each closure lies in
the static scope of the body that makes it, these levels are those of the activations that led to
the closure (`level?_of_makes`), and the cells around it stand for the same activations
(`History.Aligned.cell_at`). A body without a scope of its own is a level less far from them, which
is what `Footing.locate?` takes off. So the variable is a slot of the scope that stands for the
activation as many hops out (`lexical_addressing`), whatever the flags of the bodies in between.
-/

namespace ObjectIr

/-! ### Static levels -/

/-- The code was built, and each closure lies in the static scope of the body that makes it. -/
def Body.Lexical (b : Body) : Prop :=
  b.Built ∧ ∀ x ∈ b :: b.nested, ∀ y, x.Makes y → y.kind = .closure →
    y.scope.outer = x.scope.levels

theorem Body.Lexical.hereditary : Hereditary Body.Lexical := by
  rintro b ⟨hbuilt, houter⟩ i hi b' hb'
  refine ⟨builtCode_closed b hbuilt i hi b' hb', fun x hx => houter x ?_⟩
  exact List.mem_cons_of_mem _ (Body.nested_of_body? hi hb' x hx)

/-- A local in use was declared, and a body uses locals of its own only if it has a scope. -/
theorem Body.Built.lexical_used {b : Body} (hb : b.Built) {i : Instr} (hi : i ∈ b.code)
    {name : String} {depth offset : Nat} (hv : .lexical name depth offset ∈ i.usedVariables) :
    (depth = 0 → b.pushesScope = true) ∧
      ∃ level, b.scope.level? depth = some level ∧ offset < level.locals.length := by
  obtain ⟨d, id, hd⟩ := hb b List.mem_cons_self
  obtain ⟨hs, temps, -, rfl⟩ := Draft.build_eq_ok_iff.1 hd
  have hcheck := (Draft.checkInstr_eq_ok_iff.1 (hs.code i hi)).2 _ hv
  rw [Draft.checkVariable] at hcheck
  split at hcheck
  · cases hcheck
  · next hshares =>
    refine ⟨?_, ?_⟩
    · rintro rfl
      rw [Body.pushesScope, Body.isEliminated, Body.reusesScope]
      rw [Draft.sharesScope, beq_self_eq_true, Bool.and_true] at hshares
      show (!d.flags.has .scopeEliminated && !d.flags.has .reuseParentScope) = true
      rw [← Bool.not_or]
      simpa using hshares
    · split at hcheck
      · next level hlevel =>
        split at hcheck
        · next hlt => exact ⟨level, hlevel, hlt⟩
        · cases hcheck
      · cases hcheck

/-- Along closures, static levels are those of the bodies that make one another. -/
theorem level?_of_makes {y : Body} :
    ∀ {d : Nat} {x : Body} {bodies : List Body},
      List.IsChain (fun x y => y.Makes x) (x :: bodies) → (∀ b ∈ x :: bodies, b.Lexical) →
      (x :: bodies)[d]? = some y →
      (∀ k < d, ∀ z, (x :: bodies)[k]? = some z → z.kind = .closure) →
      x.scope.level? d = some y.scope.level := by
  intro d
  induction d with
  | zero =>
    intro x bodies _ _ hy _
    cases hy
    rfl
  | succ d ih =>
    intro x bodies hchain hlexical hy hclosures
    cases bodies with
    | nil => cases hy
    | cons x' bodies =>
      rw [List.isChain_cons_cons] at hchain
      have hlexical' : ∀ b ∈ x' :: bodies, b.Lexical := fun b hb =>
        hlexical b (List.mem_cons_of_mem _ hb)
      have houter : x.scope.outer = x'.scope.levels :=
        (hlexical' x' List.mem_cons_self).2 x' List.mem_cons_self x hchain.1
          (hclosures 0 (Nat.succ_pos d) x rfl)
      have hrest := ih hchain.2 hlexical' hy fun k hk z hz =>
        hclosures (k + 1) (Nat.succ_lt_succ hk) z hz
      rw [StaticScope.level?, StaticScope.levels, List.getElem?_cons_succ, houter]
      exact hrest

/-! ### Dynamic cells -/

/-- Past entrants that have scopes, the cell at a depth is that of the entrant there. -/
theorem History.Aligned.cell_at {h : History} {e : Entrant} :
    ∀ {k : Nat} {cells : List ScopeCell} {es : List Entrant}, h.Aligned cells es →
      es[k]? = some e → (∀ j ≤ k, ∀ x, es[j]? = some x → x.rootless = false) →
      ∃ c, cells[k]? = some c ∧ h.standing? e.number = some c ∧ c.layout = e.body.scope := by
  intro k
  induction k with
  | zero =>
    intro cells es ha he hrooted
    cases es with
    | nil => cases he
    | cons x es =>
      cases he
      have hroot := hrooted 0 (Nat.le_refl 0) e rfl
      cases cells with
      | nil =>
        rw [Aligned, hroot] at ha
        cases ha
      | cons c cs =>
        rw [Aligned, hroot] at ha
        rcases ha with ha | ⟨hs, hl, -⟩
        · cases ha
        · exact ⟨c, rfl, hs, hl⟩
  | succ k ih =>
    intro cells es ha he hrooted
    cases es with
    | nil => cases he
    | cons x es =>
      have hroot := hrooted 0 (Nat.zero_le _) x rfl
      cases cells with
      | nil =>
        rw [Aligned, hroot] at ha
        cases ha
      | cons c cs =>
        rw [Aligned, hroot] at ha
        rcases ha with ha | ⟨-, -, ha⟩
        · cases ha
        · exact ih ha he fun j hj y hy => hrooted (j + 1) (Nat.succ_le_succ hj) y hy

/-! ### Accesses -/

/-- At the site the variable is a slot of the cell: reads and writes succeed, and go there. -/
structure Site.Addresses (t : Site) (r : Variable) (c : ScopeCell) (offset : Nat) : Prop where
  load : ∃ v, (t.heap.slotsOf c)[offset]? = some v ∧ t.load r = .ok v
  store : ∀ v, ∃ h, t.store r v = .ok { t with heap := h } ∧
    h.slotsOf c = (t.heap.slotsOf c).set offset v ∧
    ∀ d : ScopeCell, d.id ≠ c.id → h.slotsOf d = t.heap.slotsOf d

theorem Site.addresses {t : Site} {name : String} {depth offset k : Nat} {scope : DynamicScope}
    {c : ScopeCell} (hl : t.activation.footing.locate? depth = some (scope, k))
    (hc : scope.cell? k = some c) (ho : offset < (t.heap.slotsOf c).length) :
    t.Addresses (.lexical name depth offset) c offset where
  load := by
    obtain ⟨v, hv⟩ : ∃ v, (t.heap.slotsOf c)[offset]? = some v :=
      ⟨_, List.getElem?_eq_getElem ho⟩
    refine ⟨v, hv, ?_⟩
    rw [Site.load, hl]
    exact (Heap.readLocal_eq_ok_iff ..).2 ⟨c, hc, hv⟩
  store := by
    intro v
    have hwrite := (Heap.writeLocal_eq_ok_iff t.heap scope k offset v _).2 ⟨c, hc, ho, rfl⟩
    refine ⟨{ t.heap with slots := t.heap.slots.insert c.id ((t.heap.slotsOf c).set offset v) },
      ?_, ?_, fun d hd => ?_⟩
    · rw [Site.store, hl]
      simp only
      rw [hwrite]
      rfl
    · simp [Heap.slotsOf]
    · simp [Heap.slotsOf, Std.ExtTreeMap.getElem?_insert, Ne.symm hd]

namespace Session

/-- One scope stands for an activation, for no other, and for good. -/
structure Stands (limit : Nat) (p : Body → Prop) (s : Session) (e : Entrant) (c : ScopeCell) :
    Prop where
  now : s.history.standing? e.number = some c
  alone : ∀ n d, s.history.standing? n = some d → d.id = c.id → n = e.number
  always : ∀ s', Leads limit p s s' → s'.history.standing? e.number = some c
  /-- While the activation is active, the scope is its own or its bridge. -/
  active : ∀ (k : Nat) (l : Lineage) (a : Activation), s.history.stack[k]? = some l →
    s.machine.active[k]? = some a → l.self = e → a.standing? = some c

/--
In the code of an active closure, the variable names a local of the activation as many hops out as
its depth says: those before are closures, and none that is crossed goes without any scope.
-/
def Refers (s : Session) (a : Activation) (r : Variable) (e : Entrant) (offset : Nat) : Prop :=
  ∃ (k : Nat) (l : Lineage) (i : Instr) (name : String) (depth : Nat),
    s.history.stack[k]? = some l ∧ s.machine.active[k]? = some a ∧ a.body.kind = .closure ∧
    i ∈ a.body.code ∧ r ∈ i.usedVariables ∧ r = .lexical name depth offset ∧
    l.chain[depth]? = some e ∧
    (∀ j < depth, ∀ x, l.chain[j]? = some x → x.body.kind = .closure) ∧
    ∀ j, 0 < j → j ≤ depth → ∀ x, l.chain[j]? = some x → x.rootless = false

/-- From now on the activation can be at the site. -/
def At (s : Session) (a : Activation) (t : Site) : Prop :=
  t.activation.footing = a.footing ∧ s.machine.heap.Grows t.heap

end Session

theorem Activation.locate_outer {a : Activation} {k : Nat} {c : ScopeCell}
    (hc : a.outer[k]? = some c) : ∃ scope j, a.footing.locate? (k + 1) = some (scope, j) ∧
      scope.cell? j = some c := by
  rw [Activation.outer] at hc
  cases hfooting : a.footing with
  | own s =>
    rw [hfooting] at hc
    exact ⟨s, k + 1, rfl, hc⟩
  | guest parent =>
    rw [hfooting] at hc
    exact ⟨parent, k, rfl, hc⟩
  | nowhere =>
    rw [hfooting] at hc
    cases hc

namespace History.Fits

variable {h : History} {l : Lineage} {a : Activation} (hf : h.Fits l a)

include hf

theorem own_cell (hpushes : a.body.pushesScope = true) :
    ∃ s, a.footing.locate? 0 = some (s, 0) ∧ h.standing? l.number = some s.cell ∧
      s.cell.layout = a.body.scope := by
  have hgrounded := hf.grounded
  rw [Activation.Grounded] at hgrounded
  cases hfooting : a.footing with
  | own s =>
    rw [hfooting] at hgrounded
    refine ⟨s, rfl, ?_, hgrounded.2⟩
    rw [hf.standing, Activation.standing?, Activation.captured?, hfooting]
    rfl
  | guest parent | nowhere =>
    rw [hfooting, hpushes] at hgrounded
    cases hgrounded.1

variable {p : Body → Prop} {k : Heap} (hs : h.Sound p k) (hp : ∀ b, p b → b.Lexical)

include hs hp

theorem bodies_lexical : ∀ b ∈ a.body :: l.creators.map Entrant.body, b.Lexical := by
  rw [← hf.body]
  refine List.forall_mem_cons.2 ⟨hp _ (hs.bodies _ hf.known), fun b hb => ?_⟩
  obtain ⟨x, hx, rfl⟩ := List.mem_map.1 hb
  exact hp _ (hs.bodies x (hf.descent.known x hx))

theorem level?_chain {depth : Nat} {e : Entrant} (he : l.chain[depth]? = some e)
    (hclosures : ∀ j < depth, ∀ x, l.chain[j]? = some x → x.body.kind = .closure) :
    a.body.scope.level? depth = some e.body.scope.level := by
  have hchain : ∀ j : Nat, (a.body :: l.creators.map Entrant.body)[j]? =
      l.chain[j]?.map Entrant.body := by
    intro j
    rw [← hf.body, ← List.map_cons, List.getElem?_map, Lineage.chain]
  refine level?_of_makes hf.descent.makes (hf.bodies_lexical hs hp)
    (by rw [hchain, he]; rfl) fun j hj z hz => ?_
  rw [hchain, Option.map_eq_some_iff] at hz
  obtain ⟨x, hx, rfl⟩ := hz
  exact hclosures j hj x hx

/-- The variable is located at the cell that stands for the activation it names. -/
theorem locate {i : Instr} (hi : i ∈ a.body.code) {name : String} {depth offset : Nat}
    (hv : .lexical name depth offset ∈ i.usedVariables) {e : Entrant}
    (he : l.chain[depth]? = some e)
    (hclosures : ∀ j < depth, ∀ x, l.chain[j]? = some x → x.body.kind = .closure)
    (hrooted : ∀ j, 0 < j → j ≤ depth → ∀ x, l.chain[j]? = some x → x.rootless = false) :
    ∃ c scope k', h.standing? e.number = some c ∧ a.footing.locate? depth = some (scope, k') ∧
      scope.cell? k' = some c ∧ offset < c.layout.locals.length := by
  obtain ⟨hown, level, hlevel, hoffset⟩ :=
    (hf.bodies_lexical hs hp a.body List.mem_cons_self).1.lexical_used hi hv
  rw [hf.level?_chain hs hp he hclosures] at hlevel
  cases hlevel
  cases depth with
  | zero =>
    cases he
    obtain ⟨s, hlocate, hstanding, hlayout⟩ := hf.own_cell (hown rfl)
    refine ⟨s.cell, s, 0, hstanding, hlocate, rfl, ?_⟩
    rw [hlayout, ← hf.body]
    exact hoffset
  | succ n =>
    obtain ⟨c, hcell, hstanding, hlayout⟩ : ∃ c, a.outer[n]? = some c ∧
        h.standing? e.number = some c ∧ c.layout = e.body.scope :=
      hf.descent.aligned.cell_at he fun j hj x hx =>
        hrooted (j + 1) (Nat.succ_pos j) (Nat.succ_le_succ hj) x hx
    obtain ⟨scope, j, hlocate, hc⟩ := Activation.locate_outer hcell
    refine ⟨c, scope, j, hstanding, hlocate, hc, ?_⟩
    rw [hlayout]
    exact hoffset

end History.Fits

/-- What an active closure refers to is a slot of the scope that stands for the activation. -/
theorem Session.Refers.addresses (limit : Nat) {s : Session} (hs : s.Accord Body.Lexical)
    {a : Activation} {r : Variable} {e : Entrant} {offset : Nat} (hr : s.Refers a r e offset) :
    ∃ c, s.Stands limit Body.Lexical e c ∧ ∀ t, s.At a t → t.Addresses r c offset := by
  obtain ⟨k, l, i, name, depth, hl, ha, -, hi, hv, rfl, he, hclosures, hrooted⟩ := hr
  have hsound := hs.follows.sound
  have hla := History.fits_at hs.follows.fits hl ha
  obtain ⟨c, scope, k', hstanding, hlocate, hcell, hoffset⟩ :=
    hla.locate hsound (fun b hb => hb) hi hv he hclosures hrooted
  refine ⟨c, ⟨hstanding, fun n d hd hdc => ?_, fun s' hs' => ?_, fun j x b hx hb hself => ?_⟩,
    fun t ⟨hfooting, hgrows⟩ => ?_⟩
  · exact hsound.distinct n e.number d c hd hstanding hdc
  · exact (extends_of_leads Body.Lexical.hereditary hs hs').2.1.standing _ _ hstanding
  · rw [← (History.fits_at hs.follows.fits hx hb).standing, Lineage.number, hself, hstanding]
  · obtain ⟨hid, hslots⟩ := hsound.cells _ c hstanding
    refine Site.addresses (by rw [hfooting]; exact hlocate) hcell ?_
    rw [hgrows.slots c hid, hslots]
    exact hoffset

/--
A closure's local is a slot of the one scope that stands for the activation around it. Reading and
writing it never fails, and what is written through one closure is read through another, then or
later, exactly when both name the same local of the same activation.
-/
theorem lexical_addressing {limit : Nat} {s : Session} (hs : s.Reached limit Body.Lexical) :
    (∀ a r e offset, s.Refers a r e offset →
      ∃ c, s.Stands limit Body.Lexical e c ∧ ∀ t, s.At a t → t.Addresses r c offset) ∧
    ∀ a r e offset s' a' r' e' offset', s.Refers a r e offset →
      Session.Leads limit Body.Lexical s s' → s'.Refers a' r' e' offset' →
      ∀ t u t' v, s'.At a t → t.store r v = .ok u → s'.At a' t' → t'.heap = u.heap →
        t'.load r' = if e'.number = e.number ∧ offset' = offset then .ok v
          else Site.load { t' with heap := t.heap } r' := by
  have haccord := hs.accord Body.Lexical.hereditary
  refine ⟨fun a r e offset hr => hr.addresses limit haccord, ?_⟩
  rintro a r e offset s' a' r' e' offset' hr hlater hr' t u t' v ⟨hfooting, hgrows⟩ hstore hat'
    hheap
  obtain ⟨haccord', -, hgrown⟩ := Session.extends_of_leads Body.Lexical.hereditary haccord hlater
  obtain ⟨c, hc, hcell⟩ := hr.addresses limit haccord
  obtain ⟨c', hc', hcell'⟩ := hr'.addresses limit haccord'
  -- what the write made of the slots
  obtain ⟨k, hk, hwritten, hkept⟩ := (hcell t ⟨hfooting, hgrown.trans hgrows⟩).store v
  rw [hk] at hstore
  cases hstore
  -- what is read after the write, and what would have been read before it
  obtain ⟨w, hw, hload⟩ := (hcell' t' hat').load
  obtain ⟨w₀, hw₀, hload₀⟩ := (hcell' { t' with heap := t.heap } ⟨hat'.1, hgrows⟩).load
  have hnow := hc.always s' hlater
  rw [hload, hload₀]
  rw [hheap] at hw
  simp only at hw hw₀
  by_cases he : e'.number = e.number
  · have hsame : c' = c := by
      have := hc'.now
      rw [he, hnow] at this
      exact (Option.some.inj this).symm
    rw [hsame, hwritten] at hw
    rw [hsame] at hw₀
    by_cases ho : offset' = offset
    · rw [if_pos ⟨he, ho⟩]
      rw [ho] at hw hw₀
      have hlt := (List.getElem?_eq_some_iff.1 hw₀).1
      rw [List.getElem?_set_self hlt] at hw
      rw [Option.some.inj hw]
    · rw [if_neg fun h => ho h.2]
      rw [List.getElem?_set_ne (Ne.symm ho), hw₀] at hw
      rw [Option.some.inj hw]
  · have hother : c'.id ≠ c.id := fun hid => he (hc'.alone _ _ hnow hid.symm).symm
    rw [if_neg fun h => he h.1]
    rw [hkept c' hother, hw₀] at hw
    rw [Option.some.inj hw]

/-- A block that runs in the scope it captured, and reads a local two levels out. -/
def innerBlock : Draft where
  name := "inner"
  scope := ⟨⟨2, .closure, []⟩, [⟨1, .closure, []⟩, ⟨0, .script, ["x"]⟩]⟩
  flags := ⟨[.reuseParentScope]⟩
  code := [.ret (.var (.lexical "x" 2 0))]

/-- A block without a scope of its own, which makes the inner one and yields to it. -/
def outerBlock : Draft where
  name := "outer"
  scope := ⟨⟨1, .closure, []⟩, [⟨0, .script, ["x"]⟩]⟩
  flags := ⟨[.scopeEliminated]⟩
  code := [
    .buildClosure (.temp ⟨.generic, 0⟩) (innerBlock.body 2 {}),
    .yield (.temp ⟨.generic, 0⟩) (.var (.temp ⟨.generic, 0⟩)) []]

/-- A script with a local, which makes the outer block and yields to it. -/
def nestingScript : Draft where
  name := "<main>"
  scope := ⟨⟨0, .script, ["x"]⟩, []⟩
  code := [
    .buildClosure (.temp ⟨.generic, 0⟩) (outerBlock.body 1 { generic := 1 }),
    .yield (.temp ⟨.generic, 0⟩) (.var (.temp ⟨.generic, 0⟩)) []]

theorem nestingScript_lexical : (nestingScript.body 0 { generic := 1 }).Lexical := by
  have hnested : (nestingScript.body 0 { generic := 1 }).nested =
      [outerBlock.body 1 { generic := 1 }, innerBlock.body 2 {}] := rfl
  refine ⟨fun b hb => ?_, fun b hb y ⟨r, hy⟩ _ => ?_⟩ <;>
    rw [hnested, List.mem_cons, List.mem_cons, List.mem_singleton] at hb
  · rcases hb with rfl | rfl | rfl
    · exact ⟨nestingScript, 0, rfl⟩
    · exact ⟨outerBlock, 1, rfl⟩
    · exact ⟨innerBlock, 2, rfl⟩
  · rcases hb with rfl | rfl | rfl
    · simp only [Draft.body, nestingScript, List.mem_cons, InstrOf.buildClosure.injEq, reduceCtorEq,
        List.not_mem_nil, or_false] at hy
      rw [hy.2]
      rfl
    · simp only [Draft.body, outerBlock, List.mem_cons, InstrOf.buildClosure.injEq, reduceCtorEq,
        List.not_mem_nil, or_false] at hy
      rw [hy.2]
      rfl
    · simp [Draft.body, innerBlock] at hy

/-- The session where the inner block is about to read the local. -/
def nestingSession : Session :=
  ((((Session.start.enter 8 .initial {} (.script (nestingScript.body 0 { generic := 1 }))).step
    8).step 8).step 8).step 8

theorem nestingSession_reached : nestingSession.Reached 8 Body.Lexical := by
  have henter : Session.Leads 8 Body.Lexical Session.start (Session.start.enter 8 .initial {}
      (.script (nestingScript.body 0 { generic := 1 }))) :=
    .single (.enter rfl (.refl _) (Heap.initial_vetted _) (by rintro f ⟨⟩) nestingScript_lexical)
  exact (((henter.tail (.step _)).tail (.step _)).tail (.step _)).tail (.step _)

theorem lexical_addressing_nestingSession :
    nestingSession.Reached 8 Body.Lexical ∧ ∃ a e c,
      nestingSession.Refers a (.lexical "x" 2 0) e 0 ∧
        nestingSession.Stands 8 Body.Lexical e c ∧
        ∀ t, nestingSession.At a t → t.Addresses (.lexical "x" 2 0) c 0 := by
  refine ⟨nestingSession_reached, ?_⟩
  have hactive : nestingSession.machine.active.head?.map (fun a => (a.body.kind,
      a.body.code.any fun i => decide (.lexical "x" 2 0 ∈ i.usedVariables))) =
      some (.closure, true) := by decide +kernel
  have hstack : nestingSession.history.stack.head?.map
      (fun l => l.chain.map fun e => (e.body.kind, e.rootless)) =
      some [(.closure, false), (.closure, false), (.script, false)] := by decide +kernel
  obtain ⟨a, ha, hbody⟩ := Option.map_eq_some_iff.1 hactive
  obtain ⟨l, hl, hchain⟩ := Option.map_eq_some_iff.1 hstack
  obtain ⟨hkind, hany⟩ := Prod.mk.inj hbody
  obtain ⟨i, hi, hused⟩ := List.any_eq_true.1 hany
  have hat : ∀ (j : Nat) (x : Entrant), l.chain[j]? = some x → some (x.body.kind, x.rootless) =
      [(BodyKind.closure, false), (.closure, false), (.script, false)][j]? := by
    intro j x hx
    rw [← hchain, List.getElem?_map, hx]
    rfl
  obtain ⟨script, hscript⟩ : ∃ script, l.chain[2]? = some script := by
    have hlength := congrArg List.length hchain
    rw [List.length_map] at hlength
    exact ⟨_, List.getElem?_eq_getElem (by rw [hlength]; decide)⟩
  have hrefers : nestingSession.Refers a (.lexical "x" 2 0) script 0 := by
    refine ⟨0, l, i, "x", 2, by rw [← List.head?_eq_getElem?, hl],
      by rw [← List.head?_eq_getElem?, ha], hkind, hi, of_decide_eq_true hused, rfl, hscript,
      fun j hj x hx => ?_, fun j hpos hj x hx => ?_⟩
    · have := hat j x hx
      interval_cases j <;> simp_all
    · have := hat j x hx
      interval_cases j <;> simp_all
  obtain ⟨c, hstands, haddresses⟩ :=
    (lexical_addressing nestingSession_reached).1 a _ script 0 hrefers
  exact ⟨a, script, c, hrefers, hstands, haddresses⟩

end ObjectIr
