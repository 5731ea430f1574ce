import ObjectIr.Proofs.LexicalAddressing
import ObjectIr.Proofs.NonlocalReturn
import ObjectIr.Proofs.Surroundings.Accord

/-!
# Locals and returns of module bodies

The body of a class, a module or a metaclass gets the scope on top of the stack for a parent, where
a closure gets the scope that its maker stands for. If the activation that holds the definition has
a scope of its own, the two are the same. Then the static levels of a module body are those of the
activations around it (`Accords.levels_drop`), its locals are slots of the scopes that stand for
them (`Accords.addresses`), and a non-local return in it gets to the script or method around it.
Whatever flags the bodies have in which it does not lie directly is of no account.

Without a scope of the holder's own the one on top of the stack belongs to an activation further
out, and each level is missed by one.
-/

namespace ObjectIr

theorem Exec.value_of_load {s : Site} {r : Variable} {v : Value} (h : s.load r = .ok v) :
    Exec.value (.var r) s = .ok v s := by
  rw [Exec.value, Exec.reading, Site.evaluate, h]
  rfl

/-- At this depth there is nothing past the nearest script or method around the body. -/
def Body.Reaches (b : Body) (depth : Nat) : Prop :=
  ∀ j < depth, ∀ level, b.scope.level? j = some level → level.kind.isReturnTarget = false

/-- The holder of each module body among the entrants has a scope of its own. -/
def Housed (es : List Entrant) : Prop := es.IsChain fun x y => y.body.Houses x.body

theorem Housed.bodies {es : List Entrant} (h : Housed es) :
    (es.map Entrant.body).IsChain fun x y => y.Houses x := (List.isChain_map _).2 h

namespace LexicalSession

/-- Each entrant lies in the next, up to a script or method. -/
structure Ascends (s : LexicalSession) (es : List Entrant) : Prop where
  known : ∀ e ∈ es, e ∈ s.history.roster
  holds : es.IsChain fun x y => y.body.Holds x.body
  home : ∃ between home, es = between ++ [home] ∧
    (∀ e ∈ between, e.body.kind.isReturnTarget = false) ∧
      home.body.kind.isReturnTarget = true

namespace Accords

variable {s : LexicalSession} (hs : s.Accords)

include hs

theorem placed {e : Entrant} (he : e ∈ s.history.roster) : e.body.Placed :=
  hs.session.follows.sound.bodies e he

theorem ascends_of_around : ∀ {es : List Entrant} {e : Entrant}, e ∈ s.history.roster →
    s.around e.number = es → s.Ascends (e :: es) := by
  intro es
  induction es with
  | nil =>
    intro e he hes
    rcases hs.surrounds.nests e he with ⟨hkind, -⟩ | ⟨x, -, -, hx⟩
    · exact ⟨by simpa using he, .singleton e, [], e, rfl, by simp, hkind⟩
    · rw [hes] at hx
      cases hx
  | cons x es ih =>
    intro e he hes
    rcases hs.surrounds.nests e he with ⟨-, hnil⟩ | ⟨y, hy, hholds, hys⟩
    · rw [hes] at hnil
      cases hnil
    · rw [hes] at hys
      obtain ⟨rfl, hrest⟩ := List.cons.inj hys
      obtain ⟨hknown, hchain, between, home, hsplit, hkinds, hhome⟩ := ih hy hrest.symm
      refine ⟨List.forall_mem_cons.2 ⟨he, hknown⟩, List.isChain_cons_cons.2 ⟨hholds, hchain⟩,
        e :: between, home, by rw [hsplit, List.cons_append], ?_, hhome⟩
      exact List.forall_mem_cons.2 ⟨((hs.placed hy).encloses.holds hholds).1, hkinds⟩

/-- Out from each activation there are others around it, up to a script or method. -/
theorem ascends {e : Entrant} (he : e ∈ s.history.roster) : s.Ascends (s.chain e) :=
  hs.ascends_of_around he rfl

/-- Static levels are those of the bodies in which one lies. -/
theorem levels_drop {x : Entrant} : ∀ {d : Nat} {e : Entrant} {es : List Entrant},
    (∀ y ∈ es, y ∈ s.history.roster) → (e :: es).IsChain (fun x y => y.body.Holds x.body) →
      (e :: es)[d]? = some x → e.body.scope.levels.drop d = x.body.scope.levels := by
  intro d
  induction d with
  | zero =>
    intro e es _ _ hx
    cases hx
    rfl
  | succ d ih =>
    intro e es hknown hholds hx
    cases es with
    | nil => cases hx
    | cons y es =>
      rw [List.isChain_cons_cons] at hholds
      obtain ⟨hy, hknown⟩ := List.forall_mem_cons.1 hknown
      rw [StaticScope.levels, List.drop_succ_cons, ((hs.placed hy).encloses.holds hholds.1).2]
      exact ih hknown hholds.2 hx

theorem levels_chain {e x : Entrant} (he : e ∈ s.history.roster) {d : Nat}
    (hx : (s.chain e)[d]? = some x) : e.body.scope.levels.drop d = x.body.scope.levels := by
  obtain ⟨hknown, hholds, -⟩ := hs.ascends he
  exact hs.levels_drop (List.forall_mem_cons.1 hknown).2 hholds hx

/-- Up to the nearest script or method, there is an activation for each level. -/
theorem reaches {e : Entrant} (he : e ∈ s.history.roster) {depth : Nat}
    (hdepth : e.body.Reaches depth) : ∃ x, (s.chain e)[depth]? = some x := by
  obtain ⟨between, home, hsplit, -, hhome⟩ := (hs.ascends he).home
  by_contra hnone
  have hlength : (s.chain e).length ≤ depth := by
    simpa [← Option.ne_none_iff_exists'] using hnone
  rw [hsplit, List.length_append, List.length_singleton] at hlength
  have hat : (s.chain e)[between.length]? = some home := by simp [hsplit]
  have hlevel : e.body.scope.level? between.length = some home.body.scope.level := by
    have hdrop := congrArg List.head? (hs.levels_chain he hat)
    rwa [List.head?_drop] at hdrop
  have hkind := hdepth _ (by omega) _ hlevel
  have hhome : home.body.scope.level.kind.isReturnTarget = true := hhome
  rw [hkind] at hhome
  cases hhome

section Active

variable {k : Nat} {l : Lineage} {a : Activation} (hl : s.history.stack[k]? = some l)
  (ha : s.machine.active[k]? = some a)

include hl ha

theorem fits_at : s.history.Fits l a := History.fits_at hs.session.follows.fits hl ha

theorem enclosed_at : s.history.Enclosed a.body a.outer (s.around l.number) := by
  obtain ⟨hk, rfl⟩ := List.getElem?_eq_some_iff.1 hl
  obtain ⟨hk', rfl⟩ := List.getElem?_eq_some_iff.1 ha
  exact hs.surrounds.enclosed.get hk hk'

/-- A local of an activation around is a slot of the scope that stands for it. -/
theorem addresses {i : Instr} (hi : i ∈ a.body.code) {name : String} {depth offset : Nat}
    (hv : .lexical name depth offset ∈ i.usedVariables) {e : Entrant}
    (he : (s.chain l.self)[depth]? = some e)
    (hhoused : Housed ((s.chain l.self).take (depth + 1))) :
    ∃ c, s.history.standing? e.number = some c ∧ c.layout = e.body.scope ∧
      ∀ t, s.At a t → t.Addresses (.lexical name depth offset) c offset := by
  have hla := hs.fits_at hl ha
  have hsound := hs.session.follows.sound
  have hplaced : a.body.Placed := by
    rw [← hla.body]
    exact hs.placed hla.known
  obtain ⟨hown, level, hlevel, hoffset⟩ := hplaced.1.lexical_used hi hv
  obtain ⟨c, scope, j, hstanding, hlayout, hlocate, hcell⟩ : ∃ c scope j,
      s.history.standing? e.number = some c ∧ c.layout = e.body.scope ∧
        a.footing.locate? depth = some (scope, j) ∧ scope.cell? j = some c := by
    cases depth with
    | zero =>
      cases he
      obtain ⟨scope, hlocate, hstanding, hlayout⟩ := hla.own_cell (hown rfl)
      exact ⟨scope.cell, scope, 0, hstanding, by rw [hlayout, hla.body], hlocate, rfl⟩
    | succ n =>
      obtain ⟨c, hc, hstanding, hlayout⟩ := (hs.enclosed_at hl ha).cell_at he (by
        have hbodies := hhoused.bodies
        rw [chain, List.take_succ_cons, List.map_cons, hla.body] at hbodies
        exact hbodies)
      obtain ⟨scope, j, hlocate, hcell⟩ := Activation.locate_outer hc
      exact ⟨c, scope, j, hstanding, hlayout, hlocate, hcell⟩
  refine ⟨c, hstanding, hlayout, fun t ⟨hfooting, hgrows⟩ => ?_⟩
  obtain ⟨hid, hslots⟩ := hsound.cells _ c hstanding
  refine Site.addresses (by rw [hfooting]; exact hlocate) hcell ?_
  have hdrop := congrArg List.head? (hs.levels_chain hla.known he)
  rw [List.head?_drop, hla.body] at hdrop
  rw [StaticScope.level?, hdrop] at hlevel
  rw [hgrows.slots c hid, hslots, hlayout]
  cases hlevel
  exact hoffset

end Active

/-- A non-local return gets to the script or method that it lies in. -/
theorem returnsHome (limit : Nat) {o : Operand} {site t : Site} {v : Value}
    (hnext : s.machine.next? = some (.nonlocalRet o, site)) (hv : Exec.value o site = .ok v t)
    (hkind : site.activation.body.kind.isReturnTarget = false) {l : Lineage}
    (hl : s.history.stack[0]? = some l) {between : List Entrant} {home : Entrant}
    (hsplit : s.chain l.self = between ++ [home])
    (hkinds : ∀ e ∈ between, e.body.kind.isReturnTarget = false)
    (hhome : home.body.kind.isReturnTarget = true) (hhoused : Housed (s.chain l.self)) :
    s.toSession.ReturnsHome limit home v := by
  obtain ⟨a, hcontrol, -, rfl⟩ := Machine.next?_eq_some hnext
  have ha : s.machine.active[0]? = some a := by
    rw [Machine.active, hcontrol]
    rfl
  have hla := hs.fits_at hl ha
  have henclosed := hs.enclosed_at hl ha
  have hknown := (hs.ascends hla.known).known home (by rw [hsplit]; simp)
  have hbodies := hhoused.bodies
  rw [hsplit] at hbodies
  cases between with
  | nil =>
    -- the activation would be its own home
    obtain ⟨rfl, -⟩ := List.cons.inj hsplit
    have hkind : a.body.kind.isReturnTarget = false := hkind
    rw [← hla.body, hhome] at hkind
    cases hkind
  | cons x between =>
    obtain ⟨rfl, haround⟩ := List.cons.inj hsplit
    rw [Lineage.number, haround] at henclosed
    rw [List.cons_append, List.map_cons, hla.body] at hbodies
    obtain ⟨c, hc, hstanding⟩ := henclosed.find_home hhome
      (fun e he => hkinds e (List.mem_cons_of_mem _ he)) hbodies
    exact hs.session.returnsHome limit hnext hkind hv hc hknown hhome hstanding

end Accords

end LexicalSession

/--
A module body is aligned with the code around it, as long as the holder of each module body on the
way has a scope of its own. Its locals, up to those of the script or method around it, are slots of
the scopes that stand for the activations around it, laid out by the static scopes as many levels
out; and a non-local return gets to the activation of that script or method.
-/
theorem moduleBody_aligned {limit : Nat} {s : LexicalSession} (hs : s.Reached limit) {k : Nat}
    {l : Lineage} {a : Activation} (hl : s.history.stack[k]? = some l)
    (ha : s.machine.active[k]? = some a) (hkind : a.body.kind.isModuleBody = true) :
    (∀ i ∈ a.body.code, ∀ name depth offset, .lexical name depth offset ∈ i.usedVariables →
      a.body.Reaches depth → Housed ((s.chain l.self).take (depth + 1)) →
      ∃ e c, (s.chain l.self)[depth]? = some e ∧ s.history.standing? e.number = some c ∧
        c.layout.levels = a.body.scope.levels.drop depth ∧
        ∀ t, s.At a t → t.Addresses (.lexical name depth offset) c offset) ∧
    ∃ between home, s.chain l.self = between ++ [home] ∧
      (∀ e ∈ between, e.body.kind.isReturnTarget = false) ∧
      home.body.kind.isReturnTarget = true ∧
      (k = 0 → Housed (s.chain l.self) → ∀ o site t v,
        s.machine.next? = some (.nonlocalRet o, site) → Exec.value o site = .ok v t →
          s.toSession.ReturnsHome limit home v) := by
  have haccords := hs.accords
  have hla := haccords.fits_at hl ha
  refine ⟨fun i hi name depth offset hv hreaches hhoused => ?_, ?_⟩
  · rw [← hla.body] at hreaches
    obtain ⟨e, he⟩ := haccords.reaches hla.known hreaches
    obtain ⟨c, hstanding, hlayout, haddresses⟩ := haccords.addresses hl ha hi hv he hhoused
    refine ⟨e, c, he, hstanding, ?_, haddresses⟩
    rw [hlayout, ← hla.body, haccords.levels_chain hla.known he]
  · obtain ⟨between, home, hsplit, hkinds, hhome⟩ := (haccords.ascends hla.known).home
    refine ⟨between, home, hsplit, hkinds, hhome, ?_⟩
    rintro rfl hhoused o site t v hnext hv
    obtain ⟨b, hcontrol, -, rfl⟩ := Machine.next?_eq_some hnext
    rw [Machine.active, hcontrol] at ha
    cases ha
    exact haccords.returnsHome limit hnext hv (BodyKind.isReturnTarget_eq_false hkind) hl hsplit
      hkinds hhome hhoused

/-- The body of a class, without a scope of its own, which returns a local for the script. -/
def returningClass : Draft where
  name := "A"
  scope := ⟨⟨1, .metaclassBody, []⟩, [⟨0, .script, ["x"]⟩]⟩
  flags := ⟨[.scopeEliminated]⟩
  code := [.nonlocalRet (.var (.lexical "x" 1 0))]

/-- A script with a local, which defines the class and processes its body. -/
def definingScript : Draft where
  name := "<main>"
  scope := ⟨⟨0, .script, ["x"]⟩, []⟩
  code := [
    .defineClass (.temp ⟨.generic, 0⟩) (returningClass.body 1 {}) .scopeModule .undefined,
    .processModuleBody (.temp ⟨.generic, 1⟩) (.var (.temp ⟨.generic, 0⟩))]

theorem definingScript_placed : (definingScript.body 0 { generic := 2 }).Placed := by
  have hnested : (definingScript.body 0 { generic := 2 }).nested = [returningClass.body 1 {}] := rfl
  refine ⟨fun b hb => ?_, fun b hb => ?_⟩ <;>
    rw [hnested, List.mem_cons, List.mem_singleton] at hb
  · rcases hb with rfl | rfl
    · exact ⟨definingScript, 0, rfl⟩
    · exact ⟨returningClass, 1, rfl⟩
  · rcases hb with rfl | rfl
    · constructor
      · rintro x ⟨r, hx⟩
        simp [Draft.body, definingScript] at hx
      · rintro x ⟨r, container, superclass, hx⟩
        simp only [Draft.body, definingScript, List.mem_cons, InstrOf.defineClass.injEq,
          reduceCtorEq, List.not_mem_nil, or_false] at hx
        rw [hx.2.1]
        exact ⟨rfl, rfl⟩
      · intro name x hx
        simp [Draft.body, definingScript] at hx
    · constructor
      · rintro x ⟨r, hx⟩
        simp [Draft.body, returningClass] at hx
      · rintro x ⟨r, container, superclass, hx⟩
        simp [Draft.body, returningClass] at hx
      · intro name x hx
        simp [Draft.body, returningClass] at hx

/-- The two bodies, with whatever blocks there are. -/
def definingCode : Vetting where
  body b := b = definingScript.body 0 { generic := 2 } ∨ b = returningClass.body 1 {}
  block _ _ _ := True

theorem definingCode_closed : definingCode.Closed := by
  rintro b hb i hi b' hb'
  rcases hb with rfl | rfl
  · simp only [Draft.body, definingScript, List.mem_cons, List.not_mem_nil, or_false] at hi
    rcases hi with rfl | rfl <;> cases hb'
    exact .inr rfl
  · simp only [Draft.body, returningClass, List.mem_cons, List.not_mem_nil, or_false] at hi
    rw [hi] at hb'
    cases hb'

theorem eq_returningClass {b : Body} (hb : definingCode.body b) (hkind : b.kind = .metaclassBody) :
    b = returningClass.body 1 {} := by
  rcases hb with rfl | rfl
  · cases hkind
  · rfl

/-- The session where the class is defined. -/
def definingSession : LexicalSession :=
  (LexicalSession.start.enter 8 {} (definingScript.body 0 { generic := 2 })).step 8

theorem definingSession_vetted : definingSession.machine.Vetted definingCode := by
  have hstart := Entry.start_vetted 8 (e := .script (definingScript.body 0 { generic := 2 }))
    (Heap.initial_vetted definingCode) (c := {}) (by rintro f ⟨⟩) (.inl rfl)
  exact step_vetted definingCode_closed 8 hstart fun _ _ _ _ => trivial

theorem definingSession_abides : definingSession.Abides 8 := by
  intro r o site i hnext hi
  have hkind : (definingSession.machine.entering? 8).map (fun i => i.body.kind) =
      some .metaclassBody := by decide +kernel
  rw [hi] at hkind
  rw [eq_returningClass (entering_vetted definingCode_closed definingSession_vetted hi).body
    (Option.some.inj hkind)]
  obtain ⟨hsite, hcode⟩ := Machine.site_vetted definingSession_vetted hnext
  rcases hsite.activation.body with hbody | hbody <;> rw [hbody] at hcode ⊢
  · exact ⟨_, _, _, List.mem_cons_self⟩
  · simp [Draft.body, returningClass] at hcode

theorem definingSession_reached : (definingSession.step 8).Reached 8 := by
  refine .tail (.tail (.single (.enter rfl (by rintro f ⟨⟩) definingScript_placed rfl rfl))
    (.step ?_)) (.step definingSession_abides)
  rintro r o site i hnext -
  have hoperation : (LexicalSession.start.enter 8 {}
      (definingScript.body 0 { generic := 2 })).machine.next?.map (fun p => p.1.operation) =
      some "def_class" := by decide +kernel
  rw [hnext] at hoperation
  simp [InstrOf.operation] at hoperation

theorem moduleBody_aligned_definingSession : (definingSession.step 8).Reached 8 ∧
    ∃ a home c v, (definingSession.step 8).machine.active.head? = some a ∧
      a.body = returningClass.body 1 {} ∧
      (∀ t, (definingSession.step 8).At a t → t.Addresses (.lexical "x" 1 0) c 0) ∧
      (definingSession.step 8).toSession.ReturnsHome 8 home v := by
  have hreached := definingSession_reached
  refine ⟨hreached, ?_⟩
  have hvetted : (definingSession.step 8).machine.Vetted definingCode := by
    rw [LexicalSession.step_machine]
    exact step_vetted definingCode_closed 8 definingSession_vetted fun _ _ _ _ => trivial
  have hactive : (definingSession.step 8).machine.active.head?.map (fun a => a.body.kind) =
      some .metaclassBody := by decide +kernel
  have hstack : (definingSession.step 8).history.stack.head?.map (fun l =>
      ((definingSession.step 8).chain l.self).map fun e => (e.body.kind, e.body.pushesScope)) =
      some [(.metaclassBody, false), (.script, true)] := by decide +kernel
  have hnext : (definingSession.step 8).machine.next?.isSome = true := by decide +kernel
  generalize definingSession.step 8 = s at *
  obtain ⟨a, ha, hkind⟩ := Option.map_eq_some_iff.1 hactive
  obtain ⟨l, hl, hchain⟩ := Option.map_eq_some_iff.1 hstack
  obtain ⟨⟨i, site⟩, hi⟩ := Option.isSome_iff_exists.1 hnext
  have hhoused : Housed (s.chain l.self) := by
    generalize s.chain l.self = es at hchain
    rcases es with _ | ⟨x, _ | ⟨y, _ | ⟨z, es⟩⟩⟩ <;> simp at hchain
    exact List.isChain_pair.2 fun _ => hchain.2.2
  obtain ⟨hbody, hmem, hat⟩ : a.body = returningClass.body 1 {} ∧ i ∈ a.body.code ∧
      s.At a site := by
    obtain ⟨b, hcontrol, hmem, rfl⟩ := Machine.next?_eq_some hi
    have hcode := hvetted.control
    rw [Machine.active, hcontrol] at ha
    cases ha
    rw [hcontrol] at hcode
    exact ⟨eq_returningClass hcode.body hkind, hmem, rfl, .refl _⟩
  obtain ⟨hlocals, between, home, -, -, -, hreturn⟩ :=
    moduleBody_aligned hreached (k := 0) (by rw [← List.head?_eq_getElem?, hl])
      (by rw [← List.head?_eq_getElem?, ha]) (by rw [hkind]; rfl)
  rw [hbody] at hlocals
  obtain ⟨-, c, -, -, -, haddresses⟩ := hlocals _ List.mem_cons_self "x" 1 0 (by decide)
    (by simp [Body.Reaches, Draft.body, returningClass, StaticScope.level?, StaticScope.levels,
      BodyKind.isReturnTarget]) (hhoused.take 2)
  rw [hbody] at hmem
  cases List.mem_singleton.1 hmem
  obtain ⟨v, -, hload⟩ := (haddresses site hat).load
  have hv := Exec.value_of_load hload
  exact ⟨a, home, c, v, ha, hbody, haddresses, hreturn rfl hhoused _ site site v hi hv⟩

end ObjectIr
