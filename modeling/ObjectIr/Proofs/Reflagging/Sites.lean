import ObjectIr.Proofs.Reflagging.Calls

/-!
# Activations of two runs

Two activations are twins when they run the same code on twins, and the cells around them stand for
the same activations as far out as the code reaches (`Activation.Twin`). A variable that the code
uses is then found in both runs, at scopes that stand for the same activation (`Site.Twin.locate`),
and a non-local return has the same home (`Site.Twin.home`). So the instructions of both runs
correspond (`World.correspondence`), those apart that are about the place of a body.
-/

namespace ObjectIr

structure Activation.Twin (w : World) (a a' : Activation) : Prop where
  body : a.body.Reflagged a'.body
  pc : a.pc = a'.pc
  temps : a.temps.Twin w a'.temps
  args : List.Forall₂ (Value.Twin w) a.args a'.args
  receiver : a.receiver.Twin w a'.receiver
  answer? : Option.Rel (Value.Twin w) a.answer? a'.answer?
  around : w.Around a'.body a.outer a'.outer
  nowhere : a.footing = .nowhere → a'.footing = .nowhere

/-- An activation of a body that leaves a scope on the stack has one. -/
def Activation.Footed (a : Activation) : Prop :=
  a.body.popsScope = true → a.footing.scope?.isSome = true

/-- The activations have the number `n`. -/
structure Activation.Seated (w : World) (n : Nat) (a a' : Activation) : Prop where
  activation : a.Twin w a'
  left : w.left n = a.standing?
  right : w.right n = a'.standing?
  grounded : ∃ e, a.Grounded e
  grounded' : ∃ e, a'.Grounded e
  footed : a.Footed
  footed' : a'.Footed

structure Site.Twin (w : World) (n : Nat) (s s' : Site) : Prop
    extends Activation.Seated w n s.activation s'.activation where
  heap : s.heap.Twin w s'.heap
  context : s.context.Twin w s'.context

/-! ### Scopes -/

namespace Activation.Grounded

variable {a : Activation} {e : Entrant} (ha : a.Grounded e)

include ha

/-- An activation of a body with a scope stands on its own. -/
theorem own_of_pushes (hp : a.body.pushesScope = true) :
    ∃ s, a.footing = .own s ∧ a.standing? = some s.cell ∧ s.cell.layout = a.body.scope := by
  rw [Grounded] at ha
  cases hfooting : a.footing with
  | own s =>
    rw [hfooting] at ha
    exact ⟨s, rfl, by rw [standing?, captured?, hfooting]; rfl, ha.2⟩
  | guest parent | nowhere =>
    rw [hfooting, hp] at ha
    cases ha.1

theorem layout {c : ScopeCell} (hc : a.standing? = some c) : c.layout = a.body.scope := by
  obtain ⟨s, hs, rfl⟩ := Option.map_eq_some_iff.1 hc
  exact (ha.captured hs).2

/-- The home of a closure is found among the cells around it. -/
theorem returnTarget? (hkind : a.body.kind.isReturnTarget = false) :
    a.footing.scope?.bind DynamicScope.returnTarget? =
      a.outer.find? fun c => c.layout.kind.isReturnTarget := by
  rw [Grounded] at ha
  rw [outer]
  cases hfooting : a.footing with
  | own s =>
    rw [hfooting] at ha
    have hcell : ¬s.cell.layout.kind.isReturnTarget = true := by
      rw [ha.2]
      exact Bool.eq_false_iff.1 hkind
    show (s.cell :: s.outer).find? (fun c => c.layout.kind.isReturnTarget) = _
    rw [List.find?_cons_of_neg (by simpa using hcell)]
  | guest parent | nowhere => rfl

end Activation.Grounded

namespace Site.Twin

variable {w : World} {n : Nat} {s s' : Site} (hs : s.Twin w n s')

include hs

/-- The scopes that stand for the activations, if both do. -/
theorem pairs {c c' : ScopeCell} (hc : s.activation.standing? = some c)
    (hc' : s'.activation.standing? = some c') : w.Pairs c c' := by
  obtain ⟨e, he⟩ := hs.grounded
  obtain ⟨e', he'⟩ := hs.grounded'
  refine ⟨?_, n, hs.left.trans hc, hs.right.trans hc'⟩
  rw [he.layout hc, he'.layout hc', hs.activation.body.scope]

/-- A local that the code uses is found at scopes that stand for the same activation. -/
theorem locate {name : String} {depth offset : Nat}
    (hv : s'.activation.body.Mentions (.lexical name depth offset)) :
    ∃ scope k scope' k' c c', s.activation.footing.locate? depth = some (scope, k) ∧
      s'.activation.footing.locate? depth = some (scope', k') ∧ scope.cell? k = some c ∧
      scope'.cell? k' = some c' ∧ w.Pairs c c' ∧ offset < c.layout.locals.length := by
  have haround := hs.activation.around
  obtain ⟨levels, hconfined, haligned⟩ := haround
  have hfinds := hconfined.finds hv
  cases depth with
  | zero =>
    obtain ⟨hown, hoffset⟩ := hfinds
    obtain ⟨e, he⟩ := hs.grounded
    obtain ⟨e', he'⟩ := hs.grounded'
    obtain ⟨scope', hfooting', hc', hlayout'⟩ := he'.own_of_pushes hown
    obtain ⟨scope, hfooting, hc, hlayout⟩ :=
      he.own_of_pushes (hs.activation.body.pushesScope hown)
    refine ⟨scope, 0, scope', 0, scope.cell, scope'.cell, ?_, ?_, rfl, rfl, hs.pairs hc hc', ?_⟩
    · rw [hfooting]
      rfl
    · rw [hfooting']
      rfl
    · rw [hlayout, hs.activation.body.scope]
      exact hoffset
  | succ d =>
    obtain ⟨level, hlevel, hoffset⟩ := hfinds
    obtain ⟨c, c', hc, hc', rfl, hpair⟩ := haligned.cell_at hlevel
    obtain ⟨scope, k, hlocate, hcell⟩ := Activation.locate_outer hc
    obtain ⟨scope', k', hlocate', hcell'⟩ := Activation.locate_outer hc'
    exact ⟨scope, k, scope', k', c, c', hlocate, hlocate', hcell, hcell', hpair, hoffset⟩

/-- A non-local return from a closure has the same home in either run. -/
theorem home {o : Operand} (ho : .nonlocalRet o ∈ s'.activation.body.code)
    (hkind : s.activation.body.kind.isReturnTarget = false) : ∃ c c',
    s.activation.footing.scope?.bind DynamicScope.returnTarget? = some c ∧
      s'.activation.footing.scope?.bind DynamicScope.returnTarget? = some c' ∧ w.Pairs c c' := by
  obtain ⟨e, he⟩ := hs.grounded
  obtain ⟨e', he'⟩ := hs.grounded'
  have haround := hs.activation.around
  obtain ⟨levels, hconfined, haligned⟩ := haround
  have hkind' : s'.activation.body.kind.isReturnTarget = false := by
    rw [← hs.activation.body.kind, hkind]
  rw [he.returnTarget? hkind, he'.returnTarget? hkind']
  obtain ⟨l, hl, hhome⟩ := hconfined.home ho
  refine haligned.find_home ⟨l, ?_, hhome⟩
  rcases List.mem_cons.1 hl with rfl | hl
  · have hlevel : s'.activation.body.scope.level.kind.isReturnTarget = false := hkind'
    rw [hlevel] at hhome
    cases hhome
  · exact hl

theorem load {v : Variable} (hv : s'.activation.body.Mentions v) :
    Jointly (Failure.Twin w) (Value.Twin w) (s.load v) (s'.load v) := by
  cases v with
  | temp t =>
    have ht := hs.activation.temps t
    rw [Site.load, Site.load]
    generalize s.activation.temps.get? t = x at ht
    generalize s'.activation.temps.get? t = y at ht
    cases ht with
    | none => exact .error (.plain rfl)
    | some h => exact .ok h
  | lexical name depth offset =>
    obtain ⟨scope, k, scope', k', c, c', hl, hl', hc, hc', hpair, ho⟩ := hs.locate hv
    obtain ⟨v, v', hread, hread', hvv⟩ := hs.heap.readLocal hc hc' hpair ho
    simp only [Site.load, hl, hl', hread, hread']
    exact .ok hvv

theorem store (hw : w.Distinct) {r : Variable} (hr : s'.activation.body.Mentions r)
    {v v' : Value} (hv : v.Twin w v') :
    Jointly (Failure.Twin w)
      (fun t t' => t.Twin w n t' ∧ t'.activation.body = s'.activation.body)
      (s.store r v) (s'.store r v') := by
  cases r with
  | temp t =>
    refine (hs.activation.temps.set t hv).bind fun ts ts' hts => .ok ⟨?_, rfl⟩
    exact { hs with activation := { hs.activation with temps := hts } }
  | lexical name depth offset =>
    obtain ⟨scope, k, scope', k', c, c', hl, hl', hc, hc', hpair, ho⟩ := hs.locate hr
    obtain ⟨g, g', hwrite, hwrite', hg⟩ := hs.heap.writeLocal hc hc' hpair ho hw hv
    simp only [Site.store, hl, hl', hwrite, hwrite']
    exact .ok ⟨{ hs with heap := hg }, rfl⟩

theorem frame : Jointly (Failure.Twin w) (Frame.Twin w) s.frame s'.frame := by
  have hframes := hs.context.frames
  rw [Site.frame, Site.frame, Context.currentFrame?, Context.currentFrame?]
  generalize s.context.frames = fs at hframes
  generalize s'.context.frames = fs' at hframes
  cases hframes with
  | nil => exact .error (.plain rfl)
  | cons h _ => exact .ok h

/-- The activations go on with other heaps that are twins. -/
theorem withHeap {h h' : Heap} (hh : h.Twin w h') :
    Site.Twin w n { s with heap := h } { s' with heap := h' } := { hs with heap := hh }

end Site.Twin

/-! ### Correspondence -/

/-- Activations of the number `n` that are twins, where the one on the right runs the body `b`. -/
def World.correspondence (w : World) (n : Nat) (b : Body) : Correspondence where
  place v v' := v = v' ∧ b.Mentions v
  label := Eq
  body := Body.Reflagged
  value := Value.Twin w
  failure := Failure.Twin w
  frame := Frame.Twin w
  invocation := Invocation.Twin w
  target m m' := ∃ c c', w.Pairs c c' ∧ c.id = m ∧ c'.id = m'
  site s s' := s.Twin w n s' ∧ s'.activation.body = b
  after s s' := s.Twin w n s' ∧ s'.activation.body = b

namespace World

variable (w : World) (n : Nat) (b : Body)

theorem valueLaws : (w.correspondence n b).ValueLaws where
  shape h := h.sameShape
  plain := .plain
  array k _ _ h := .array k (Value.twins_iff.2 h)
  thrown h := by
    cases h with
    | notModuleBody h => exact .notModuleBody h
    | notModule h => exact .notModule h
    | raised h => exact .raised h
    | _ => exact .plain rfl
  bodies h := ⟨h.name, h.kind⟩
  blockOf h := h.block?
  invokeBlock h hvs := BlockOf.Twin.invocation hvs h

theorem siteLaws (hw : w.Distinct) : (w.correspondence n b).SiteLaws where
  after h := h
  supply h := h.1.heap.arrays_eq
  setSupply k h := ⟨h.1.withHeap (h.1.heap.supply k), h.2⟩
  load := by
    rintro s s' v v' ⟨hs, rfl⟩ ⟨rfl, hv⟩
    exact hs.load hv
  store := by
    rintro s s' r r' v v' ⟨hs, rfl⟩ ⟨rfl, hr⟩ hv
    exact hs.store hw hr hv
  receiver h := h.1.activation.receiver
  args {s s'} k h := by
    have hargs := h.1.activation.args
    generalize s.activation.args = vs at hargs
    generalize s'.activation.args = vs' at hargs
    induction hargs generalizing k with
    | nil => exact Value.twin_nil
    | cons hv _ ih =>
      cases k with
      | zero => exact hv
      | succ k => exact ih k
  kind h := h.1.activation.body.kind
  goTo := by
    rintro s s' l l' ⟨hs, hb⟩ rfl
    have hindex := hs.activation.body.labelIndex? l
    cases hl : s'.activation.body.labelIndex? l with
    | none => exact .inr ⟨hindex.trans hl, rfl, .plain rfl⟩
    | some k =>
      exact .inl ⟨k, k, hindex.trans hl, rfl,
        { hs with activation := { hs.activation with pc := rfl } }, hb⟩

theorem findsHome {o : Operand} (ho : .nonlocalRet o ∈ b.code) :
    (w.correspondence n b).FindsHome := by
  rintro s s' ⟨hs, rfl⟩ hkind
  obtain ⟨c, c', hc, hc', hpair⟩ := hs.home ho hkind
  rw [hc, hc']
  exact .some ⟨c, c', hpair, rfl, rfl⟩

theorem heapLaws : (w.correspondence n b).HeapLaws where
  frame h := h.1.frame
  scopeModule {s s'} h := by
    rw [Site.scopeModule, Site.scopeModule, h.1.activation.body.scope, h.1.heap.lexicalModule?_eq]
    cases s'.heap.lexicalModule? s'.activation.body.scope with
    | some m => exact .ok rfl
    | none => exact h.1.frame.bind fun f f' hf => .ok hf.module
  dispatch name type h hv hvs hb := by
    have hdispatch := h.1.heap.dispatch hv name hvs hb h.1.context type
    refine hdispatch.mono (fun _ _ hf => hf) fun p p' hp => ?_
    obtain ⟨hq, hheap⟩ := hp
    refine ⟨?_, h.1.withHeap hheap, h.2⟩
    generalize p.1 = q at hq
    generalize p'.1 = q' at hq
    cases hq with
    | value h => exact .value h
    | invoke h => exact .invoke h
  define h hb hv hx :=
    (h.1.heap.define hb hv hx).mono (fun _ _ hf => hf) fun p p' hp =>
      ⟨.method hp.1, h.1.withHeap hp.2, h.2⟩
  setConstant m name h hv := ⟨h.1.withHeap (h.1.heap.setConstant m name hv), h.2⟩
  searchConstant name h hf := by
    rw [h.1.activation.body.scope, hf.module]
    exact h.1.heap.searchConstant _ _ name
  setVisibility {s s'} v h := by
    have hframes := h.1.context.frames
    rw [Context.setVisibility?, Context.setVisibility?]
    cases hf : s.context.frames with
    | nil =>
      rw [hf] at hframes
      rw [List.forall₂_nil_left_iff.1 hframes]
      exact .none
    | cons f fs =>
      rw [hf] at hframes
      obtain ⟨f', fs', hff, hfs, hf'⟩ := List.forall₂_cons_left_iff.1 hframes
      rw [hf']
      refine .some ⟨{ h.1 with context := { h.1.context with frames := ?_ } }, h.2⟩
      exact .cons { hff with visibility := rfl } hfs
  noFrame _ _ _ := .plain rfl

theorem laws (hw : w.Distinct) : (w.correspondence n b).Laws :=
  ⟨w.valueLaws n b, w.siteLaws n b hw, w.heapLaws n b⟩

end World

end ObjectIr
