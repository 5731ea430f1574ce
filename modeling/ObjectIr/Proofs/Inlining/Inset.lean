import ObjectIr.Proofs.Correspondence.Equal
import ObjectIr.Proofs.Runs
import ObjectIr.Proofs.Temps

/-!
# Part of a body as a body of its own

An inset is a body whose code stands in the code of another body from some index on, under other
names for temporaries and labels (`Inset.Sound`). An activation of the outer body that is within
this part behaves as one of the inner body (`Inset.execute`), and so does the whole machine around
it, step by step, until control leaves the part (`Machine.Alongside.step`). The slots without an
inner name keep what they held.
-/

namespace ObjectIr

/-- The same failure, but for the name of the temporary that refused a value. -/
inductive Failure.Renamed (place : Variable → Variable → Prop) : Failure → Failure → Prop
  | same (f : Failure) : Renamed place f f
  | expects {t t' : Temp} (h : place (.temp t) (.temp t')) (kind : TempKind) (v : Value) :
    Renamed place (.type (.expects (.temp t) kind v)) (.type (.expects (.temp t') kind v))

theorem Failure.Renamed.mono {place place' : Variable → Variable → Prop} {f f' : Failure}
    (h : Renamed place f f') (hplace : ∀ v v', place v v' → place' v v') : Renamed place' f f' := by
  cases h with
  | same => exact .same f
  | expects ht => exact .expects (hplace _ _ ht) _ _

/-- One heap and context, and one outcome but for the name of such a temporary. -/
structure Result.Renamed (place : Variable → Variable → Prop) (r r' : Result) : Prop where
  heap : r.heap = r'.heap
  context : r.context = r'.context
  outcome : Jointly (Failure.Renamed place) Eq r.outcome r'.outcome

/-- The body `inner`, whose code stands in `outer` from `offset` on. -/
structure Inset where
  inner : Body
  outer : Body
  offset : Nat
  names : Counterparts
  /-- What the other slots hold. -/
  rest : Temps

namespace Inset

structure Sound (p : Inset) : Prop where
  name : p.inner.name = p.outer.name
  scope : p.inner.scope = p.outer.scope
  flags : p.inner.flags = p.outer.flags
  body : p.names.body = Eq
  code : ∀ n i, p.inner.code[n]? = some i →
    ∃ i', p.outer.code[p.offset + n]? = some i' ∧ i.Like p.names i'
  labels : ∀ l l', p.names.label l l' → ∃ n, p.inner.labelIndex? l = some n ∧
    p.outer.labelIndex? l' = some (p.offset + n)
  places : ∀ v v', p.names.place v v' → (∃ t t', v = .temp t ∧ v' = .temp t' ∧ t.kind = t'.kind) ∨
    (v = v' ∧ v.isTemp = false)
  apart : ∀ t t' u u', p.names.place (.temp t) (.temp t') → p.names.place (.temp u) (.temp u') →
    (u = t ↔ u' = t')

/-- Slots under both names hold the same, and the other slots what they held. -/
structure Slots (p : Inset) (ts ts' : Temps) : Prop where
  named : ∀ t t', p.names.place (.temp t) (.temp t') →
    ∃ v, ts.get? t = some v ∧ ts'.get? t' = some v
  rest : ∀ t', (∀ t, ¬ p.names.place (.temp t) (.temp t')) → ts'.get? t' = p.rest.get? t'

/-- An activation of the inner body, and one of the outer within its part. -/
structure Activations (p : Inset) (a a' : Activation) : Prop where
  inner : a.body = p.inner
  outer : a'.body = p.outer
  pc : a'.pc = p.offset + a.pc
  within : a.pc ≤ p.inner.code.length
  temps : p.Slots a.temps a'.temps
  args : a.args = a'.args
  receiver : a.receiver = a'.receiver
  footing : a.footing = a'.footing
  bridge? : a.bridge? = a'.bridge?
  answer? : a.answer? = a'.answer?

structure Sites (p : Inset) (s s' : Site) : Prop where
  heap : s.heap = s'.heap
  context : s.context = s'.context
  activation : p.Activations s.activation s'.activation

/-- An instruction of the inner body and the one of the outer that stands for it. -/
def correspondence (p : Inset) : Correspondence where
  toCounterparts := p.names
  value := Eq
  failure := Failure.Renamed p.names.place
  frame := Eq
  invocation := Eq
  target := Eq
  site := p.Sites
  after := p.Sites

variable {p : Inset} (hp : p.Sound)

include hp

theorem Sound.equal : p.correspondence.Equal where
  value := rfl
  body := hp.body
  frame := rfl
  invocation := rfl
  plain f _ := .same f
  heap h := h.heap
  context h := h.context
  scope h := by rw [h.activation.inner, h.activation.outer, hp.scope]
  noFrame _ _ := .same _
  setHeap _ h _ := ⟨rfl, h.context, h.activation⟩
  setContext _ h _ := ⟨h.heap, rfl, h.activation⟩

/-- A slot under both names takes the same values in both. -/
theorem Sound.set {t t' : Temp} (hplace : p.names.place (.temp t) (.temp t')) {ts ts' : Temps}
    (h : p.Slots ts ts') (v : Value) :
    Jointly (Failure.Renamed p.names.place) p.Slots (ts.set t v) (ts'.set t' v) := by
  have hkind : t.kind = t'.kind := by
    rcases hp.places _ _ hplace with ⟨u, u', hu, hu', hk⟩ | ⟨-, hn⟩
    · cases hu
      cases hu'
      exact hk
    · cases hn
  obtain ⟨x, hx, hx'⟩ := h.named t t' hplace
  rcases ts.set_cases t v with ⟨hno, hset⟩ | ⟨hyes, ⟨hnone, -⟩ | ⟨-, us, hset, hget⟩⟩
  · rcases ts'.set_cases t' v with ⟨-, hset'⟩ | ⟨hyes, -⟩
    · rw [hset, hset', ← hkind]
      exact .error (.expects hplace _ v)
    · rw [hkind, hyes] at hno
      cases hno
  · rw [hx] at hnone
    cases hnone
  · rcases ts'.set_cases t' v with ⟨hno, -⟩ | ⟨-, ⟨hnone, -⟩ | ⟨-, us', hset', hget'⟩⟩
    · rw [← hkind, hyes] at hno
      cases hno
    · rw [hx'] at hnone
      cases hnone
    · rw [hset, hset']
      refine .ok ⟨fun u u' hu => ?_, fun u' hu' => ?_⟩
      · have hiff := hp.apart t t' u u' hplace hu
        rw [hget, hget']
        by_cases hut : u = t
        · rw [if_pos hut, if_pos (hiff.1 hut)]
          exact ⟨v, rfl, rfl⟩
        · rw [if_neg hut, if_neg (mt hiff.2 hut)]
          exact h.named u u' hu
      · have hne : u' ≠ t' := by
          rintro rfl
          exact hu' t hplace
        rw [hget', if_neg hne]
        exact h.rest u' hu'

theorem Sound.pairs_load {s s' : Site} (h : p.Sites s s') {v v' : Variable}
    (hv : p.names.place v v') :
    Jointly (Failure.Renamed p.names.place) Eq (s.load v) (s'.load v') := by
  rcases hp.places v v' hv with ⟨t, t', rfl, rfl, -⟩ | ⟨rfl, hn⟩
  · obtain ⟨x, hx, hx'⟩ := h.activation.temps.named t t' hv
    simp only [Site.load, hx, hx']
    exact .ok rfl
  · cases v with
    | temp t => cases hn
    | lexical name depth offset =>
      have hname : s.activation.body.name = s'.activation.body.name := by
        rw [h.activation.inner, h.activation.outer, hp.name]
      simp only [Site.load, ← h.activation.footing, ← h.heap, ← hname]
      exact .refl .same _

theorem Sound.pairs_store {s s' : Site} (h : p.Sites s s') {r r' : Variable}
    (hr : p.names.place r r') (v : Value) :
    Jointly (Failure.Renamed p.names.place) p.Sites (s.store r v) (s'.store r' v) := by
  rcases hp.places r r' hr with ⟨t, t', rfl, rfl, -⟩ | ⟨rfl, hn⟩
  · simp only [Site.store]
    exact (hp.set hr h.activation.temps v).bind fun ts ts' hts =>
      .ok ⟨h.heap, h.context, { h.activation with temps := hts }⟩
  · cases r with
    | temp t => cases hn
    | lexical name depth offset =>
      have hname : s.activation.body.name = s'.activation.body.name := by
        rw [h.activation.inner, h.activation.outer, hp.name]
      simp only [Site.store, ← h.activation.footing, ← h.heap, ← hname]
      cases s.activation.footing.locate? depth with
      | none => exact .error (.same _)
      | some q =>
        simp only
        cases s.heap.writeLocal q.1 q.2 offset v with
        | ok k => exact .ok ⟨rfl, h.context, h.activation⟩
        | error f => exact .error (.same _)

theorem Sound.siteLaws : p.correspondence.SiteLaws where
  after h := h
  supply h := by rw [h.heap]
  setSupply n h := ⟨by rw [h.heap], h.context, h.activation⟩
  load h hv := hp.pairs_load h hv
  store h hr hv := by
    cases hv
    exact hp.pairs_store h hr _
  receiver h := h.activation.receiver
  args n h := by
    rw [h.activation.args]
    rfl
  kind h := by
    rw [h.activation.inner, h.activation.outer, Body.kind, Body.kind, hp.scope]
  goTo {s s' l l'} h hl := by
    obtain ⟨n, hn, hn'⟩ := hp.labels l l' hl
    rw [h.activation.inner, h.activation.outer]
    have hlt : n < p.inner.code.length := by
      rw [Body.labelIndex?, List.findIdx?_eq_some_iff_getElem] at hn
      exact hn.1
    exact .inl ⟨n, p.offset + n, hn, hn', h.heap, h.context,
      { h.activation with pc := rfl, within := Nat.le_of_lt hlt }⟩

omit hp in
theorem correspondence_findsHome : p.correspondence.FindsHome := by
  intro s s' h _
  rw [h.activation.footing]
  cases s'.activation.footing.scope?.bind DynamicScope.returnTarget? with
  | none => exact .none
  | some c => exact .some rfl

theorem Sound.capture {s s' : Site} (h : p.Sites s s') :
    s.captureScope.1 = s'.captureScope.1 ∧ p.Sites s.captureScope.2 s'.captureScope.2 := by
  have hscope : s.activation.body.scope = s'.activation.body.scope := by
    rw [h.activation.inner, h.activation.outer, hp.scope]
  unfold Site.captureScope
  rw [← h.activation.footing, ← h.activation.bridge?, ← h.heap, ← hscope]
  split
  · exact ⟨rfl, h⟩
  · exact ⟨rfl, h⟩
  · exact ⟨rfl, rfl, h.context, { h.activation with bridge? := rfl }⟩
  · exact ⟨rfl, h⟩

theorem Sound.lawful : p.correspondence.Lawful :=
  hp.equal.lawful hp.siteLaws p.correspondence_findsHome fun _ _ h => hp.capture h

/-! ### Machines -/

omit hp

/-- How a pair of activations ends: alike, but for the names of temporaries in a failure. -/
inductive Endings (p : Inset) : Except Unwind Value → Except Unwind Value → Prop
  | same (r : Except Unwind Value) : Endings p r r
  | failure {f f' : Failure} (h : Failure.Renamed p.names.place f f') :
    Endings p (.error (.failure f)) (.error (.failure f'))

end Inset

/-- Two machines that differ in their outermost activation, or did so until it ended. -/
inductive Machine.Alongside (p : Inset) : Machine → Machine → Prop
  | running {s s' : Site} (h : p.Sites s s') : Alongside p (runningAt s []) (runningAt s' [])
  | leaving {s s' : Site} {r r' : Except Unwind Value} (h : p.Sites s s') (hr : p.Endings r r') :
    Alongside p (leavingAt s r []) (leavingAt s' r' [])
  | waiting {heap : Heap} {context : Context} {control : Control} (above : List Caller)
    {a a' : Activation} {r r' : Variable} (h : p.Activations a a') (hr : p.names.place r r') :
    Alongside p ⟨heap, context, control, above ++ [⟨a, r⟩]⟩
      ⟨heap, context, control, above ++ [⟨a', r'⟩]⟩
  | finished (heap : Heap) (context : Context) {o o' : Except Failure Value}
    (h : Jointly (Failure.Renamed p.names.place) Eq o o') :
    Alongside p ⟨heap, context, .finished o, []⟩ ⟨heap, context, .finished o', []⟩

namespace Machine.Alongside

variable {p : Inset} (hp : p.Sound) {limit : Nat} {m m' : Machine}

theorem resume_endings {r r' : Except Unwind Value} (hr : p.Endings r r') (h : Heap)
    (c : Context) : Alongside p (resume h c r []) (resume h c r' []) := by
  cases hr with
  | same r => exact .finished h c (.refl .same _)
  | failure hf => exact .finished h c (.error hf)

/-- What follows on an instruction of the part. -/
theorem follow {x y : EStateM.Result Failure Site Outcome}
    (h : p.correspondence.Meets p.correspondence.Outcomes p.correspondence.after x y) :
    Alongside p (Machine.follow limit [] x) (Machine.follow limit [] y) := by
  cases h with
  | error hf hs => exact .leaving hs (.failure hf)
  | ok ho hs =>
    cases ho with
    | next => exact .running hs
    | complete hv =>
      cases hv
      exact .leaving hs (.same _)
    | «return» hn hv =>
      cases hn
      cases hv
      exact .leaving hs (.same _)
    | call hr hi =>
      cases hi
      have hsites : p.Sites _ _ := hs
      simp only [Machine.follow, ← hsites.heap, ← hsites.context]
      split
      · exact .waiting [] hsites.activation hr
      · exact .leaving hsites (.same _)

/-- What follows on an instruction of another activation, above the pair. -/
theorem follow_above (x : EStateM.Result Failure Site Outcome) (above : List Caller)
    {a a' : Activation} {r r' : Variable} (h : p.Activations a a') (hr : p.names.place r r') :
    Alongside p (Machine.follow limit (above ++ [⟨a, r⟩]) x)
      (Machine.follow limit (above ++ [⟨a', r'⟩]) x) := by
  rcases x with ⟨o, t⟩ | ⟨f, t⟩
  · cases o with
    | call result i =>
      simp only [Machine.follow]
      split
      · exact .waiting (⟨t.activation, result⟩ :: above) h hr
      · exact .waiting above h hr
    | _ => exact .waiting above h hr
  · exact .waiting above h hr

include hp

theorem settle {a a' : Activation} (h : p.Activations a a') {r r' : Except Unwind Value}
    (hr : p.Endings r r') : p.Endings (a.settle r) (a'.settle r') := by
  have howns : ∀ target, a.owns target = a'.owns target := by
    intro target
    rw [Activation.owns, Activation.owns, h.footing, h.bridge?]
  have hresult : ∀ v, a.result v = a'.result v := by
    intro v
    rw [Activation.result, Activation.result, h.answer?]
  have hkind : a.body.kind = a'.body.kind := by
    rw [h.inner, h.outer, Body.kind, Body.kind, hp.scope]
  cases hr with
  | failure hf => exact .failure hf
  | same r =>
    have hsame : a.settle r = a'.settle r := by
      unfold Activation.settle
      simp only [howns, hresult, hkind]
    rw [hsame]
    exact .same _

theorem leave_eq {a a' : Activation} (h : p.Activations a a') (c : Context) :
    leave a.body c = leave a'.body c := by
  have hpops : a.body.popsScope = a'.body.popsScope := by
    simp only [h.inner, h.outer, Body.popsScope, Body.pushesScope, Body.isEliminated,
      Body.reusesScope, hp.flags]
  rw [leave, leave, hpops]

/-- Both activations of the pair are handed the same value. -/
theorem resume_waiting {a a' : Activation} {r r' : Variable} (h : p.Activations a a')
    (hr : p.names.place r r') (heap : Heap) (context : Context) (ending : Except Unwind Value) :
    Alongside p (resume heap context ending [⟨a, r⟩]) (resume heap context ending [⟨a', r'⟩]) := by
  cases ending with
  | error u =>
    have hs : p.Sites ⟨heap, context, a⟩ ⟨heap, context, a'⟩ := ⟨rfl, rfl, h⟩
    exact .leaving hs (.same _)
  | ok v =>
    have hs : p.Sites ⟨heap, context, a⟩ ⟨heap, context, a'⟩ := ⟨rfl, rfl, h⟩
    have hstore := hp.pairs_store hs hr v
    simp only [resume]
    generalize Site.store ⟨heap, context, a⟩ r v = x at hstore
    generalize Site.store ⟨heap, context, a'⟩ r' v = y at hstore
    cases hstore with
    | ok h => exact .running h
    | error hf => exact .leaving hs (.failure hf)

/-- One step of both, as long as the outer body does not go on where the inner one ends. -/
theorem step (h : Alongside p m m')
    (hend : ∀ a, m.control = .running a → m.callers = [] → a.body.code[a.pc]? = none →
      p.outer.code[p.offset + a.pc]? = none) :
    Alongside p (m.step limit) (m'.step limit) := by
  cases h with
  | finished heap context h => exact .finished heap context h
  | leaving h hr =>
    simp only [Machine.step, leavingAt, ← h.heap, ← h.context, ← leave_eq hp h.activation]
    exact resume_endings (settle hp h.activation hr) _ _
  | @running s s' h =>
    have hcode : s.activation.body.code[s.activation.pc]? = p.inner.code[s.activation.pc]? := by
      rw [h.activation.inner]
    have hcode' : s'.activation.body.code[s'.activation.pc]? =
        p.outer.code[p.offset + s.activation.pc]? := by
      rw [h.activation.outer, h.activation.pc]
    simp only [Machine.step, runningAt, ← h.heap, ← h.context, hcode']
    cases hi : s.activation.body.code[s.activation.pc]? with
    | none =>
      rw [hend s.activation rfl rfl hi]
      have hs : p.Sites s ⟨s.heap, s.context, s'.activation⟩ := ⟨rfl, rfl, h.activation⟩
      exact .leaving hs (.same _)
    | some i =>
      rw [hcode] at hi
      obtain ⟨i', hi', hlike⟩ := hp.code _ _ hi
      rw [hi']
      refine follow (hp.lawful.execute hlike ⟨rfl, rfl, ?_⟩)
      exact { h.activation with
        pc := by simp only [h.activation.pc, Nat.add_assoc]
        within := (List.getElem?_eq_some_iff.1 hi).1 }
  | @waiting heap context control above a a' r r' h hr =>
    cases control with
    | finished o => exact .waiting above h hr
    | running b =>
      simp only [Machine.step]
      split
      · exact .waiting above h hr
      · exact follow_above _ above h hr
    | leaving b ending =>
      simp only [Machine.step]
      generalize b.settle ending = ending
      cases above with
      | nil => exact resume_waiting hp h hr _ _ _
      | cons caller above =>
        cases ending with
        | error u => exact .waiting above h hr
        | ok v =>
          simp only [List.cons_append, resume]
          split
          · exact .waiting above h hr
          · exact .waiting above h hr

omit hp in
/-- Both finish at once. -/
theorem result? (h : Alongside p m m') :
    Option.Rel (Result.Renamed p.names.place) m.result? m'.result? := by
  cases h with
  | running | leaving => exact .none
  | finished heap context h => exact .some ⟨rfl, rfl, h⟩
  | @waiting _ _ control above _ _ _ _ h hr =>
    cases control with
    | finished o => exact .some ⟨rfl, rfl, .refl .same _⟩
    | _ => exact .none

end Machine.Alongside

end ObjectIr
