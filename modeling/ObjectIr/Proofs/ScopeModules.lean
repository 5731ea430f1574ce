import ObjectIr.Proofs.Definitions
import ObjectIr.Proofs.DepthLimit
import ObjectIr.Proofs.Primitives

/-!
# The module that code is bound to

A static scope is bound to a module whenever a body of it is defined, and by nothing else. So what
the scope is bound to tells which definition of it was the latest (`Heap.BoundBy`,
`Machine.after_boundBy`). What an activation stands for on the stacks is fixed when it is entered,
and untouched as long as its frame is there (`Machine.standings_above`). Together these say which
modules a body sees while it is processed (`processed_body_sees_module`); a body that is defined in
two containers sees the module of the later definition (`rebound_body_sees_other`).
-/

namespace ObjectIr

open Relation (ReflTransGen)

variable {limit : Nat}

/-! ### Bindings -/

/-- Each static scope is bound to the module of the first method in the list that has it. -/
def Heap.BoundBy (h : Heap) (ms : List Method) : Prop :=
  ∀ id, h.bindings[id]? = (ms.find? fun x => x.body.scope.id == id).map Method.module

theorem Heap.initial_boundBy : Heap.initial.BoundBy [] := by
  have hfold : ∀ (ms : List Module) (h : Heap), (ms.foldl (fun h m =>
      h.setConstant Core.object m.name (.module m)) h).bindings = h.bindings := by
    intro ms
    induction ms with
    | nil => exact fun h => rfl
    | cons m ms ih => exact fun h => ih _
  intro id
  rw [Heap.initial, hfold]
  simp

namespace Heap

variable {h k : Heap}

theorem singletonClass_bindings {owner : Value} {m : Module}
    (hk : h.singletonClass owner = .ok (m, k)) : k.bindings = h.bindings := by
  simp only [singletonClass] at hk
  repeat' split at hk
  all_goals cases hk
  all_goals rfl

variable {c : Context} {receiver : Value} {name : String} {args : List Value}
  {block? : Option Block} {type : CallType} {q : Reply}

/-- What a call makes before anything is entered: an object, or the receiver's singleton class. -/
def Calls (h : Heap) (receiver : Value) (k : Heap) : Prop :=
  k = h ∨ (∃ m, k = (h.newObject m).2) ∨ ∃ s, h.singletonClass receiver = .ok (s, k)

theorem dispatch_calls (hk : h.dispatch c receiver name args block? type = .ok (q, k)) :
    h.Calls receiver k := by
  cases dispatch_dispatched hk with
  | method | classOf | block => exact .inl rfl
  | singleton hs => exact .inr (.inr ⟨_, hs⟩)
  | object | constructed => exact .inr (.inl ⟨_, rfl⟩)

theorem Calls.bindings (hk : h.Calls receiver k) : k.bindings = h.bindings := by
  rcases hk with rfl | ⟨m, rfl⟩ | ⟨s, hs⟩
  · rfl
  · rfl
  · exact singletonClass_bindings hs

end Heap

theorem Definition.opening_bindings {d : Definition} {c m : Module} {h k : Heap}
    (hk : d.opening c h = .ok (m, k)) : k.bindings = h.bindings := by
  unfold opening at hk
  split at hk
  · exact Heap.singletonClass_bindings hk
  · rcases (Heap.openModule_eq_ok hk).2.2 with ⟨-, rfl⟩ | ⟨-, -, make, rfl⟩ <;> rfl
  · split at hk
    · cases hk
    · rcases (Heap.openClass_eq_ok hk).2.2.2 with ⟨-, rfl⟩ | ⟨-, -, make, rfl⟩ <;> rfl
  · cases hk

/-- A definition binds the scope of its body to the module it answers. -/
theorem Definition.carryOut_bindings {d : Definition} {h k : Heap} {x : Method}
    (hk : d.carryOut h = .ok (x, k)) :
    k.bindings = h.bindings.insert x.body.scope.id x.module := by
  obtain ⟨c, l, -, hopen, hbody, rfl⟩ := carryOut_eq_ok hk
  rw [hbody, ← opening_bindings hopen]
  rfl

namespace Heap.BoundBy

variable {h k : Heap} {ms : List Method}

theorem insert (hms : h.BoundBy ms) {x : Method}
    (hk : k.bindings = h.bindings.insert x.body.scope.id x.module) : k.BoundBy (x :: ms) := by
  intro id
  rw [hk, Std.ExtTreeMap.getElem?_insert, List.find?_cons, hms id]
  by_cases hid : x.body.scope.id = id
  · simp [hid]
  · have hne : (x.body.scope.id == id) = false := beq_eq_false_iff_ne.2 hid
    simp [hid, hne]

theorem of_eq (hms : h.BoundBy ms) (hk : k.bindings = h.bindings) : k.BoundBy ms := by
  intro id
  rw [hk, hms id]

/-- What a scope is bound to is the innermost module around it. -/
theorem lexicalModule? (hms : h.BoundBy ms) {s : StaticScope} {y : Method}
    (hy : (ms.find? fun x => x.body.scope.id == s.id) = some y) :
    h.lexicalModule? s = some y.module := by
  have hbound : h.moduleOf? s.level = some y.module := by
    show h.bindings[s.id]? = _
    rw [hms, hy]
    rfl
  rw [Heap.lexicalModule?, StaticScope.levels, List.findSome?_cons, hbound]

end Heap.BoundBy

/-! ### What instructions bind -/

/-- Only slots and temps are stored in. -/
theorem Site.store_eq_ok {s t : Site} {r : Variable} {v : Value} (ht : s.store r v = .ok t) :
    ∃ slots ts, t = { s with
      heap.slots := slots
      activation := { s.activation with temps := ts } } := by
  rcases store_cases ht with ⟨x, ts, -, -, rfl⟩ | ⟨scope, depth, offset, k, hk, rfl⟩
  · exact ⟨s.heap.slots, ts, rfl⟩
  · obtain ⟨c, -, -, rfl⟩ := (Heap.writeLocal_eq_ok_iff _ _ _ _ _ k).1 hk
    exact ⟨_, s.activation.temps, rfl⟩

theorem Site.store_bindings {s t : Site} {r : Variable} {v : Value} (ht : s.store r v = .ok t) :
    t.heap.bindings = s.heap.bindings := by
  obtain ⟨slots, ts, rfl⟩ := Site.store_eq_ok ht
  rfl

namespace InstrOf

variable {i : Instr} {s t : Site}

theorem Effect.bindings (h : i.Effect s t)
    (hi : ∀ r body container superclass, i ≠ .defineClass r body container superclass) :
    t.heap.bindings = s.heap.bindings := by
  cases h with
  | supply | goTo | defineMethod | setVisibility | putConst => rfl
  | store _ ht => exact Site.store_bindings ht
  | dispatch _ hk => exact (Heap.dispatch_calls hk).bindings
  | define hdefine =>
    obtain ⟨r, container, superclass, hdefine⟩ := hdefine
    exact absurd hdefine (hi _ _ _ _)
  | buildClosure =>
    show s.captureScope.2.heap.bindings = _
    rw [Site.captureScope]
    split <;> rfl

/-- The method that an instruction defines at a site. -/
def defining? (i : Instr) (s : Site) : Option Method :=
  match i with
  | .defineClass _ body container superclass =>
    match Exec.define body container superclass s with
    | .ok x _ => some x
    | .error .. => none
  | _ => none

theorem effects_bindings (h : ReflTransGen i.Effect s t)
    (hi : ∀ r body container superclass, i ≠ .defineClass r body container superclass) :
    t.heap.bindings = s.heap.bindings :=
  effects_keep (P := fun u => u.heap.bindings = s.heap.bindings)
    (fun _ _ heffect hu => (heffect.bindings hi).trans hu) h rfl

end InstrOf

/-- To have the scopes of these methods bound, as long as nothing but reading goes on. -/
def Invariant.ofBindings (ms : List Method) : Invariant :=
  .ofSites (fun t => t.heap.BoundBy ms) (fun _ t => t.heap.BoundBy ms) fun _ t => t.heap.BoundBy ms

theorem Invariant.ofBindings_reads (ms : List Method) : (ofBindings ms).Reads :=
  reads_ofSites (fun _ _ ht => ht) fun _ _ ht _ => ht

open Exec in
/-- A definition that is refused binds nothing, and one that is not binds the scope of its body. -/
theorem Exec.define_boundBy {ms : List Method} {s : Site} (hms : s.heap.BoundBy ms) (body : Body)
    (container superclass : Operand) :
    match define body container superclass s with
    | .ok x t => t.heap.BoundBy (x :: ms)
    | .error _ t => t.heap.BoundBy ms := by
  have hw := Invariant.ofBindings_reads ms
  have hasked : ∀ v : Value, (Invariant.ofBindings ms).Keeps (fun x? => ∀ x, x? = some x → True)
      (if Heap.asksSuperclass body v then superclass? superclass else pure none) := by
    intro v
    split
    · exact hw.keeps_superclass? superclass
    · exact .pure fun t ht => ⟨fun _ _ => trivial, ht⟩
  rw [define_apply]
  have hv := hw.keeps_value container s hms
  cases hcontainer : value container s with
  | error f t =>
    rw [hcontainer] at hv
    exact hv
  | ok v t =>
    rw [hcontainer] at hv
    have hx := hasked v t hv.2
    simp only
    generalize (if Heap.asksSuperclass body v then superclass? superclass else pure none) t = asked
      at hx ⊢
    cases asked with
    | error f u => exact hx
    | ok x u =>
      simp only
      cases hk : (Definition.mk body v (.ok x)).carryOut u.heap with
      | error f => exact hx.2
      | ok p => exact hx.2.insert (Definition.carryOut_bindings hk)

/-- An instruction binds the scope of the method it defines, if it defines one, and no other. -/
theorem execute_boundBy {ms : List Method} {s : Site} (hms : s.heap.BoundBy ms) (i : Instr) :
    match i.execute s with
    | .ok _ t | .error _ t => t.heap.BoundBy ((i.defining? s).toList ++ ms) := by
  by_cases hi : ∃ r body container superclass, i = .defineClass r body container superclass
  · obtain ⟨r, body, container, superclass, rfl⟩ := hi
    have hdefined := Exec.define_boundBy hms body container superclass
    rw [execute_defineClass]
    cases hx : Exec.define body container superclass s with
    | error f t =>
      rw [hx] at hdefined
      rw [Exec.bind_of_error hx]
      simp only [InstrOf.defining?, hx]
      exact hdefined
    | ok x t =>
      rw [hx] at hdefined
      rw [Exec.bind_of_ok hx]
      simp only [InstrOf.defining?, hx]
      cases hstore : t.store r (.method x) with
      | error f =>
        rw [Exec.bind_of_error (by rw [Exec.store_apply, hstore])]
        exact hdefined
      | ok u =>
        rw [Exec.bind_of_ok (by rw [Exec.store_apply, hstore])]
        exact hdefined.of_eq (Site.store_bindings hstore)
  · have hnone : i.defining? s = none := by
      cases i with
      | defineClass r body container superclass =>
        exact absurd ⟨r, body, container, superclass, rfl⟩ hi
      | _ => rfl
    have hnot : ∀ r body container superclass, i ≠ .defineClass r body container superclass :=
      fun r body container superclass h => hi ⟨r, body, container, superclass, h⟩
    rw [hnone]
    cases he : i.execute s with
    | ok o t => exact hms.of_eq (InstrOf.effects_bindings (effects_of_ok he) hnot)
    | error f t => exact hms.of_eq (InstrOf.effects_bindings (effects_of_error he) hnot)

namespace Machine

/-- The method that the next step defines. -/
def defining? (m : Machine) : Option Method := m.next?.bind fun p => p.1.defining? p.2

/-- The methods that the first steps define, the latest first. -/
def defined (limit : Nat) : Nat → Machine → List Method
  | 0, _ => []
  | n + 1, m => (m.after limit n).defining?.toList ++ defined limit n m

theorem enter_bindings {h : Heap} {c : Context} {i : Invocation} {s : Site}
    (hs : enter limit h c i = .ok s) : s.heap.bindings = h.bindings := by
  rw [enter_eq_ok hs]
  rcases i.settleIn_cases h (c.withFrame i.frame) with
    ⟨-, -, hset⟩ | ⟨-, parent, -, ⟨-, hset⟩ | ⟨-, hset⟩⟩ | ⟨-, -, -, hset⟩ <;>
    rw [hset]
  all_goals rfl

theorem resume_bindings (h : Heap) (c : Context) (r : Except Unwind Value) (cs : List Caller) :
    (resume h c r cs).heap.bindings = h.bindings := by
  cases cs with
  | nil => rfl
  | cons caller cs =>
    cases r with
    | error u => rfl
    | ok v =>
      simp only [resume]
      cases ht : Site.store ⟨h, c, caller.activation⟩ caller.result v with
      | error f => rfl
      | ok t => exact Site.store_bindings ht

theorem step_boundBy (limit : Nat) {m : Machine} {ms : List Method} (hms : m.heap.BoundBy ms) :
    (m.step limit).heap.BoundBy (m.defining?.toList ++ ms) := by
  cases hnext : m.next? with
  | some p =>
    obtain ⟨i, s⟩ := p
    have hs : s.heap = m.heap := by
      obtain ⟨a, -, -, rfl⟩ := next?_eq_some hnext
      rfl
    have hbound := execute_boundBy (hs ▸ hms) i
    rw [step_of_next hnext, defining?, hnext, Option.bind_some]
    cases he : i.execute s with
    | error f t =>
      rw [he] at hbound
      exact hbound
    | ok o t =>
      rw [he] at hbound
      cases o with
      | call r inv =>
        simp only [follow]
        cases hcallee : enter limit t.heap t.context inv with
        | ok callee => exact hbound.of_eq (enter_bindings hcallee)
        | error f => exact hbound
      | _ => exact hbound
  | none =>
    rw [defining?, hnext]
    obtain ⟨heap, context, control, callers⟩ := m
    cases control with
    | finished r => exact hms
    | leaving a r => exact hms.of_eq (resume_bindings _ _ _ _)
    | running a =>
      have hcode : a.body.code[a.pc]? = none := Option.map_eq_none_iff.1 hnext
      simp only [step, hcode]
      exact hms

/-- At any time, a scope is bound to the module of the latest definition of a body that has it. -/
theorem after_boundBy (limit : Nat) {m : Machine} {ms : List Method} (hms : m.heap.BoundBy ms)
    (n : Nat) : (m.after limit n).heap.BoundBy (m.defined limit n ++ ms) := by
  induction n with
  | zero => exact hms
  | succ n ih =>
    rw [after_succ, defined, List.append_assoc]
    exact step_boundBy limit ih

end Machine

/-! ### What stands on the stacks -/

/-- What an activation and its frame have from when they are entered until they leave. -/
structure Standing where
  body : Body
  self : Value
  receiver : Value
  module : Module

def Activation.standing (a : Activation) (f : Frame) : Standing :=
  ⟨a.body, a.receiver, f.receiver, f.module⟩

def Invocation.standing (i : Invocation) : Standing :=
  ⟨i.body, i.frame.receiver, i.frame.receiver, i.frame.module⟩

def Site.standings (s : Site) (cs : List Caller) : List Standing :=
  List.zipWith Activation.standing (s.activation :: cs.map Caller.activation) s.context.frames

theorem Site.standings_congr {s t : Site} (hbody : t.activation.body = s.activation.body)
    (hreceiver : t.activation.receiver = s.activation.receiver)
    (hframes : t.context.frames = s.context.frames) (cs : List Caller) :
    t.standings cs = s.standings cs := by
  rw [standings, standings, hframes]
  cases s.context.frames with
  | nil => rfl
  | cons f fs =>
    rw [List.zipWith_cons_cons, List.zipWith_cons_cons, Activation.standing, Activation.standing,
      hbody, hreceiver]

theorem InstrOf.Effect.standings {i : Instr} {s t : Site} (h : i.Effect s t) (cs : List Caller) :
    t.standings cs = s.standings cs := by
  cases h with
  | store _ ht =>
    obtain ⟨k, ts, -, rfl⟩ := Site.store_changes ht
    refine Site.standings_congr ?_ ?_ ?_ cs <;> rfl
  | setVisibility _ hc =>
    obtain ⟨heap, ⟨frames, scopes, stats⟩, a⟩ := s
    cases frames with
    | nil => cases hc
    | cons f fs => cases hc; rfl
  | buildClosure =>
    have hcapture := s.captureScope_evolves
    refine Site.standings_congr hcapture.body hcapture.receiver ?_ cs
    rw [Site.captureScope]
    split <;> rfl
  | _ => refine Site.standings_congr ?_ ?_ ?_ cs <;> rfl

theorem effects_standings {i : Instr} {s t : Site} (h : ReflTransGen i.Effect s t)
    (cs : List Caller) : t.standings cs = s.standings cs :=
  InstrOf.effects_keep (P := fun u => u.standings cs = s.standings cs)
    (fun _ _ heffect hu => (heffect.standings cs).trans hu) h rfl

namespace Machine

/-- From the innermost activation to the outermost. -/
def standings (m : Machine) : List Standing :=
  List.zipWith Activation.standing m.active m.context.frames

theorem resume_standings (h : Heap) (c : Context) (r : Except Unwind Value) (cs : List Caller) :
    (resume h c r cs).standings =
      List.zipWith Activation.standing (cs.map Caller.activation) c.frames := by
  cases cs with
  | nil => rfl
  | cons caller cs =>
    cases r with
    | error u => rfl
    | ok v =>
      simp only [resume]
      cases ht : Site.store ⟨h, c, caller.activation⟩ caller.result v with
      | error f => rfl
      | ok t =>
        obtain ⟨k, ts, -, rfl⟩ := Site.store_changes ht
        refine Site.standings_congr (s := ⟨h, c, caller.activation⟩) ?_ ?_ ?_ cs <;> rfl

theorem resume_frameDepth (h : Heap) (c : Context) (r : Except Unwind Value) (cs : List Caller) :
    (resume h c r cs).context.frameDepth = c.frameDepth := by
  rcases resume_cases h c r cs with ⟨-, hr⟩ | ⟨caller, cs, -, hgoes⟩
  · rw [hr]
  · exact hgoes.frameDepth

/-- A step leaves the standings as they are, adds one that is entered or drops one that leaves. -/
theorem step_standings (limit : Nat) (m : Machine) :
    ((m.step limit).standings = m.standings ∧
        (m.step limit).context.frameDepth = m.context.frameDepth) ∨
      (∃ i, m.entering? limit = some i ∧ (m.step limit).standings = i.standing :: m.standings ∧
        (m.step limit).context.frameDepth = m.context.frameDepth + 1) ∨
      (m.step limit).standings = m.standings.tail ∧
        (m.step limit).context.frameDepth = m.context.frameDepth - 1 := by
  cases hnext : m.next? with
  | some p =>
    obtain ⟨i, s⟩ := p
    obtain ⟨a, ha, -, hs⟩ := next?_eq_some hnext
    have hstandings : s.standings m.callers = m.standings := by
      have hsame : s.standings m.callers = Site.standings ⟨m.heap, m.context, a⟩ m.callers := by
        rw [hs]
        refine Site.standings_congr ?_ ?_ ?_ m.callers <;> rfl
      rw [hsame, standings, active, ha]
      rfl
    have hdepth : s.context.frameDepth = m.context.frameDepth := by rw [hs]
    have hev := execute_evolves i s
    rw [step_of_next hnext, entering?, hnext]
    cases he : i.execute s with
    | error f t =>
      rw [he] at hev
      exact .inl ⟨(effects_standings (effects_of_error he) _).trans hstandings,
        hev.depth.trans hdepth⟩
    | ok o t =>
      rw [he] at hev
      have hsame := (effects_standings (effects_of_ok he) m.callers).trans hstandings
      have hd : t.context.frameDepth = m.context.frameDepth := hev.depth.trans hdepth
      cases o with
      | call r inv =>
        simp only [follow]
        cases hcallee : enter limit t.heap t.context inv with
        | error f => exact .inl ⟨hsame, hd⟩
        | ok callee =>
          refine .inr (.inl ⟨inv, by simp only [he, hcallee], ?_, ?_⟩)
          · obtain ⟨scopes, -, hcontext⟩ :=
              inv.settleIn_context t.heap (t.context.withFrame inv.frame)
            rw [← hsame, enter_eq_ok hcallee, standings, active_runningAt, hcontext]
            rfl
          · show callee.context.frameDepth = _
            rw [enter_frameDepth hcallee, hd]
      | _ => exact .inl ⟨hsame, hd⟩
  | none =>
    obtain ⟨heap, context, control, callers⟩ := m
    cases control with
    | finished r => exact .inl ⟨rfl, rfl⟩
    | running a =>
      have hcode : a.body.code[a.pc]? = none := Option.map_eq_none_iff.1 hnext
      have hstep : step limit ⟨heap, context, .running a, callers⟩ =
          ⟨heap, context, .leaving a (.ok .nil), callers⟩ := by simp only [step, hcode]
      rw [hstep]
      exact .inl ⟨rfl, rfl⟩
    | leaving a r =>
      refine .inr (.inr ⟨?_, ?_⟩)
      · rw [standings, standings, List.tail_zipWith, ← leave_frames a.body]
        exact resume_standings heap (leave a.body context) (a.settle r) callers
      · exact (resume_frameDepth ..).trans (leave_frameDepth ..)

/-- As long as a frame is there, its standing and those below are what they were. -/
theorem standings_above {m : Machine} {x : Standing}
    (hx : (m.step limit).standings = x :: m.standings) {n : Nat}
    (habove : ∀ j, j ≤ n → m.context.frameDepth < (m.after limit (j + 1)).context.frameDepth)
    (hdepth : (m.step limit).context.frameDepth = m.context.frameDepth + 1) :
    ∃ upper : List Standing, (m.after limit (n + 1)).standings = upper ++ x :: m.standings ∧
      (m.after limit (n + 1)).context.frameDepth = upper.length + (m.context.frameDepth + 1) := by
  induction n with
  | zero => exact ⟨[], hx, by rw [after_succ', after_zero, hdepth]; simp⟩
  | succ n ih =>
    obtain ⟨upper, hstandings, hcount⟩ := ih fun j hj => habove j (Nat.le_succ_of_le hj)
    have hlast := habove (n + 1) (Nat.le_refl _)
    rw [after_succ] at hlast ⊢
    rcases step_standings limit (m.after limit (n + 1)) with
      ⟨hsame, hd⟩ | ⟨i, -, hmore, hd⟩ | ⟨hless, hd⟩
    · exact ⟨upper, by rw [hsame, hstandings], by rw [hd, hcount]⟩
    · refine ⟨i.standing :: upper, by rw [hmore, hstandings]; rfl, ?_⟩
      rw [hd, hcount, List.length_cons]
      omega
    · cases upper with
      | nil =>
        rw [hd, hcount] at hlast
        simp at hlast
      | cons y upper =>
        refine ⟨upper, by rw [hless, hstandings]; rfl, ?_⟩
        rw [hd, hcount, List.length_cons]
        omega

/-- The method whose body the next step enters as a module body. -/
def processing? (limit : Nat) (m : Machine) : Option Method :=
  match m.next? with
  | some (.processModuleBody _ o, s) =>
    match Exec.value o s with
    | .ok (.method x) _ => if (m.entering? limit).isSome then some x else none
    | _ => none
  | _ => none

theorem entering_of_processing {m : Machine} {x : Method} (hx : m.processing? limit = some x) :
    ∃ i, m.entering? limit = some i ∧
      i.standing = ⟨x.body, .module x.module, .module x.module, x.module⟩ := by
  rw [processing?] at hx
  split at hx
  · next r o s hnext =>
    split at hx
    · next y t hv =>
      split at hx
      · next hsome =>
        cases hx
        obtain ⟨i, hi⟩ := Option.isSome_iff_exists.1 hsome
        refine ⟨i, hi, ?_⟩
        have he : InstrOf.execute (.processModuleBody r o) s =
            ((do return Outcome.call r (← ofExcept (x.invocation t.context (.module x.module)
              x.body.name [] none))) : Exec Outcome) t := by
          rw [InstrOf.execute, Exec.bind_of_ok hv]
          rfl
        rw [Machine.entering?, hnext] at hi
        simp only [he] at hi
        cases hinv : x.invocation t.context (.module x.module) x.body.name [] none with
        | error f =>
          rw [hinv] at hi
          cases hi
        | ok inv =>
          have hok : (ofExcept (.ok inv) : Exec Invocation) t = .ok inv t := rfl
          rw [hinv, Exec.bind_of_ok hok] at hi
          have hsame : inv = i := by
            simp only [pure, EStateM.pure] at hi
            split at hi
            · exact Option.some.inj hi
            · cases hi
          rw [Method.invocation] at hinv
          split at hinv
          · cases hinv
            rw [← hsame]
            rfl
          · cases hinv
      · cases hx
    · cases hx
  · cases hx

/-- What the step after the `k`th has entered is still on the stacks after `n` steps. -/
def Lasts (limit k n : Nat) (m : Machine) : Prop :=
  k < n ∧ ∀ j, k < j → j ≤ n →
    (m.after limit k).context.frameDepth < (m.after limit j).context.frameDepth

/-- The activation runs the body of the method, as the method's module. -/
structure Implements (m : Machine) (a : Activation) (x : Method) : Prop where
  body : a.body = x.body
  self : a.receiver = .module x.module
  frame : ∃ f, m.context.currentFrame? = some f ∧ f.receiver = .module x.module ∧
    f.module = x.module

/-- What the activation reads as the module around its code. -/
def Sees (m : Machine) (a : Activation) (n : Module) : Prop :=
  Exec.value .scopeModule ⟨m.heap, m.context, a⟩ = .ok (.module n) ⟨m.heap, m.context, a⟩

/-- What is entered at a step is on top whenever it is there and nothing is above it. -/
theorem implements_of_lasts {m : Machine} {k n : Nat} {x : Method} {a : Activation}
    (hprocessing : (m.after limit k).processing? limit = some x) (hlasts : m.Lasts limit k n)
    (htop : (m.after limit n).context.frameDepth = (m.after limit k).context.frameDepth + 1)
    (hrunning : (m.after limit n).control = .running a) : (m.after limit n).Implements a x := by
  obtain ⟨i, hentering, hstanding⟩ := entering_of_processing hprocessing
  obtain ⟨l, rfl⟩ : ∃ l, n = k + (l + 1) := ⟨n - k - 1, by have := hlasts.1; omega⟩
  have hfirst : ((m.after limit k).step limit).standings =
        i.standing :: (m.after limit k).standings ∧
      ((m.after limit k).step limit).context.frameDepth =
        (m.after limit k).context.frameDepth + 1 := by
    have hgrown := hlasts.2 (k + 1) (Nat.lt_succ_self _) (by omega)
    rw [after_succ] at hgrown
    rcases step_standings limit (m.after limit k) with
      ⟨-, hd⟩ | ⟨j, hj, hmore, hd⟩ | ⟨-, hd⟩
    · omega
    · rw [hentering] at hj
      cases hj
      exact ⟨hmore, hd⟩
    · omega
  have hall : ∀ j, j ≤ l → (m.after limit k).context.frameDepth <
      ((m.after limit k).after limit (j + 1)).context.frameDepth := by
    intro j hj
    rw [← after_add]
    exact hlasts.2 _ (by omega) (by omega)
  obtain ⟨upper, hstandings, hdepth⟩ := standings_above hfirst.1 hall hfirst.2
  rw [← after_add] at hstandings hdepth
  rw [htop] at hdepth
  have hnil : upper = [] := List.eq_nil_of_length_eq_zero (by omega)
  rw [hnil, List.nil_append, standings, active, hrunning] at hstandings
  generalize hframes : (m.after limit (k + (l + 1))).context.frames = frames at hstandings
  cases frames with
  | nil => cases hstandings
  | cons f fs =>
    rw [List.zipWith_cons_cons, List.cons.injEq, hstanding, Activation.standing,
      Standing.mk.injEq] at hstandings
    obtain ⟨⟨hbody, hself, hreceiver, hmodule⟩, -⟩ := hstandings
    exact ⟨hbody, hself, f, by rw [Context.currentFrame?, hframes]; rfl, hreceiver, hmodule⟩

theorem sees_of_scopeModule {m : Machine} {a : Activation} {n : Module}
    (hn : Site.scopeModule ⟨m.heap, m.context, a⟩ = .ok n) : m.Sees a n := by
  rw [Sees, Exec.value, Exec.reading]
  simp only [Site.evaluate, hn]
  rfl

theorem Sees.unique {m : Machine} {a : Activation} {n n' : Module} (h : m.Sees a n)
    (h' : m.Sees a n') : n = n' := by
  have hread := h.symm.trans h'
  cases hread
  rfl

theorem sees_of_boundBy {m : Machine} {ms : List Method} (hms : m.heap.BoundBy ms) (a : Activation)
    {y : Method} (hy : (ms.find? fun y => y.body.scope.id == a.body.scope.id) = some y) :
    m.Sees a y.module := by
  refine sees_of_scopeModule ?_
  rw [Site.scopeModule, hms.lexicalModule? hy]

theorem processing_vetted {w : Vetting} (hw : w.Closed) {m : Machine} (hm : m.Vetted w)
    {x : Method} (hx : m.processing? limit = some x) : w.body x.body := by
  obtain ⟨i, hi, hstanding⟩ := entering_of_processing hx
  have hbody : i.body = x.body := congrArg Standing.body hstanding
  rw [← hbody]
  exact (entering_vetted hw hm hi).body

theorem defining_vetted {w : Vetting} (hw : w.Closed) {m : Machine} (hm : m.Vetted w) {x : Method}
    (hx : m.defining? = some x) : w.body x.body := by
  obtain ⟨⟨i, s⟩, hnext, hi⟩ := Option.bind_eq_some_iff.1 hx
  obtain ⟨hs, hcode⟩ := site_vetted hm hnext
  cases i with
  | defineClass r body container superclass =>
    simp only [InstrOf.defining?] at hi
    split at hi
    · next y t hdefine =>
      cases hi
      rw [Exec.define_body hdefine]
      exact hw s.activation.body hs.activation.body _ hcode body rfl
    · cases hi
  | _ => cases hi

theorem defined_suffix (limit : Nat) (m : Machine) {k n : Nat} (hkn : k ≤ n) :
    ∃ newer, m.defined limit n = newer ++ m.defined limit k := by
  induction hkn with
  | refl => exact ⟨[], rfl⟩
  | step _ ih =>
    obtain ⟨newer, hnewer⟩ := ih
    exact ⟨_ ++ newer, by rw [defined, hnewer, List.append_assoc]⟩

end Machine

theorem Entry.start_boundBy (limit : Nat) {h : Heap} {ms : List Method} (hms : h.BoundBy ms)
    (c : Context) (e : Entry) : (e.start limit h c).heap.BoundBy ms := by
  have hreply : ∀ q k, e.reply h c = .ok (q, k) → k.bindings = h.bindings := by
    intro q k hq
    cases e with
    | send receiver name args => exact (Heap.dispatch_calls hq).bindings
    | method m receiver name args block? =>
      rw [reply] at hq
      cases hi : m.invocation c receiver name args block? with
      | error f => rw [hi] at hq; cases hq
      | ok i => rw [hi] at hq; cases hq; rfl
    | _ => cases hq; rfl
  rw [start_eq]
  rcases hr : e.reply h c with f | ⟨v | i, k⟩
  · exact hms
  · exact hms.of_eq (hreply _ k hr)
  · simp only [Machine.awaiting, Machine.start]
    split
    · next s hs => exact hms.of_eq ((Machine.enter_bindings hs).trans (hreply _ k hr))
    · exact hms.of_eq (hreply _ k hr)

/--
A module body that is processed has its module as `self` and implements it, whatever was defined
before or is meanwhile. What it reads as the module around it is the module that its static scope
was last defined as, which is its own if the scope was not defined as another since.
-/
theorem processed_body_sees_module {h : Heap} {past : List Method} (hh : h.BoundBy past)
    {c : Context} {e : Entry} {k n : Nat} {x : Method} {a : Activation}
    (hprocessing : ((e.start limit h c).after limit k).processing? limit = some x)
    (hdefined : x ∈ (e.start limit h c).defined limit k ++ past)
    (hlasts : (e.start limit h c).Lasts limit k n)
    (htop : ((e.start limit h c).after limit n).context.frameDepth =
      ((e.start limit h c).after limit k).context.frameDepth + 1)
    (hrunning : ((e.start limit h c).after limit n).control = .running a) :
    ((e.start limit h c).after limit n).Implements a x ∧
      (∃ y, ((e.start limit h c).defined limit n ++ past).find?
          (fun y => y.body.scope.id == x.body.scope.id) = some y ∧
        ((e.start limit h c).after limit n).Sees a y.module) ∧
      ∀ newer older, (e.start limit h c).defined limit n ++ past = newer ++ x :: older →
        (∀ y ∈ newer, y.body.scope.id = x.body.scope.id → y.module = x.module) →
          ((e.start limit h c).after limit n).Sees a x.module := by
  have himplements := Machine.implements_of_lasts hprocessing hlasts htop hrunning
  have hbound := Machine.after_boundBy limit (e.start_boundBy limit hh c) n
  obtain ⟨newer, hnewer⟩ :=
    (e.start limit h c).defined_suffix limit (Nat.le_of_lt hlasts.1)
  have hsees : ∀ y, ((e.start limit h c).defined limit n ++ past).find?
      (fun y => y.body.scope.id == x.body.scope.id) = some y →
        ((e.start limit h c).after limit n).Sees a y.module := by
    intro y hy
    rw [← himplements.body] at hy
    exact Machine.sees_of_boundBy hbound a hy
  refine ⟨himplements, ?_, fun newer older hall hsame => ?_⟩
  · have hmem : x ∈ (e.start limit h c).defined limit n ++ past := by
      rw [hnewer, List.append_assoc]
      exact List.mem_append_right _ hdefined
    have hfound : (((e.start limit h c).defined limit n ++ past).find?
        (fun y => y.body.scope.id == x.body.scope.id)).isSome :=
      List.find?_isSome.2 ⟨x, hmem, beq_self_eq_true _⟩
    obtain ⟨y, hy⟩ := Option.isSome_iff_exists.1 hfound
    exact ⟨y, hy, hsees y hy⟩
  · rw [hall, List.find?_append, List.find?_cons, beq_self_eq_true] at hsees
    cases hy : newer.find? (fun y => y.body.scope.id == x.body.scope.id) with
    | none => exact hsees x (by rw [hy]; rfl)
    | some y =>
      have hid := List.find?_some hy
      rw [← hsame y (List.mem_of_find?_eq_some hy) (beq_iff_eq.1 hid)]
      exact hsees y (by rw [hy]; rfl)

/-- The body of a class, which answers the module it reads around it. -/
def seeingClass : Draft where
  name := "B"
  scope := ⟨⟨1, .classBody, []⟩, []⟩
  code := [.ret .scopeModule]

/-- A script that defines the class in two containers, and processes the earlier definition. -/
def reboundScript : Draft where
  name := "<main>"
  scope := ⟨⟨0, .script, []⟩, []⟩
  code := [
    .searchConst (.temp ⟨.generic, 0⟩) "String",
    .defineClass (.temp ⟨.generic, 1⟩) (seeingClass.body 1 {}) .scopeModule .undefined,
    .defineClass (.temp ⟨.generic, 2⟩) (seeingClass.body 1 {}) (.var (.temp ⟨.generic, 0⟩))
      .undefined,
    .processModuleBody (.temp ⟨.generic, 3⟩) (.var (.temp ⟨.generic, 1⟩)),
    .ret (.var (.temp ⟨.generic, 3⟩))]

def reboundRun : Machine :=
  (Entry.script (reboundScript.body 0 { generic := 4 })).start 8 .initial {}

/-- The two bodies, with whatever blocks there are. -/
def reboundCode : Vetting where
  body b := b = reboundScript.body 0 { generic := 4 } ∨ b = seeingClass.body 1 {}
  block _ _ _ := True

theorem reboundCode_closed : reboundCode.Closed := by
  rintro b hb i hi b' hb'
  rcases hb with rfl | rfl
  · simp only [Draft.body, reboundScript, List.mem_cons, List.not_mem_nil, or_false] at hi
    rcases hi with rfl | rfl | rfl | rfl | rfl <;> cases hb' <;> exact .inr rfl
  · simp only [Draft.body, seeingClass, List.mem_cons, List.not_mem_nil, or_false] at hi
    rw [hi] at hb'
    cases hb'

theorem reboundRun_vetted (n : Nat) : (reboundRun.after 8 n).Vetted reboundCode := by
  induction n with
  | zero =>
    have hscript : (Entry.script (reboundScript.body 0 { generic := 4 })).Vetted reboundCode :=
      .inl rfl
    exact Entry.start_vetted 8 (Heap.initial_vetted reboundCode) (c := {}) (by rintro f ⟨⟩) hscript
  | succ n ih =>
    rw [Machine.after_succ]
    exact step_vetted reboundCode_closed 8 ih fun _ _ _ _ => trivial

/-- The two definitions of the class. -/
def classInObject : Method :=
  ⟨0, seeingClass.body 1 {}, .public, .subclass 14 "B" true Core.object⟩

def classInString : Method :=
  ⟨1, seeingClass.body 1 {}, .public, .subclass 15 "String::B" true Core.object⟩

theorem eq_of_seeingClass {x y : Method} (hx : reboundCode.body x.body)
    (hy : y.body = seeingClass.body 1 {})
    (hxy : (x.id, x.visibility, x.module, x.body.kind) =
      (y.id, y.visibility, y.module, BodyKind.classBody)) : x = y := by
  obtain ⟨id, body, visibility, module⟩ := x
  obtain ⟨id', body', visibility', module'⟩ := y
  simp only [Prod.mk.injEq] at hxy hx hy
  obtain ⟨rfl, rfl, rfl, hkind⟩ := hxy
  rcases hx with hx | hx
  · rw [hx] at hkind
    cases hkind
  · rw [hx, hy]

theorem reboundRun_processing : (reboundRun.after 8 3).processing? 8 = some classInObject := by
  have hkey : ((reboundRun.after 8 3).processing? 8).map (fun x =>
      (x.id, x.visibility, x.module, x.body.kind)) =
      some (0, .public, .subclass 14 "B" true Core.object, .classBody) := by decide +kernel
  obtain ⟨x, hx, hkey⟩ := Option.map_eq_some_iff.1 hkey
  rw [hx, eq_of_seeingClass (y := classInObject)
    (Machine.processing_vetted reboundCode_closed (reboundRun_vetted 3) hx) rfl hkey]

theorem reboundRun_defined : reboundRun.defined 8 3 = [classInString, classInObject] := by
  have hnone : (reboundRun.after 8 0).defining?.isNone = true := by decide +kernel
  have hobject : (reboundRun.after 8 1).defining?.map (fun x =>
      (x.id, x.visibility, x.module, x.body.kind)) =
      some (0, .public, .subclass 14 "B" true Core.object, .classBody) := by decide +kernel
  have hstring : (reboundRun.after 8 2).defining?.map (fun x =>
      (x.id, x.visibility, x.module, x.body.kind)) =
      some (1, .public, .subclass 15 "String::B" true Core.object, .classBody) := by decide +kernel
  obtain ⟨x, hx, hobject⟩ := Option.map_eq_some_iff.1 hobject
  obtain ⟨y, hy, hstring⟩ := Option.map_eq_some_iff.1 hstring
  have hxclass := eq_of_seeingClass (y := classInObject)
    (Machine.defining_vetted reboundCode_closed (reboundRun_vetted 1) hx) rfl hobject
  have hyclass := eq_of_seeingClass (y := classInString)
    (Machine.defining_vetted reboundCode_closed (reboundRun_vetted 2) hy) rfl hstring
  rw [Machine.defined, Machine.defined, Machine.defined, Machine.defined, hy, hx, hxclass, hyclass,
    Option.isNone_iff_eq_none.1 hnone]
  rfl

theorem reboundRun_lasts : reboundRun.Lasts 8 3 4 := by
  refine ⟨by decide, fun j hlt hle => ?_⟩
  obtain rfl : j = 4 := by omega
  decide +kernel

/-- A definition in another container changes what the body of the earlier one sees. -/
theorem rebound_body_sees_other : ∃ a, reboundRun.defined 8 3 = [classInString, classInObject] ∧
    (reboundRun.after 8 3).processing? 8 = some classInObject ∧ reboundRun.Lasts 8 3 4 ∧
      (reboundRun.after 8 4).control = .running a ∧
      ¬(reboundRun.after 8 4).Sees a classInObject.module := by
  have hread : ((reboundRun.after 8 4).next?.bind fun p => p.2.scopeModule.toOption) =
      some classInString.module := by decide +kernel
  have hother : ∃ a, (reboundRun.after 8 4).control = .running a ∧
      (reboundRun.after 8 4).Sees a classInString.module := by
    generalize reboundRun.after 8 4 = m at hread
    obtain ⟨⟨i, s⟩, hnext, hs⟩ := Option.bind_eq_some_iff.1 hread
    obtain ⟨a, ha, -, rfl⟩ := Machine.next?_eq_some hnext
    refine ⟨a, ha, Machine.sees_of_scopeModule ?_⟩
    cases hmodule : Site.scopeModule ⟨m.heap, m.context, a⟩ with
    | error f =>
      have hfails : Site.scopeModule ⟨m.heap, m.context, { a with pc := a.pc + 1 }⟩ = .error f :=
        hmodule
      rw [hfails] at hs
      cases hs
    | ok n =>
      have hreads : Site.scopeModule ⟨m.heap, m.context, { a with pc := a.pc + 1 }⟩ = .ok n :=
        hmodule
      rw [hreads] at hs
      exact congrArg _ (Option.some.inj hs)
  obtain ⟨a, ha, hother⟩ := hother
  refine ⟨a, reboundRun_defined, reboundRun_processing, reboundRun_lasts, ha, fun hsees => ?_⟩
  exact absurd (hsees.unique hother) (by decide)

theorem processed_body_sees_module_reboundScript :
    (reboundRun.after 8 3).processing? 8 = some classInObject ∧
      classInObject ∈ reboundRun.defined 8 3 ++ [] ∧ reboundRun.Lasts 8 3 4 ∧
      ∃ (a : Activation) (y : Method), (reboundRun.after 8 4).control = .running a ∧
        (reboundRun.after 8 4).Implements a classInObject ∧
        (reboundRun.after 8 4).Sees a y.module := by
  have hnext : (reboundRun.after 8 4).next?.isSome = true := by decide +kernel
  obtain ⟨⟨i, s⟩, hnext⟩ := Option.isSome_iff_exists.1 hnext
  obtain ⟨a, ha, -⟩ := Machine.next?_eq_some hnext
  have hmem : classInObject ∈ reboundRun.defined 8 3 ++ [] := by
    rw [reboundRun_defined]
    exact List.mem_cons_of_mem _ List.mem_cons_self
  have htop : (reboundRun.after 8 4).context.frameDepth =
      (reboundRun.after 8 3).context.frameDepth + 1 := by decide +kernel
  obtain ⟨himplements, ⟨y, -, hsees⟩, -⟩ := processed_body_sees_module
    (e := .script (reboundScript.body 0 { generic := 4 })) (c := {}) Heap.initial_boundBy
    reboundRun_processing hmem reboundRun_lasts htop ha
  exact ⟨reboundRun_processing, hmem, reboundRun_lasts, a, y, ha, himplements, hsees⟩

end ObjectIr
