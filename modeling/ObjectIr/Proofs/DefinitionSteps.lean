import ObjectIr.Proofs.Owners

/-!
# Definitions, change by change

`Heap.define` answers a whole new heap or none, so that nothing can be seen of it half done. Here
the same definition is carried out in the order in which its checks and changes are made
(`Exec.defineInSteps`): the superclass is asked for on the way, by code of any kind, and what was
changed before a failure stays changed. The two come to the same (`defineInSteps_eq`), because all
checks come before the first change, and so does what an instruction defines (`define_eq_inSteps`).
So a definition that fails leaves everything as it was when its superclass had been asked for, and
one that succeeds has changed what it defines and nothing else (`definition_atomic`).
-/

namespace ObjectIr

namespace Exec

variable {α β : Type}

/-- Carries out a change of the heap that answers nothing. -/
def update (f : Heap → Heap) : Exec Unit := change fun h => ((), f h)

def openSingleton (c : Module) : Exec Module := do
  match (← get).heap.singleton? (.module c) with
  | some s => return s
  | none =>
    let s ← change fun h => h.newModule fun id => .root id ("#<Class:" ++ c.name ++ ">") .singleton
    update fun h => h.setSingleton (.module c) s
    return s

def openModule (c : Module) (name : String) : Exec Module := do
  let qualified := c.qualify name
  match (← get).heap.constant? c name with
  | some (.module m) =>
    if m.isClass then throw (.type (.notModuleConstant qualified)) else return m
  | some _ => throw (.type (.notModuleConstant qualified))
  | none =>
    let m ← change fun h => h.newModule fun id => .root id qualified .module
    update fun h => h.setConstant c name (.module m)
    return m

def openClass (c : Module) (name : String) (superclass? : Option Module) : Exec Module := do
  let qualified := c.qualify name
  match (← get).heap.constant? c name with
  | some (.module m) =>
    if !m.isClass || m.isSingleton then throw (.type (.notClassConstant qualified))
    else
      match superclass? with
      | none => return m
      | some s =>
        if m.superclass? = some s then return m
        else throw (.type (.superclassMismatch qualified))
  | some _ => throw (.type (.notClassConstant qualified))
  | none =>
    let m ← change fun h =>
      h.newModule fun id => .subclass id qualified true (superclass?.getD Core.object)
    update fun h => h.setConstant c name (.module m)
    return m

/-- The class to derive from, once it has been asked for. -/
def inherited (ask : Exec (Option Value)) : Exec (Option Module) := do
  match ← ask with
  | none => return none
  | some v => some <$> ofExcept v.asSuperclass

def openBody (body : Body) (c : Module) (ask : Exec (Option Value)) : Exec Module :=
  match body.kind with
  | .metaclassBody => openSingleton c
  | .moduleBody => openModule c body.name
  | .classBody => do openClass c body.name (← inherited ask)
  | kind => throw (.internal (.notModuleBody body.name kind))

/-- Defines or reopens a module. The superclass of a class is asked for when it is needed. -/
def defineInSteps (body : Body) (container : Value) (ask : Exec (Option Value)) : Exec Method := do
  match container.module? with
  | none => throw (.type .noContainer)
  | some c =>
    let m ← openBody body c ask
    update fun h => h.bindScope body.scope m
    update fun h => h.bindBody m body
    change fun h => h.newMethod body .public m

/-! ### In one step -/

theorem openSingleton_eq (c : Module) :
    openSingleton c = attempt fun h => h.singletonClass (.module c) := by
  funext s
  rw [attempt_apply, openSingleton, get_bind]
  simp only [Heap.singletonClass]
  cases s.heap.singleton? (.module c) <;> rfl

theorem openModule_eq (c : Module) (name : String) :
    openModule c name = attempt fun h => h.openModule c name := by
  funext s
  rw [attempt_apply, openModule, get_bind]
  simp only [Heap.openModule]
  rcases s.heap.constant? c name with _ | v
  · rfl
  · cases v with
    | module m =>
      simp only
      split <;> rfl
    | _ => rfl

theorem openClass_eq (c : Module) (name : String) (superclass? : Option Module) :
    openClass c name superclass? = attempt fun h => h.openClass c name superclass? := by
  funext s
  rw [attempt_apply, openClass, get_bind]
  simp only [Heap.openClass]
  rcases s.heap.constant? c name with _ | v
  · rfl
  · cases v with
    | module m =>
      simp only
      split
      · rfl
      · rcases superclass? with _ | n
        · rfl
        · simp only
          split <;> rfl
    | _ => rfl

/-- The superclass is asked for, and then the heap is changed at once, or not at all. -/
theorem openBody_eq (body : Body) (c : Module) (ask : Exec (Option Value)) :
    openBody body c ask = (do
      let superclass? ← if body.kind = .classBody then ask else pure none
      attempt fun h => h.openBody body c superclass?) := by
  unfold openBody Heap.openBody
  cases hkind : body.kind with
  | classBody =>
    simp only [if_true, inherited, bind_assoc]
    congr
    funext x
    rcases x with _ | v
    · simp only [pure_bind, openClass_eq]
    · funext s
      simp only [attempt_apply]
      cases hv : v.asSuperclass with
      | error f => rfl
      | ok n => exact (congrFun (openClass_eq c body.name (some n)) s).trans (attempt_apply _ s)
  | metaclassBody => simp [openSingleton_eq]
  | moduleBody => simp [openModule_eq]
  | _ => rfl

theorem defineInSteps_eq (body : Body) (container : Value) (ask : Exec (Option Value)) :
    defineInSteps body container ask = (do
      let superclass? ← if Heap.asksSuperclass body container then ask else pure none
      attempt fun h => h.define body container superclass?) := by
  cases container with
  | module c =>
    have hbound : ∀ superclass?, (do
        let m ← attempt fun h => h.openBody body c superclass?
        update fun h => h.bindScope body.scope m
        update fun h => h.bindBody m body
        change fun h => h.newMethod body .public m) =
        attempt fun h => h.define body (.module c) superclass? := by
      intro superclass?
      funext s
      rw [attempt_apply, Heap.define]
      simp only [Value.module?]
      have hopen := attempt_apply (fun h => h.openBody body c superclass?) s
      cases hx : s.heap.openBody body c superclass? with
      | error f => rw [hx] at hopen; exact bind_of_error hopen
      | ok p => rw [hx] at hopen; exact bind_of_ok hopen
    simp only [defineInSteps, Value.module?, openBody_eq, Heap.asksSuperclass, Option.isSome_some,
      Bool.true_and, decide_eq_true_eq]
    split
    · simp only [bind_assoc, hbound]
    · simp only [pure_bind, hbound]
  | _ => rfl

/-- What an instruction defines is defined in these steps, from what its operands read. -/
theorem define_eq_inSteps (body : Body) (container superclass : Operand) :
    define body container superclass =
      (do defineInSteps body (← value container) (superclass? superclass)) := by
  simp only [define, defineInSteps_eq]

/-! ### What a definition leaves alone -/

/-- The site where an execution ends, whether it fails or not. -/
def siteAfter (x : Exec α) (s : Site) : Site :=
  match x s with
  | .ok _ t | .error _ t => t

/-- The site once the superclass of a definition has been asked for, if it comes to that. -/
def asked (body : Body) (container : Value) (ask : Exec (Option Value)) (s : Site) : Site :=
  if Heap.asksSuperclass body container then siteAfter ask s else s

end Exec

namespace Heap

/-- Opening `m` in `c` fills at most a free constant, or an empty slot for a singleton class. -/
structure Opens (h : Heap) (body : Body) (c m : Module) (k : Heap) : Prop where
  kind : body.kind.isModuleBody = true
  constants : ∀ n name, k.constant? n name =
    if body.kind ≠ .metaclassBody ∧ c.id = n.id ∧ body.name = name then some (.module m)
    else h.constant? n name
  constant_free : body.kind ≠ .metaclassBody →
    h.constant? c body.name = none ∨ h.constant? c body.name = some (.module m)
  slots : ∀ o, k.slot? o =
    if body.kind = .metaclassBody ∧ .module c.id = o then some m else h.slot? o
  slot_free : body.kind = .metaclassBody →
    h.slot? (.module c.id) = none ∨ h.slot? (.module c.id) = some m
  methods : ∀ n name, k.method? n name = h.method? n name
  locals : k.slots = h.slots

/-- A definition binds besides the scope of its body to `m`, and the body to it. -/
structure Defines (h : Heap) (body : Body) (c m : Module) (k : Heap) : Prop
    extends h.Opens body c m k where
  bindings : ∀ l, k.moduleOf? l = if body.scope.id = l.id then some m else h.moduleOf? l
  bodies : ∀ n, k.body? n = if m.id = n.id then some body else h.body? n

variable {h k l : Heap} {body : Body} {c m : Module}

theorem body?_setConstant (h : Heap) (m n : Module) (name : String) (v : Value) :
    (h.setConstant m name v).body? n = h.body? n := by
  simp only [body?, setConstant, table_setTable]
  split
  · next hid => rw [table_congr h m n hid]
  · rfl

/-- What opening a module does not touch is left to be bound. -/
structure Unbound (h k : Heap) : Prop where
  bindings : k.bindings = h.bindings
  bodies : ∀ n, k.body? n = h.body? n

theorem Opens.of_constant (hclass : body.kind.isModuleBody = true)
    (hmeta : body.kind ≠ .metaclassBody)
    (hk : h.constant? c body.name = some (.module m) ∧ k = h ∨ h.constant? c body.name = none ∧
      ∃ make, k = (h.newModule make).2.setConstant c body.name (.module m)) :
    h.Opens body c m k ∧ h.Unbound k := by
  rcases hk with ⟨hm, rfl⟩ | ⟨hnone, make, rfl⟩
  · refine ⟨⟨hclass, fun n name => ?_, fun _ => .inr hm, fun o => by simp [hmeta], by simp [hmeta],
      fun _ _ => rfl, rfl⟩, rfl, fun _ => rfl⟩
    split
    · next hn => rw [← hn.2.2, ← hm, constant?, constant?, table_congr k c n hn.2.1]
    · rfl
  · refine ⟨⟨hclass, fun n name => ?_, fun _ => .inl hnone, fun o => ?_, by simp [hmeta],
      fun n name => method?_setConstant _ c n body.name name _, rfl⟩, rfl, fun n => ?_⟩
    · rw [constant?_setConstant]
      simp only [ne_eq, hmeta, not_false_eq_true, true_and]
      rfl
    · rw [slot?_setConstant]
      simp only [hmeta, false_and, if_false]
      rfl
    · rw [body?_setConstant]
      rfl

theorem Opens.of_singleton (hmeta : body.kind = .metaclassBody)
    (hk : h.singleton? (.module c) = some m ∧ k = h ∨ h.singleton? (.module c) = none ∧
      ∃ make, k = (h.newModule make).2.setSingleton (.module c) m) :
    h.Opens body c m k ∧ h.Unbound k := by
  have hclass : body.kind.isModuleBody = true := by rw [hmeta]; rfl
  rcases hk with ⟨hm, rfl⟩ | ⟨hnone, make, rfl⟩
  · refine ⟨⟨hclass, by simp [hmeta], by simp [hmeta], fun o => ?_, fun _ => .inr hm,
      fun _ _ => rfl, rfl⟩, rfl, fun _ => rfl⟩
    split
    · next ho => rw [← ho.2, ← hm]; rfl
    · rfl
  · refine ⟨⟨hclass, fun n name => ?_, by simp [hmeta], fun o => ?_, fun _ => .inl hnone,
      fun n name => method?_setSingleton _ name _ m n, rfl⟩, rfl, fun n => ?_⟩
    · rw [constant?_setSingleton]
      simp only [hmeta, ne_eq, not_true_eq_false, false_and, if_false]
      rfl
    · rw [slot?_setSingleton _ _ rfl]
      simp only [hmeta, true_and]
      rfl
    · rw [body?_setSingleton]
      rfl

theorem openBody_eq_ok {superclass? : Option Value}
    (hk : h.openBody body c superclass? = .ok (m, k)) : h.Opens body c m k ∧ h.Unbound k := by
  unfold openBody at hk
  cases hkind : body.kind with
  | metaclassBody =>
    simp only [hkind] at hk
    exact Opens.of_singleton hkind (singletonClass_eq_ok hk)
  | moduleBody =>
    simp only [hkind] at hk
    obtain ⟨-, -, hk⟩ := openModule_eq_ok hk
    exact Opens.of_constant (by rw [hkind]; rfl) (by simp [hkind])
      (hk.imp_right fun hk => ⟨hk.1, hk.2.2⟩)
  | classBody =>
    have hopen : ∀ superclass? : Option Module,
        h.openClass c body.name superclass? = .ok (m, k) → h.Opens body c m k ∧ h.Unbound k := by
      intro superclass? hk
      obtain ⟨-, -, -, hk⟩ := openClass_eq_ok hk
      exact Opens.of_constant (by rw [hkind]; rfl) (by simp [hkind])
        (hk.imp_right fun hk => ⟨hk.1, hk.2.2⟩)
    simp only [hkind] at hk
    split at hk
    · exact hopen none hk
    · split at hk
      · cases hk
      · exact hopen _ hk
  | _ => simp only [hkind] at hk; cases hk

theorem define_eq_ok {container : Value} {superclass? : Option Value} {x : Method}
    (hk : h.define body container superclass? = .ok (x, k)) :
    ∃ c, container = .module c ∧ x.body = body ∧ x.visibility = .public ∧
      h.Defines body c x.module k := by
  rw [define] at hk
  cases container with
  | module c =>
    simp only [Value.module?] at hk
    cases hopen : h.openBody body c superclass? with
    | error f => rw [hopen] at hk; cases hk
    | ok p =>
      obtain ⟨hopens, hunbound⟩ := openBody_eq_ok hopen
      rw [hopen] at hk
      cases hk
      refine ⟨c, rfl, rfl, rfl, { hopens with
        constants := fun n name => ?_, slots := fun o => ?_, methods := fun n name => ?_
        bindings := fun l => ?_, bodies := fun n => ?_ }⟩
      · rw [← hopens.constants]
        exact constant?_bindBody _ p.1 n name body
      · rw [← hopens.slots]
        exact slot?_bindBody (p.2.bindScope body.scope p.1) p.1 o body
      · rw [← hopens.methods]
        exact method?_bindBody _ p.1 n name body
      · refine (moduleOf?_bindScope p.2 p.1 body.scope l).trans ?_
        rw [moduleOf?, moduleOf?, hunbound.bindings]
      · refine (body?_bindBody (p.2.bindScope body.scope p.1) p.1 n body).trans ?_
        rw [← hunbound.bodies]
        rfl
  | _ => cases hk

end Heap

open Exec in
/--
A definition asks for a superclass only when it defines a class in a module. If it fails, it has
changed nothing since then. If it succeeds, it has changed the heap by what it defines.
-/
theorem definition_atomic (body : Body) (container : Value) (ask : Exec (Option Value))
    (s : Site) :
    (Heap.asksSuperclass body container = false →
      ∀ ask', defineInSteps body container ask' s = defineInSteps body container ask s) ∧
    match defineInSteps body container ask s with
    | .error _ t => t = asked body container ask s
    | .ok x t =>
      ∃ c, container = .module c ∧ x.body = body ∧ x.visibility = .public ∧
        t = { asked body container ask s with heap := t.heap } ∧
        (asked body container ask s).heap.Defines body c x.module t.heap := by
  refine ⟨fun hasks ask' => ?_, ?_⟩
  · rw [defineInSteps_eq, defineInSteps_eq, hasks]
    rfl
  · have hattempt : ∀ (superclass? : Option Value) (u : Site),
        match attempt (fun h => h.define body container superclass?) u with
        | .error _ t => t = u
        | .ok x t =>
          ∃ c, container = .module c ∧ x.body = body ∧ x.visibility = .public ∧
            t = { u with heap := t.heap } ∧ u.heap.Defines body c x.module t.heap := by
      intro superclass? u
      rw [attempt_apply]
      cases hk : u.heap.define body container superclass? with
      | error f => rfl
      | ok p =>
        obtain ⟨c, hc, hbody, hvisibility, hdefines⟩ := Heap.define_eq_ok hk
        exact ⟨c, hc, hbody, hvisibility, rfl, hdefines⟩
    rw [defineInSteps_eq, asked]
    cases Heap.asksSuperclass body container with
    | false => exact hattempt none s
    | true =>
      simp only [if_true, siteAfter]
      cases hask : ask s with
      | error f t => rw [bind_of_error hask]
      | ok superclass? t =>
        rw [bind_of_ok hask]
        exact hattempt superclass? t

end ObjectIr
