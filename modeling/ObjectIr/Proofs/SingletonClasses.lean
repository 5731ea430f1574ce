import ObjectIr.Proofs.Population.Chronicles

/-!
# Singleton classes

A singleton class is made when it is first asked for, and put in the slot of what it is asked for.
It has no methods yet, so that no lookup finds anything else than before
(`Heap.findMethod?_of_slot`). Whatever has run, each singleton class stands in the slot of one
owner, a slot that was filled stays as it is, and each way of asking answers what is in the slot
(`singleton_classes`).
-/

namespace ObjectIr

/-! ### Lookup beside an empty singleton class -/

theorem findSome?_filterMap {α β γ : Type} (f : α → Option β) (g : β → Option γ) (as : List α) :
    (as.filterMap f).findSome? g = as.findSome? fun a => (f a).bind g := by
  induction as with
  | nil => rfl
  | cons a as ih =>
    rw [List.findSome?_cons, ← ih, List.filterMap_cons]
    cases f a with
    | none => rfl
    | some b => rw [List.findSome?_cons]; rfl

namespace Heap

variable {h k : Heap} {o : Owner} {s : Module}

/-- The method of that name in the singleton class of an owner. -/
def ownMethod? (h : Heap) (o : Owner) (name : String) : Option Method :=
  (h.slot? o).bind fun s => h.method? s name

/-- A method is looked for in singleton classes first. -/
theorem findMethod?_eq (h : Heap) (receiver : Value) (name : String) :
    h.findMethod? receiver name =
      ((match receiver with
        | .object x => h.ownMethod? (.object x.id) name
        | .module m => m.ancestors.findSome? fun a : Module => h.ownMethod? (.module a.id) name
        | _ => none).or
        (receiver.class.ancestors.findSome? fun m => h.method? m name)) := by
  rw [findMethod?, methodPath, List.findSome?_append]
  congr 1
  cases receiver with
  | object x =>
    simp only [singletonPath, singleton?_object, ownMethod?]
    cases h.slot? (.object x.id) with
    | none => rfl
    | some s => exact List.findSome?_singleton
  | module m => exact findSome?_filterMap _ _ _
  | _ => rfl

theorem findMethod?_congr (hmethods : ∀ m name, k.method? m name = h.method? m name)
    (hown : ∀ o name, k.ownMethod? o name = h.ownMethod? o name) (receiver : Value)
    (name : String) : k.findMethod? receiver name = h.findMethod? receiver name := by
  simp only [findMethod?_eq, hown, hmethods]

/-- A slot that comes to be filled with a module without methods makes no difference to lookup. -/
theorem findMethod?_of_slot (hmethods : ∀ m name, k.method? m name = h.method? m name)
    (hslots : ∀ o', k.slot? o' = if o = o' then some s else h.slot? o')
    (hs : h.slot? o = some s ∨ h.slot? o = none ∧ ∀ name, h.method? s name = none)
    (receiver : Value) (name : String) :
    k.findMethod? receiver name = h.findMethod? receiver name := by
  refine findMethod?_congr hmethods (fun o' name => ?_) receiver name
  simp only [ownMethod?, hmethods]
  rw [hslots]
  split
  · next ho =>
    subst ho
    rcases hs with hs | ⟨hnone, hs⟩
    · rw [hs]
    · rw [hnone]
      exact hs name
  · rfl

/-- Constants are looked for in no singleton class that is not in scope. -/
theorem searchConstant_congr (hconstants : ∀ m name, k.constant? m name = h.constant? m name)
    {scope : StaticScope} (hscope : ∀ l ∈ scope.levels, k.moduleOf? l = h.moduleOf? l) (m : Module)
    (name : String) : k.searchConstant scope m name = h.searchConstant scope m name := by
  have hlexical : k.lexicalModules scope = h.lexicalModules scope :=
    List.filterMap_congr hscope
  simp only [searchConstant, constantPath, hlexical, hconstants]

/-! ### Asking for a singleton class -/

/-- The owner has the singleton class in `k`. It is the one it had in `h`, if it had one. -/
structure Provides (h : Heap) (o : Owner) (s : Module) (k : Heap) : Prop where
  slot : k.slot? o = some s
  same : ∀ t, h.slot? o = some t → s = t
  others : ∀ o', o' ≠ o → k.slot? o' = h.slot? o'
  methods : ∀ receiver name, k.findMethod? receiver name = h.findMethod? receiver name
  constants : ∀ n name, k.constant? n name = h.constant? n name

/-- A number that was not given out has no methods. -/
def Unused (h : Heap) : Prop := ∀ m name, h.next.modules ≤ m.id → h.method? m name = none

theorem Recorded.unused {c : Census} (hh : h.Recorded c) : h.Unused := by
  intro m name hm
  cases hx : h.method? m name with
  | none => rfl
  | some x => exact absurd (hh.methods m name x hx) (by omega)

theorem Provides.of_slot (hmethods : ∀ m name, k.method? m name = h.method? m name)
    (hconstants : ∀ m name, k.constant? m name = h.constant? m name)
    (hslots : ∀ o', k.slot? o' = if o = o' then some s else h.slot? o')
    (hs : h.slot? o = some s ∨ h.slot? o = none ∧ ∀ name, h.method? s name = none) :
    h.Provides o s k where
  slot := by rw [hslots, if_pos rfl]
  same t ht := by
    rcases hs with hs | ⟨hnone, -⟩
    · exact Option.some.inj (hs.symm.trans ht)
    · rw [hnone] at ht
      cases ht
  others o' ho := by rw [hslots, if_neg (Ne.symm ho)]
  methods := findMethod?_of_slot hmethods hslots hs
  constants := hconstants

/-- A body that is bound to the singleton class is found in no lookup of methods or constants. -/
theorem Provides.bound (hk : h.Provides o s k) (body : Body) :
    h.Provides o s (((k.bindScope body.scope s).bindBody s body).newMethod body .public s).2 where
  slot := (slot?_bindBody _ s o body).trans hk.slot
  same := hk.same
  others o' ho := (slot?_bindBody _ s o' body).trans (hk.others o' ho)
  methods receiver name := by
    rw [← hk.methods]
    have hmethods : ∀ m name, Heap.method? (((k.bindScope body.scope s).bindBody s body).newMethod
        body .public s).2 m name = k.method? m name :=
      fun m name => method?_bindBody _ s m name body
    refine findMethod?_congr hmethods (fun o' name => ?_) receiver name
    simp only [ownMethod?, hmethods]
    exact congrArg (Option.bind · _) (slot?_bindBody (k.bindScope body.scope s) s o' body)
  constants n name := (constant?_bindBody _ s n name body).trans (hk.constants n name)

/-- Objects and modules have a singleton class as soon as it is asked for. -/
theorem singletonClass_provides (hh : h.Unused) {v : Value} (hv : v.owner? = some o) :
    ∃ s k, h.singletonClass v = .ok (s, k) ∧ h.Provides o s k ∧ k.bindings = h.bindings := by
  rw [h.singletonClass_of_owner hv]
  cases hslot : h.slot? o with
  | some s =>
    refine ⟨s, h, rfl, .of_slot (fun _ _ => rfl) (fun _ _ => rfl) (fun o' => ?_) (.inl hslot), rfl⟩
    split
    · next ho => rw [← ho, hslot]
    · rfl
  | none =>
    refine ⟨_, _, rfl, .of_slot (fun m name => method?_setSingleton _ name _ _ m)
      (fun m name => constant?_setSingleton _ name _ _ m)
      (fun o' => slot?_setSingleton _ o' hv _)
      (.inr ⟨hslot, fun name => hh _ name (Nat.le_refl _)⟩), bindings_setSingleton _ _ _⟩

theorem dispatch_singletonClass {v : Value} {o : Owner} (hv : v.owner? = some o)
    (hnone : h.findMethod? v "singleton_class" = none) (c : Context) (block? : Option Block)
    (type : CallType) :
    h.dispatch c v "singleton_class" [] block? type =
      (h.singletonClass v).map fun p => (.value (.module p.1), p.2) := by
  have hreflect : ∀ x, builtin.reflect h v "singleton_class" [] x =
      (h.singletonClass v).map fun p => (.value (.module p.1), p.2) := by
    intro x
    simp only [builtin.reflect]
    rw [if_neg (by decide), if_pos (by decide)]
    cases h.singletonClass v <;> rfl
  rw [dispatch, hnone]
  cases v with
  | object x => exact hreflect _
  | module m => simp only [builtin, hreflect]; rw [if_neg (by simp)]
  | _ => cases hv

theorem define_metaclass (body : Body) (hbody : body.kind = .metaclassBody) (n : Module)
    (superclass? : Option Value) :
    h.define body (.module n) superclass? = (h.singletonClass (.module n)).map fun p =>
      ((p.2.bindScope body.scope p.1).bindBody p.1 body).newMethod body .public p.1 := by
  have hopen : h.openBody body n superclass? = h.singletonClass (.module n) := by
    unfold openBody
    rw [hbody]
  rw [define]
  simp only [Value.module?, hopen]
  cases h.singletonClass (.module n) <;> rfl

/-- What is the case of the singleton classes among a population. -/
structure Individual (h : Heap) (p : Population) : Prop where
  /-- Each is in the slot of one owner, an object or a module. -/
  owner : ∀ s, p.module s → s.isSingleton = true →
    ∃ v : Value, v.Among p ∧ h.singleton? v = some s ∧ ∀ o, h.slot? o = some s → v.owner? = some o
  slot : ∀ o s, h.slot? o = some s → p.module s ∧ s.isSingleton = true
  /-- A call that no method answers answers what is in the slot of the receiver. -/
  call : ∀ v o, v.owner? = some o → h.findMethod? v "singleton_class" = none →
    ∀ c block? type, ∃ s k, h.dispatch c v "singleton_class" [] block? type =
      .ok (.value (.module s), k) ∧ h.Provides o s k ∧
        ∀ scope n name, k.searchConstant scope n name = h.searchConstant scope n name
  /-- So does a definition, which binds a scope besides. -/
  define : ∀ (body : Body) n superclass?, body.kind = .metaclassBody →
    ∃ x k, h.define body (.module n) superclass? = .ok (x, k) ∧
      h.Provides (.module n.id) x.module k ∧
        ∀ scope : StaticScope, (∀ l ∈ scope.levels, l.id ≠ body.scope.id) →
          ∀ n name, k.searchConstant scope n name = h.searchConstant scope n name

theorem Recorded.individual {c : Census} (hh : h.Recorded c) : h.Individual c.population where
  owner s hs hsingleton := by
    obtain ⟨o, ho⟩ := c.owned s hs hsingleton
    have hunique : ∀ o', h.slot? o' = some s → some o = some o' := fun o' ho' =>
      congrArg some (c.slot_unique o o' s ho (hh.slots o' ▸ ho'))
    rcases c.slot_owner o s ho with ⟨x, hx, rfl⟩ | ⟨m, hm, rfl⟩
    · exact ⟨.object x, Census.object_among hx, (hh.slots _).trans ho, hunique⟩
    · exact ⟨.module m, Census.module_among hm, (hh.slots _).trans ho, hunique⟩
  slot o s hs := c.slot_module o s (hh.slots o ▸ hs)
  call v o hv hnone context block? type := by
    obtain ⟨s, k, hk, hprovides, hbindings⟩ := singletonClass_provides hh.unused hv
    refine ⟨s, k, by rw [dispatch_singletonClass hv hnone, hk]; rfl, hprovides, fun scope n name =>
      searchConstant_congr hprovides.constants (fun l _ => ?_) n name⟩
    rw [moduleOf?, moduleOf?, hbindings]
  define body n superclass? hbody := by
    obtain ⟨s, k, hk, hprovides, hbindings⟩ :=
      singletonClass_provides hh.unused (v := .module n) rfl
    refine ⟨⟨k.next.methods, body, .public, s⟩, _, by rw [define_metaclass body hbody, hk]; rfl,
      hprovides.bound body, fun scope hscope m name =>
        searchConstant_congr (hprovides.bound body).constants (fun l hl => ?_) m name⟩
    refine (moduleOf?_bindScope k s body.scope l).trans ?_
    rw [if_neg (Ne.symm (hscope l hl)), moduleOf?, moduleOf?, hbindings]

end Heap

/--
Throughout a chronicle each singleton class has one owner, and a slot that was filled in an earlier
state is filled with the same. Asking for a singleton class answers what is then in the slot, and no
lookup of a method or a constant can tell that it was made.
-/
theorem singleton_classes {es : List Entry} {m : Machine} {ms : List Machine}
    (h : Chronicle AtHand es (m :: ms)) :
    ∃ p : Population, (∀ x ∈ m :: ms, x.Among p) ∧ m.heap.Individual p ∧
      ∀ x ∈ ms, ∀ o s, x.heap.slot? o = some s → m.heap.slot? o = some s := by
  obtain ⟨c, hcovers, m', earlier, heq, hm⟩ := h.recorded
  cases heq
  refine ⟨c.population, hcovers.among, hm.heap.individual, fun x hx o s hs => ?_⟩
  rw [hm.heap.slots]
  exact hcovers.slots x (List.mem_cons_of_mem _ hx) o s hs

/-- A script that makes the singleton class of a class, and one of that singleton class. -/
def singletonsScript : Draft where
  name := "<main>"
  scope := ⟨⟨0, .script, []⟩, []⟩
  code := [
    .searchConst (.temp ⟨.generic, 0⟩) "String",
    .call (.temp ⟨.generic, 0⟩) (.var (.temp ⟨.generic, 0⟩)) "singleton_class" [] none .normal,
    .defineClass (.temp ⟨.generic, 1⟩) (metaclass.body 1 {}) (.var (.temp ⟨.generic, 0⟩))
      .undefined,
    .ret (.var (.temp ⟨.generic, 0⟩))]
where
  metaclass : Draft := { name := "metaclass", scope := ⟨⟨1, .metaclassBody, []⟩, []⟩, code := [] }

def singletonsRun : Machine :=
  (Entry.script (singletonsScript.body 0 { generic := 2 })).start 8 .initial {}

/-- The singleton class of `String`, and its own. -/
def stringSingleton : Module := .root 14 "#<Class:String>" .singleton

def innerSingleton : Module := .root 15 "#<Class:#<Class:String>>" .singleton

theorem singleton_classes_nested :
    ∃ m ∈ singletonsRun.trail 8 3 ++ [.idle], ∃ v : Value,
      m.heap.singleton? v = some innerSingleton ∧
      (∀ o, m.heap.slot? o = some innerSingleton → v.owner? = some o) ∧
      m.heap.slot? (.module Core.string.id) = some stringSingleton := by
  have h : Chronicle AtHand [.script (singletonsScript.body 0 { generic := 2 })]
      (singletonsRun.after 8 3 :: (singletonsRun.trail 8 2 ++ [.idle])) :=
    (Chronicle.start.enter 8 (e := .script (singletonsScript.body 0 { generic := 2 })) (c := {})
      fun p _ => ⟨trivial, by rintro f ⟨⟩⟩).after 8 3
  have hinner : (singletonsRun.after 8 3).heap.slot? (.module 14) = some innerSingleton := by
    decide +kernel
  have hstring : (singletonsRun.after 8 2).heap.slot? (.module 6) = some stringSingleton := by
    decide +kernel
  obtain ⟨p, -, hindividual, hkept⟩ := singleton_classes h
  obtain ⟨hmem, hsingleton⟩ := hindividual.slot _ _ hinner
  obtain ⟨v, -, hv, howner⟩ := hindividual.owner _ hmem hsingleton
  exact ⟨_, List.mem_cons_self, v, hv, howner, hkept _ List.mem_cons_self _ _ hstring⟩

end ObjectIr
