import ObjectIr.Proofs.Balance
import ObjectIr.Proofs.ScopeModules
import ObjectIr.Proofs.SearchPaths

/-!
# Constants and their search

A constant that is set in a module is found from where the search comes to the module first, and
nothing else changes (`Heap.Sets`). The module around the code, where code sets constants and
defines modules, is the first on the path of its own searches (`Site.scopeModule_eq`,
`Heap.constantPath_head`). So a constant that is set there, or a module that is defined there, is
what the next search for its name comes to (`constant_writes`).
-/

namespace ObjectIr

namespace Heap

variable {c : Census} {h : Heap} {m : Module} {name : String} {v : Value}

/-! ### What a constant changes -/

/-- What searches from the modules of a population find, as a module's constant is set. -/
structure Sets (h : Heap) (p : Population) (n : Module) (name : String) (v : Value) (k : Heap) :
    Prop where
  found : ∀ (s : StaticScope) (f : Module), f.Among p →
    Foremost (fun q => h.constant? q name) n (h.constantPath s f) →
      k.searchConstant s f name = .ok v
  kept : ∀ (s : StaticScope) (f : Module), f.Among p → ∀ b,
    ¬(b = name ∧ Foremost (fun q => h.constant? q name) n (h.constantPath s f)) →
      k.searchConstant s f b = h.searchConstant s f b

theorem searchConstant_eq_ok {s : StaticScope}
    (hv : (h.constantPath s m).findSome? (fun n => h.constant? n name) = some v) :
    h.searchConstant s m name = .ok v := by
  rw [searchConstant, hv]

theorem Recorded.sets (hh : h.Recorded c) {n : Module} (hn : n ∈ c.modules) (name : String)
    (v : Value) : h.Sets c.population n name v (h.setConstant n name v) := by
  have hwritten : ∀ (s : StaticScope) (f : Module), f.Among c.population →
      Written h.constant? (h.setConstant n name v).constant? n name v (h.constantPath s f) :=
    fun s f hf => written_of_update (fun q b => constant?_setConstant h n q name b v)
      fun q hq hid => (Census.eq_of_id hn (hh.constantPath_subset hf s q hq) hid).symm
  have hpath : ∀ s f, (h.setConstant n name v).constantPath s f = h.constantPath s f :=
    fun _ _ => rfl
  refine ⟨fun s f hf hforemost => searchConstant_eq_ok ?_, fun s f hf b hb => ?_⟩
  · rw [hpath]
    exact (hwritten s f hf).found hforemost
  · rw [searchConstant, searchConstant, hpath, (hwritten s f hf).kept b hb]

/-! ### The first module on the path -/

/-- The search begins with the innermost module around the code, or else with the frame's. -/
theorem constantPath_head (h : Heap) (s : StaticScope) (f : Module) :
    (h.constantPath s f).head? = some ((h.lexicalModule? s).getD f) := by
  have hancestors : f.ancestors.head? = some f := by cases f <;> rfl
  rw [constantPath, List.append_assoc, List.head?_append, lexicalModules, List.head?_filterMap,
    List.head?_append, hancestors, lexicalModule?]
  cases s.levels.findSome? h.moduleOf? <;> rfl

theorem lexicalModule?_congr {k : Heap} {s : StaticScope}
    (hs : ∀ l ∈ s.levels, k.moduleOf? l = h.moduleOf? l) :
    k.lexicalModule? s = h.lexicalModule? s := by
  rw [lexicalModule?, lexicalModule?, ← List.head?_filterMap, ← List.head?_filterMap,
    List.filterMap_congr hs]

theorem searchConstant_of_head {s : StaticScope} {f : Module}
    (hm : (h.lexicalModule? s).getD f = m) (hv : h.constant? m name = some v) :
    h.searchConstant s f name = .ok v := by
  have hhead := h.constantPath_head s f
  rw [hm] at hhead
  obtain ⟨path, hpath⟩ := List.head?_eq_some_iff.1 hhead
  exact searchConstant_eq_ok (by rw [hpath, List.findSome?_cons, hv])

end Heap

/-- The constant of a class or module stands for what its definition has opened. -/
theorem Definition.constant?_of_opening {d : Definition} {c m : Module} {h k : Heap}
    (hkind : d.body.kind = .classBody ∨ d.body.kind = .moduleBody)
    (hopen : d.opening c h = .ok (m, k)) : k.constant? c d.body.name = some (.module m) := by
  rw [opening] at hopen
  rcases hkind with hkind | hkind <;> simp only [hkind] at hopen
  · split at hopen
    · cases hopen
    · exact (Heap.openClass_eq_ok hopen).2.2.1
  · exact (Heap.openModule_eq_ok hopen).2.1

/-- Constants are set and modules defined where the search from the same code begins. -/
theorem Site.scopeModule_eq {s : Site} {f : Frame} (hf : s.context.currentFrame? = some f) :
    s.scopeModule = .ok ((s.heap.lexicalModule? s.activation.body.scope).getD f.module) := by
  rw [scopeModule, frame, hf]
  cases s.heap.lexicalModule? s.activation.body.scope <;> rfl

namespace Exec

variable {s t : Site}

theorem value_scopeModule {n : Module} (hn : s.scopeModule = .ok n) :
    value .scopeModule s = .ok (.module n) s := by
  rw [value, reading]
  simp only [Site.evaluate, hn]
  rfl

theorem superclass?_eq_ok {o : Operand} {x : Option Value} (hx : superclass? o s = .ok x t) :
    ∃ n, t = { s with heap.next.arrays := n } := by
  have hsome : ∀ o : Operand, (some <$> value o) s = .ok x t →
      ∃ n, t = { s with heap.next.arrays := n } := by
    intro o ho
    rw [← bind_pure_comp] at ho
    obtain ⟨v, u, hv, ho⟩ := bind_eq_ok ho
    cases ho
    obtain ⟨n, -, rfl⟩ := reading_eq_ok hv
    exact ⟨n, rfl⟩
  cases o <;> first | exact hsome _ hx | (cases hx; exact ⟨_, rfl⟩)

/-- A definition in the module around the code, once it is through. -/
theorem define_scopeModule {body : Body} {superclass : Operand} {n : Module} {x : Method}
    (hn : s.scopeModule = .ok n) (hx : define body .scopeModule superclass s = .ok x t) :
    ∃ superclass? k l,
      Definition.opening ⟨body, .module n, .ok superclass?⟩ n k = .ok (x.module, l) ∧
      k.bindings = s.heap.bindings ∧
      t = { s with heap := (((l.bindScope body.scope x.module).bindBody x.module body).newMethod
        body .public x.module).2 } := by
  have hasked : ∀ (v : Value) (x : Option Value) (u : Site),
      (if Heap.asksSuperclass body v then superclass? superclass else pure none) s = .ok x u →
        ∃ k, u = { s with heap.next.arrays := k } := by
    intro v x u hu
    split at hu
    · exact superclass?_eq_ok hu
    · cases hu
      exact ⟨_, rfl⟩
  rw [define_apply, value_scopeModule hn] at hx
  simp only at hx
  split at hx
  · cases hx
  · next superclass? u hu =>
    obtain ⟨k, rfl⟩ := hasked _ _ _ hu
    split at hx
    · cases hx
    · next hk =>
      cases hx
      obtain ⟨c, l, hc, hopen, -, rfl⟩ := Definition.carryOut_eq_ok hk
      cases hc
      exact ⟨_, _, l, hopen, rfl, rfl⟩

end Exec

namespace Machine

/-- The next step hands the value to the variable, as the answer of a call is handed to it. -/
def Obtains (limit : Nat) (m : Machine) (r : Variable) (v : Value) : Prop :=
  ∃ a, m.control = .running a ∧
    m.step limit = resume m.heap m.context (.ok v) (⟨{ a with pc := a.pc + 1 }, r⟩ :: m.callers)

variable {m : Machine} {a : Activation} {f : Frame} {r : Variable} {name : String} {v : Value}

theorem next?_of_running {i : Instr} (ha : m.control = .running a)
    (hi : a.body.code[a.pc]? = some i) :
    m.next? = some (i, ⟨m.heap, m.context, { a with pc := a.pc + 1 }⟩) := by
  unfold next?
  rw [ha]
  simp only [hi]
  rfl

/-- An instruction hands what it comes to to its variable as a call does. -/
theorem follow_stored (limit : Nat) (cs : List Caller) (s : Site) (r : Variable) (v : Value) :
    follow limit cs ((do Exec.store r v; return Outcome.next : Exec Outcome) s) =
      resume s.heap s.context (.ok v) (⟨s.activation, r⟩ :: cs) := by
  rw [resume]
  cases ht : s.store r v with
  | error g =>
    rw [Exec.bind_of_error (by rw [Exec.store_apply, ht])]
    rfl
  | ok t =>
    rw [Exec.bind_of_ok (by rw [Exec.store_apply, ht])]
    rfl

theorem obtains_of_searchConst (limit : Nat) (ha : m.control = .running a)
    (hf : m.context.currentFrame? = some f)
    (hcode : a.body.code[a.pc]? = some (.searchConst r name))
    (hv : m.heap.searchConstant a.body.scope f.module name = .ok v) : m.Obtains limit r v := by
  refine ⟨a, ha, ?_⟩
  have hframe : Site.frame ⟨m.heap, m.context, { a with pc := a.pc + 1 }⟩ = .ok f := by
    rw [Site.frame]
    simp only [hf]
  have hfound : ∀ s : Site, (ofExcept (.ok v) : Exec Value) s = .ok v s := fun _ => rfl
  rw [step_of_next (next?_of_running ha hcode), InstrOf.execute,
    Exec.bind_of_ok (by rw [Exec.frame_apply, hframe]), Exec.get_bind]
  simp only [hv]
  rw [Exec.bind_of_ok (hfound _), follow_stored]

/-- A constant that is set in the module around the code is found by the code. -/
theorem obtains_of_putConst (limit : Nat) (ha : m.control = .running a)
    (hf : m.context.currentFrame? = some f) {o : Operand} {s : Site}
    (hput : a.body.code[a.pc]? = some (.putConst .scopeModule name o))
    (hv : Exec.value o ⟨m.heap, m.context, { a with pc := a.pc + 1 }⟩ = .ok v s)
    (hsearch : a.body.code[a.pc + 1]? = some (.searchConst r name)) :
    (m.step limit).Obtains limit r v := by
  have hmodule := Site.scopeModule_eq (s := ⟨m.heap, m.context, { a with pc := a.pc + 1 }⟩) hf
  obtain ⟨n, -, rfl⟩ := Exec.reading_eq_ok hv
  have hstep : m.step limit = runningAt ⟨Heap.setConstant { m.heap with next.arrays := n }
      ((m.heap.lexicalModule? a.body.scope).getD f.module) name v, m.context,
        { a with pc := a.pc + 1 }⟩ m.callers := by
    rw [step_of_next (next?_of_running ha hput), InstrOf.execute,
      Exec.bind_of_ok (Exec.value_scopeModule hmodule)]
    simp only
    rw [Exec.bind_of_ok hv]
    rfl
  rw [hstep]
  refine obtains_of_searchConst limit rfl hf hsearch (Heap.searchConstant_of_head rfl ?_)
  exact (Heap.constant?_setConstant ..).trans (if_pos ⟨rfl, rfl⟩)

/-- A class or module that is defined in the module around the code is found by the code. -/
theorem obtains_of_defineClass (limit : Nat) (ha : m.control = .running a)
    (hf : m.context.currentFrame? = some f) {q : Variable} {body : Body} {superclass : Operand}
    {x : Method} (hdefine : a.body.code[a.pc]? = some (.defineClass q body .scopeModule superclass))
    (hkind : body.kind = .classBody ∨ body.kind = .moduleBody)
    (hscope : ∀ l ∈ a.body.scope.levels, l.id ≠ body.scope.id)
    (hx : m.defining? = some x) (hruns : ∃ b, (m.step limit).control = .running b)
    (hsearch : a.body.code[a.pc + 1]? = some (.searchConst r body.name)) :
    (m.step limit).Obtains limit r (.module x.module) := by
  have hmodule := Site.scopeModule_eq (s := ⟨m.heap, m.context, { a with pc := a.pc + 1 }⟩) hf
  have hnext := next?_of_running ha hdefine
  rw [defining?, hnext, Option.bind_some] at hx
  simp only [InstrOf.defining?] at hx
  split at hx
  · next y t hdefined =>
    cases hx
    rw [step_of_next hnext, execute_defineClass, Exec.bind_of_ok hdefined] at hruns ⊢
    obtain ⟨superclass?, k, l, hopen, hbindings, rfl⟩ := Exec.define_scopeModule hmodule hdefined
    rw [follow_stored, resume] at hruns ⊢
    simp only at hruns ⊢
    split at hruns
    · next u hu =>
      obtain ⟨slots, ts, rfl⟩ := Site.store_eq_ok hu
      refine obtains_of_searchConst limit rfl hf hsearch (Heap.searchConstant_of_head ?_
        ((Heap.constant?_bindBody ..).trans (Definition.constant?_of_opening hkind hopen)))
      -- the scope that is bound is none of those around the code
      refine congrArg (Option.getD · f.module) (Heap.lexicalModule?_congr fun l hl => ?_)
      refine (Heap.moduleOf?_bindScope ..).trans ?_
      rw [if_neg (Ne.symm (hscope _ hl)), Heap.moduleOf?, Heap.moduleOf?,
        Definition.opening_bindings hopen, hbindings]
    · obtain ⟨b, hb⟩ := hruns
      cases hb
  · cases hx

end Machine

/-- What code writes in the module around it is what its next search for the name comes to. -/
structure Machine.ReadsBack (limit : Nat) (m : Machine) (a : Activation) (r : Variable)
    (name : String) : Prop where
  constant : ∀ o v s, a.body.code[a.pc]? = some (.putConst .scopeModule name o) →
    Exec.value o ⟨m.heap, m.context, { a with pc := a.pc + 1 }⟩ = .ok v s →
      (m.step limit).Obtains limit r v
  /-- The body has a scope of its own, and its definition succeeds. -/
  definition : ∀ q body superclass x,
    a.body.code[a.pc]? = some (.defineClass q body .scopeModule superclass) →
    body.kind = .classBody ∨ body.kind = .moduleBody → body.name = name →
    (∀ l ∈ a.body.scope.levels, l.id ≠ body.scope.id) →
    m.defining? = some x → (∃ b, (m.step limit).control = .running b) →
      (m.step limit).Obtains limit r (.module x.module)

/--
In every state of a chronicle, a constant that is set in a module is found by the searches that come
to the module before any other that has the name, and nothing else is found otherwise than before.
In every run, code that sets a constant in the module around it, or defines a class or module there,
and then searches for its name, comes to what it has set or defined.
-/
theorem constant_writes :
    (∀ (es : List Entry) (m : Machine) (ms : List Machine), Chronicle AtHand es (m :: ms) →
      ∃ p : Population, (∀ x ∈ m :: ms, x.Among p) ∧
        ∀ n name v, p.module n → m.heap.Sets p n name v (m.heap.setConstant n name v)) ∧
    ∀ (limit : Nat) (h : Heap) (c : Context) (e : Entry) (n : Nat) (m : Machine) (a : Activation)
      (r : Variable) (name : String), m = (e.start limit h c).after limit n →
        m.control = .running a → a.body.code[a.pc + 1]? = some (.searchConst r name) →
          m.ReadsBack limit a r name := by
  refine ⟨fun es m ms h => ?_, ?_⟩
  · obtain ⟨c, hcovers, m', earlier, heq, hm⟩ := h.recorded
    cases heq
    exact ⟨c.population, hcovers.among, fun n name v hn => hm.heap.sets hn name v⟩
  · rintro limit h c e n m a r name rfl ha hsearch
    obtain ⟨f, hf⟩ := (e.after_framed limit h c n).frame ha
    refine ⟨fun o v s hput hv => Machine.obtains_of_putConst limit ha hf hput hv hsearch, ?_⟩
    rintro q body superclass x hdefine hkind rfl hscope hx hruns
    exact Machine.obtains_of_defineClass limit ha hf hdefine hkind hscope hx hruns hsearch

/-- A script that carries out an instruction and then searches for a name. -/
def searchingScript (i : Instr) (name : String) : Draft where
  name := "<main>"
  scope := ⟨⟨0, .script, []⟩, []⟩
  code := [i, .searchConst (.temp ⟨.generic, 0⟩) name]

def searchingRun (i : Instr) (name : String) : Machine :=
  (Entry.script ((searchingScript i name).body 0 { generic := 1 })).start 8 .initial {}

/-- The script with a constant, and with a class. -/
def limitRun : Machine := searchingRun (.putConst .scopeModule "LIMIT" (.fixnum 7)) "LIMIT"

def boxRun : Machine :=
  searchingRun (.defineClass (.temp ⟨.generic, 0⟩) (box.body 1 {}) .scopeModule .undefined) "Box"
where
  box : Draft := { name := "Box", scope := ⟨⟨1, .classBody, []⟩, []⟩, code := [] }

theorem constant_writes_box :
    (∀ v, (boxRun.heap.setConstant Core.object "LIMIT" v).searchConstant ⟨⟨0, .script, []⟩, []⟩
        Core.string "LIMIT" = .ok v) ∧
      (limitRun.step 8).Obtains 8 (.temp ⟨.generic, 0⟩) (.fixnum 7) ∧
      ∃ x, boxRun.defining? = some x ∧
        (boxRun.step 8).Obtains 8 (.temp ⟨.generic, 0⟩) (.module x.module) := by
  refine ⟨fun v => ?_, ?_, ?_⟩
  · obtain ⟨p, -, hsets⟩ := constant_writes.1 _ _ _ (Chronicle.start.enter 8
      (e := .script ((searchingScript (.defineClass (.temp ⟨.generic, 0⟩) (boxRun.box.body 1 {})
        .scopeModule .undefined) "Box").body 0 { generic := 1 })) (c := {})
      fun p _ => ⟨trivial, by rintro f ⟨⟩⟩)
    have hnone : (boxRun.heap.constant? Core.string "LIMIT").isNone = true := by decide +kernel
    refine (hsets Core.object "LIMIT" v (p.core _ (by decide))).found _ Core.string
      (Module.among_core (by decide)) ⟨[Core.string], [Core.basicObject, Core.object], ?_, ?_⟩
    · decide +kernel
    · exact List.forall_mem_singleton.2 (Option.isNone_iff_eq_none.1 hnone)
  · exact (constant_writes.2 8 .initial {} _ 0 limitRun _ _ _ rfl rfl rfl).constant _ _ _ rfl rfl
  · have hdefines : boxRun.defining?.isSome = true := by decide +kernel
    have hruns : (boxRun.step 8).next?.isSome = true := by decide +kernel
    obtain ⟨x, hx⟩ := Option.isSome_iff_exists.1 hdefines
    obtain ⟨⟨i, s⟩, hnext⟩ := Option.isSome_iff_exists.1 hruns
    obtain ⟨b, hb, -⟩ := Machine.next?_eq_some hnext
    exact ⟨x, hx, (constant_writes.2 8 .initial {} _ 0 boxRun _ _ _ rfl rfl rfl).definition _ _ _ x
      rfl (.inl rfl) rfl (by decide) hx ⟨b, hb⟩⟩

end ObjectIr
