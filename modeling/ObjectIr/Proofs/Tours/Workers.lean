import ObjectIr.Proofs.ConstantSearch
import ObjectIr.Proofs.Independence
import ObjectIr.Proofs.Tours.Limits

/-!
# One class from several contexts

Contexts on one heap run a script that defines a class, runs its body and answers the class
(`Job.script`). Whichever comes to the definition first makes the class, and the others open it
again: each step of a context keeps the class that the name stands for (`Job.Phase.step`). So the
contexts answer the same class when they run one after the other (`Job.unites_runFresh`), and when
they take turns by any schedule that lets all of them finish (`Job.unites_runInTurns`). The body of
the class needs a second frame; where only one is allowed, every context fails.
-/

namespace ObjectIr

namespace Demo

/-! ### The script -/

/-- What `classScript` is given for a class without a superclass, whose method answers a number. -/
structure Job where
  id : Nat
  name : String
  method : String
  answer : Int64

namespace Job

variable (j : Job)

def methodBody : Body where
  id := j.id
  name := j.method
  file := "demo.rb"
  scope := ⟨⟨j.id, .method, []⟩, []⟩
  flags := {}
  requiredArgs := 0
  temps := {}
  code := [.ret (.fixnum j.answer)]

def classBody : Body where
  id := j.id + 1
  name := j.name
  file := "demo.rb"
  scope := ⟨⟨j.id + 1, .classBody, []⟩, []⟩
  flags := {}
  requiredArgs := 0
  temps := {}
  code := [.defineMethod j.method j.methodBody]

def script : Body where
  id := j.id + 2
  name := "<main>"
  file := "demo.rb"
  scope := ⟨⟨j.id + 2, .script, []⟩, []⟩
  flags := {}
  requiredArgs := 0
  temps := { generic := 3 }
  code := [
    .defineClass (temp 0) j.classBody .scopeModule .undefined,
    .processModuleBody (temp 1) (valueOf 0),
    .searchConst (temp 2) j.name,
    .ret (valueOf 2)]

theorem classScript_eq : classScript j.id j.name none j.method (.fixnum j.answer) = .ok j.script :=
  rfl

/-- The definition of the class in `Object`. -/
def definition : Definition := ⟨j.classBody, .module Core.object, .ok none⟩

/-- The script at one of its instructions. -/
def scriptAt (pc : Nat) (slots : Array Value) (footing : Footing) : Activation where
  body := j.script
  pc
  temps := ⟨slots, #[], #[], #[]⟩
  args := []
  receiver := .object Core.mainObject
  footing

/-- The body of the class at its instruction, or behind it. -/
def classAt (pc : Nat) (w : Module) (footing : Footing) : Activation where
  body := j.classBody
  pc
  temps := ⟨#[], #[], #[], #[]⟩
  args := []
  receiver := .module w
  footing

/-! ### Heaps -/

/-- The name of the class is free, or stands for the class that all contexts share. -/
structure Shared (shared? : Option Module) (h : Heap) : Prop where
  constant : h.constant? Core.object j.name = shared?.map .module
  unbound : h.bindings[j.id + 2]? = none
  plain : ∀ w, shared? = some w → w.isClass = true ∧ w.isSingleton = false

variable {j}

namespace Shared

variable {shared? : Option Module} {h k : Heap} (hh : j.Shared shared? h)

include hh

theorem of_eq (hconstant : k.constant? Core.object j.name = h.constant? Core.object j.name)
    (hbindings : k.bindings = h.bindings) : j.Shared shared? k where
  constant := hconstant.trans hh.constant
  unbound := by rw [hbindings, hh.unbound]
  plain := hh.plain

/-- The class is made, or opened again, and from then on shared. -/
theorem define : ∃ x k, j.definition.carryOut h = .ok (x, k) ∧ x.body = j.classBody ∧
    (∀ w, shared? = some w → x.module = w) ∧ j.Shared (some x.module) k := by
  have hopen : ∃ m l, j.definition.opening Core.object h = .ok (m, l) ∧
      ∀ w, shared? = some w → m = w := by
    have hconstant := hh.constant
    show ∃ m l, h.openClass Core.object j.name none = .ok (m, l) ∧ _
    cases shared? with
    | none =>
      simp only [Heap.openClass, hconstant]
      exact ⟨_, _, rfl, by rintro w ⟨⟩⟩
    | some w =>
      obtain ⟨hclass, hsingleton⟩ := hh.plain w rfl
      simp only [Heap.openClass, hconstant, Option.map_some, hclass, hsingleton]
      exact ⟨w, h, rfl, by rintro _ ⟨⟩; rfl⟩
  obtain ⟨m, l, hopen, hm⟩ := hopen
  have hopened : h.openClass Core.object j.name none = .ok (m, l) := hopen
  obtain ⟨hclass, hsingleton, -⟩ := Heap.openClass_eq_ok hopened
  have hcarry := j.definition.carryOut_eq h rfl
  rw [hopen] at hcarry
  refine ⟨_, _, hcarry, rfl, hm, ?_⟩
  obtain ⟨c, hc, hdefines⟩ := Definition.carryOut_defines hcarry
  cases hc
  refine ⟨?_, ?_, by rintro _ ⟨⟩; exact ⟨hclass, hsingleton⟩⟩
  · rw [hdefines.constants]
    exact if_pos ⟨by rintro ⟨⟩, rfl, rfl⟩
  · have hother : j.id + 1 ≠ j.id + 2 := by omega
    exact (hdefines.bindings ⟨j.id + 2, .script, []⟩).trans ((if_neg hother).trans hh.unbound)

end Shared

/-! ### Steps -/

def mainFrame : Frame := ⟨.object Core.mainObject, .private, "<main>", none, Core.object⟩

section Steps

variable (limit : Nat) {shared? : Option Module} {h : Heap} {c : Context} {footing : Footing}
  {slots : Array Value} {x : Method}

theorem step_scriptAt {pc : Nat} {i : Instr} (hi : j.script.code[pc]? = some i) :
    Machine.step limit ⟨h, c, .running (j.scriptAt pc slots footing), []⟩ =
      Machine.follow limit [] (i.execute ⟨h, c, j.scriptAt (pc + 1) slots footing⟩) :=
  Machine.step_of_next (Machine.next?_of_running (a := j.scriptAt pc slots footing) rfl hi)

theorem lexicalModule?_script (hh : j.Shared shared? h) :
    h.lexicalModule? j.script.scope = none := by
  simp only [Heap.lexicalModule?, script, StaticScope.levels, List.findSome?_cons, Heap.moduleOf?,
    hh.unbound, List.findSome?_nil]

theorem step_defining (hframes : c.frames = [mainFrame]) (hh : j.Shared shared? h) :
    ∃ x k, x.body = j.classBody ∧ (∀ w, shared? = some w → x.module = w) ∧
      j.Shared (some x.module) k ∧
      Machine.step limit ⟨h, c, .running (j.scriptAt 0 #[.nil, .nil, .nil] footing), []⟩ =
        ⟨k, c, .running (j.scriptAt 1 #[.method x, .nil, .nil] footing), []⟩ := by
  obtain ⟨x, k, hk, hbody, hmodule, hshared⟩ := hh.define
  refine ⟨x, k, hbody, hmodule, hshared, ?_⟩
  have hscope : Site.scopeModule ⟨h, c, j.scriptAt 1 #[.nil, .nil, .nil] footing⟩ =
      .ok Core.object := by
    rw [Site.scopeModule_eq (f := mainFrame) (by rw [Context.currentFrame?, hframes]; rfl)]
    exact congrArg (fun m? => Except.ok (Option.getD m? Core.object)) (lexicalModule?_script hh)
  have hdefined : Exec.define j.classBody .scopeModule .undefined
      ⟨h, c, j.scriptAt 1 #[.nil, .nil, .nil] footing⟩ =
        .ok x ⟨k, c, j.scriptAt 1 #[.nil, .nil, .nil] footing⟩ := by
    rw [Exec.define_apply, Exec.value_scopeModule hscope]
    have hasks : Heap.asksSuperclass j.classBody (.module Core.object) = true := rfl
    have hnone : ∀ s, Exec.superclass? .undefined s = .ok none s := fun _ => rfl
    have hcarry : Definition.carryOut ⟨j.classBody, .module Core.object, .ok none⟩ h =
        .ok (x, k) := hk
    simp only [hasks, if_true, hnone, hcarry]
  rw [step_scriptAt limit rfl, execute_defineClass, Exec.bind_of_ok hdefined, Machine.follow_stored]
  rfl

/-- The frame of the class's body. -/
def classFrame (j : Job) (x : Method) : Frame :=
  ⟨.module x.module, x.visibility, j.name, none, x.module⟩

/-- The body of the class is entered, if there may be two frames. -/
theorem step_entering (hframes : c.frames = [mainFrame]) (hbody : x.body = j.classBody)
    {u v : Value} :
    Machine.step limit ⟨h, c, .running (j.scriptAt 1 #[.method x, u, v] footing), []⟩ =
      if limit < 2 then
        ⟨h, c, .leaving (j.scriptAt 2 #[.method x, u, v] footing)
          (.error (.failure .stackOverflow)), []⟩
      else
        let made := h.newScope j.classBody.scope c.currentScope?
        ⟨made.2, (c.withFrame (j.classFrame x)).pushScope made.1 .allocated,
          .running (j.classAt 0 x.module (.own made.1)),
          [⟨j.scriptAt 2 #[.method x, u, v] footing, temp 1⟩]⟩ := by
  obtain ⟨xid, body, visibility, w⟩ := x
  simp only at hbody
  subst hbody
  have hcall : InstrOf.execute (.processModuleBody (temp 1) (valueOf 0))
      ⟨h, c, j.scriptAt 2 #[.method ⟨xid, j.classBody, visibility, w⟩, u, v] footing⟩ =
        .ok (.call (temp 1) ⟨j.classBody, j.classFrame ⟨xid, j.classBody, visibility, w⟩,
          c.currentScope?, [], none⟩)
          ⟨h, c, j.scriptAt 2 #[.method ⟨xid, j.classBody, visibility, w⟩, u, v] footing⟩ := rfl
  have hdepth : c.frameDepth = 1 := by rw [Context.frameDepth, hframes]; rfl
  rw [step_scriptAt limit rfl, hcall, Machine.follow]
  simp only [enter_eq, hdepth]
  by_cases hlimit : limit < 2
  · rw [if_pos (Nat.le_of_lt_succ hlimit), if_pos hlimit]
    rfl
  · rw [if_neg (by omega), if_neg hlimit]
    rfl

/-- The method is added to the class, which leaves the constant and the bindings alone. -/
theorem step_adding {w : Module} {cs : List Caller} (hh : j.Shared shared? h) {f : Frame}
    (hframe : c.currentFrame? = some f) :
    ∃ k, j.Shared shared? k ∧
      Machine.step limit ⟨h, c, .running (j.classAt 0 w footing), cs⟩ =
        ⟨k, c, .running (j.classAt 1 w footing), cs⟩ := by
  have hsite : Site.frame ⟨h, c, j.classAt 1 w footing⟩ = .ok f := by
    rw [Site.frame]
    simp only [hframe]
  have hnext : Machine.next? ⟨h, c, .running (j.classAt 0 w footing), cs⟩ =
      some (.defineMethod j.method j.methodBody, ⟨h, c, j.classAt 1 w footing⟩) := rfl
  refine ⟨_, ?_, by rw [Machine.step_of_next hnext, execute_defineMethod, hsite]; rfl⟩
  refine Shared.of_eq (h := (h.newMethod j.methodBody f.visibility f.module).2) ?_ ?_ rfl
  · exact hh.of_eq rfl rfl
  · exact Heap.constant?_addMethod ..

theorem step_searching {w : Module} (hframes : c.frames = [mainFrame])
    (hh : j.Shared (some w) h) {u v : Value} :
    Machine.step limit ⟨h, c, .running (j.scriptAt 2 #[u, v, .nil] footing), []⟩ =
      ⟨h, c, .running (j.scriptAt 3 #[u, v, .module w] footing), []⟩ := by
  have hfound : h.searchConstant j.script.scope mainFrame.module j.name = .ok (.module w) :=
    Heap.searchConstant_of_head (by rw [lexicalModule?_script hh]; rfl) hh.constant
  have hframe : c.currentFrame? = some mainFrame := by rw [Context.currentFrame?, hframes]; rfl
  obtain ⟨a, ha, hstep⟩ := Machine.obtains_of_searchConst limit
    (m := ⟨h, c, .running (j.scriptAt 2 #[u, v, .nil] footing), []⟩) (r := temp 2) rfl hframe rfl
    hfound
  cases ha
  exact hstep

end Steps

/-- How far a context has come with the script, by the number of its steps. -/
inductive Phase (j : Job) (limit : Nat) : Option Module → Nat → Machine → Prop
  | defining {shared? : Option Module} {h : Heap} {c : Context} {footing : Footing}
    (hframes : c.frames = [mainFrame]) :
    Phase j limit shared? 0 ⟨h, c, .running (j.scriptAt 0 #[.nil, .nil, .nil] footing), []⟩
  | entering {x : Method} {h : Heap} {c : Context} {footing : Footing}
    (hframes : c.frames = [mainFrame]) (hbody : x.body = j.classBody) :
    Phase j limit (some x.module) 1
      ⟨h, c, .running (j.scriptAt 1 #[.method x, .nil, .nil] footing), []⟩
  | adding {x : Method} {h : Heap} {c : Context} {inner footing : Footing} (hlimit : 2 ≤ limit)
    (hframes : c.frames = [j.classFrame x, mainFrame]) :
    Phase j limit (some x.module) 2 ⟨h, c, .running (j.classAt 0 x.module inner),
      [⟨j.scriptAt 2 #[.method x, .nil, .nil] footing, temp 1⟩]⟩
  | closing {x : Method} {h : Heap} {c : Context} {inner footing : Footing} (hlimit : 2 ≤ limit)
    (hframes : c.frames = [j.classFrame x, mainFrame]) :
    Phase j limit (some x.module) 3 ⟨h, c, .running (j.classAt 1 x.module inner),
      [⟨j.scriptAt 2 #[.method x, .nil, .nil] footing, temp 1⟩]⟩
  | leaving {x : Method} {h : Heap} {c : Context} {inner footing : Footing} (hlimit : 2 ≤ limit)
    (hframes : c.frames = [j.classFrame x, mainFrame]) :
    Phase j limit (some x.module) 4 ⟨h, c, .leaving (j.classAt 1 x.module inner) (.ok .nil),
      [⟨j.scriptAt 2 #[.method x, .nil, .nil] footing, temp 1⟩]⟩
  | searching {x : Method} {h : Heap} {c : Context} {footing : Footing} (hlimit : 2 ≤ limit)
    (hframes : c.frames = [mainFrame]) :
    Phase j limit (some x.module) 5
      ⟨h, c, .running (j.scriptAt 2 #[.method x, .nil, .nil] footing), []⟩
  | answering {x : Method} {h : Heap} {c : Context} {footing : Footing} (hlimit : 2 ≤ limit) :
    Phase j limit (some x.module) 6
      ⟨h, c, .running (j.scriptAt 3 #[.method x, .nil, .module x.module] footing), []⟩
  | ending {x : Method} {h : Heap} {c : Context} {footing : Footing} (hlimit : 2 ≤ limit) :
    Phase j limit (some x.module) 7 ⟨h, c,
      .leaving (j.scriptAt 4 #[.method x, .nil, .module x.module] footing)
        (.ok (.module x.module)), []⟩
  | finished {w : Module} {h : Heap} {c : Context} (hlimit : 2 ≤ limit) (n : Nat) :
    Phase j limit (some w) (n + 8) ⟨h, c, .finished (.ok (.module w)), []⟩
  | overflowing {x : Method} {h : Heap} {c : Context} {footing : Footing} (hlimit : limit < 2) :
    Phase j limit (some x.module) 2 ⟨h, c,
      .leaving (j.scriptAt 2 #[.method x, .nil, .nil] footing) (.error (.failure .stackOverflow)),
      []⟩
  | overflown {shared? : Option Module} {h : Heap} {c : Context} (hlimit : limit < 2) (n : Nat) :
    Phase j limit shared? n ⟨h, c, .finished (.error .stackOverflow), []⟩

/-- What a context comes to: the class that all share, unless there may be one frame only. -/
def Reaches (limit : Nat) (shared? : Option Module) (outcome : Except Failure Value) : Prop :=
  if limit < 2 then outcome = .error .stackOverflow
  else ∃ w, shared? = some w ∧ outcome = .ok (.module w)

namespace Phase

variable {limit n : Nat} {shared? : Option Module} {m : Machine}

theorem withHeap (hm : j.Phase limit shared? n m) (h : Heap) :
    j.Phase limit shared? n { m with heap := h } := by
  cases hm <;> constructor <;> assumption

/-- A context that has not come to the class yet does not see that another one has. -/
theorem mono (hm : j.Phase limit shared? n m) {later? : Option Module}
    (hlater : ∀ w, shared? = some w → later? = some w) : j.Phase limit later? n m := by
  cases hm with
  | defining hframes => exact .defining hframes
  | overflown hlimit => exact .overflown hlimit _
  | entering hframes hbody => rw [hlater _ rfl]; exact .entering hframes hbody
  | _ => rw [hlater _ rfl]; constructor <;> assumption

/-- A step takes a context on to the next phase, whatever the others have done meanwhile. -/
theorem step (hm : j.Phase limit shared? n m) (hh : j.Shared shared? m.heap) :
    ∃ later?, (∀ w, shared? = some w → later? = some w) ∧ j.Shared later? (m.step limit).heap ∧
      j.Phase limit later? (n + 1) (m.step limit) := by
  cases hm with
  | defining hframes =>
    obtain ⟨x, k, hbody, hmodule, hshared, hstep⟩ := step_defining limit hframes hh
    rw [hstep]
    exact ⟨_, fun w hw => congrArg some (hmodule w hw), hshared, .entering hframes hbody⟩
  | @entering x h c footing hframes hbody =>
    refine ⟨_, fun _ hw => hw, ?_⟩
    rw [step_entering limit hframes hbody]
    split
    · next hlimit => exact ⟨hh, .overflowing hlimit⟩
    · next hlimit =>
      have hframes' : ((c.withFrame (j.classFrame x)).pushScope
          (h.newScope j.classBody.scope c.currentScope?).1 .allocated).frames =
            [j.classFrame x, mainFrame] := by
        rw [← hframes]
        rfl
      exact ⟨hh.of_eq rfl rfl, .adding (Nat.le_of_not_lt hlimit) hframes'⟩
  | adding hlimit hframes =>
    obtain ⟨k, hshared, hstep⟩ := step_adding limit hh (by rw [Context.currentFrame?, hframes]; rfl)
    rw [hstep]
    exact ⟨_, fun _ hw => hw, hshared, .closing hlimit hframes⟩
  | closing hlimit hframes => exact ⟨_, fun _ hw => hw, hh, .leaving hlimit hframes⟩
  | leaving hlimit hframes =>
    refine ⟨_, fun _ hw => hw, hh, .searching hlimit ?_⟩
    rw [leave_frames, hframes]
    rfl
  | searching hlimit hframes =>
    rw [step_searching limit hframes hh]
    exact ⟨_, fun _ hw => hw, hh, .answering hlimit⟩
  | answering hlimit => exact ⟨_, fun _ hw => hw, hh, .ending hlimit⟩
  | ending hlimit => exact ⟨_, fun _ hw => hw, hh, .finished hlimit 0⟩
  | finished hlimit n => exact ⟨_, fun _ hw => hw, hh, .finished hlimit (n + 1)⟩
  | overflowing hlimit => exact ⟨_, fun _ hw => hw, hh, .overflown hlimit _⟩
  | overflown hlimit n => exact ⟨_, fun _ hw => hw, hh, .overflown hlimit _⟩

theorem after (hm : j.Phase limit shared? n m) (hh : j.Shared shared? m.heap) (k : Nat) :
    ∃ later?, (∀ w, shared? = some w → later? = some w) ∧
      j.Shared later? (m.after limit k).heap ∧ j.Phase limit later? (n + k) (m.after limit k) := by
  induction k with
  | zero => exact ⟨_, fun _ hw => hw, hh, hm⟩
  | succ k ih =>
    obtain ⟨later?, hlater, hheap, hphase⟩ := ih
    obtain ⟨last?, hlast, hstep⟩ := hphase.step hheap
    rw [Machine.after_succ]
    exact ⟨last?, fun w hw => hlast w (hlater w hw), hstep⟩

theorem start (limit : Nat) {h : Heap} (hh : j.Shared shared? h) :
    j.Shared shared? (j.script.start limit h {}).heap ∧
      j.Phase limit shared? 0 (j.script.start limit h {}) := by
  simp only [Body.start, Machine.start, enter_eq]
  by_cases hlimit : limit ≤ Context.frameDepth {}
  · rw [if_pos hlimit]
    exact ⟨hh, .overflown (Nat.lt_of_le_of_lt hlimit Nat.zero_lt_two) 0⟩
  · rw [if_neg hlimit]
    exact ⟨hh.of_eq rfl rfl, .defining rfl⟩

/-- After eight steps the script has come to its end. -/
theorem result (hm : j.Phase limit shared? n m) (hn : 8 ≤ n) :
    ∃ r, m.result? = some r ∧ r.heap = m.heap ∧ Reaches limit shared? r.outcome := by
  cases hm with
  | finished hlimit n =>
    refine ⟨_, rfl, rfl, ?_⟩
    rw [Reaches, if_neg (Nat.not_lt_of_le hlimit)]
    exact ⟨_, rfl, rfl⟩
  | overflown hlimit n =>
    refine ⟨_, rfl, rfl, ?_⟩
    rw [Reaches, if_pos hlimit]
  | _ => omega

end Phase

end Job

/-! ### Contexts that take turns -/

/-- Contexts on one heap, each with a machine for its script, once it has started. -/
structure Crew where
  heap : Heap
  members : List (Option Machine)

/-- A context takes its turn: it starts the script, or takes a step. -/
def Crew.turn (limit : Nat) (script : Body) (c : Crew) (i : Nat) : Crew :=
  match c.members[i]? with
  | none => c
  | some m? =>
    let m := match m? with
      | none => script.start limit c.heap {}
      | some m => Machine.step limit { m with heap := c.heap }
    ⟨m.heap, c.members.set i (some m)⟩

namespace Show

/-- The answers of machines in order. -/
def collect : List (Option Machine) → Show (List Value)
  | [] => return []
  | m? :: ms => do
    let v ← match m?.bind Machine.result? with
      | none => throw .unfinished
      | some r => settled r.outcome
    let vs ← collect ms
    return v :: vs

end Show

open Show

/-- Runs a script in fresh contexts that take turns by a schedule; the answers in order. -/
def runInTurns (schedule : List Nat) (script : Body) (n : Nat) : Show (List Value) := do
  let limit := (← read).limit
  let crew := schedule.foldl (Crew.turn limit script) ⟨(← get).heap, List.replicate n none⟩
  modify fun stage => { stage with heap := crew.heap }
  collect crew.members

namespace Job

variable {j : Job} {limit : Nat} {shared? : Option Module}

/-- How far a context has come after a number of turns. -/
inductive Stint (j : Job) (limit : Nat) (shared? : Option Module) : Nat → Option Machine → Prop
  | waiting : Stint j limit shared? 0 none
  | working {n : Nat} {m : Machine} (hm : j.Phase limit shared? n m) :
    Stint j limit shared? (n + 1) (some m)

theorem Stint.mono {n : Nat} {m? : Option Machine} (hm : j.Stint limit shared? n m?)
    {later? : Option Module} (hlater : ∀ w, shared? = some w → later? = some w) :
    j.Stint limit later? n m? := by
  cases hm with
  | waiting => exact .waiting
  | working hm => exact .working (hm.mono hlater)

/-- Each member of the crew has come as far as its turns take it. -/
structure Crewed (j : Job) (limit : Nat) (shared? : Option Module) (turns : Nat → Nat)
    (c : Crew) : Prop where
  heap : j.Shared shared? c.heap
  members : ∀ i m?, c.members[i]? = some m? → j.Stint limit shared? (turns i) m?

theorem length_turns (limit : Nat) (script : Body) (schedule : List Nat) (c : Crew) :
    (schedule.foldl (Crew.turn limit script) c).members.length = c.members.length := by
  induction schedule generalizing c with
  | nil => rfl
  | cons i schedule ih =>
    have hturn : (c.turn limit script i).members.length = c.members.length := by
      rw [Crew.turn]
      split
      · rfl
      · exact List.length_set
    exact (ih _).trans hturn

namespace Crewed

variable {turns : Nat → Nat} {c : Crew}

theorem turn (hc : j.Crewed limit shared? turns c) (i : Nat) :
    ∃ later?, j.Crewed limit later? (fun k => turns k + if i = k then 1 else 0)
      (c.turn limit j.script i) := by
  rw [Crew.turn]
  cases hi : c.members[i]? with
  | none =>
    refine ⟨shared?, hc.heap, fun k m? hk => ?_⟩
    have hik : i ≠ k := by
      rintro rfl
      cases hi.symm.trans hk
    rw [if_neg hik]
    exact hc.members k m? hk
  | some m? =>
    -- whoever comes to the class first, the others find it there
    have hnext : ∀ {m : Machine} {later? : Option Module},
        (∀ w, shared? = some w → later? = some w) → j.Shared later? m.heap →
        j.Phase limit later? (turns i) m → j.Crewed limit later?
          (fun k => turns k + if i = k then 1 else 0) ⟨m.heap, c.members.set i (some m)⟩ := by
      intro m later? hlater hheap hm
      refine ⟨hheap, fun k m? hk => ?_⟩
      by_cases hik : i = k
      · subst hik
        rw [List.getElem?_set_self (List.getElem?_eq_some_iff.1 hi).1] at hk
        cases hk
        rw [if_pos rfl]
        exact .working hm
      · rw [List.getElem?_set_ne hik] at hk
        rw [if_neg hik]
        exact (hc.members k m? hk).mono hlater
    have hstint := hc.members i m? hi
    generalize hturns : turns i = n at hstint
    cases hstint with
    | waiting =>
      obtain ⟨hheap, hphase⟩ := Phase.start limit hc.heap
      exact ⟨shared?, hnext (fun _ hw => hw) hheap (hturns ▸ hphase)⟩
    | working hm =>
      obtain ⟨later?, hlater, hheap, hphase⟩ := (hm.withHeap c.heap).step hc.heap
      exact ⟨later?, hnext hlater hheap (hturns ▸ hphase)⟩

theorem run (hc : j.Crewed limit shared? turns c) (schedule : List Nat) :
    ∃ later?, j.Crewed limit later? (fun k => turns k + schedule.count k)
      (schedule.foldl (Crew.turn limit j.script) c) := by
  induction schedule generalizing shared? turns c with
  | nil => exact ⟨shared?, hc⟩
  | cons i schedule ih =>
    obtain ⟨later?, hnext⟩ := hc.turn i
    obtain ⟨last?, hlast⟩ := ih hnext
    refine ⟨last?, ?_⟩
    have hturns : (fun k => turns k + (i :: schedule).count k) =
        fun k => turns k + (if i = k then 1 else 0) + schedule.count k := by
      funext k
      rw [List.count_cons]
      simp only [beq_iff_eq]
      omega
    rw [hturns]
    exact hlast

end Crewed

/-! ### What the contexts come to -/

variable {settings : Settings} {stage : Stage} {n : Nat}

/-- Contexts have each come to one class, or one frame is all that they may have. -/
def Unites (x : Show (List Value)) (n : Nat) (settings : Settings) (stage : Stage) : Prop :=
  ∃ w heap, x settings stage =
    if settings.limit < 2 then .error (.failure .stackOverflow) { stage with heap }
    else .ok (List.replicate n (.module w)) { stage with heap }

theorem runMachine_script (settings : Settings) (hh : j.Shared shared? stage.heap) :
    ∃ r later?, runMachine (fun limit h => j.script.start limit h {}) settings stage =
        .ok r { stage with heap := r.heap } ∧
      (∀ w, shared? = some w → later? = some w) ∧ j.Shared later? r.heap ∧
      Reaches settings.limit later? r.outcome := by
  obtain ⟨hstart, hphase⟩ := Phase.start settings.limit hh
  obtain ⟨later?, hlater, hheap, hafter⟩ := hphase.after hstart fuel
  obtain ⟨r, hr, hrheap, houtcome⟩ := hafter.result (by decide)
  refine ⟨r, later?, ?_, hlater, hrheap ▸ hheap, houtcome⟩
  rw [runMachine_eq, Machine.run_eq_after, hr]

theorem runFresh_of_shared (hlimit : ¬settings.limit < 2) {w : Module}
    (stage : Stage) (hh : j.Shared (some w) stage.heap) (n : Nat) :
    ∃ heap, runFresh j.script n settings stage =
      .ok (List.replicate n (.module w)) { stage with heap } := by
  induction n generalizing stage with
  | zero => exact ⟨stage.heap, rfl⟩
  | succ n ih =>
    obtain ⟨r, later?, hrun, hlater, hheap, houtcome⟩ := runMachine_script settings hh
    rw [Reaches, if_neg hlimit] at houtcome
    obtain ⟨_, rfl, ho⟩ := houtcome
    cases hlater w rfl
    obtain ⟨heap, hrest⟩ := ih { stage with heap := r.heap } hheap
    refine ⟨heap, ?_⟩
    rw [runFresh, bind_of_ok hrun, ho, bind_of_ok (a := Value.module w) rfl, bind_of_ok hrest]
    rfl

theorem unites_runFresh (hh : j.Shared shared? stage.heap) (hn : 0 < n) :
    Unites (runFresh j.script n) n settings stage := by
  obtain ⟨n, rfl⟩ := Nat.exists_eq_succ_of_ne_zero (Nat.pos_iff_ne_zero.1 hn)
  obtain ⟨r, later?, hrun, -, hheap, houtcome⟩ := runMachine_script settings hh
  by_cases hlimit : settings.limit < 2
  · rw [Reaches, if_pos hlimit] at houtcome
    refine ⟨Core.object, r.heap, ?_⟩
    rw [if_pos hlimit, runFresh, bind_of_ok hrun, houtcome]
    rfl
  · rw [Reaches, if_neg hlimit] at houtcome
    obtain ⟨w, rfl, ho⟩ := houtcome
    obtain ⟨heap, hrest⟩ := runFresh_of_shared hlimit { stage with heap := r.heap } hheap n
    refine ⟨w, heap, ?_⟩
    rw [if_neg hlimit, runFresh, bind_of_ok hrun, ho, bind_of_ok (a := Value.module w) rfl,
      bind_of_ok hrest]
    rfl

theorem collect_of_ok {w : Module} {ms : List (Option Machine)}
    (hms : ∀ m? ∈ ms, ∃ r, m?.bind Machine.result? = some r ∧ r.outcome = .ok (.module w)) :
    collect ms settings stage = .ok (List.replicate ms.length (.module w)) stage := by
  induction ms with
  | nil => rfl
  | cons m? ms ih =>
    obtain ⟨r, hr, ho⟩ := hms m? List.mem_cons_self
    have hrest := ih fun m? hm => hms m? (List.mem_cons_of_mem _ hm)
    rw [collect]
    simp only [hr, ho]
    rw [bind_of_ok (a := Value.module w) rfl, bind_of_ok hrest]
    rfl

theorem unites_collect (stage : Stage) {ms : List (Option Machine)} (hne : ms ≠ [])
    (hms : ∀ m? ∈ ms, ∃ r, m?.bind Machine.result? = some r ∧
      Reaches settings.limit shared? r.outcome) :
    Unites (collect ms) ms.length settings stage := by
  obtain ⟨m?, ms, rfl⟩ := List.exists_cons_of_ne_nil hne
  obtain ⟨r, hr, houtcome⟩ := hms m? List.mem_cons_self
  by_cases hlimit : settings.limit < 2
  · rw [Reaches, if_pos hlimit] at houtcome
    refine ⟨Core.object, stage.heap, ?_⟩
    rw [if_pos hlimit, collect]
    simp only [hr, houtcome]
    rfl
  · rw [Reaches, if_neg hlimit] at houtcome
    obtain ⟨w, rfl, -⟩ := houtcome
    refine ⟨w, stage.heap, ?_⟩
    rw [if_neg hlimit]
    refine collect_of_ok fun n? hn => ?_
    obtain ⟨r, hr, houtcome⟩ := hms n? hn
    rw [Reaches, if_neg hlimit] at houtcome
    obtain ⟨_, hw, ho⟩ := houtcome
    cases hw
    exact ⟨r, hr, ho⟩

/-- The turns that a context needs: it starts the script, and takes eight steps. -/
def turns : Nat := 9

theorem Stint.result {m? : Option Machine} (hm : j.Stint limit shared? n m?) (hn : turns ≤ n) :
    ∃ r, m?.bind Machine.result? = some r ∧ Reaches limit shared? r.outcome := by
  cases hm with
  | waiting => cases hn
  | working hphase =>
    obtain ⟨r, hr, -, houtcome⟩ := hphase.result (Nat.le_of_succ_le_succ hn)
    exact ⟨r, hr, houtcome⟩

theorem crewed_replicate (limit : Nat) {h : Heap} (hh : j.Shared shared? h) (n : Nat) :
    j.Crewed limit shared? (fun _ => 0) ⟨h, List.replicate n none⟩ := by
  refine ⟨hh, fun i m? hi => ?_⟩
  rw [List.eq_of_mem_replicate (List.mem_of_getElem? hi)]
  exact .waiting

theorem unites_runInTurns (hh : j.Shared shared? stage.heap) (hn : 0 < n) {schedule : List Nat}
    (hschedule : ∀ i < n, turns ≤ schedule.count i) :
    Unites (runInTurns schedule j.script n) n settings stage := by
  obtain ⟨later?, hcrew⟩ := (crewed_replicate settings.limit hh n).run schedule
  have hlength := length_turns settings.limit j.script schedule ⟨stage.heap, List.replicate n none⟩
  have hrun : ∀ done, schedule.foldl (Crew.turn settings.limit j.script)
        ⟨stage.heap, List.replicate n none⟩ = done →
      runInTurns schedule j.script n settings stage =
        collect done.members settings { stage with heap := done.heap } := by
    rintro _ rfl
    rfl
  generalize schedule.foldl (Crew.turn settings.limit j.script)
    ⟨stage.heap, List.replicate n none⟩ = done at hcrew hlength hrun
  rw [List.length_replicate] at hlength
  have hresult : ∀ m? ∈ done.members, ∃ r, m?.bind Machine.result? = some r ∧
      Reaches settings.limit later? r.outcome := by
    intro m? hm
    obtain ⟨i, hi, hget⟩ := List.getElem_of_mem hm
    refine (hcrew.members i m? (List.getElem?_eq_some_iff.2 ⟨hi, hget⟩)).result ?_
    rw [Nat.zero_add]
    exact hschedule i (hlength ▸ hi)
  have hne : done.members ≠ [] := List.ne_nil_of_length_pos (hlength ▸ hn)
  obtain ⟨w, heap, hcollect⟩ := unites_collect { stage with heap := done.heap } hne hresult
  rw [hlength] at hcollect
  exact ⟨w, heap, (hrun done rfl).trans hcollect⟩

/-! ### The program that tells their number -/

/-- The listings of a body and the bodies within, if they are asked for. -/
def listings (dump : Bool) (b : Body) : List String :=
  if dump then (b :: b.nested).map Body.listing else []

theorem dump_eq (b : Body) : Show.dump b settings stage =
    .ok () { stage with printed := stage.printed ++ listings settings.dump b } := by
  have hforM : ∀ (bs : List Body) (stage : Stage),
      bs.forM (fun b => Show.print b.listing) settings stage =
        .ok () { stage with printed := stage.printed ++ bs.map Body.listing } := by
    intro bs
    induction bs with
    | nil =>
      intro stage
      rw [List.map_nil, List.append_nil]
      rfl
    | cons b bs ih =>
      intro stage
      have hcons : (b :: bs).forM (fun b => Show.print b.listing) settings stage =
          bs.forM (fun b => Show.print b.listing) settings
            { stage with printed := stage.printed ++ [b.listing] } := rfl
      rw [hcons, ih, List.map_cons, ← List.append_cons]
  have hread : Show.dump b settings stage = (if settings.dump then
      (b :: b.nested).forM fun b => Show.print b.listing else pure () : Show Unit)
        settings stage := rfl
  rw [hread, listings]
  split
  · exact hforM _ stage
  · rw [List.append_nil]
    rfl

def worker (id : Nat) : Job := ⟨id, "Worker", "id", 1⟩

/-- The line that tells how many contexts have come to one class. -/
def headcount (n : Nat) : String := toString n ++ " threads defined Worker, one class: true\n"

theorem headcount_eq (n : Nat) :
    toString n ++ " threads defined Worker, one class: " ++ toString true ++ "\n" =
      headcount n := by
  rw [headcount, String.append_assoc, String.append_assoc]
  exact congrArg _ (by decide)

theorem identical_replicate (w : Module) (n : Nat) :
    ((List.replicate n (Value.module w)).all fun v =>
      ((List.replicate n (Value.module w)).head?.map fun u => v.identical u).getD true) = true := by
  rw [List.all_eq_true]
  intro v hv
  rw [List.eq_of_mem_replicate hv, List.head?_replicate]
  split
  · rfl
  · exact decide_eq_true rfl

theorem showThreadsWith_eq (settings : Settings) (stage : Stage) {id : Nat}
    {runAll : Body → Nat → Show (List Value)}
    (hunites : ∀ printed, Unites (runAll (worker id).script (max settings.threads 1))
      (max settings.threads 1) settings { stage with printed }) :
    ∃ heap, showThreadsWith runAll id settings stage =
      let shown := stage.printed ++ listings settings.dump (worker id).script
      if settings.limit < 2 then .error (.failure .stackOverflow) ⟨heap, shown⟩
      else .ok () ⟨heap, shown ++ [headcount (max settings.threads 1)]⟩ := by
  obtain ⟨w, heap, hrun⟩ :=
    hunites (stage.printed ++ listings settings.dump (worker id).script)
  refine ⟨heap, ?_⟩
  have hscript : classScript id "Worker" none "id" (.fixnum 1) = .ok (worker id).script :=
    (worker id).classScript_eq
  have hbuilt : showThreadsWith runAll id settings stage =
      (Show.dump (worker id).script >>= fun _ => read >>= fun settings =>
        runAll (worker id).script (max settings.threads 1) >>= fun classes =>
          line (toString classes.length ++ " threads defined Worker, one class: " ++
            toString (classes.all fun v =>
              (classes.head?.map fun w => v.identical w).getD true))) settings stage := by
    rw [showThreadsWith, hscript]
    rfl
  have hread : ∀ stage, (read : Show Settings) settings stage = .ok settings stage := fun _ => rfl
  rw [hbuilt, bind_of_ok (dump_eq _), bind_of_ok (hread _)]
  by_cases hlimit : settings.limit < 2
  · rw [if_pos hlimit] at hrun
    simp only [if_pos hlimit]
    exact bind_of_error hrun
  · rw [if_neg hlimit] at hrun
    simp only [if_neg hlimit]
    rw [bind_of_ok hrun, identical_replicate, List.length_replicate, ← headcount_eq]
    rfl

end Job

end Demo

end ObjectIr
