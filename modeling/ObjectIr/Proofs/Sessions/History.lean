import Mathlib.Logic.Relation
import ObjectIr.Proofs.Entries

/-!
# Sessions and their history

A block outlives the activation that made it, and one run follows another on the same heap. A
`History` keeps beside the machine what the machine forgets: every activation ever entered, in what
order they stand on the stacks, which activations led to each block (the one that made it, the one
that made the block which that one runs, and so on outward), and which scope came to stand for each
activation. It only listens: `History.observe` follows a step from what the machine does.

A `Session` is a machine with its history. Between two runs the host may change the heap and the
context as it likes, and then enters with whatever it got hold of (`Session.Moves`).
-/

namespace ObjectIr

/-! ### The scope that stands for an activation -/

/-- The scope of an activation that its closures capture: its own, or its bridge once it has one. -/
def Activation.captured? (a : Activation) : Option DynamicScope :=
  match a.footing with
  | .own s => some s
  | .guest _ => a.bridge?
  | .nowhere => none

def Activation.standing? (a : Activation) : Option ScopeCell := a.captured?.map DynamicScope.cell

def cellsOf (scope? : Option DynamicScope) : List ScopeCell :=
  (scope?.map DynamicScope.cells).getD []

/-- The cells around an activation. -/
def Activation.outer (a : Activation) : List ScopeCell :=
  match a.footing with
  | .own s => s.outer
  | .guest parent => parent.cells
  | .nowhere => []

/-! ### Which block is run -/

/-- The block that runs when the value is called by name: blocks do, unless there is a method. -/
def Heap.called? (h : Heap) (receiver : Value) (name : String) : Option Block :=
  match receiver, h.findMethod? receiver name with
  | .block b, none => some b
  | _, _ => none

/-- The block that an instruction runs. -/
def InstrOf.block? (i : Instr) (s : Site) : Option Block :=
  match i with
  | .yield _ block _ =>
    match Exec.value block s with
    | .ok (.block b) _ => some b
    | _ => none
  | .call _ receiver name .. =>
    match Exec.value receiver s with
    | .ok v t => t.heap.called? v name
    | .error .. => none
  | _ => none

def Machine.block? (m : Machine) : Option Block := m.next?.bind fun (i, s) => i.block? s

def Entry.block? (h : Heap) : Entry → Option Block
  | .block b _ => some b
  | .send receiver name _ => h.called? receiver name
  | _ => none

/-! ### Histories -/

/-- An activation that was entered at some time. -/
structure Entrant where
  /-- How many were entered before. -/
  number : Nat
  body : Body
  /-- Whether it was entered with a parent scope. -/
  parented : Bool

/-- Neither has the activation a scope of its own, nor was there a parent's. -/
def Entrant.rootless (e : Entrant) : Bool :=
  !e.body.pushesScope && !e.body.reusesScope && !e.parented

/-- An activation and those that led to the block it runs, from the one that made it outward. -/
structure Lineage where
  self : Entrant
  creators : List Entrant

def Lineage.chain (l : Lineage) : List Entrant := l.self :: l.creators

def Lineage.number (l : Lineage) : Nat := l.self.number

/-- What a block was made from, and the activations that led to it. -/
structure Origin where
  body : Body
  scope? : Option DynamicScope
  creators : List Entrant

structure History where
  /-- All that were entered, each at the position of its number. -/
  roster : List Entrant := []
  /-- The active ones, innermost first. -/
  stack : List Lineage := []
  /-- The origins of the blocks made in the session. -/
  origin? : Nat → Option Origin := fun _ => none
  /-- The cell of the scope that stands for an activation. -/
  standing? : Nat → Option ScopeCell := fun _ => none

def standingIn (n : Nat) : List Lineage → List Activation → Option ScopeCell
  | l :: ls, a :: as => if l.number = n then a.standing? else standingIn n ls as
  | _, _ => none

namespace History

variable (h : History)

/-- The activations that led to a block; none are known of blocks from before the session. -/
def creators (block? : Option Block) : List Entrant :=
  match block?.bind fun b => h.origin? b.id with
  | some o => o.creators
  | none => []

/-- An activation is entered, to run a block or something else. -/
def push (i : Invocation) (block? : Option Block) (standing? : Option ScopeCell) : History :=
  let e : Entrant := ⟨h.roster.length, i.body, i.parent?.isSome⟩
  { h with
    roster := h.roster ++ [e]
    stack := ⟨e, h.creators block?⟩ :: h.stack
    standing? := fun n => if n = e.number then standing? else h.standing? n }

def pop : History := { h with stack := h.stack.tail }

/-- The running activation makes a block. -/
def make : Option (Nat × Body × Option DynamicScope) → History
  | some (id, body, scope?) =>
    match h.stack with
    | l :: _ => { h with
        origin? := fun n => if n = id then some ⟨body, scope?, l.chain⟩ else h.origin? n }
    | [] => h
  | none => h

/-- Scopes have come to stand for active activations. What stands for one stays. -/
def note (as : List Activation) : History :=
  { h with standing? := fun n => (h.standing? n).or (standingIn n h.stack as) }

def observe (limit : Nat) (m : Machine) : History :=
  let as := (m.step limit).active
  match m.control with
  | .finished _ => h
  | .leaving .. => h.pop.note as
  | .running _ =>
    match m.entering? limit with
    | some i => (h.note as.tail).push i m.block? (as.head?.bind Activation.standing?)
    | none => (h.note as).make m.making?

def receive (limit : Nat) (k : Heap) (c : Context) (e : Entry) : History :=
  match e.entering? limit k c with
  | some i =>
    h.push i (e.block? k) ((e.start limit k c).active.head?.bind Activation.standing?)
  | none => h

/--
Bodies as told, and blocks as they were made. A block that is not known to have been made has a
number that was given out before.
-/
def admits (p : Body → Prop) (blocks : Nat) : Vetting where
  body := p
  block id body scope? := id < blocks ∧
    ∀ o, h.origin? id = some o → o.body = body ∧ o.scope? = scope?

end History

/-! ### Sessions -/

structure Session where
  machine : Machine
  history : History

namespace Session

def start : Session := ⟨⟨.initial, {}, .finished (.ok .nil), []⟩, {}⟩

def step (limit : Nat) (s : Session) : Session :=
  ⟨s.machine.step limit, s.history.observe limit s.machine⟩

def enter (limit : Nat) (s : Session) (h : Heap) (c : Context) (e : Entry) : Session :=
  ⟨e.start limit h c, s.history.receive limit h c e⟩

/-- What the host may bring along: admitted bodies, and blocks that it came by. -/
def vetting (s : Session) (p : Body → Prop) (h : Heap) : Vetting :=
  s.history.admits p h.next.blocks

/-- The machine takes a step, or the host enters when it is idle. -/
inductive Moves (limit : Nat) (p : Body → Prop) : Session → Session → Prop where
  | step (s : Session) : Moves limit p s (s.step limit)
  | enter {s : Session} {h : Heap} {c : Context} {e : Entry}
      (idle : s.machine.active = []) (grows : s.machine.heap.Grows h)
      (heap : h.Vetted (s.vetting p h)) (context : c.Vetted (s.vetting p h))
      (entry : e.Vetted (s.vetting p h)) : Moves limit p s (s.enter limit h c e)

/-- The session comes to this, in any number of moves. -/
abbrev Leads (limit : Nat) (p : Body → Prop) : Session → Session → Prop :=
  Relation.ReflTransGen (Moves limit p)

/-- All sessions whose code satisfies `p`. -/
def Reached (limit : Nat) (p : Body → Prop) (s : Session) : Prop := Leads limit p start s

end Session

/-! ### What a call enters -/

/-- The invocation is one of a method, in the scope that is current. -/
def Invocation.OfMethod (i : Invocation) (c : Context) : Prop :=
  ∃ m : Method, i.body = m.body ∧ i.parent? = c.currentScope?

theorem Method.invocation_ofMethod {m : Method} {c : Context} {receiver : Value} {name : String}
    {args : List Value} {block? : Option Block} {i : Invocation}
    (h : m.invocation c receiver name args block? = .ok i) : i.OfMethod c := by
  obtain rfl := Method.invocation_eq h
  exact ⟨m, rfl, rfl⟩

theorem Heap.called?_eq_some {h : Heap} {v : Value} {name : String} {b : Block}
    (hb : h.called? v name = some b) : v = .block b ∧ h.findMethod? v name = none := by
  unfold Heap.called? at hb
  split at hb
  · next hm =>
    cases hb
    exact ⟨rfl, hm⟩
  · cases hb

theorem Heap.dispatch_invoke {h k : Heap} {c : Context} {v : Value} {name : String}
    {args : List Value} {block? : Option Block} {type : CallType} {i : Invocation}
    (hi : h.dispatch c v name args block? type = .ok (.invoke i, k)) :
    (∃ b, h.called? v name = some b ∧ i = b.invocation args) ∨
      h.called? v name = none ∧ i.OfMethod c := by
  cases Heap.dispatch_dispatched hi with
  | method hm hj => exact .inr ⟨by simp only [Heap.called?, hm], Method.invocation_ofMethod hj⟩
  | block hv hm =>
    subst hv
    exact .inl ⟨_, by simp only [Heap.called?, hm], rfl⟩
  | constructed hv _ _ _ hj =>
    subst hv
    obtain ⟨maker, hbody, hparent⟩ := Method.invocation_ofMethod hj
    exact .inr ⟨by simp only [Heap.called?], maker, hbody, hparent⟩

namespace Exec

variable {s t : Site}

theorem block?_eq_ok {o : Operand} {b? : Option Block} (h : block? o s = .ok b? t) :
    ∃ v, value o s = .ok v t ∧ ∀ b, b? = some b → v = .block b := by
  obtain ⟨v, u, hv, h⟩ := bind_eq_ok h
  refine ⟨v, ?_⟩
  cases v with
  | nil => cases h; exact ⟨hv, by rintro b ⟨⟩⟩
  | block b => cases h; exact ⟨hv, by rintro b ⟨⟩; rfl⟩
  | _ => cases h

theorem yielded_eq_ok {o : Operand} {b : Block} (h : yielded o s = .ok b t) :
    value o s = .ok (.block b) t := by
  obtain ⟨b?, u, hb, h⟩ := bind_eq_ok h
  obtain ⟨v, hv, hblock⟩ := block?_eq_ok hb
  cases b? with
  | none => cases h
  | some b' =>
    cases h
    rw [hv, hblock b rfl]

end Exec

open Exec in
/-- What a call enters, the dispatch of its name answers; until then only arrays were made. -/
theorem execute_call_dispatch {r' : Variable} {receiver : Operand} {name : String}
    {args : List Operand} {block : Option Operand} {type : CallType} {s t : Site} {r : Variable}
    {inv : Invocation}
    (h : InstrOf.execute (.call r' receiver name args block type) s = .ok (.call r inv) t) :
    ∃ v n vs, value receiver s = .ok v { s with heap.next.arrays := n } ∧
      ∃ (b? : Option Block) (m : Nat) (k : Heap), Heap.dispatch
        { s.heap with next.arrays := m } s.context v name vs b? type = .ok (.invoke inv, k) := by
  obtain ⟨v, s₁, hv, h⟩ := bind_eq_ok h
  obtain ⟨vs, s₂, hvs, h⟩ := bind_eq_ok h
  obtain ⟨n₁, -, rfl⟩ := reading_eq_ok hv
  obtain ⟨n₂, -, rfl⟩ := reading_eq_ok hvs
  refine ⟨v, n₁, vs, hv, ?_⟩
  have hrest : ∀ (b? : Option Block) (n : Nat), (do
      let context := (← MonadState.get).context
      await r' (← attempt fun h => h.dispatch context v name vs b? type) : Exec Outcome)
        { s with heap.next.arrays := n } = .ok (.call r inv) t →
      ∃ k, Heap.dispatch { s.heap with next.arrays := n } s.context v name vs b? type =
        .ok (.invoke inv, k) := by
    intro b? n h
    obtain ⟨_, _, hget, h⟩ := bind_eq_ok h
    cases hget
    obtain ⟨q, u, hq, h⟩ := bind_eq_ok h
    obtain ⟨k, hk⟩ := attempt_eq_ok hq
    cases q with
    | value x =>
      obtain ⟨_, _, -, h⟩ := bind_eq_ok h
      cases h
    | invoke j => cases h; exact ⟨k, hk⟩
  cases block with
  | none => exact ⟨none, n₂, hrest none n₂ h⟩
  | some o =>
    obtain ⟨b?, s₃, hb, h⟩ := bind_eq_ok h
    obtain ⟨x, hx, -⟩ := block?_eq_ok hb
    obtain ⟨n₃, -, rfl⟩ := reading_eq_ok hx
    exact ⟨b?, n₃, hrest b? n₃ h⟩

open Exec in
/-- What runs a module body is the method that it is given. -/
theorem execute_processModuleBody_call {r' : Variable} {o : Operand} {s t : Site} {r : Variable}
    {inv : Invocation}
    (h : InstrOf.execute (.processModuleBody r' o) s = .ok (.call r inv) t) :
    ∃ m u, value o s = .ok (.method m) u ∧
      m.invocation s.context (.module m.module) m.body.name [] none = .ok inv := by
  obtain ⟨v, s₁, hv, h⟩ := bind_eq_ok h
  obtain ⟨n, -, rfl⟩ := reading_eq_ok hv
  cases v with
  | method m =>
    obtain ⟨_, _, hget, h⟩ := bind_eq_ok h
    cases hget
    cases hj : m.invocation s.context (.module m.module) m.body.name [] none with
    | error f =>
      simp only [hj, bind, EStateM.bind] at h
      cases h
    | ok j =>
      simp only [hj, bind, EStateM.bind] at h
      cases h
      exact ⟨m, _, hv, hj⟩
  | _ => cases h

open Exec in
/-- What a yield enters is the block. -/
theorem execute_yield_call {r' : Variable} {o : Operand} {args : List Operand} {s t : Site}
    {r : Variable} {inv : Invocation}
    (h : InstrOf.execute (.yield r' o args) s = .ok (.call r inv) t) :
    ∃ b u vs, value o s = .ok (.block b) u ∧ inv = b.invocation vs := by
  obtain ⟨b, s₁, hb, h⟩ := bind_eq_ok h
  obtain ⟨vs, s₂, -, h⟩ := bind_eq_ok h
  cases h
  exact ⟨b, s₁, vs, yielded_eq_ok hb, rfl⟩

/-- What an instruction enters is the block that it runs, or a method. -/
theorem execute_invoke {i : Instr} {s t : Site} {r : Variable} {inv : Invocation}
    (h : i.execute s = .ok (.call r inv) t) :
    (∃ b args, i.block? s = some b ∧ inv = b.invocation args) ∨
      i.block? s = none ∧ inv.OfMethod s.context := by
  cases i with
  | call r' receiver name args block type =>
    obtain ⟨v, n, vs, hv, b?, m, k, hk⟩ := execute_call_dispatch h
    have hblock : (InstrOf.call r' receiver name args block type : Instr).block? s =
        s.heap.called? v name := by
      simp only [InstrOf.block?, hv]
      rfl
    rw [hblock]
    rcases Heap.dispatch_invoke hk with ⟨b, hb, rfl⟩ | ⟨hb, hm⟩
    · exact .inl ⟨b, vs, hb, rfl⟩
    · exact .inr ⟨hb, hm⟩
  | processModuleBody r' method =>
    obtain ⟨m, u, -, hj⟩ := execute_processModuleBody_call h
    exact .inr ⟨rfl, Method.invocation_ofMethod hj⟩
  | yield r' block args =>
    obtain ⟨b, u, vs, hb, rfl⟩ := execute_yield_call h
    exact .inl ⟨b, vs, by simp only [InstrOf.block?, hb], rfl⟩
  | _ => cases (execute_call h).1

theorem InstrOf.block?_vetted {w : Vetting} {i : Instr} {s : Site} (hs : s.Vetted w) {b : Block}
    (hb : i.block? s = some b) : b.Vetted w := by
  have hvalue : ∀ (o : Operand) (v : Value) (t : Site), Exec.value o s = .ok v t → v.Vetted w :=
    fun _ _ _ hv => w.invariant_reads.value_of_ok hs hv
  cases i with
  | yield r block args =>
    simp only [InstrOf.block?] at hb
    split at hb
    · next hv =>
      cases hb
      exact hvalue block _ _ hv
    · cases hb
  | call r receiver name args block type =>
    simp only [InstrOf.block?] at hb
    split at hb
    · next v t hv =>
      have hv := hvalue receiver v t hv
      rw [(Heap.called?_eq_some hb).1] at hv
      exact hv
    · cases hb
  | _ => cases hb

end ObjectIr
