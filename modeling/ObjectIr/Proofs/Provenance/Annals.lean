import ObjectIr.Proofs.Provenance.Steps
import ObjectIr.Proofs.ScopeModules
import ObjectIr.Proofs.Sessions.History

/-!
# Annals of visibility

Which visibility a method gets is up to the activation that defines it: it began with some
visibility, and may have set others since (`Stint`). `Annals` keep the stints of the active
activations beside the machine, and what it takes to tell what an activation begins with: under
which visibility each block was made, and which methods class definitions answered. They hear of
what the machine does next (`Machine.event?`) and never look at a frame. Because a machine reaches
no other blocks and methods than those that were made, they tell what it begins with
(`Annals.initial_eq`).
-/

namespace ObjectIr

/-! ### What activations are begun for -/

inductive Beginning where
  | script (b : Body)
  | method (x : Method)
  /-- A method that is a value, run on its module. -/
  | moduleBody (x : Method)
  | block (b : Block)
  /-- What the host has put together itself. -/
  | host (i : Invocation)

namespace Beginning

def body : Beginning → Body
  | .script b => b
  | .method x | .moduleBody x => x.body
  | .block b => b.body
  | .host i => i.body

/-- The visibility that it carries along. -/
def visibility : Beginning → Visibility
  | .script _ => .private
  | .method x | .moduleBody x => x.visibility
  | .block b => b.visibility
  | .host i => i.frame.visibility

/-- The invocation is one of it. -/
structure Opens (b : Beginning) (i : Invocation) : Prop where
  body : i.body = b.body
  visibility : i.frame.visibility = b.visibility

variable (w : Keeping) in
/-- Methods that are called are not reached as values. -/
def Kept : Beginning → Prop
  | .script _ | .method _ | .host _ => True
  | .moduleBody x => w.method x
  | .block b => b.Kept w

end Beginning

theorem Method.invocation_opens {x : Method} {c : Context} {receiver : Value} {name : String}
    {args : List Value} {block? : Option Block} {i : Invocation}
    (hi : x.invocation c receiver name args block? = .ok i) :
    (Beginning.method x).Opens i ∧ (Beginning.moduleBody x).Opens i := by
  obtain rfl := Method.invocation_eq hi
  exact ⟨⟨rfl, rfl⟩, ⟨rfl, rfl⟩⟩

/--
What a call by name begins: a method of the receiver, the block that it is, or the `initialize` of
the object that it makes.
-/
def Heap.beginning? (h : Heap) (receiver : Value) (name : String) : Option Beginning :=
  match h.findMethod? receiver name, receiver with
  | some x, _ => some (.method x)
  | none, .block b => some (.block b)
  | none, .module m =>
    ((h.newObject m).2.findMethod? (.object (h.newObject m).1) "initialize").map .method
  | none, _ => none

def InstrOf.beginning? (i : Instr) (s : Site) : Option Beginning :=
  match i with
  | .call _ receiver name .. =>
    match Exec.value receiver s with
    | .ok v t => t.heap.beginning? v name
    | .error .. => none
  | .processModuleBody _ method =>
    match Exec.value method s with
    | .ok (.method x) _ => some (.moduleBody x)
    | _ => none
  | .yield _ block _ =>
    match Exec.value block s with
    | .ok (.block b) _ => some (.block b)
    | _ => none
  | _ => none

def Entry.beginning? (h : Heap) : Entry → Option Beginning
  | .execute i => some (.host i)
  | .script b => some (.script b)
  | .send receiver name _ => h.beginning? receiver name
  | .method x .. => some (.method x)
  | .block b _ => some (.block b)

theorem Heap.dispatch_begins {h k : Heap} {c : Context} {v : Value} {name : String}
    {args : List Value} {block? : Option Block} {type : CallType} {i : Invocation}
    (hi : h.dispatch c v name args block? type = .ok (.invoke i, k)) :
    ∃ b, h.beginning? v name = some b ∧ b.Opens i := by
  have hcases := Heap.dispatch_dispatched hi
  cases hm : h.findMethod? v name with
  | some x =>
    rw [Heap.dispatch, hm] at hi
    simp only at hi
    split at hi
    · cases hi
    · cases hj : x.invocation c v name args block? with
      | error f => rw [hj] at hi; cases hi
      | ok j =>
        rw [hj] at hi
        cases hi
        exact ⟨.method x, by simp only [Heap.beginning?, hm], (Method.invocation_opens hj).1⟩
  | none =>
    cases hcases with
    | method hx => rw [hm] at hx; cases hx
    | @block b hv =>
      subst hv
      exact ⟨.block b, by simp only [Heap.beginning?, hm], rfl, rfl⟩
    | @constructed m x _ hv _ _ hx hj =>
      subst hv
      obtain ⟨hopens, -⟩ := Method.invocation_opens hj
      exact ⟨.method x, by simp only [Heap.beginning?, hm, hx]; rfl, hopens.body,
        hopens.visibility⟩

/-- What an instruction enters is what it begins. -/
theorem execute_begins {i : Instr} {s t : Site} {r : Variable} {inv : Invocation}
    (h : i.execute s = .ok (.call r inv) t) : ∃ b, i.beginning? s = some b ∧ b.Opens inv := by
  cases i with
  | call r' receiver name args block type =>
    obtain ⟨v, n, vs, hv, b?, m, k, hk⟩ := execute_call_dispatch h
    obtain ⟨b, hb, hopens⟩ := Heap.dispatch_begins hk
    refine ⟨b, ?_, hopens⟩
    simp only [InstrOf.beginning?, hv]
    exact hb
  | processModuleBody r' method =>
    obtain ⟨x, u, hx, hj⟩ := execute_processModuleBody_call h
    exact ⟨.moduleBody x, by simp only [InstrOf.beginning?, hx], (Method.invocation_opens hj).2⟩
  | yield r' block args =>
    obtain ⟨b, u, vs, hb, rfl⟩ := execute_yield_call h
    exact ⟨.block b, by simp only [InstrOf.beginning?, hb], rfl, rfl⟩
  | _ => cases (execute_call h).1

theorem Entry.reply_begins {e : Entry} {h k : Heap} {c : Context} {i : Invocation}
    (hi : e.reply h c = .ok (.invoke i, k)) : ∃ b, e.beginning? h = some b ∧ b.Opens i := by
  cases e with
  | execute i | script b | block b args =>
    cases hi
    exact ⟨_, rfl, rfl, rfl⟩
  | send receiver name args => exact Heap.dispatch_begins hi
  | method x receiver name args block? =>
    rw [Entry.reply] at hi
    cases hj : x.invocation c receiver name args block? with
    | error f => rw [hj] at hi; cases hi
    | ok j => rw [hj] at hi; cases hi; exact ⟨_, rfl, (Method.invocation_opens hj).1⟩

section Kept

variable {w : Keeping}

theorem Heap.beginning?_kept {h : Heap} {v : Value} (hv : v.Kept w) {name : String} {b : Beginning}
    (hb : h.beginning? v name = some b) : b.Kept w := by
  unfold Heap.beginning? at hb
  split at hb
  · cases hb
    exact trivial
  · cases hb
    exact hv
  · obtain ⟨x, -, rfl⟩ := Option.map_eq_some_iff.1 hb
    exact trivial
  · cases hb

theorem Site.Kept.value {s t : Site} (hs : s.Kept w) {o : Operand} {v : Value}
    (hv : Exec.value o s = .ok v t) : v.Kept w := w.invariant_reads.value_of_ok hs hv

theorem InstrOf.beginning?_kept {i : Instr} {s : Site} (hs : s.Kept w) {b : Beginning}
    (hb : i.beginning? s = some b) : b.Kept w := by
  unfold InstrOf.beginning? at hb
  split at hb
  · split at hb
    · next hv => exact Heap.beginning?_kept (hs.value hv) hb
    · cases hb
  · split at hb
    · next hv => cases hb; exact hs.value hv
    · cases hb
  · split at hb
    · next hv => cases hb; exact hs.value hv
    · cases hb
  · cases hb

theorem Entry.beginning?_kept {e : Entry} (he : e.Kept w) {h : Heap} {b : Beginning}
    (hb : e.beginning? h = some b) : b.Kept w := by
  cases e with
  | send receiver name args => exact Heap.beginning?_kept he.1 hb
  | block b args => cases hb; exact he.1
  | _ => cases hb; exact trivial

end Kept

/-! ### Annals -/

/-- What an activation has done about its visibility. -/
structure Stint where
  initial : Visibility
  /-- What it has set, the latest first. -/
  settings : List Visibility := []
  deriving DecidableEq

/-- The last visibility that was set, or else the initial one. -/
def Stint.visibility (s : Stint) : Visibility := s.settings.headD s.initial

inductive Event where
  | begins (b : Beginning)
  | sets (v : Visibility)
  /-- A block of that number is made. -/
  | makes (block : Nat)
  /-- A class definition answers the method. -/
  | answers (x : Method)
  | ends

namespace Machine

/-- What comes of the instruction that the machine carries out next. -/
def brought? (limit : Nat) (m : Machine) : Instr → Site → Option Event
  | .setVisibility v, _ => some (.sets v)
  | .buildClosure .., _ => m.making?.map fun made => .makes made.1
  | .defineClass .., _ => m.defining?.map .answers
  | i, s => (m.entering? limit).bind fun _ => (i.beginning? s).map .begins

/-- What the machine does next that the annals take note of. -/
def event? (limit : Nat) (m : Machine) : Option Event :=
  match m.control with
  | .leaving .. => some .ends
  | _ => m.next?.bind fun (i, s) => m.brought? limit i s

end Machine

structure Annals where
  /-- The stints of the active activations, innermost first. -/
  stints : List Stint := []
  /-- The visibility of the activation that made a block, at that time. -/
  made? : Nat → Option Visibility := fun _ => none
  /-- The numbers of the methods that class definitions answered. -/
  answered : Nat → Bool := fun _ => false

namespace Annals

variable (a : Annals)

/--
The declared visibility of a method, but public for a module body; that of its creator for a block
that is known to have been made; private for a script.
-/
def initial : Beginning → Visibility
  | .script _ => .private
  | .method x => x.visibility
  | .moduleBody x => if a.answered x.id then .public else x.visibility
  | .block b => (a.made? b.id).getD b.visibility
  | .host i => i.frame.visibility

def begin (b : Beginning) : Annals := { a with stints := ⟨a.initial b, []⟩ :: a.stints }

def note : Event → Annals
  | .begins b => a.begin b
  | .sets v => { a with
      stints := a.stints.modifyHead fun s => { s with settings := v :: s.settings } }
  | .makes id => { a with
      made? := fun n => if n = id then a.stints.head?.map Stint.visibility else a.made? n }
  | .answers x => { a with answered := fun n => n == x.id || a.answered n }
  | .ends => { a with stints := a.stints.tail }

def observe (limit : Nat) (m : Machine) : Annals := (m.event? limit).elim a a.note

def receive (limit : Nat) (h : Heap) (c : Context) (e : Entry) : Annals :=
  match e.entering? limit h c, e.beginning? h with
  | some _, some b => a.begin b
  | _, _ => a

/--
Blocks as they were made, and methods as they were answered. What is not known to have been made has
a number that was given out before.
-/
def keeping (n : Supply) : Keeping where
  block b := b.id < n.blocks ∧ ∀ v, a.made? b.id = some v → b.visibility = v
  method x := x.visibility = .public ∨ (x.id < n.methods ∧ a.answered x.id = false)
  method_of_public _ := .inl

variable {a}

/-- What is kept begins with the visibility that it carries along. -/
theorem initial_eq {n : Supply} {b : Beginning} (hb : b.Kept (a.keeping n)) :
    a.initial b = b.visibility := by
  cases b with
  | script | method | host => rfl
  | moduleBody x =>
    rw [initial, Beginning.visibility]
    rcases hb with hpublic | ⟨-, hnot⟩
    · rw [hpublic, ite_self]
    · rw [hnot, if_neg Bool.false_ne_true]
  | block b =>
    obtain ⟨id, body, receiver, scope?, module, visibility⟩ := b
    have hmade := hb.1.2
    simp only at hmade
    rw [initial, Beginning.visibility]
    cases hv : a.made? id with
    | none => rfl
    | some v => exact (hmade v hv).symm

end Annals

end ObjectIr
