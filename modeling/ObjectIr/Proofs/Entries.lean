import ObjectIr.Pass.Nested
import ObjectIr.Proofs.Drafts
import ObjectIr.Proofs.Vetting.Steps

/-!
# Entries from outside

A run starts with an invocation, a script, a call by name, or the call of a method or a block
(`Entry`). All of them wait for a reply (`Entry.start_eq`), so what a run enters at its start is one
activation or none. When the code within reach was built, and a run is entered with such code, it
stays so throughout (`Entry.start_vetted`).
-/

namespace ObjectIr

inductive Entry where
  | execute (i : Invocation)
  | script (b : Body)
  | send (receiver : Value) (name : String) (args : List Value)
  | method (m : Method) (receiver : Value) (name : String) (args : List Value)
    (block? : Option Block)
  | block (b : Block) (args : List Value)

namespace Entry

def start (limit : Nat) (h : Heap) (c : Context) : Entry → Machine
  | .execute i => .start limit h c i
  | .script b => b.start limit h c
  | .send receiver name args => receiver.send limit h c name args
  | .method m receiver name args block? => m.call limit h c receiver name args block?
  | .block b args => b.call limit h c args

/-- What an entry comes to: a value at once, or an activation to wait for. -/
def reply (h : Heap) (c : Context) : Entry → Except Failure (Reply × Heap)
  | .execute i => .ok (.invoke i, h)
  | .script b => .ok (.invoke b.scriptInvocation, h)
  | .send receiver name args => h.dispatch c receiver name args none .normal
  | .method m receiver name args block? =>
    (m.invocation c receiver name args block?).map fun i => (.invoke i, h)
  | .block b args => .ok (.invoke (b.invocation args), h)

theorem start_eq (limit : Nat) (h : Heap) (c : Context) (e : Entry) :
    e.start limit h c = .awaiting limit h c (e.reply h c) := by
  cases e with
  | method m receiver name args block? =>
    rw [start, Method.call, reply]
    cases m.invocation c receiver name args block? <;> rfl
  | _ => rfl

/-- The activation that a run enters at its start. -/
def entering? (limit : Nat) (h : Heap) (c : Context) (e : Entry) : Option Invocation :=
  match e.reply h c with
  | .ok (.invoke i, k) =>
    match enter limit k c i with
    | .ok _ => some i
    | .error _ => none
  | _ => none

/-- Either nothing is entered, and the context is as it was, or an activation is. -/
theorem start_cases (limit : Nat) (h : Heap) (c : Context) (e : Entry) :
    (e.entering? limit h c = none ∧ (e.start limit h c).context = c ∧
        ∃ r, (e.start limit h c).control = .finished r) ∨
      ∃ i k s, e.reply h c = .ok (.invoke i, k) ∧ e.entering? limit h c = some i ∧
        enter limit k c i = .ok s ∧ e.start limit h c = .runningAt s [] := by
  rw [start_eq, entering?]
  rcases hr : e.reply h c with f | ⟨v | i, k⟩
  · exact .inl ⟨rfl, rfl, _, rfl⟩
  · exact .inl ⟨rfl, rfl, _, rfl⟩
  · simp only [Machine.awaiting, Machine.start]
    cases hs : enter limit k c i with
    | error f => exact .inl ⟨rfl, rfl, _, rfl⟩
    | ok s => exact .inr ⟨i, k, s, rfl, rfl, hs, rfl⟩

/-- An entry fails for reasons of its own, and not with a value. -/
theorem reply_quiet (h : Heap) (c : Context) (e : Entry) : Quiet (e.reply h c) := by
  cases e with
  | send receiver name args => exact h.dispatch_quiet c receiver name args none .normal
  | method m receiver name args block? =>
    intro f hf
    rw [reply] at hf
    cases hi : m.invocation c receiver name args block? with
    | error g => rw [hi] at hf; cases hf; exact m.invocation_quiet _ _ _ _ _ f hi
    | ok i => rw [hi] at hf; cases hf
  | _ => exact .ok _

def Vetted (w : Vetting) : Entry → Prop
  | .execute i => i.Vetted w
  | .script b => w.body b
  | .send receiver _ args => receiver.Vetted w ∧ ∀ v ∈ args, v.Vetted w
  | .method m receiver _ args block? =>
    w.body m.body ∧ receiver.Vetted w ∧ (∀ v ∈ args, v.Vetted w) ∧
      ∀ b, block? = some b → b.Vetted w
  | .block b args => b.Vetted w ∧ ∀ v ∈ args, v.Vetted w

theorem reply_vetted {w : Vetting} {h k : Heap} (hh : h.Vetted w) {c : Context} {e : Entry}
    (he : e.Vetted w) {q : Reply} (hq : e.reply h c = .ok (q, k)) : q.Vetted w ∧ h.Registers k := by
  cases e with
  | execute i => cases hq; exact ⟨he, .refl h⟩
  | script b =>
    cases hq
    exact ⟨⟨he, ⟨trivial, by rintro b ⟨⟩⟩, by rintro v ⟨⟩, by rintro v ⟨⟩⟩, .refl h⟩
  | send receiver name args =>
    exact ⟨hh.dispatch he.1 he.2 (by rintro b ⟨⟩) hq, .dispatch hq⟩
  | method m receiver name args block? =>
    obtain ⟨hm, hr, ha, hb⟩ := he
    rw [reply] at hq
    cases hi : m.invocation c receiver name args block? with
    | error f => rw [hi] at hq; cases hq
    | ok i =>
      rw [hi] at hq
      cases hq
      exact ⟨Method.invocation_vetted hr ha hb hm hi, .refl h⟩
  | block b args =>
    cases hq
    exact ⟨BlockOf.invocation_vetted he.2 he.1, .refl h⟩

theorem start_vetted {w : Vetting} (limit : Nat) {h : Heap} (hh : h.Vetted w) {c : Context}
    (hc : c.Vetted w) {e : Entry} (he : e.Vetted w) : (e.start limit h c).Vetted w := by
  rw [start_eq]
  rcases hr : e.reply h c with f | ⟨q, k⟩
  · exact ⟨hh, hc, trivial, by rintro c ⟨⟩⟩
  · obtain ⟨hq, hk⟩ := reply_vetted hh he hr
    have hk := hh.of_registers hk
    cases q with
    | value v => exact ⟨hk, hc, trivial, by rintro c ⟨⟩⟩
    | invoke i =>
      simp only [Machine.awaiting, Machine.start]
      split
      · next s hs =>
        have hs := enter_vetted hk hc hq hs
        exact ⟨hs.heap, hs.context, hs.activation, by rintro c ⟨⟩⟩
      · exact ⟨hk, hc, trivial, by rintro c ⟨⟩⟩

theorem entering_vetted {w : Vetting} {limit : Nat} {h : Heap} (hh : h.Vetted w) {c : Context}
    {e : Entry} (he : e.Vetted w) {i : Invocation} (hi : e.entering? limit h c = some i) :
    i.Vetted w := by
  rcases e.start_cases limit h c with ⟨hn, -⟩ | ⟨j, k, s, hr, hj, -⟩
  · rw [hn] at hi
    cases hi
  · rw [hj] at hi
    cases hi
    exact (reply_vetted hh he hr).1

end Entry

/-! ### Built code -/

/-- The body was built, and so was every body below it. -/
def Body.Built (b : Body) : Prop :=
  ∀ b' ∈ b :: b.nested, ∃ (d : Draft) (id : Nat), d.build id = .ok b'

/-- Built code, with whatever blocks there are. There is no other way to make a body. -/
def builtCode : Vetting := ⟨Body.Built, fun _ _ _ => True⟩

theorem Body.nested_of_body? {b b' : Body} {i : Instr} (hi : i ∈ b.code) (hb : i.body? = some b') :
    ∀ x ∈ b' :: b'.nested, x ∈ b.nested := by
  have hat : nestedAt i = b' :: b'.nested := by
    cases i <;> cases hb <;> rfl
  have hin : ∀ is : List Instr, i ∈ is → ∀ x ∈ b' :: b'.nested, x ∈ nestedIn is := by
    intro is
    induction is with
    | nil => rintro ⟨⟩
    | cons j is ih =>
      intro hj x hx
      rw [nestedIn, List.mem_append]
      rcases List.mem_cons.1 hj with rfl | hj
      · exact .inl (by rw [hat]; exact hx)
      · exact .inr (ih hj x hx)
  cases b
  exact hin _ hi

theorem builtCode_closed : builtCode.Closed := fun _ hb _ hi _ hb' b'' hb'' =>
  hb b'' (List.mem_cons_of_mem _ (Body.nested_of_body? hi hb' b'' hb''))

theorem Body.Built.popsScope_eq {b : Body} (hb : b.Built) : b.popsScope = !b.isEliminated := by
  obtain ⟨d, id, hd⟩ := hb b List.mem_cons_self
  obtain ⟨hs, temps, -, rfl⟩ := Draft.build_eq_ok_iff.1 hd
  have hflags := hs.flags
  show (!d.flags.has .scopeEliminated && !d.flags.has .reuseParentScope ||
    d.flags.has .reuseParentScope) = !d.flags.has .scopeEliminated
  revert hflags
  cases d.flags.has .scopeEliminated <;> cases d.flags.has .reuseParentScope <;> simp

/-- Before any code runs there is no code and no block to get at. -/
theorem Heap.initial_vetted (w : Vetting) : Heap.initial.Vetted w := by
  have hfold : ∀ (ms : List Module) (h : Heap), h.Vetted w →
      (ms.foldl (fun h m => h.setConstant Core.object m.name (.module m)) h).Vetted w := by
    intro ms
    induction ms with
    | nil => exact fun h hh => hh
    | cons m ms ih => exact fun h hh => ih _ (hh.setConstant _ _ trivial)
  refine hfold Core.all _ ⟨?_, ?_, ?_⟩
  · intro m name x hx
    simp [Heap.method?, Heap.table] at hx
  · intro m name v hv
    simp [Heap.constant?, Heap.table] at hv
  · intro c v hv
    simp [Heap.slotsOf] at hv

end ObjectIr
