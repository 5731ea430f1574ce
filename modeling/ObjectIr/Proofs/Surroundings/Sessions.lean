import ObjectIr.Proofs.Sessions.Moves
import ObjectIr.Proofs.Vetting.Methods

/-!
# What lies lexically around an activation

The body of a class is no block: nobody makes it, so it has no creators. It lies in the activation
that holds its definition, as a closure lies in the one that makes it. A `LexicalSession` keeps
beside the history which activations lie around each, from inside out, up to a script or a method.

Its runs are those of scripts with a scope of their own, and in each of them a module body is
processed by an activation that holds the definition (`LexicalSession.Moves`).
-/

namespace ObjectIr

/-! ### Code -/

/-- The code of `b` has a definition with the module body `x`. -/
def Body.Defines (b x : Body) : Prop :=
  ∃ r container superclass, .defineClass r x container superclass ∈ b.code

def Body.Holds (b x : Body) : Prop := b.Makes x ∨ b.Defines x

/-- What a body makes are closures and what it defines are module bodies, in its static scope. -/
structure Body.Encloses (b : Body) : Prop where
  closures : ∀ x, b.Makes x → x.kind = .closure ∧ x.scope.outer = b.scope.levels
  modules : ∀ x, b.Defines x → x.kind.isModuleBody = true ∧ x.scope.outer = b.scope.levels
  methods : ∀ name x, .defineMethod name x ∈ b.code → x.kind.isReturnTarget = true

/-- Built code where each body lies in the static scope of the one that holds it. -/
def Body.Placed (b : Body) : Prop := b.Built ∧ ∀ x ∈ b :: b.nested, x.Encloses

theorem Body.Placed.hereditary : Hereditary Body.Placed := by
  rintro b ⟨hbuilt, hencloses⟩ i hi b' hb'
  refine ⟨builtCode_closed b hbuilt i hi b' hb', fun x hx => hencloses x ?_⟩
  exact List.mem_cons_of_mem _ (Body.nested_of_body? hi hb' x hx)

theorem Body.Placed.encloses {b : Body} (hb : b.Placed) : b.Encloses := hb.2 b List.mem_cons_self

theorem BodyKind.isReturnTarget_eq_false {kind : BodyKind} (h : kind.isModuleBody = true) :
    kind.isReturnTarget = false := by
  cases kind <;> simp_all [isModuleBody, isReturnTarget]

theorem Body.Encloses.holds {b x : Body} (hb : b.Encloses) (h : b.Holds x) :
    x.kind.isReturnTarget = false ∧ x.scope.outer = b.scope.levels := by
  rcases h with h | h
  · obtain ⟨hkind, houter⟩ := hb.closures x h
    exact ⟨by rw [hkind]; rfl, houter⟩
  · obtain ⟨hkind, houter⟩ := hb.modules x h
    exact ⟨BodyKind.isReturnTarget_eq_false hkind, houter⟩

/-! ### Sessions -/

/-- The blocks that were made in the session, as they were made, and bodies as told. -/
def History.knows (h : History) (p : Body → Prop) : Vetting where
  body := p
  block id body scope? := ∃ o, h.origin? id = some o ∧ o.body = body ∧ o.scope? = scope?

/-- A session, and for each activation those around it, by its number. -/
structure LexicalSession extends Session where
  around : Nat → List Entrant := fun _ => []

namespace LexicalSession

def start : LexicalSession where
  toSession := Session.start

def chain (s : LexicalSession) (e : Entrant) : List Entrant := e :: s.around e.number

/-- The activation right around the one that is entered next, if it is not one of a method. -/
def encloser? (s : LexicalSession) : Option Entrant :=
  match s.machine.next? with
  | some (.processModuleBody .., _) => s.history.stack.head?.map Lineage.self
  | _ => (s.history.creators s.machine.block?).head?

def step (limit : Nat) (s : LexicalSession) : LexicalSession where
  toSession := s.toSession.step limit
  around n :=
    if n = s.history.roster.length then (s.encloser?.map s.chain).getD [] else s.around n

theorem step_machine (limit : Nat) (s : LexicalSession) :
    (s.step limit).machine = s.machine.step limit := rfl

/-- Runs a script on the heap as it is. -/
def enter (limit : Nat) (s : LexicalSession) (c : Context) (b : Body) : LexicalSession where
  toSession := s.toSession.enter limit s.machine.heap c (.script b)
  around n := if n = s.history.roster.length then [] else s.around n

/-- A module body that is entered now has its definition in the code that runs. -/
def Abides (limit : Nat) (s : LexicalSession) : Prop :=
  ∀ r o site i, s.machine.next? = some (.processModuleBody r o, site) →
    s.machine.entering? limit = some i → site.activation.body.Defines i.body

inductive Moves (limit : Nat) : LexicalSession → LexicalSession → Prop where
  | step {s : LexicalSession} (abides : s.Abides limit) : Moves limit s (s.step limit)
  | enter {s : LexicalSession} {c : Context} {b : Body} (idle : s.machine.active = [])
      (context : c.Vetted (s.history.knows Body.Placed)) (code : b.Placed)
      (kind : b.kind.isReturnTarget = true) (own : b.pushesScope = true) :
      Moves limit s (s.enter limit c b)

/-- All sessions that runs of such scripts come to. -/
def Reached (limit : Nat) (s : LexicalSession) : Prop :=
  Relation.ReflTransGen (Moves limit) start s

end LexicalSession

/-! ### What is entered -/

/--
An activation is entered to run a block in the scope that the block captured, or in the current
scope: to process a module body, or to run a method that the heap holds.
-/
theorem Machine.entering_cases {limit : Nat} {m : Machine} {i : Invocation}
    (hi : m.entering? limit = some i) :
    (∃ b, m.block? = some b ∧ i.body = b.body ∧ i.parent? = b.scope? ∧
      ∀ r o s, m.next? ≠ some (.processModuleBody r o, s)) ∨
    i.parent? = m.context.currentScope? ∧ m.block? = none ∧
      ((∃ r o s, m.next? = some (.processModuleBody r o, s)) ∨
        (∀ r o s, m.next? ≠ some (.processModuleBody r o, s)) ∧
          ∀ q, m.heap.Answers q → q i.body) := by
  cases hnext : m.next? with
  | none => rw [entering?, hnext] at hi; cases hi
  | some p =>
    obtain ⟨instr, s⟩ := p
    have hsite : s.heap = m.heap ∧ s.context = m.context := by
      obtain ⟨a, -, -, rfl⟩ := next?_eq_some hnext
      exact ⟨rfl, rfl⟩
    have hblock : m.block? = instr.block? s := by rw [Machine.block?, hnext]; rfl
    rw [entering?, hnext] at hi
    simp only at hi
    split at hi
    · next r inv t he =>
      split at hi
      · cases hi
        rw [hblock]
        rcases execute_invoke he with ⟨b, args, hb, rfl⟩ | ⟨hnone, m', hbody, hparent⟩
        · refine .inl ⟨b, hb, rfl, rfl, ?_⟩
          rintro r' o s' ⟨⟩
          cases hb
        · rw [hsite.2] at hparent
          refine .inr ⟨hparent, hnone, ?_⟩
          cases instr with
          | processModuleBody r' o => exact .inl ⟨r', o, s, rfl⟩
          | call r' receiver name args block type =>
            refine .inr ⟨by simp, fun q hq => ?_⟩
            rw [← hsite.1] at hq
            exact execute_answers hq he hnone
          | yield r' block args =>
            obtain ⟨b, s₁, hb, -⟩ := Exec.bind_eq_ok he
            simp only [InstrOf.block?, Exec.yielded_eq_ok hb, reduceCtorEq] at hnone
          | _ => cases (execute_call he).1
      · cases hi
    · cases hi

end ObjectIr
