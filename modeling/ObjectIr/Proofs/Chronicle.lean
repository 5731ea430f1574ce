import ObjectIr.Proofs.Entries

/-!
# Chronicles

All states from the start on, through any number of runs on one heap. A chronicle begins before any
code has run. It goes on by a step, or by an entry on the heap that was left, with what the host is
admitted to enter with by what has been so far. Each run may have its own limit of frames.
-/

namespace ObjectIr

namespace Machine

/-- The state before any code runs. -/
def idle : Machine := ⟨.initial, {}, .finished (.ok .nil), []⟩

/-- The states of a machine up to a number of steps, the latest first. -/
def trail (limit : Nat) (m : Machine) : Nat → List Machine
  | 0 => [m]
  | n + 1 => m.after limit (n + 1) :: m.trail limit n

theorem trail_eq_cons (limit : Nat) (m : Machine) (n : Nat) :
    ∃ ms, m.trail limit n = m.after limit n :: ms := by
  cases n <;> exact ⟨_, rfl⟩

end Machine

/-- The entries and the states so far, the latest first. -/
inductive Chronicle (admits : List Machine → Entry → Context → Prop) :
    List Entry → List Machine → Prop
  | start : Chronicle admits [] [.idle]
  | step {es : List Entry} {m : Machine} {ms : List Machine} (limit : Nat)
    (h : Chronicle admits es (m :: ms)) : Chronicle admits es (m.step limit :: m :: ms)
  | enter {es : List Entry} {m : Machine} {ms : List Machine} {e : Entry} {c : Context}
    (limit : Nat) (h : Chronicle admits es (m :: ms)) (he : admits (m :: ms) e c) :
    Chronicle admits (e :: es) (e.start limit m.heap c :: m :: ms)

namespace Chronicle

variable {admits : List Machine → Entry → Context → Prop} {es : List Entry} {m : Machine}
  {ms : List Machine}

theorem after (limit : Nat) (h : Chronicle admits es (m :: ms)) (n : Nat) :
    Chronicle admits es (m.trail limit n ++ ms) := by
  induction n with
  | zero => exact h
  | succ n ih =>
    obtain ⟨earlier, htrail⟩ := m.trail_eq_cons limit n
    rw [Machine.trail, List.cons_append, Machine.after_succ]
    rw [htrail] at ih ⊢
    exact ih.step limit

end Chronicle

end ObjectIr
