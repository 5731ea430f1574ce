import Mathlib.Logic.Relation
import ObjectIr.Proofs.Invariants

/-!
# What an instruction is made of

All that an instruction does to its site, it does by a few primitive changes (`InstrOf.Effect`):
it takes numbers for arrays, sets its result, jumps to its target, or carries out the one change
that it is there for. So what each of these keeps is kept by the instruction (`effects_of_ok`). The
site evolves (`execute_evolves`), only calls wait for an activation, and they wait with the variable
that they set (`execute_call`), and only a raise fails with a value (`execute_raised`).
-/

namespace ObjectIr

open Relation (ReflTransGen)

/-- A primitive change of its site that an instruction may make. -/
inductive InstrOf.Effect (i : Instr) : Site → Site → Prop
  | supply (s : Site) (n : Nat) : Effect i s { s with heap.next.arrays := n }
  | store {s t : Site} {r : Variable} {v : Value} (hr : i.result? = some r)
    (ht : s.store r v = .ok t) : Effect i s t
  | goTo {s : Site} {l : Label} {index : Nat} (hl : i.target? = some l)
    (hindex : s.activation.body.labelIndex? l = some index) :
    Effect i s { s with activation := { s.activation with pc := index } }
  | dispatch {s : Site} {v : Value} {name : String} {args : List Value} {block? : Option Block}
    {type : CallType} {q : Reply} {k : Heap}
    (hcall : ∃ r receiver args block, i = .call r receiver name args block type)
    (hk : s.heap.dispatch s.context v name args block? type = .ok (q, k)) :
    Effect i s { s with heap := k }
  | define {s : Site} {body : Body} {v : Value} {x : Option Value} {m : Method} {k : Heap}
    (hdefine : ∃ r container superclass, i = .defineClass r body container superclass)
    (hk : s.heap.define body v x = .ok (m, k)) : Effect i s { s with heap := k }
  | defineMethod {s : Site} {name : String} {body : Body} {f : Frame}
    (hdefine : i = .defineMethod name body) (hf : s.frame = .ok f) :
    Effect i s { s with heap := ((s.heap.newMethod body f.visibility f.module).2.addMethod f.module
      name (s.heap.newMethod body f.visibility f.module).1) }
  | setVisibility {s : Site} {v : Visibility} {c : Context} (hset : i = .setVisibility v)
    (hc : s.context.setVisibility? v = some c) : Effect i s { s with context := c }
  | putConst {s : Site} {container o : Operand} {name : String} (m : Module) (v : Value)
    (hput : i = .putConst container name o) :
    Effect i s { s with heap := s.heap.setConstant m name v }
  | buildClosure {s : Site} {r : Variable} {body : Body} {f : Frame}
    (hbuild : i = .buildClosure r body) (hf : s.frame = .ok f) :
    Effect i s { s.captureScope.2 with heap := ((s.captureScope.2.heap.newBlock body
      s.captureScope.2.activation.receiver s.captureScope.1 f.module f.visibility).2) }

/-- To have come about by primitive changes of the instruction. -/
def InstrOf.changes (i : Instr) (s : Site) : Invariant :=
  .ofSites (ReflTransGen i.Effect s) (fun _ => ReflTransGen i.Effect s)
    fun _ => ReflTransGen i.Effect s

theorem InstrOf.changes_reads (i : Instr) (s : Site) : (i.changes s).Reads :=
  Invariant.reads_ofSites (fun _ n hs => hs.tail (.supply _ n)) fun _ _ hs _ => hs

theorem InstrOf.changes_lawful (i : Instr) (s : Site) : (i.changes s).Lawful i where
  toReads := i.changes_reads s
  next hs := hs
  complete hs _ := hs
  returns _ hs _ := hs
  raise _ _ hs _ := hs
  store hr hs _ ht := hs.tail (.store hr ht)
  goTo hl hs hn := hs.tail (.goTo hl hn)
  dispatch := by
    rintro t k q r receiver name args block type v vs b? rfl hs - - - hk
    have hcalled := hs.tail (.dispatch ⟨r, receiver, args, block, rfl⟩ hk)
    exact Invariant.ends_await (fun _ _ => hcalled)
      (fun _ _ _ ht => hcalled.tail (.store rfl ht)) fun _ _ => hcalled
  define := by
    rintro t k m r body container superclass v x? rfl hs - - hk
    have hdefined := hs.tail (.define ⟨r, container, superclass, rfl⟩ hk)
    exact Invariant.ends_store (fun _ _ => hdefined) fun _ ht => hdefined.tail (.store rfl ht)
  defineMethod hi hs hf := hs.tail (.defineMethod hi hf)
  setVisibility hi hs hc := hs.tail (.setVisibility hi hc)
  putConst hi hs _ _ := hs.tail (.putConst _ _ hi)
  yield _ hs _ _ := hs
  processModuleBody _ hs _ _ := hs

theorem execute_effects (i : Instr) (s : Site) : (i.changes s).Ends (i.execute s) :=
  (i.changes_lawful s).execute .refl fun _ _ _ hi hf => ⟨trivial, .tail .refl (.buildClosure hi hf)⟩

theorem effects_of_ok {i : Instr} {s t : Site} {o : Outcome} (h : i.execute s = .ok o t) :
    ReflTransGen i.Effect s t := by
  have heffects := execute_effects i s
  rw [h] at heffects
  exact heffects

theorem effects_of_error {i : Instr} {s t : Site} {f : Failure} (h : i.execute s = .error f t) :
    ReflTransGen i.Effect s t := by
  have heffects := execute_effects i s
  rw [h] at heffects
  exact heffects

section

variable {i : Instr} {P : Site → Prop} (hP : ∀ s t, i.Effect s t → P s → P t)

include hP

theorem InstrOf.effects_keep {s t : Site} (h : ReflTransGen i.Effect s t) (hs : P s) : P t := by
  induction h with
  | refl => exact hs
  | tail _ heffect ih => exact hP _ _ heffect ih

/-- What each of its primitive changes keeps is kept by the instruction. -/
theorem execute_keeps {s : Site} (hs : P s) :
    Exec.Ends (fun _ => P) (fun _ => P) (i.execute s) := by
  cases he : i.execute s with
  | ok o t => exact InstrOf.effects_keep hP (effects_of_ok he) hs
  | error f t => exact InstrOf.effects_keep hP (effects_of_error he) hs

end

/-! ### Evolution -/

theorem InstrOf.Effect.evolves {i : Instr} {s t : Site} (h : i.Effect s t) : s.Evolves t := by
  cases h with
  | supply => exact .of_eq ⟨Nat.le_refl _, Nat.le_refl _, fun _ _ => rfl⟩
  | store _ ht =>
    obtain ⟨k, ts, hk, rfl⟩ := Site.store_changes ht
    exact .of_eq hk
  | @goTo l _ _ hl =>
    exact { Site.Evolves.refl s with
      pc := .inr ⟨l, hl⟩
      bridge? := .inl rfl }
  | dispatch _ hk => exact .of_eq (.of_registers (.dispatch hk))
  | define _ hk => exact .of_eq (.of_registers (.define hk))
  | @defineMethod name body f =>
    exact .of_eq (.trans (.of_registers (.newMethod s.heap body f.visibility f.module))
      (.addMethod _ _ name _))
  | setVisibility _ hc =>
    obtain ⟨f, fs, hf, rfl⟩ := Context.setVisibility?_eq_some hc
    exact { Site.Evolves.refl s with
      depth := by simp [hf]
      frames := by simp [hf]
      bridge? := .inl rfl }
  | putConst => exact .of_eq (.setConstant _ _ _ _)
  | buildClosure => exact s.captureScope_evolves.trans (.of_eq (.newBlock _ _ _ _ _ _))

theorem execute_evolves (i : Instr) (s : Site) :
    Exec.Ends (fun _ => s.Evolves) (fun _ => s.Evolves) (i.execute s) :=
  execute_keeps (fun _ _ h hs => hs.trans h.evolves) (.refl s)

/-! ### Outcomes -/

def InstrOf.waits : Instr → Bool
  | .call .. | .processModuleBody .. | .yield .. => true
  | _ => false

/-- To wait with the variable that is set, and to fail with no value but by a raise. -/
def InstrOf.manner (i : Instr) : Invariant :=
  .ofSites (fun _ => True) (fun o _ => ∀ r j, o = .call r j → i.waits = true ∧ i.result? = some r)
    fun f _ => ∀ v, f = .raised v → ∃ o, i = .raise o

theorem InstrOf.manner_reads (i : Instr) : i.manner.Reads :=
  Invariant.reads_ofSites (fun _ _ _ => trivial) (by rintro s f - hf v rfl; cases hf)

theorem InstrOf.manner_lawful (i : Instr) : i.manner.Lawful i where
  toReads := i.manner_reads
  next _ := by rintro r j ⟨⟩
  complete _ _ := by rintro r j ⟨⟩
  returns _ _ _ := by rintro r j ⟨⟩
  raise o hi _ _ := fun _ _ => ⟨o, hi⟩
  store _ _ _ _ := by rintro r j ⟨⟩
  goTo _ _ _ := by rintro r j ⟨⟩
  dispatch := by
    rintro s k q r receiver name args block type v vs b? rfl - - - - -
    refine Invariant.ends_await (fun f => (manner_reads _).quiet trivial) ?_ ?_
    · rintro v rfl t - r j ⟨⟩
    · rintro j rfl r' j' ⟨⟩
      exact ⟨rfl, rfl⟩
  define := by
    rintro s k m r body container superclass v x? rfl - - - -
    exact Invariant.ends_store (fun f => (manner_reads _).quiet trivial) (by rintro t - r j ⟨⟩)
  defineMethod _ _ _ := by rintro r j ⟨⟩
  setVisibility _ _ _ := by rintro r j ⟨⟩
  putConst _ _ _ _ := by rintro r j ⟨⟩
  yield := by
    rintro s r o os b vs rfl - - - r' j ⟨⟩
    exact ⟨rfl, rfl⟩
  processModuleBody := by
    rintro s m r o c j rfl - - - r' j' ⟨⟩
    exact ⟨rfl, rfl⟩

theorem execute_manner (i : Instr) (s : Site) : i.manner.Ends (i.execute s) :=
  i.manner_lawful.execute trivial fun _ _ _ _ _ => ⟨trivial, trivial⟩

/-- An instruction waits with the variable it sets. -/
theorem execute_call {i : Instr} {s t : Site} {r : Variable} {inv : Invocation}
    (h : i.execute s = .ok (.call r inv) t) : i.waits = true ∧ i.result? = some r := by
  have hmanner := execute_manner i s
  rw [h] at hmanner
  exact hmanner r inv rfl

/-- An instruction that fails with a value has raised what it read. -/
theorem execute_raised {i : Instr} {s t : Site} {v : Value}
    (h : i.execute s = .error (.raised v) t) : ∃ o, i = .raise o ∧ Exec.value o s = .ok v t := by
  have hmanner := execute_manner i s
  rw [h] at hmanner
  obtain ⟨o, rfl⟩ := hmanner v rfl
  refine ⟨o, rfl, ?_⟩
  rw [InstrOf.execute] at h
  cases hv : Exec.value o s with
  | ok u t' => rw [Exec.bind_of_ok hv] at h; cases h; rfl
  | error f t' =>
    rw [Exec.bind_of_error hv] at h
    cases h
    cases Exec.value_quiet hv

end ObjectIr
