import ObjectIr.Proofs.Invariants
import ObjectIr.Proofs.Population.Recorded

/-!
# Instructions in a census

An instruction reads at a recorded site what belongs to the census (`Census.invariant_reads`). Calls
and definitions may make modules and objects, and then there is a larger census which records the
site, and what the instruction ends with belongs to that one (`execute_recorded`).
-/

namespace ObjectIr

/-! ### Reading -/

namespace Site.Among

variable {p : Population} {s : Site} (hs : s.Among p)

include hs

theorem load {r : Variable} {v : Value} (hv : s.load r = .ok v) : v.Among p := by
  rcases Site.load_cases hv with ⟨x, hx⟩ | ⟨scope, depth, offset, hr⟩
  · exact hs.activation.temps x v hx
  · exact hs.heap.readLocal hr

theorem frame {f : Frame} (hf : s.frame = .ok f) : f.Among p := hs.context f (Site.frame_mem hf)

theorem scopeModule {m : Module} (hm : s.scopeModule = .ok m) : m.Among p := by
  rw [Site.scopeModule] at hm
  split at hm
  · next n hn =>
    cases hm
    obtain ⟨l, -, hl⟩ := List.exists_of_findSome?_eq_some hn
    exact hs.heap.bindings l m hl
  · cases hf : s.frame with
    | error f => rw [hf] at hm; cases hm
    | ok f => rw [hf] at hm; cases hm; exact (hs.frame hf).module

end Site.Among

/-! ### Recorded sites -/

structure Site.Recorded (c : Census) (s : Site) : Prop where
  heap : s.heap.Recorded c
  context : s.context.Among c.population
  activation : s.activation.Among c.population

namespace Site.Recorded

variable {c : Census} {s : Site} (hs : s.Recorded c)

include hs

theorem among : s.Among c.population := ⟨hs.heap.among, hs.context, hs.activation⟩

theorem store {t : Site} {r : Variable} {v : Value} (hv : v.Among c.population)
    (ht : s.store r v = .ok t) : t.Recorded c := by
  rcases Site.store_cases ht with ⟨x, ts, -, hts, rfl⟩ | ⟨scope, depth, offset, k, hk, rfl⟩
  · refine ⟨hs.heap, hs.context, { hs.activation with temps := fun u y hy => ?_ }⟩
    simp only [hts] at hy
    split at hy
    · cases hy
      exact hv
    · exact hs.activation.temps u y hy
  · exact { hs with heap := hs.heap.writeLocal hv hk }

theorem setVisibility {v : Visibility} {d : Context} (hd : s.context.setVisibility? v = some d) :
    d.Among c.population := by
  obtain ⟨f, fs, hf, rfl⟩ := Context.setVisibility?_eq_some hd
  have hframes := hs.context
  rw [Context.Among, hf, List.forall_mem_cons] at hframes
  exact List.forall_mem_cons.2 ⟨{ hframes.1 with }, hframes.2⟩

theorem captureScope : s.captureScope.2.Recorded c := by
  rcases s.captureScope_cases with h | ⟨parent, -, -, h⟩ <;> rw [h]
  · exact hs
  · exact ⟨hs.heap.newScope s.activation.body.scope (some parent), hs.context,
      { hs.activation with }⟩

theorem newBlock (body : Body) {f : Frame} (hf : f.Among c.population) :
    (s.newBlock body f).1.Among c.population ∧ (s.newBlock body f).2.Recorded c :=
  ⟨⟨hf.module, hs.captureScope.activation.receiver⟩,
    { hs.captureScope with
      heap := hs.captureScope.heap.newBlock body s.captureScope.2.activation.receiver
        s.captureScope.1 f.module f.visibility }⟩

end Site.Recorded

/-! ### Instructions -/

/-- A failure without a value leads to nothing. -/
theorem Failure.among_of_quiet {p : Population} {f : Failure} (hf : f.raised? = none) :
    f.Among p := by
  cases f with
  | raised v => cases hf
  | _ => exact trivial

namespace Census

/-- To be recorded, and to end in a census that may be larger. -/
def invariant (c : Census) : Invariant where
  site := Site.Recorded c
  value := Value.Among c.population
  frame := Frame.Among c.population
  outcome o t := ∃ c', c.Grows c' ∧ o.Among c'.population ∧ t.Recorded c'
  failure f t := ∃ c', c.Grows c' ∧ f.Among c'.population ∧ t.Recorded c'

theorem invariant_reads (c : Census) : c.invariant.Reads where
  supply n hs := { hs with heap := hs.heap.supply n }
  quiet hs hf := ⟨c, .refl c, Failure.among_of_quiet hf, hs⟩
  atomic {v} hv := by cases v <;> first | exact trivial | cases hv
  array _ _ hvs := Value.amongAll_iff.2 hvs
  load hs hv := hs.among.load hv
  receiver hs := hs.activation.receiver
  argument hs := hs.activation.args
  scopeModule hs hm := hs.among.scopeModule hm
  frame hs hf := hs.among.frame hf
  block hf hb := hf.block? _ hb
  constant _ _ _ hs hv := hs.heap.among.searchConstant hv

theorem invariant_lawful (c : Census) (i : Instr) : c.invariant.Lawful i where
  toReads := c.invariant_reads
  next hs := ⟨c, .refl c, trivial, hs⟩
  complete hs hv := ⟨c, .refl c, hv, hs⟩
  returns _ hs hv := ⟨c, .refl c, hv, hs⟩
  raise _ _ hs hv := ⟨c, .refl c, hv, hs⟩
  store _ hs hv ht := ⟨c, .refl c, trivial, hs.store hv ht⟩
  goTo _ hs _ := ⟨c, .refl c, trivial, { hs with activation := { hs.activation with } }⟩
  dispatch {s k} := fun _ hs hv hvs hb hk => by
    obtain ⟨d, hd, hq, hk⟩ := hs.heap.dispatched hv hvs hb (Heap.dispatch_dispatched hk)
    have ht : Site.Recorded d { s with heap := k } :=
      ⟨hk, hs.context.mono hd.within, hs.activation.mono hd.within⟩
    refine Invariant.ends_await (w := c.invariant)
      (fun f hf => ⟨d, hd, Failure.among_of_quiet hf, ht⟩) ?_ ?_
    · rintro v rfl t hstore
      exact ⟨d, hd, trivial, ht.store hq hstore⟩
    · rintro j rfl
      exact ⟨d, hd, hq, ht⟩
  define {s k m} := fun _ hs hv hx hk => by
    obtain ⟨d, hd, hm, hk⟩ := hs.heap.define hv hx hk
    have hmethod : (Value.method m).Among d.population := Census.module_among hm
    have ht : Site.Recorded d { s with heap := k } :=
      ⟨hk, hs.context.mono hd.within, hs.activation.mono hd.within⟩
    exact Invariant.ends_store (w := c.invariant)
      (fun f hf => ⟨d, hd, Failure.among_of_quiet hf, ht⟩) fun t hstore =>
        ⟨d, hd, trivial, ht.store hmethod hstore⟩
  defineMethod {s body f} := fun _ hs hf => by
    have hmodule := (hs.among.frame hf).module
    exact ⟨c, .refl c, trivial, { hs with heap :=
      (hs.heap.newMethod body f.visibility f.module).addMethod hmodule.self _ hmodule }⟩
  setVisibility _ hs hd := ⟨c, .refl c, trivial, { hs with context := hs.setVisibility hd }⟩
  putConst _ hs _ hv := ⟨c, .refl c, trivial, { hs with heap := hs.heap.setConstant _ _ hv }⟩
  yield _ hs hb hvs := ⟨c, .refl c, BlockOf.invocation_among hvs hb, hs⟩
  processModuleBody {s m} := fun _ hs hm hj => by
    have hmodule : (Value.module m.module).Among c.population := hm
    exact ⟨c, .refl c,
      Method.invocation_among (by rintro v ⟨⟩) hmodule (by rintro b ⟨⟩) hm hj, hs⟩

end Census

/-- An instruction ends at a recorded site, with what belongs to the census there. -/
theorem execute_recorded {c : Census} (i : Instr) {s : Site} (hs : s.Recorded c) :
    c.invariant.Ends (i.execute s) :=
  (c.invariant_lawful i).execute hs fun _ body _ _ hf => hs.newBlock body (hs.among.frame hf)

end ObjectIr
