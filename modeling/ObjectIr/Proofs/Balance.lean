import ObjectIr.Proofs.Entries

/-!
# Activations leave the stacks as they found them

Each activation on the stacks has one frame there, and one scope unless its body goes without one.
So the context under a list of active bodies is determined by the context before the run, by these
bodies and by all the activations entered so far (`Context.Balanced`). Entering and leaving keep
this, and an instruction in between changes neither counts nor older frames. When a run ends, no
activation is left, and what the context has gained is the counts (`run_balanced`).
-/

namespace ObjectIr

/-- How many scopes the bodies have on the stack. -/
def scopesOf (bodies : List Body) : Nat := bodies.countP Body.popsScope

theorem scopesOf_append (bs cs : List Body) : scopesOf (bs ++ cs) = scopesOf bs + scopesOf cs :=
  List.countP_append

theorem scopesOf_cons (b : Body) (bs : List Body) :
    scopesOf (b :: bs) = scopesOf bs + scopesOf [b] := by
  rw [← List.singleton_append, scopesOf_append, Nat.add_comm]

theorem scopesOf_singleton {b : Body} {pops : Bool} (h : b.popsScope = pops) :
    scopesOf [b] = if pops then 1 else 0 := by
  rw [scopesOf, List.countP_singleton, h]

/-- The context of a run, given the one before it, what was entered since and what is active. -/
structure Context.Balanced (c base : Context) (entered : List Invocation) (bodies : List Body) :
    Prop where
  frames : c.frames.drop bodies.length = base.frames
  frameDepth : c.frames.length = bodies.length + base.frames.length
  scopes : c.scopes.drop (scopesOf bodies) = base.scopes
  scopeDepth : c.scopes.length = scopesOf bodies + base.scopes.length
  framePushes : c.stats.framePushes = base.stats.framePushes + entered.length
  framePops : c.stats.framePops + bodies.length = base.stats.framePops + entered.length
  scopePushes : c.stats.scopePushes =
    base.stats.scopePushes + scopesOf (entered.map Invocation.body)
  scopePops : c.stats.scopePops + scopesOf bodies =
    base.stats.scopePops + scopesOf (entered.map Invocation.body)
  allocations : c.stats.scopeAllocations =
    base.stats.scopeAllocations + entered.countP Invocation.allocates

theorem Invocation.settleIn_context (i : Invocation) (h : Heap) (c : Context) :
    ∃ scopes : List ScopeEntry, scopes.length = scopesOf [i.body] ∧
      (i.settleIn h c).2.2 = { c with
        scopes := scopes ++ c.scopes
        stats := { c.stats with
          scopePushes := c.stats.scopePushes + scopesOf [i.body]
          scopeAllocations := c.stats.scopeAllocations + if i.allocates then 1 else 0 } } := by
  rcases i.settleIn_cases h c with
    ⟨ha, hp, hset⟩ | ⟨ha, parent, -, ⟨hp, hset⟩ | ⟨hp, hset⟩⟩ | ⟨ha, -, hp, hset⟩
  · rw [hset, ha, scopesOf_singleton hp]
    exact ⟨[⟨_, .allocated⟩], rfl, rfl⟩
  · rw [hset, ha, scopesOf_singleton hp]
    exact ⟨[⟨parent, .reused⟩], rfl, rfl⟩
  · rw [hset, ha, scopesOf_singleton hp]
    exact ⟨[], rfl, rfl⟩
  · rw [hset, ha, scopesOf_singleton hp]
    exact ⟨[], rfl, rfl⟩

theorem enter_frames {limit : Nat} {h : Heap} {c : Context} {i : Invocation} {s : Site}
    (hs : enter limit h c i = .ok s) : s.context.frames = i.frame :: c.frames := by
  obtain ⟨scopes, -, hsettled⟩ := i.settleIn_context h (c.withFrame i.frame)
  rw [enter_eq_ok hs, hsettled]
  rfl

theorem leave_eq {b : Body} {c : Context} (hf : 0 < c.frames.length)
    (hs : scopesOf [b] ≤ c.scopes.length) : leave b c = { c with
      frames := c.frames.tail
      scopes := c.scopes.drop (scopesOf [b])
      stats := { c.stats with
        framePops := c.stats.framePops + 1
        scopePops := c.stats.scopePops + scopesOf [b] } } := by
  obtain ⟨f, fs, hfs⟩ := List.exists_cons_of_length_pos hf
  cases hp : b.popsScope with
  | false =>
    rw [scopesOf_singleton hp, leave, hp, if_neg Bool.false_ne_true, Context.popFrame, hfs]
    rfl
  | true =>
    rw [scopesOf_singleton hp] at hs ⊢
    obtain ⟨s, ss, hss⟩ := List.exists_cons_of_length_pos (Nat.lt_of_succ_le hs)
    rw [leave, hp, if_pos rfl, Context.popScope, hss, Context.popFrame]
    simp only [hfs]
    rfl

namespace Context.Balanced

variable {base c : Context} {entered : List Invocation} {b : Body} {bodies : List Body}

theorem start (base : Context) : base.Balanced base [] [] := by
  refine ⟨rfl, ?_, rfl, ?_, rfl, rfl, rfl, rfl, rfl⟩ <;> simp [scopesOf]

theorem evolves {s t : Site} (h : s.context.Balanced base entered (b :: bodies))
    (hst : s.Evolves t) : t.context.Balanced base entered (b :: bodies) where
  frames := by
    have hs := h.frames
    rw [List.length_cons, ← List.drop_tail] at hs ⊢
    rw [hst.frames, hs]
  frameDepth := by rw [hst.depth, h.frameDepth]
  scopes := by rw [hst.scopes, h.scopes]
  scopeDepth := by rw [hst.scopes, h.scopeDepth]
  framePushes := by rw [hst.stats, h.framePushes]
  framePops := by rw [hst.stats, h.framePops]
  scopePushes := by rw [hst.stats, h.scopePushes]
  scopePops := by rw [hst.stats, h.scopePops]
  allocations := by rw [hst.stats, h.allocations]

/-- An activation that is entered pushes its frame, and its scope if it has one. -/
theorem enter {limit : Nat} {h : Heap} (hc : c.Balanced base entered bodies) {i : Invocation}
    {s : Site} (hs : enter limit h c i = .ok s) :
    s.context.Balanced base (entered ++ [i]) (i.body :: bodies) := by
  obtain ⟨scopes, hlength, hsettled⟩ := i.settleIn_context h (c.withFrame i.frame)
  have hentered : scopesOf ((entered ++ [i]).map Invocation.body) =
      scopesOf (entered.map Invocation.body) + scopesOf [i.body] := by
    rw [List.map_append, scopesOf_append, List.map_singleton]
  rw [enter_eq_ok hs, hsettled]
  exact {
    frames := by
      rw [List.length_cons]
      exact hc.frames
    frameDepth := by
      have hdepth := hc.frameDepth
      simp only [Context.withFrame, List.length_cons]
      omega
    scopes := by
      rw [scopesOf_cons i.body bodies, Nat.add_comm, ← List.drop_drop, ← hlength, List.drop_left]
      exact hc.scopes
    scopeDepth := by
      have hdepth := hc.scopeDepth
      rw [scopesOf_cons i.body bodies, List.length_append, hlength]
      simp only [Context.withFrame]
      omega
    framePushes := by
      have hpushes := hc.framePushes
      simp only [Context.withFrame, List.length_append, List.length_singleton]
      omega
    framePops := by
      have hpops := hc.framePops
      simp only [Context.withFrame, List.length_append, List.length_cons, List.length_nil]
      omega
    scopePushes := by
      have hpushes := hc.scopePushes
      rw [hentered]
      simp only [Context.withFrame]
      omega
    scopePops := by
      have hpops := hc.scopePops
      rw [hentered, scopesOf_cons i.body bodies]
      simp only [Context.withFrame]
      omega
    allocations := by
      have hallocations := hc.allocations
      rw [List.countP_append, List.countP_singleton]
      simp only [Context.withFrame]
      omega }

theorem leave (h : c.Balanced base entered (b :: bodies)) :
    (leave b c).Balanced base entered bodies := by
  obtain ⟨hframes, hframeDepth, hscopes, hscopeDepth, hframePushes, hframePops, hscopePushes,
    hscopePops, hallocations⟩ := h
  rw [List.length_cons] at hframes hframeDepth hframePops
  rw [scopesOf_cons b bodies] at hscopes hscopeDepth hscopePops
  rw [leave_eq (by omega) (by omega)]
  exact {
    frames := by rw [List.drop_tail, hframes]
    frameDepth := by
      rw [List.length_tail]
      omega
    scopes := by rw [List.drop_drop, Nat.add_comm, hscopes]
    scopeDepth := by
      rw [List.length_drop]
      omega
    framePushes := hframePushes
    framePops := by
      simp only
      omega
    scopePushes := hscopePushes
    scopePops := by
      simp only
      omega
    allocations := hallocations }

end Context.Balanced

namespace Machine

def bodies (m : Machine) : List Body := m.active.map Activation.body

theorem GoesOn.balanced {base : Context} {entered : List Invocation} {s : Site} {cs : List Caller}
    {m : Machine} (hm : GoesOn s cs m)
    (h : s.context.Balanced base entered
      (s.activation.body :: (cs.map Caller.activation).map Activation.body)) :
    m.context.Balanced base entered m.bodies := by
  obtain ⟨t, hst, -, hcontext, -, hactive⟩ := hm.active
  rw [hcontext, Machine.bodies, hactive, List.map_cons, hst.body]
  exact h.evolves hst

theorem step_balanced (limit : Nat) {base : Context} {entered : List Invocation} {m : Machine}
    (h : m.context.Balanced base entered m.bodies) :
    (m.step limit).context.Balanced base (entered ++ (m.entering? limit).toList)
      (m.step limit).bodies := by
  cases hcontrol : m.control with
  | finished r =>
    have hstep : m.step limit = m := by rw [step, hcontrol]
    have hentering : m.entering? limit = none := by rw [entering?, next?, hcontrol]
    rw [hstep, hentering]
    simpa using h
  | leaving a r =>
    have hstep : m.step limit = resume m.heap (leave a.body m.context) (a.settle r) m.callers := by
      rw [step, hcontrol]
    have hentering : m.entering? limit = none := by rw [entering?, next?, hcontrol]
    rw [Machine.bodies, active, hcontrol, List.map_cons] at h
    rw [hstep, hentering, Option.toList_none, List.append_nil]
    have hleft := h.leave
    rcases resume_cases m.heap (leave a.body m.context) (a.settle r) m.callers with
      ⟨hcs, hr⟩ | ⟨caller, cs, hcs, hgoes⟩
    · rw [hcs] at hleft
      rw [hr]
      exact hleft
    · rw [hcs] at hleft
      exact hgoes.balanced hleft
  | running a =>
    rw [Machine.bodies, active, hcontrol, List.map_cons] at h
    obtain ⟨pc, ⟨hentering, hgoes⟩ | ⟨i, t, callee, r, hentering, hst, hcallee, hstep⟩⟩ :=
      step_running limit hcontrol
    · rw [hentering, Option.toList_none, List.append_nil]
      exact hgoes.balanced h
    · have hbodies : (m.step limit).bodies = i.body :: t.activation.body ::
          (m.callers.map Caller.activation).map Activation.body := by
        rw [hstep, Machine.bodies, active_runningAt, List.map_cons, enter_eq_ok hcallee]
        rfl
      rw [hbodies, hentering, hst.body]
      rw [hstep]
      exact (h.evolves hst).enter hcallee

/-- The activations that the first steps enter, in order. -/
def entered (limit n : Nat) (m : Machine) : List Invocation :=
  (List.range n).flatMap fun k => ((m.after limit k).entering? limit).toList

theorem entered_succ (limit n : Nat) (m : Machine) :
    m.entered limit (n + 1) =
      m.entered limit n ++ ((m.after limit n).entering? limit).toList := by
  rw [entered, List.range_succ, List.flatMap_append, List.flatMap_singleton, ← entered]

theorem after_balanced (limit n : Nat) {base : Context} {before : List Invocation} {m : Machine}
    (h : m.context.Balanced base before m.bodies) :
    (m.after limit n).context.Balanced base (before ++ m.entered limit n)
      (m.after limit n).bodies := by
  induction n with
  | zero => simpa [entered, after_zero] using h
  | succ n ih =>
    rw [entered_succ, after_succ, ← List.append_assoc]
    exact step_balanced limit ih

/-- Each activation under way has a frame of its own on the stack. -/
def Framed (m : Machine) : Prop := m.active.length ≤ m.context.frames.length

theorem Framed.frame {m : Machine} (h : m.Framed) {a : Activation} (ha : m.control = .running a) :
    ∃ f, m.context.currentFrame? = some f := by
  rw [Framed, active, ha] at h
  obtain ⟨f, fs, hfs⟩ := List.exists_cons_of_length_pos (Nat.lt_of_lt_of_le (Nat.succ_pos _) h)
  exact ⟨f, by rw [Context.currentFrame?, hfs]; rfl⟩

/-! ### Refused calls -/

/-- The next instruction calls with a wrong number of arguments, or at the limit of frames. -/
def Refused (limit : Nat) (m : Machine) : Prop :=
  ∃ i s t, m.next? = some (i, s) ∧
    ((∃ given expected, i.execute s = .error (.arguments given expected) t) ∨
      ∃ r inv, i.execute s = .ok (.call r inv) t ∧ limit ≤ t.context.frameDepth)

/-- A refused call enters nothing, counts nothing and leaves the same bodies active. -/
theorem step_refused {limit : Nat} {m : Machine} (h : m.Refused limit) :
    m.entering? limit = none ∧ (m.step limit).context.stats = m.context.stats ∧
      (m.step limit).bodies = m.bodies := by
  obtain ⟨i, s, t, hnext, hrefused⟩ := h
  have hentering : m.entering? limit = none := by
    rw [entering?, hnext]
    rcases hrefused with ⟨given, expected, he⟩ | ⟨r, inv, he, hdepth⟩
    · simp only [he]
    · simp only [he, enter_eq, if_pos hdepth]
  refine ⟨hentering, ?_⟩
  obtain ⟨heap, context, control, callers⟩ := m
  cases control with
  | running a =>
    obtain ⟨pc, ⟨-, hgoes⟩ | ⟨inv, t, callee, r, hentering', -⟩⟩ :=
      step_running (m := ⟨heap, context, .running a, callers⟩) limit rfl
    · obtain ⟨t, hst, -, hcontext, -, hactive⟩ := hgoes.active
      rw [hcontext, Machine.bodies, hactive, List.map_cons, hst.body]
      exact ⟨hst.stats, rfl⟩
    · rw [hentering] at hentering'
      cases hentering'
  | _ => cases hnext

end Machine

namespace Entry

/-- The activations that a run enters, the outermost first. -/
def entered (limit : Nat) (h : Heap) (c : Context) (e : Entry) (fuel : Nat) : List Invocation :=
  (e.entering? limit h c).toList ++ (e.start limit h c).entered limit fuel

/-- The entry calls with a wrong number of arguments, or at the limit of frames. -/
def Refused (limit : Nat) (h : Heap) (c : Context) (e : Entry) : Prop :=
  (∃ given expected, e.reply h c = .error (.arguments given expected)) ∨
    ∃ i k, e.reply h c = .ok (.invoke i, k) ∧ limit ≤ c.frameDepth

theorem start_balanced (limit : Nat) (h : Heap) (c : Context) (e : Entry) :
    (e.start limit h c).context.Balanced c (e.entering? limit h c).toList
      (e.start limit h c).bodies := by
  rcases e.start_cases limit h c with ⟨hn, hc, r, hr⟩ | ⟨i, k, s, -, hi, hs, hstart⟩
  · rw [hn, hc, Machine.bodies, Machine.active, hr]
    exact .start c
  · have hbodies : (e.start limit h c).bodies = [i.body] := by
      rw [hstart, Machine.bodies, Machine.active_runningAt, enter_eq_ok hs]
      rfl
    rw [hbodies, hi, hstart]
    exact (Context.Balanced.start c).enter hs

theorem after_framed (limit : Nat) (h : Heap) (c : Context) (e : Entry) (n : Nat) :
    ((e.start limit h c).after limit n).Framed := by
  have hdepth := (Machine.after_balanced limit n (e.start_balanced limit h c)).frameDepth
  rw [Machine.bodies, List.length_map] at hdepth
  rw [Machine.Framed, hdepth]
  exact Nat.le_add_right _ _

theorem entered_refused {limit : Nat} {h : Heap} {c : Context} {e : Entry}
    (he : e.Refused limit h c) (fuel : Nat) : e.entered limit h c fuel = [] ∧
      ∀ r, (e.start limit h c).run limit fuel = some r → r.context = c := by
  have hentering : e.entering? limit h c = none := by
    rw [entering?]
    rcases he with ⟨given, expected, hr⟩ | ⟨i, k, hr, hdepth⟩
    · simp only [hr]
    · simp only [hr, enter_eq, if_pos hdepth]
  rcases e.start_cases limit h c with ⟨-, hc, o, ho⟩ | ⟨i, k, s, -, hi, -⟩
  · obtain ⟨r, hr⟩ : ∃ r, (e.start limit h c).result? = some r := by
      rw [Machine.result?, ho]
      exact ⟨_, rfl⟩
    have hstays : ∀ n, (e.start limit h c).after limit n = e.start limit h c :=
      Machine.after_of_result hr
    refine ⟨?_, fun r' hr' => ?_⟩
    · rw [entered, hentering, Option.toList_none, List.nil_append, Machine.entered,
        List.flatMap_eq_nil_iff]
      intro n _
      rw [hstays, Machine.entering?, Machine.next?, ho]
      rfl
    · rw [Machine.run_eq_after, hstays] at hr'
      rw [← (Machine.control_of_result hr').2.2, hc]
  · rw [hentering] at hi
    cases hi

/-- Within reach of built code, only built code is entered. -/
theorem entered_built {limit : Nat} {h : Heap} (hh : h.Vetted builtCode) {c : Context}
    (hc : c.Vetted builtCode) {e : Entry} (he : e.Vetted builtCode) (fuel : Nat) :
    ∀ i ∈ e.entered limit h c fuel, i.body.Built := by
  have hafter : ∀ n, ((e.start limit h c).after limit n).Vetted builtCode := by
    intro n
    induction n with
    | zero => exact e.start_vetted limit hh hc he
    | succ n ih =>
      rw [Machine.after_succ]
      exact step_vetted builtCode_closed limit ih fun _ _ _ _ => trivial
  intro i hi
  rw [entered, List.mem_append, Option.mem_toList, Machine.entered, List.mem_flatMap] at hi
  rcases hi with hi | ⟨n, -, hi⟩
  · exact (entering_vetted hh he hi).body
  · rw [Option.mem_toList] at hi
    exact (ObjectIr.entering_vetted builtCode_closed (hafter n) hi).body

end Entry

/--
When a run ends, in whatever way, both stacks are as they were before it. Frames were pushed and
popped once for each activation entered, scopes once for each whose body has one, and scopes were
made for those that push a new one or have no parent's to reuse. Refused calls count as nothing.
-/
theorem run_balanced {limit fuel : Nat} {h : Heap} {c : Context} {e : Entry} {r : Result}
    (hh : h.Vetted builtCode) (hc : c.Vetted builtCode) (he : e.Vetted builtCode)
    (hr : (e.start limit h c).run limit fuel = some r) :
    r.context.frames = c.frames ∧ r.context.scopes = c.scopes ∧
      r.context.stats =
        { framePushes := c.stats.framePushes + (e.entered limit h c fuel).length
          framePops := c.stats.framePops + (e.entered limit h c fuel).length
          scopePushes := c.stats.scopePushes +
            (e.entered limit h c fuel).countP fun i => !i.body.isEliminated
          scopePops := c.stats.scopePops +
            (e.entered limit h c fuel).countP fun i => !i.body.isEliminated
          scopeAllocations := c.stats.scopeAllocations +
            (e.entered limit h c fuel).countP fun i =>
              i.body.pushesScope || (i.body.reusesScope && i.parent?.isNone) } ∧
      (∀ n, ((e.start limit h c).after limit n).Refused limit →
        ((e.start limit h c).after limit n).entering? limit = none ∧
          ((e.start limit h c).after limit (n + 1)).context.stats =
            ((e.start limit h c).after limit n).context.stats ∧
          ((e.start limit h c).after limit (n + 1)).bodies =
            ((e.start limit h c).after limit n).bodies) ∧
      (e.Refused limit h c → e.entered limit h c fuel = [] ∧ r.context = c) := by
  have hbalanced := Machine.after_balanced limit fuel (e.start_balanced limit h c)
  have hend := hr
  rw [Machine.run_eq_after] at hend
  obtain ⟨hcontrol, -, hcontext⟩ := Machine.control_of_result hend
  have hbodies : ((e.start limit h c).after limit fuel).bodies = [] := by
    rw [Machine.bodies, Machine.active, hcontrol]
    rfl
  rw [hbodies, hcontext] at hbalanced
  have hscopes : scopesOf ((e.entered limit h c fuel).map Invocation.body) =
      (e.entered limit h c fuel).countP fun i => !i.body.isEliminated := by
    rw [scopesOf, List.countP_map]
    refine List.countP_congr fun i hi => ?_
    rw [Function.comp, (Entry.entered_built hh hc he fuel i hi).popsScope_eq]
  obtain ⟨hframes, -, hscopeStack, -, h1, h2, h3, h4, h5⟩ := hbalanced
  refine ⟨hframes, hscopeStack, ?_, fun n hn => ?_, fun hrefused => ?_⟩
  · rw [← Entry.entered] at h1 h2 h3 h4 h5
    rw [hscopes] at h3 h4
    generalize r.context.stats = stats at *
    obtain ⟨framePushes, framePops, scopePushes, scopePops, allocations⟩ := stats
    exact Stats.mk.injEq .. ▸ ⟨h1, h2, h3, h4, h5⟩
  · rw [Machine.after_succ]
    exact Machine.step_refused hn
  · obtain ⟨hnone, hall⟩ := Entry.entered_refused hrefused fuel
    exact ⟨hnone, hall r hr⟩

/-- A block without a scope of its own, which reads a local of the script around it. -/
def readingBlock : Draft where
  name := "block"
  scope := ⟨⟨1, .closure, []⟩, [⟨0, .script, ["x"]⟩]⟩
  flags := ⟨[.scopeEliminated]⟩
  code := [.ret (.var (.lexical "x" 1 0))]

/-- A script that makes the block and yields to it. -/
def yieldingScript : Draft where
  name := "<main>"
  scope := ⟨⟨0, .script, ["x"]⟩, []⟩
  code := [
    .buildClosure (.temp ⟨.generic, 0⟩) (readingBlock.body 1 {}),
    .yield (.temp ⟨.generic, 1⟩) (.var (.temp ⟨.generic, 0⟩)) [],
    .ret (.var (.temp ⟨.generic, 1⟩))]

theorem yieldingScript_built : (yieldingScript.body 0 { generic := 2 }).Built := by
  have hnested : (yieldingScript.body 0 { generic := 2 }).nested = [readingBlock.body 1 {}] := rfl
  intro b hb
  rw [hnested, List.mem_cons, List.mem_singleton] at hb
  rcases hb with rfl | rfl
  · exact ⟨yieldingScript, 0, rfl⟩
  · exact ⟨readingBlock, 1, rfl⟩

theorem run_balanced_yieldingScript :
    (yieldingScript.body 0 { generic := 2 }).Built ∧
      ∃ r, ((Entry.script (yieldingScript.body 0 { generic := 2 })).start 8 .initial {}).run 8 8 =
        some r ∧ r.context.frames = [] ∧ r.context.scopes = [] := by
  obtain ⟨r, hr⟩ := Option.isSome_iff_exists.1 (show Option.isSome (Machine.run 8 8
    ((Entry.script (yieldingScript.body 0 { generic := 2 })).start 8 .initial {})) = true by
      decide +kernel)
  have he : (Entry.script (yieldingScript.body 0 { generic := 2 })).Vetted builtCode :=
    yieldingScript_built
  have h := run_balanced (Heap.initial_vetted builtCode) (by rintro f ⟨⟩) he hr
  exact ⟨yieldingScript_built, r, hr, h.1, h.2.1⟩

end ObjectIr
