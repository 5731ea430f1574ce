import Mathlib.Data.List.Nodup
import ObjectIr.Proofs.Sessions.Moves

/-!
# Non-local returns

A closure that returns for its method aims at a scope: the innermost around it that a script or a
method laid out. Between the closure and that scope there are only scopes of closures, one for each
activation that led to it, whatever their flags; so the scope aimed at is the one that stands for
the home (`History.Aligned.find_home`). No other activation owns it (`History.Fits.owns_iff`), and
the activations leave one after another until the home completes, or until none is left
(`Machine.unwinds`, `Machine.unwound`).
-/

namespace ObjectIr

/-! ### Unwinding -/

namespace Machine

/--
The first activations leave one after another, with the same end: each step takes one off, and no
instruction is carried out.
-/
def Unwinds (limit : Nat) (m : Machine) (u : Unwind) (n : Nat) : Prop :=
  ∀ k < n, ∀ a, m.active[k]? = some a → (m.after limit k).control = .leaving a (.error u)

variable {limit : Nat} {m : Machine} {a : Activation} {u : Unwind}

theorem step_leaving (hm : m.control = .leaving a (.error u))
    (ha : a.settle (.error u) = .error u) :
    (m.callers = [] → (m.step limit).control = .finished (.error u.toFailure)) ∧
      ∀ c cs, m.callers = c :: cs →
        (m.step limit).control = .leaving c.activation (.error u) ∧
          (m.step limit).callers = cs := by
  rw [step, hm]
  simp only
  rw [ha]
  refine ⟨fun hcs => ?_, fun c cs hcs => ?_⟩
  · rw [hcs]
    rfl
  · rw [hcs]
    exact ⟨rfl, rfl⟩

theorem step_home {target : Nat} {v : Value}
    (hm : m.control = .leaving a (.error (.return target v)))
    (hkind : a.body.kind.isReturnTarget = true) (howns : a.owns target = true) :
    m.step limit = step limit { m with control := .leaving a (.ok v) } := by
  have hsettle : a.settle (.error (.return target v)) = .ok (a.result v) := by
    rw [Activation.settle, hkind, howns]
    rfl
  rw [step, step, hm]
  simp only
  rw [hsettle]
  rfl

/-- As long as no activation takes the end for its own, the next one gets it. -/
theorem unwinds (limit : Nat) (hm : m.control = .leaving a (.error u)) (n : Nat)
    (hpass : ∀ k b, k < n → m.active[k]? = some b → b.settle (.error u) = .error u) :
    ∀ b, m.active[n]? = some b → (m.after limit n).control = .leaving b (.error u) ∧
      (m.after limit n).callers = m.callers.drop n := by
  have hactive : m.active = a :: m.callers.map Caller.activation := by rw [active, hm]
  induction n with
  | zero =>
    intro b hb
    rw [hactive] at hb
    cases hb
    exact ⟨hm, rfl⟩
  | succ n ih =>
    intro b hb
    rw [hactive, List.getElem?_cons_succ, List.getElem?_map, Option.map_eq_some_iff] at hb
    obtain ⟨c, hc, rfl⟩ := hb
    have hlt : n < m.callers.length := (List.getElem?_eq_some_iff.1 hc).1
    obtain ⟨b', hb'⟩ : ∃ b', m.active[n]? = some b' := by
      have hless : n < m.active.length := by
        rw [hactive, List.length_cons, List.length_map]
        omega
      exact ⟨_, List.getElem?_eq_getElem hless⟩
    obtain ⟨hcontrol, hcallers⟩ := ih (fun k b hk => hpass k b (Nat.lt_succ_of_lt hk)) b' hb'
    have hdrop : m.callers.drop n = c :: m.callers.drop (n + 1) := by
      rw [List.drop_eq_getElem_cons hlt, (List.getElem?_eq_some_iff.1 hc).2]
    rw [after_succ]
    exact (step_leaving hcontrol (hpass n b' (Nat.lt_succ_self n) hb')).2 c _ (hcallers.trans hdrop)

/-- When no activation takes the end for its own, the run is finished with it. -/
theorem unwound (limit : Nat) (hm : m.control = .leaving a (.error u))
    (hpass : ∀ b ∈ m.active, b.settle (.error u) = .error u) :
    m.Unwinds limit u m.active.length ∧
      (m.after limit m.active.length).control = .finished (.error u.toFailure) := by
  have hactive : m.active = a :: m.callers.map Caller.activation := by rw [active, hm]
  have hpasses : ∀ (n k : Nat) (b : Activation), k < n → m.active[k]? = some b →
      b.settle (.error u) = .error u := fun n k b _ hb => hpass b (List.mem_of_getElem? hb)
  refine ⟨fun k _ b hb => (unwinds limit hm k (hpasses k) b hb).1, ?_⟩
  have hlength : m.active.length = m.callers.length + 1 := by
    rw [hactive, List.length_cons, List.length_map]
  obtain ⟨b, hb⟩ : ∃ b, m.active[m.callers.length]? = some b := by
    have hless : m.callers.length < m.active.length := by omega
    exact ⟨_, List.getElem?_eq_getElem hless⟩
  obtain ⟨hcontrol, hcallers⟩ := unwinds limit hm m.callers.length (hpasses _) b hb
  rw [hlength, after_succ]
  refine (step_leaving hcontrol (hpass b (List.mem_of_getElem? hb))).1 ?_
  rw [hcallers, List.drop_length]

end Machine

/-! ### The scope aimed at -/

namespace History

variable {h : History}

/-- Past closures that have scopes, the first cell of a script or method is the home's. -/
theorem Aligned.find_home {home : Entrant} {rest : List Entrant}
    (hhome : home.body.kind.isReturnTarget = true) :
    ∀ {between : List Entrant} {cells : List ScopeCell},
      h.Aligned cells (between ++ home :: rest) → (∀ e ∈ between, e.body.kind = .closure) →
      (∀ e ∈ between ++ [home], e.rootless = false) →
      ∃ c, cells.find? (fun c => c.layout.kind.isReturnTarget) = some c ∧
        h.standing? home.number = some c := by
  intro between
  induction between with
  | nil =>
    intro cells ha _ hrooted
    have hroot : home.rootless = false := hrooted home (by simp)
    cases cells with
    | nil =>
      rw [List.nil_append, Aligned, hroot] at ha
      cases ha
    | cons c cs =>
      rw [List.nil_append, Aligned, hroot] at ha
      rcases ha with ha | ⟨hs, hl, -⟩
      · cases ha
      · refine ⟨c, ?_, hs⟩
        rw [List.find?_cons_of_pos]
        rw [hl]
        exact hhome
  | cons e es ih =>
    intro cells ha hclosures hrooted
    have hroot : e.rootless = false := hrooted e (by simp)
    cases cells with
    | nil =>
      rw [List.cons_append, Aligned, hroot] at ha
      cases ha
    | cons c cs =>
      rw [List.cons_append, Aligned, hroot] at ha
      rcases ha with ha | ⟨-, hl, ha⟩
      · cases ha
      · obtain ⟨d, hd, hs⟩ := ih ha (fun e he => hclosures e (List.mem_cons_of_mem _ he))
          (fun e he => hrooted e (List.mem_cons_of_mem _ he))
        refine ⟨d, ?_, hs⟩
        rw [List.find?_cons_of_neg, hd]
        have hkind : c.layout.kind = .closure := by
          rw [hl]
          exact hclosures e List.mem_cons_self
        simp [hkind, BodyKind.isReturnTarget]

/-- An active activation owns the scope that stands for an entrant only if it is this entrant. -/
theorem Fits.owns_iff {p : Body → Prop} {k : Heap} (hs : h.Sound p k) {l : Lineage} {a : Activation}
    (hf : h.Fits l a) {e : Entrant} (he : e ∈ h.roster) {c : ScopeCell}
    (hc : h.standing? e.number = some c) : a.owns c.id = true ↔ l.self = e := by
  rw [hf.grounded.owns_iff, ← hf.standing]
  refine ⟨?_, ?_⟩
  · rintro ⟨d, hd, hdc⟩
    exact hs.eq_of_number hf.known he (hs.distinct _ _ _ _ hd hc hdc)
  · rintro rfl
    exact ⟨c, hc, rfl⟩

end History

theorem Activation.Grounded.returnTarget {a : Activation} {e : Entrant} (ha : a.Grounded e)
    (hkind : a.body.kind.isReturnTarget = false) {c : ScopeCell}
    (hc : a.outer.find? (fun c => c.layout.kind.isReturnTarget) = some c) :
    a.footing.scope?.bind DynamicScope.returnTarget? = some c := by
  rw [Activation.Grounded] at ha
  rw [Activation.outer] at hc
  cases hf : a.footing with
  | own s =>
    rw [hf] at ha hc
    have hown : s.cell.layout.kind.isReturnTarget = false := by
      rw [ha.2]
      exact hkind
    show s.returnTarget? = some c
    rw [DynamicScope.returnTarget?, DynamicScope.cells, List.find?_cons_of_neg (by simp [hown]), hc]
  | guest parent =>
    rw [hf] at hc
    exact hc
  | nowhere =>
    rw [hf] at hc
    cases hc

theorem execute_nonlocalRet {o : Operand} {s t : Site} {v : Value}
    (hv : Exec.value o s = .ok v t) (hkind : s.activation.body.kind.isReturnTarget = false)
    {c : ScopeCell} (hc : s.activation.footing.scope?.bind DynamicScope.returnTarget? = some c) :
    InstrOf.execute (.nonlocalRet o) s = .ok (.return c.id v) t ∧ t.activation = s.activation := by
  obtain ⟨n, -, ht⟩ := Exec.reading_eq_ok hv
  have hactivation : t.activation = s.activation := by rw [ht]
  refine ⟨?_, hactivation⟩
  rw [InstrOf.execute, Exec.bind_of_ok hv, Exec.get_bind, hactivation]
  simp only [hkind, hc]
  rfl

/-! ### Homes -/

namespace Session

variable {s : Session}

/-- It aims at the first cell around the activation that is one of a script or a method. -/
theorem Accord.nonlocalReturn (limit : Nat) {p : Body → Prop} (hs : s.Accord p) {o : Operand}
    {site t : Site} {v : Value} (hnext : s.machine.next? = some (.nonlocalRet o, site))
    (hkind : site.activation.body.kind.isReturnTarget = false) (hv : Exec.value o site = .ok v t)
    {c : ScopeCell}
    (hc : site.activation.outer.find? (fun c => c.layout.kind.isReturnTarget) = some c) :
    (∃ a, (s.machine.step limit).control = .leaving a (.error (.return c.id v))) ∧
      List.Forall₂ s.history.Fits s.history.stack (s.machine.step limit).active := by
  obtain ⟨a, hcontrol, -, rfl⟩ := Machine.next?_eq_some hnext
  have hfits := hs.follows.fits
  rw [Machine.active, hcontrol] at hfits
  obtain ⟨l, ls, hla, hls, hstack⟩ := List.forall₂_cons_right_iff.1 hfits
  obtain ⟨hexecute, hactivation⟩ :=
    execute_nonlocalRet hv hkind (hla.grounded.returnTarget hkind hc)
  rw [Machine.step_of_next hnext, hexecute, hstack]
  refine ⟨⟨_, rfl⟩, ?_⟩
  rw [Machine.follow, Machine.active_leavingAt, hactivation]
  exact .cons { hla with } hls

section Passing

variable {p : Body → Prop} (hs : s.Accord p) {home : Entrant} (hknown : home ∈ s.history.roster)
  {c : ScopeCell} (hstanding : s.history.standing? home.number = some c) (v : Value)

include hs hknown hstanding

/-- A return that aims at the home's scope passes through any other activation. -/
theorem Accord.passes {l : Lineage} {a : Activation} (hla : s.history.Fits l a)
    (hne : l.self ≠ home) : a.settle (.error (.return c.id v)) = .error (.return c.id v) := by
  have hnot : a.owns c.id = false := by
    rw [Bool.eq_false_iff]
    exact fun hown => hne ((hla.owns_iff hs.follows.sound hknown hstanding).1 hown)
  rw [Activation.settle, hnot, Bool.and_false]
  rfl

variable {as : List Activation} (hfits : List.Forall₂ s.history.Fits s.history.stack as)

include hfits

/-- The activations above the home are others, for no number stands on the stack twice. -/
theorem Accord.passes_above {d : Nat} {l : Lineage} (hl : s.history.stack[d]? = some l)
    (hself : l.self = home) {k : Nat} {a : Activation} (hk : k < d) (ha : as[k]? = some a) :
    a.settle (.error (.return c.id v)) = .error (.return c.id v) := by
  obtain ⟨l', hl', hla⟩ := History.fits_of_active hfits ha
  refine hs.passes hknown hstanding v hla fun hself' => ?_
  have hlt : d < (s.history.stack.map Lineage.number).length := by
    rw [List.length_map]
    exact (List.getElem?_eq_some_iff.1 hl).1
  refine List.nodup_iff_getElem?_ne_getElem?.1 hs.follows.nodup k d hk hlt ?_
  rw [List.getElem?_map, List.getElem?_map, hl, hl', Option.map_some, Option.map_some,
    Lineage.number, Lineage.number, hself', hself]

theorem Accord.passes_all (hgone : home ∉ s.history.stack.map Lineage.self) :
    ∀ a ∈ as, a.settle (.error (.return c.id v)) = .error (.return c.id v) := by
  intro a ha
  obtain ⟨k, hk⟩ := List.mem_iff_getElem?.1 ha
  obtain ⟨l, hl, hla⟩ := History.fits_of_active hfits hk
  refine hs.passes hknown hstanding v hla fun hself => hgone ?_
  exact List.mem_map.2 ⟨l, List.mem_of_getElem? hl, hself⟩

end Passing

/-- The value gets to the home if it is active, and else the outermost caller is told. -/
def ReturnsHome (limit : Nat) (s : Session) (home : Entrant) (v : Value) : Prop :=
  ∃ target, let m := s.machine.step limit
    (∀ d, (s.history.stack.map Lineage.self)[d]? = some home →
      m.Unwinds limit (.return target v) (d + 1) ∧
        ∃ a, m.active[d]? = some a ∧ a.body = home.body ∧
          m.after limit (d + 1) =
            Machine.step limit { m.after limit d with control := .leaving a (.ok v) }) ∧
    (home ∉ s.history.stack.map Lineage.self →
      m.Unwinds limit (.return target v) m.active.length ∧
        (m.after limit m.active.length).control =
          .finished (.error (.jump .unexpectedReturn)))

/-- A return to the first cell of a script or method gets home, whose cell this is. -/
theorem Accord.returnsHome (limit : Nat) {p : Body → Prop} (hs : s.Accord p) {o : Operand}
    {site t : Site} {v : Value} (hnext : s.machine.next? = some (.nonlocalRet o, site))
    (hkind : site.activation.body.kind.isReturnTarget = false) (hv : Exec.value o site = .ok v t)
    {c : ScopeCell}
    (hc : site.activation.outer.find? (fun c => c.layout.kind.isReturnTarget) = some c)
    {home : Entrant} (hknown : home ∈ s.history.roster)
    (hhome : home.body.kind.isReturnTarget = true)
    (hstanding : s.history.standing? home.number = some c) : s.ReturnsHome limit home v := by
  obtain ⟨⟨a, hcontrol⟩, hfits⟩ := hs.nonlocalReturn limit hnext hkind hv hc
  refine ⟨c.id, ?_⟩
  simp only
  generalize s.machine.step limit = m at hcontrol hfits
  refine ⟨fun d hd => ?_, fun hgone => ?_⟩
  · rw [List.getElem?_map, Option.map_eq_some_iff] at hd
    obtain ⟨l, hl, hself⟩ := hd
    obtain ⟨b, hb, hlb⟩ := History.fits_of_lineage hfits hl
    have habove : ∀ (k : Nat) (a : Activation), k < d → m.active[k]? = some a →
        a.settle (.error (.return c.id v)) = .error (.return c.id v) :=
      fun k a => hs.passes_above hknown hstanding v hfits hl hself
    have hbody : b.body = home.body := by rw [← hlb.body, hself]
    refine ⟨fun k hk a ha => ?_, b, hb, hbody, ?_⟩
    · exact (Machine.unwinds limit hcontrol k (fun j a hj => habove j a (by omega)) a ha).1
    · rw [Machine.after_succ]
      refine Machine.step_home (Machine.unwinds limit hcontrol d habove b hb).1 ?_ ?_
      · rw [hbody]
        exact hhome
      · exact (hlb.owns_iff hs.follows.sound hknown hstanding).2 hself
  · exact Machine.unwound limit hcontrol (hs.passes_all hknown hstanding v hfits hgone)

end Session

/--
A non-local return reaches exactly its home: if the home is active, the activations above it leave
one after another and it goes on as if it had completed with the value; if it is not, all leave and
the outermost caller is told of an unexpected return. A failure passes through all activations.
-/
theorem nonlocalReturn_reaches_home {limit : Nat} {s : Session}
    (hs : s.Reached limit fun _ => True) :
    (∀ (o : Operand) (site t : Site) (v : Value) (l : Lineage) (between rest : List Entrant)
      (home : Entrant), s.machine.next? = some (.nonlocalRet o, site) →
      site.activation.body.kind = .closure → Exec.value o site = .ok v t →
      s.history.stack.head? = some l → l.creators = between ++ home :: rest →
      (∀ e ∈ between, e.body.kind = .closure) → home.body.kind.isReturnTarget = true →
      (∀ e ∈ between ++ [home], e.rootless = false) →
      ∃ target, let m := s.machine.step limit
        (∀ d, (s.history.stack.map Lineage.self)[d]? = some home →
          m.Unwinds limit (.return target v) (d + 1) ∧
            ∃ a, m.active[d]? = some a ∧ a.body = home.body ∧
              m.after limit (d + 1) =
                Machine.step limit { m.after limit d with control := .leaving a (.ok v) }) ∧
        (home ∉ s.history.stack.map Lineage.self →
          m.Unwinds limit (.return target v) m.active.length ∧
            (m.after limit m.active.length).control =
              .finished (.error (.jump .unexpectedReturn)))) ∧
    ∀ a f, s.machine.control = .leaving a (.error (.failure f)) →
      s.machine.Unwinds limit (.failure f) s.machine.active.length ∧
        (s.machine.after limit s.machine.active.length).control = .finished (.error f) := by
  have hs := hs.accord (fun _ _ _ _ _ _ => trivial)
  refine ⟨?_, fun a f hcontrol => ?_⟩
  · intro o site t v l between rest home hnext hkind hv hl hcreators hclosures hhome hrooted
    obtain ⟨a, hcontrol, -, rfl⟩ := Machine.next?_eq_some hnext
    obtain ⟨b, hb, hlb⟩ := History.fits_of_lineage (k := 0) hs.follows.fits
      (by rw [← List.head?_eq_getElem?, hl])
    have hab : b = a := by
      rw [Machine.active, hcontrol] at hb
      exact (Option.some.inj hb).symm
    rw [hab] at hlb
    have haligned := hlb.descent.aligned
    rw [hcreators] at haligned
    obtain ⟨c, hfind, hstanding⟩ := haligned.find_home hhome hclosures hrooted
    have hknown := hlb.descent.known home (by rw [hcreators]; simp)
    exact hs.returnsHome limit hnext (by rw [hkind]; rfl) hv hfind hknown hhome hstanding
  · exact Machine.unwound limit hcontrol fun b _ => rfl

/-- A block without a scope of its own, which returns for the script around it. -/
def returningBlock : Draft where
  name := "block"
  scope := ⟨⟨1, .closure, []⟩, [⟨0, .script, []⟩]⟩
  flags := ⟨[.scopeEliminated]⟩
  code := [.nonlocalRet (.symbol "done")]

/-- A script that makes the block and yields to it. -/
def returningScript : Draft where
  name := "<main>"
  scope := ⟨⟨0, .script, []⟩, []⟩
  code := [
    .buildClosure (.temp ⟨.generic, 0⟩) (returningBlock.body 1 {}),
    .yield (.temp ⟨.generic, 1⟩) (.var (.temp ⟨.generic, 0⟩)) [],
    .ret .nil]

/-- The session where the block is about to return. -/
def returningSession : Session :=
  ((Session.start.enter 8 .initial {} (.script (returningScript.body 0 { generic := 2 }))).step
    8).step 8

theorem returningSession_reached : returningSession.Reached 8 fun _ => True := by
  have henter : Session.Leads 8 (fun _ => True) Session.start (Session.start.enter 8 .initial {}
      (.script (returningScript.body 0 { generic := 2 }))) :=
    .single (.enter rfl (.refl _) (Heap.initial_vetted _) (by rintro f ⟨⟩) trivial)
  exact (henter.tail (.step _)).tail (.step _)

theorem nonlocalReturn_reaches_home_returningSession :
    returningSession.Reached 8 (fun _ => True) ∧
      ∃ target,
        (returningSession.machine.step 8).Unwinds 8 (.return target (.symbol "done")) 2 := by
  refine ⟨returningSession_reached, ?_⟩
  obtain ⟨site, hnext, hkind⟩ : ∃ site, returningSession.machine.next? =
      some (.nonlocalRet (.symbol "done"), site) ∧ site.activation.body.kind = .closure :=
    ⟨_, rfl, rfl⟩
  obtain ⟨self, home, hstack, hhome, hrooted⟩ : ∃ self home,
      returningSession.history.stack = [⟨self, [home]⟩, ⟨home, []⟩] ∧
        home.body.kind.isReturnTarget = true ∧ home.rootless = false := ⟨_, _, rfl, rfl, rfl⟩
  obtain ⟨target, hreturn⟩ := (nonlocalReturn_reaches_home returningSession_reached).1
    (.symbol "done") site _ (.symbol "done") ⟨self, [home]⟩ [] [] home hnext hkind rfl
    (by rw [hstack]; rfl) rfl (by rintro e ⟨⟩) hhome (by simpa using hrooted)
  exact ⟨target, (hreturn.1 1 (by rw [hstack]; rfl)).1⟩

end ObjectIr
