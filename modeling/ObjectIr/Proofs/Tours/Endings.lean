import ObjectIr.Proofs.Tours.Workers

/-!
# Tours under other settings

A tour ends under a lower limit as under a higher one, or it ends earlier, for an overflow
(`Ending.Cuts`). This is so for the tours of steady programs (`cuts_tourFrom`), and also for the
program that reopens a class against its kind, which prints a failure instead of failing: where the
run before it has room for its two frames, this one does not overflow (`cuts_showReopen`).

Only the last program looks at the number of contexts. The tours that lead to it come to a stage
where its class is not defined yet (`tour_leads`), so what it adds is known (`Finale`): nothing but
the last line depends on the number, and nothing on the order in which the contexts take turns.
-/

namespace ObjectIr.Demo

open Show

variable {programs : Demo → Show Unit} {settings : Settings} {limit : Nat} {stage : Stage}
  {ds : List Demo}

/-! ### Endings -/

namespace Ending

/-- The tour failed for an overflow. -/
def Overflown (e : Ending) : Prop := ∃ d, e.trouble? = some (d, .failure .stackOverflow)

/-- An ending under the lower limit: it is the same, or an overflow with no more printed. -/
def Cuts (e e' : Ending) : Prop :=
  e = e' ∨ e.Overflown ∧ e.stage.printed <+: e'.stage.printed

end Ending

theorem tourFrom_cons_of_ok {d : Demo} {stage' : Stage}
    (h : programs d settings (stage.announce d) = .ok () stage') :
    tourFrom programs settings stage (d :: ds) = tourFrom programs settings stage' ds := by
  simp only [tourFrom, h]

theorem tourFrom_cons_of_error {d : Demo} {t : Trouble} {stage' : Stage}
    (h : programs d settings (stage.announce d) = .error t stage') :
    tourFrom programs settings stage (d :: ds) = ⟨stage', some (d, t)⟩ := by
  simp only [tourFrom, h]

/-- A tour goes on from the stage of the demonstrations before, if none of them failed. -/
theorem tourFrom_append_of_none {es : List Demo}
    (h : (tourFrom programs settings stage ds).trouble? = none) :
    tourFrom programs settings stage (ds ++ es) =
      tourFrom programs settings (tourFrom programs settings stage ds).stage es := by
  induction ds generalizing stage with
  | nil => rfl
  | cons d ds ih =>
    cases hd : programs d settings (stage.announce d) with
    | ok u stage' =>
      rw [tourFrom_cons_of_ok hd] at h ⊢
      rw [List.cons_append, tourFrom_cons_of_ok hd, ih h]
    | error t stage' =>
      rw [tourFrom_cons_of_error hd] at h
      cases h

theorem tourFrom_append_of_some {es : List Demo} {x : Demo × Trouble}
    (h : (tourFrom programs settings stage ds).trouble? = some x) :
    tourFrom programs settings stage (ds ++ es) = tourFrom programs settings stage ds := by
  induction ds generalizing stage with
  | nil => cases h
  | cons d ds ih =>
    cases hd : programs d settings (stage.announce d) with
    | ok u stage' =>
      rw [tourFrom_cons_of_ok hd] at h ⊢
      rw [List.cons_append, tourFrom_cons_of_ok hd, ih h]
    | error t stage' => rw [List.cons_append, tourFrom_cons_of_error hd, tourFrom_cons_of_error hd]

/-! ### Steady programs -/

theorem prints_tourFrom (hds : ∀ d ∈ ds, Plain (programs d)) (settings : Settings)
    (stage : Stage) : stage.printed <+: (tourFrom programs settings stage ds).stage.printed := by
  induction ds generalizing stage with
  | nil => exact List.prefix_rfl
  | cons d ds ih =>
    have hprints := (hds d List.mem_cons_self).prints settings (stage.announce d)
    have htitle : stage.printed <+: (stage.announce d).printed := List.prefix_append _ _
    cases hd : programs d settings (stage.announce d) with
    | ok u stage' =>
      rw [hd] at hprints
      rw [tourFrom_cons_of_ok hd]
      exact (htitle.trans hprints).trans
        (ih (fun d hd => hds d (List.mem_cons_of_mem _ hd)) stage')
    | error t stage' =>
      rw [hd] at hprints
      rw [tourFrom_cons_of_error hd]
      exact htitle.trans hprints

theorem threads_tourFrom (hds : ∀ d ∈ ds, Plain (programs d)) (settings : Settings)
    (threads : Nat) (stage : Stage) :
    tourFrom programs { settings with threads } stage ds = tourFrom programs settings stage ds := by
  induction ds generalizing stage with
  | nil => rfl
  | cons d ds ih =>
    have hsame := (hds d List.mem_cons_self).threads settings threads (stage.announce d)
    have hrest := ih fun d hd => hds d (List.mem_cons_of_mem _ hd)
    cases hd : programs d settings (stage.announce d) with
    | ok u stage' =>
      rw [tourFrom_cons_of_ok hd, tourFrom_cons_of_ok (hsame.trans hd), hrest]
    | error t stage' =>
      rw [tourFrom_cons_of_error hd, tourFrom_cons_of_error (hsame.trans hd)]

/-- The first demonstration has to be compared on the stage only that the tour is given. -/
theorem cuts_tourFrom_cons {d : Demo}
    (hcuts : Demo.Cuts (programs d settings (stage.announce d))
      (programs d { settings with limit } (stage.announce d)))
    (hplain : ∀ d ∈ ds, Plain (programs d))
    (hds : ∀ stage, Ending.Cuts (tourFrom programs settings stage ds)
      (tourFrom programs { settings with limit } stage ds)) :
    Ending.Cuts (tourFrom programs settings stage (d :: ds))
      (tourFrom programs { settings with limit } stage (d :: ds)) := by
  generalize hr : programs d settings (stage.announce d) = r at hcuts
  generalize hr' : programs d { settings with limit } (stage.announce d) = r' at hcuts
  cases hcuts with
  | same =>
    cases r with
    | ok u stage' =>
      rw [tourFrom_cons_of_ok hr, tourFrom_cons_of_ok hr']
      exact hds stage'
    | error t stage' =>
      rw [tourFrom_cons_of_error hr, tourFrom_cons_of_error hr']
      exact .inl rfl
  | overflow hprinted =>
    rw [tourFrom_cons_of_error hr]
    refine .inr ⟨⟨d, rfl⟩, ?_⟩
    cases r' with
    | ok u stage' =>
      rw [tourFrom_cons_of_ok hr']
      exact hprinted.trans (prints_tourFrom hplain _ stage')
    | error t stage' =>
      rw [tourFrom_cons_of_error hr']
      exact hprinted

theorem cuts_tourFrom (hds : ∀ d ∈ ds, Steady (programs d)) (hle : settings.limit ≤ limit)
    (stage : Stage) : Ending.Cuts (tourFrom programs settings stage ds)
      (tourFrom programs { settings with limit } stage ds) := by
  induction ds generalizing stage with
  | nil => exact .inl rfl
  | cons d ds ih =>
    have htail := fun d hd => hds d (List.mem_cons_of_mem _ hd)
    exact cuts_tourFrom_cons ((hds d List.mem_cons_self).cuts settings limit hle _)
      (fun d hd => (htail d hd).toPlain) (ih htail)

/-! ### The class that is reopened -/

theorem runMismatch_eq (id : Nat) (c : Context) :
    runMismatch id c = built (classScript id "Square" "Object" "sides" (.fixnum 4)) >>= fun b =>
      Show.runMachine fun limit h => (Entry.script b).start limit h c := rfl

theorem plain_runMismatch (id : Nat) (c : Context) : Plain (runMismatch id c) := by
  rw [runMismatch_eq]
  exact (Steady.built _).toPlain.bind fun _ => .runMachine _

/-- Under the lower limit the run comes to the same, or it overflows. -/
theorem runMismatch_of_le (settings : Settings) (hle : settings.limit ≤ limit) (id : Nat)
    (c : Context) (stage : Stage) :
    runMismatch id c settings stage = runMismatch id c { settings with limit } stage ∨
      ∃ r stage', runMismatch id c settings stage = .ok r stage' ∧
        r.outcome = .error .stackOverflow := by
  rw [runMismatch_eq]
  generalize classScript id "Square" "Object" "sides" (.fixnum 4) = b?
  cases b? with
  | error e =>
    have hbuilt : ∀ settings, built (.error e) settings stage =
        (.error (.build e) stage : EStateM.Result Trouble Stage Body) := fun _ => rfl
    exact .inl ((bind_of_error (hbuilt _)).trans (bind_of_error (hbuilt _)).symm)
  | ok b =>
    have hbuilt : ∀ f : Body → Show Result, (built (.ok b) >>= f) = f b := fun _ => rfl
    rw [hbuilt]
    rcases runMachine_of_le hle (.script b) c stage with hsame | ⟨r, hrun, ho⟩
    · exact .inl hsame
    · exact .inr ⟨r, _, hrun, ho⟩

theorem steady_tellFailure (r : Result) : Steady (tellFailure r) := by
  rw [tellFailure]
  cases r.outcome with
  | error f => exact .line _
  | ok v => exact .throw _

/-- Where the tour that reopens a class starts. -/
def reopening : Stage := Stage.announce {} .reopen

def overflows (r : Result) : Bool :=
  match r.outcome with
  | .error .stackOverflow => true
  | _ => false

/-- A program came to an end, and the test holds of what it gave. -/
def comesTo {α : Type} (test : α → Bool) : EStateM.Result Trouble Stage α → Bool
  | .ok a _ => test a
  | .error _ _ => false

/-- One frame is not enough for the class. -/
theorem showReopened_fails : ∀ dump, ∀ limit < 2,
    comesTo (fun _ => true) (showReopened 0 ⟨dump, 1, limit⟩ reopening) = false := by
  decide +kernel

/-- Two frames are enough for the class, and for the attempt to reopen it against its kind. -/
theorem runMismatch_settles : ∀ dump, comesTo (fun r => !overflows r)
    ((showReopened 0 >>= fun c => runMismatch (3 * classScriptSize) c) ⟨dump, 1, 2⟩ reopening) =
      true := by
  decide +kernel

theorem runMismatch_of_showReopened {c : Context} {stage : Stage}
    (hc : showReopened 0 settings reopening = .ok c stage) (hle : settings.limit ≤ limit) :
    runMismatch (3 * classScriptSize) c settings stage =
      runMismatch (3 * classScriptSize) c { settings with limit } stage := by
  have hthreads : ∀ limit, showReopened 0 ⟨settings.dump, 1, limit⟩ reopening =
      showReopened 0 { settings with limit } reopening :=
    fun limit => (steady_showReopened 0).threads { settings with limit } 1 reopening
  have htwo : 2 ≤ settings.limit := by
    by_contra hlt
    have hfails := showReopened_fails settings.dump settings.limit (Nat.lt_of_not_le hlt)
    rw [hthreads, hc] at hfails
    cases hfails
  have hsettles := runMismatch_settles settings.dump
  have hcuts :=
    (steady_showReopened 0).cuts { settings with limit := 2 } settings.limit htwo reopening
  rw [hc, ← hthreads] at hcuts
  generalize hlow : showReopened 0 ⟨settings.dump, 1, 2⟩ reopening = r at hcuts
  cases hcuts with
  | overflow =>
    rw [bind_of_error hlow] at hsettles
    cases hsettles
  | same =>
    rw [bind_of_ok hlow, (plain_runMismatch _ c).threads { settings with limit := 2 } 1] at hsettles
    have hsame : ∀ {limit : Nat}, 2 ≤ limit →
        runMismatch (3 * classScriptSize) c { settings with limit := 2 } stage =
          runMismatch (3 * classScriptSize) c { settings with limit } stage := by
      intro limit hlimit
      rcases runMismatch_of_le { settings with limit := 2 } hlimit _ c stage with
        hsame | ⟨r, stage', hr, ho⟩
      · exact hsame
      · rw [hr] at hsettles
        simp only [comesTo, overflows, ho] at hsettles
        cases hsettles
    exact (hsame htwo).symm.trans (hsame (htwo.trans hle))

theorem cuts_showReopen (hle : settings.limit ≤ limit) :
    Demo.Cuts (showReopen 0 settings reopening)
      (showReopen 0 { settings with limit } reopening) := by
  have hshow : showReopen 0 = showReopened 0 >>= fun c =>
      runMismatch (3 * classScriptSize) c >>= tellFailure := rfl
  have htell : ∀ c, Plain (runMismatch (3 * classScriptSize) c >>= tellFailure) :=
    fun c => (plain_runMismatch _ c).bind fun r => (steady_tellFailure r).toPlain
  rw [hshow]
  refine cuts_bind ((steady_showReopened 0).cuts settings limit hle reopening) htell ?_
  intro c stage hc
  refine cuts_bind ?_ (fun r => (steady_tellFailure r).toPlain) fun r stage' _ =>
    (steady_tellFailure r).cuts settings limit hle stage'
  rw [runMismatch_of_showReopened hc hle]
  exact .same _

theorem plain_showReopen (id : Nat) : Plain (showReopen id) :=
  (steady_showReopened id).toPlain.bind fun _ => (plain_runMismatch _ _).bind fun r =>
    (steady_tellFailure r).toPlain

/-! ### The last program -/

/-- The demonstrations that come before the one with several contexts, or stand alone. -/
def prologues : List (List Demo) :=
  [[], [.reopen], [.nonlocalReturn], [.singleton], [.reopen, .nonlocalReturn, .singleton]]

theorem prologue_orders : ∀ ds ∈ prologues, .threads ∉ ds ∧ .reopen ∉ ds.tail := by
  decide

/-- What the contexts of the last program work on. -/
def lastJob : Job := .worker (4 * classScriptSize + blockScriptSize + singletonScriptSize)

section Prologues

variable {runAll : Body → Nat → Show (List Value)}

theorem programWith_eq {d : Demo} (hd : d ≠ .threads) : programWith runAll d = program d := by
  cases d with
  | threads => exact absurd rfl hd
  | _ => rfl

theorem plain_program {d : Demo} (hd : d ≠ .threads) : Plain (program d) := by
  cases d with
  | reopen => exact plain_showReopen _
  | nonlocalReturn => exact (steady_showNonlocalReturn _).toPlain
  | singleton => exact (steady_showSingleton _).toPlain
  | threads => exact absurd rfl hd

theorem steady_program {d : Demo} (hd : d ≠ .threads) (hreopen : d ≠ .reopen) :
    Steady (program d) := by
  cases d with
  | reopen => exact absurd rfl hreopen
  | nonlocalReturn => exact steady_showNonlocalReturn _
  | singleton => exact steady_showSingleton _
  | threads => exact absurd rfl hd

theorem tourFrom_programWith (hds : .threads ∉ ds) :
    tourFrom (programWith runAll) settings stage ds = tourFrom program settings stage ds := by
  induction ds generalizing stage with
  | nil => rfl
  | cons d ds ih =>
    have hd : d ≠ .threads := fun h => hds (h ▸ List.mem_cons_self)
    have htail : .threads ∉ ds := fun h => hds (List.mem_cons_of_mem _ h)
    simp only [tourFrom, programWith_eq hd, ih htail]

theorem threads_tour (hds : ds ∈ prologues) (settings : Settings) (threads : Nat) :
    tour { settings with threads } ds = tour settings ds :=
  threads_tourFrom (fun _ hd => plain_program fun h => (prologue_orders ds hds).1 (h ▸ hd)) _ _ _

theorem cuts_tour (hds : ds ∈ prologues) (settings : Settings) (hle : settings.limit ≤ limit) :
    (tour settings ds).Cuts (tour { settings with limit } ds) := by
  obtain ⟨hthreads, hreopen⟩ := prologue_orders ds hds
  cases ds with
  | nil => exact .inl rfl
  | cons d ds =>
    have hd : d ≠ .threads := fun h => hthreads (h ▸ List.mem_cons_self)
    have htail : ∀ d ∈ ds, Steady (program d) := fun e he => steady_program
      (fun h => hthreads (h ▸ List.mem_cons_of_mem _ he)) fun h => hreopen (h ▸ he)
    refine cuts_tourFrom_cons ?_ (fun d hd => (htail d hd).toPlain) (cuts_tourFrom htail hle)
    by_cases hfirst : d = .reopen
    · subst hfirst
      exact cuts_showReopen hle
    · exact (steady_program hd hfirst).cuts settings limit hle _

/-- With four frames a prologue comes to an end, and leaves the class of the last program alone. -/
theorem prologue_ends : ∀ ds ∈ prologues, ∀ dump,
    let e := tour ⟨dump, 1, 4⟩ ds
    (e.trouble?.isNone && (e.stage.heap.constant? Core.object lastJob.name).isNone &&
      (e.stage.heap.bindings[lastJob.id + 2]?).isNone) = true := by
  decide +kernel

/-- A prologue overflows, or leads to a stage where the class of the last program is not defined. -/
theorem tour_leads (hds : ds ∈ prologues) (settings : Settings) :
    (tour settings ds).Overflown ∨
      (tour settings ds).trouble? = none ∧ lastJob.Shared none (tour settings ds).stage.heap := by
  have hends := prologue_ends ds hds settings.dump
  have hfour : tour ⟨settings.dump, 1, 4⟩ ds = tour { settings with limit := 4 } ds :=
    threads_tour hds { settings with limit := 4 } 1
  simp only [hfour, Bool.and_eq_true, Option.isNone_iff_eq_none] at hends
  obtain ⟨⟨hnone, hconstant⟩, hbinding⟩ := hends
  -- both limits are compared with one that is above either of them
  rcases cuts_tour hds settings (Nat.le_max_left settings.limit 4) with hsame | ⟨ho, -⟩
  · rcases cuts_tour hds { settings with limit := 4 }
      (Nat.le_max_right settings.limit 4) with hsame' | ⟨⟨d, hd⟩, -⟩
    · rw [hsame, ← hsame']
      exact .inr ⟨hnone, hconstant, hbinding, by rintro w ⟨⟩⟩
    · cases hnone.symm.trans hd
  · exact .inl ho

/-- What is printed before the contexts of the last program have come to an end. -/
def shownBefore (settings : Settings) (ds : List Demo) : List String :=
  (tour settings ds).stage.printed ++ ["== " ++ Demo.threads.title ++ " ==\n"] ++
    Job.listings settings.dump lastJob.script

/-- How a tour ends that goes on from a prologue to the last program. -/
structure Finale (settings : Settings) (ds : List Demo) (e : Ending) : Prop where
  early : (tour settings ds).Overflown → e = tour settings ds
  overflow : (tour settings ds).trouble? = none → settings.limit < 2 →
    e.trouble? = some (.threads, .failure .stackOverflow) ∧
      e.stage.printed = shownBefore settings ds
  counted : (tour settings ds).trouble? = none → 2 ≤ settings.limit →
    e.trouble? = none ∧ e.stage.printed =
      shownBefore settings ds ++ [Job.headcount (max settings.threads 1)]

theorem finale_of_unites (hds : ds ∈ prologues)
    (hunites : ∀ stage, lastJob.Shared none stage.heap →
      Job.Unites (runAll lastJob.script (max settings.threads 1)) (max settings.threads 1) settings
        stage) :
    Finale settings ds (tourFrom (programWith runAll) settings {} (ds ++ [.threads])) := by
  have hprologue : tourFrom (programWith runAll) settings {} ds = tour settings ds :=
    tourFrom_programWith (prologue_orders ds hds).1
  have hlast : (tour settings ds).trouble? = none →
      ∃ heap, programWith runAll .threads settings ((tour settings ds).stage.announce .threads) =
        if settings.limit < 2 then
          .error (.failure .stackOverflow) ⟨heap, shownBefore settings ds⟩
        else
          .ok () ⟨heap, shownBefore settings ds ++ [Job.headcount (max settings.threads 1)]⟩ := by
    intro hnone
    rcases tour_leads hds settings with ⟨d, hd⟩ | ⟨-, hshared⟩
    · cases hnone.symm.trans hd
    · exact Job.showThreadsWith_eq settings _ fun printed => hunites _ hshared
  refine ⟨fun ⟨d, hd⟩ => ?_, fun hnone hlimit => ?_, fun hnone hlimit => ?_⟩
  · rw [tourFrom_append_of_some (hprologue ▸ hd), hprologue]
  · obtain ⟨heap, hlast⟩ := hlast hnone
    rw [if_pos hlimit] at hlast
    rw [tourFrom_append_of_none (hprologue ▸ hnone), hprologue, tourFrom_cons_of_error hlast]
    exact ⟨rfl, rfl⟩
  · obtain ⟨heap, hlast⟩ := hlast hnone
    rw [if_neg (Nat.not_lt_of_le hlimit)] at hlast
    rw [tourFrom_append_of_none (hprologue ▸ hnone), hprologue, tourFrom_cons_of_ok hlast]
    exact ⟨rfl, rfl⟩

/-- In a tour the contexts run one after the other. -/
theorem finale_tour (hds : ds ∈ prologues) (settings : Settings) :
    Finale settings ds (tour settings (ds ++ [.threads])) :=
  finale_of_unites hds fun _ hshared =>
    Job.unites_runFresh hshared (Nat.lt_of_lt_of_le Nat.zero_lt_one (Nat.le_max_right _ _))

theorem prefix_shownBefore (settings : Settings) (ds : List Demo) :
    (tour settings ds).stage.printed <+: shownBefore settings ds :=
  (List.prefix_append _ _).trans (List.prefix_append _ _)

namespace Finale

variable {e e' : Ending} (he : Finale settings ds e)

include he

theorem shownBefore_prefix (hnone : (tour settings ds).trouble? = none) :
    shownBefore settings ds <+: e.stage.printed := by
  rcases Nat.lt_or_ge settings.limit 2 with hlimit | hlimit
  · exact (he.overflow hnone hlimit).2 ▸ List.prefix_rfl
  · exact (he.counted hnone hlimit).2 ▸ List.prefix_append _ _

theorem prologue_prefix (hds : ds ∈ prologues) :
    (tour settings ds).stage.printed <+: e.stage.printed := by
  rcases tour_leads hds settings with ho | ⟨hnone, -⟩
  · exact he.early ho ▸ List.prefix_rfl
  · exact (prefix_shownBefore settings ds).trans (he.shownBefore_prefix hnone)

theorem of_le (hds : ds ∈ prologues) (hle : settings.limit ≤ limit)
    (he' : Finale { settings with limit } ds e') :
    e.trouble? = none ∧ e'.trouble? = none ∧ e.stage.printed = e'.stage.printed ∨
      e.Overflown ∧ e.stage.printed <+: e'.stage.printed := by
  rcases cuts_tour hds settings hle with hsame | ⟨ho, hprefix⟩
  · have hshown : shownBefore settings ds = shownBefore { settings with limit } ds := by
      rw [shownBefore, shownBefore, hsame]
    rcases tour_leads hds settings with ho | ⟨hnone, -⟩
    · rw [he.early ho]
      exact .inr ⟨ho, hsame ▸ he'.prologue_prefix hds⟩
    · have hnone' : (tour { settings with limit } ds).trouble? = none := hsame ▸ hnone
      rcases Nat.lt_or_ge settings.limit 2 with hlimit | hlimit
      · obtain ⟨hover, hprinted⟩ := he.overflow hnone hlimit
        rw [hprinted, hshown]
        exact .inr ⟨⟨_, hover⟩, he'.shownBefore_prefix hnone'⟩
      · obtain ⟨hends, hprinted⟩ := he.counted hnone hlimit
        obtain ⟨hends', hprinted'⟩ := he'.counted hnone' (hlimit.trans hle)
        exact .inl ⟨hends, hends', by rw [hprinted, hprinted', hshown]⟩
  · rw [he.early ho]
    exact .inr ⟨ho, hprefix.trans (he'.prologue_prefix hds)⟩

/-- With another number of contexts only the last line differs, if the tour comes to it. -/
theorem of_threads (hds : ds ∈ prologues) (threads : Nat)
    (he' : Finale { settings with threads } ds e') :
    e.trouble? = none ∧ e'.trouble? = none ∧
        e.stage.printed = shownBefore settings ds ++ [Job.headcount (max settings.threads 1)] ∧
        e'.stage.printed = shownBefore settings ds ++ [Job.headcount (max threads 1)] ∨
      e.Overflown ∧ e'.trouble? = e.trouble? ∧ e'.stage.printed = e.stage.printed ∧
        e.stage.printed <+: shownBefore settings ds := by
  have hprologue := threads_tour hds settings threads
  have hshown : shownBefore { settings with threads } ds = shownBefore settings ds := by
    rw [shownBefore, shownBefore, hprologue]
  rcases tour_leads hds settings with ho | ⟨hnone, -⟩
  · have ho' : (tour { settings with threads } ds).Overflown := hprologue ▸ ho
    rw [he.early ho, he'.early ho', hprologue]
    exact .inr ⟨ho, rfl, rfl, prefix_shownBefore settings ds⟩
  · have hnone' : (tour { settings with threads } ds).trouble? = none := hprologue ▸ hnone
    rcases Nat.lt_or_ge settings.limit 2 with hlimit | hlimit
    · obtain ⟨hover, hprinted⟩ := he.overflow hnone hlimit
      obtain ⟨hover', hprinted'⟩ := he'.overflow hnone' hlimit
      exact .inr ⟨⟨_, hover⟩, hover'.trans hover.symm, by rw [hprinted, hprinted', hshown],
        hprinted ▸ List.prefix_rfl⟩
    · obtain ⟨hends, hprinted⟩ := he.counted hnone hlimit
      obtain ⟨hends', hprinted'⟩ := he'.counted hnone' hlimit
      exact .inl ⟨hends, hends', hprinted, by rw [hprinted', hshown]⟩

/-- The order in which the contexts take their turns is not seen. -/
theorem unique (hds : ds ∈ prologues) (he' : Finale settings ds e') :
    e'.trouble? = e.trouble? ∧ e'.stage.printed = e.stage.printed := by
  rcases he.of_threads hds settings.threads he' with
    ⟨hnone, hnone', hprinted, hprinted'⟩ | ⟨-, htrouble, hprinted, -⟩
  · exact ⟨hnone'.trans hnone.symm, hprinted'.trans hprinted.symm⟩
  · exact ⟨htrouble, hprinted⟩

end Finale

/-- Under the lower limit a tour comes to the same end, or it fails for an overflow. -/
theorem tour_of_le (hds : ds ∈ prologues ∨ ∃ es ∈ prologues, ds = es ++ [.threads])
    (settings : Settings) (hle : settings.limit ≤ limit) :
    let e := tour settings ds
    let e' := tour { settings with limit } ds
    e.trouble? = none ∧ e'.trouble? = none ∧ e.stage.printed = e'.stage.printed ∨
      e.Overflown ∧ e.stage.printed <+: e'.stage.printed := by
  rcases hds with hds | ⟨es, hes, rfl⟩
  · rcases cuts_tour hds settings hle with hsame | hover
    · rcases tour_leads hds settings with ho | ⟨hnone, -⟩
      · exact .inr ⟨ho, hsame ▸ List.prefix_rfl⟩
      · exact .inl ⟨hnone, hsame ▸ hnone, congrArg (fun e => e.stage.printed) hsame⟩
    · exact .inr hover
  · exact (finale_tour hes settings).of_le hes hle (finale_tour hes _)

end Prologues

end ObjectIr.Demo
