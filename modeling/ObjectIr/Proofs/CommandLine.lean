import ObjectIr.CommandLine
import ObjectIr.Proofs.Tours.Endings

/-!
# Command lines that differ in a limit or a number

What a command line prints is the same under a higher limit of depth, unless it fails for an
overflow; then it has printed less. Another number of contexts changes the last line of the last
program only, and the order in which they take their turns changes nothing.
-/

namespace ObjectIr.CommandLine

open Demo (prologues tour tourFrom programWith runInTurns)

/-! ### Reading the arguments -/

/-- The choices of demonstrations. -/
theorem demosOf?_cases {s : String} {demos : List Demo} (h : demosOf? s = some demos) :
    demos ∈ prologues ∨ ∃ ds ∈ prologues, demos = ds ++ [.threads] := by
  unfold demosOf? at h
  split at h <;> cases h
  · exact .inl (by decide)
  · exact .inl (by decide)
  · exact .inl (by decide)
  · exact .inr ⟨[], by decide, rfl⟩
  · exact .inr ⟨[.reopen, .nonlocalReturn, .singleton], by decide, rfl⟩

theorem Progress.set_demos {p q : Progress} {v : ValueOption} {s : String}
    (hp : ∃ t, demosOf? t = some p.options.demos) (h : p.set v s = some q) :
    ∃ t, demosOf? t = some q.options.demos := by
  rw [Progress.set] at h
  split at h
  · cases h
  · obtain ⟨o, ho, rfl⟩ := Option.map_eq_some_iff.1 h
    cases v with
    | demo =>
      obtain ⟨demos, hdemos, rfl⟩ := Option.map_eq_some_iff.1 ho
      exact ⟨s, hdemos⟩
    | threads =>
      obtain ⟨threads, -, rfl⟩ := Option.map_eq_some_iff.1 ho
      exact hp
    | maxCallDepth =>
      obtain ⟨limit, -, rfl⟩ := Option.map_eq_some_iff.1 ho
      exact hp

theorem Progress.switch_demos {p q : Progress} {v : SwitchOption} (h : p.switch v = some q) :
    q.options.demos = p.options.demos := by
  rw [Progress.switch] at h
  split at h
  · cases h
  · cases h
    cases v <;> rfl

theorem parse_demos {args : List String} {p : Progress} {pending? : Option ValueOption}
    {o : Options} (hp : ∃ t, demosOf? t = some p.options.demos)
    (h : parse p pending? args = .run o) : ∃ t, demosOf? t = some o.demos := by
  fun_induction parse p pending? args with
  | case2 | case12 =>
    cases h
    exact hp
  | case3 p arg args v q hq ih =>
    split at hq
    · exact ih (Progress.set_demos hp hq) h
    · cases hq
  | case5 p arg args v hv ih => exact ih hp h
  | case6 p arg args v s hv q hq ih => exact ih (Progress.set_demos hp hq) h
  | case8 p arg args v hv q hq ih => exact ih (Progress.switch_demos hq ▸ hp) h
  | _ => cases h

/-- A command line asks for one of the choices. -/
theorem Request.demos_of_ofArgs {args : List String} {o : Options}
    (h : Request.ofArgs args = .run o) :
    o.demos ∈ prologues ∨ ∃ ds ∈ prologues, o.demos = ds ++ [.threads] := by
  obtain ⟨s, hs⟩ := parse_demos ⟨"all", rfl⟩ h
  exact demosOf?_cases hs

/-! ### Answers -/

/-- What is printed before the contexts of the last program have come to an end. -/
def Options.shownBefore (o : Options) : String :=
  String.join (Demo.shownBefore o.settings (o.demos.erase .threads))

theorem Options.shownBefore_eq {o : Options} {ds : List Demo} (hds : ds ∈ prologues)
    (ho : o.demos = ds ∨ o.demos = ds ++ [.threads]) :
    o.shownBefore = String.join (Demo.shownBefore o.settings ds) := by
  have hthreads := (Demo.prologue_orders ds hds).1
  have herase : o.demos.erase .threads = ds := by
    rcases ho with ho | ho
    · rw [ho, List.erase_of_not_mem hthreads]
    · rw [ho, List.erase_append_right _ hthreads, List.erase_cons_head, List.append_nil]
  rw [Options.shownBefore, herase]

theorem join_prefix {ss ts : List String} (h : ss <+: ts) :
    ∃ rest, String.join ts = String.join ss ++ rest := by
  obtain ⟨us, rfl⟩ := h
  exact ⟨String.join us, String.join_append⟩

theorem Answer.ofEnding_of_none {e : Demo.Ending} (h : e.trouble? = none) :
    Answer.ofEnding e = ⟨0, String.join e.stage.printed, ""⟩ := by
  simp only [Answer.ofEnding, h]

theorem Answer.stdout_ofEnding (e : Demo.Ending) :
    (Answer.ofEnding e).stdout = String.join e.stage.printed := by
  rw [Answer.ofEnding]
  split <;> rfl

/-- What a program tells when it fails for an overflow. -/
def overflowText (d : Demo) : String :=
  "Error in " ++ d.title ++ " demo: " ++ "SystemStackError: stack level too deep" ++ "\n"

theorem Answer.ofEnding_of_overflown {e : Demo.Ending} (h : e.Overflown) :
    ∃ d, Answer.ofEnding e = ⟨1, String.join e.stage.printed, overflowText d⟩ := by
  obtain ⟨d, hd⟩ := h
  refine ⟨d, ?_⟩
  simp only [Answer.ofEnding, hd]
  rfl

/-- An answer depends on what was printed, and on the failure. -/
theorem Answer.ofEnding_congr {e e' : Demo.Ending} (htrouble : e'.trouble? = e.trouble?)
    (hprinted : e'.stage.printed = e.stage.printed) : Answer.ofEnding e' = Answer.ofEnding e := by
  rw [Answer.ofEnding, Answer.ofEnding, htrouble, hprinted]

/-- The answer of a tour whose contexts take their turns by a schedule. -/
def answerInTurns (schedule : List Nat) (o : Options) : Answer :=
  .ofEnding (tourFrom (programWith (runInTurns schedule)) o.settings {} o.demos)

section Answers

variable {o : Options} (ho : o.demos ∈ prologues ∨ ∃ ds ∈ prologues, o.demos = ds ++ [.threads])

include ho

theorem answer_of_le {limit : Nat} (hle : o.limit ≤ limit) :
    let run := answer (.run o)
    let deeper := answer (.run { o with limit })
    run.exit = 0 ∧ deeper.exit = 0 ∧ run.stdout = deeper.stdout ∨
      run.exit = 1 ∧ (∃ d, run.stderr = overflowText d) ∧
        ∃ rest, deeper.stdout = run.stdout ++ rest := by
  have hrun : answer (.run o) = .ofEnding (tour o.settings o.demos) := rfl
  have hdeeper : answer (.run { o with limit }) =
      .ofEnding (tour { o.settings with limit } o.demos) := rfl
  rw [hrun, hdeeper]
  rcases Demo.tour_of_le ho o.settings hle with
    ⟨hnone, hnone', hprinted⟩ | ⟨hover, hprefix⟩
  · rw [Answer.ofEnding_of_none hnone, Answer.ofEnding_of_none hnone', hprinted]
    exact .inl ⟨rfl, rfl, rfl⟩
  · obtain ⟨d, hd⟩ := Answer.ofEnding_of_overflown hover
    obtain ⟨rest, hrest⟩ := join_prefix hprefix
    rw [hd]
    exact .inr ⟨rfl, ⟨d, rfl⟩, rest, (Answer.stdout_ofEnding _).trans hrest⟩

theorem answer_of_threads {threads : Nat} (hthreads : 0 < threads) :
    let run := answer (.run o)
    let other := answer (.run { o with threads })
    .threads ∈ o.demos ∧ run.exit = 0 ∧
        other = ⟨0, o.shownBefore ++ Demo.Job.headcount threads, ""⟩ ∨
      (.threads ∉ o.demos ∨ run.exit = 1) ∧ other = run ∧
        ∃ rest, o.shownBefore = run.stdout ++ rest := by
  have hrun : answer (.run o) = .ofEnding (tour o.settings o.demos) := rfl
  have hother : answer (.run { o with threads }) =
      .ofEnding (tour { o.settings with threads } o.demos) := rfl
  rw [hrun, hother]
  rcases ho with hds | ⟨ds, hds, hdemos⟩
  · refine .inr ⟨.inl (Demo.prologue_orders _ hds).1, ?_, ?_⟩
    · rw [Demo.threads_tour hds]
    · rw [Answer.stdout_ofEnding, Options.shownBefore_eq hds (.inl rfl)]
      exact join_prefix ((List.prefix_append _ _).trans (List.prefix_append _ _))
  · rw [hdemos, Options.shownBefore_eq hds (.inr hdemos)]
    rcases (Demo.finale_tour hds o.settings).of_threads hds threads
      (Demo.finale_tour hds _) with
      ⟨hnone, hnone', -, hprinted⟩ | ⟨hover, htrouble, hprinted, hprefix⟩
    · refine .inl ⟨List.mem_append_right _ List.mem_cons_self, ?_, ?_⟩
      · rw [Answer.ofEnding_of_none hnone]
      · rw [Answer.ofEnding_of_none hnone', hprinted, Nat.max_eq_left hthreads, String.join_append]
        rfl
    · obtain ⟨d, hd⟩ := Answer.ofEnding_of_overflown hover
      refine .inr ⟨.inr ?_, Answer.ofEnding_congr htrouble hprinted, ?_⟩
      · rw [hd]
      · rw [Answer.stdout_ofEnding]
        exact join_prefix hprefix

theorem answerInTurns_eq {schedule : List Nat}
    (hschedule : ∀ i < max o.threads 1, Demo.Job.turns ≤ schedule.count i) :
    answerInTurns schedule o = answer (.run o) := by
  rcases ho with hds | ⟨ds, hds, hdemos⟩
  · exact congrArg Answer.ofEnding
      (Demo.tourFrom_programWith (Demo.prologue_orders _ hds).1)
  · have hfinale : Demo.Finale o.settings ds
        (tourFrom (programWith (runInTurns schedule)) o.settings {} (ds ++ [.threads])) :=
      Demo.finale_of_unites hds fun stage hshared => Demo.Job.unites_runInTurns hshared
        (Nat.lt_of_lt_of_le Nat.zero_lt_one (Nat.le_max_right _ _)) hschedule
    obtain ⟨htrouble, hprinted⟩ := (Demo.finale_tour hds o.settings).unique hds hfinale
    rw [answerInTurns, answer, hdemos]
    exact Answer.ofEnding_congr htrouble hprinted

end Answers

/-! ### Main result -/

/--
Under a higher limit a command line ends well with the same output, or the lower limit has cut it
off with an overflow. Another number of contexts shows only in the line that tells it, where that
line is printed, and it always tells of one class. Nor does the output depend on the turns that the
contexts take, once each has had enough of them.
-/
theorem answers_agree_across_depths_and_threads {args : List String} {o : Options}
    (hargs : Request.ofArgs args = .run o) :
    (∀ limit, o.limit ≤ limit →
      let run := answer (Request.ofArgs args)
      let deeper := answer (.run { o with limit })
      run.exit = 0 ∧ deeper.exit = 0 ∧ run.stdout = deeper.stdout ∨
        run.exit = 1 ∧
          (∃ d : Demo, run.stderr = "Error in " ++ d.title ++ " demo: " ++
            "SystemStackError: stack level too deep" ++ "\n") ∧
          ∃ rest, deeper.stdout = run.stdout ++ rest) ∧
    (∀ threads, 0 < threads →
      let run := answer (Request.ofArgs args)
      let other := answer (.run { o with threads })
      .threads ∈ o.demos ∧ run.exit = 0 ∧ other = ⟨0, o.shownBefore ++
          (toString threads ++ " threads defined Worker, one class: true\n"), ""⟩ ∨
        (.threads ∉ o.demos ∨ run.exit = 1) ∧ other = run ∧
          ∃ rest, o.shownBefore = run.stdout ++ rest) ∧
    ∀ schedule, (∀ i < max o.threads 1, Demo.Job.turns ≤ schedule.count i) →
      answerInTurns schedule o = answer (Request.ofArgs args) := by
  have hdemos := Request.demos_of_ofArgs hargs
  rw [hargs]
  exact ⟨fun limit hle => answer_of_le hdemos hle,
    fun threads hthreads => answer_of_threads hdemos hthreads,
    fun schedule hschedule => answerInTurns_eq hdemos hschedule⟩

/-- One frame is too few for the contexts: what they would print with two is cut off. -/
theorem answers_agree_across_depths_and_threads_depth_one :
    let o : Options := { demos := [.threads], limit := 1 }
    Request.ofArgs ["--demo", "threads", "--max-call-depth", "1"] = .run o ∧
      (answer (.run o)).exit = 1 ∧
      ∃ rest, (answer (.run { o with limit := 2 })).stdout = (answer (.run o)).stdout ++ rest := by
  have hargs : Request.ofArgs ["--demo", "threads", "--max-call-depth", "1"] =
      .run { demos := [.threads], limit := 1 } := rfl
  obtain ⟨hdepth, -, -⟩ := answers_agree_across_depths_and_threads hargs
  rcases hdepth 2 (by decide) with ⟨hexit, -⟩ | ⟨hexit, -, hrest⟩
  · exact absurd hexit (by decide +kernel)
  · exact ⟨hargs, hexit, hrest⟩

end ObjectIr.CommandLine
