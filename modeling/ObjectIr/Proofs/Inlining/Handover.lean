import ObjectIr.Proofs.Inlining.Splice

/-!
# From the host to the copy

A run of a spliced body does what the host does, until the host is through with its code
(`Splice.hostPart`). Where it is, the spliced body does what the copied code does from its first
instruction, in the same activation and on slots of its own (`Splice.guestPart`). Neither part names
a temporary of the other or jumps into it (`Splice.divided`). Both ends are the same but for the
names of the copy's temporaries, which an error may mention, and as long as these names are fresh:
their numbers have a limited range, past which they start over.
-/

namespace ObjectIr

namespace Machine

/-- The outermost activation runs, and is through with its code. -/
def AtEnd (m : Machine) : Prop :=
  m.callers = [] ∧ ∃ a, m.control = .running a ∧ a.body.code[a.pc]? = none

instance (m : Machine) : Decidable m.AtEnd :=
  match hcallers : m.callers, hcontrol : m.control with
  | [], .running a =>
    decidable_of_iff (a.body.code[a.pc]?.isNone = true) (by simp [AtEnd, hcallers, hcontrol])
  | _ :: _, _ => .isFalse (by simp [AtEnd, hcallers])
  | [], .leaving .. => .isFalse (by simp [AtEnd, hcontrol])
  | [], .finished _ => .isFalse (by simp [AtEnd, hcontrol])

/-- The running activation goes on with another body, on fresh temporaries. -/
def handOver (m : Machine) (b : Body) : Machine :=
  match m.control with
  | .running a =>
    { m with control := .running { a with body := b, pc := 0, temps := .init b.temps } }
  | _ => m

/-- The end of the code comes once. -/
theorem AtEnd.first {limit n : Nat} {m : Machine} (h : (m.after limit n).AtEnd) :
    ∀ k < n, ¬ (m.after limit k).AtEnd := by
  intro k hk hend
  obtain ⟨hcallers, a, hcontrol, hcode⟩ := hend
  have hleaving :
      m.after limit (k + 1) = { m.after limit k with control := .leaving a (.ok .nil) } := by
    rw [after_succ, step, hcontrol]
    simp only [hcode]
  have hfinished : ∃ r, (m.after limit (k + 2)).result? = some r := by
    rw [after_succ, hleaving, step]
    simp only [hcallers]
    exact ⟨_, rfl⟩
  obtain ⟨r, hr⟩ := hfinished
  have hstays : ∀ j, m.after limit (k + 2 + j) = m.after limit (k + 2) := by
    intro j
    rw [after_add, after_of_result hr]
  obtain ⟨-, b, hb, -⟩ := h
  by_cases hn : n = k + 1
  · rw [hn, hleaving] at hb
    cases hb
  · rw [show n = k + 2 + (n - (k + 2)) by omega, hstays, (control_of_result hr).1] at hb
    cases hb

namespace Alongside

variable {p : Inset} {limit : Nat} {m m' : Machine}

theorem inner_of_running (h : Alongside p m m') {a : Activation} (ha : m.control = .running a)
    (hcallers : m.callers = []) : a.body = p.inner := by
  cases h with
  | running h =>
    cases ha
    exact h.activation.inner
  | leaving => cases ha
  | waiting above => simp at hcallers
  | finished => cases ha

/-- Both machines go on alongside while the inner body does not come to the end of its code. -/
theorem after_inner (hp : p.Sound) (h : Alongside p m m') {n : Nat}
    (hn : ∀ k < n, ¬ (m.after limit k).AtEnd) :
    Alongside p (m.after limit n) (m'.after limit n) := by
  induction n with
  | zero => exact h
  | succ n ih =>
    rw [after_succ, after_succ]
    refine step hp (ih fun k hk => hn k (by omega)) fun a ha hcallers hcode => ?_
    exact absurd ⟨hcallers, a, ha, hcode⟩ (hn n (by omega))

/-- Both machines go on alongside to the end, where the outer body ends with the inner one. -/
theorem after_last (hp : p.Sound) (hlast : p.outer.code.length = p.offset + p.inner.code.length)
    (h : Alongside p m m') (n : Nat) : Alongside p (m.after limit n) (m'.after limit n) := by
  induction n with
  | zero => exact h
  | succ n ih =>
    rw [after_succ, after_succ]
    refine step hp ih fun a ha hcallers hcode => ?_
    rw [inner_of_running ih ha hcallers, List.getElem?_eq_none_iff] at hcode
    rw [List.getElem?_eq_none_iff]
    omega

end Alongside

end Machine

/-! ### The two parts stay apart -/

/-- The code before an index and the code from there on share no temporary and no jump. -/
structure Body.DividedAt (b : Body) (n : Nat) : Prop where
  temps : ∀ t, Body.Uses (b.code.take n) (.temp t) → ¬ Body.Uses (b.code.drop n) (.temp t)
  jumps : ∀ k i l, b.code[k]? = some i → i.target? = some l →
    ∃ j, b.labelIndex? l = some j ∧ (k < n ↔ j < n)

theorem Body.exists_labelIndex? {b : Body} {l : Label} (h : l ∈ b.code.filterMap InstrOf.label?) :
    ∃ n, b.labelIndex? l = some n ∧ n < b.code.length := by
  obtain ⟨n, hn⟩ := Option.isSome_iff_exists.1 (labelIndex?_isSome_iff.2 h)
  have hfind := hn
  rw [labelIndex?, List.findIdx?_eq_some_iff_getElem] at hfind
  exact ⟨n, hn, hfind.1⟩

namespace Splice

variable {host guest spliced : Body} {code copy : List Instr} {r : Renaming} {id : Nat}
  (h : Splice host guest code copy r) (hb : host.withCode (host.code ++ copy) id = .ok spliced)

include h hb

theorem divided (hfits : r.Fits) : spliced.DividedAt host.code.length where
  temps t ht ht' := by
    rw [spliced_code hb, List.take_left] at ht
    rw [spliced_code hb, List.drop_left] at ht'
    have hlt := h.host_temp_lt ht
    have hge := h.temp_ge hfits ht'
    omega
  jumps k i' l hi' hl := by
    rw [spliced_code hb] at hi'
    by_cases hk : k < host.code.length
    · rw [List.getElem?_append_left hk] at hi'
      have hmem := h.accepted.takes.targets i' (List.mem_of_getElem? hi') l hl
      obtain ⟨j, hj, hlt⟩ := Body.exists_labelIndex? hmem
      exact ⟨j, labelIndex?_host hb hj, by simp [hk, hlt]⟩
    · rw [List.getElem?_append_right (by omega)] at hi'
      obtain ⟨i, hi, hlike⟩ := (exists_of_forall₂ h.copied).2 i' (List.mem_of_getElem? hi')
      have htarget := hlike.target?
      rw [hl] at htarget
      generalize hx : i.target? = x at htarget
      cases htarget with
      | some hlookup =>
        have hmem := h.takes.targets i hi _ hx
        rw [← h.guest_code] at hmem
        obtain ⟨j, hj, -⟩ := Body.exists_labelIndex? hmem
        exact ⟨_, h.labelIndex?_copy hb hlookup hj, by omega⟩

/-! ### The host's part -/

theorem start_alongside (limit : Nat) (heap : Heap) (c : Context) (i : Invocation) :
    (hostInset host spliced).Sound ∧
      Machine.Alongside (hostInset host spliced) (.start limit heap c { i with body := host })
        (.start limit heap c { i with body := spliced }) := by
  have hsound := h.hostInset_sound hb
  refine ⟨hsound, ?_⟩
  have hsettle : ∀ k d, Invocation.settleIn { i with body := host } k d =
      Invocation.settleIn { i with body := spliced } k d := by
    intro k d
    have hflags : host.flags = spliced.flags := hsound.flags
    have hscope : host.scope = spliced.scope := hsound.scope
    simp only [Invocation.settleIn, Body.pushesScope, Body.isEliminated, Body.reusesScope, hflags,
      hscope]
    rfl
  by_cases hfull : limit ≤ c.frameDepth
  · simp only [Machine.start, enter_eq, if_pos hfull]
    exact .finished heap c (.error (.same _))
  · simp only [Machine.start, enter_eq, if_neg hfull, hsettle]
    refine .running ⟨rfl, rfl, ?_⟩
    exact {
      inner := rfl
      outer := rfl
      pc := rfl
      within := Nat.zero_le _
      temps := by
        refine ⟨fun t t' ht => ?_, fun t' _ => rfl⟩
        obtain ⟨ht', j, hj, hused⟩ := ht
        cases ht'
        have hheld := h.accepted.checked.places j hj _ hused
        have hheld' := (Body.Accepted.recoded hb).checked.places j
          (by rw [spliced_code hb]; exact List.mem_append_left _ hj) _ hused
        simp only [Body.HasPlace] at hheld hheld'
        refine ⟨t.kind.initial, ?_, ?_⟩
        · simp only [Invocation.activation, Temps.get?_init, hheld, if_true]
        · simp only [Invocation.activation, Temps.get?_init, hheld', if_true]
      args := rfl
      receiver := rfl
      footing := rfl
      bridge? := rfl
      answer? := rfl }

/-- Until the host is through with its code, the spliced body does the same. -/
theorem hostPart (limit : Nat) (heap : Heap) (c : Context) (i : Invocation) {n : Nat}
    (hn : ∀ k < n, ¬ ((Machine.start limit heap c { i with body := host }).after limit k).AtEnd) :
    Machine.Alongside (hostInset host spliced)
      ((Machine.start limit heap c { i with body := host }).after limit n)
      ((Machine.start limit heap c { i with body := spliced }).after limit n) := by
  obtain ⟨hsound, hstart⟩ := h.start_alongside hb limit heap c i
  exact hstart.after_inner hsound hn

omit h hb in
/-- The host's part keeps its names, so that its failures are the same. -/
theorem result_eq {q q' : Result} (hq : q.Renamed (hostInset host spliced).names.place q') :
    q' = q := by
  obtain ⟨heap, context, o⟩ := q
  obtain ⟨heap', context', o'⟩ := q'
  obtain ⟨hheap, hcontext, ho⟩ := hq
  simp only at hheap hcontext ho
  subst hheap hcontext
  cases ho with
  | ok hv => rw [hv]
  | error hf =>
    cases hf with
    | same => rfl
    | expects ht =>
      obtain ⟨ht, -⟩ := ht
      cases ht
      rfl

/-! ### The copy's part -/

/-- Where the host is through, the spliced body goes on as the guest from its first instruction. -/
theorem guestPart (hfits : r.Fits) {limit : Nat} {m m' : Machine}
    (hm : Machine.Alongside (hostInset host spliced) m m') (hend : m.AtEnd) :
    ∃ rest, ∀ n, Machine.Alongside (guestInset host guest spliced r rest)
      ((m.handOver guest).after limit n) (m'.after limit n) := by
  obtain ⟨hcallers, a, ha, hcode⟩ := hend
  cases hm with
  | leaving => cases ha
  | finished => cases ha
  | waiting above => simp at hcallers
  | @running s s' hs =>
    cases ha
    have hact := hs.activation
    have hpc : s.activation.pc = host.code.length := by
      have hinner : s.activation.body = host := hact.inner
      have hwithin : s.activation.pc ≤ host.code.length := hact.within
      rw [hinner, List.getElem?_eq_none_iff] at hcode
      omega
    have hsound := h.guestInset_sound hb hfits s'.activation.temps
    refine ⟨s'.activation.temps, Machine.Alongside.after_last hsound ?_ ?_⟩
    · simp only [guestInset, spliced_code hb, List.length_append, h.guest_code, h.copied.length_eq]
    · refine .running (s := ⟨s.heap, s.context, { s.activation with
        body := guest, pc := 0, temps := .init guest.temps }⟩) ⟨hs.heap, hs.context, ?_⟩
      exact {
        inner := rfl
        outer := hact.outer
        pc := by
          have hpc' : s'.activation.pc = 0 + s.activation.pc := hact.pc
          simp only [guestInset]
          omega
        within := Nat.zero_le _
        temps := by
          refine ⟨fun t t' ht => ?_, fun t' _ => rfl⟩
          obtain ⟨hplace, j, hj, hused⟩ := ht
          have hheld := h.guest_accepted.checked.places j hj _ hused
          obtain ⟨x, n, hx, ht', -⟩ := h.numbers.name_cases hplace
          cases hx
          -- the copy's slot is none of the host's, so it is as it was at the start
          have hused' : Body.Uses copy (.temp t') := by
            rw [h.guest_code] at hj
            obtain ⟨j', hj', hlike⟩ := (exists_of_forall₂ h.copied).1 j hj
            obtain ⟨v', hv', hplace'⟩ := (exists_of_forall₂ hlike.usedVariables).1 _ hused
            rw [Option.some.inj (hplace.symm.trans hplace')]
            exact ⟨j', hj', hv'⟩
          have hfree : ∀ u, ¬ (hostInset host spliced).names.place (.temp u) (.temp t') := by
            rintro u ⟨hu, huse⟩
            cases hu
            have hlt := h.host_temp_lt huse
            have hge := h.temp_ge hfits hused'
            omega
          have hrest := hact.temps.rest t' hfree
          obtain ⟨j', hj', hv'⟩ := hused'
          have hheld' := (Body.Accepted.recoded hb).checked.places j'
            (by rw [spliced_code hb]; exact List.mem_append_right _ hj') _ hv'
          simp only [Body.HasPlace] at hheld hheld'
          refine ⟨t.kind.initial, by simp only [Temps.get?_init, hheld, if_true], ?_⟩
          rw [hrest]
          simp only [hostInset, Temps.get?_init, hheld', if_true]
          cases ht'
          rfl
        args := hact.args
        receiver := hact.receiver
        footing := hact.footing
        bridge? := hact.bridge?
        answer? := hact.answer? }

end Splice

/-! ### Runs of spliced bodies -/

/-- How a spliced body runs: as the host, and where the host is through, as the guest. -/
structure Body.RunsInTurn (host guest spliced : Body) (r : Renaming) (limit : Nat)
    (m m' : Machine) : Prop where
  first : ∀ n, (∀ k < n, ¬ (m.after limit k).AtEnd) →
    Machine.Alongside (Splice.hostInset host spliced) (m.after limit n) (m'.after limit n)
  alone : (∀ n, ¬ (m.after limit n).AtEnd) → ∀ fuel, m'.run limit fuel = m.run limit fuel
  second : ∀ n, (m.after limit n).AtEnd → ∃ rest, ∀ k,
    Machine.Alongside (Splice.guestInset host guest spliced r rest)
      (((m.after limit n).handOver guest).after limit k) (m'.after limit (n + k))
  result : ∀ n, (m.after limit n).AtEnd → ∀ fuel,
    Option.Rel (Result.Renamed r.counterparts.place)
      (((m.after limit n).handOver guest).run limit fuel) (m'.run limit (n + fuel))

/-- A script that counts to one and looks at the count. -/
def branchingScript : Draft where
  name := "<main>"
  scope := ⟨⟨0, .script, []⟩, []⟩
  code := [
    .copy (.temp ⟨.fixnum, 0⟩) (.fixnum 1),
    .branchFalse (.bool false) ⟨0⟩,
    .copy (.temp ⟨.fixnum, 0⟩) (.fixnum 2),
    .label ⟨0⟩]

/-- The same slot and the same label, in another use. -/
def branchingCode : List Instr := [
  .branchFalse (.var (.temp ⟨.boolean, 0⟩)) ⟨0⟩,
  .copy (.temp ⟨.fixnum, 0⟩) (.fixnum 3),
  .label ⟨0⟩,
  .ret (.var (.temp ⟨.fixnum, 0⟩))]

/-- Its copy for the script, and the names there. -/
def branchingCopy : List Instr := [
  .branchFalse (.var (.temp ⟨.boolean, 0⟩)) ⟨1⟩,
  .copy (.temp ⟨.fixnum, 1⟩) (.fixnum 3),
  .label ⟨1⟩,
  .ret (.var (.temp ⟨.fixnum, 1⟩))]

def branchingNames : Renaming where
  names := [(.temp ⟨.fixnum, 0⟩, .temp ⟨.fixnum, 1⟩), (.temp ⟨.boolean, 0⟩, .temp ⟨.boolean, 0⟩)]
  labels := [(⟨0⟩, ⟨1⟩)]
  host? := some ⟨{ boolean := 1, fixnum := 2 }, ⟨2⟩⟩

/-- A script that sets the first of its flags. -/
def flaggingScript (flags : Nat) : Draft where
  name := "<main>"
  scope := ⟨⟨0, .script, []⟩, []⟩
  declared? := some { boolean := flags }
  code := [.copy (.temp ⟨.boolean, 0⟩) (.bool true)]

theorem build_flaggingScript {flags : Nat} (h : 0 < flags) :
    (flaggingScript flags).build 0 = .ok ((flaggingScript flags).body 0 { boolean := flags }) := by
  refine Draft.build_eq_ok_iff.2 ⟨⟨rfl, rfl, by simp [flaggingScript]; rfl⟩, _, ?_, rfl⟩
  have hused : (flaggingScript flags).usedTemps = { boolean := 1 } := rfl
  have hfind : TempKind.all.find? (fun k => ({ boolean := flags } : TempCounts).get k <
      ({ boolean := 1 } : TempCounts).get k) = none := by
    rw [List.find?_eq_none]
    intro k _
    cases k <;> simp [TempCounts.get]
    omega
  simp only [Draft.temps, hused]
  simp only [flaggingScript, hfind]

/-- The script with other code and so many slots for flags. -/
def recodedScript (id : Nat) (code : List Instr) (flags : Nat) : Body :=
  { flaggingScript 1 with code }.body id { boolean := flags }

/-- Code that fails on a flag of its own. -/
def misflaggingCode (index : Nat) : List Instr := [.copy (.temp ⟨.boolean, index⟩) (.fixnum 1)]

def misflaggingHost : Body := (flaggingScript 1).body 0 { boolean := 1 }

def misflaggingGuest : Body := recodedScript 1 (misflaggingCode 0) 1

def misflaggingSplice : Body := recodedScript 2 ((flaggingScript 1).code ++ misflaggingCode 1) 2

/-- Code that answers a flag of its own. -/
def flagCode (index : Nat) : List Instr := [.ret (.var (.temp ⟨.boolean, index⟩))]

def flagGuest : Body := recodedScript 1 (flagCode 5) 6

def flagSplice : Body := recodedScript 2 ((flaggingScript 1).code ++ flagCode 0) 1

/-- A copy beside as many flags as a temporary can tell apart is given the first of them. -/
theorem inlined_flag_shared {flags : Nat} (hpos : 0 < flags)
    (hwrap : flags % Temp.indexRange = 0) :
    ∃ host copy r guest spliced, (flaggingScript flags).build 0 = .ok host ∧
      host.Takes (flagCode 5) ∧ (∀ i ∈ flagCode 5, i.bodyFree = true) ∧
      host.LabelsFit (flagCode 5) ∧
      copyCode (flagCode 5) (.into host.temps host.nextLabel) = .ok copy r ∧
      host.withCode (flagCode 5) 1 = .ok guest ∧
      host.withCode (host.code ++ copy) 2 = .ok spliced ∧
      ¬ spliced.DividedAt host.code.length ∧
      ((guest.start 8 .initial {}).run 8 2).map Result.outcome = some (.ok (.bool false)) ∧
      ((spliced.start 8 .initial {}).run 8 3).map Result.outcome = some (.ok (.bool true)) := by
  have hbuilt := build_flaggingScript hpos
  have hcopy : copyCode (flagCode 5) (.into { boolean := flags } 0) =
      .ok (flagCode (flags % Temp.indexRange))
        ⟨[(.temp ⟨.boolean, 5⟩, .temp ⟨.boolean, flags % Temp.indexRange⟩)], [],
          some ⟨{ boolean := flags + 1 }, ⟨0⟩⟩⟩ := rfl
  have hrecoded : ∃ b, Body.withCode ((flaggingScript flags).body 0 { boolean := flags })
      (flagCode 5) 1 = .ok b := ⟨_, rfl⟩
  have hlabels : Body.LabelsFit ((flaggingScript flags).body 0 { boolean := flags }) (flagCode 5) :=
    ⟨fun _ hl => (List.not_mem_nil hl).elim, Body.nextLabel_lt _⟩
  rw [hwrap] at hcopy
  refine ⟨_, _, _, flagGuest, flagSplice, hbuilt,
    (Body.Accepted.built hbuilt).withCode_iff.1 hrecoded, by decide, hlabels, hcopy, rfl, rfl,
    fun h => ?_, rfl, rfl⟩
  exact h.temps ⟨.boolean, 0⟩ ⟨_, List.mem_cons_self, by decide⟩ ⟨_, List.mem_cons_self, by decide⟩

end ObjectIr
