import Mathlib.Data.List.Nodup
import ObjectIr.Proofs.Inlining.Copying
import ObjectIr.Proofs.Inlining.Inset
import ObjectIr.Proofs.Validation

/-!
# Code spliced into a body

A body takes its own code together with a copy of other code that it takes (`Splice.takes_append`).
Of the spliced body either part is an inset: the host's code under its own names
(`Splice.hostInset_sound`), and behind it the copied code, which is the code of a body that has
nothing else, under the names of the renaming (`Splice.guestInset_sound`).
-/

namespace ObjectIr

/-! ### Giving a body other instructions -/

namespace Body

/-- The draft of a body with other instructions. -/
def recoding (b : Body) (code : List Instr) : Draft :=
  { name := b.name, scope := b.scope, file := b.file, flags := b.flags
    requiredArgs := b.requiredArgs, code }

/-- Labels, jumps and locals of instructions that can stand in a body. -/
structure Takes (b : Body) (code : List Instr) : Prop where
  labels : (code.filterMap InstrOf.label?).Nodup
  targets : ∀ i ∈ code, ∀ l, i.target? = some l → l ∈ code.filterMap InstrOf.label?
  locals : ∀ i ∈ code, ∀ v ∈ i.usedVariables, (b.recoding []).checkVariable v = .ok ()

theorem takes_of_build {d : Draft} {id : Nat} {b : Body} (h : d.build id = .ok b) :
    b.Takes b.code ∧ (b.flags.has .scopeEliminated && b.flags.has .reuseParentScope) = false := by
  obtain ⟨hsound, temps, -, rfl⟩ := Draft.build_eq_ok_iff.1 h
  refine ⟨⟨(firstRepeated?_eq_none_iff.1 hsound.labels).1, fun i hi => ?_, fun i hi v hv => ?_⟩,
    hsound.flags⟩
  · exact (Draft.checkInstr_eq_ok_iff.1 (hsound.code i hi)).1
  · exact (Draft.checkInstr_eq_ok_iff.1 (hsound.code i hi)).2 v hv

/-- A body that was accepted can be given just the instructions that it takes. -/
theorem Accepted.withCode_iff {b : Body} (hb : b.Accepted) {code : List Instr} {id : Nat} :
    (∃ b', b.withCode code id = .ok b') ↔ b.Takes code := by
  obtain ⟨d, n, hd⟩ := hb.exists_draft
  constructor
  · rintro ⟨b', hb'⟩
    obtain ⟨-, temps, -, rfl⟩ := Draft.build_eq_ok_iff.1 hb'
    have h := (takes_of_build hb').1
    exact ⟨h.labels, h.targets, h.locals⟩
  · intro h
    refine ⟨_, Draft.build_eq_ok_iff.2 ⟨⟨(takes_of_build hd).2, ?_, fun i hi => ?_⟩, _, rfl, rfl⟩⟩
    · exact firstRepeated?_eq_none_iff.2 ⟨h.labels, by simp⟩
    · exact Draft.checkInstr_eq_ok_iff.2 ⟨h.targets i hi, h.locals i hi⟩

theorem Accepted.takes {b : Body} (hb : b.Accepted) : b.Takes b.code := by
  obtain ⟨d, n, hd⟩ := hb.exists_draft
  exact (takes_of_build hd).1

/-- Nothing changes but the code, the temporaries and the number. -/
theorem withCode_eq {b b' : Body} {code : List Instr} {id : Nat} (h : b.withCode code id = .ok b') :
    b' = { b with id, code, temps := b'.temps } := by
  obtain ⟨-, temps, -, rfl⟩ := Draft.build_eq_ok_iff.1 h
  rfl

theorem nextLabel_lt (b : Body) : b.nextLabel < Label.numberRange :=
  Nat.lt_of_le_pred (Nat.two_pow_pos 32)
    (nextLabel_le_iff.2 fun l _ => Nat.le_pred_of_lt l.next.number.isLt)

/-- No number of a label overflows, and neither does the next one behind the host or the copy. -/
structure LabelsFit (host : Body) (code : List Instr) : Prop where
  own : ∀ l ∈ host.code.filterMap InstrOf.label?, l.number.toNat + 1 < Label.numberRange
  copy : host.nextLabel + (usedLabels code).length < Label.numberRange

theorem labelIndex?_isSome_iff {b : Body} {l : Label} :
    (b.labelIndex? l).isSome ↔ l ∈ b.code.filterMap InstrOf.label? := by
  simp [labelIndex?, List.findIdx?_isSome, List.any_eq_true, List.mem_filterMap]

end Body

/-! ### The copy beside the host -/

def Body.Uses (code : List Instr) (v : Variable) : Prop := ∃ i ∈ code, v ∈ i.usedVariables

/-- Code that a host takes, as a body of its own, and its copy out of the host's way. -/
structure Splice (host guest : Body) (code copy : List Instr) (r : Renaming) : Prop where
  accepted : host.Accepted
  recoded : ∃ id, host.withCode code id = .ok guest
  fit : host.LabelsFit code
  copied : List.Forall₂ (InstrOf.Like r.counterparts) code copy
  numbers : r.Numbers ⟨host.temps, ⟨host.nextLabel⟩⟩ [] (code.flatMap InstrOf.usedVariables)
    (code.flatMap fun i => i.label?.toList ++ i.target?.toList)

namespace Splice

variable {host guest : Body} {code copy : List Instr} {r : Renaming}
  (h : Splice host guest code copy r)

include h

theorem guest_accepted : guest.Accepted := by
  obtain ⟨id, hid⟩ := h.recoded
  exact .recoded hid

theorem guest_code : guest.code = code := by
  obtain ⟨id, hid⟩ := h.recoded
  rw [Body.withCode_eq hid]

theorem takes : host.Takes code := h.accepted.withCode_iff.1 ⟨guest, h.recoded.choose_spec⟩

theorem labels : List.Forall₂ (fun l k => r.labels.lookup l = some k)
    (code.filterMap InstrOf.label?) (copy.filterMap InstrOf.label?) :=
  List.rel_filterMap (fun _ _ hi => hi.label?) h.copied

omit h in
theorem toNat_nextLabel :
    (Label.mk host.nextLabel).number.toNat = host.nextLabel := by
  simp only [BitVec.natCast_eq_ofNat, BitVec.toNat_ofNat]
  exact Nat.mod_eq_of_lt host.nextLabel_lt

theorem labels_fit : (Label.mk host.nextLabel).number.toNat + (usedLabels code).length ≤
    Label.numberRange := by
  rw [toNat_nextLabel]
  exact Nat.le_of_lt h.fit.copy

theorem labels_inj {l l' k : Label} (hl : r.labels.lookup l = some k)
    (hl' : r.labels.lookup l' = some k) : l = l' :=
  h.numbers.labels_inj h.labels_fit hl hl'

/-- The copy's labels stand above the host's. -/
theorem label_ne {l k m : Label} (hl : r.labels.lookup l = some k)
    (hm : m ∈ host.code.filterMap InstrOf.label?) : m ≠ k := by
  rintro rfl
  obtain ⟨i, -, hi⟩ := h.numbers.label_cases h.labels_fit hl
  rw [toNat_nextLabel] at hi
  have hlt := (Body.nextLabel_le_iff_lt h.fit.own).1 (Nat.le_refl _) m hm
  omega

/-- No temporary of the copy is one of the host's. -/
theorem temp_ge (hfits : r.Fits) {t : Temp} (ht : Body.Uses copy (.temp t)) :
    host.temps.get t.kind ≤ t.index := by
  obtain ⟨i', hi', ht⟩ := ht
  obtain ⟨i, hi, hlike⟩ := (exists_of_forall₂ h.copied).2 i' hi'
  obtain ⟨v, hv, hplace⟩ := (exists_of_forall₂ hlike.usedVariables).2 _ ht
  cases v with
  | lexical => cases hplace
  | temp u =>
    obtain ⟨x, n, -, hx, hn⟩ := h.numbers.name_cases hplace
    cases hx
    exact hn hfits

theorem host_temp_lt {t : Temp} (ht : Body.Uses host.code (.temp t)) :
    t.index < host.temps.get t.kind := by
  obtain ⟨i, hi, ht⟩ := ht
  simpa [Body.HasPlace, TempCounts.holds] using h.accepted.checked.places i hi _ ht

/-- The host takes the copy behind its own code. -/
theorem takes_append : host.Takes (host.code ++ copy) where
  labels := by
    have hunique : Relator.BiUnique fun l k => r.labels.lookup l = some k :=
      ⟨fun l k m hl hk => h.labels_inj hl hk, fun l k m hk hm => Option.some.inj (hk.symm.trans hm)⟩
    rw [List.filterMap_append, List.nodup_append]
    refine ⟨h.accepted.takes.labels, (List.rel_nodup hunique h.labels).1 h.takes.labels, ?_⟩
    intro l hl l' hl'
    obtain ⟨k, -, hk⟩ := (exists_of_forall₂ h.labels).2 l' hl'
    exact h.label_ne hk hl
  targets i' hi' l' hl' := by
    rw [List.filterMap_append, List.mem_append]
    rcases List.mem_append.1 hi' with hi' | hi'
    · exact .inl (h.accepted.takes.targets i' hi' l' hl')
    · obtain ⟨i, hi, hlike⟩ := (exists_of_forall₂ h.copied).2 i' hi'
      have htarget := hlike.target?
      rw [hl'] at htarget
      generalize hl : i.target? = l at htarget
      cases htarget with
      | some hk =>
        obtain ⟨k, hk', hlk⟩ := (exists_of_forall₂ h.labels).1 _ (h.takes.targets i hi _ hl)
        have hsame := Option.some.inj (hk.symm.trans hlk)
        rw [hsame]
        exact .inr hk'
  locals i' hi' v' hv' := by
    rcases List.mem_append.1 hi' with hi' | hi'
    · exact h.accepted.takes.locals i' hi' v' hv'
    · obtain ⟨i, hi, hlike⟩ := (exists_of_forall₂ h.copied).2 i' hi'
      obtain ⟨v, hv, hplace⟩ := (exists_of_forall₂ hlike.usedVariables).2 v' hv'
      cases v with
      | lexical =>
        cases hplace
        exact h.takes.locals i hi _ hv
      | temp t =>
        obtain ⟨u, n, -, rfl, -⟩ := h.numbers.name_cases hplace
        rfl

/-! ### The two parts of the spliced body -/

variable {spliced : Body} {id : Nat} (hb : host.withCode (host.code ++ copy) id = .ok spliced)

include hb

omit h in
theorem spliced_code : spliced.code = host.code ++ copy := by rw [Body.withCode_eq hb]

omit h in
/-- The host's labels stand where they stood. -/
theorem labelIndex?_host {l : Label} {n : Nat} (hl : host.labelIndex? l = some n) :
    spliced.labelIndex? l = some n := by
  rw [Body.labelIndex?] at hl
  rw [Body.labelIndex?, spliced_code hb, List.findIdx?_append, hl]
  rfl

/-- The label of a copy stands where the label stands in the original. -/
theorem labelIndex?_copy {l k : Label} (hk : r.labels.lookup l = some k) {n : Nat}
    (hl : guest.labelIndex? l = some n) : spliced.labelIndex? k = some (host.code.length + n) := by
  have hhost : host.code.findIdx? (fun i => i.label? == some k) = none := by
    rw [List.findIdx?_eq_none_iff]
    intro i hi
    by_contra hlabel
    exact h.label_ne hk (List.mem_filterMap.2 ⟨i, hi, by simpa using hlabel⟩) rfl
  have hcopy : ∀ {is is' : List Instr}, List.Forall₂ (InstrOf.Like r.counterparts) is is' →
      is'.findIdx? (fun i => i.label? == some k) = is.findIdx? (fun i => i.label? == some l) := by
    intro is is' his
    induction his with
    | nil => rfl
    | @cons i i' is is' hi his ih =>
      have hsame : (i'.label? == some k) = (i.label? == some l) := by
        have hlabel := hi.label?
        generalize i.label? = x at hlabel
        generalize i'.label? = y at hlabel
        cases hlabel with
        | none => rfl
        | @some m m' hm =>
          have hiff : m' = k ↔ m = l :=
            ⟨fun hmk => h.labels_inj (hmk ▸ hm) hk,
              fun hml => Option.some.inj ((hml ▸ hm).symm.trans hk)⟩
          by_cases hml : m = l
          · simp [hml, hiff.2 hml]
          · simp [hml, mt hiff.1 hml]
      rw [List.findIdx?_cons, List.findIdx?_cons, hsame, ih]
  rw [Body.labelIndex?, h.guest_code] at hl
  rw [Body.labelIndex?, spliced_code hb, List.findIdx?_append, hhost, hcopy h.copied, hl]
  simp [Nat.add_comm]

omit h hb in
/-- The host's part of the spliced body: its own code, in its own slots. -/
def hostInset (host spliced : Body) : Inset where
  inner := host
  outer := spliced
  offset := 0
  names :=
    { place := fun v v' => v = v' ∧ Body.Uses host.code v
      label := fun l l' => l = l' ∧ (host.labelIndex? l).isSome
      body := Eq }
  rest := .init spliced.temps

omit h hb in
/-- The copy's part: the guest's code, in slots that were not the host's. -/
def guestInset (host guest spliced : Body) (r : Renaming) (rest : Temps) : Inset where
  inner := guest
  outer := spliced
  offset := host.code.length
  names :=
    { place := fun v v' => r.counterparts.place v v' ∧ Body.Uses guest.code v
      label := fun l l' => r.labels.lookup l = some l' ∧ (guest.labelIndex? l).isSome
      body := Eq }
  rest := rest

theorem hostInset_sound : (hostInset host spliced).Sound where
  name := by rw [Body.withCode_eq hb]; rfl
  scope := by rw [Body.withCode_eq hb]; rfl
  flags := by rw [Body.withCode_eq hb]; rfl
  body := rfl
  code n i hi := by
    have hi : host.code[n]? = some i := hi
    refine ⟨i, ?_, InstrOf.like_self (fun _ => rfl) i (fun v hv => ⟨rfl, i, ?_, hv⟩)
      fun l hl => ⟨rfl, Body.labelIndex?_isSome_iff.2 ?_⟩⟩
    · have hlt := (List.getElem?_eq_some_iff.1 hi).1
      simp only [hostInset, Nat.zero_add, spliced_code hb]
      rw [List.getElem?_append_left hlt]
      exact hi
    · exact List.mem_of_getElem? hi
    · rcases hl with hl | hl
      · exact h.accepted.takes.targets i (List.mem_of_getElem? hi) l hl
      · exact List.mem_filterMap.2 ⟨i, List.mem_of_getElem? hi, hl⟩
  labels l l' hl := by
    obtain ⟨rfl, hsome⟩ := hl
    obtain ⟨n, hn⟩ := Option.isSome_iff_exists.1 hsome
    refine ⟨n, hn, ?_⟩
    simp only [hostInset, Nat.zero_add]
    exact labelIndex?_host hb hn
  places v v' hv := by
    obtain ⟨rfl, -⟩ := hv
    cases v with
    | temp t => exact .inl ⟨t, t, rfl, rfl, rfl⟩
    | lexical => exact .inr ⟨rfl, rfl⟩
  apart t t' u u' ht hu := by
    obtain ⟨ht, -⟩ := ht
    obtain ⟨hu, -⟩ := hu
    cases ht
    cases hu
    exact Iff.rfl

theorem guestInset_sound (hfits : r.Fits) (rest : Temps) :
    (guestInset host guest spliced r rest).Sound where
  name := by
    obtain ⟨n, hn⟩ := h.recoded
    rw [guestInset, Body.withCode_eq hb, Body.withCode_eq hn]
  scope := by
    obtain ⟨n, hn⟩ := h.recoded
    rw [guestInset, Body.withCode_eq hb, Body.withCode_eq hn]
  flags := by
    obtain ⟨n, hn⟩ := h.recoded
    rw [guestInset, Body.withCode_eq hb, Body.withCode_eq hn]
  body := rfl
  code n i hi := by
    simp only [guestInset, h.guest_code] at hi
    obtain ⟨i', hi', hlike⟩ : ∃ i', copy[n]? = some i' ∧ i.Like r.counterparts i' := by
      have hn := (List.getElem?_eq_some_iff.1 hi).1
      have hn' : n < copy.length := h.copied.length_eq ▸ hn
      refine ⟨copy[n], List.getElem?_eq_getElem hn', ?_⟩
      have hget := h.copied.get hn hn'
      rw [List.getElem?_eq_getElem hn, Option.some.injEq] at hi
      simpa [hi] using hget
    have hmem : i ∈ guest.code := by
      rw [h.guest_code]
      exact List.mem_of_getElem? hi
    refine ⟨i', ?_, ?_⟩
    · simp only [guestInset, spliced_code hb]
      rw [List.getElem?_append_right (Nat.le_add_right _ _), Nat.add_sub_cancel_left]
      exact hi'
    refine hlike.imp ?_ ?_ ?_
    · exact fun b b' hbody => hbody
    · exact fun v hv v' hplace => ⟨hplace, i, hmem, hv⟩
    · refine fun l hl l' hlabel => ⟨hlabel, Body.labelIndex?_isSome_iff.2 ?_⟩
      rcases hl with hl | hl
      · exact h.guest_accepted.takes.targets i hmem l hl
      · exact List.mem_filterMap.2 ⟨i, hmem, hl⟩
  labels l l' hl := by
    obtain ⟨hlookup, hsome⟩ := hl
    obtain ⟨n, hn⟩ := Option.isSome_iff_exists.1 hsome
    exact ⟨n, hn, h.labelIndex?_copy hb hlookup hn⟩
  places v v' hv := by
    obtain ⟨hplace, -⟩ := hv
    cases v with
    | temp t =>
      obtain ⟨u, n, hu, hv', -⟩ := h.numbers.name_cases hplace
      cases hu
      exact .inl ⟨t, _, rfl, hv', rfl⟩
    | lexical => exact .inr ⟨hplace, rfl⟩
  apart t t' u u' ht hu := by
    constructor
    · rintro rfl
      exact Variable.temp.inj (Option.some.inj (hu.1.symm.trans ht.1))
    · rintro rfl
      exact Variable.temp.inj (h.numbers.names_inj hfits hu.1 ht.1)

end Splice

end ObjectIr
