import ObjectIr.Proofs.FirstUses
import ObjectIr.Proofs.Inlining.Tracing

/-!
# The numbers of a copy

Code copied out of the way of a host goes through one map of its variables and one of its labels.
Names that were given beforehand are kept to. The other temporaries of a kind take the slots behind
the host's, and the labels the numbers behind the host's, each in the order of first use
(`copyCode_numbered`). While copying, the slots given out are those of the occurrences met so far
(`Renaming.Numbers`), from one occurrence to the next (`Renaming.numbers_meet`).
-/

namespace ObjectIr

/-- The label that is so many numbers further on, past the highest number from zero again. -/
def Label.after (l : Label) (n : Nat) : Label := ⟨l.number + BitVec.ofNat 32 n⟩

@[simp] theorem Label.after_zero (l : Label) : l.after 0 = l := by simp [after]

theorem Label.next_after (l : Label) (n : Nat) : (l.after n).next = l.after (n + 1) := by
  simp only [after, next, BitVec.ofNat_add, BitVec.add_assoc]
  rfl

theorem Label.toNat_after {l : Label} {n : Nat} (h : l.number.toNat + n < Label.numberRange) :
    (l.after n).number.toNat = l.number.toNat + n := by
  rw [after, BitVec.toNat_add, BitVec.toNat_ofNat, Nat.add_mod_mod]
  exact Nat.mod_eq_of_lt h

/-- The distinct labels of a code, in the order in which they stand in it. -/
def usedLabels (code : List Instr) : List Label :=
  firstUses (code.flatMap fun i => i.label?.toList ++ i.target?.toList)

def Variable.hasKind (k : TempKind) : Variable → Bool
  | .temp t => t.kind = k
  | .lexical .. => false

/-- The temporaries of a kind that have been given no name. -/
def unnamed (given : List (Variable × Variable)) (k : TempKind) (vs : List Variable) :
    List Variable := vs.filter fun v => v.hasKind k && (given.lookup v).isNone

section Unnamed

variable {given : List (Variable × Variable)} {k : TempKind} {vs : List Variable} {v : Variable}

theorem mem_unnamed : v ∈ unnamed given k vs ↔
    v ∈ vs ∧ v.hasKind k = true ∧ given.lookup v = none := by
  simp [unnamed]

theorem hasKind_iff : v.hasKind k = true ↔ ∃ t : Temp, v = .temp t ∧ t.kind = k := by
  cases v <;> simp [Variable.hasKind]

theorem unnamed_firstUses_concat_of_not (h : v ∈ vs ∨ v.hasKind k = false ∨ given.lookup v ≠ none) :
    unnamed given k (firstUses (vs ++ [v])) = unnamed given k (firstUses vs) := by
  rw [firstUses_concat]
  split
  · rfl
  · next hv =>
    rw [mem_firstUses] at hv
    have hout : (v.hasKind k && (given.lookup v).isNone) = false := by
      rcases h with h | h | h
      · exact absurd h hv
      · rw [h, Bool.false_and]
      · rw [Option.isNone_eq_false_iff.2 (Option.isSome_iff_ne_none.2 h), Bool.and_false]
    simp [unnamed, hout]

theorem unnamed_firstUses_concat (hv : v ∉ vs) (hk : v.hasKind k = true)
    (hnone : given.lookup v = none) :
    unnamed given k (firstUses (vs ++ [v])) = unnamed given k (firstUses vs) ++ [v] := by
  rw [firstUses_concat, if_neg (mem_firstUses.not.2 hv)]
  simp [unnamed, hk, hnone]

end Unnamed

/-! ### While copying -/

namespace Renaming

variable {host : Host} {given : List (Variable × Variable)} {vs : List Variable} {ls : List Label}
  {r : Renaming}

/-- The slot that a temporary without a given name has, once it was met. -/
def freshName (host : Host) (given : List (Variable × Variable)) (vs : List Variable) :
    Variable → Option Variable
  | .temp t => ((unnamed given t.kind (firstUses vs)).idxOf? (.temp t)).map fun i =>
    .temp ⟨t.kind, (host.temps.get t.kind + i) % Temp.indexRange⟩
  | .lexical .. => none

/-- What has been named and numbered after some variables and labels. -/
structure Numbers (host : Host) (given : List (Variable × Variable)) (vs : List Variable)
    (ls : List Label) (r : Renaming) : Prop where
  supply : ∃ used : Host, r.host? = some used ∧
    (∀ k, used.temps.get k = host.temps.get k + (unnamed given k (firstUses vs)).length) ∧
    used.nextLabel = host.nextLabel.after (firstUses ls).length
  names : ∀ v, r.names.lookup v = (given.lookup v).or (freshName host given vs v)
  labels : ∀ l, r.labels.lookup l =
    ((firstUses ls).idxOf? l).map host.nextLabel.after

/-- Names given one after another; the last one of a variable counts. -/
def naming (r : Renaming) (names : List (Variable × Variable)) : Renaming :=
  names.foldl (fun r e => r.rename e.1 e.2) r

theorem naming_eq (r : Renaming) (names : List (Variable × Variable)) :
    r.naming names = { r with names := names.reverse ++ r.names } := by
  induction names generalizing r with
  | nil => rfl
  | cons e names ih =>
    rw [naming, List.foldl_cons]
    refine (ih (r.rename e.1 e.2)).trans ?_
    simp [rename]

theorem numbers_start (host : Host) (names : List (Variable × Variable)) :
    ((into host.temps host.nextLabel.number).naming names).Numbers host names.reverse [] [] := by
  rw [naming_eq]
  refine ⟨⟨host, rfl, fun k => rfl, (Label.after_zero _).symm⟩, fun v => ?_, fun l => rfl⟩
  have hnone : freshName host names.reverse [] v = none := by cases v <;> rfl
  rw [hnone, Option.or_none]
  simp [into]

theorem freshName_concat_of_not {u : Variable}
    (h : ∀ k, unnamed given k (firstUses (vs ++ [u])) = unnamed given k (firstUses vs))
    (v : Variable) : freshName host given (vs ++ [u]) v = freshName host given vs v := by
  cases v with
  | temp t => rw [freshName, freshName, h]
  | lexical => rfl

/-- Meeting a variable that needs no slot, or has one, changes nothing. -/
theorem Numbers.concat_of_not (h : r.Numbers host given vs ls) {u : Variable}
    (hu : ∀ k, unnamed given k (firstUses (vs ++ [u])) = unnamed given k (firstUses vs)) :
    r.Numbers host given (vs ++ [u]) ls := by
  obtain ⟨used, hused, htemps, hnext⟩ := h.supply
  refine ⟨⟨used, hused, fun k => by rw [hu, htemps], hnext⟩, fun v => ?_, h.labels⟩
  rw [h.names, freshName_concat_of_not hu]

theorem numbers_renamed (h : r.Numbers host given vs ls) (u : Variable) :
    (r.renamed u).2.Numbers host given (vs ++ [u]) ls := by
  obtain ⟨used, hused, htemps, hnext⟩ := h.supply
  rcases r.renamed_cases u with ⟨hr, hsettled⟩ | ⟨t, used', rfl, hused', hnone, hr⟩
  · rw [hr]
    refine h.concat_of_not fun k => unnamed_firstUses_concat_of_not ?_
    rcases hsettled with hw | ⟨-, -, hstay⟩
    · rw [h.names, Option.or_eq_some_iff] at hw
      rcases hw with hw | ⟨-, hw⟩
      · exact .inr (.inr (by rw [hw]; simp))
      · cases u with
        | lexical => cases hw
        | temp t =>
          obtain ⟨i, hi, -⟩ := Option.map_eq_some_iff.1 hw
          have hmem := List.isSome_idxOf?.1 (Option.isSome_of_mem hi)
          exact .inl (mem_firstUses.1 (mem_unnamed.1 hmem).1)
    · refine .inr (.inl ?_)
      have hlex : u.isTemp = false := hstay.resolve_left (by simp [hused])
      cases u with
      | temp t => cases hlex
      | lexical => rfl
  · obtain rfl : used = used' := Option.some.inj (hused.symm.trans hused')
    rw [hr]
    rw [h.names, Option.or_eq_none_iff] at hnone
    obtain ⟨hgiven, hfresh⟩ := hnone
    have hkind : (Variable.temp t).hasKind t.kind = true := hasKind_iff.2 ⟨t, rfl, rfl⟩
    have hnew : .temp t ∉ vs := fun hmem => by
      have hin := mem_unnamed.2 ⟨mem_firstUses.2 hmem, hkind, hgiven⟩
      rw [freshName, Option.map_eq_none_iff, List.idxOf?_eq_none_iff] at hfresh
      exact hfresh hin
    have hsame : unnamed given t.kind (firstUses (vs ++ [.temp t])) =
        unnamed given t.kind (firstUses vs) ++ [.temp t] :=
      unnamed_firstUses_concat hnew hkind hgiven
    have hother : ∀ k ≠ t.kind, unnamed given k (firstUses (vs ++ [.temp t])) =
        unnamed given k (firstUses vs) := fun k hk =>
      unnamed_firstUses_concat_of_not (.inr (.inl (by simp [Variable.hasKind, Ne.symm hk])))
    refine ⟨⟨_, rfl, fun k => ?_, hnext⟩, fun v => ?_, h.labels⟩
    · rw [TempCounts.get_set]
      split
      · next hk =>
        subst hk
        rw [hsame, htemps, List.length_append, List.length_singleton, Nat.add_assoc]
      · next hk => rw [hother k (Ne.symm hk), htemps]
    · simp only [rename, List.lookup_cons]
      split
      · next heq =>
        rw [beq_iff_eq] at heq
        subst heq
        rw [freshName, Option.map_eq_none_iff] at hfresh
        rw [hgiven, Option.none_or, freshName, hsame, idxOf?_concat, hfresh, Option.none_or,
          if_pos rfl, Option.map_some, htemps]
      · next hne =>
        rw [h.names]
        cases v with
        | lexical => rfl
        | temp t' =>
          have hne' : ¬Variable.temp t = .temp t' := fun he => by simp [he] at hne
          by_cases hk : t'.kind = t.kind
          · rw [freshName, freshName, hk, hsame, idxOf?_concat, if_neg hne', Option.or_none]
          · rw [freshName, freshName, hother _ hk]

theorem numbers_renamedLabel (h : r.Numbers host given vs ls) (l : Label) :
    (r.renamedLabel l).2.Numbers host given vs (ls ++ [l]) := by
  obtain ⟨used, hused, htemps, hnext⟩ := h.supply
  rcases r.renamedLabel_cases l with ⟨hr, hsettled⟩ | ⟨used', hused', hnone, hr⟩
  · have hmem : l ∈ firstUses ls := by
      rcases hsettled with hk | ⟨-, -, hnone⟩
      · rw [h.labels] at hk
        obtain ⟨i, hi, -⟩ := Option.map_eq_some_iff.1 hk
        exact List.isSome_idxOf?.1 (Option.isSome_of_mem hi)
      · rw [hused] at hnone
        cases hnone
    have hsame : firstUses (ls ++ [l]) = firstUses ls := by rw [firstUses_concat, if_pos hmem]
    rw [hr]
    exact ⟨⟨used, hused, htemps, by rw [hsame, hnext]⟩, h.names, fun m => by rw [hsame, h.labels]⟩
  · obtain rfl : used = used' := Option.some.inj (hused.symm.trans hused')
    rw [hr]
    rw [h.labels, Option.map_eq_none_iff] at hnone
    have hnew : firstUses (ls ++ [l]) = firstUses ls ++ [l] := by
      rw [firstUses_concat, if_neg (List.idxOf?_eq_none_iff.1 hnone)]
    refine ⟨⟨_, rfl, htemps, ?_⟩, h.names, fun m => ?_⟩
    · rw [hnew, hnext, Label.next_after, List.length_append, List.length_singleton]
    · rw [hnew, idxOf?_concat, List.lookup_cons]
      split
      · next heq =>
        rw [beq_iff_eq] at heq
        subst heq
        rw [hnone, Option.none_or, if_pos rfl, Option.map_some, hnext]
      · next hne =>
        have hne' : ¬l = m := fun he => by simp [he] at hne
        rw [h.labels, if_neg hne', Option.or_none]

/-- One occurrence more. -/
theorem numbers_meet (h : r.Numbers host given vs ls) (x : Occurrence) :
    (r.meet x).Numbers host given (vs ++ x.getLeft?.toList) (ls ++ x.getRight?.toList) := by
  cases x with
  | inl v =>
    simp only [Sum.getLeft?_inl, Sum.getRight?_inl, Option.toList_some, Option.toList_none,
      List.append_nil]
    exact numbers_renamed h v
  | inr l =>
    simp only [Sum.getLeft?_inr, Sum.getRight?_inr, Option.toList_some, Option.toList_none,
      List.append_nil]
    exact numbers_renamedLabel h l

theorem numbers_meetAll (h : r.Numbers host given vs ls) (xs : List Occurrence) :
    (r.meetAll xs).Numbers host given (vs ++ xs.filterMap Sum.getLeft?)
      (ls ++ xs.filterMap Sum.getRight?) := by
  induction xs generalizing r vs ls with
  | nil => simpa [meetAll] using h
  | cons x xs ih =>
    have hxs := ih (numbers_meet h x)
    rw [List.append_assoc, List.append_assoc] at hxs
    have hcons : ∀ {β : Type} (f : Occurrence → Option β),
        (f x).toList ++ xs.filterMap f = (x :: xs).filterMap f := fun f => by
      rw [List.filterMap_cons]
      cases f x <;> rfl
    rw [hcons, hcons] at hxs
    exact hxs

end Renaming

/-! ### The copy -/

theorem filterMap_getLeft?_occurrences (code : List Instr) :
    (code.flatMap InstrOf.occurrences).filterMap Sum.getLeft? =
      code.flatMap InstrOf.usedVariables := by
  induction code with
  | nil => rfl
  | cons i is ih =>
    rw [List.flatMap_cons, List.flatMap_cons, List.filterMap_append, ih]
    simp [InstrOf.occurrences, List.filterMap_map, Function.comp_def]

theorem filterMap_getRight?_occurrences (code : List Instr) :
    (code.flatMap InstrOf.occurrences).filterMap Sum.getRight? =
      code.flatMap fun i => i.label?.toList ++ i.target?.toList := by
  induction code with
  | nil => rfl
  | cons i is ih =>
    rw [List.flatMap_cons, List.flatMap_cons, List.filterMap_append, ih]
    simp [InstrOf.occurrences, List.filterMap_map, Function.comp_def]

/-- The renaming that a copy leaves has numbered what stands in the code. -/
theorem Renaming.numbers_copied (host : Host) (names : List (Variable × Variable))
    (code : List Instr) :
    (((into host.temps host.nextLabel.number).naming names).meetAll
      (code.flatMap InstrOf.occurrences)).Numbers host names.reverse
      (code.flatMap InstrOf.usedVariables)
      (code.flatMap fun i => i.label?.toList ++ i.target?.toList) := by
  have h := numbers_meetAll (numbers_start host names) (code.flatMap InstrOf.occurrences)
  rw [filterMap_getLeft?_occurrences, filterMap_getRight?_occurrences] at h
  exact h

/--
Code and its copy into a host: one map of variables and one of labels goes through all of it. Names
given beforehand are kept to, other locals stay, and other temporaries and labels are numbered in
the order of their first use, behind those of the host. Numbers of labels have 32 bits.
-/
structure Numbered (host : Host) (given : List (Variable × Variable)) (code copy : List Instr)
    (f : Variable → Variable) (g : Label → Label) (counts : TempCounts) : Prop where
  like : List.Forall₂ (InstrOf.Like ⟨fun v w => w = f v, fun l k => k = g l, Eq⟩) code copy
  named : ∀ v w, given.lookup v = some w → f v = w
  lexical : ∀ v, given.lookup v = none → v.isTemp = false → f v = v
  temp : ∀ k i v, (unnamed given k (usedVariables code))[i]? = some v →
    f v = .temp ⟨k, host.temps.get k + i⟩
  label : ∀ i l, (usedLabels code)[i]? = some l → g l = host.nextLabel.after i
  labelNumber : ∀ i l, (usedLabels code)[i]? = some l →
    host.nextLabel.number.toNat + i < Label.numberRange →
      (g l).number.toNat = host.nextLabel.number.toNat + i
  counts : ∀ k, counts.get k = host.temps.get k + (unnamed given k (usedVariables code)).length

section Copy

variable {host : Host} {given : List (Variable × Variable)} {code copy : List Instr}

theorem Renaming.Numbers.numbered {r : Renaming}
    (h : r.Numbers host given (code.flatMap InstrOf.usedVariables)
      (code.flatMap fun i => i.label?.toList ++ i.target?.toList))
    (hcopy : List.Forall₂ (InstrOf.Like r.settled) code copy)
    (hfits : ∀ k, host.temps.get k + (unnamed given k (usedVariables code)).length ≤
      Temp.indexRange) :
    ∃ counts, r.hostTemps? = some counts ∧
      Numbered host given code copy (fun v => (r.names.lookup v).getD v)
        (fun l => (r.labels.lookup l).getD l) counts := by
  obtain ⟨used, hused, htemps, -⟩ := h.supply
  have hlabel : ∀ i l, (usedLabels code)[i]? = some l →
      (r.labels.lookup l).getD l = host.nextLabel.after i := fun i l hl => by
    have hidx := (idxOf?_eq_some_iff (nodup_firstUses _)).2 hl
    simp only [h.labels, hidx, Option.map_some, Option.getD_some]
  refine ⟨used.temps, by rw [hostTemps?, hused]; rfl, ?_⟩
  exact {
    like := by
      have himp : ∀ i i' : Instr, i.Like r.settled i' →
          i.Like ⟨fun v w => w = (r.names.lookup v).getD v,
            fun l k => k = (r.labels.lookup l).getD l, Eq⟩ i' := by
        refine fun i i' hi => hi.imp (by exact fun _ _ hb => hb) (fun v _ w hw => ?_)
          fun l _ k hk => ?_
        · rcases hw with hw | ⟨hnone, rfl, -⟩
          · simp [hw]
          · simp [hnone]
        · rcases hk with hk | ⟨hnone, rfl, -⟩
          · simp [hk]
          · simp [hnone]
      exact hcopy.imp himp
    named := fun v w hv => by simp only [h.names, hv, Option.some_or, Option.getD_some]
    lexical := fun v hnone hv => by
      have hfresh : freshName host given (code.flatMap InstrOf.usedVariables) v = none := by
        cases v with
        | temp t => cases hv
        | lexical => rfl
      simp only [h.names, hnone, hfresh, Option.or_none, Option.getD_none]
    temp := fun k i v hv => by
      obtain ⟨hmem, hkind, hnone⟩ := mem_unnamed.1 (List.mem_of_getElem? hv)
      obtain ⟨t, rfl, rfl⟩ := hasKind_iff.1 hkind
      have hi : i < (unnamed given t.kind (usedVariables code)).length :=
        (List.getElem?_eq_some_iff.1 hv).1
      have hlt : host.temps.get t.kind + i < Temp.indexRange :=
        Nat.lt_of_lt_of_le (by omega) (hfits t.kind)
      have hidx : (unnamed given t.kind (usedVariables code)).idxOf? (.temp t) = some i :=
        (idxOf?_eq_some_iff ((nodup_firstUses _).filter _)).2 hv
      simp only [h.names, hnone, Option.none_or, freshName]
      rw [← usedVariables_eq_firstUses, hidx, Option.map_some, Option.getD_some,
        Nat.mod_eq_of_lt hlt]
    label := hlabel
    labelNumber := fun i l hl hlt => by rw [hlabel i l hl, Label.toNat_after hlt]
    counts := htemps }

namespace Numbered

variable {f : Variable → Variable} {g : Label → Label} {counts : TempCounts}
  (h : Numbered host given code copy f g counts)

include h

/-- What a variable becomes: its given name, itself, or the slot of its place in the order. -/
theorem cases {v : Variable} (hv : v ∈ usedVariables code) :
    given.lookup v = some (f v) ∨ (f v = v ∧ v.isTemp = false) ∨
      ∃ k i, (unnamed given k (usedVariables code))[i]? = some v ∧
        f v = .temp ⟨k, host.temps.get k + i⟩ := by
  cases hg : given.lookup v with
  | some w => exact .inl (by rw [h.named v w hg])
  | none =>
    cases v with
    | lexical name depth offset => exact .inr (.inl ⟨h.lexical _ hg rfl, rfl⟩)
    | temp t =>
      obtain ⟨i, hi⟩ := List.mem_iff_getElem?.1
        (mem_unnamed.2 ⟨hv, hasKind_iff.2 ⟨t, rfl, rfl⟩, hg⟩)
      exact .inr (.inr ⟨t.kind, i, hi, h.temp _ _ _ hi⟩)

variable (hgiven : ∀ v t, given.lookup v = some (.temp t) → host.temps.holds t = true)

include hgiven

/-- No other variable takes the slot that an unnamed temporary takes. -/
theorem eq_of_eq {k : TempKind} {v v' : Variable} (hv : v ∈ unnamed given k (usedVariables code))
    (hv' : v' ∈ usedVariables code) (heq : f v' = f v) : v' = v := by
  obtain ⟨i, hi⟩ := List.mem_iff_getElem?.1 hv
  rw [h.temp k i v hi] at heq
  rcases h.cases hv' with hg | ⟨hf, hlex⟩ | ⟨k', j, hj, hf⟩
  · rw [heq] at hg
    have hlt := of_decide_eq_true (hgiven _ _ hg)
    exact absurd hlt (by simp)
  · rw [← hf, heq] at hlex
    cases hlex
  · rw [hf, Variable.temp.injEq, Temp.mk.injEq] at heq
    obtain ⟨rfl, hij⟩ := heq
    obtain rfl : j = i := by omega
    exact Option.some.inj (hj.symm.trans hi)

/-- The counts have room for every temporary of the copy. -/
theorem holds {t : Temp} (ht : .temp t ∈ usedVariables copy) : counts.holds t = true := by
  obtain ⟨i', hi', ht⟩ := mem_usedVariables.1 ht
  obtain ⟨i, hi, hlike⟩ := (exists_of_forall₂ h.like).2 i' hi'
  obtain ⟨v, hv, hfv⟩ := (exists_of_forall₂ hlike.usedVariables).2 _ ht
  have hv : v ∈ usedVariables code := mem_usedVariables.2 ⟨i, hi, hv⟩
  refine decide_eq_true ?_
  rw [h.counts]
  rcases h.cases hv with hg | ⟨hf, hlex⟩ | ⟨k, j, hj, hf⟩
  · rw [← hfv] at hg
    exact Nat.lt_of_lt_of_le (of_decide_eq_true (hgiven _ _ hg)) (Nat.le_add_right _ _)
  · rw [← hf, ← hfv] at hlex
    cases hlex
  · rw [← hfv, Variable.temp.injEq] at hf
    have hlt := (List.getElem?_eq_some_iff.1 hj).1
    rw [hf]
    simp only
    omega

end Numbered

end Copy

/--
Code without bodies in the place of values can be copied into a host, names given beforehand being
those of locals or of the host's temporaries: under one map, with exact numbers, and with no two
variables under one name unless the names were given.
-/
theorem copyCode_numbered (host : Host) (names : List (Variable × Variable)) (code : List Instr)
    (hfree : ∀ i ∈ code, i.bodyFree = true)
    (hgiven : ∀ v t, names.reverse.lookup v = some (.temp t) → host.temps.holds t = true)
    (hfits : ∀ k, host.temps.get k + (unnamed names.reverse k (usedVariables code)).length ≤
      Temp.indexRange) :
    ∃ copy r f g counts,
      copyCode code ((Renaming.into host.temps host.nextLabel.number).naming names) = .ok copy r ∧
        r.hostTemps? = some counts ∧ Numbered host names.reverse code copy f g counts ∧
        (∀ t, .temp t ∈ usedVariables copy → counts.holds t = true) ∧
        ∀ k, ∀ v ∈ unnamed names.reverse k (usedVariables code), ∀ v' ∈ usedVariables code,
          f v' = f v → v' = v := by
  obtain ⟨copy, hcopy, hlike⟩ := copyCode_meets hfree
    ((Renaming.into host.temps host.nextLabel.number).naming names)
  obtain ⟨counts, hcounts, h⟩ :=
    (Renaming.numbers_copied host names code).numbered (hlike _ (.refl _)) hfits
  exact ⟨copy, _, _, _, counts, hcopy, hcounts, h, fun t ht => h.holds hgiven ht,
    fun k v hv v' hv' heq => h.eq_of_eq hgiven hv hv' heq⟩

/-- Temporaries of two kinds inside arrays, and a label that is jumped to before it stands. -/
def nestedCode : List Instr :=
  [.copy (.temp ⟨.generic, 0⟩) (.array [.var (.temp ⟨.generic, 3⟩),
      .array [.var (.temp ⟨.fixnum, 0⟩), .var (.lexical "y" 0 0)]]),
    .branchFalse (.var (.temp ⟨.generic, 3⟩)) ⟨2⟩, .label ⟨0⟩, .jump ⟨0⟩, .label ⟨2⟩,
    .ret (.var (.temp ⟨.generic, 0⟩))]

def nestedNames : List (Variable × Variable) := [(.temp ⟨.generic, 0⟩, .temp ⟨.generic, 1⟩)]

theorem copyCode_numbered_nestedCode :
    ∃ copy r f g counts,
      copyCode nestedCode ((Renaming.into { generic := 2 } 4).naming nestedNames) = .ok copy r ∧
        r.hostTemps? = some counts ∧
        Numbered ⟨{ generic := 2 }, ⟨4⟩⟩ nestedNames.reverse nestedCode copy f g counts := by
  have hgiven : ∀ v t, nestedNames.reverse.lookup v = some (.temp t) →
      TempCounts.holds { generic := 2 } t = true := by
    intro v t h
    simp only [nestedNames, List.reverse_singleton, List.lookup_cons, List.lookup_nil] at h
    split at h
    · cases h
      rfl
    · cases h
  obtain ⟨copy, r, f, g, counts, hcopy, hcounts, h, -⟩ :=
    copyCode_numbered ⟨{ generic := 2 }, ⟨4⟩⟩ nestedNames nestedCode (by decide) hgiven
      (fun k => by cases k <;> decide)
  exact ⟨copy, r, f, g, counts, hcopy, hcounts, h⟩

end ObjectIr
