import ObjectIr.Proofs.Inlining.Numbering

/-!
# Copies into a host

A copy has the shape of the original, with every variable and label under the name that the final
renaming gives it (`copyCode_into`). From the numbers of these names it is seen that they are fresh:
as long as the indices of temporaries do not outgrow their range, no two variables share one and
none is the host's (`Renaming.Numbers.name_cases`, `names_inj`), and so it is with the labels
(`Renaming.Numbers.label_cases`, `labels_inj`).
-/

namespace ObjectIr

namespace Renaming

/-- What the host uses, the copy included. -/
def taken (r : Renaming) : Host := r.host?.getD {}

/-- No index that was handed out exceeds its range. -/
def Fits (r : Renaming) : Prop := ∀ k, r.taken.temps.get k ≤ Temp.indexRange

/-- Which names stand for each other: locals for themselves, temporaries and labels as given. -/
def counterparts (r : Renaming) : Counterparts where
  place v w := match v with
    | .temp _ => r.names.lookup v = some w
    | .lexical .. => v = w
  label l k := r.labels.lookup l = some k
  body := Eq

namespace Numbers

variable {host : Host} {vs : List Variable} {ls : List Label} {r : Renaming}
  (h : r.Numbers host [] vs ls)

include h

theorem hosted : r.host? ≠ none := by
  obtain ⟨used, hused, -⟩ := h.supply
  simp [hused]

theorem taken_get (k : TempKind) :
    r.taken.temps.get k = host.temps.get k + (unnamed [] k (firstUses vs)).length := by
  obtain ⟨used, hused, htemps, -⟩ := h.supply
  rw [taken, hused]
  exact htemps k

theorem lookup_eq (v : Variable) : r.names.lookup v = freshName host [] vs v := by
  rw [h.names, List.lookup_nil, Option.none_or]

/-- Only temporaries have names, by their places in the order of first use. -/
theorem place_of_lookup {v w : Variable} (hv : r.names.lookup v = some w) :
    ∃ t i, v = .temp t ∧ (unnamed [] t.kind (firstUses vs))[i]? = some v ∧
      w = .temp ⟨t.kind, (host.temps.get t.kind + i) % Temp.indexRange⟩ := by
  rw [h.lookup_eq] at hv
  cases v with
  | lexical => cases hv
  | temp t =>
    obtain ⟨i, hi, rfl⟩ := Option.map_eq_some_iff.1 hv
    exact ⟨t, i, rfl, (idxOf?_eq_some_iff ((nodup_firstUses vs).filter _)).1 hi, rfl⟩

/-- While all indices fit, none starts over. -/
theorem index_eq (hfits : r.Fits) {k : TempKind} {i : Nat} {v : Variable}
    (hi : (unnamed [] k (firstUses vs))[i]? = some v) :
    (host.temps.get k + i) % Temp.indexRange = host.temps.get k + i := by
  have hle := hfits k
  rw [h.taken_get] at hle
  have hlt := (List.getElem?_eq_some_iff.1 hi).1
  exact Nat.mod_eq_of_lt (by omega)

/-- A name is that of a temporary of the same kind, and none of the host's. -/
theorem name_cases {v w : Variable} (hv : r.names.lookup v = some w) :
    ∃ t n, v = .temp t ∧ w = .temp ⟨t.kind, n⟩ ∧ (r.Fits → host.temps.get t.kind ≤ n) := by
  obtain ⟨t, i, ht, hi, rfl⟩ := h.place_of_lookup hv
  exact ⟨t, _, ht, rfl, fun hfits => by rw [h.index_eq hfits hi]; exact Nat.le_add_right _ _⟩

theorem names_inj (hfits : r.Fits) {v v' w : Variable} (hv : r.names.lookup v = some w)
    (hv' : r.names.lookup v' = some w) : v = v' := by
  obtain ⟨t, i, -, hi, rfl⟩ := h.place_of_lookup hv
  obtain ⟨t', i', -, hi', heq⟩ := h.place_of_lookup hv'
  rw [h.index_eq hfits hi, h.index_eq hfits hi', Variable.temp.injEq, Temp.mk.injEq] at heq
  obtain ⟨hk, hn⟩ := heq
  rw [← hk] at hi' hn
  obtain rfl : i = i' := by omega
  exact Option.some.inj (hi.symm.trans hi')

theorem place_of_settled {v w : Variable} (hv : r.settled.place v w) :
    r.counterparts.place v w := by
  cases v with
  | temp t => exact hv.resolve_right fun hv => hv.2.2.elim h.hosted (by simp [Variable.isTemp])
  | lexical name depth offset =>
    rcases hv with hv | ⟨-, rfl, -⟩
    · obtain ⟨t, -, ht, -⟩ := h.place_of_lookup hv
      cases ht
    · rfl

theorem label_of_settled {l k : Label} (hl : r.settled.label l k) : r.counterparts.label l k :=
  hl.resolve_right fun hl => h.hosted hl.2.2

/-- A label's name has the number of its place behind the host's, while the numbers fit. -/
theorem label_cases
    (hfit : host.nextLabel.number.toNat + (firstUses ls).length ≤ Label.numberRange) {l k : Label}
    (hl : r.labels.lookup l = some k) :
    ∃ i : Nat, (firstUses ls)[i]? = some l ∧
      k.number.toNat = host.nextLabel.number.toNat + i := by
  rw [h.labels] at hl
  obtain ⟨i, hi, rfl⟩ := Option.map_eq_some_iff.1 hl
  rw [idxOf?_eq_some_iff (nodup_firstUses ls)] at hi
  have hlt := (List.getElem?_eq_some_iff.1 hi).1
  exact ⟨i, hi, Label.toNat_after (by omega)⟩

theorem labels_inj
    (hfit : host.nextLabel.number.toNat + (firstUses ls).length ≤ Label.numberRange)
    {l l' k : Label} (hl : r.labels.lookup l = some k) (hl' : r.labels.lookup l' = some k) :
    l = l' := by
  obtain ⟨i, hi, hk⟩ := h.label_cases hfit hl
  obtain ⟨i', hi', hk'⟩ := h.label_cases hfit hl'
  obtain rfl : i = i' := by omega
  exact Option.some.inj (hi.symm.trans hi')

end Numbers

end Renaming

/-- Code without bodies in the place of values can be copied out of the way of a host. -/
theorem copyCode_into (host : Host) {code : List Instr} (hfree : ∀ i ∈ code, i.bodyFree = true) :
    ∃ copy r, copyCode code (.into host.temps host.nextLabel.number) = .ok copy r ∧
      List.Forall₂ (InstrOf.Like r.counterparts) code copy ∧
      r.Numbers host [] (code.flatMap InstrOf.usedVariables)
        (code.flatMap fun i => i.label?.toList ++ i.target?.toList) := by
  obtain ⟨copy, hcopy, hlike⟩ :=
    copyCode_meets hfree (.into host.temps host.nextLabel.number)
  have h := Renaming.numbers_copied host [] code
  refine ⟨copy, _, hcopy, (hlike _ (.refl _)).imp fun i i' hi => ?_, h⟩
  exact hi.imp (by exact fun _ _ hb => hb) (fun v _ w hv => h.place_of_settled hv)
    fun l _ k hl => h.label_of_settled hl

end ObjectIr
