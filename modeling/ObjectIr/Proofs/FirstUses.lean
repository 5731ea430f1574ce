import Mathlib.Data.List.Induction
import Mathlib.Data.List.Nodup
import ObjectIr.Pass.Nested

/-!
# First uses

`firstUses` keeps the first occurrence of each element of a list. The variables of a code are
listed so (`usedVariables_eq_firstUses`).
-/

namespace ObjectIr

section FirstUses

variable {α : Type} [DecidableEq α]

/-- The distinct elements of a list, in the order of their first occurrence. -/
def firstUses (as : List α) : List α :=
  as.foldl (fun seen a => if a ∈ seen then seen else seen ++ [a]) []

theorem firstUses_concat (as : List α) (a : α) :
    firstUses (as ++ [a]) = if a ∈ firstUses as then firstUses as else firstUses as ++ [a] := by
  rw [firstUses, List.foldl_concat]
  rfl

theorem mem_firstUses {as : List α} {a : α} : a ∈ firstUses as ↔ a ∈ as := by
  induction as using List.reverseRecOn with
  | nil => rfl
  | append_singleton as b ih =>
    rw [firstUses_concat]
    split
    · next hb =>
      rw [ih, List.mem_append, List.mem_singleton]
      refine ⟨.inl, fun h => h.elim id fun h => ?_⟩
      subst h
      exact ih.1 hb
    · rw [List.mem_append, List.mem_append, ih]

theorem nodup_firstUses (as : List α) : (firstUses as).Nodup := by
  induction as using List.reverseRecOn with
  | nil => exact List.nodup_nil
  | append_singleton as b ih =>
    rw [firstUses_concat]
    split
    · exact ih
    · next hb =>
      rw [← List.concat_eq_append]
      exact ih.concat hb

theorem idxOf?_concat (as : List α) (a b : α) :
    (as ++ [a]).idxOf? b = (as.idxOf? b).or (if a = b then some as.length else none) := by
  simp only [List.idxOf?, List.findIdx?_append]
  by_cases h : a = b <;> simp [h]

theorem idxOf?_eq_some_iff {as : List α} (h : as.Nodup) {a : α} {n : Nat} :
    as.idxOf? a = some n ↔ as[n]? = some a := by
  simp only [List.idxOf?, List.findIdx?_eq_some_iff_getElem, beq_iff_eq, List.getElem?_eq_some_iff]
  constructor
  · rintro ⟨hn, ha, -⟩
    exact ⟨hn, ha⟩
  · rintro ⟨hn, ha⟩
    refine ⟨hn, ha, fun m hm hma => ?_⟩
    exact Nat.ne_of_lt hm (h.getElem_inj_iff.1 (hma.trans ha.symm))

end FirstUses

theorem usedVariables_eq_firstUses (code : List Instr) :
    usedVariables code = firstUses (code.flatMap InstrOf.usedVariables) := rfl

theorem mem_usedVariables {code : List Instr} {v : Variable} :
    v ∈ usedVariables code ↔ ∃ i ∈ code, v ∈ i.usedVariables := by
  rw [usedVariables_eq_firstUses, mem_firstUses, List.mem_flatMap]

end ObjectIr
