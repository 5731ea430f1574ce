import Mathlib.Data.List.Forall2
import ObjectIr.Pass.Renaming
import ObjectIr.Proofs.Correspondence.Code

/-!
# What a copy meets

Copying meets variables and labels one after another (`InstrOf.occurrences`) and settles a name for
each (`Renaming.settled`). A name once settled stays (`Renaming.Extends.meetAll`). So a copy leaves
the renaming that has met all occurrences of the code, and it is the code under the names that this
renaming has settled (`copyCode_meets`).
-/

namespace ObjectIr

abbrev Occurrence := Variable ⊕ Label

/-- The variables and labels of an instruction, in the order in which copying comes to them. -/
def InstrOf.occurrences (i : Instr) : List Occurrence :=
  i.usedVariables.map .inl ++ i.label?.toList.map .inr ++ i.target?.toList.map .inr

namespace Renaming

def meet (r : Renaming) : Occurrence → Renaming
  | .inl v => (r.renamed v).2
  | .inr l => (r.renamedLabel l).2

def meetAll (r : Renaming) (xs : List Occurrence) : Renaming := xs.foldl meet r

theorem meetAll_append (r : Renaming) (xs ys : List Occurrence) :
    r.meetAll (xs ++ ys) = (r.meetAll xs).meetAll ys := List.foldl_append

/--
The names that are settled: those that were given, and without a name a variable that gets no fresh
one stays as it is.
-/
def settled (r : Renaming) : Counterparts where
  place v w := r.names.lookup v = some w ∨
    r.names.lookup v = none ∧ w = v ∧ (r.host? = none ∨ v.isTemp = false)
  label l k := r.labels.lookup l = some k ∨ r.labels.lookup l = none ∧ k = l ∧ r.host? = none
  body := Eq

/-- What one renaming has settled, the other has settled alike. -/
structure Extends (r q : Renaming) : Prop where
  place : ∀ v w, r.settled.place v w → q.settled.place v w
  label : ∀ l k, r.settled.label l k → q.settled.label l k

theorem Extends.refl (r : Renaming) : r.Extends r := ⟨fun _ _ h => h, fun _ _ h => h⟩

theorem Extends.trans {r q p : Renaming} (h : r.Extends q) (k : q.Extends p) : r.Extends p :=
  ⟨fun v w hv => k.place v w (h.place v w hv), fun l n hl => k.label l n (h.label l n hl)⟩

/-- A variable meets a name: one that was settled, or a fresh one that is remembered. -/
theorem renamed_cases (r : Renaming) (v : Variable) :
    (r.renamed v = ((r.renamed v).1, r) ∧ r.settled.place v (r.renamed v).1) ∨
      ∃ t host, v = .temp t ∧ r.host? = some host ∧ r.names.lookup v = none ∧
        r.renamed v =
          let fresh : Variable := .temp ⟨t.kind, host.temps.get t.kind % Temp.indexRange⟩
          (fresh, { r.rename v fresh with
            host? := some { host with
              temps := host.temps.set t.kind (host.temps.get t.kind + 1) } }) := by
  unfold renamed
  cases hv : r.names.lookup v with
  | some w => exact .inl ⟨rfl, .inl hv⟩
  | none =>
    cases hh : r.host? with
    | none => exact .inl ⟨rfl, .inr ⟨hv, rfl, .inl hh⟩⟩
    | some host =>
      cases v with
      | temp t => exact .inr ⟨t, host, rfl, rfl, rfl, rfl⟩
      | lexical => exact .inl ⟨rfl, .inr ⟨hv, rfl, .inr rfl⟩⟩

theorem renamedLabel_cases (r : Renaming) (l : Label) :
    (r.renamedLabel l = ((r.renamedLabel l).1, r) ∧ r.settled.label l (r.renamedLabel l).1) ∨
      ∃ host, r.host? = some host ∧ r.labels.lookup l = none ∧
        r.renamedLabel l = (host.nextLabel, { r with
          labels := (l, host.nextLabel) :: r.labels
          host? := some { host with nextLabel := host.nextLabel.next } }) := by
  unfold renamedLabel
  cases hl : r.labels.lookup l with
  | some k => exact .inl ⟨rfl, .inl hl⟩
  | none =>
    cases hh : r.host? with
    | none => exact .inl ⟨rfl, .inr ⟨hl, rfl, hh⟩⟩
    | some host => exact .inr ⟨host, rfl, rfl, rfl⟩

theorem renamed_settled (r : Renaming) (v : Variable) :
    (r.renamed v).2.settled.place v (r.renamed v).1 := by
  rcases r.renamed_cases v with ⟨h, hs⟩ | ⟨t, host, rfl, -, -, h⟩
  · rw [h]
    exact hs
  · rw [h]
    exact .inl (by simp [rename])

theorem renamedLabel_settled (r : Renaming) (l : Label) :
    (r.renamedLabel l).2.settled.label l (r.renamedLabel l).1 := by
  rcases r.renamedLabel_cases l with ⟨h, hs⟩ | ⟨host, -, -, h⟩
  · rw [h]
    exact hs
  · rw [h]
    exact .inl (by simp)

theorem Extends.meet (r : Renaming) (x : Occurrence) : r.Extends (r.meet x) := by
  cases x with
  | inl v =>
    rw [Renaming.meet]
    rcases r.renamed_cases v with ⟨h, -⟩ | ⟨t, host, rfl, hh, hnone, h⟩
    · rw [h]
      exact .refl r
    · rw [h]
      have hlookup : ∀ u ≠ Variable.temp t, ∀ w : Variable,
          List.lookup u ((.temp t, w) :: r.names) = r.names.lookup u := fun u hu w => by
        simp [List.lookup_cons, beq_false_of_ne hu]
      refine ⟨fun u w hu => ?_, fun l k hl => hl.imp_right fun hl => ?_⟩
      · rcases hu with hu | ⟨hu, rfl, hstay⟩
        · have hne : u ≠ .temp t := fun he => by rw [he, hnone] at hu; cases hu
          exact .inl ((hlookup u hne _).trans hu)
        · have hlex : w.isTemp = false := hstay.resolve_left (by simp [hh])
          have hne : w ≠ .temp t := fun he => by rw [he] at hlex; cases hlex
          exact .inr ⟨(hlookup w hne _).trans hu, rfl, .inr hlex⟩
      · rw [hh] at hl
        cases hl.2.2
  | inr l =>
    rw [Renaming.meet]
    rcases r.renamedLabel_cases l with ⟨h, -⟩ | ⟨host, hh, hnone, h⟩
    · rw [h]
      exact .refl r
    · rw [h]
      refine ⟨fun u w hu => ?_, fun m k hm => ?_⟩
      · rcases hu with hu | ⟨hu, he, hstay⟩
        · exact .inl hu
        · exact .inr ⟨hu, he, .inr (hstay.resolve_left (by simp [hh]))⟩
      · rcases hm with hm | ⟨-, -, hm⟩
        · have hne : m ≠ l := fun he => by rw [he, hnone] at hm; cases hm
          exact .inl (by simpa [List.lookup_cons, beq_false_of_ne hne] using hm)
        · rw [hh] at hm
          cases hm

theorem Extends.meetAll (r : Renaming) (xs : List Occurrence) : r.Extends (r.meetAll xs) := by
  induction xs generalizing r with
  | nil => exact .refl r
  | cons x xs ih => exact (Extends.meet r x).trans (ih (r.meet x))

end Renaming

/-! ### Copying -/

namespace Copying

variable {α β : Type}

/-- A copy is made by meeting the occurrences, and is as described under what is settled then. -/
def Meets (xs : List Occurrence) (rel : Counterparts → α → Prop) (x : Copying α) : Prop :=
  ∀ r : Renaming, ∃ a, x r = .ok a (r.meetAll xs) ∧
    ∀ q, (r.meetAll xs).Extends q → rel q.settled a

variable {xs ys : List Occurrence} {rel : Counterparts → α → Prop} {rel' : Counterparts → β → Prop}

theorem Meets.pure {a : α} (h : ∀ w, w.body = Eq → rel w a) : Meets [] rel (pure a) :=
  fun _ => ⟨a, rfl, fun q _ => h q.settled rfl⟩

theorem Meets.bind {x : Copying α} {f : α → Copying β} (hx : Meets xs rel x)
    (hf : ∀ a, Meets ys (fun w b => rel w a → rel' w b) (f a)) :
    Meets (xs ++ ys) rel' (x >>= f) := by
  intro r
  obtain ⟨a, ha, hrel⟩ := hx r
  obtain ⟨b, hb, hrel'⟩ := hf a (r.meetAll xs)
  refine ⟨b, ?_, fun q hq => ?_⟩
  · rw [Renaming.meetAll_append, ← hb]
    simp only [Bind.bind, EStateM.bind, ha]
  · rw [Renaming.meetAll_append] at hq
    exact hrel' q hq (hrel q ((Renaming.Extends.meetAll _ ys).trans hq))

theorem Meets.congr {x : Copying α} (h : Meets xs rel x) (hxs : xs = ys) : Meets ys rel x := hxs ▸ h

end Copying

open Copying

theorem renamed_meets (v : Variable) :
    Meets [.inl v] (fun w v' => w.place v v') (modifyGet (·.renamed v)) :=
  fun r => ⟨_, rfl, fun _ hq => hq.place _ _ (r.renamed_settled v)⟩

theorem renamedLabel_meets (l : Label) :
    Meets [.inr l] (fun w l' => w.label l l') (modifyGet (·.renamedLabel l)) :=
  fun r => ⟨_, rfl, fun _ hq => hq.label _ _ (r.renamedLabel_settled l)⟩

mutual

/-- No body stands in the place of a value. -/
def OperandOf.bodyFree : Operand → Bool
  | .body _ => false
  | .array os => allBodyFree os
  | _ => true

def OperandOf.allBodyFree : List Operand → Bool
  | [] => true
  | o :: os => bodyFree o && allBodyFree os

end

/-- The bodies that an instruction defines or closes over are not in the place of a value. -/
def InstrOf.bodyFree : Instr → Bool
  | .defineMethod .. | .buildClosure .. => true
  | i => i.operands.all OperandOf.bodyFree

mutual

theorem OperandOf.copied_meets : ∀ o : Operand, o.bodyFree = true →
    Meets (o.reads.map .inl) (fun w o' => o.Like w o') o.copied
  | .var v, _ => by
    simp only [copied, traverse, copiedLeaf]
    exact (renamed_meets v).bind fun v' => .pure fun w _ h => .var h
  | .array os, h => by
    simp only [copied, traverse]
    refine ((copiedAll_meets os (by simpa [bodyFree] using h)).bind fun os' =>
      .pure fun w _ h => .array h).congr (List.append_nil _)
  | .body b, h => by simp [bodyFree] at h
  | .selfObject, _ => .pure fun _ _ => .selfObject
  | .nil, _ => .pure fun _ _ => .nil
  | .bool b, _ => .pure fun _ _ => .bool b
  | .fixnum n, _ => .pure fun _ _ => .fixnum n
  | .float x, _ => .pure fun _ _ => .float x
  | .string s, _ => .pure fun _ _ => .string s
  | .symbol s, _ => .pure fun _ _ => .symbol s
  | .scopeModule, _ => .pure fun _ _ => .scopeModule
  | .undefined, _ => .pure fun _ _ => .undefined

theorem OperandOf.copiedAll_meets : ∀ os : List Operand, allBodyFree os = true →
    Meets ((readsAll os).map .inl) (fun w os' => LikeAll w os os') (traverseAll copiedLeaf os)
  | [], _ => .pure fun _ _ => .nil
  | o :: os, h => by
    simp only [allBodyFree, Bool.and_eq_true] at h
    simp only [traverseAll]
    refine ((copied_meets o h.1).bind fun o' => (copiedAll_meets os h.2).bind fun os' =>
      .pure fun w _ hos ho => .cons ho hos).congr ?_
    rw [readsAll, List.map_append, List.append_nil]

end

theorem OperandOf.mapM_copied_meets {os : List Operand}
    (h : ∀ o ∈ os, Meets (o.reads.map .inl) (fun w o' => o.Like w o') o.copied) :
    Meets ((os.flatMap reads).map .inl) (fun w os' => LikeAll w os os') (os.mapM copied) := by
  induction os with
  | nil => exact .pure fun _ _ => .nil
  | cons o os ih =>
    rw [List.forall_mem_cons] at h
    rw [List.mapM_cons]
    refine (h.1.bind fun o' => (ih h.2).bind fun os' =>
      .pure fun w _ hos ho => .cons ho hos).congr ?_
    rw [List.flatMap_cons, List.map_append, List.append_nil]

/-- The copy of an instruction is the instruction under the new names. -/
theorem InstrOf.copied_meets {i : Instr} (h : i.bodyFree = true) :
    Meets i.occurrences (fun w i' => i.Like w i') i.copied := by
  have hcopied : ∀ o ∈ i.operands, (∀ name b, i ≠ .defineMethod name b) →
      (∀ r b, i ≠ .buildClosure r b) →
      Meets (o.reads.map .inl) (fun w o' => o.Like w o') o.copied := by
    intro o ho hdefine hclosure
    have hall : i.operands.all OperandOf.bodyFree = true := by
      cases i <;> first | exact h | exact absurd rfl (hdefine _ _) | exact absurd rfl (hclosure _ _)
    exact o.copied_meets (List.all_eq_true.1 hall o ho)
  have hoccurrences : ∀ {xs : List Occurrence} {x : Copying Instr},
      Meets xs (fun w i' => i.Like w i') x → xs = i.occurrences →
        Meets i.occurrences (fun w i' => i.Like w i') x := fun h hxs => h.congr hxs
  cases i with
  | copy r o =>
    have ho := hcopied o (by simp [operands]) (by simp) (by simp)
    refine hoccurrences ((renamed_meets r).bind fun r' => ho.bind fun o' =>
      .pure fun w _ ho hr => .copy hr ho) ?_
    simp [occurrences, usedVariables, result?, operands, label?, target?]
  | receiveArg r index =>
    exact (renamed_meets r).bind fun r' => .pure fun w _ hr => .receiveArg hr index
  | receiveBlock r =>
    exact (renamed_meets r).bind fun r' => .pure fun w _ hr => .receiveBlock hr
  | intMath r op o p =>
    have ho := hcopied o (by simp [operands]) (by simp) (by simp)
    have hp := hcopied p (by simp [operands]) (by simp) (by simp)
    refine hoccurrences ((renamed_meets r).bind fun r' => ho.bind fun o' => hp.bind fun p' =>
      .pure fun w _ hp ho hr => .intMath hr op ho hp) ?_
    simp [occurrences, usedVariables, result?, operands, label?, target?]
  | floatMath r op o p =>
    have ho := hcopied o (by simp [operands]) (by simp) (by simp)
    have hp := hcopied p (by simp [operands]) (by simp) (by simp)
    refine hoccurrences ((renamed_meets r).bind fun r' => ho.bind fun o' => hp.bind fun p' =>
      .pure fun w _ hp ho hr => .floatMath hr op ho hp) ?_
    simp [occurrences, usedVariables, result?, operands, label?, target?]
  | label l => exact (renamedLabel_meets l).bind fun l' => .pure fun w _ hl => .label hl
  | jump l => exact (renamedLabel_meets l).bind fun l' => .pure fun w _ hl => .jump hl
  | branchFalse o l =>
    have ho := hcopied o (by simp [operands]) (by simp) (by simp)
    refine hoccurrences (ho.bind fun o' => (renamedLabel_meets l).bind fun l' =>
      .pure fun w _ hl ho => .branchFalse ho hl) ?_
    simp [occurrences, usedVariables, result?, operands, label?, target?]
  | call r o name os p type =>
    have ho := hcopied o (by simp [operands]) (by simp) (by simp)
    have hos := OperandOf.mapM_copied_meets fun x (hx : x ∈ os) =>
      hcopied x (by simp [operands, hx]) (by simp) (by simp)
    cases p with
    | none =>
      refine hoccurrences ((renamed_meets r).bind fun r' => ho.bind fun o' => hos.bind fun os' =>
        .pure fun w _ hos ho hr => .call hr ho name hos .none type) ?_
      simp [occurrences, usedVariables, result?, operands, label?, target?]
    | some p =>
      have hp := hcopied p (by simp [operands]) (by simp) (by simp)
      refine hoccurrences ((renamed_meets r).bind fun r' => ho.bind fun o' => hos.bind fun os' =>
        hp.bind fun p' => .pure fun w _ hp hos ho hr => .call hr ho name hos (.some hp) type) ?_
      simp [occurrences, usedVariables, result?, operands, label?, target?]
  | defineMethod name b => exact .pure fun w hw => .defineMethod name (by rw [hw])
  | defineClass r b o p =>
    have ho := hcopied o (by simp [operands]) (by simp) (by simp)
    have hp := hcopied p (by simp [operands]) (by simp) (by simp)
    refine hoccurrences ((renamed_meets r).bind fun r' => ho.bind fun o' => hp.bind fun p' =>
      .pure fun w hw hp ho hr => .defineClass hr (by rw [hw]) ho hp) ?_
    simp [occurrences, usedVariables, result?, operands, label?, target?]
  | processModuleBody r o =>
    have ho := hcopied o (by simp [operands]) (by simp) (by simp)
    refine hoccurrences ((renamed_meets r).bind fun r' => ho.bind fun o' =>
      .pure fun w _ ho hr => .processModuleBody hr ho) ?_
    simp [occurrences, usedVariables, result?, operands, label?, target?]
  | setVisibility v => exact .pure fun _ _ => .setVisibility v
  | putConst o name p =>
    have ho := hcopied o (by simp [operands]) (by simp) (by simp)
    have hp := hcopied p (by simp [operands]) (by simp) (by simp)
    refine hoccurrences (ho.bind fun o' => hp.bind fun p' =>
      .pure fun w _ hp ho => .putConst ho name hp) ?_
    simp [occurrences, usedVariables, result?, operands, label?, target?]
  | searchConst r name =>
    exact (renamed_meets r).bind fun r' => .pure fun w _ hr => .searchConst hr name
  | buildClosure r b =>
    exact (renamed_meets r).bind fun r' => .pure fun w hw hr => .buildClosure hr (by rw [hw])
  | yield r o os =>
    have ho := hcopied o (by simp [operands]) (by simp) (by simp)
    have hos := OperandOf.mapM_copied_meets fun x (hx : x ∈ os) =>
      hcopied x (by simp [operands, hx]) (by simp) (by simp)
    refine hoccurrences ((renamed_meets r).bind fun r' => ho.bind fun o' => hos.bind fun os' =>
      .pure fun w _ hos ho hr => .yield hr ho hos) ?_
    simp [occurrences, usedVariables, result?, operands, label?, target?]
  | ret o =>
    have ho := hcopied o (by simp [operands]) (by simp) (by simp)
    refine hoccurrences (ho.bind fun o' => .pure fun w _ ho => .ret ho) ?_
    simp [occurrences, usedVariables, result?, operands, label?, target?]
  | nonlocalRet o =>
    have ho := hcopied o (by simp [operands]) (by simp) (by simp)
    refine hoccurrences (ho.bind fun o' => .pure fun w _ ho => .nonlocalRet ho) ?_
    simp [occurrences, usedVariables, result?, operands, label?, target?]
  | raise o =>
    have ho := hcopied o (by simp [operands]) (by simp) (by simp)
    refine hoccurrences (ho.bind fun o' => .pure fun w _ ho => .raise ho) ?_
    simp [occurrences, usedVariables, result?, operands, label?, target?]

/-- Code without bodies in the place of values can be copied, one instruction for another. -/
theorem copyCode_meets {code : List Instr} (h : ∀ i ∈ code, i.bodyFree = true) :
    Meets (code.flatMap InstrOf.occurrences)
      (fun w code' => List.Forall₂ (InstrOf.Like w) code code') (copyCode code) := by
  rw [copyCode]
  induction code with
  | nil => exact .pure fun _ _ => .nil
  | cons i is ih =>
    rw [List.forall_mem_cons] at h
    rw [List.mapM_cons]
    refine ((InstrOf.copied_meets h.1).bind fun i' => (ih h.2).bind fun is' =>
      .pure fun w _ his hi => .cons hi his).congr ?_
    rw [List.flatMap_cons, List.append_nil]

end ObjectIr
