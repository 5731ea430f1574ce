import Mathlib.Data.List.Forall2
import ObjectIr.Pass.Substitution

/-!
# Simplified operands and instructions

What simplification does to each form of operand and instruction. It replaces variables at their
lookup and goes into arrays (`simplified_var`, `simplified_array`), each operand of an instruction
is simplified in its place (`operands_simplified`), and all else stays (`blank_simplified`).
-/

namespace ObjectIr

namespace Substitution

/-- What stands for a variable: its replacement, if forced or constant, and else itself. -/
def Puts (values : Substitution) (force : Bool) (v : Variable) (o : Operand) : Prop :=
  (values.lookup? v = some o ∧ (force = true ∨ o.isConstant = true)) ∨
    (o = .var v ∧ ∀ w, values.lookup? v = some w → force = false ∧ w.isConstant = false)

theorem puts_replace (values : Substitution) (force : Bool) (v : Variable) :
    values.Puts force v (values.replace force (.var v)) := by
  rw [replace]
  cases hl : values.lookup? v with
  | none => exact .inr ⟨rfl, by simp [hl]⟩
  | some o =>
    by_cases ho : force = true ∨ o.isConstant = true
    · simp only [Bool.or_eq_true, if_pos ho]
      exact .inl ⟨hl, ho⟩
    · simp only [Bool.or_eq_true, if_neg ho]
      rw [not_or, Bool.not_eq_true, Bool.not_eq_true] at ho
      exact .inr ⟨rfl, fun w hw => by rw [hl] at hw; cases hw; exact ho⟩

end Substitution

variable (values : Substitution) (force : Bool)

namespace OperandOf

theorem simplified_var (v : Variable) :
    simplified (.var v) values force = values.replace force (.var v) := rfl

theorem simplified_array (os : List Operand) :
    simplified (.array os) values force = .array (os.map fun o => o.simplified values force) := by
  have hall : ∀ os : List Operand,
      Id.run (traverseAll (fun leaf => pure (values.replace force leaf)) os) =
        os.map fun o => o.simplified values force := by
    intro os
    induction os with
    | nil => rfl
    | cons o os ih => rw [List.map_cons, ← ih]; rfl
  rw [← hall]
  rfl

mutual

theorem simplified_nil : ∀ o : Operand, o.simplified [] force = o
  | .array os => by
    rw [simplified_array, map_simplified_nil os]
  | .var _ | .selfObject | .nil | .bool _ | .fixnum _ | .float _ | .string _ | .symbol _
  | .scopeModule | .undefined | .body _ => rfl

theorem map_simplified_nil : ∀ os : List Operand, (os.map fun o => o.simplified [] force) = os
  | [] => rfl
  | o :: os => by rw [List.map_cons, simplified_nil o, map_simplified_nil os]

end

section Congr

variable {values values' : Substitution} {force force' : Bool}

mutual

/-- Only what is known of the variables that are read matters. -/
theorem simplified_congr : ∀ {o : Operand},
    (∀ v ∈ o.reads, values.replace force (.var v) = values'.replace force' (.var v)) →
      o.simplified values force = o.simplified values' force'
  | .var v, h => h v (List.mem_singleton.2 rfl)
  | .array os, h => by rw [simplified_array, simplified_array, map_simplified_congr h]
  | .selfObject, _ | .nil, _ | .bool _, _ | .fixnum _, _ | .float _, _ | .string _, _
  | .symbol _, _ | .scopeModule, _ | .undefined, _ | .body _, _ => rfl

theorem map_simplified_congr : ∀ {os : List Operand},
    (∀ v ∈ readsAll os, values.replace force (.var v) = values'.replace force' (.var v)) →
      (os.map fun o => o.simplified values force) = os.map fun o => o.simplified values' force'
  | [], _ => rfl
  | o :: os, h => by
    rw [List.map_cons, List.map_cons,
      simplified_congr fun v hv => h v (List.mem_append_left _ hv),
      map_simplified_congr fun v hv => h v (List.mem_append_right _ hv)]

end

end Congr

/-- Where no variable has an absent replacement, absent operands are those that were. -/
theorem eq_undefined_iff_simplified {values : Substitution} {force : Bool} {o : Operand}
    (h : ∀ v ∈ o.reads, values.lookup? v ≠ some .undefined) :
    o = .undefined ↔ o.simplified values force = .undefined := by
  cases o with
  | var v =>
    refine ⟨by rintro ⟨⟩, fun hu => ?_⟩
    rw [simplified_var] at hu
    rcases values.puts_replace force v with ⟨hl, -⟩ | ⟨ho, -⟩
    · exact absurd (hu ▸ hl) (h v (List.mem_singleton.2 rfl))
    · rw [hu] at ho
      cases ho
  | array os => rw [simplified_array]; simp
  | _ => exact Iff.rfl

/-! ### Reads -/

theorem readsAll_eq_flatMap (os : List Operand) : readsAll os = os.flatMap reads := by
  induction os with
  | nil => rfl
  | cons o os ih => rw [readsAll, ih, List.flatMap_cons]

mutual

/-- A simplified operand reads what stands in the places of the variables. -/
theorem reads_simplified : ∀ o : Operand, (o.simplified values force).reads =
    o.reads.flatMap fun v => (values.replace force (.var v)).reads
  | .var v => by rw [simplified_var, reads, List.flatMap_singleton]
  | .array os => by
    rw [simplified_array]
    exact readsAll_simplified os
  | .selfObject | .nil | .bool _ | .fixnum _ | .float _ | .string _ | .symbol _ | .scopeModule
  | .undefined | .body _ => rfl

theorem readsAll_simplified : ∀ os : List Operand,
    readsAll (os.map fun o => o.simplified values force) =
      (readsAll os).flatMap fun v => (values.replace force (.var v)).reads
  | [] => rfl
  | o :: os => by
    rw [List.map_cons, readsAll, readsAll, reads_simplified o, readsAll_simplified os,
      List.flatMap_append]

end

/-! ### Places -/

/--
The second operand is the first with other operands in the places of variables, as `puts` allows.
-/
inductive Replaced (puts : Variable → Operand → Prop) : Operand → Operand → Prop
  | var {v : Variable} {o : Operand} (h : puts v o) : Replaced puts (.var v) o
  | array {os os' : List Operand} (h : List.Forall₂ (Replaced puts) os os') :
    Replaced puts (.array os) (.array os')
  | same {o : Operand} (hvar : ∀ v, o ≠ .var v) (harray : ∀ os, o ≠ .array os) : Replaced puts o o

section Replaced

variable {values : Substitution} {force : Bool} {puts : Variable → Operand → Prop}

mutual

theorem replaced_simplified : ∀ {o : Operand},
    (∀ v ∈ o.reads, puts v (values.replace force (.var v))) →
      o.Replaced puts (o.simplified values force)
  | .var v, h => .var (h v (List.mem_singleton.2 rfl))
  | .array os, h => by
    rw [simplified_array]
    exact .array (replaced_map_simplified h)
  | .selfObject, _ | .nil, _ | .bool _, _ | .fixnum _, _ | .float _, _ | .string _, _
  | .symbol _, _ | .scopeModule, _ | .undefined, _ | .body _, _ => .same (by simp) (by simp)

theorem replaced_map_simplified : ∀ {os : List Operand},
    (∀ v ∈ readsAll os, puts v (values.replace force (.var v))) →
      List.Forall₂ (Replaced puts) os (os.map fun o => o.simplified values force)
  | [], _ => .nil
  | o :: os, h => by
    rw [List.map_cons]
    exact .cons (replaced_simplified fun v hv => h v (List.mem_append_left _ hv))
      (replaced_map_simplified fun v hv => h v (List.mem_append_right _ hv))

end

end Replaced

end OperandOf

namespace InstrOf

/--
The form with `nil` for every operand. It keeps the result, the operation, labels, names, the type
of a call, bodies and the number of arguments.
-/
def blank {β : Type} : InstrOf β → InstrOf β
  | .copy r _ => .copy r .nil
  | .receiveArg r index => .receiveArg r index
  | .receiveBlock r => .receiveBlock r
  | .intMath r op _ _ => .intMath r op .nil .nil
  | .floatMath r op _ _ => .floatMath r op .nil .nil
  | .label l => .label l
  | .jump l => .jump l
  | .branchFalse _ l => .branchFalse .nil l
  | .call r _ name args block type =>
    .call r .nil name (args.map fun _ => .nil) (block.map fun _ => .nil) type
  | .defineMethod name body => .defineMethod name body
  | .defineClass r body _ _ => .defineClass r body .nil .nil
  | .processModuleBody r _ => .processModuleBody r .nil
  | .setVisibility v => .setVisibility v
  | .putConst _ name _ => .putConst .nil name .nil
  | .searchConst r name => .searchConst r name
  | .buildClosure r body => .buildClosure r body
  | .yield r _ args => .yield r .nil (args.map fun _ => .nil)
  | .ret _ => .ret .nil
  | .nonlocalRet _ => .nonlocalRet .nil
  | .raise _ => .raise .nil

/-- The form and the operands make up the instruction. -/
theorem eq_of_blank {β : Type} {i j : InstrOf β} (hb : i.blank = j.blank)
    (ho : i.operands = j.operands) : i = j := by
  cases i with
  | call r receiver name args block type =>
    cases j with
    | call r' receiver' name' args' block' type' =>
      simp only [blank, call.injEq, true_and] at hb
      obtain ⟨rfl, rfl, hargs, hblock, rfl⟩ := hb
      have hlen : args.length = args'.length := by simpa using congrArg List.length hargs
      simp only [operands, List.cons_append, List.cons.injEq] at ho
      obtain ⟨rfl, ho⟩ := ho
      obtain ⟨rfl, ho⟩ := List.append_inj ho hlen
      cases block <;> cases block' <;> simp_all
    | _ => simp [blank] at hb
  | _ =>
    cases j <;> first
      | simp [blank] at hb; done
      | simp_all [blank, operands]

theorem simplified_call (r : Variable) (receiver : Operand) (name : String) (args : List Operand)
    (block : Option Operand) (type : CallType) :
    simplified (.call r receiver name args block type) values force =
      .call r (receiver.simplified values force) name
        (args.map fun o => o.simplified values force)
        (block.map fun o => o.simplified values force) type := by
  cases block <;> simp [simplified, traverse]

theorem simplified_yield (r : Variable) (block : Operand) (args : List Operand) :
    simplified (.yield r block args) values force =
      .yield r (block.simplified values force) (args.map fun o => o.simplified values force) := by
  simp [simplified, traverse]

theorem result?_simplified (i : Instr) : (i.simplified values force).result? = i.result? := by
  cases i with
  | call => rw [simplified_call]; rfl
  | _ => rfl

theorem label?_simplified (i : Instr) : (i.simplified values force).label? = i.label? := by
  cases i with
  | call => rw [simplified_call]; rfl
  | _ => rfl

theorem target?_simplified (i : Instr) : (i.simplified values force).target? = i.target? := by
  cases i with
  | call => rw [simplified_call]; rfl
  | _ => rfl

theorem blank_simplified (i : Instr) : (i.simplified values force).blank = i.blank := by
  cases i with
  | call r receiver name args block type =>
    rw [simplified_call, blank, List.map_map]
    cases block <;> rfl
  | yield r block args =>
    rw [simplified_yield, blank, List.map_map]
    rfl
  | _ => rfl

theorem operands_simplified (i : Instr) :
    (i.simplified values force).operands = i.operands.map fun o => o.simplified values force := by
  cases i with
  | call r receiver name args block type =>
    rw [simplified_call]
    cases block <;> simp [operands]
  | yield r block args =>
    rw [simplified_yield]
    simp [operands]
  | _ => rfl

theorem simplified_eq_self {i : Instr} (h : ∀ o ∈ i.operands, o.simplified values force = o) :
    i.simplified values force = i :=
  eq_of_blank (blank_simplified values force i) <| by
    rw [operands_simplified, List.map_congr_left h, List.map_id']

theorem simplified_nil (i : Instr) : i.simplified [] force = i :=
  simplified_eq_self [] force fun o _ => o.simplified_nil force

end InstrOf

end ObjectIr
