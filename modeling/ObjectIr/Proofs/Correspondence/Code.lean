import Mathlib.Data.List.Forall2
import ObjectIr.Machine.Execution

/-!
# Corresponding code

Two instructions correspond when they are the same but for variables, labels and nested bodies,
which correspond one by one (`InstrOf.Like`). An instruction corresponds to itself as soon as its
own variables and labels do (`InstrOf.like_self`).
-/

namespace ObjectIr

theorem exists_of_forall₂ {α β : Type} {rel : α → β → Prop} {as : List α} {bs : List β}
    (h : List.Forall₂ rel as bs) :
    (∀ a ∈ as, ∃ b ∈ bs, rel a b) ∧ ∀ b ∈ bs, ∃ a ∈ as, rel a b := by
  induction h with
  | nil => simp
  | cons hab _ ih =>
    simp only [List.forall_mem_cons, List.exists_mem_cons_iff]
    exact ⟨⟨.inl hab, fun a ha => .inr (ih.1 a ha)⟩, .inl hab, fun b hb => .inr (ih.2 b hb)⟩

/-- Which variables, labels and nested bodies of two codes stand for each other. -/
structure Counterparts where
  place : Variable → Variable → Prop
  label : Label → Label → Prop
  body : Body → Body → Prop

section Definitions

variable (w : Counterparts)

mutual

inductive OperandOf.Like : Operand → Operand → Prop
  | var {v v' : Variable} (h : w.place v v') : Like (.var v) (.var v')
  | selfObject : Like .selfObject .selfObject
  | nil : Like .nil .nil
  | bool (b : Bool) : Like (.bool b) (.bool b)
  | fixnum (n : Int64) : Like (.fixnum n) (.fixnum n)
  | float (x : Double) : Like (.float x) (.float x)
  | string (s : StringObject) : Like (.string s) (.string s)
  | symbol (name : String) : Like (.symbol name) (.symbol name)
  | array {os os' : List Operand} (h : OperandOf.LikeAll os os') : Like (.array os) (.array os')
  | scopeModule : Like .scopeModule .scopeModule
  | undefined : Like .undefined .undefined
  | body {b b' : Body} (h : w.body b b') : Like (.body b) (.body b')

inductive OperandOf.LikeAll : List Operand → List Operand → Prop
  | nil : LikeAll [] []
  | cons {o o' : Operand} {os os' : List Operand} (h : OperandOf.Like o o')
    (hs : LikeAll os os') : LikeAll (o :: os) (o' :: os')

end

inductive InstrOf.Like : Instr → Instr → Prop
  | copy {r r' : Variable} {o o' : Operand} (hr : w.place r r') (ho : o.Like w o') :
    Like (.copy r o) (.copy r' o')
  | receiveArg {r r' : Variable} (hr : w.place r r') (index : Nat) :
    Like (.receiveArg r index) (.receiveArg r' index)
  | receiveBlock {r r' : Variable} (hr : w.place r r') : Like (.receiveBlock r) (.receiveBlock r')
  | intMath {r r' : Variable} {o o' p p' : Operand} (hr : w.place r r') (op : MathOp)
    (ho : o.Like w o') (hp : p.Like w p') : Like (.intMath r op o p) (.intMath r' op o' p')
  | floatMath {r r' : Variable} {o o' p p' : Operand} (hr : w.place r r') (op : MathOp)
    (ho : o.Like w o') (hp : p.Like w p') : Like (.floatMath r op o p) (.floatMath r' op o' p')
  | label {l l' : Label} (hl : w.label l l') : Like (.label l) (.label l')
  | jump {l l' : Label} (hl : w.label l l') : Like (.jump l) (.jump l')
  | branchFalse {o o' : Operand} {l l' : Label} (ho : o.Like w o') (hl : w.label l l') :
    Like (.branchFalse o l) (.branchFalse o' l')
  | call {r r' : Variable} {o o' : Operand} {os os' : List Operand} {p p' : Option Operand}
    (hr : w.place r r') (ho : o.Like w o') (name : String) (hos : OperandOf.LikeAll w os os')
    (hp : Option.Rel (OperandOf.Like w) p p') (type : CallType) :
    Like (.call r o name os p type) (.call r' o' name os' p' type)
  | defineMethod {b b' : Body} (name : String) (hb : w.body b b') :
    Like (.defineMethod name b) (.defineMethod name b')
  | defineClass {r r' : Variable} {b b' : Body} {o o' p p' : Operand} (hr : w.place r r')
    (hb : w.body b b') (ho : o.Like w o') (hp : p.Like w p') :
    Like (.defineClass r b o p) (.defineClass r' b' o' p')
  | processModuleBody {r r' : Variable} {o o' : Operand} (hr : w.place r r') (ho : o.Like w o') :
    Like (.processModuleBody r o) (.processModuleBody r' o')
  | setVisibility (v : Visibility) : Like (.setVisibility v) (.setVisibility v)
  | putConst {o o' p p' : Operand} (ho : o.Like w o') (name : String) (hp : p.Like w p') :
    Like (.putConst o name p) (.putConst o' name p')
  | searchConst {r r' : Variable} (hr : w.place r r') (name : String) :
    Like (.searchConst r name) (.searchConst r' name)
  | buildClosure {r r' : Variable} {b b' : Body} (hr : w.place r r') (hb : w.body b b') :
    Like (.buildClosure r b) (.buildClosure r' b')
  | yield {r r' : Variable} {o o' : Operand} {os os' : List Operand} (hr : w.place r r')
    (ho : o.Like w o') (hos : OperandOf.LikeAll w os os') :
    Like (.yield r o os) (.yield r' o' os')
  | ret {o o' : Operand} (ho : o.Like w o') : Like (.ret o) (.ret o')
  | nonlocalRet {o o' : Operand} (ho : o.Like w o') : Like (.nonlocalRet o) (.nonlocalRet o')
  | raise {o o' : Operand} (ho : o.Like w o') : Like (.raise o) (.raise o')

end Definitions

/-! ### Other counterparts -/

section Imp

variable {w w' : Counterparts} (hb : ∀ b b', w.body b b' → w'.body b b')

mutual

theorem OperandOf.Like.imp (hb : ∀ b b', w.body b b' → w'.body b b') :
    ∀ {o o' : Operand}, o.Like w o' →
      (∀ v ∈ o.reads, ∀ v', w.place v v' → w'.place v v') → o.Like w' o'
  | _, _, .var h, hv => .var (hv _ (by simp [reads]) _ h)
  | _, _, .array h, hv => .array (h.imp hb (by simpa [reads] using hv))
  | _, _, .body h, _ => .body (hb _ _ h)
  | _, _, .selfObject, _ => .selfObject
  | _, _, .nil, _ => .nil
  | _, _, .bool b, _ => .bool b
  | _, _, .fixnum n, _ => .fixnum n
  | _, _, .float x, _ => .float x
  | _, _, .string s, _ => .string s
  | _, _, .symbol s, _ => .symbol s
  | _, _, .scopeModule, _ => .scopeModule
  | _, _, .undefined, _ => .undefined

theorem OperandOf.LikeAll.imp (hb : ∀ b b', w.body b b' → w'.body b b') :
    ∀ {os os' : List Operand}, LikeAll w os os' →
      (∀ v ∈ readsAll os, ∀ v', w.place v v' → w'.place v v') → LikeAll w' os os'
  | _, _, .nil, _ => .nil
  | _, _, .cons h hos, hv => by
    simp only [readsAll, List.mem_append] at hv
    exact .cons (h.imp hb fun v hin => hv v (.inl hin)) (hos.imp hb fun v hin => hv v (.inr hin))

end

theorem OperandOf.mem_readsAll {os : List Operand} {v : Variable} :
    v ∈ readsAll os ↔ ∃ o ∈ os, v ∈ o.reads := by
  induction os with
  | nil => simp [readsAll]
  | cons o os ih => simp [readsAll, ih]

include hb in
/-- Only the variables and labels of the instruction itself matter. -/
theorem InstrOf.Like.imp {i i' : Instr} (h : i.Like w i')
    (hv : ∀ v ∈ i.usedVariables, ∀ v', w.place v v' → w'.place v v')
    (hl : ∀ l, i.target? = some l ∨ i.label? = some l → ∀ l', w.label l l' → w'.label l l') :
    i.Like w' i' := by
  have hr : ∀ r, i.result? = some r → ∀ r', w.place r r' → w'.place r r' := fun r h =>
    hv r (by simp [usedVariables, h])
  have hreads : ∀ o ∈ i.operands, ∀ v ∈ o.reads, ∀ v', w.place v v' → w'.place v v' :=
    fun o ho v hin => hv v (List.mem_append_right _ (List.mem_flatMap.2 ⟨o, ho, hin⟩))
  have ho : ∀ o ∈ i.operands, ∀ {o' : Operand}, o.Like w o' → o.Like w' o' :=
    fun o ho _ h => h.imp hb (hreads o ho)
  have hos : ∀ os : List Operand, (∀ o ∈ os, o ∈ i.operands) → ∀ {os' : List Operand},
      OperandOf.LikeAll w os os' → OperandOf.LikeAll w' os os' := by
    refine fun os hin _ h => h.imp hb fun v hv => ?_
    obtain ⟨o, ho, hv⟩ := OperandOf.mem_readsAll.1 hv
    exact hreads o (hin o ho) v hv
  cases h with
  | copy hr' ho' => exact .copy (hr _ rfl _ hr') (ho _ (by simp [operands]) ho')
  | receiveArg hr' index => exact .receiveArg (hr _ rfl _ hr') index
  | receiveBlock hr' => exact .receiveBlock (hr _ rfl _ hr')
  | intMath hr' op ho' hp' =>
    exact .intMath (hr _ rfl _ hr') op (ho _ (by simp [operands]) ho')
      (ho _ (by simp [operands]) hp')
  | floatMath hr' op ho' hp' =>
    exact .floatMath (hr _ rfl _ hr') op (ho _ (by simp [operands]) ho')
      (ho _ (by simp [operands]) hp')
  | label hl' => exact .label (hl _ (.inr rfl) _ hl')
  | jump hl' => exact .jump (hl _ (.inl rfl) _ hl')
  | branchFalse ho' hl' =>
    exact .branchFalse (ho _ (by simp [operands]) ho') (hl _ (.inl rfl) _ hl')
  | call hr' ho' name hos' hp' type =>
    refine .call (hr _ rfl _ hr') (ho _ (by simp [operands]) ho') name
      (hos _ (fun o h => by simp [operands, h]) hos') ?_ type
    cases hp' with
    | none => exact .none
    | some hp' => exact .some (ho _ (by simp [operands]) hp')
  | defineMethod name hb' => exact .defineMethod name (hb _ _ hb')
  | defineClass hr' hb' ho' hp' =>
    exact .defineClass (hr _ rfl _ hr') (hb _ _ hb') (ho _ (by simp [operands]) ho')
      (ho _ (by simp [operands]) hp')
  | processModuleBody hr' ho' =>
    exact .processModuleBody (hr _ rfl _ hr') (ho _ (by simp [operands]) ho')
  | setVisibility v => exact .setVisibility v
  | putConst ho' name hp' =>
    exact .putConst (ho _ (by simp [operands]) ho') name (ho _ (by simp [operands]) hp')
  | searchConst hr' name => exact .searchConst (hr _ rfl _ hr') name
  | buildClosure hr' hb' => exact .buildClosure (hr _ rfl _ hr') (hb _ _ hb')
  | yield hr' ho' hos' =>
    exact .yield (hr _ rfl _ hr') (ho _ (by simp [operands]) ho')
      (hos _ (fun o h => by simp [operands, h]) hos')
  | ret ho' => exact .ret (ho _ (by simp [operands]) ho')
  | nonlocalRet ho' => exact .nonlocalRet (ho _ (by simp [operands]) ho')
  | raise ho' => exact .raise (ho _ (by simp [operands]) ho')

end Imp

/-! ### What corresponding instructions use -/

section Used

variable {w : Counterparts}

mutual

theorem OperandOf.Like.reads : ∀ {o o' : Operand}, o.Like w o' →
    List.Forall₂ w.place o.reads o'.reads
  | _, _, .var h => .cons h .nil
  | _, _, .array h => h.reads
  | _, _, .body _ | _, _, .selfObject | _, _, .nil | _, _, .bool _ | _, _, .fixnum _
  | _, _, .float _ | _, _, .string _ | _, _, .symbol _ | _, _, .scopeModule
  | _, _, .undefined => .nil

theorem OperandOf.LikeAll.reads : ∀ {os os' : List Operand}, LikeAll w os os' →
    List.Forall₂ w.place (readsAll os) (readsAll os')
  | _, _, .nil => .nil
  | _, _, .cons h hos => List.rel_append h.reads hos.reads

end

theorem OperandOf.LikeAll.flatMap_reads {os os' : List Operand} (h : LikeAll w os os') :
    List.Forall₂ w.place (os.flatMap OperandOf.reads) (os'.flatMap OperandOf.reads) := by
  induction os generalizing os' with
  | nil =>
    cases h
    exact .nil
  | cons o os ih =>
    cases h with
    | cons h hos => exact List.rel_append h.reads (ih hos)

theorem OperandOf.LikeAll.append {os os' ps ps' : List Operand} (h : LikeAll w os os')
    (hp : LikeAll w ps ps') : LikeAll w (os ++ ps) (os' ++ ps') := by
  induction os generalizing os' with
  | nil =>
    cases h
    exact hp
  | cons o os ih =>
    cases h with
    | cons h hos => exact .cons h (ih hos)

namespace InstrOf.Like

variable {i i' : Instr} (h : i.Like w i')

include h

theorem result? : Option.Rel w.place i.result? i'.result? := by
  cases h <;> first | exact .none | exact .some (by assumption)

theorem target? : Option.Rel w.label i.target? i'.target? := by
  cases h <;> first | exact .none | exact .some (by assumption)

theorem label? : Option.Rel w.label i.label? i'.label? := by
  cases h <;> first | exact .none | exact .some (by assumption)

theorem operands : OperandOf.LikeAll w i.operands i'.operands := by
  cases h with
  | copy _ ho | branchFalse ho _ | processModuleBody _ ho | ret ho | nonlocalRet ho | raise ho =>
    exact .cons ho .nil
  | intMath _ _ ho hp | floatMath _ _ ho hp | putConst ho _ hp | defineClass _ _ ho hp =>
    exact .cons ho (.cons hp .nil)
  | call _ ho _ hos hp _ =>
    refine .append (.cons ho hos) ?_
    cases hp with
    | none => exact .nil
    | some hp => exact .cons hp .nil
  | defineMethod _ hb | buildClosure _ hb => exact .cons (.body hb) .nil
  | yield _ ho hos => exact .cons ho hos
  | receiveArg | receiveBlock | label | jump | setVisibility | searchConst => exact .nil

theorem usedVariables : List.Forall₂ w.place i.usedVariables i'.usedVariables := by
  refine List.rel_append ?_ h.operands.flatMap_reads
  have hr := h.result?
  generalize i.result? = r at hr
  generalize i'.result? = r' at hr
  cases hr with
  | none => exact .nil
  | some hr => exact .cons hr .nil

end InstrOf.Like

end Used

/-! ### Code beside itself -/

section Self

def Counterparts.same : Counterparts := ⟨Eq, Eq, Eq⟩

mutual

theorem OperandOf.like_refl : ∀ o : Operand, o.Like .same o
  | .var _ => .var rfl
  | .array os => .array (likeAll_refl os)
  | .body _ => .body rfl
  | .selfObject => .selfObject
  | .nil => .nil
  | .bool b => .bool b
  | .fixnum n => .fixnum n
  | .float x => .float x
  | .string s => .string s
  | .symbol s => .symbol s
  | .scopeModule => .scopeModule
  | .undefined => .undefined

theorem OperandOf.likeAll_refl : ∀ os : List Operand, LikeAll .same os os
  | [] => .nil
  | o :: os => .cons (like_refl o) (likeAll_refl os)

end

theorem InstrOf.like_refl : ∀ i : Instr, i.Like .same i
  | .copy _ o => .copy rfl o.like_refl
  | .receiveArg _ index => .receiveArg rfl index
  | .receiveBlock _ => .receiveBlock rfl
  | .intMath _ op o p => .intMath rfl op o.like_refl p.like_refl
  | .floatMath _ op o p => .floatMath rfl op o.like_refl p.like_refl
  | .label _ => .label rfl
  | .jump _ => .jump rfl
  | .branchFalse o _ => .branchFalse o.like_refl rfl
  | .call _ o name os none type =>
    .call rfl o.like_refl name (OperandOf.likeAll_refl os) .none type
  | .call _ o name os (some p) type =>
    .call rfl o.like_refl name (OperandOf.likeAll_refl os) (.some p.like_refl) type
  | .defineMethod name _ => .defineMethod name rfl
  | .defineClass _ _ o p => .defineClass rfl rfl o.like_refl p.like_refl
  | .processModuleBody _ o => .processModuleBody rfl o.like_refl
  | .setVisibility v => .setVisibility v
  | .putConst o name p => .putConst o.like_refl name p.like_refl
  | .searchConst _ name => .searchConst rfl name
  | .buildClosure _ _ => .buildClosure rfl rfl
  | .yield _ o os => .yield rfl o.like_refl (OperandOf.likeAll_refl os)
  | .ret o => .ret o.like_refl
  | .nonlocalRet o => .nonlocalRet o.like_refl
  | .raise o => .raise o.like_refl

theorem InstrOf.like_self {w : Counterparts} (hb : ∀ b, w.body b b) (i : Instr)
    (hv : ∀ v ∈ i.usedVariables, w.place v v)
    (hl : ∀ l, i.target? = some l ∨ i.label? = some l → w.label l l) : i.Like w i := by
  refine i.like_refl.imp ?_ (fun v hin v' h => ?_) fun l hin l' h => ?_
  · rintro b _ rfl
    exact hb b
  · cases h
    exact hv v hin
  · cases h
    exact hl l hin

end Self

end ObjectIr
