import ObjectIr.Proofs.Correspondence.Execution
import ObjectIr.Proofs.Reflagging.Code
import ObjectIr.Proofs.Temps

/-!
# Values of two runs

One run goes with the flags of a body and the other without, so a scope of the one has another
number in the other, or is made later, or never. A `World` says which scopes stand for each
activation in either run. Values are twins in a world when they are the same but for the flags of
bodies, and for blocks whose scopes stand for the same activations as far out as their code reaches
(`World.Around`). What are twins stay so as more scopes come to stand for activations
(`Value.Twin.mono`).
-/

namespace ObjectIr

/-- The scope that stands for an activation in either run, by the number of the activation. -/
structure World where
  left : Nat → Option ScopeCell
  right : Nat → Option ScopeCell

namespace World

/-- More stands for activations, and what stood for one still does. -/
structure Grows (w w' : World) : Prop where
  left : ∀ n c, w.left n = some c → w'.left n = some c
  right : ∀ n c, w.right n = some c → w'.right n = some c

def Pairs (w : World) (c c' : ScopeCell) : Prop :=
  c.layout = c'.layout ∧ ∃ n, w.left n = some c ∧ w.right n = some c'

/-- The cells are those of the same activations, as many levels out as there are. -/
inductive Aligned (w : World) : List ScopeLevel → List ScopeCell → List ScopeCell → Prop
  | beyond (cells cells' : List ScopeCell) : Aligned w [] cells cells'
  | cons {c c' : ScopeCell} {levels : List ScopeLevel} {cells cells' : List ScopeCell}
    (h : w.Pairs c c') (hs : Aligned w levels cells cells') :
    Aligned w (c.layout.level :: levels) (c :: cells) (c' :: cells')

/-- The cells around a body are those of the same activations as far out as its code reaches. -/
def Around (w : World) (b : Body) (cells cells' : List ScopeCell) : Prop :=
  ∃ levels, b.Confined levels ∧ w.Aligned levels cells cells'

theorem around_of_confined (w : World) {b : Body} (hb : b.Confined [])
    (cells cells' : List ScopeCell) : w.Around b cells cells' := ⟨[], hb, .beyond cells cells'⟩

/-- No scope stands for two activations. -/
structure Distinct (w : World) : Prop where
  left : ∀ n m c d, w.left n = some c → w.left m = some d → c.id = d.id → n = m
  right : ∀ n m c d, w.right n = some c → w.right m = some d → c.id = d.id → n = m

/-- The world where these stand for an activation. -/
def stand (w : World) (n : Nat) (c? c?' : Option ScopeCell) : World where
  left m := if m = n then c? else w.left m
  right m := if m = n then c?' else w.right m

variable {w w' : World}

theorem stand_self (w : World) (n : Nat) : w.stand n (w.left n) (w.right n) = w := by
  obtain ⟨left, right⟩ := w
  have hself : ∀ f : Nat → Option ScopeCell, (fun m => if m = n then f n else f m) = f := by
    intro f
    funext m
    split
    · next hm => rw [hm]
    · rfl
  exact congrArg₂ mk (hself left) (hself right)

theorem grows_stand {n : Nat} {c? c?' : Option ScopeCell}
    (hl : ∀ c, w.left n = some c → c? = some c)
    (hr : ∀ c, w.right n = some c → c?' = some c) : w.Grows (w.stand n c? c?') where
  left m c hc := by
    show (if m = n then c? else w.left m) = some c
    split
    · next hm => exact hl c (hm ▸ hc)
    · exact hc
  right m c hc := by
    show (if m = n then c?' else w.right m) = some c
    split
    · next hm => exact hr c (hm ▸ hc)
    · exact hc

theorem grows_stand_new {n : Nat} (hl : w.left n = none) (hr : w.right n = none)
    (c? c?' : Option ScopeCell) : w.Grows (w.stand n c? c?') :=
  grows_stand (fun c hc => by rw [hl] at hc; cases hc) fun c hc => by rw [hr] at hc; cases hc

theorem Grows.refl (w : World) : w.Grows w := ⟨fun _ _ h => h, fun _ _ h => h⟩

theorem Grows.trans {w'' : World} (h : w.Grows w') (h' : w'.Grows w'') : w.Grows w'' :=
  ⟨fun n c hc => h'.left n c (h.left n c hc), fun n c hc => h'.right n c (h.right n c hc)⟩

section Mono

variable (hw : w.Grows w')

include hw

theorem Pairs.mono {c c' : ScopeCell} (h : w.Pairs c c') : w'.Pairs c c' := by
  obtain ⟨hlayout, n, hc, hc'⟩ := h
  exact ⟨hlayout, n, hw.left n c hc, hw.right n c' hc'⟩

theorem Aligned.mono {levels : List ScopeLevel} {cells cells' : List ScopeCell}
    (h : w.Aligned levels cells cells') : w'.Aligned levels cells cells' := by
  induction h with
  | beyond cells cells' => exact .beyond cells cells'
  | cons h _ ih => exact .cons (h.mono hw) ih

theorem Around.mono {b : Body} {cells cells' : List ScopeCell} (h : w.Around b cells cells') :
    w'.Around b cells cells' := by
  obtain ⟨levels, hconfined, haligned⟩ := h
  exact ⟨levels, hconfined, haligned.mono hw⟩

end Mono

theorem Aligned.cell_at {level : ScopeLevel} {levels : List ScopeLevel}
    {cells cells' : List ScopeCell} (h : w.Aligned levels cells cells') :
    ∀ {k : Nat}, levels[k]? = some level → ∃ c c', cells[k]? = some c ∧ cells'[k]? = some c' ∧
      c.layout.level = level ∧ w.Pairs c c' := by
  induction h with
  | beyond => rintro k ⟨⟩
  | @cons c c' _ _ _ h _ ih =>
    intro k hk
    cases k with
    | zero =>
      cases hk
      exact ⟨c, c', rfl, rfl, rfl, h⟩
    | succ k => exact ih hk

/-- What a body admits finds its cells around, and those around it. -/
theorem Around.inside {b x : Body} {c c' : ScopeCell} {cells cells' : List ScopeCell}
    (h : w.Around b cells cells') (hc : w.Pairs c c') (hlayout : c.layout = b.scope)
    (hx : b.Admits x) : w.Around x (c :: cells) (c' :: cells') := by
  obtain ⟨levels, hconfined, haligned⟩ := h
  have hadmitted := hx levels hconfined
  rw [← hlayout] at hadmitted
  exact ⟨_, hadmitted, .cons hc haligned⟩

/-- Both runs find the same home. -/
theorem Aligned.find_home {levels : List ScopeLevel} {cells cells' : List ScopeCell}
    (h : w.Aligned levels cells cells') (hhome : ∃ l ∈ levels, l.kind.isReturnTarget = true) :
    ∃ c c', cells.find? (fun c => c.layout.kind.isReturnTarget) = some c ∧
      cells'.find? (fun c => c.layout.kind.isReturnTarget) = some c' ∧ w.Pairs c c' := by
  induction h with
  | beyond =>
    obtain ⟨l, hl, -⟩ := hhome
    cases hl
  | @cons c c' levels cells cells' h _ ih =>
    cases hkind : c.layout.kind.isReturnTarget with
    | true =>
      have hkind' : c'.layout.kind.isReturnTarget = true := by rw [← h.1, hkind]
      exact ⟨c, c', List.find?_cons_of_pos hkind, List.find?_cons_of_pos hkind', h⟩
    | false =>
      have hkind' : c'.layout.kind.isReturnTarget = false := by rw [← h.1, hkind]
      rw [List.find?_cons_of_neg (by simp [hkind]), List.find?_cons_of_neg (by simp [hkind'])]
      refine ih ?_
      obtain ⟨l, hl, hhome⟩ := hhome
      rcases List.mem_cons.1 hl with rfl | hl
      · have hlevel : c.layout.level.kind.isReturnTarget = false := hkind
        rw [hlevel] at hhome
        cases hhome
      · exact ⟨l, hl, hhome⟩

end World

/-! ### Values -/

structure Method.Twin (m m' : Method) : Prop where
  id : m.id = m'.id
  body : m.body.Reflagged m'.body
  visibility : m.visibility = m'.visibility
  module : m.module = m'.module

section Definitions

variable (w : World)

mutual

inductive Value.Twin : Value → Value → Prop
  | plain {v : Value} (array : ∀ n vs, v ≠ .array n vs) (method : ∀ m, v ≠ .method m)
    (block : ∀ b, v ≠ .block b) : Twin v v
  | array (n : Nat) {vs vs' : List Value} (h : Value.Twins vs vs') :
    Twin (.array n vs) (.array n vs')
  | method {m m' : Method} (h : m.Twin m') : Twin (.method m) (.method m')
  | block (id : Nat) {b b' : Body} (hb : b.Reflagged b') {r r' : Value} (hr : Value.Twin r r')
    {scope? scope?' : Option DynamicScope} (hs : w.Around b' (cellsOf scope?) (cellsOf scope?'))
    (hnone : scope? = none → scope?' = none) (m : Module) (v : Visibility) :
    Twin (.block ⟨id, b, r, scope?, m, v⟩) (.block ⟨id, b', r', scope?', m, v⟩)

inductive Value.Twins : List Value → List Value → Prop
  | nil : Twins [] []
  | cons {v v' : Value} {vs vs' : List Value} (h : Value.Twin v v') (hs : Twins vs vs') :
    Twins (v :: vs) (v' :: vs')

end

abbrev BlockOf.Twin (b b' : Block) : Prop := Value.Twin w (.block b) (.block b')

structure Frame.Twin (f f' : Frame) : Prop where
  receiver : f.receiver.Twin w f'.receiver
  visibility : f.visibility = f'.visibility
  name : f.name = f'.name
  block? : Option.Rel (BlockOf.Twin w) f.block? f'.block?
  module : f.module = f'.module

structure Invocation.Twin (i i' : Invocation) : Prop where
  body : i.body.Reflagged i'.body
  frame : i.frame.Twin w i'.frame
  around : w.Around i'.body (cellsOf i.parent?) (cellsOf i'.parent?)
  rootless : i.parent? = none → i'.parent? = none
  args : List.Forall₂ (Value.Twin w) i.args i'.args
  answer? : Option.Rel (Value.Twin w) i.answer? i'.answer?

/-- The value that a failure is about, if any. -/
def Failure.value? : Failure → Option Value
  | .type (.expects _ _ v) | .type (.notModuleBody v) | .type (.notModule v) | .raised v => some v
  | _ => none

inductive Failure.Twin : Failure → Failure → Prop
  | plain {f : Failure} (h : f.value? = none) : Twin f f
  | expects (r : Variable) (kind : TempKind) {v v' : Value} (h : v.Twin w v') :
    Twin (.type (.expects r kind v)) (.type (.expects r kind v'))
  | notModuleBody {v v' : Value} (h : v.Twin w v') :
    Twin (.type (.notModuleBody v)) (.type (.notModuleBody v'))
  | notModule {v v' : Value} (h : v.Twin w v') :
    Twin (.type (.notModule v)) (.type (.notModule v'))
  | raised {v v' : Value} (h : v.Twin w v') : Twin (.raised v) (.raised v')

def Temps.Twin (ts ts' : Temps) : Prop := ∀ t, Option.Rel (Value.Twin w) (ts.get? t) (ts'.get? t)

structure Context.Twin (c c' : Context) : Prop where
  frames : List.Forall₂ (Frame.Twin w) c.frames c'.frames
  rootless : c.currentScope? = none → c'.currentScope? = none
  framePushes : c.stats.framePushes = c'.stats.framePushes
  framePops : c.stats.framePops = c'.stats.framePops

end Definitions

variable {w w' : World}

theorem Value.twins_iff {vs vs' : List Value} :
    Value.Twins w vs vs' ↔ List.Forall₂ (Value.Twin w) vs vs' := by
  constructor
  · intro h
    induction vs generalizing vs' with
    | nil => cases h; exact .nil
    | cons v vs ih =>
      cases h with
      | cons h hs => exact .cons h (ih hs)
  · intro h
    induction h with
    | nil => exact .nil
    | cons h _ ih => exact .cons h ih

/-! ### Later worlds -/

section Mono

mutual

theorem Value.Twin.mono (hw : w.Grows w') : ∀ {v v' : Value}, v.Twin w v' → v.Twin w' v'
  | _, _, .plain ha hm hb => .plain ha hm hb
  | _, _, .array n h => .array n (h.mono hw)
  | _, _, .method h => .method h
  | _, _, .block id hb hr hs hn m v => .block id hb (hr.mono hw) (hs.mono hw) hn m v

theorem Value.Twins.mono (hw : w.Grows w') :
    ∀ {vs vs' : List Value}, Value.Twins w vs vs' → Value.Twins w' vs vs'
  | _, _, .nil => .nil
  | _, _, .cons h hs => .cons (h.mono hw) (hs.mono hw)

end

variable (hw : w.Grows w')

include hw

theorem Value.forall₂_twin_mono {vs vs' : List Value} (h : List.Forall₂ (Value.Twin w) vs vs') :
    List.Forall₂ (Value.Twin w') vs vs' := h.imp fun _ _ hv => hv.mono hw

theorem Value.rel_twin_mono {v? v?' : Option Value} (h : Option.Rel (Value.Twin w) v? v?') :
    Option.Rel (Value.Twin w') v? v?' := by
  cases h with
  | none => exact .none
  | some h => exact .some (h.mono hw)

theorem Frame.Twin.mono {f f' : Frame} (h : f.Twin w f') : f.Twin w' f' where
  receiver := h.receiver.mono hw
  visibility := h.visibility
  name := h.name
  block? := by
    have hb := h.block?
    generalize f.block? = x at hb
    generalize f'.block? = y at hb
    cases hb with
    | none => exact .none
    | some hb => exact .some (hb.mono hw)
  module := h.module

theorem Failure.Twin.mono {f f' : Failure} (h : f.Twin w f') : f.Twin w' f' := by
  cases h with
  | plain h => exact .plain h
  | expects r kind h => exact .expects r kind (h.mono hw)
  | notModuleBody h => exact .notModuleBody (h.mono hw)
  | notModule h => exact .notModule (h.mono hw)
  | raised h => exact .raised (h.mono hw)

theorem Temps.Twin.mono {ts ts' : Temps} (h : ts.Twin w ts') : ts.Twin w' ts' := fun t =>
  Value.rel_twin_mono hw (h t)

theorem Context.Twin.mono {c c' : Context} (h : c.Twin w c') : c.Twin w' c' :=
  { h with frames := h.frames.imp fun _ _ hf => hf.mono hw }

end Mono

/-! ### What twins have in common -/

section Text

mutual

theorem Value.Twin.text_eq : ∀ {v v' : Value}, v.Twin w v' → v.text = v'.text
  | _, _, .plain .. => rfl
  | _, _, .array _ h => by rw [Value.text, Value.text, h.textAll_eq]
  | _, _, .method h => by rw [Value.text, Value.text, h.module, h.body.name]
  | _, _, .block _ hb .. => by rw [Value.text, Value.text, hb.name]

theorem Value.Twins.textAll_eq :
    ∀ {vs vs' : List Value}, Value.Twins w vs vs' → Value.textAll vs = Value.textAll vs'
  | _, _, .nil => rfl
  | _, _, .cons h hs => by rw [Value.textAll, Value.textAll, h.text_eq, hs.textAll_eq]

end

theorem Failure.Twin.message_eq {f f' : Failure} (h : f.Twin w f') :
    f.message = f'.message ∧ f.text = f'.text := by
  have htype : ∀ {t t' : TypeFault}, t.message = t'.message →
      (Failure.type t).message = (Failure.type t').message ∧
        (Failure.type t).text = (Failure.type t').text :=
    fun ht => ⟨ht, congrArg ("TypeError: " ++ ·) ht⟩
  cases h with
  | plain => exact ⟨rfl, rfl⟩
  | expects r kind h =>
    exact htype (congrArg (r.text ++ " expects " ++ kind.demand ++ ", got " ++ ·) h.text_eq)
  | notModuleBody h => exact htype (congrArg (· ++ " is not a module body") h.text_eq)
  | notModule h => exact htype (congrArg (· ++ " is not a class/module") h.text_eq)
  | raised h => exact ⟨h.text_eq, congrArg ("RuntimeError: " ++ ·) h.text_eq⟩

end Text

namespace Value.Twin

variable {v v' : Value} (h : v.Twin w v')

include h

theorem sameShape : v.SameShape v' := by
  cases h with
  | plain array method block => cases v <;> simp_all [SameShape]
  | array | method | block => simp [SameShape]

theorem class_eq : v.class = v'.class := by cases h <;> rfl

theorem described_eq : v.described = v'.described := by cases h <;> rfl

theorem module?_eq : v.module? = v'.module? := by cases h <;> rfl

end Value.Twin

/-! ### Temporaries -/

theorem Temps.init_twin (c : TempCounts) : (Temps.init c).Twin w (Temps.init c) := by
  intro t
  rw [Temps.get?_init]
  split
  · refine .some (.plain ?_ ?_ ?_) <;> cases t.kind <;> simp [TempKind.initial]
  · exact .none

theorem Value.Twin.accepts_eq {v v' : Value} (h : v.Twin w v') (kind : TempKind) :
    kind.accepts v = kind.accepts v' := by
  cases h with
  | plain => rfl
  | array | method | block => cases kind <;> simp [TempKind.accepts]

theorem Temps.Twin.set {ts ts' : Temps} (hts : ts.Twin w ts') (t : Temp) {v v' : Value}
    (hv : v.Twin w v') :
    Jointly (Failure.Twin w) (Temps.Twin w) (ts.set t v) (ts'.set t v') := by
  have hslot := hts t
  have haccepts := hv.accepts_eq t.kind
  rcases ts.set_cases t v with ⟨ha, hset⟩ | ⟨ha, ⟨hn, hset⟩ | ⟨hs, us, hset, hus⟩⟩ <;>
    rcases ts'.set_cases t v' with ⟨ha', hset'⟩ | ⟨ha', ⟨hn', hset'⟩ | ⟨hs', us', hset', hus'⟩⟩ <;>
    rw [hset, hset']
  · exact .error (.expects _ _ hv)
  all_goals try simp [ha, ha'] at haccepts
  · exact .error (.plain rfl)
  · rw [hn] at hslot
    generalize ts'.get? t = x at hslot hs'
    cases hslot
    cases hs'
  · rw [hn'] at hslot
    generalize ts.get? t = x at hslot hs
    cases hslot
    cases hs
  · refine .ok fun u => ?_
    rw [hus, hus']
    split
    · exact .some hv
    · exact hts u

end ObjectIr
