import ObjectIr.Proofs.Correspondence.Code
import ObjectIr.Proofs.LexicalAddressing
import ObjectIr.Proofs.Surroundings.Sessions

/-!
# Code with other scope flags

A body is reflagged when it, and any body within it, has got flags to go without a scope of its own
(`Body.Reflagged`); all else is the same, and a body that had such flags keeps them.

What the flags must not touch is the reach of code. A body is confined to some levels around it when
its locals and returns, and those of the bodies that it holds, are found at them
(`Body.Confined`); to none, when it needs no body around. So it is with each script and method of
code where what a body holds lies in its static scope or in none (`Body.Rooted.confined`).
-/

namespace ObjectIr

/-- The same body outside of its code, but for flags to go without the scope that it had. -/
structure Body.Matches (b b' : Body) : Prop where
  name : b.name = b'.name
  file : b.file = b'.file
  scope : b.scope = b'.scope
  requiredArgs : b.requiredArgs = b'.requiredArgs
  temps : b.temps = b'.temps
  flags : b.pushesScope = true ∨
    b.isEliminated = b'.isEliminated ∧ b.reusesScope = b'.reusesScope

inductive Body.Reflagged : Body → Body → Prop
  | intro {b b' : Body} (body : b.Matches b')
    (code : List.Forall₂ (InstrOf.Like ⟨Eq, Eq, Reflagged⟩) b.code b'.code) : Reflagged b b'

namespace Body.Reflagged

variable {b b' : Body} (h : b.Reflagged b')

include h

theorem toMatches : b.Matches b' := by
  cases h with
  | intro h => exact h

theorem code : List.Forall₂ (InstrOf.Like ⟨Eq, Eq, Body.Reflagged⟩) b.code b'.code := by
  cases h with
  | intro _ h => exact h

theorem name : b.name = b'.name := h.toMatches.name

theorem scope : b.scope = b'.scope := h.toMatches.scope

theorem kind : b.kind = b'.kind := by rw [Body.kind, h.scope, Body.kind]

theorem parameters : b.parameters = b'.parameters := by
  rw [Body.parameters, h.kind, h.toMatches.requiredArgs, h.scope, Body.parameters]

theorem pushesScope (hb : b'.pushesScope = true) : b.pushesScope = true := by
  rcases h.toMatches.flags with hp | ⟨he, hr⟩
  · exact hp
  · rw [Body.pushesScope, he, hr]
    exact hb

theorem popsScope (hb : b'.popsScope = true) : b.popsScope = true := by
  rcases h.toMatches.flags with hp | ⟨he, hr⟩
  · rw [Body.popsScope, hp, Bool.true_or]
  · rw [Body.popsScope, Body.pushesScope, he, hr]
    exact hb

/-- Both bodies stand at the same instruction, up to the flags within. -/
theorem code_at (k : Nat) : b.code[k]? = none ∧ b'.code[k]? = none ∨
    ∃ i i', b.code[k]? = some i ∧ b'.code[k]? = some i' ∧
      InstrOf.Like ⟨Eq, Eq, Body.Reflagged⟩ i i' := by
  have hcode := h.code
  by_cases hk : k < b.code.length
  · have hk' : k < b'.code.length := hcode.length_eq ▸ hk
    exact .inr ⟨_, _, List.getElem?_eq_getElem hk, List.getElem?_eq_getElem hk', hcode.get hk hk'⟩
  · have hk' : ¬k < b'.code.length := hcode.length_eq ▸ hk
    exact .inl ⟨List.getElem?_eq_none (Nat.le_of_not_lt hk),
      List.getElem?_eq_none (Nat.le_of_not_lt hk')⟩

theorem labelIndex? (l : Label) : b.labelIndex? l = b'.labelIndex? l := by
  have hcode := h.code
  rw [Body.labelIndex?, Body.labelIndex?]
  generalize b.code = is at hcode
  generalize b'.code = is' at hcode
  induction hcode with
  | nil => rfl
  | @cons i i' is is' hi _ ih =>
    have hlabel : i.label? = i'.label? := by
      have hl := hi.label?
      generalize i.label? = x at hl
      generalize i'.label? = y at hl
      cases hl with
      | none => rfl
      | some hl => exact congrArg some hl
    rw [List.findIdx?_cons, List.findIdx?_cons, hlabel, ih]

end Body.Reflagged

theorem InstrOf.Like.usedVariables_eq {within : Body → Body → Prop} {i i' : Instr}
    (h : i.Like ⟨Eq, Eq, within⟩ i') : i.usedVariables = i'.usedVariables := by
  have hused := h.usedVariables
  rwa [List.forall₂_eq_eq_eq] at hused

/-! ### Confined code -/

def Body.Mentions (b : Body) (v : Variable) : Prop := ∃ i ∈ b.code, v ∈ i.usedVariables

/-- Where code finds a variable: in its own scope if it has one, or in those around it. -/
def Body.Finds (b : Body) (around : List ScopeLevel) : Variable → Prop
  | .temp _ => True
  | .lexical _ 0 offset => b.pushesScope = true ∧ offset < b.scope.locals.length
  | .lexical _ (depth + 1) offset =>
    ∃ level, around[depth]? = some level ∧ offset < level.locals.length

/-- With these levels around it, code finds all that it uses, and so does the code within. -/
inductive Body.Confined : Body → List ScopeLevel → Prop
  | intro {b : Body} {around : List ScopeLevel} (finds : ∀ v, b.Mentions v → b.Finds around v)
    (home : ∀ o, .nonlocalRet o ∈ b.code →
      ∃ l ∈ b.scope.level :: around, l.kind.isReturnTarget = true)
    (held : ∀ x, b.Holds x → Confined x (b.scope.level :: around))
    (methods : ∀ name x, .defineMethod name x ∈ b.code → Confined x []) : Confined b around

namespace Body.Confined

variable {b : Body} {around : List ScopeLevel} (h : b.Confined around)

include h

theorem finds {v : Variable} (hv : b.Mentions v) : b.Finds around v := by
  cases h with
  | intro h _ _ _ => exact h v hv

theorem home {o : Operand} (ho : .nonlocalRet o ∈ b.code) :
    ∃ l ∈ b.scope.level :: around, l.kind.isReturnTarget = true := by
  cases h with
  | intro _ h _ _ => exact h o ho

theorem held {x : Body} (hx : b.Holds x) : x.Confined (b.scope.level :: around) := by
  cases h with
  | intro _ _ h _ => exact h x hx

theorem method {name : String} {x : Body} (hx : .defineMethod name x ∈ b.code) :
    x.Confined [] := by
  cases h with
  | intro _ _ _ h => exact h name x hx

end Body.Confined

/-- Code that is confined by whatever `b` is confined by, and `b` itself. -/
def Body.Admits (b x : Body) : Prop :=
  ∀ around, b.Confined around → x.Confined (b.scope.level :: around)

theorem Body.Holds.admits {b x : Body} (h : b.Holds x) : b.Admits x := fun _ hb => hb.held h

/-! ### Rooted code -/

/-- What a body holds lies in it or in nothing, and scripts and methods lie in nothing. -/
structure Body.Nests (b : Body) : Prop where
  holds : ∀ x, b.Holds x → x.scope.outer = b.scope.levels ∨ x.scope.outer = []
  methods : ∀ name x, .defineMethod name x ∈ b.code → x.kind.isReturnTarget = true
  outermost : b.kind.isReturnTarget = true → b.scope.outer = []

def Body.Rooted (b : Body) : Prop := b.Built ∧ ∀ x ∈ b :: b.nested, x.Nests

theorem Body.Rooted.nests {b : Body} (hb : b.Rooted) : b.Nests := hb.2 b List.mem_cons_self

theorem Body.Rooted.hereditary : Hereditary Body.Rooted := by
  rintro b ⟨hbuilt, hnests⟩ i hi b' hb'
  refine ⟨builtCode_closed b hbuilt i hi b' hb', fun x hx => hnests x ?_⟩
  exact List.mem_cons_of_mem _ (Body.nested_of_body? hi hb' x hx)

theorem Body.Built.finds {b : Body} (hb : b.Built) {around : List ScopeLevel}
    (haround : b.scope.outer <+: around) {v : Variable} (hv : b.Mentions v) : b.Finds around v := by
  obtain ⟨i, hi, hv⟩ := hv
  cases v with
  | temp t => trivial
  | lexical name depth offset =>
    obtain ⟨hown, level, hlevel, hoffset⟩ := hb.lexical_used hi hv
    cases depth with
    | zero =>
      cases hlevel
      exact ⟨hown rfl, hoffset⟩
    | succ d =>
      obtain ⟨beyond, rfl⟩ := haround
      obtain ⟨hd, -⟩ := List.getElem?_eq_some_iff.1 hlevel
      refine ⟨level, ?_, hoffset⟩
      rw [List.getElem?_append_left (Nat.lt_of_succ_lt_succ hd)]
      exact hlevel

theorem Body.sizeOf_lt {b x : Body} {i : Instr} (hi : i ∈ b.code) (hx : i.body? = some x) :
    sizeOf x < sizeOf b := by
  have hcode : sizeOf b.code < sizeOf b := by
    cases b
    simp only [mk.sizeOf_spec]
    omega
  have hinstr : sizeOf x < sizeOf i := by
    cases i <;> cases hx <;> simp +arith
  exact (hinstr.trans (List.sizeOf_lt_of_mem hi)).trans hcode

/-- Code of which scripts and methods lie in nothing is confined to the levels that it lies in. -/
theorem Body.Rooted.confined {b : Body} (hb : b.Rooted) {around : List ScopeLevel}
    (haround : b.scope.outer <+: around)
    (hhome : ∃ l ∈ b.scope.level :: around, l.kind.isReturnTarget = true) :
    b.Confined around := by
  have hheld : ∀ i ∈ b.code, ∀ x, i.body? = some x → b.Holds x →
      x.Confined (b.scope.level :: around) := by
    intro i hi x hx hholds
    have hrooted : x.Rooted := hereditary b hb i hi x hx
    refine hrooted.confined ?_ (hhome.imp fun l hl => ⟨List.mem_cons_of_mem _ hl.1, hl.2⟩)
    rcases hb.nests.holds x hholds with hx | hx
    · rw [hx, StaticScope.levels]
      exact (List.prefix_cons_inj _).2 haround
    · rw [hx]
      exact List.nil_prefix
  refine .intro (fun v hv => hb.1.finds haround hv) (fun _ _ => hhome) (fun x hholds => ?_) ?_
  · have hx := hholds
    rcases hx with ⟨r, hi⟩ | ⟨r, container, superclass, hi⟩ <;> exact hheld _ hi x rfl hholds
  · intro name x hi
    have hrooted : x.Rooted := hereditary b hb _ hi x rfl
    have hkind := hb.nests.methods name x hi
    refine hrooted.confined ?_ ⟨_, List.mem_cons_self, hkind⟩
    simp only [hrooted.nests.outermost hkind, List.nil_prefix]
termination_by sizeOf b
decreasing_by
  · exact sizeOf_lt hi hx
  · exact sizeOf_lt hi rfl

/-- Scripts and methods of such code need no body around. -/
theorem Body.Rooted.free {b : Body} (hb : b.Rooted) (hkind : b.kind.isReturnTarget = true) :
    b.Confined [] := by
  refine hb.confined ?_ ⟨_, List.mem_cons_self, hkind⟩
  simp only [hb.nests.outermost hkind, List.nil_prefix]

end ObjectIr
