import ObjectIr.Proofs.Surroundings.Sessions

/-!
# Scopes around an activation

Two facts about scopes, for the two ways in which a body comes by a parent scope. The scopes on the
stack are those of the active activations (`Stacks`), so the one on top is the running activation's
own if it has one. The scope that a closure captures has the cell that stands for the activation
in front of the cells around it (`History.Fits.enclosed_captured`).

`History.Enclosed` says that cells stand for the activations around a body, up to a module body
whose holder has no scope of its own: past such a holder the cells are those of other activations.
-/

namespace ObjectIr

/-! ### The stack -/

/-- The scopes that activations have on the stack; the outermost of them has one. -/
inductive Stacks : List Activation → List DynamicScope → Prop
  | bottom {a : Activation} {s : DynamicScope} (base : List DynamicScope)
    (hp : a.body.popsScope = true) (hs : a.footing.scope? = some s) : Stacks [a] (s :: base)
  | pops {a : Activation} {as : List Activation} {s : DynamicScope} {ss : List DynamicScope}
    (hp : a.body.popsScope = true) (hs : a.footing.scope? = some s) (h : Stacks as ss) :
    Stacks (a :: as) (s :: ss)
  | stays {a : Activation} {as : List Activation} {ss : List DynamicScope}
    (hp : a.body.popsScope = false) (h : Stacks as ss) : Stacks (a :: as) ss

namespace Stacks

variable {a b : Activation} {as : List Activation} {ss : List DynamicScope}

theorem ne_nil (h : Stacks as ss) : ss ≠ [] := by
  induction h with
  | bottom | pops => simp
  | stays _ _ ih => exact ih

theorem head (h : Stacks (a :: as) ss) (hp : a.body.popsScope = true) :
    ss.head? = a.footing.scope? := by
  cases h with
  | bottom _ _ hs | pops _ hs _ => rw [hs, List.head?_cons]
  | stays hp' _ => rw [hp] at hp'; cases hp'

theorem replace (h : Stacks (a :: as) ss) (hbody : b.body = a.body)
    (hfooting : b.footing = a.footing) : Stacks (b :: as) ss := by
  cases h with
  | bottom base hp hs => exact .bottom base (by rw [hbody, hp]) (by rw [hfooting, hs])
  | pops hp hs h => exact .pops (by rw [hbody, hp]) (by rw [hfooting, hs]) h
  | stays hp h => exact .stays (by rw [hbody, hp]) h

end Stacks

def Context.scopeStack (c : Context) : List DynamicScope := c.scopes.map ScopeEntry.scope

theorem Context.currentScope?_eq (c : Context) : c.currentScope? = c.scopeStack.head? := by
  rw [currentScope?, scopeStack, List.head?_map]

theorem scopeStack_leave (b : Body) (c : Context) : (leave b c).scopeStack =
    if b.popsScope then c.scopeStack.tail else c.scopeStack := by
  have hframe : ∀ c : Context, c.popFrame.scopeStack = c.scopeStack := by
    intro c
    rw [Context.popFrame]
    split <;> rfl
  rw [leave, hframe]
  split
  · simp only [Context.popScope, Context.scopeStack]
    split <;> simp_all
  · rfl

theorem Stacks.leave {a : Activation} {as : List Activation} {c : Context}
    (h : Stacks (a :: as) c.scopeStack) (has : as ≠ []) :
    Stacks as (leave a.body c).scopeStack := by
  rw [scopeStack_leave]
  generalize c.scopeStack = ss at h
  cases h with
  | bottom => exact absurd rfl has
  | pops hp _ h => rwa [if_pos hp, List.tail_cons]
  | stays hp h => rwa [hp, if_neg Bool.false_ne_true]

theorem Stacks.enter {limit : Nat} {k : Heap} {c : Context} {i : Invocation} {s : Site}
    {as : List Activation} (hs : enter limit k c i = .ok s) (h : as ≠ [] → Stacks as c.scopeStack)
    (hbottom : as = [] → i.body.pushesScope = true) :
    Stacks (s.activation :: as) s.context.scopeStack := by
  rw [enter_eq_ok hs]
  have hpush : ∀ {footing : Footing} {scope : DynamicScope}, i.body.popsScope = true →
      footing.scope? = some scope →
      Stacks (i.activation footing :: as) (scope :: c.scopeStack) := by
    intro footing scope hp hscope
    by_cases has : as = []
    · rw [has]
      exact .bottom _ hp hscope
    · exact .pops hp hscope (h has)
  have hguest : ∀ {footing : Footing}, i.allocates = false → i.body.popsScope = false →
      Stacks (i.activation footing :: as) c.scopeStack := by
    intro footing ha hp
    refine .stays hp (h fun has => ?_)
    rw [Invocation.allocates, hbottom has] at ha
    cases ha
  rcases i.settleIn_cases k (c.withFrame i.frame) with
    ⟨-, hp, hset⟩ | ⟨ha, parent, -, ⟨hp, hset⟩ | ⟨hp, hset⟩⟩ | ⟨ha, -, hp, hset⟩ <;> rw [hset]
  · exact hpush hp rfl
  · exact hpush hp rfl
  · exact hguest ha hp
  · exact hguest ha hp

/-! ### The cells around -/

/-- Past a module body, the cells around it are those of its holder only if the holder has one. -/
def Body.Houses (b x : Body) : Prop := x.kind.isModuleBody = true → b.pushesScope = true

namespace History

variable (h : History)

def Enclosed : Body → List ScopeCell → List Entrant → Prop
  | _, _, [] => True
  | b, cells, e :: es => e.body.Houses b → ∃ c cs, cells = c :: cs ∧
      h.standing? e.number = some c ∧ c.layout = e.body.scope ∧ Enclosed e.body cs es

variable {h}

theorem Enclosed.mono {h' : History} (hh : h.Extends h') :
    ∀ {es : List Entrant} {b : Body} {cells : List ScopeCell},
      h.Enclosed b cells es → h'.Enclosed b cells es
  | [], _, _, _ => trivial
  | e :: es, b, cells, he => by
    intro hb
    obtain ⟨c, cs, hcells, hs, hl, hrest⟩ := he hb
    exact ⟨c, cs, hcells, hh.standing _ _ hs, hl, hrest.mono hh⟩

/-- Past bodies that are housed, the cell at a depth is that of the entrant there. -/
theorem Enclosed.cell_at {e : Entrant} :
    ∀ {k : Nat} {es : List Entrant} {b : Body} {cells : List ScopeCell}, h.Enclosed b cells es →
      es[k]? = some e →
      List.IsChain (fun x y => y.Houses x) (b :: (es.take (k + 1)).map Entrant.body) →
      ∃ c, cells[k]? = some c ∧ h.standing? e.number = some c ∧ c.layout = e.body.scope := by
  intro k
  induction k with
  | zero =>
    intro es b cells hc he hhoused
    cases es with
    | nil => cases he
    | cons x es =>
      cases he
      simp only [Nat.zero_add, List.take_succ_cons, List.map_cons, List.isChain_cons_cons]
        at hhoused
      obtain ⟨c, cs, rfl, hs, hl, -⟩ := hc hhoused.1
      exact ⟨c, rfl, hs, hl⟩
  | succ k ih =>
    intro es b cells hc he hhoused
    cases es with
    | nil => cases he
    | cons x es =>
      simp only [List.take_succ_cons, List.map_cons, List.isChain_cons_cons] at hhoused
      obtain ⟨c, cs, rfl, -, -, hrest⟩ := hc hhoused.1
      exact ih hrest he (by simpa using hhoused.2)

/-- Past bodies that are housed, the first cell of a script or method is the home's. -/
theorem Enclosed.find_home {home : Entrant} {rest : List Entrant}
    (hhome : home.body.kind.isReturnTarget = true) :
    ∀ {between : List Entrant} {b : Body} {cells : List ScopeCell},
      h.Enclosed b cells (between ++ home :: rest) →
      (∀ e ∈ between, e.body.kind.isReturnTarget = false) →
      List.IsChain (fun x y => y.Houses x) (b :: (between ++ [home]).map Entrant.body) →
      ∃ c, cells.find? (fun c => c.layout.kind.isReturnTarget) = some c ∧
        h.standing? home.number = some c := by
  intro between
  induction between with
  | nil =>
    intro b cells hc _ hhoused
    simp only [List.nil_append, List.map_cons, List.isChain_cons_cons] at hhoused
    obtain ⟨c, cs, rfl, hs, hl, -⟩ := hc hhoused.1
    refine ⟨c, ?_, hs⟩
    rw [List.find?_cons_of_pos]
    rw [hl]
    exact hhome
  | cons e es ih =>
    intro b cells hc hkinds hhoused
    simp only [List.cons_append, List.map_cons, List.isChain_cons_cons] at hhoused
    obtain ⟨c, cs, rfl, -, hl, hrest⟩ := hc hhoused.1
    obtain ⟨d, hd, hs⟩ := ih hrest (fun e he => hkinds e (List.mem_cons_of_mem _ he))
      (by simpa using hhoused.2)
    refine ⟨d, ?_, hs⟩
    have hkind : c.layout.kind.isReturnTarget = false := by
      rw [hl]
      exact hkinds e List.mem_cons_self
    rw [List.find?_cons_of_neg (by simp [hkind]), hd]

variable {l : Lineage} {a : Activation} {es : List Entrant}

/-- The scope that an activation captures has its cell in front of those around it. -/
theorem Fits.enclosed_captured (hf : h.Fits l a) (he : h.Enclosed a.body a.outer es)
    {s : DynamicScope} (hs : a.captured? = some s) (x : Body) :
    h.Enclosed x (cellsOf (some s)) (l.self :: es) := by
  obtain ⟨hcells, hlayout⟩ := hf.grounded.captured hs
  intro _
  refine ⟨s.cell, a.outer, ?_, ?_, by rw [hlayout, hf.body], by rw [hf.body]; exact he⟩
  · rw [cellsOf, Option.map_some, Option.getD_some, hcells]
  · rw [← Lineage.number, hf.standing, Activation.standing?, hs]
    rfl

/-- An activation that has or had a parent scope captures some scope. -/
theorem Fits.captured_isSome (hf : h.Fits l a) (hroot : l.self.rootless = false)
    (hnone : a.captured? = none → a.footing = .nowhere) : ∃ s, a.captured? = some s := by
  cases hc : a.captured? with
  | some s => exact ⟨s, rfl⟩
  | none =>
    have hg := hf.grounded
    rw [Activation.Grounded, hnone hc] at hg
    rw [hg.2.2] at hroot
    cases hroot

/-- The scope on top of the stack is what the running activation captures, if it is its own. -/
theorem Fits.current_captured {as : List Activation} {ss : List DynamicScope} (hf : h.Fits l a)
    (hss : Stacks (a :: as) ss) (hpushes : a.body.pushesScope = true) :
    ∃ s, ss.head? = some s ∧ a.captured? = some s := by
  have hpops : a.body.popsScope = true := by rw [Body.popsScope, hpushes, Bool.true_or]
  have hg := hf.grounded
  rw [Activation.Grounded] at hg
  rw [hss.head hpops, Activation.captured?]
  cases hfooting : a.footing with
  | own s => exact ⟨s, rfl, rfl⟩
  | guest _ | nowhere =>
    rw [hfooting, hpushes] at hg
    cases hg.1

end History

end ObjectIr
