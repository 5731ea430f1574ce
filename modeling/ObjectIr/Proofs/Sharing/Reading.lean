import ObjectIr.Proofs.Sharing.Sites

/-!
# Reading with links that grow

Reading makes arrays, and so adds to what is linked. Two executions simulate each other from links
when they succeed with linked answers or fail with linked failures, by links that hold all the
former ones (`Links.Sim`). An operand and its simplified form do (`evaluate_linked`): where a
temporary was replaced by a constant, the array that it holds comes to stand for one more.
-/

namespace ObjectIr

namespace Links

section Executions

variable {σ τ α β α' β' : Type}

/-- Two ends that are linked, by what was linked before and maybe more. -/
inductive Meets (l : Links) (post err : Links → σ → τ → Prop) (rel : Links → α → β → Prop) :
    EStateM.Result Failure σ α → EStateM.Result Failure τ β → Prop
  | ok {l' : Links} (hl : l.Within l') {a : α} {b : β} {s : σ} {t : τ} (h : rel l' a b)
    (hs : post l' s t) : Meets l post err rel (.ok a s) (.ok b t)
  | error {l' : Links} (hl : l.Within l') {f g : Failure} {s : σ} {t : τ} (h : f.Linked l' g)
    (hs : err l' s t) : Meets l post err rel (.error f s) (.error g t)

def Sim (l : Links) (pre post err : Links → σ → τ → Prop) (rel : Links → α → β → Prop)
    (x : EStateM Failure σ α) (y : EStateM Failure τ β) : Prop :=
  ∀ s t, pre l s t → l.Meets post err rel (x s) (y t)

variable {l : Links} {pre mid post err : Links → σ → τ → Prop} {rel : Links → α → β → Prop}
  {rel' : Links → α' → β' → Prop} {x : EStateM Failure σ α} {y : EStateM Failure τ β}

theorem Meets.elim {r : EStateM.Result Failure σ α} {r' : EStateM.Result Failure τ β}
    (h : l.Meets post err rel r r') :
    (∃ l' a b s t, r = .ok a s ∧ r' = .ok b t ∧ l.Within l' ∧ rel l' a b ∧ post l' s t) ∨
      ∃ l' f g s t, r = .error f s ∧ r' = .error g t ∧ l.Within l' ∧ Failure.Linked l' f g ∧
        err l' s t := by
  cases h with
  | ok hl h hs => exact .inl ⟨_, _, _, _, _, rfl, rfl, hl, h, hs⟩
  | error hl h hs => exact .inr ⟨_, _, _, _, _, rfl, rfl, hl, h, hs⟩

theorem Meets.within {l₁ : Links} (hl : l.Within l₁) {r : EStateM.Result Failure σ α}
    {r' : EStateM.Result Failure τ β} (h : l₁.Meets post err rel r r') :
    l.Meets post err rel r r' := by
  cases h with
  | ok hl' h hs => exact .ok (hl.trans hl') h hs
  | error hl' h hs => exact .error (hl.trans hl') h hs

namespace Sim

theorem bind {f : α → EStateM Failure σ α'} {g : β → EStateM Failure τ β'}
    (hxy : l.Sim pre mid err rel x y)
    (hfg : ∀ l' : Links, l.Within l' → ∀ a b, rel l' a b → l'.Sim mid post err rel' (f a) (g b)) :
    l.Sim pre post err rel' (x >>= f) (y >>= g) := by
  intro s t hst
  simp only [Bind.bind, EStateM.bind]
  rcases (hxy s t hst).elim with
    ⟨l', a, b, s₁, t₁, hx, hy, hl, hab, hs⟩ | ⟨l', e, e', s₁, t₁, hx, hy, hl, he, hs⟩
  · rw [hx, hy]
    exact (hfg l' hl a b hab s₁ t₁ hs).within hl
  · rw [hx, hy]
    exact .error hl he hs

theorem pure {a : α} {b : β} (hab : rel l a b) (hpost : ∀ s t, pre l s t → post l s t) :
    l.Sim pre post err rel (pure a) (pure b) :=
  fun s t hst => .ok (.refl l) hab (hpost s t hst)

theorem throw {f g : Failure} (hfg : f.Linked l g) (herr : ∀ s t, pre l s t → err l s t) :
    l.Sim pre post err rel (throw f) (throw g) :=
  fun s t hst => .error (.refl l) hfg (herr s t hst)

theorem ofExcept {u : Except Failure α} {v : Except Failure β}
    (h : Jointly (Failure.Linked l) (rel l) u v) (hpost : ∀ s t, pre l s t → post l s t)
    (herr : ∀ s t, pre l s t → err l s t) :
    l.Sim pre post err rel (ofExcept u) (ofExcept v) := by
  cases h with
  | ok hab => exact pure hab hpost
  | error hf => exact throw hf herr

theorem mono {pre' post' : Links → σ → τ → Prop} {rel₁ : Links → α → β → Prop}
    (h : l.Sim pre post err rel x y) (hpre : ∀ s t, pre' l s t → pre l s t)
    (hpost : ∀ l' s t, post l' s t → post' l' s t)
    (hrel : ∀ l' a b, rel l' a b → rel₁ l' a b) : l.Sim pre' post' err rel₁ x y := by
  intro s t hst
  rcases (h s t (hpre s t hst)).elim with
    ⟨l', a, b, s₁, t₁, hx, hy, hl, hab, hs⟩ | ⟨l', e, e', s₁, t₁, hx, hy, hl, he, hs⟩
  · rw [hx, hy]
    exact .ok hl (hrel l' a b hab) (hpost l' s₁ t₁ hs)
  · rw [hx, hy]
    exact .error hl he hs

end Sim

end Executions

/-- Two readings that go on from the numbers of arrays that the links are sound for. -/
abbrev Reads (literal : Nat → Prop) {α β : Type} (l : Links) (rel : Links → α → β → Prop) :
    Reading α → Reading β → Prop :=
  l.Sim (Links.Sound literal) (Links.Sound literal) (Links.Sound literal) rel

end Links

variable {literal : Nat → Prop} {shared : Temp → Prop} {b b' : Body} {known : Substitution}
  {l : Links} {s s' : Site} {ts' : Temps}

theorem evaluate_var_linked (h : s.Linked literal shared b b' known l s')
    (hb : b.Kin b') {v : Variable} (hv : Shared shared (known.replace true (.var v)).reads) :
    l.Reads literal Value.Linked (s.evaluate (.var v))
      (s'.evaluate (known.replace true (.var v))) := by
  rcases known.puts_replace true v with ⟨hl, -⟩ | ⟨ho, -⟩
  · obtain ⟨t, x, rfl, ht, hx, hstands⟩ :=
      h.activation.temps.known _ (Substitution.mem_of_lookup? hl)
    intro n n' hsound
    rw [Site.evaluate, Site.load, hx]
    generalize known.replace true (.var (.temp t)) = o at hstands
    cases hstands with
    | temp hw hxw =>
      rw [Site.evaluate, Site.load, hw]
      exact .ok (.refl l) hxw hsound
    | constant ho hmade =>
      have hboth := h.activation.temps.both t ht
      rw [hx] at hboth
      generalize s'.activation.temps.get? t = y at hboth
      cases hboth with
      | some hboth =>
        obtain ⟨w, k, l', hw, hwithin, hsound', hxw⟩ := evaluate_made s' o hsound ho hmade hboth
        rw [hw]
        exact .ok hwithin hxw hsound'
  · rw [ho] at hv ⊢
    exact .ofExcept (h.load hb hv) (fun _ _ h => h) fun _ _ h => h

mutual

/-- An operand reads as its simplified form does. -/
theorem evaluate_linked (hb : b.Kin b') : ∀ {l : Links} (o : Operand),
    s.Linked literal shared b b' known l s' →
    (∀ v ∈ o.reads, Shared shared (known.replace true (.var v)).reads) →
    l.Reads literal Value.Linked (s.evaluate o) (s'.evaluate (o.simplified known true))
  | _, .var v, h, hv => evaluate_var_linked h hb (hv v (List.mem_singleton.2 rfl))
  | l, .array os, h, hv => by
    rw [OperandOf.simplified_array, Site.evaluate, Site.evaluate]
    refine (evaluateAll_linked hb os h hv).bind fun l' _ vs ws hvs n n' hsound => ?_
    exact .ok (l'.within_join n n') (.array (l'.join_self n n') (hvs.mono (l'.within_join n n')))
      hsound.fresh
  | _, .selfObject, h, _ => .pure h.activation.receiver fun _ _ h => h
  | _, .nil, _, _ | _, .bool _, _, _ | _, .fixnum _, _, _ | _, .float _, _, _ | _, .string _, _, _
  | _, .symbol _, _, _ => .pure (.plain (by simp) (by simp)) fun _ _ h => h
  | l, .scopeModule, h, _ => by
    rw [show OperandOf.simplified .scopeModule known true = .scopeModule from rfl, Site.evaluate,
      Site.evaluate]
    have hm : l.Reads literal (fun _ => Eq) (ofExcept s.scopeModule) (ofExcept s'.scopeModule) :=
      .ofExcept (h.scopeModule hb) (fun _ _ h => h) fun _ _ h => h
    exact hm.bind fun l' _ m m' hm => .pure (Value.linked_module hm) fun _ _ h => h
  | _, .undefined, _, _ | _, .body _, _, _ => .throw (.plain rfl rfl) fun _ _ h => h

theorem evaluateAll_linked (hb : b.Kin b') : ∀ {l : Links} (os : List Operand),
    s.Linked literal shared b b' known l s' →
    (∀ v ∈ OperandOf.readsAll os, Shared shared (known.replace true (.var v)).reads) →
    l.Reads literal Value.LinkedAll (s.evaluateAll os)
      (s'.evaluateAll (os.map fun o => o.simplified known true))
  | _, [], _, _ => .pure .nil fun _ _ h => h
  | l, o :: os, h, hv => by
    rw [List.map_cons, Site.evaluateAll, Site.evaluateAll]
    refine (evaluate_linked hb o h fun v hin =>
      hv v (List.mem_append_left _ hin)).bind fun l₁ hl₁ v w hvw => ?_
    refine (evaluateAll_linked hb os (h.mono hl₁) fun v hin =>
      hv v (List.mem_append_right _ hin)).bind fun l₂ hl₂ vs ws hvs => ?_
    exact .pure (.cons (hvw.mono hl₂) hvs) fun _ _ h => h

end

mutual

/-- What reads as a constant, once it is simplified, was made from the constant. -/
theorem evaluate_literal (h : s.activation.temps.Linked literal shared known l ts') :
    ∀ (o : Operand) {n n' : Nat} {v : Value}, s.evaluate o n = .ok v n' →
      (o.simplified known true).isConstant = true →
      n ≤ n' ∧ ((∀ k, n ≤ k → k < n' → literal k) → (o.simplified known true).Made literal v)
  | .var x, n, n', v, hv, ho => by
    rw [Site.evaluate] at hv
    rcases known.puts_replace true x with ⟨hl, -⟩ | ⟨hx, -⟩
    · obtain ⟨t, w, rfl, -, hw, hstands⟩ := h.known _ (Substitution.mem_of_lookup? hl)
      rw [Site.load, hw] at hv
      cases hv
      refine ⟨Nat.le_refl n, fun _ => ?_⟩
      have ho : (known.replace true (.var (.temp t))).isConstant = true := ho
      show (known.replace true (.var (.temp t))).Made literal v
      generalize known.replace true (.var (.temp t)) = o at hstands ho
      cases hstands with
      | temp => cases ho
      | constant _ hmade => exact hmade
    · have ho : (known.replace true (.var x)).isConstant = true := ho
      rw [hx] at ho
      cases ho
  | .array os, n, n', v, hv, ho => by
    rw [OperandOf.simplified_array] at ho ⊢
    rw [Site.evaluate] at hv
    simp only [bind, EStateM.bind] at hv
    cases hos : s.evaluateAll os n with
    | error f m => rw [hos] at hv; cases hv
    | ok vs m =>
      rw [hos] at hv
      cases hv
      obtain ⟨hle, hmade⟩ := evaluateAll_literal h os hos ho
      refine ⟨Nat.le_succ_of_le hle, fun hk => ⟨m, vs, rfl, hk m hle (Nat.lt_succ_self m), ?_⟩⟩
      exact hmade fun k hn hm => hk k hn (Nat.lt_succ_of_lt hm)
  | .nil, n, _, _, hv, _ | .bool _, n, _, _, hv, _ | .fixnum _, n, _, _, hv, _
  | .float _, n, _, _, hv, _ | .string _, n, _, _, hv, _ | .symbol _, n, _, _, hv, _ => by
    cases hv
    exact ⟨Nat.le_refl n, fun _ => rfl⟩
  | .selfObject, _, _, _, _, ho | .scopeModule, _, _, _, _, ho | .undefined, _, _, _, _, ho
  | .body _, _, _, _, _, ho => by cases ho

theorem evaluateAll_literal (h : s.activation.temps.Linked literal shared known l ts') :
    ∀ (os : List Operand) {n n' : Nat} {vs : List Value}, s.evaluateAll os n = .ok vs n' →
      OperandOf.allConstant (os.map fun o => o.simplified known true) = true →
      n ≤ n' ∧ ((∀ k, n ≤ k → k < n' → literal k) →
        OperandOf.MadeAll literal (os.map fun o => o.simplified known true) vs)
  | [], n, _, _, hv, _ => by
    cases hv
    exact ⟨Nat.le_refl n, fun _ => rfl⟩
  | o :: os, n, n', vs, hv, ho => by
    rw [List.map_cons] at ho ⊢
    rw [OperandOf.allConstant, Bool.and_eq_true] at ho
    rw [Site.evaluateAll] at hv
    simp only [bind, EStateM.bind] at hv
    cases h1 : s.evaluate o n with
    | error f m => rw [h1] at hv; cases hv
    | ok v m =>
      rw [h1] at hv
      simp only at hv
      cases h2 : s.evaluateAll os m with
      | error f m' => rw [h2] at hv; cases hv
      | ok ws m' =>
        rw [h2] at hv
        cases hv
        obtain ⟨hle, hmade⟩ := evaluate_literal h o h1 ho.1
        obtain ⟨hle', hmade'⟩ := evaluateAll_literal h os h2 ho.2
        refine ⟨hle.trans hle', fun hk => ⟨v, ws, rfl, hmade fun k hn hm => ?_,
          hmade' fun k hn hm => hk k (hle.trans hn) hm⟩⟩
        exact hk k hn (hm.trans_le hle')

end

end ObjectIr
