import ObjectIr.Proofs.Acceptance

/-!
# Names of locals and the checks of a draft

`resolve` walks the levels outward by name, the check of a local goes out by its depth and compares
its offset. What the first walk answers is the nearest level that declares the name and the first
position there (`locateIn_eq_some_iff`), so the second one finds a local there
(`Draft.Obtained.declared`). Of the checks on locals only that of a body without a scope of its own
is left, and it refuses just the names of the body's own level (`resolve_agrees_with_build`).
-/

namespace ObjectIr

/-! ### By name outward -/

namespace StaticScope

/-- That many levels out, the name is declared. -/
def DeclaresName (s : StaticScope) (name : String) (depth : Nat) : Prop :=
  ∃ level, s.level? depth = some level ∧ name ∈ level.locals

/-- That many levels out, the name stands at the offset. -/
def NamesAt (s : StaticScope) (name : String) (depth offset : Nat) : Prop :=
  ∃ level, s.level? depth = some level ∧ level.locals[offset]? = some name

/-- A name that is declared twice in one level is found where it stands first. -/
theorem findIdx?_eq_some_iff_isLeast {names : List String} {name : String} {offset : Nat} :
    names.findIdx? (· == name) = some offset ↔ IsLeast {k | names[k]? = some name} offset := by
  rw [List.findIdx?_eq_some_iff_getElem]
  simp only [IsLeast, mem_lowerBounds, Set.mem_ofPred_eq, beq_iff_eq, List.getElem?_eq_some_iff]
  constructor
  · rintro ⟨hlt, hname, hfirst⟩
    refine ⟨⟨hlt, hname⟩, fun k ⟨hk, hkname⟩ => ?_⟩
    by_contra hbefore
    exact hfirst k (Nat.lt_of_not_le hbefore) hkname
  · rintro ⟨⟨hlt, hname⟩, hleast⟩
    refine ⟨hlt, hname, fun k hk hkname => ?_⟩
    exact absurd (hleast k ⟨Nat.lt_trans hk hlt, hkname⟩) (Nat.not_le_of_lt hk)

theorem findIdx?_eq_none_iff_not_mem {names : List String} {name : String} :
    names.findIdx? (· == name) = none ↔ name ∉ names := by
  rw [List.findIdx?_eq_none_iff]
  simp only [beq_eq_false_iff_ne]
  exact ⟨fun h hmem => h name hmem rfl, fun h x hx hname => h (hname ▸ hx)⟩

theorem locateIn_eq_none_iff {name : String} {levels : List ScopeLevel} :
    locateIn name levels = none ↔ ∀ level ∈ levels, name ∉ level.locals := by
  induction levels with
  | nil => simp [locateIn]
  | cons level levels ih =>
    rw [locateIn, List.forall_mem_cons, ← findIdx?_eq_none_iff_not_mem, ← ih]
    cases level.locals.findIdx? (· == name) <;> simp

/-- The walk ends at the first level whose search for the name succeeds. -/
theorem locateIn_eq_some_iff {name : String} {levels : List ScopeLevel} {depth offset : Nat} :
    locateIn name levels = some (depth, offset) ↔
      (∀ n < depth, ∀ level, levels[n]? = some level → name ∉ level.locals) ∧
        ∃ level, levels[depth]? = some level ∧
          level.locals.findIdx? (· == name) = some offset := by
  induction levels generalizing depth with
  | nil => simp [locateIn]
  | cons level levels ih =>
    rw [locateIn]
    cases hfound : level.locals.findIdx? (· == name) with
    | some first =>
      have hmem : name ∈ level.locals :=
        List.mem_of_getElem? (findIdx?_eq_some_iff_isLeast.1 hfound).1
      cases depth with
      | zero => simp [hfound]
      | succ depth =>
        simp only [Option.some.injEq, Prod.mk.injEq, reduceCtorEq, false_and, false_iff]
        exact fun h => h.1 0 (Nat.succ_pos depth) level rfl hmem
    | none =>
      have hnot := findIdx?_eq_none_iff_not_mem.1 hfound
      cases depth with
      | zero => simp [hfound]
      | succ depth =>
        have hshift : ∀ found : Option (Nat × Nat), found.map (fun p => (p.1 + 1, p.2)) =
            some (depth + 1, offset) ↔ found = some (depth, offset) := by
          rintro (_ | found) <;> simp [Prod.ext_iff]
        refine (hshift _).trans (ih.trans ?_)
        rw [List.getElem?_cons_succ]
        refine and_congr_left fun _ => ⟨fun h n hn l hl => ?_, fun h n hn l hl => ?_⟩
        · cases n with
          | zero => exact Option.some.inj hl ▸ hnot
          | succ n => exact h n (Nat.lt_of_succ_lt_succ hn) l hl
        · exact h (n + 1) (Nat.succ_lt_succ hn) l hl

/-- The nearest level that declares the name, and the first position there. -/
theorem locate_eq_some_iff {s : StaticScope} {name : String} {depth offset : Nat} :
    s.locate name = some (depth, offset) ↔
      IsLeast {n | s.DeclaresName name n} depth ∧ IsLeast {k | s.NamesAt name depth k} offset := by
  rw [locate, locateIn_eq_some_iff]
  constructor
  · rintro ⟨hbefore, level, hlevel, hoffset⟩
    have hfirst := findIdx?_eq_some_iff_isLeast.1 hoffset
    refine ⟨⟨⟨level, hlevel, List.mem_of_getElem? hfirst.1⟩, ?_⟩, ⟨level, hlevel, hfirst.1⟩, ?_⟩
    · rintro n ⟨nearer, hnearer, hname⟩
      by_contra hlt
      exact hbefore n (Nat.lt_of_not_le hlt) nearer hnearer hname
    · rintro k ⟨level', hlevel', hk⟩
      obtain rfl := Option.some.inj (hlevel.symm.trans hlevel')
      exact hfirst.2 hk
  · rintro ⟨⟨-, hnearest⟩, ⟨level, hlevel, hname⟩, hfirst⟩
    refine ⟨fun n hn nearer hnearer hmem => ?_, level, hlevel, ?_⟩
    · exact absurd (hnearest ⟨nearer, hnearer, hmem⟩) (Nat.not_le_of_lt hn)
    · exact findIdx?_eq_some_iff_isLeast.2 ⟨hname, fun k hk => hfirst ⟨level, hlevel, hk⟩⟩

theorem locate_eq_none_iff {s : StaticScope} {name : String} :
    s.locate name = none ↔ ∀ level ∈ s.levels, name ∉ level.locals :=
  locateIn_eq_none_iff

end StaticScope

/-! ### By depth and offset -/

namespace Draft

variable {d : Draft} {name : String}

theorem resolve_eq_ok_iff {v : Variable} :
    d.resolve name = .ok v ↔
      ∃ depth offset, d.scope.locate name = some (depth, offset) ∧
        v = .lexical name depth offset := by
  rw [resolve]
  split
  · next depth offset h => simp [h, eq_comm]
  · next h => simp [h]

theorem resolve_eq_error_iff {e : BuildError} :
    d.resolve name = .error e ↔ d.scope.locate name = none ∧ e = .unknownLocal name := by
  rw [resolve]
  split
  · next depth offset h => simp [h]
  · next h => simp [h, eq_comm]

/-- A variable that some draft of the same scope answers for a name. -/
def Obtained (d : Draft) (v : Variable) : Prop :=
  ∃ (earlier : Draft) (name : String), earlier.scope = d.scope ∧ earlier.resolve name = .ok v

/-- The level and the offset that a name resolves to are there. -/
theorem Obtained.declared {depth offset : Nat} (h : d.Obtained (.lexical name depth offset)) :
    d.Declares depth offset ∧ d.scope.DeclaresName name depth := by
  obtain ⟨earlier, asked, hscope, hresolve⟩ := h
  obtain ⟨depth', offset', hlocate, hv⟩ := resolve_eq_ok_iff.1 hresolve
  cases hv
  rw [hscope] at hlocate
  obtain ⟨hdepth, ⟨level, hlevel, hname⟩, -⟩ := StaticScope.locate_eq_some_iff.1 hlocate
  exact ⟨⟨level, hlevel, (List.getElem?_eq_some_iff.1 hname).1⟩, hdepth.1⟩

/-- Such a local is refused only as the own local of a body without a scope. -/
theorem Refuses.shared_of_obtained {v : Variable} {e : BuildError} (h : d.Refuses v e)
    (hv : d.Obtained v) : ∃ name offset, d.Scopeless ∧ v = .lexical name 0 offset ∧
      e = .sharedScopeLocal name ∧ name ∈ d.scope.locals := by
  cases h with
  | shared hs name offset =>
    obtain ⟨level, hlevel, hname⟩ := hv.declared.2
    obtain rfl : d.scope.level = level := Option.some.inj hlevel
    exact ⟨name, offset, hs, rfl, rfl, hname⟩
  | range _ hd => exact absurd hv.declared.1 hd

theorem Refuses.exists_lexical {v : Variable} {e : BuildError} (h : d.Refuses v e) :
    ∃ name depth offset, v = .lexical name depth offset := by
  cases h <;> exact ⟨_, _, _, rfl⟩

/-- The error of a draft is about a local only as the refusal of a local that stands in its code. -/
theorem Violates.refuses {e : BuildError} (h : d.Violates e) :
    (∃ i ∈ d.code, ∃ v, i.Mentions v ∧ d.Refuses v e) ∨
      e = .conflictingScopeFlags ∨ (∃ l, e = .duplicateLabel l ∨ e = .unknownLabel l) ∨
      ∃ t n, e = .tempOutOfRange t n := by
  cases h with
  | flags => exact .inr (.inl rfl)
  | label => exact .inr (.inr (.inl ⟨_, .inl rfl⟩))
  | @code before after i _ _ _ hcode _ hi =>
    have hmem : i ∈ d.code := hcode ▸ List.mem_append_right before List.mem_cons_self
    cases hi with
    | target => exact .inr (.inr (.inl ⟨_, .inr rfl⟩))
    | place _ hused _ hv =>
      refine .inl ⟨i, hmem, _, InstrOf.mem_usedVariables_iff.1 ?_, hv⟩
      rw [hused]
      exact List.mem_append_right _ List.mem_cons_self
  | temps => exact .inr (.inr (.inr ⟨_, _, rfl⟩))

/--
A name resolves to the nearest level that declares it and the first position there, and to nothing
only if no level does. Code whose locals were all resolved in the draft's scope is never refused for
a local out of range, and for a shared one only in a body without a scope whose own level declares
the name.
-/
theorem resolve_agrees_with_build (d : Draft) :
    (∀ name v, d.resolve name = .ok v ↔ ∃ depth offset, v = .lexical name depth offset ∧
      IsLeast {n | d.scope.DeclaresName name n} depth ∧
        IsLeast {k | d.scope.NamesAt name depth k} offset) ∧
    (∀ name e, d.resolve name = .error e ↔
      e = .unknownLocal name ∧ ∀ level ∈ d.scope.levels, name ∉ level.locals) ∧
    ((∀ i ∈ d.code, ∀ name depth offset, i.Mentions (.lexical name depth offset) →
        d.Obtained (.lexical name depth offset)) →
      ∀ id, (∀ name depth offset, d.build id ≠ .error (.localOutOfRange name depth offset)) ∧
        ∀ name, d.build id = .error (.sharedScopeLocal name) →
          d.Scopeless ∧ name ∈ d.scope.locals ∧
            ∃ i ∈ d.code, ∃ offset, i.Mentions (.lexical name 0 offset)) := by
  refine ⟨fun name v => ?_, fun name e => ?_, fun hlocals id => ?_⟩
  · simp only [resolve_eq_ok_iff, StaticScope.locate_eq_some_iff, and_comm]
  · rw [resolve_eq_error_iff, StaticScope.locate_eq_none_iff, and_comm]
  · have hrefused : ∀ {i : Instr} {v : Variable} {e : BuildError}, i ∈ d.code → i.Mentions v →
        d.Refuses v e → ∃ name offset, d.Scopeless ∧ v = .lexical name 0 offset ∧
          e = .sharedScopeLocal name ∧ name ∈ d.scope.locals := by
      intro i v e hi hv hr
      obtain ⟨name, depth, offset, rfl⟩ := hr.exists_lexical
      exact hr.shared_of_obtained (hlocals i hi name depth offset hv)
    refine ⟨fun name depth offset herr => ?_, fun name herr => ?_⟩
    · rcases (violates_iff.2 (build_eq_error_iff.1 herr)).refuses with
        ⟨i, hi, v, hv, hr⟩ | h | ⟨l, h | h⟩ | ⟨t, n, h⟩
      · obtain ⟨_, _, _, _, h, _⟩ := hrefused hi hv hr
        cases h
      all_goals cases h
    · rcases (violates_iff.2 (build_eq_error_iff.1 herr)).refuses with
        ⟨i, hi, v, hv, hr⟩ | h | ⟨l, h | h⟩ | ⟨t, n, h⟩
      · obtain ⟨own, offset, hs, rfl, h, hname⟩ := hrefused hi hv hr
        cases h
        exact ⟨hs, hname, i, hi, offset, hv⟩
      all_goals cases h

/-- A body without a scope inside two levels that both declare `x`, the nearer one twice. -/
def shadowingDraft : Draft where
  name := "shadowing"
  scope := ⟨⟨2, .closure, ["y", "y"]⟩, [⟨1, .closure, ["z", "x", "x"]⟩, ⟨0, .script, ["x"]⟩]⟩
  flags := ⟨[.scopeEliminated]⟩
  code := [.copy (.temp ⟨.generic, 0⟩) (.var (.lexical "x" 1 1)),
    .copy (.lexical "y" 0 0) (.var (.temp ⟨.generic, 0⟩))]

theorem resolve_agrees_with_build_shadowingDraft :
    IsLeast {n | shadowingDraft.scope.DeclaresName "x" n} 1 ∧
      IsLeast {k | shadowingDraft.scope.NamesAt "x" 1 k} 1 ∧
      shadowingDraft.build 7 ≠ .error (.localOutOfRange "x" 1 1) ∧
      shadowingDraft.build 7 = .error (.sharedScopeLocal "y") ∧
      "y" ∈ shadowingDraft.scope.locals := by
  have hx : shadowingDraft.resolve "x" = .ok (.lexical "x" 1 1) := rfl
  have hy : shadowingDraft.resolve "y" = .ok (.lexical "y" 0 0) := rfl
  have hbuild : shadowingDraft.build 7 = .error (.sharedScopeLocal "y") := rfl
  have hlocals : ∀ i ∈ shadowingDraft.code, ∀ name depth offset,
      i.Mentions (.lexical name depth offset) →
        shadowingDraft.Obtained (.lexical name depth offset) := by
    intro i hi name depth offset hv
    rcases List.mem_cons.1 hi with rfl | hi
    · rcases hv with hv | hv
      · cases hv
      · cases hv
        exact ⟨shadowingDraft, "x", rfl, hx⟩
    · obtain rfl := List.mem_singleton.1 hi
      rcases hv with hv | hv
      · cases hv
        exact ⟨shadowingDraft, "y", rfl, hy⟩
      · cases hv
  obtain ⟨hok, -, hcode⟩ := resolve_agrees_with_build shadowingDraft
  obtain ⟨_, _, hv, hdepth, hoffset⟩ := (hok "x" _).1 hx
  cases hv
  obtain ⟨hrange, hshared⟩ := hcode hlocals 7
  exact ⟨hdepth, hoffset, hrange "x" 1 1, hbuild, (hshared "y" hbuild).2.1⟩

end Draft

end ObjectIr
