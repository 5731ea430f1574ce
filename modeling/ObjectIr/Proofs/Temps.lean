import ObjectIr.Machine.Temps

/-!
# Slots of temporaries

What the slots read at the start (`get?_init`), when a slot can be set, and what it and the others
read afterwards (`set_cases`).
-/

namespace ObjectIr

def TempKind.accepts : TempKind → Value → Bool
  | .generic, _ | .boolean, .bool _ | .fixnum, .fixnum _ | .float, .float _ => true
  | _, _ => false

def TempKind.initial : TempKind → Value
  | .generic => .nil
  | .boolean => .bool false
  | .fixnum => .fixnum 0
  | .float => .float .zero

namespace Temps

variable {ts : Temps} {t : Temp} {v : Value}

/-- Setting a slot of one kind, given how the slots of that kind are read and replaced. -/
theorem set_of_place {α : Type} {slots : Array α} {f : α → Value} {g : Array α → Temps} {a : α}
    (hget : ∀ u, u.kind = t.kind → ts.get? u = slots[u.index]?.map f)
    (hset : ts.set t v = (place slots t a).map g) (hv : v = f a)
    (hg : ∀ slots' u, (g slots').get? u =
      if u.kind = t.kind then slots'[u.index]?.map f else ts.get? u) :
    (ts.get? t = none ∧ ts.set t v = .error (.internal (.outsideTemps t))) ∨
      ((ts.get? t).isSome ∧ ∃ ts', ts.set t v = .ok ts' ∧
        ∀ u, ts'.get? u = if u = t then some v else ts.get? u) := by
  rw [hset, hget t rfl, place]
  by_cases hi : t.index < slots.size
  · refine .inr ⟨by simp [hi], _, by rw [if_pos hi]; rfl, fun u => ?_⟩
    rw [hg, Array.getElem?_setIfInBounds]
    obtain ⟨kind, i⟩ := t
    obtain ⟨kind', j⟩ := u
    by_cases hk : kind' = kind
    · subst hk
      by_cases hij : i = j
      · subst hij
        simp only at hi
        simp [hi, hv]
      · simp [hij, Ne.symm hij, hget]
    · simp [hk]
  · exact .inl ⟨by simp [hi], by rw [if_neg hi]; rfl⟩

/--
A slot is set when it takes the value and is there. The type is looked at first, and the other
slots stay.
-/
theorem set_cases (ts : Temps) (t : Temp) (v : Value) :
    (t.kind.accepts v = false ∧ ts.set t v = .error (.type (.expects (.temp t) t.kind v))) ∨
    t.kind.accepts v = true ∧
      ((ts.get? t = none ∧ ts.set t v = .error (.internal (.outsideTemps t))) ∨
        ((ts.get? t).isSome ∧ ∃ ts', ts.set t v = .ok ts' ∧
          ∀ u, ts'.get? u = if u = t then some v else ts.get? u)) := by
  obtain ⟨kind, i⟩ := t
  cases kind with
  | generic =>
    refine .inr ⟨rfl, set_of_place (f := id) (g := fun slots => { ts with generic := slots })
      (a := v) (fun u hu => ?_) rfl rfl (fun slots' u => ?_)⟩
    · simp [get?, hu]
    · cases hu : u.kind <;> simp [get?, hu]
  | boolean =>
    cases v with
    | bool b =>
      refine .inr ⟨rfl, set_of_place (g := fun slots => { ts with boolean := slots }) (a := b)
        (fun u hu => ?_) rfl rfl (fun slots' u => ?_)⟩
      · simp [get?, hu]
      · cases hu : u.kind <;> simp [get?, hu]
    | _ => exact .inl ⟨rfl, rfl⟩
  | fixnum =>
    cases v with
    | fixnum n =>
      refine .inr ⟨rfl, set_of_place (g := fun slots => { ts with fixnum := slots }) (a := n)
        (fun u hu => ?_) rfl rfl (fun slots' u => ?_)⟩
      · simp [get?, hu]
      · cases hu : u.kind <;> simp [get?, hu]
    | _ => exact .inl ⟨rfl, rfl⟩
  | float =>
    cases v with
    | float x =>
      refine .inr ⟨rfl, set_of_place (g := fun slots => { ts with float := slots }) (a := x)
        (fun u hu => ?_) rfl rfl (fun slots' u => ?_)⟩
      · simp [get?, hu]
      · cases hu : u.kind <;> simp [get?, hu]
    | _ => exact .inl ⟨rfl, rfl⟩

theorem get?_init (c : TempCounts) (t : Temp) :
    (init c).get? t = if c.holds t then some t.kind.initial else none := by
  have hr : ∀ {α : Type} (n i : Nat) (a : α) (f : α → Value),
      (Array.replicate n a)[i]?.map f = if decide (i < n) = true then some (f a) else none := by
    intro α n i a f
    rw [Array.getElem?_replicate]
    by_cases h : i < n <;> simp [h]
  obtain ⟨kind, i⟩ := t
  cases kind with
  | generic =>
    have h := hr c.generic i Value.nil id
    rw [Option.map_id_fun] at h
    exact h
  | boolean => exact hr c.boolean i false .bool
  | fixnum => exact hr c.fixnum i 0 .fixnum
  | float => exact hr c.float i .zero .float

end Temps

end ObjectIr
