import ObjectIr.Proofs.Sharing.Machines

/-!
# What optimized bodies share

A run of a body and one of its optimized form, from one state, stay linked. So places that share a
value after the first run share one after the second, unless the value is an array that the body
made where its optimized form copies a constant (`optimized_shares`). An array constant is a new
array at each read, so there the optimized form may make two where the body reads one twice
(`sharedScript_unshared`).
-/

namespace ObjectIr

/-! ### Where runs start -/

section Definitions

variable (n : Nat)

mutual

/-- The arrays in the value have numbers, of which `n` is the next. -/
def Value.Counted : Value → Prop
  | .array i vs => i < n ∧ CountedAll vs
  | .block ⟨_, _, receiver, _, _, _⟩ => Counted receiver
  | .nil | .bool _ | .fixnum _ | .float _ | .string _ | .symbol _ | .object _ | .module _
  | .method _ => True

def Value.CountedAll : List Value → Prop
  | [] => True
  | v :: vs => Counted v ∧ CountedAll vs

end

structure Frame.Counted (f : Frame) : Prop where
  receiver : f.receiver.Counted n
  block? : ∀ b, f.block? = some b → (Value.block b).Counted n

def Context.Counted (c : Context) : Prop := ∀ f ∈ c.frames, f.Counted n

structure Invocation.Counted (i : Invocation) : Prop where
  frame : i.frame.Counted n
  args : ∀ v ∈ i.args, v.Counted n
  answer? : ∀ v, i.answer? = some v → v.Counted n

end Definitions

structure Heap.Counted (h : Heap) : Prop where
  constants : ∀ m name v, h.constant? m name = some v → v.Counted h.next.arrays
  slots : ∀ (c : ScopeCell), ∀ v ∈ h.slotsOf c, v.Counted h.next.arrays

/-- Each array made so far stands for itself. -/
def Links.below (n : Nat) : Links := fun i j => i = j ∧ i < n

theorem Links.below_sound (literal : Nat → Prop) (n : Nat) : (below n).Sound literal n n where
  made := by
    rintro i _ ⟨rfl, hi⟩
    exact ⟨hi, hi⟩
  single := by
    rintro i _ _ ⟨rfl, -⟩ ⟨rfl, -⟩
    exact .inl rfl

variable {n : Nat}

mutual

theorem Value.Counted.linked : ∀ {v : Value}, v.Counted n → v.Linked (.below n) v
  | .array _ _, h => .array ⟨rfl, h.1⟩ (CountedAll.linked h.2)
  | .block ⟨id, body, receiver, scope?, m, visibility⟩, h =>
    have hr : receiver.Counted n := h
    .block id body hr.linked scope? m visibility
  | .nil, _ | .bool _, _ | .fixnum _, _ | .float _, _ | .string _, _ | .symbol _, _ | .object _, _
  | .module _, _ | .method _, _ => .plain (by simp) (by simp)

theorem Value.CountedAll.linked : ∀ {vs : List Value}, CountedAll n vs → LinkedAll (.below n) vs vs
  | [], _ => .nil
  | _ :: _, h => .cons (Counted.linked h.1) (CountedAll.linked h.2)

end

theorem Value.Counted.rel_linked {x : Option Value} (h : ∀ v, x = some v → v.Counted n) :
    Option.Rel (Value.Linked (.below n)) x x := by
  cases x with
  | none => exact .none
  | some v => exact .some (h v rfl).linked

theorem Frame.Counted.linked {f : Frame} (h : f.Counted n) : f.Linked (.below n) f where
  receiver := h.receiver.linked
  visibility := rfl
  name := rfl
  block? := by
    have hb := h.block?
    cases hf : f.block? with
    | none => exact .none
    | some b => exact .some (hb b hf).linked
  module := rfl

/-- Runs of a body and its simplified form start linked. -/
theorem start_linked {h : Heap} {c : Context} {i : Invocation} (hh : h.Counted)
    (hc : c.Counted h.next.arrays) (hi : i.Counted h.next.arrays) (limit : Nat)
    (literal : Nat → Prop) (p : Propagation) (hbody : i.body = p.body)
    (hshared : ∀ t, p.shared t → p.body.temps.holds t = p.body'.temps.holds t) :
    (Machine.start limit h c i).Linked literal p (.below h.next.arrays)
      (Machine.start limit h c { i with body := p.body' }) := by
  have hheap : h.Linked (.below h.next.arrays) h :=
    ⟨.refl h, fun m name => Value.Counted.rel_linked (hh.constants m name),
      fun c => List.forall₂_same.2 fun v hv => (hh.slots c v hv).linked⟩
  have hcontext : c.Linked (.below h.next.arrays) c :=
    ⟨List.forall₂_same.2 fun f hf => (hc f hf).linked, rfl, rfl⟩
  have hinvocation : i.Linked (.below h.next.arrays) i :=
    ⟨rfl, hi.frame.linked, rfl, List.forall₂_same.2 fun v hv => (hi.args v hv).linked,
      Value.Counted.rel_linked hi.answer?⟩
  have hsound := Links.below_sound literal h.next.arrays
  have hentered := enter_linked hheap hcontext hinvocation (hbody ▸ p.propagated.kin) limit
    (hbody ▸ hshared) hsound
  rw [Machine.start, Machine.start]
  rcases hentered.elim with ⟨f, g, h1, h2, hf⟩ | ⟨s, s', h1, h2, hpc, hs⟩
  · rw [h1, h2]
    exact ⟨hheap, hcontext, .finished (.error hf), .nil, hsound⟩
  · rw [h1, h2]
    have hover : p.Over [] p := rfl
    refine runningAt_linked hover ?_ .nil
    rw [hpc, p.propagated.start]
    exact hbody ▸ hs

/-! ### What runs leave behind -/

variable {l : Links}

mutual

theorem Value.Linked.counted (hl : ∀ i j, l i j → i < n) :
    ∀ {v w : Value}, v.Linked l w → v.Counted n
  | _, _, .array h hs => ⟨hl _ _ h, hs.counted hl⟩
  | _, _, .block _ _ h _ _ _ => h.counted hl
  | .array i vs, _, .plain harray _ => absurd rfl (harray i vs)
  | .block b, _, .plain _ hblock => absurd rfl (hblock b)
  | .nil, _, .plain _ _ | .bool _, _, .plain _ _ | .fixnum _, _, .plain _ _
  | .float _, _, .plain _ _ | .string _, _, .plain _ _ | .symbol _, _, .plain _ _
  | .object _, _, .plain _ _ | .module _, _, .plain _ _ | .method _, _, .plain _ _ => trivial

theorem Value.LinkedAll.counted (hl : ∀ i j, l i j → i < n) :
    ∀ {vs ws : List Value}, LinkedAll l vs ws → CountedAll n vs
  | _, _, .nil => trivial
  | _, _, .cons h hs => ⟨h.counted hl, hs.counted hl⟩

end

theorem Value.counted_of_rel (hl : ∀ i j, l i j → i < n) {x y : Option Value}
    (h : Option.Rel (Value.Linked l) x y) : ∀ v, x = some v → v.Counted n := by
  rintro v rfl
  cases h with
  | some h => exact h.counted hl

/-- Runs that start with their arrays counted leave their arrays counted. -/
theorem run_counted {h : Heap} {c : Context} {i : Invocation} (hh : h.Counted)
    (hc : c.Counted h.next.arrays) (hi : i.Counted h.next.arrays) {limit fuel : Nat} {r : Result}
    (hr : (Machine.start limit h c i).run limit fuel = some r) :
    r.heap.Counted ∧ r.context.Counted r.heap.next.arrays ∧
      ∀ v, r.answer? = some v → v.Counted r.heap.next.arrays := by
  obtain ⟨l, hl⟩ := (start_linked hh hc hi limit (fun _ => True) (.refl i.body) rfl
    fun _ _ => rfl).after limit (fun _ _ _ => trivial) fuel
  rw [Machine.run_eq_after] at hr
  obtain ⟨r', -, hlinked⟩ := hl.result hr
  have hmade : ∀ i j, l i j → i < r.heap.next.arrays := by
    rw [← (Machine.control_of_result hr).2.1]
    exact fun i j hij => (hl.sound.made i j hij).1
  refine ⟨⟨fun m name => Value.counted_of_rel hmade (hlinked.heap.constants m name),
    fun c v hv => ?_⟩, fun f hf => ?_, Value.counted_of_rel hmade hlinked.answer?⟩
  · obtain ⟨w, -, hw⟩ := (exists_of_forall₂ (hlinked.heap.slots c)).1 v hv
    exact hw.counted hmade
  · obtain ⟨f', -, hff⟩ := (exists_of_forall₂ hlinked.context.frames).1 f hf
    refine ⟨hff.receiver.counted hmade, fun b hb => ?_⟩
    have hblock := hff.block?
    rw [hb] at hblock
    generalize f'.block? = y at hblock
    cases hblock with
    | some h => exact Value.Linked.counted hmade h

/-- Before any code runs there are no arrays. -/
theorem Heap.initial_counted : Heap.initial.Counted := by
  have hregisters : ∀ (ms : List Module) (h : Heap), h.Registers
      (ms.foldl (fun h m => h.setConstant Core.object m.name (.module m)) h) := by
    intro ms
    induction ms with
    | nil => exact .refl
    | cons m ms ih => exact fun h => (Registers.setConstant h _ _ m).trans (ih _)
  have h := hregisters Core.all
    { next := { modules := Core.all.length, objects := Core.mainObject.id + 1 } }
  refine ⟨fun m name v hv => ?_, fun c v hv => ?_⟩
  · rcases h.constants m name v hv with hv | ⟨k, rfl⟩
    · simp [constant?, table] at hv
    · exact trivial
  · rw [slotsOf, Heap.initial, h.slots] at hv
    simp at hv

theorem Body.scriptInvocation_counted (b : Body) (n : Nat) : b.scriptInvocation.Counted n :=
  ⟨⟨trivial, by rintro b ⟨⟩⟩, by rintro v ⟨⟩, by rintro v ⟨⟩⟩

/-! ### What optimized bodies share -/

/-- A script that puts one array into two constants. -/
def sharedScript (o : Operand) : Draft where
  name := "<main>"
  scope := .nest ⟨0, .script, []⟩ none
  code := [.copy (.temp ⟨.generic, 0⟩) (.array [o]),
    .putConst .scopeModule "A" (.var (.temp ⟨.generic, 0⟩)),
    .putConst .scopeModule "B" (.var (.temp ⟨.generic, 0⟩))]

theorem sharedScript_unshared :
    ∃ b b' r r', (sharedScript (.fixnum 1)).build 0 = .ok b ∧ b.optimized 1 = .ok b' ∧
      (b.start 8 .initial {}).run 8 6 = some r ∧ (b'.start 8 .initial {}).run 8 6 = some r' ∧
      r.Shares (.constant Core.object "A") (.constant Core.object "B") ∧
      ¬r'.Shares (.constant Core.object "A") (.constant Core.object "B") := by
  have hb : (sharedScript (.fixnum 1)).build 0 =
    .ok ((sharedScript (.fixnum 1)).body 0 { generic := 1 }) := rfl
  have hb' : ((sharedScript (.fixnum 1)).body 0 { generic := 1 }).optimized 1 =
    .ok (((sharedScript (.fixnum 1)).body 0 { generic := 1 }).propagatedDraft.body 1
      { generic := 1 }) := rfl
  have hrun : ((((sharedScript (.fixnum 1)).body 0 { generic := 1 }).start 8 .initial {}).run 8
      6).map (fun r => decide (r.Shares (.constant Core.object "A") (.constant Core.object "B"))) =
        some true := by decide +kernel
  have hrun' : (((((sharedScript (.fixnum 1)).body 0 { generic := 1 }).propagatedDraft.body 1
      { generic := 1 }).start 8 .initial {}).run 8 6).map
      (fun r => decide (r.Shares (.constant Core.object "A") (.constant Core.object "B"))) =
        some false := by decide +kernel
  obtain ⟨r, hr, hshares⟩ := Option.map_eq_some_iff.1 hrun
  obtain ⟨r', hr', hshares'⟩ := Option.map_eq_some_iff.1 hrun'
  exact ⟨_, _, r, r', hb, hb', hr, hr', of_decide_eq_true hshares, of_decide_eq_false hshares'⟩

/--
Where a run of a body leaves one value at two places, a run of its optimized form does too, unless
the value is an array that the body made where its optimized form copies a constant into a
temporary.
-/
theorem optimized_shares {d : Draft} {id : Nat} {b : Body} (hb : d.build id = .ok b)
    (id' : Nat) :
    ∃ b', b.optimized id' = .ok b' ∧
      ∀ (limit fuel : Nat) (h : Heap) (c : Context) (frame : Frame)
        (parent? : Option DynamicScope) (args : List Value) (r : Result),
        h.Counted → c.Counted h.next.arrays →
        Invocation.Counted h.next.arrays { body := b, frame, parent?, args } →
        (Machine.start limit h c { body := b, frame, parent?, args }).run limit fuel = some r →
        ∃ r', (Machine.start limit h c { body := b', frame, parent?, args }).run limit fuel =
            some r' ∧
          ∀ p q x y, r.at? p = some x → r.at? q = some y → x.identical y = true →
            r'.Shares p q ∨ ∃ n vs k, x = .array n vs ∧
              ((Machine.start limit h c { body := b, frame, parent?, args }).after limit
                k).MakesLiteral limit b' n := by
  obtain ⟨b', hb', hp⟩ := b.optimized_of_build hb id'
  refine ⟨b', hb', fun limit fuel h c frame parent? args r hh hc hi hr => ?_⟩
  let m := Machine.start limit h c { body := b, frame, parent?, args }
  let literal : Nat → Prop := fun n => ∃ k, (m.after limit k).MakesLiteral limit b' n
  obtain ⟨l, hl⟩ := (start_linked hh hc hi limit literal ⟨_, _, b, b', hp⟩ rfl fun t ht =>
    ht.1.trans ht.2.symm).after limit (fun k n hn => ⟨k, hn⟩) fuel
  rw [Machine.run_eq_after] at hr
  obtain ⟨r', hr', hlinked⟩ := hl.result hr
  refine ⟨r', (Machine.run_eq_after ..).trans hr', fun p q x y hx hy hxy => ?_⟩
  rcases hlinked.shares hl.sound.single hx hy hxy with hshares | ⟨n, vs, hn, k, hk⟩
  · exact .inl hshares
  · exact .inr ⟨n, vs, k, hn, hk⟩

theorem optimized_shares_receiver :
    ∃ b b' r', (sharedScript .selfObject).build 0 = .ok b ∧ b.optimized 1 = .ok b' ∧
      (b'.start 8 .initial {}).run 8 6 = some r' ∧
      r'.Shares (.constant Core.object "A") (.constant Core.object "B") := by
  have hb : (sharedScript .selfObject).build 0 =
    .ok ((sharedScript .selfObject).body 0 { generic := 1 }) := rfl
  have hb' : ((sharedScript .selfObject).body 0 { generic := 1 }).optimized 1 =
    .ok (((sharedScript .selfObject).body 0 { generic := 1 }).propagatedDraft.body 1
      { generic := 1 }) := rfl
  obtain ⟨b', hoptimized, h⟩ := optimized_shares hb 1
  obtain rfl := Except.ok.inj (hb'.symm.trans hoptimized)
  have hrun : ((((sharedScript .selfObject).body 0 { generic := 1 }).start 8 .initial {}).run 8
      6).map (fun r => decide (r.Shares (.constant Core.object "A") (.constant Core.object "B"))) =
        some true := by decide +kernel
  obtain ⟨r, hr, hshares⟩ := Option.map_eq_some_iff.1 hrun
  obtain ⟨x, y, hx, hy, hxy⟩ := of_decide_eq_true hshares
  obtain ⟨r', hr', hkept⟩ := h 8 6 .initial {} _ none [] r Heap.initial_counted (by rintro f ⟨⟩)
    (Body.scriptInvocation_counted _ _) hr
  refine ⟨_, _, r', hb, hb', hr', ?_⟩
  rcases hkept _ _ x y hx hy hxy with hkept | ⟨n, vs, k, -, a, i, -, -, hi, hliteral, -⟩
  · exact hkept
  · have hnone : ∀ i ∈ (((sharedScript .selfObject).body 0 { generic := 1 }).propagatedDraft.body 1
        { generic := 1 }).code, i.isLiteral = false := by decide +kernel
    rw [hnone i (List.mem_of_getElem? hi)] at hliteral
    cases hliteral

end ObjectIr
