import Mathlib.Data.List.Nodup
import ObjectIr.Proofs.Effects

/-!
# One memory behind many scopes

A slot can be reached through every scope that lies inside the one it belongs to, at as many
depths as there are scopes. A `Forest` records what is done with scopes: which ones are made, each
inside an earlier one or outermost, and which writes are tried through which of them. Whatever else
happens to the heap meanwhile, the slots of a scope hold the values last written to them
(`Forest.Sound.slots`), so a local reads as the latest write that reached its slot, through
whichever scope (`locals_are_one_memory`).
-/

namespace ObjectIr

namespace DynamicScope

/-- The scope `depth` parents outward. -/
def ancestor? : DynamicScope → Nat → Option DynamicScope
  | s, 0 => some s
  | s, depth + 1 => s.parent?.bind fun p => ancestor? p depth

def localCount (s : DynamicScope) : Nat := s.cell.layout.locals.length

/-- There is no scope so far out, or it has no such local. -/
def Lacks (s : DynamicScope) (depth offset : Nat) : Prop :=
  s.ancestor? depth = none ∨ ∃ a, s.ancestor? depth = some a ∧ a.localCount ≤ offset

theorem lacks_or (s : DynamicScope) (depth offset : Nat) :
    s.Lacks depth offset ∨ ∃ a, s.ancestor? depth = some a ∧ offset < a.localCount := by
  cases ha : s.ancestor? depth with
  | none => exact .inl (.inl ha)
  | some a =>
    rcases Nat.lt_or_ge offset a.localCount with ho | ho
    · exact .inr ⟨a, rfl, ho⟩
    · exact .inl (.inr ⟨a, ha, ho⟩)

theorem parent?_nest (c : ScopeCell) (p : Option DynamicScope) : (nest c p).parent? = p := by
  cases p <;> rfl

/-- The cell at a depth is that of the scope which a walk along the parents comes to. -/
theorem cell?_eq_ancestor? :
    ∀ (s : DynamicScope) (depth : Nat), s.cell? depth = (s.ancestor? depth).map cell
  | _, 0 => rfl
  | ⟨_, []⟩, _ + 1 => rfl
  | ⟨_, c :: cs⟩, depth + 1 => cell?_eq_ancestor? ⟨c, cs⟩ depth

end DynamicScope

/-- A write that was tried through a scope, and whether it succeeded. -/
structure SlotWrite where
  scope : DynamicScope
  depth : Nat
  offset : Nat
  value : Value
  done : Bool

/-- It set that slot of `a`. -/
def SlotWrite.Hits (w : SlotWrite) (a : DynamicScope) (offset : Nat) : Prop :=
  w.done = true ∧ w.scope.ancestor? w.depth = some a ∧ w.offset = offset

instance (w : SlotWrite) (a : DynamicScope) (offset : Nat) : Decidable (w.Hits a offset) :=
  inferInstanceAs (Decidable (_ ∧ _ ∧ _))

/-- A heap, the scopes made on it and the writes tried through them, the latest first. -/
structure Forest where
  heap : Heap
  scopes : List DynamicScope := []
  writes : List SlotWrite := []

namespace Forest

/-- The value last written to a slot of a scope, or nil. -/
def latest (f : Forest) (a : DynamicScope) (offset : Nat) : Value :=
  ((f.writes.find? fun w => w.Hits a offset).map SlotWrite.value).getD .nil

def make (f : Forest) (layout : StaticScope) (parent? : Option DynamicScope) : Forest :=
  { f with
    heap := (f.heap.newScope layout parent?).2
    scopes := (f.heap.newScope layout parent?).1 :: f.scopes }

/-- Tries a write. One that is refused is recorded as such. -/
def write (f : Forest) (s : DynamicScope) (depth offset : Nat) (v : Value) : Forest :=
  match f.heap.writeLocal s depth offset v with
  | .ok heap => { f with heap, writes := ⟨s, depth, offset, v, true⟩ :: f.writes }
  | .error _ => { f with writes := ⟨s, depth, offset, v, false⟩ :: f.writes }

/-- The forests that come about on a heap, however its use is interleaved with other things. -/
inductive Grown (base : Heap) : Forest → Prop
  | bare : Grown base { heap := base }
  | make {f : Forest} (h : Grown base f) (layout : StaticScope) {parent? : Option DynamicScope}
    (hp : ∀ p, parent? = some p → p ∈ f.scopes) : Grown base (f.make layout parent?)
  | write {f : Forest} (h : Grown base f) {s : DynamicScope} (hs : s ∈ f.scopes)
    (depth offset : Nat) (v : Value) : Grown base (f.write s depth offset v)
  | meanwhile {f : Forest} (h : Grown base f) {k : Heap}
    (hnext : f.heap.next.scopes ≤ k.next.scopes)
    (hslots : ∀ s ∈ f.scopes, k.slotsOf s.cell = f.heap.slotsOf s.cell) :
    Grown base { f with heap := k }

theorem latest_cons (f : Forest) (heap : Heap) (scopes : List DynamicScope) (w : SlotWrite)
    (a : DynamicScope) (offset : Nat) : latest ⟨heap, scopes, w :: f.writes⟩ a offset =
      if w.Hits a offset then w.value else f.latest a offset := by
  rw [latest, List.find?_cons]
  by_cases hhit : w.Hits a offset
  · rw [if_pos hhit, decide_eq_true hhit]; rfl
  · rw [if_neg hhit, decide_eq_false hhit]; rfl

/-! ### What is in the slots -/

/-- Each scope has a number of its own, and its slots hold what was last written to them. -/
structure Sound (f : Forest) : Prop where
  ids : (f.scopes.map DynamicScope.id).Nodup
  below : ∀ s ∈ f.scopes, s.id < f.heap.next.scopes
  closed : ∀ s ∈ f.scopes, ∀ p, s.parent? = some p → p ∈ f.scopes
  writers : ∀ w ∈ f.writes, w.scope ∈ f.scopes
  slots : ∀ s ∈ f.scopes, f.heap.slotsOf s.cell = (List.range s.localCount).map (f.latest s)

namespace Sound

variable {f : Forest} {s a : DynamicScope} {depth offset : Nat}

theorem ancestor_mem (h : f.Sound) :
    ∀ {depth : Nat} {s : DynamicScope}, s ∈ f.scopes → s.ancestor? depth = some a → a ∈ f.scopes
  | 0, s, hs, ha => by cases ha; exact hs
  | depth + 1, s, hs, ha => by
    obtain ⟨p, hp, ha⟩ := Option.bind_eq_some_iff.1 ha
    exact ancestor_mem h (h.closed s hs p hp) ha

theorem eq_of_id (h : f.Sound) (hs : s ∈ f.scopes) (ha : a ∈ f.scopes) (hid : s.id = a.id) :
    s = a :=
  List.inj_on_of_nodup_map h.ids hs ha hid

/-- Before a scope is made, no write has reached it. -/
theorem latest_of_not_mem (h : f.Sound) (ha : a ∉ f.scopes) : f.latest a offset = .nil := by
  have hnone : f.writes.find? (fun w => w.Hits a offset) = none :=
    List.find?_eq_none.2 fun w hw hhit =>
      ha (h.ancestor_mem (h.writers w hw) (of_decide_eq_true hhit).2.1)
  rw [latest, hnone]
  rfl

/-- A slot that is there holds the latest write to it. -/
theorem getElem?_slotsOf (h : f.Sound) (hs : s ∈ f.scopes) (offset : Nat) :
    (f.heap.slotsOf s.cell)[offset]? =
      if offset < s.localCount then some (f.latest s offset) else none := by
  rw [h.slots s hs, List.getElem?_map]
  split
  · next ho => rw [List.getElem?_range ho]; rfl
  · next ho => rw [List.getElem?_eq_none (by simpa using ho)]; rfl

theorem length_slotsOf (h : f.Sound) (hs : s ∈ f.scopes) :
    (f.heap.slotsOf s.cell).length = s.localCount := by
  rw [h.slots s hs, List.length_map, List.length_range]

/-! ### Reads and writes -/

/-- A write that reaches a local sets the slot in the scope that it belongs to. -/
theorem writeLocal_eq (h : f.Sound) (hs : s ∈ f.scopes) (ha : s.ancestor? depth = some a)
    (ho : offset < a.localCount) (v : Value) :
    f.heap.writeLocal s depth offset v =
      .ok { f.heap with
        slots := f.heap.slots.insert a.cell.id ((f.heap.slotsOf a.cell).set offset v) } := by
  refine (Heap.writeLocal_eq_ok_iff ..).2 ⟨a.cell, ?_, ?_, rfl⟩
  · rw [DynamicScope.cell?_eq_ancestor?, ha]; rfl
  · rwa [h.length_slotsOf (h.ancestor_mem hs ha)]

theorem writeLocal_lacking (h : f.Sound) (hs : s ∈ f.scopes) (hlacks : s.Lacks depth offset)
    (v : Value) :
    f.heap.writeLocal s depth offset v = .error (.internal (.noSlot depth offset)) := by
  rcases hlacks with ha | ⟨a, ha, ho⟩
  · simp only [Heap.writeLocal, DynamicScope.cell?_eq_ancestor?, ha, Option.map_none]
  · simp only [Heap.writeLocal, DynamicScope.cell?_eq_ancestor?, ha, Option.map_some,
      h.length_slotsOf (h.ancestor_mem hs ha), Nat.not_lt.2 ho, if_false]

theorem readLocal_eq (h : f.Sound) (hs : s ∈ f.scopes) (ha : s.ancestor? depth = some a)
    (ho : offset < a.localCount) : f.heap.readLocal s depth offset = .ok (f.latest a offset) := by
  refine (Heap.readLocal_eq_ok_iff ..).2 ⟨a.cell, ?_, ?_⟩
  · rw [DynamicScope.cell?_eq_ancestor?, ha]; rfl
  · rw [h.getElem?_slotsOf (h.ancestor_mem hs ha), if_pos ho]

theorem readLocal_lacking (h : f.Sound) (hs : s ∈ f.scopes) (hlacks : s.Lacks depth offset) :
    f.heap.readLocal s depth offset = .error (.internal (.noSlot depth offset)) := by
  rcases hlacks with ha | ⟨a, ha, ho⟩
  · simp only [Heap.readLocal, DynamicScope.cell?_eq_ancestor?, ha, Option.map_none,
      Option.bind_none]
  · simp only [Heap.readLocal, DynamicScope.cell?_eq_ancestor?, ha, Option.map_some,
      Option.bind_some, h.getElem?_slotsOf (h.ancestor_mem hs ha), Nat.not_lt.2 ho, if_false]

/-- A write that is refused leaves the heap as it was. -/
theorem write_lacking (h : f.Sound) (hs : s ∈ f.scopes) (hlacks : s.Lacks depth offset)
    (v : Value) : f.write s depth offset v =
      { f with writes := ⟨s, depth, offset, v, false⟩ :: f.writes } := by
  simp only [Forest.write, h.writeLocal_lacking hs hlacks]

theorem write_eq (h : f.Sound) (hs : s ∈ f.scopes) (ha : s.ancestor? depth = some a)
    (ho : offset < a.localCount) (v : Value) : f.write s depth offset v =
      { f with
        heap := { f.heap with
          slots := f.heap.slots.insert a.cell.id ((f.heap.slotsOf a.cell).set offset v) }
        writes := ⟨s, depth, offset, v, true⟩ :: f.writes } := by
  simp only [Forest.write, h.writeLocal_eq hs ha ho]

theorem readLocal_fails_iff (h : f.Sound) (hs : s ∈ f.scopes) :
    (∃ e, f.heap.readLocal s depth offset = .error e) ↔ s.Lacks depth offset := by
  refine ⟨fun ⟨e, he⟩ => (s.lacks_or depth offset).resolve_right ?_,
    fun hlacks => ⟨_, h.readLocal_lacking hs hlacks⟩⟩
  rintro ⟨a, ha, ho⟩
  rw [h.readLocal_eq hs ha ho] at he
  cases he

theorem writeLocal_fails_iff (h : f.Sound) (hs : s ∈ f.scopes) (v : Value) :
    (∃ e, f.heap.writeLocal s depth offset v = .error e) ↔ s.Lacks depth offset := by
  refine ⟨fun ⟨e, he⟩ => (s.lacks_or depth offset).resolve_right ?_,
    fun hlacks => ⟨_, h.writeLocal_lacking hs hlacks v⟩⟩
  rintro ⟨a, ha, ho⟩
  rw [h.writeLocal_eq hs ha ho] at he
  cases he

/-- Code that stores to a local that is not there fails, and leaves its site as it was. -/
theorem store_lacking (h : f.Sound) (hs : s ∈ f.scopes) (hlacks : s.Lacks depth offset) (v : Value)
    {t : Site} {level : Nat} (ht : t.heap = f.heap)
    (hlocate : t.activation.footing.locate? level = some (s, depth)) (name : String) :
    Exec.store (.lexical name level offset) v t =
      .error (.internal (.noSlot depth offset)) t := by
  have hstore : t.store (.lexical name level offset) v =
      .error (.internal (.noSlot depth offset)) := by
    simp only [Site.store, hlocate, ht, h.writeLocal_lacking hs hlacks]
    rfl
  rw [Exec.store_apply, hstore]

/-! ### Growth -/

theorem make (h : f.Sound) (layout : StaticScope) {parent? : Option DynamicScope}
    (hp : ∀ p, parent? = some p → p ∈ f.scopes) : (f.make layout parent?).Sound := by
  have hfresh : ∀ s ∈ f.scopes, (f.heap.newScope layout parent?).1.id ≠ s.id := fun s hs heq =>
    Nat.lt_irrefl _ (Nat.lt_of_le_of_lt (Nat.le_of_eq heq) (h.below s hs))
  refine ⟨?_, ?_, ?_, fun w hw => List.mem_cons_of_mem _ (h.writers w hw), ?_⟩
  · refine List.nodup_cons.2 ⟨fun hmem => ?_, h.ids⟩
    obtain ⟨s, hs, hid⟩ := List.mem_map.1 hmem
    exact hfresh s hs hid.symm
  · rintro s (_ | ⟨_, hs⟩)
    · exact Nat.lt_succ_self _
    · exact Nat.lt_succ_of_lt (h.below s hs)
  · rintro s (_ | ⟨_, hs⟩) p hparent
    · exact List.mem_cons_of_mem _ (hp p ((DynamicScope.parent?_nest _ _).symm.trans hparent))
    · exact List.mem_cons_of_mem _ (h.closed s hs p hparent)
  · rintro s (_ | ⟨_, hs⟩)
    · have hnew : (f.heap.newScope layout parent?).1 ∉ f.scopes := fun hmem => hfresh _ hmem rfl
      have hnil : (f.make layout parent?).latest (f.heap.newScope layout parent?).1 =
          fun _ => .nil := funext fun _ => h.latest_of_not_mem hnew
      rw [hnil, List.map_const', List.length_range]
      exact Heap.slotsOf_newScope_self ..
    · show (f.heap.newScope layout parent?).2.slotsOf s.cell = _
      exact ((Heap.slotsOf_newScope ..).trans (if_neg (hfresh s hs))).trans (h.slots s hs)

theorem write (h : f.Sound) (hs : s ∈ f.scopes) (depth offset : Nat) (v : Value) :
    (f.write s depth offset v).Sound := by
  rcases s.lacks_or depth offset with hlacks | ⟨a, ha, ho⟩
  · -- a write that was refused hits no slot
    rw [h.write_lacking hs hlacks]
    refine { h with writers := List.forall_mem_cons.2 ⟨hs, h.writers⟩, slots := fun b hb => ?_ }
    refine (h.slots b hb).trans (congrArg (List.map · _) (funext fun o => ?_))
    rw [latest_cons, if_neg fun hhit => Bool.false_ne_true hhit.1]
  · rw [h.write_eq hs ha ho]
    refine { h with writers := List.forall_mem_cons.2 ⟨hs, h.writers⟩, slots := fun b hb => ?_ }
    have hamem := h.ancestor_mem hs ha
    have hhits : ∀ o, SlotWrite.Hits ⟨s, depth, offset, v, true⟩ b o ↔ a = b ∧ offset = o :=
      fun o => by simp only [SlotWrite.Hits, ha, Option.some.injEq, true_and]
    refine (Heap.slotsOf_insert ..).trans ?_
    -- the heap keeps slots under the numbers of scopes, the writes name the scopes themselves
    by_cases hid : a.cell.id = b.cell.id
    · obtain rfl := h.eq_of_id hamem hb hid
      rw [if_pos rfl, h.slots a hamem]
      refine List.ext_getElem (by simp) fun o _ _ => ?_
      simp [List.getElem_set, latest_cons, hhits]
    · have hab : a ≠ b := fun hab => hid (congrArg (fun x => x.cell.id) hab)
      rw [if_neg hid, h.slots b hb]
      refine congrArg (List.map · _) (funext fun o => ?_)
      rw [latest_cons, if_neg fun hhit => hab ((hhits o).1 hhit).1]

theorem meanwhile (h : f.Sound) {k : Heap} (hnext : f.heap.next.scopes ≤ k.next.scopes)
    (hslots : ∀ s ∈ f.scopes, k.slotsOf s.cell = f.heap.slotsOf s.cell) :
    Sound { f with heap := k } :=
  { h with
    below := fun s hs => Nat.lt_of_lt_of_le (h.below s hs) hnext
    slots := fun s hs => (hslots s hs).trans (h.slots s hs) }

end Sound

theorem Grown.sound {base : Heap} {f : Forest} (h : Grown base f) : f.Sound := by
  induction h with
  | bare => exact ⟨List.nodup_nil, nofun, nofun, nofun, nofun⟩
  | make _ layout hp ih => exact ih.make layout hp
  | write _ hs depth offset v ih => exact ih.write hs depth offset v
  | meanwhile _ hnext hslots ih => exact ih.meanwhile hnext hslots

end Forest

/--
The scopes of a forest, each known by its number, are one memory. A local reads as the value last
written to its slot, through whichever scope and at whichever depth the slot was reached. Reading
and writing fail just where there is no such scope or no such local, and a write that fails changes
nothing, neither for the forest nor at the site of code that stores through one of its scopes.
-/
theorem locals_are_one_memory {base : Heap} {f : Forest} (hf : f.Grown base) :
    (f.scopes.map DynamicScope.id).Nodup ∧
    ∀ s ∈ f.scopes, ∀ depth offset : Nat,
      (∀ a, s.ancestor? depth = some a → a ∈ f.scopes ∧ (offset < a.localCount →
        f.heap.readLocal s depth offset = .ok (f.latest a offset))) ∧
      ((∃ e, f.heap.readLocal s depth offset = .error e) ↔ s.Lacks depth offset) ∧
      ∀ v, ((∃ e, f.heap.writeLocal s depth offset v = .error e) ↔ s.Lacks depth offset) ∧
        (s.Lacks depth offset → (f.write s depth offset v).heap = f.heap ∧
          ∀ (t : Site) (name : String) (level : Nat), t.heap = f.heap →
            t.activation.footing.locate? level = some (s, depth) →
            Exec.store (.lexical name level offset) v t =
              .error (.internal (.noSlot depth offset)) t) := by
  have hsound := hf.sound
  refine ⟨hsound.ids, fun s hs depth offset => ⟨fun a ha => ?_, hsound.readLocal_fails_iff hs,
    fun v => ⟨hsound.writeLocal_fails_iff hs v, fun hlacks => ?_⟩⟩⟩
  · exact ⟨hsound.ancestor_mem hs ha, hsound.readLocal_eq hs ha⟩
  · refine ⟨by rw [hsound.write_lacking hs hlacks], fun t name level ht hlocate => ?_⟩
    exact hsound.store_lacking hs hlacks v ht hlocate name

/-- The scope of a method. -/
def methodScope : DynamicScope := ⟨⟨0, ⟨⟨0, .method, ["a", "b"]⟩, []⟩⟩, []⟩

/-- The scopes of two runs of one block in the method. -/
def blockScope (id : Nat) : DynamicScope :=
  .nest ⟨id, ⟨⟨1, .closure, ["x"]⟩, methodScope.cell.layout.levels⟩⟩ (some methodScope)

def familyForest : Forest :=
  (({ heap := .initial : Forest }.make methodScope.cell.layout none).make
    (blockScope 1).cell.layout (some methodScope)).make
    (blockScope 2).cell.layout (some methodScope)

theorem familyForest_grown : familyForest.Grown .initial := by
  unfold familyForest
  refine .make (.make (.make .bare _ ?_) _ ?_) _ ?_ <;> rintro p ⟨⟩
  · decide +kernel
  · decide +kernel

/-- A local of the method is set by the method, then by a block; a third try fails. -/
def sharingForest : Forest :=
  ((familyForest.write methodScope 0 1 (.fixnum 5)).write (blockScope 1) 1 1 (.fixnum 7)).write
    (blockScope 2) 2 1 (.fixnum 8)

theorem sharingForest_grown : sharingForest.Grown .initial := by
  unfold sharingForest
  refine .write (.write (.write familyForest_grown ?_ _ _ _) ?_ _ _ _) ?_ _ _ _
  · decide +kernel
  · decide +kernel
  · decide +kernel

theorem locals_are_one_memory_sharingForest :
    sharingForest.Grown .initial ∧
      sharingForest.heap.readLocal (blockScope 2) 1 1 = .ok (.fixnum 7) ∧
      ∃ e, sharingForest.heap.readLocal (blockScope 2) 2 1 = .error e := by
  have hmem : blockScope 2 ∈ sharingForest.scopes := by decide +kernel
  have hlocals := (locals_are_one_memory sharingForest_grown).2 _ hmem
  exact ⟨sharingForest_grown, ((hlocals 1 1).1 methodScope rfl).2 (by decide),
    (hlocals 2 1).2.1.2 (.inl rfl)⟩

end ObjectIr
