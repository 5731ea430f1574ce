import ObjectIr.Proofs.DefinitionSteps
import ObjectIr.Proofs.Population.Chronicles
import ObjectIr.Proofs.ScopeModules

/-!
# Tables of modules that are yet to be made

A module that is made is put nowhere but in front of what was there: no constant stands and no body
is bound under a number that has not been given out (`Heap.Allotted`). Only definitions and
assignments of constants write there, and they write to modules that were read at their site. So
each state of a chronicle is like this (`Chronicle.allotted`), and a new module starts out empty.
-/

namespace ObjectIr

open Relation (ReflTransGen)

/-- Constants and bodies belong to modules that were made. -/
structure Heap.Allotted (h : Heap) : Prop where
  constants : ∀ m name v, h.constant? m name = some v → m.id < h.next.modules
  bodies : ∀ m b, h.body? m = some b → m.id < h.next.modules

theorem Census.Grows.length_le {c c' : Census} (h : c.Grows c') :
    c.modules.length ≤ c'.modules.length := by
  by_contra hlt
  -- the module of the number that the larger census would have to spare
  obtain ⟨m, hm⟩ : ∃ m, c.modules[c'.modules.length]? = some m :=
    ⟨_, List.getElem?_eq_getElem (by omega)⟩
  have hid := c.module_id _ m hm
  have hin := Census.id_lt (h.modules m (List.mem_of_getElem? hm))
  omega

variable {c : Census}

namespace Heap.Allotted

variable {h k : Heap} (hh : h.Allotted)

include hh

/-- Writes that leave constants and bodies, and take no number back. -/
theorem of_eq (hmodules : h.next.modules ≤ k.next.modules)
    (hconstants : ∀ m name, k.constant? m name = h.constant? m name)
    (hbodies : ∀ m, k.body? m = h.body? m) : k.Allotted where
  constants m name v hv := by
    rw [hconstants] at hv
    exact Nat.lt_of_lt_of_le (hh.constants m name v hv) hmodules
  bodies m b hb := by
    rw [hbodies] at hb
    exact Nat.lt_of_lt_of_le (hh.bodies m b hb) hmodules

theorem setConstant {m : Module} (hm : m.id < h.next.modules) (name : String) (v : Value) :
    (h.setConstant m name v).Allotted where
  constants n b x hx := by
    rw [constant?_setConstant] at hx
    split at hx
    · next hn => exact hn.1 ▸ hm
    · exact hh.constants n b x hx
  bodies n b hb := by
    rw [body?_setConstant] at hb
    exact hh.bodies n b hb

theorem addMethod (m : Module) (name : String) (x : Method) : (h.addMethod m name x).Allotted :=
  hh.of_eq (Nat.le_refl _) (fun n b => constant?_addMethod h m n name b x) fun n => by
    simp only [body?, Heap.addMethod, table_setTable]
    split
    · next hid => rw [table_congr h m n hid]
    · rfl

theorem singletonClass {v : Value} {s : Module} (hk : h.singletonClass v = .ok (s, k)) :
    k.Allotted := by
  cases hv : v.owner? with
  | none => rw [h.singletonClass_of_none hv] at hk; cases hk
  | some o =>
    rw [h.singletonClass_of_owner hv] at hk
    cases hslot : h.slot? o with
    | some t => rw [hslot] at hk; cases hk; exact hh
    | none =>
      rw [hslot] at hk
      cases hk
      refine hh.of_eq ?_ (fun n name => ?_) fun n => ?_
      · rw [withSingleton, next_setSingleton]
        exact Nat.le_succ _
      · rw [withSingleton, constant?_setSingleton]
        rfl
      · rw [withSingleton, body?_setSingleton]
        rfl

theorem dispatch {context : Context} {v : Value} {name : String} {args : List Value}
    {block? : Option Block} {type : CallType} {q : Reply}
    (hk : h.dispatch context v name args block? type = .ok (q, k)) : k.Allotted := by
  rcases dispatch_calls hk with rfl | ⟨m, rfl⟩ | ⟨s, hs⟩
  · exact hh
  · exact hh.of_eq (Nat.le_refl _) (fun _ _ => rfl) fun _ => rfl
  · exact hh.singletonClass hs

/-- A definition writes to its container and to the module it answers, and both were made. -/
theorem define (hc : h.Recorded c) {body : Body} {container : Value} {superclass? : Option Value}
    {x : Method} (hcontainer : container.Among c.population)
    (hsuper : ∀ v, superclass? = some v → v.Among c.population)
    (hk : h.define body container superclass? = .ok (x, k)) : k.Allotted := by
  obtain ⟨c', hgrows, hx, hk'⟩ := hc.define hcontainer hsuper hk
  obtain ⟨d, rfl, -, -, hdefines⟩ := define_eq_ok hk
  have hle : h.next.modules ≤ k.next.modules := by
    rw [hc.modules, hk'.modules]
    exact hgrows.length_le
  refine ⟨fun m name v hv => ?_, fun m b hb => ?_⟩
  · rw [hdefines.constants] at hv
    split at hv
    · next hd =>
      have hd' : d ∈ c.modules := Module.Among.self hcontainer
      rw [← hd.2.1, hk'.modules]
      exact Census.id_lt (hgrows.modules d hd')
    · exact Nat.lt_of_lt_of_le (hh.constants m name v hv) hle
  · rw [hdefines.bodies] at hb
    split at hb
    · next hm => exact hm ▸ hk'.modules ▸ Census.id_lt hx
    · exact Nat.lt_of_lt_of_le (hh.bodies m b hb) hle

end Heap.Allotted

/-! ### Instructions -/

theorem Site.store_allotted {s t : Site} {r : Variable} {v : Value} (hs : s.heap.Allotted)
    (ht : s.store r v = .ok t) : t.heap.Allotted := by
  obtain ⟨slots, ts, rfl⟩ := Site.store_eq_ok ht
  exact hs.of_eq (Nat.le_refl _) (fun _ _ => rfl) fun _ => rfl

theorem Site.newBlock_allotted {s : Site} (hs : s.heap.Allotted) (body : Body) (f : Frame) :
    (s.newBlock body f).2.heap.Allotted := by
  have hcaptured : s.captureScope.2.heap.Allotted := by
    rcases s.captureScope_cases with h | ⟨parent, -, -, h⟩ <;> rw [h]
    · exact hs
    · exact hs.of_eq (Nat.le_refl _) (fun _ _ => rfl) fun _ => rfl
  exact hcaptured.of_eq (Nat.le_refl _) (fun _ _ => rfl) fun _ => rfl

namespace Census

/-- To name only modules that were made, at a site that the census records. -/
def allots (c : Census) : Invariant where
  site s := s.Recorded c ∧ s.heap.Allotted
  value := Value.Among c.population
  frame := Frame.Among c.population
  outcome _ t := t.heap.Allotted
  failure _ t := t.heap.Allotted

theorem allots_reads (c : Census) : c.allots.Reads where
  supply n hs := ⟨c.invariant_reads.supply n hs.1,
    hs.2.of_eq (Nat.le_refl _) (fun _ _ => rfl) fun _ => rfl⟩
  quiet hs _ := hs.2
  atomic := c.invariant_reads.atomic
  array := c.invariant_reads.array
  load hs := c.invariant_reads.load hs.1
  receiver hs := c.invariant_reads.receiver hs.1
  argument hs := c.invariant_reads.argument hs.1
  scopeModule hs := c.invariant_reads.scopeModule hs.1
  frame hs := c.invariant_reads.frame hs.1
  block := c.invariant_reads.block
  constant scope m name hs := c.invariant_reads.constant scope m name hs.1

theorem allots_lawful (c : Census) (i : Instr) : c.allots.Lawful i where
  toReads := c.allots_reads
  next hs := hs.2
  complete hs _ := hs.2
  returns _ hs _ := hs.2
  raise _ _ hs _ := hs.2
  store _ hs _ ht := Site.store_allotted hs.2 ht
  goTo _ hs _ := hs.2
  dispatch {s k} := fun _ hs _ _ _ hk => by
    have hcalled : Heap.Allotted k := hs.2.dispatch hk
    exact Invariant.ends_await (fun _ _ => hcalled)
      (fun _ _ _ ht => Site.store_allotted (s := { s with heap := k }) hcalled ht)
      fun _ _ => hcalled
  define {s k} := fun _ hs hv hx hk => by
    have hdefined : Heap.Allotted k := hs.2.define hs.1.heap hv hx hk
    exact Invariant.ends_store (fun _ _ => hdefined) fun _ ht =>
      Site.store_allotted (s := { s with heap := k }) hdefined ht
  defineMethod _ hs _ := by
    refine Heap.Allotted.addMethod ?_ _ _ _
    exact hs.2.of_eq (Nat.le_refl _) (fun _ _ => rfl) fun _ => rfl
  setVisibility _ hs _ := hs.2
  putConst _ hs hm _ :=
    hs.2.setConstant (hs.1.heap.modules ▸ Census.id_lt (Module.Among.self hm)) _ _
  yield _ hs _ _ := hs.2
  processModuleBody _ hs _ _ := hs.2

end Census

/-- An instruction names only modules that were made. -/
theorem execute_allots (i : Instr) {s : Site} (hs : s.Recorded c) (hh : s.heap.Allotted) :
    c.allots.Ends (i.execute s) :=
  (c.allots_lawful i).execute ⟨hs, hh⟩ fun _ body f _ hf =>
    have hmade := hs.newBlock body (hs.among.frame hf)
    ⟨hmade.1, hmade.2, s.newBlock_allotted hh body f⟩

/-! ### States of a chronicle -/

theorem enter_allotted {limit : Nat} {h : Heap} (hh : h.Allotted) {x : Context} {i : Invocation}
    {s : Site} (hs : enter limit h x i = .ok s) : s.heap.Allotted := by
  rw [enter_eq_ok hs]
  rcases i.settleIn_cases h (x.withFrame i.frame) with
    ⟨-, -, hset⟩ | ⟨-, parent, -, ⟨-, hset⟩ | ⟨-, hset⟩⟩ | ⟨-, -, -, hset⟩ <;> rw [hset]
  · exact hh.of_eq (Nat.le_refl _) (fun _ _ => rfl) fun _ => rfl
  all_goals exact hh

namespace Machine

theorem resume_allotted {h : Heap} (hh : h.Allotted) (x : Context) (r : Except Unwind Value)
    (cs : List Caller) : (resume h x r cs).heap.Allotted := by
  cases cs with
  | nil => exact hh
  | cons caller cs =>
    cases r with
    | error u => exact hh
    | ok v =>
      simp only [resume]
      cases ht : Site.store ⟨h, x, caller.activation⟩ caller.result v with
      | error f => exact hh
      | ok t => exact Site.store_allotted (s := ⟨h, x, caller.activation⟩) hh ht

theorem step_allotted (limit : Nat) {m : Machine} (hm : m.Recorded c) (hh : m.heap.Allotted) :
    (m.step limit).heap.Allotted := by
  cases hnext : m.next? with
  | some p =>
    obtain ⟨i, s⟩ := p
    have hs : s.Recorded c ∧ s.heap.Allotted := by
      obtain ⟨a, ha, -, rfl⟩ := next?_eq_some hnext
      have hcontrol := hm.control
      rw [ha] at hcontrol
      have hactivation : a.Among c.population := hcontrol
      exact ⟨⟨hm.heap, hm.context, { hactivation with }⟩, hh⟩
    have hafter := execute_allots i hs.1 hs.2
    rw [step_of_next hnext]
    cases he : i.execute s with
    | error f t =>
      rw [he] at hafter
      exact hafter
    | ok o t =>
      rw [he] at hafter
      cases o with
      | call r inv =>
        simp only [follow]
        cases hcallee : enter limit t.heap t.context inv with
        | ok callee => exact enter_allotted hafter hcallee
        | error f => exact hafter
      | _ => exact hafter
  | none =>
    obtain ⟨heap, context, control, callers⟩ := m
    cases control with
    | finished r => exact hh
    | leaving a r => exact resume_allotted hh _ _ _
    | running a =>
      have hcode : a.body.code[a.pc]? = none := Option.map_eq_none_iff.1 hnext
      simp only [step, hcode]
      exact hh

end Machine

theorem Entry.start_allotted (limit : Nat) {h : Heap} (hh : h.Allotted) (x : Context) (e : Entry) :
    (e.start limit h x).heap.Allotted := by
  have hreply : ∀ q k, e.reply h x = .ok (q, k) → k.Allotted := by
    intro q k hq
    cases e with
    | send receiver name args => exact hh.dispatch hq
    | method m receiver name args block? =>
      rw [reply] at hq
      cases hi : m.invocation x receiver name args block? with
      | error f => rw [hi] at hq; cases hq
      | ok i => rw [hi] at hq; cases hq; exact hh
    | _ => cases hq; exact hh
  rw [start_eq]
  rcases hr : e.reply h x with f | ⟨v | i, k⟩
  · exact hh
  · exact hreply _ k hr
  · simp only [Machine.awaiting, Machine.start]
    cases hs : enter limit k x i with
    | error f => exact hreply _ k hr
    | ok s => exact enter_allotted (hreply _ k hr) hs

theorem Heap.initial_allotted : Heap.initial.Allotted := by
  have hempty : Heap.Allotted
      { next := { modules := Core.all.length, objects := Core.mainObject.id + 1 } } := by
    refine ⟨fun m name v hv => ?_, fun m b hb => ?_⟩
    · simp [Heap.constant?, Heap.table] at hv
    · simp [Heap.body?, Heap.table] at hb
  have hfold : ∀ (ms : List Module) (h : Heap), h.Allotted → Core.object.id < h.next.modules →
      (ms.foldl (fun h m => h.setConstant Core.object m.name (.module m)) h).Allotted := by
    intro ms
    induction ms with
    | nil => exact fun h hh _ => hh
    | cons m ms ih => exact fun h hh hid => ih _ (hh.setConstant hid _ _) hid
  exact hfold Core.all _ hempty (by decide)

theorem Chronicle.allotted {es : List Entry} {m : Machine} {ms : List Machine}
    (h : Chronicle AtHand es (m :: ms)) : m.heap.Allotted := by
  generalize hall : m :: ms = all at h
  induction h generalizing m ms with
  | start =>
    cases hall
    exact Heap.initial_allotted
  | step limit hbefore ih =>
    cases hall
    obtain ⟨c, -, m', earlier, heq, hm⟩ := hbefore.recorded
    cases heq
    exact Machine.step_allotted limit hm (ih rfl)
  | enter limit _ _ ih =>
    cases hall
    exact Entry.start_allotted limit (ih rfl) _ _

end ObjectIr
