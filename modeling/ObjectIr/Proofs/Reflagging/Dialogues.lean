import ObjectIr.Proofs.Entries
import ObjectIr.Proofs.Reflagging.Machines

/-!
# Answers under other scope flags

A client runs scripts and sends messages, one after another, and what it asks for may depend on the
answers that it got (`Client`). Two clients are twins when they ask for the same, but for the flags
of bodies to go without a scope (`Client.Twin`). Then they get the same answers, whatever the flags,
as long as the run with the flags finds bodies housed (`scope_flags_change_no_answer`): a closure
with a body around is not made where there is no scope at all, and the body of a module is processed
by an activation that holds it and has a scope of its own, if it is not free.
-/

namespace ObjectIr

/-- The heap, the context and the answers that a client has by now. -/
structure Dialogue where
  heap : Heap := .initial
  context : Context := {}
  answers : List (Except Failure Value) := []

/-- What a client asks for next, once it has these answers; none when it is done. -/
abbrev Client := List (Except Failure Value) → Option Entry

namespace Client

variable (limit fuel : Nat) (client : Client)

/-- One more answer, unless the client is done. -/
def turn (d : Dialogue) : Option Dialogue :=
  match client d.answers with
  | none => some d
  | some e => ((e.start limit d.heap d.context).run limit fuel).map fun r =>
      ⟨r.heap, r.context, d.answers ++ [r.outcome]⟩

/-- The dialogue after a number of turns; none when the fuel does not suffice for one of them. -/
def dialogue : Nat → Option Dialogue
  | 0 => some {}
  | n + 1 => (dialogue n).bind (client.turn limit fuel)

/-- The machine that works on the entry after a number of turns. -/
def machine? (n : Nat) : Option Machine :=
  (client.dialogue limit fuel n).bind fun d =>
    (client d.answers).map fun e => e.start limit d.heap d.context

/-- Wherever the client leads, bodies that need others around have them around. -/
def Houses : Prop :=
  ∀ n m, client.machine? limit fuel n = some m →
    ∀ k i s, (m.after limit k).next? = some (i, s) → s.Houses i

end Client

/-! ### Twins -/

inductive Entry.Twin (w : World) : Entry → Entry → Prop
  | script {b b' : Body} (hb : b.Reflagged b') (free : b'.Confined []) :
    Twin w (.script b) (.script b')
  | send {v v' : Value} (hv : v.Twin w v') (name : String) {args args' : List Value}
    (ha : List.Forall₂ (Value.Twin w) args args') : Twin w (.send v name args) (.send v' name args')

abbrev World.Answers (w : World) (rs rs' : List (Except Failure Value)) : Prop :=
  List.Forall₂ (Jointly (Failure.Twin w) (Value.Twin w)) rs rs'

/-- Clients that ask for twins when their answers are twins, in whatever world. -/
def Client.Twin (client client' : Client) : Prop :=
  ∀ w rs rs', w.Answers rs rs' → Option.Rel (Entry.Twin w) (client rs) (client' rs')

structure Dialogue.Twin (w : World) (d d' : Dialogue) : Prop where
  heap : d.heap.Twin w d'.heap
  context : d.context.Twin w d'.context
  answers : w.Answers d.answers d'.answers
  idle : d.context.scopes = []
  idle' : d'.context.scopes = []
  world : w.Bears [] d.heap d'.heap

def Dialogue.texts (d : Dialogue) : List (Except String String) :=
  d.answers.map fun r => (r.map Value.text).mapError Failure.text

variable {w w' : World}

theorem World.Answers.mono (hw : w.Grows w') {rs rs' : List (Except Failure Value)}
    (h : w.Answers rs rs') : w'.Answers rs rs' :=
  h.imp fun _ _ hr => hr.mono (fun _ _ hf => hf.mono hw) fun _ _ hv => hv.mono hw

/-- Twins have the same answers, as far as their texts tell. -/
theorem Dialogue.Twin.texts_eq {d d' : Dialogue} (h : d.Twin w d') : d.texts = d'.texts := by
  have hanswers := h.answers
  rw [Dialogue.texts, Dialogue.texts]
  generalize d.answers = rs at hanswers
  generalize d'.answers = rs' at hanswers
  induction hanswers with
  | nil => rfl
  | cons hr _ ih =>
    rw [List.map_cons, List.map_cons, ih]
    cases hr with
    | ok hv => exact congrArg (Except.ok · :: _) hv.text_eq
    | error hf => exact congrArg (Except.error · :: _) hf.message_eq.2

/-! ### Entries -/

theorem Body.Reflagged.scriptInvocation {b b' : Body} (hb : b.Reflagged b')
    (free : b'.Confined []) : b.scriptInvocation.Twin w b'.scriptInvocation where
  body := hb
  frame := ⟨Value.twin_object rfl, rfl, rfl, .none, rfl⟩
  around := w.around_of_confined free _ _
  rootless := fun _ => rfl
  args := .nil
  answer? := .none

/-- What an entry comes to are twins, on heaps that are twins, with the scopes there were. -/
theorem Entry.Twin.reply {e e' : Entry} (he : e.Twin w e') {h h' : Heap} (hh : h.Twin w h')
    {c c' : Context} (hc : c.Twin w c') :
    Jointly (Failure.Twin w)
      (fun p p' => Heap.Twin.Made w (Reply.Twin w) p p' ∧ p.2.next.scopes = h.next.scopes ∧
        p'.2.next.scopes = h'.next.scopes)
      (e.reply h c) (e'.reply h' c') := by
  cases he with
  | script hb free => exact .ok ⟨⟨.invoke (hb.scriptInvocation free), hh⟩, rfl, rfl⟩
  | @send v v' hv name args args' ha =>
    rw [Entry.reply, Entry.reply]
    rcases (hh.dispatch hv name ha .none hc .normal).elim with
      ⟨f, f', hx, hy, hf⟩ | ⟨p, p', hx, hy, hp⟩ <;> rw [hx, hy]
    · exact .error hf
    · exact .ok ⟨hp, (Heap.Registers.dispatch hx).scopes, (Heap.Registers.dispatch hy).scopes⟩

/-- Machines that have come to an end, with nothing on their stacks. -/
theorem Machine.twin_finished {h h' : Heap} {c c' : Context} {r r' : Except Failure Value}
    (hh : h.Twin w h') (hc : c.Twin w c') (hidle : c.scopes = []) (hidle' : c'.scopes = [])
    (hworld : w.Bears [] h h') (hr : Jointly (Failure.Twin w) (Value.Twin w) r r') :
    Machine.Twin w [] ⟨h, c, .finished r, []⟩ ⟨h', c', .finished r', []⟩ where
  heap := hh
  context := hc
  control := .finished hr
  callers := .nil
  seats := .nil
  carries := by
    show c.scopeStack = []
    rw [Context.scopeStack, hidle, List.map_nil]
  carries' := by
    show c'.scopeStack = []
    rw [Context.scopeStack, hidle', List.map_nil]
  world := hworld

namespace Dialogue.Twin

variable {d d' : Dialogue} (hd : d.Twin w d') (limit : Nat)

include hd

theorem start {e e' : Entry} (he : e.Twin w e') : ∃ v ns, w.Grows v ∧
    (e.start limit d.heap d.context).Twin v ns (e'.start limit d'.heap d'.context) := by
  have hreply := he.reply hd.heap hd.context
  rw [e.start_eq, e'.start_eq]
  generalize e.reply d.heap d.context = x at hreply
  generalize e'.reply d'.heap d'.context = y at hreply
  have hend : ∀ {h h' : Heap} {r r' : Except Failure Value}, h.Twin w h' → w.Bears [] h h' →
      Jointly (Failure.Twin w) (Value.Twin w) r r' →
      Machine.Twin w [] ⟨h, d.context, .finished r, []⟩ ⟨h', d'.context, .finished r', []⟩ :=
    fun hh hworld hr => Machine.twin_finished hh hd.context hd.idle hd.idle' hworld hr
  cases hreply with
  | error hf => exact ⟨w, [], .refl w, hend hd.heap hd.world (.error hf)⟩
  | @ok p p' hp =>
    obtain ⟨⟨hreply, hheap⟩, hscopes, hscopes'⟩ := hp
    have hworld : w.Bears [] p.2 p'.2 := by
      refine { hd.world with within := ⟨fun m c hc => ?_, fun m c hc => ?_⟩ }
      · rw [hscopes]
        exact hd.world.within.left m c hc
      · rw [hscopes']
        exact hd.world.within.right m c hc
    obtain ⟨q, k⟩ := p
    obtain ⟨q', k'⟩ := p'
    cases hreply with
    | value hv => exact ⟨w, [], .refl w, hend hheap hworld (.ok hv)⟩
    | @invoke i i' hi =>
      have hcarries : d.context.Carries [] := by
        show d.context.scopeStack = []
        rw [Context.scopeStack, hd.idle, List.map_nil]
      have hcarries' : d'.context.Carries [] := by
        show d'.context.scopeStack = []
        rw [Context.scopeStack, hd.idle', List.map_nil]
      simp only [Machine.awaiting, Machine.start]
      have hcallers : List.Forall₂ Caller.Twin [] [] := .nil
      rcases hi.enters limit hheap hd.context hworld hcallers .nil hcarries hcarries' with
        ⟨hfull, hfull'⟩ | ⟨t, t', v, n, ht, ht', hgrows, hunder⟩
      · rw [hfull, hfull']
        exact ⟨w, [], .refl w, hend hheap hworld (.error (.plain rfl))⟩
      · rw [ht, ht']
        exact ⟨v, [n], hgrows, hunder.runningAt⟩

end Dialogue.Twin

/-! ### Turns -/

theorem Machine.Twin.result? {ns : List Nat} {m m' : Machine} (hm : m.Twin w ns m') :
    Option.Rel (fun r r' => Jointly (Failure.Twin w) (Value.Twin w) r.outcome r'.outcome ∧
        r.heap.Twin w r'.heap ∧ r.context.Twin w r'.context ∧ r.context.scopes = [] ∧
        r'.context.scopes = [] ∧ w.Bears [] r.heap r'.heap)
      m.result? m'.result? := by
  obtain ⟨hheap, hcontext, hcontrol, -, hseats, hcarries, hcarries', hworld⟩ := hm
  obtain ⟨h, c, control, cs⟩ := m
  obtain ⟨h', c', control', cs'⟩ := m'
  cases hcontrol with
  | running | leaving => exact .none
  | finished hr =>
    cases hseats
    have hidle : ∀ {c : Context}, c.Carries [] → c.scopes = [] := fun hc => List.map_eq_nil_iff.1 hc
    exact .some ⟨hr, hheap, hcontext, hidle hcarries, hidle hcarries', hworld⟩

theorem Dialogue.Twin.turn {d d' : Dialogue} (hd : d.Twin w d') {limit fuel : Nat}
    {client client' : Client} (same : client.Twin client')
    (hhouses : ∀ e, client' d'.answers = some e → ∀ k i s,
      ((e.start limit d'.heap d'.context).after limit k).next? = some (i, s) → s.Houses i) :
    Option.Rel (fun d d' => ∃ v, d.Twin v d') (client.turn limit fuel d)
      (client'.turn limit fuel d') := by
  have hentry := same w _ _ hd.answers
  rw [Client.turn, Client.turn]
  generalize client d.answers = x at hentry
  generalize client' d'.answers = y at hentry hhouses
  cases hentry with
  | none => exact .some ⟨w, hd⟩
  | @some e e' he =>
    obtain ⟨u, ns, hu, hstart⟩ := hd.start limit he
    obtain ⟨v, ms, hv, hafter⟩ := hstart.after limit fuel fun j _ => hhouses e' rfl j
    have hresult := hafter.result?
    simp only [Machine.run_eq_after]
    generalize ((e.start limit d.heap d.context).after limit fuel).result? = x at hresult
    generalize ((e'.start limit d'.heap d'.context).after limit fuel).result? = y at hresult
    cases hresult with
    | none => exact .none
    | some hr =>
      obtain ⟨houtcome, hheap, hcontext, hidle, hidle', hworld⟩ := hr
      refine .some ⟨v, hheap, hcontext, ?_, hidle, hidle', hworld⟩
      have hold := hd.answers.mono (hu.trans hv)
      exact List.rel_append hold (.cons houtcome .nil)

/-! ### Dialogues -/

/-- The world where nothing stands for any activation. -/
def World.empty : World := ⟨fun _ => none, fun _ => none⟩

theorem Heap.initial_twin : Heap.initial.Twin .empty Heap.initial := by
  have hfold : ∀ (ms : List Module) (h : Heap), h.Twin .empty h →
      (ms.foldl (fun h m => h.setConstant Core.object m.name (.module m)) h).Twin .empty
        (ms.foldl (fun h m => h.setConstant Core.object m.name (.module m)) h) := by
    intro ms
    induction ms with
    | nil => exact fun h hh => hh
    | cons m ms ih => exact fun h hh => ih _ (hh.setConstant _ _ (Value.twin_module rfl))
  refine hfold Core.all _ ⟨fun m => ⟨fun name => ?_, fun name => ?_, rfl, .none⟩, rfl, rfl, ?_, ?_⟩
  · simp [Heap.table]
  · simp [Heap.table]
  · intro n
    refine ⟨⟨⟨0, .script, []⟩, []⟩, ?_, ?_, rfl, .nil⟩ <;> rintro c ⟨⟩
  · exact ⟨_, rfl⟩

theorem Dialogue.start_twin : Dialogue.Twin .empty {} {} where
  heap := Heap.initial_twin
  context := ⟨.nil, id, rfl, rfl⟩
  answers := .nil
  idle := rfl
  idle' := rfl
  world := by
    refine ⟨⟨?_, ?_⟩, ⟨?_, ?_⟩, 0, fun _ _ => ⟨rfl, rfl⟩, by simp⟩
    · rintro n m c d ⟨⟩
    · rintro n m c d ⟨⟩
    · rintro n c ⟨⟩
    · rintro n c ⟨⟩

/--
Whether bodies go with a scope of their own is told by no answer, by no object, module, constant or
method, and by no local: two clients that ask for the same but for these flags get the same.
-/
theorem scope_flags_change_no_answer {client client' : Client} {limit fuel : Nat}
    (same : client.Twin client') (houses : client'.Houses limit fuel) (n : Nat) :
    Option.Rel (fun d d' => d.texts = d'.texts ∧ ∃ w, d.Twin w d') (client.dialogue limit fuel n)
      (client'.dialogue limit fuel n) := by
  have htwins : Option.Rel (fun d d' => ∃ w, d.Twin w d') (client.dialogue limit fuel n)
      (client'.dialogue limit fuel n) := by
    -- by the turns: the answers so far are twins, so that the clients ask for twins
    induction n with
    | zero => exact .some ⟨_, Dialogue.start_twin⟩
    | succ n ih =>
      have hat := houses n
      rw [Client.dialogue, Client.dialogue]
      rw [Client.machine?] at hat
      generalize client.dialogue limit fuel n = x at ih
      generalize client'.dialogue limit fuel n = y at ih hat
      cases ih with
      | none => exact .none
      | @some d d' hd =>
        obtain ⟨w, hd⟩ := hd
        refine hd.turn same fun e he => hat _ ?_
        simp only [Option.bind_some, he, Option.map_some]
  generalize client.dialogue limit fuel n = x at htwins
  generalize client'.dialogue limit fuel n = y at htwins
  cases htwins with
  | none => exact .none
  | some hd => exact .some ⟨hd.elim fun _ hd => hd.texts_eq, hd⟩

/-- A block that sets a local of the script that it lies in. -/
def markingBlock : Draft where
  name := "block"
  scope := ⟨⟨1, .closure, []⟩, [⟨0, .script, ["x"]⟩]⟩
  code := [.copy (.lexical "x" 1 0) (.fixnum 1), .ret (.var (.lexical "x" 1 0))]

/-- A script that yields to a block; without a scope, it makes the block where there is none. -/
def strandingScript (flags : BodyFlags) : Draft where
  name := "<main>"
  scope := ⟨⟨0, .script, ["x"]⟩, []⟩
  flags := flags
  code := [
    .buildClosure (.temp ⟨.generic, 0⟩) (markingBlock.body 1 {}),
    .yield (.temp ⟨.generic, 1⟩) (.var (.temp ⟨.generic, 0⟩)) [],
    .ret (.var (.temp ⟨.generic, 1⟩))]

def strandingAnswer (flags : BodyFlags) : Option (Except String String) :=
  let script := Entry.script ((strandingScript flags).body 0 { generic := 2 })
  ((script.start 8 .initial {}).run 8 16).map fun r =>
    (r.outcome.map Value.text).mapError Failure.text

/-- The flags do tell when a block is not housed. -/
example : strandingAnswer {} = some (.ok "1") ∧ strandingAnswer ⟨[.scopeEliminated]⟩ =
    some (.error "internal error: no local slot at depth 1 offset 0") := by
  decide +kernel

/-! ### A dialogue -/

/-- What can be told from the next instruction alone. -/
def Machine.housesNext (m : Machine) : Bool :=
  match m.next? with
  | some (.buildClosure .., s) => s.activation.footing.scope?.isSome
  | some (.processModuleBody .., _) => false
  | _ => true

theorem Machine.houses_of_housesNext {m : Machine} (hm : m.housesNext = true) {i : Instr}
    {s : Site} (hnext : m.next? = some (i, s)) : s.Houses i := by
  rw [housesNext, hnext] at hm
  refine ⟨?_, ?_⟩
  · rintro r x rfl hfooting
    have hsome : s.activation.footing.scope?.isSome = true := hm
    rw [hfooting] at hsome
    cases hsome
  · intro x hx
    cases i with
    | processModuleBody => cases hm
    | _ => cases hx

/-- Machines that have come to an end go on to nothing. -/
theorem Machine.houses_of_result {limit n : Nat} {m : Machine}
    (hend : (m.after limit n).result?.isSome = true)
    (hm : ∀ k < n, (m.after limit k).housesNext = true) (k : Nat) (i : Instr) (s : Site)
    (hnext : (m.after limit k).next? = some (i, s)) : s.Houses i := by
  by_cases hk : k < n
  · exact houses_of_housesNext (hm k hk) hnext
  · obtain ⟨j, rfl⟩ := Nat.exists_eq_add_of_le (Nat.le_of_not_lt hk)
    obtain ⟨r, hr⟩ := Option.isSome_iff_exists.1 hend
    rw [after_add, after_of_result hr] at hnext
    obtain ⟨a, ha, -⟩ := next?_eq_some hnext
    rw [(control_of_result hr).1] at ha
    cases ha

theorem Client.machine?_of_done {limit fuel : Nat} {client : Client} {d : Dialogue} {n : Nat}
    (hd : client.dialogue limit fuel n = some d) (hdone : client d.answers = none) (k : Nat) :
    client.machine? limit fuel (n + k) = none := by
  have hstays : client.dialogue limit fuel (n + k) = some d := by
    induction k with
    | zero => exact hd
    | succ k ih =>
      rw [← Nat.add_assoc, dialogue, ih, Option.bind_some, turn, hdone]
  rw [machine?, hstays, Option.bind_some, hdone, Option.map_none]

/-- A block that sets a local of the script, two levels out. -/
def settingBlock : Draft where
  name := "inner"
  scope := ⟨⟨2, .closure, []⟩, [⟨1, .closure, []⟩, ⟨0, .script, ["x"]⟩]⟩
  code := [.copy (.lexical "x" 2 0) (.fixnum 7), .ret (.var (.lexical "x" 2 0))]

def makingBlock (flags : BodyFlags) : Draft where
  name := "block"
  scope := ⟨⟨1, .closure, []⟩, [⟨0, .script, ["x"]⟩]⟩
  flags := flags
  code := [
    .buildClosure (.temp ⟨.generic, 0⟩) (settingBlock.body 2 {}),
    .ret (.var (.temp ⟨.generic, 0⟩))]

/-- A script that answers the block that its block makes. -/
def handingScript (flags : BodyFlags) : Draft where
  name := "<main>"
  scope := ⟨⟨0, .script, ["x"]⟩, []⟩
  code := [
    .buildClosure (.temp ⟨.generic, 0⟩) ((makingBlock flags).body 1 { generic := 1 }),
    .yield (.temp ⟨.generic, 1⟩) (.var (.temp ⟨.generic, 0⟩)) [],
    .ret (.var (.temp ⟨.generic, 1⟩))]

/-- A client that runs the script, and then calls what it answered. -/
def callingClient (flags : BodyFlags) : Client
  | [] => some (.script ((handingScript flags).body 0 { generic := 2 }))
  | [.ok v] => some (.send v "call" [])
  | _ => none

theorem handingScript_reflagged (flags : BodyFlags) :
    ((handingScript {}).body 0 { generic := 2 }).Reflagged
      ((handingScript flags).body 0 { generic := 2 }) := by
  have hsetting : (settingBlock.body 2 {}).Reflagged (settingBlock.body 2 {}) :=
    .intro ⟨rfl, rfl, rfl, rfl, rfl, .inl rfl⟩
      (.cons (.copy rfl (.fixnum 7)) (.cons (.ret (.var rfl)) .nil))
  have hmaking : ((makingBlock {}).body 1 { generic := 1 }).Reflagged
      ((makingBlock flags).body 1 { generic := 1 }) :=
    .intro ⟨rfl, rfl, rfl, rfl, rfl, .inl rfl⟩
      (.cons (.buildClosure rfl hsetting) (.cons (.ret (.var rfl)) .nil))
  exact .intro ⟨rfl, rfl, rfl, rfl, rfl, .inl rfl⟩
    (.cons (.buildClosure rfl hmaking) (.cons (.yield rfl (.var rfl) .nil)
      (.cons (.ret (.var rfl)) .nil)))

theorem handingScript_rooted :
    ((handingScript ⟨[.scopeEliminated]⟩).body 0 { generic := 2 }).Rooted := by
  have hnested : ((handingScript ⟨[.scopeEliminated]⟩).body 0 { generic := 2 }).nested =
      [(makingBlock ⟨[.scopeEliminated]⟩).body 1 { generic := 1 }, settingBlock.body 2 {}] := rfl
  refine ⟨fun b hb => ?_, fun b hb => ?_⟩ <;>
    simp only [hnested, List.mem_cons, List.not_mem_nil, or_false] at hb
  · rcases hb with rfl | rfl | rfl
    · exact ⟨handingScript ⟨[.scopeEliminated]⟩, 0, rfl⟩
    · exact ⟨makingBlock ⟨[.scopeEliminated]⟩, 1, rfl⟩
    · exact ⟨settingBlock, 2, rfl⟩
  · rcases hb with rfl | rfl | rfl <;> refine ⟨?_, ?_, ?_⟩
    all_goals simp [Body.Holds, Body.Makes, Body.Defines, handingScript, makingBlock, settingBlock,
      Draft.body, Body.kind, StaticScope.kind, BodyKind.isReturnTarget, StaticScope.levels]

theorem callingClient_twin : (callingClient {}).Twin (callingClient ⟨[.scopeEliminated]⟩) := by
  intro w rs rs' h
  cases h with
  | nil => exact .some (.script (handingScript_reflagged _) (handingScript_rooted.free rfl))
  | cons hr hrs =>
    cases hrs with
    | cons => cases hr <;> exact .none
    | nil =>
      cases hr with
      | ok hv => exact .some (.send hv "call" .nil)
      | error => exact .none

theorem callingClient_houses : (callingClient ⟨[.scopeEliminated]⟩).Houses 8 16 := by
  have hturns : ∀ n < 2, ((callingClient ⟨[.scopeEliminated]⟩).machine? 8 16 n).all (fun m =>
      (m.after 8 8).result?.isSome && (List.range 8).all fun k => (m.after 8 k).housesNext) =
        true := by
    decide +kernel
  have hdone : ((callingClient ⟨[.scopeEliminated]⟩).dialogue 8 16 2).any (fun d =>
      (callingClient ⟨[.scopeEliminated]⟩ d.answers).isNone) = true := by
    decide +kernel
  intro n m hm k i s hnext
  by_cases hn : n < 2
  · have hturn := hturns n hn
    rw [hm, Option.all_some, Bool.and_eq_true] at hturn
    exact Machine.houses_of_result hturn.1
      (fun k hk => List.all_eq_true.1 hturn.2 k (List.mem_range.2 hk)) k i s hnext
  · obtain ⟨j, rfl⟩ := Nat.exists_eq_add_of_le (Nat.le_of_not_lt hn)
    rw [Option.any_eq_true] at hdone
    obtain ⟨d, hd, hnone⟩ := hdone
    rw [Client.machine?_of_done hd (Option.isNone_iff_eq_none.1 hnone)] at hm
    cases hm

theorem scope_flags_change_no_answer_callingClient :
    (callingClient {}).Twin (callingClient ⟨[.scopeEliminated]⟩) ∧
      (callingClient ⟨[.scopeEliminated]⟩).Houses 8 16 ∧
      ∃ d d', (callingClient {}).dialogue 8 16 2 = some d ∧
        (callingClient ⟨[.scopeEliminated]⟩).dialogue 8 16 2 = some d' ∧ d.texts = d'.texts := by
  have h := scope_flags_change_no_answer callingClient_twin callingClient_houses 2
  obtain ⟨d, hd⟩ := Option.isSome_iff_exists.1
    (show ((callingClient {}).dialogue 8 16 2).isSome = true by decide +kernel)
  refine ⟨callingClient_twin, callingClient_houses, d, ?_⟩
  rw [hd] at h
  generalize (callingClient ⟨[.scopeEliminated]⟩).dialogue 8 16 2 = y at h
  cases h with
  | some h => exact ⟨_, hd, rfl, h.1⟩

end ObjectIr
