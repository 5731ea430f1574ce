import Mathlib.Data.List.Chain
import Mathlib.Data.List.Forall2
import ObjectIr.Proofs.Sessions.History

/-!
# What a history has to say of its machine

Going out from an activation, the cells around it are those that stand for the activations that led
to it, one for each, until one of these has no scope at all (`History.Aligned`). A history is sound
when this holds of all blocks, and when each activation has a cell of its own
(`History.Sound`); it fits an active one when it knows its scopes as they are (`History.Fits`).

Three things happen to a history, and each keeps it sound and fitting: an activation goes on and may
come to have a bridge (`History.Sound.note`), one is entered (`History.Sound.push`), and a block is
made (`History.Sound.make`).
-/

namespace ObjectIr

def Body.Makes (b x : Body) : Prop := ∃ r, .buildClosure r x ∈ b.code

/-- The footing is as the body's flags have it, and the bridge is one. -/
def Activation.Grounded (a : Activation) (e : Entrant) : Prop :=
  match a.footing with
  | .own s => a.bridge? = none ∧ s.cell.layout = a.body.scope
  | .guest parent => a.body.pushesScope = false ∧
      ∀ b, a.bridge? = some b → b.outer = parent.cells ∧ b.cell.layout = a.body.scope
  | .nowhere => a.body.pushesScope = false ∧ a.bridge? = none ∧ e.rootless = true

namespace History

variable (h : History)

/-- The cells stand for the entrants, up to the first without any scope. -/
def Aligned : List ScopeCell → List Entrant → Prop
  | _, [] => True
  | [], e :: _ => e.rootless = true
  | c :: cs, e :: es => e.rootless = true ∨
      (h.standing? e.number = some c ∧ c.layout = e.body.scope ∧ Aligned cs es)

/-- A body among certain cells, and the activations that led there. -/
structure Descent (body : Body) (cells : List ScopeCell) (creators : List Entrant) : Prop where
  known : ∀ e ∈ creators, e ∈ h.roster
  aligned : h.Aligned cells creators
  makes : List.IsChain (fun x y => y.Makes x) (body :: creators.map Entrant.body)

structure Fits (l : Lineage) (a : Activation) : Prop where
  body : l.self.body = a.body
  known : l.self ∈ h.roster
  standing : h.standing? l.number = a.standing?
  grounded : a.Grounded l.self
  descent : h.Descent a.body a.outer l.creators

structure Sound (p : Body → Prop) (k : Heap) : Prop where
  numbers : ∀ (n : Nat) (e : Entrant), h.roster[n]? = some e → e.number = n
  bodies : ∀ e ∈ h.roster, p e.body
  entered : ∀ n c, h.standing? n = some c → n < h.roster.length
  cells : ∀ n c, h.standing? n = some c →
    c.id < k.next.scopes ∧ (k.slotsOf c).length = c.layout.locals.length
  distinct : ∀ n m c d, h.standing? n = some c → h.standing? m = some d → c.id = d.id → n = m
  origins : ∀ id o, h.origin? id = some o →
    id < k.next.blocks ∧ h.Descent o.body (cellsOf o.scope?) o.creators

/-- A later history: nobody is forgotten, and what stands for one stays. -/
structure Extends (h' : History) : Prop where
  roster : ∀ e ∈ h.roster, e ∈ h'.roster
  standing : ∀ n c, h.standing? n = some c → h'.standing? n = some c

variable {h}

theorem Aligned.mono {h' : History} (hh : h.Extends h') :
    ∀ {cells : List ScopeCell} {es : List Entrant}, h.Aligned cells es → h'.Aligned cells es
  | _, [], _ => by rw [Aligned]; trivial
  | [], _ :: _, ha => by rw [Aligned] at ha ⊢; exact ha
  | c :: cs, e :: es, ha => by
    rw [Aligned] at ha ⊢
    rcases ha with hr | ⟨hs, hl, ha⟩
    · exact .inl hr
    · exact .inr ⟨hh.standing _ _ hs, hl, ha.mono hh⟩

theorem Descent.mono {h' : History} (hh : h.Extends h') {body : Body} {cells : List ScopeCell}
    {es : List Entrant} (hd : h.Descent body cells es) : h'.Descent body cells es :=
  ⟨fun e he => hh.roster e (hd.known e he), hd.aligned.mono hh, hd.makes⟩

theorem Extends.refl (h : History) : h.Extends h := ⟨fun _ he => he, fun _ _ hc => hc⟩

theorem Extends.trans {h' h'' : History} (hh : h.Extends h') (hh' : h'.Extends h'') :
    h.Extends h'' :=
  ⟨fun e he => hh'.roster e (hh.roster e he), fun n c hc => hh'.standing n c (hh.standing n c hc)⟩

theorem extends_make (h : History) (made? : Option (Nat × Body × Option DynamicScope)) :
    h.Extends (h.make made?) := by
  rcases made? with _ | ⟨id, body, scope?⟩
  · exact .refl h
  · obtain ⟨roster, stack, origin?, standing?⟩ := h
    cases stack <;> exact ⟨fun _ he => he, fun _ _ hc => hc⟩

theorem extends_pop (h : History) : h.Extends h.pop := ⟨fun _ he => he, fun _ _ hc => hc⟩

theorem Fits.mono {h' : History} (hh : h.Extends h') {l : Lineage} {a : Activation}
    (hf : h.Fits l a) (hs : h'.standing? l.number = h.standing? l.number) : h'.Fits l a :=
  ⟨hf.body, hh.roster _ hf.known, hs.trans hf.standing, hf.grounded, hf.descent.mono hh⟩

theorem Sound.grows {p : Body → Prop} {k k' : Heap} (hs : h.Sound p k) (hk : k.Grows k') :
    h.Sound p k' where
  numbers := hs.numbers
  bodies := hs.bodies
  entered := hs.entered
  cells n c hc := by
    obtain ⟨hid, hslots⟩ := hs.cells n c hc
    exact ⟨Nat.lt_of_lt_of_le hid hk.scopes, (hk.slots c hid).trans hslots⟩
  distinct := hs.distinct
  origins id o ho := by
    obtain ⟨hid, hd⟩ := hs.origins id o ho
    exact ⟨Nat.lt_of_lt_of_le hid hk.blocks, hd⟩

theorem Sound.eq_of_number {p : Body → Prop} {k : Heap} (hs : h.Sound p k) {e e' : Entrant}
    (he : e ∈ h.roster) (he' : e' ∈ h.roster) (hn : e.number = e'.number) : e = e' := by
  obtain ⟨n, hn'⟩ := List.mem_iff_getElem?.1 he
  obtain ⟨m, hm'⟩ := List.mem_iff_getElem?.1 he'
  have h1 := hs.numbers n e hn'
  have h2 := hs.numbers m e' hm'
  have hnm : n = m := by omega
  rw [hnm, hm'] at hn'
  exact (Option.some.inj hn').symm

theorem Sound.number_lt {p : Body → Prop} {k : Heap} (hs : h.Sound p k) {e : Entrant}
    (he : e ∈ h.roster) : e.number < h.roster.length := by
  obtain ⟨n, hn⟩ := List.mem_iff_getElem?.1 he
  rw [hs.numbers n e hn]
  exact (List.getElem?_eq_some_iff.1 hn).1

end History

/-! ### The scopes of an activation -/

namespace Activation.Grounded

variable {a : Activation} {e : Entrant} (ha : a.Grounded e)

include ha

theorem captured {s : DynamicScope} (hs : a.captured? = some s) :
    s.cells = s.cell :: a.outer ∧ s.cell.layout = a.body.scope := by
  rw [Grounded] at ha
  rw [captured?] at hs
  rw [outer]
  cases hf : a.footing with
  | own own =>
    rw [hf] at ha hs
    cases hs
    exact ⟨rfl, ha.2⟩
  | guest parent =>
    rw [hf] at ha hs
    obtain ⟨hout, hlayout⟩ := ha.2 s hs
    exact ⟨by rw [DynamicScope.cells, hout], hlayout⟩
  | nowhere =>
    rw [hf] at hs
    cases hs

/-- An activation is aimed at by the number of the cell that stands for it, and of no other. -/
theorem owns_iff {target : Nat} :
    a.owns target = true ↔ ∃ c, a.standing? = some c ∧ c.id = target := by
  rw [Grounded] at ha
  rw [owns, standing?, captured?]
  cases hf : a.footing with
  | own s =>
    rw [hf] at ha
    simp [ha.1, DynamicScope.id]
  | guest parent => cases a.bridge? <;> simp [DynamicScope.id]
  | nowhere =>
    rw [hf] at ha
    simp [ha.2.1]

end Activation.Grounded

namespace History

variable {h : History} {p : Body → Prop} {k : Heap}

/-- A block made by an activation descends from it, once it is known what it captured. -/
theorem Fits.descent_closure {l : Lineage} {a : Activation} (hf : h.Fits l a) {body : Body}
    (hbody : a.body.Makes body) (hnone : a.captured? = none → a.footing = .nowhere) :
    h.Descent body (cellsOf a.captured?) l.chain where
  known := List.forall_mem_cons.2 ⟨hf.known, hf.descent.known⟩
  aligned := by
    rw [Lineage.chain]
    cases hc : a.captured? with
    | none =>
      have hg := hf.grounded
      rw [Activation.Grounded, hnone hc] at hg
      exact hg.2.2
    | some s =>
      obtain ⟨hcells, hlayout⟩ := hf.grounded.captured hc
      have hstanding : h.standing? l.self.number = some s.cell := by
        rw [← Lineage.number, hf.standing, Activation.standing?, hc]
        rfl
      rw [cellsOf, Option.map_some, Option.getD_some, hcells, Aligned]
      exact .inr ⟨hstanding, by rw [hlayout, hf.body], hf.descent.aligned⟩
  makes := by
    rw [Lineage.chain, List.map_cons, hf.body, List.isChain_cons_cons]
    exact ⟨hbody, hf.descent.makes⟩

/-! ### Going on -/

section Depths

variable {ls : List Lineage} {as : List Activation} (hf : List.Forall₂ h.Fits ls as)
  {k : Nat} {l : Lineage} {a : Activation}

include hf

theorem fits_at (hl : ls[k]? = some l) (ha : as[k]? = some a) : h.Fits l a := by
  obtain ⟨hk, rfl⟩ := List.getElem?_eq_some_iff.1 hl
  obtain ⟨hk', rfl⟩ := List.getElem?_eq_some_iff.1 ha
  exact hf.get hk hk'

theorem fits_of_lineage (hl : ls[k]? = some l) : ∃ a, as[k]? = some a ∧ h.Fits l a := by
  have hk : k < as.length := by
    rw [← hf.length_eq]
    exact (List.getElem?_eq_some_iff.1 hl).1
  have ha := List.getElem?_eq_getElem hk
  exact ⟨_, ha, fits_at hf hl ha⟩

theorem fits_of_active (ha : as[k]? = some a) : ∃ l, ls[k]? = some l ∧ h.Fits l a := by
  have hk : k < ls.length := by
    rw [hf.length_eq]
    exact (List.getElem?_eq_some_iff.1 ha).1
  have hl := List.getElem?_eq_getElem hk
  exact ⟨_, hl, fits_at hf hl ha⟩

end Depths

theorem or_standingIn {ls : List Lineage} {as : List Activation} (hf : List.Forall₂ h.Fits ls as)
    (n : Nat) : (h.standing? n).or (standingIn n ls as) = h.standing? n := by
  induction hf with
  | nil => simp [standingIn]
  | @cons l a ls as hla _ ih =>
    rw [standingIn]
    split
    · next hn => rw [← hn, hla.standing, Option.or_self]
    · exact ih

theorem mem_roster {ls : List Lineage} {as : List Activation} (hf : List.Forall₂ h.Fits ls as) :
    ∀ l ∈ ls, l.self ∈ h.roster := by
  induction hf with
  | nil => rintro l ⟨⟩
  | cons hla _ ih => exact List.forall_mem_cons.2 ⟨hla.known, ih⟩

theorem note_eq {as : List Activation} (hf : List.Forall₂ h.Fits h.stack as) : h.note as = h := by
  obtain ⟨roster, stack, origin?, standing?⟩ := h
  rw [note]
  congr 1
  exact funext fun n => or_standingIn hf n

/-- A history where more has come to stand for the innermost activation, and nothing else. -/
theorem note_standing {l : Lineage} {ls : List Lineage} {as : List Activation}
    (hstack : h.stack = l :: ls) (hf : List.Forall₂ h.Fits ls as) (a : Activation) (n : Nat) :
    (h.note (a :: as)).standing? n =
      if n = l.number then (h.standing? n).or a.standing? else h.standing? n := by
  rw [note]
  simp only
  rw [hstack, standingIn]
  by_cases hn : l.number = n
  · rw [if_pos hn, if_pos hn.symm]
  · rw [if_neg hn, if_neg (Ne.symm hn), or_standingIn hf]

theorem note_extends (h : History) (as : List Activation) : h.Extends (h.note as) where
  roster _ he := he
  standing n c hc := by simp [note, hc]

/-- A new scope, or none, comes to stand for an entrant. -/
theorem Sound.stand {h' : History} (hs : h.Sound p k) (hext : h.Extends h')
    (hnumbers : ∀ (n : Nat) (e : Entrant), h'.roster[n]? = some e → e.number = n)
    (hbodies : ∀ e ∈ h'.roster, p e.body) (horigins : h'.origin? = h.origin?) {m : Nat}
    {c? : Option ScopeCell} (hm : m < h'.roster.length)
    (hlength : h.roster.length ≤ h'.roster.length)
    (hstanding : ∀ n, h'.standing? n = if n = m then c? else h.standing? n)
    (hcell : ∀ c, c? = some c → (∀ n d, h.standing? n = some d → d.id ≠ c.id) ∧
      c.id < k.next.scopes ∧ (k.slotsOf c).length = c.layout.locals.length) : h'.Sound p k where
  numbers := hnumbers
  bodies := hbodies
  entered n c hc := by
    rw [hstanding] at hc
    split at hc
    · next hn =>
      rw [hn]
      exact hm
    · exact Nat.lt_of_lt_of_le (hs.entered n c hc) hlength
  cells n c hc := by
    rw [hstanding] at hc
    split at hc
    · exact (hcell c hc).2
    · exact hs.cells n c hc
  distinct n m' c d hc hd hcd := by
    rw [hstanding] at hc hd
    split at hc <;> split at hd
    · next hn hm => rw [hn, hm]
    · exact absurd hcd.symm ((hcell c hc).1 m' d hd)
    · exact absurd hcd ((hcell d hd).1 n c hc)
    · exact hs.distinct n m' c d hc hd hcd
  origins id o ho := by
    rw [horigins] at ho
    obtain ⟨hid, hd⟩ := hs.origins id o ho
    exact ⟨hid, hd.mono hext⟩

/-- The other activations are none the wiser. -/
theorem forall₂_fits_mono {h' : History} (hext : h.Extends h') {m : Nat} {c? : Option ScopeCell}
    (hstanding : ∀ n, h'.standing? n = if n = m then c? else h.standing? n) {ls : List Lineage}
    (hm : m ∉ ls.map Lineage.number) {as : List Activation} (hf : List.Forall₂ h.Fits ls as) :
    List.Forall₂ h'.Fits ls as := by
  induction hf with
  | nil => exact .nil
  | @cons l a ls as hla _ ih =>
    rw [List.map_cons, List.mem_cons, not_or] at hm
    exact .cons (hla.mono hext (by rw [hstanding, if_neg (Ne.symm hm.1)])) (ih hm.2)

/-- The history of some active activations. -/
structure Follows (h : History) (p : Body → Prop) (k : Heap) (as : List Activation) : Prop where
  sound : h.Sound p k
  fits : List.Forall₂ h.Fits h.stack as
  nodup : (h.stack.map Lineage.number).Nodup

theorem Follows.at_pc {a : Activation} {as : List Activation} (hs : h.Follows p k (a :: as))
    (pc : Nat) : h.Follows p k ({ a with pc } :: as) := by
  obtain ⟨l, ls, hla, hls, hstack⟩ := List.forall₂_cons_right_iff.1 hs.fits
  refine ⟨hs.sound, ?_, hs.nodup⟩
  rw [hstack]
  exact .cons { hla with } hls

section Noting

variable {s t : Site} {as : List Activation} (hs : h.Follows p s.heap (s.activation :: as))
  (hst : s.Evolves t)

include hst

theorem outer_eq : t.activation.outer = s.activation.outer := by
  rw [Activation.outer, Activation.outer, hst.footing]

theorem Fits.unbridged {l : Lineage} (hla : h.Fits l s.activation)
    (hbridge : t.activation.bridge? = s.activation.bridge?) : h.Fits l t.activation where
  body := hla.body.trans hst.body.symm
  known := hla.known
  standing := by
    rw [hla.standing, Activation.standing?, Activation.standing?, Activation.captured?,
      Activation.captured?, hst.footing, hbridge]
  grounded := by
    have hgrounded := hla.grounded
    rw [Activation.Grounded] at hgrounded ⊢
    rw [hst.footing, hst.body, hbridge]
    exact hgrounded
  descent := by
    rw [outer_eq hst, hst.body]
    exact hla.descent

include hs

theorem Follows.note_unbridged (hbridge : t.activation.bridge? = s.activation.bridge?) :
    (h.note (t.activation :: as)).Follows p t.heap (t.activation :: as) := by
  obtain ⟨l, ls, hla, hls, hstack⟩ := List.forall₂_cons_right_iff.1 hs.fits
  have hfits : List.Forall₂ h.Fits h.stack (t.activation :: as) := by
    rw [hstack]
    exact .cons (hla.unbridged hst hbridge) hls
  rw [note_eq hfits]
  exact ⟨hs.sound.grows hst.heap, hfits, hs.nodup⟩

theorem Follows.note_bridged {bridge : DynamicScope}
    (hbridge : t.activation.bridge? = some bridge) (hmade : s.Bridges t bridge) :
    (h.note (t.activation :: as)).Follows p t.heap (t.activation :: as) := by
  obtain ⟨hsound, hfits, hnodup⟩ := hs
  obtain ⟨l, ls, hla, hls, hstack⟩ := List.forall₂_cons_right_iff.1 hfits
  obtain ⟨parent, hfooting, hnested⟩ := hmade.nested
  have hnew : t.activation.standing? = some bridge.cell := by
    rw [Activation.standing?, Activation.captured?, hst.footing, hfooting, hbridge]
    rfl
  have hnone : h.standing? l.number = none := by
    rw [hla.standing, Activation.standing?, Activation.captured?, hfooting, hmade.absent]
    rfl
  have hcell : bridge.cell = ⟨bridge.id, s.activation.body.scope⟩ ∧
      bridge.outer = parent.cells := by
    rw [hnested]
    exact ⟨rfl, rfl⟩
  have hstanding : ∀ n, (h.note (t.activation :: as)).standing? n =
      if n = l.number then some bridge.cell else h.standing? n := by
    intro n
    rw [note_standing hstack hls, hnew]
    by_cases hn : n = l.number
    · rw [if_pos hn, if_pos hn, hn, hnone, Option.none_or]
    · rw [if_neg hn, if_neg hn]
  have hext := note_extends h (t.activation :: as)
  have hothers : l.number ∉ ls.map Lineage.number := by
    rw [hstack, List.map_cons, List.nodup_cons] at hnodup
    exact hnodup.1
  have hfit : (h.note (t.activation :: as)).Fits l t.activation :=
    { body := hla.body.trans hst.body.symm
      known := hla.known
      standing := by rw [hstanding, if_pos rfl, hnew]
      grounded := by
        have hgrounded := hla.grounded
        rw [Activation.Grounded, hfooting] at hgrounded
        rw [Activation.Grounded, hst.footing, hfooting, hst.body]
        refine ⟨hgrounded.1, fun b hb => ?_⟩
        rw [hbridge] at hb
        cases hb
        exact ⟨hcell.2, by rw [hcell.1]⟩
      descent := by
        rw [outer_eq hst, hst.body]
        exact hla.descent.mono hext }
  refine ⟨?_, ?_, hnodup⟩
  · refine (hsound.grows hst.heap).stand hext hsound.numbers hsound.bodies rfl
      (hsound.number_lt hla.known) (Nat.le_refl _) hstanding ?_
    rintro c ⟨⟩
    refine ⟨fun n d hd => ?_, hmade.made, ?_⟩
    · exact Nat.ne_of_lt (Nat.lt_of_lt_of_le (hsound.cells n d hd).1 hmade.fresh)
    · rw [hmade.slots, hcell.1]
  · show List.Forall₂ _ h.stack _
    rw [hstack]
    exact .cons hfit (forall₂_fits_mono hext hstanding hothers hls)

/-- The innermost activation goes on, to any site that evolved from its own. -/
theorem Follows.note : (h.note (t.activation :: as)).Follows p t.heap (t.activation :: as) := by
  rcases hst.bridge? with hbridge | ⟨bridge, hbridge, hmade⟩
  · exact hs.note_unbridged hst hbridge
  · exact hs.note_bridged hst hbridge hmade

end Noting

/-! ### Entering and leaving -/

theorem Follows.pop {a : Activation} {as : List Activation} (hs : h.Follows p k (a :: as)) :
    h.pop.Follows p k as := by
  obtain ⟨⟨hnumbers, hbodies, hentered, hcells, hdistinct, horigins⟩, hfits, hnodup⟩ := hs
  have hext := extends_pop h
  obtain ⟨l, ls, -, hls, hstack⟩ := List.forall₂_cons_right_iff.1 hfits
  have hpop : h.pop.stack = ls := by rw [History.pop, hstack, List.tail_cons]
  refine ⟨⟨hnumbers, hbodies, hentered, hcells, hdistinct, fun id o ho => ?_⟩, ?_, ?_⟩
  · obtain ⟨hid, hd⟩ := horigins id o ho
    exact ⟨hid, hd.mono hext⟩
  · rw [hpop]
    exact hls.imp fun l a hla => hla.mono hext rfl
  · rw [hstack, List.map_cons, List.nodup_cons] at hnodup
    rw [hpop]
    exact hnodup.2

end History

/-- The activation that is entered stands where its flags and its parent scope put it. -/
theorem enter_grounded {limit : Nat} {k : Heap} {c : Context} {i : Invocation} {s : Site}
    (hs : enter limit k c i = .ok s) : k.Grows s.heap ∧ s.activation.body = i.body ∧
      s.activation.outer = cellsOf i.parent? ∧
      (∀ n, s.activation.Grounded ⟨n, i.body, i.parent?.isSome⟩) ∧
      ∀ cell, s.activation.standing? = some cell →
        k.next.scopes ≤ cell.id ∧ cell.id < s.heap.next.scopes ∧
          (s.heap.slotsOf cell).length = cell.layout.locals.length := by
  rw [enter_eq_ok hs]
  rcases i.settleIn_cases k (c.withFrame i.frame) with
    ⟨-, -, hset⟩ | ⟨ha, parent, hparent, ⟨-, hset⟩ | ⟨-, hset⟩⟩ | ⟨ha, hparent, -, hset⟩ <;>
    rw [hset]
  · refine ⟨.newScope k i.body.scope i.parent?, rfl, rfl, fun n => ⟨rfl, rfl⟩, ?_⟩
    rintro cell ⟨⟩
    refine ⟨Nat.le_refl _, Nat.lt_succ_self _, ?_⟩
    rw [Heap.slotsOf_newScope_self, List.length_replicate]
    rfl
  all_goals
    rw [Invocation.allocates, Bool.or_eq_false_iff] at ha
  · refine ⟨.refl k, rfl, by rw [hparent]; rfl, fun n => ⟨ha.1, by rintro b ⟨⟩⟩, by rintro c ⟨⟩⟩
  · refine ⟨.refl k, rfl, by rw [hparent]; rfl, fun n => ⟨ha.1, by rintro b ⟨⟩⟩, by rintro c ⟨⟩⟩
  · refine ⟨.refl k, rfl, by rw [hparent]; rfl, fun n => ⟨ha.1, rfl, ?_⟩, by rintro c ⟨⟩⟩
    rw [hparent, Option.isNone_none, Bool.and_true] at ha
    rw [Entrant.rootless, ha.1, ha.2, hparent]
    rfl

namespace History

variable {h : History} {p : Body → Prop} {k : Heap}

theorem Extends.push {h' : History} (hh : h.Extends h')
    (hlt : ∀ n c, h.standing? n = some c → n < h'.roster.length) (i : Invocation)
    (block? : Option Block) (standing? : Option ScopeCell) :
    h.Extends (h'.push i block? standing?) := by
  refine ⟨fun e he => List.mem_append_left _ (hh.roster e he), fun n c hc => ?_⟩
  show (if n = h'.roster.length then standing? else h'.standing? n) = some c
  rw [if_neg (Nat.ne_of_lt (hlt n c hc))]
  exact hh.standing n c hc

/-- An activation is entered, and descends from those that led to the block that it runs. -/
theorem Follows.push {limit : Nat} {c : Context} {i : Invocation} {s : Site} {as : List Activation}
    (hs : h.Follows p k as) (he : enter limit k c i = .ok s) (hp : p i.body) {block? : Option Block}
    (hd : h.Descent i.body (cellsOf i.parent?) (h.creators block?)) :
    (h.push i block? s.activation.standing?).Follows p s.heap (s.activation :: as) := by
  obtain ⟨hsound, hfits, hnodup⟩ := hs
  obtain ⟨hgrows, hbody, houter, hgrounded, hcell⟩ := enter_grounded he
  have hstanding : ∀ n, (h.push i block? s.activation.standing?).standing? n =
      if n = h.roster.length then s.activation.standing? else h.standing? n := fun n => rfl
  have hext := (Extends.refl h).push hsound.entered i block? s.activation.standing?
  have hlength : (h.push i block? s.activation.standing?).roster.length = h.roster.length + 1 :=
    List.length_append
  have hnew : h.roster.length ∉ h.stack.map Lineage.number := by
    intro hmem
    obtain ⟨l, hl, hn⟩ := List.mem_map.1 hmem
    have := hsound.number_lt (mem_roster hfits l hl)
    rw [Lineage.number] at hn
    omega
  refine ⟨?_, ?_, ?_⟩
  · refine (hsound.grows hgrows).stand hext (fun n e hn => ?_) ?_ rfl
      (by rw [hlength]; exact Nat.lt_succ_self _) (by rw [hlength]; exact Nat.le_succ _)
      hstanding ?_
    · rw [History.push] at hn
      simp only [List.getElem?_append] at hn
      split at hn
      · exact hsound.numbers n e hn
      · next hlt =>
        rw [List.getElem?_singleton] at hn
        split at hn
        · cases hn
          simp only
          omega
        · cases hn
    · intro e he
      rcases List.mem_append.1 he with he | he
      · exact hsound.bodies e he
      · rw [List.mem_singleton] at he
        rw [he]
        exact hp
    · intro cell hc
      obtain ⟨hfresh, hlt, hslots⟩ := hcell cell hc
      refine ⟨fun n d hd => ?_, hlt, hslots⟩
      exact Nat.ne_of_lt (Nat.lt_of_lt_of_le (hsound.cells n d hd).1 hfresh)
  · refine .cons
      { body := hbody.symm
        known := List.mem_append_right _ List.mem_cons_self
        standing := (hstanding _).trans (if_pos rfl)
        grounded := hgrounded _
        descent := by rw [houter, hbody]; exact hd.mono hext }
      (forall₂_fits_mono hext hstanding hnew hfits)
  · exact List.nodup_cons.2 ⟨hnew, hnodup⟩

/-! ### Making a block -/

theorem Follows.make {a : Activation} {as : List Activation} (hs : h.Follows p k (a :: as))
    {id : Nat} {body : Body} (hid : id < k.next.blocks) (hbody : a.body.Makes body)
    (hnone : a.captured? = none → a.footing = .nowhere) :
    (h.make (some (id, body, a.captured?))).Follows p k (a :: as) := by
  obtain ⟨hsound, hfits, hnodup⟩ := hs
  obtain ⟨l, ls, hla, hls, hstack⟩ := List.forall₂_cons_right_iff.1 hfits
  have hmake : h.make (some (id, body, a.captured?)) = { h with
      origin? := fun n => if n = id then some ⟨body, a.captured?, l.chain⟩ else h.origin? n } := by
    rw [History.make]
    simp only [hstack]
  rw [hmake]
  have hext : h.Extends { h with
      origin? := fun n => if n = id then some ⟨body, a.captured?, l.chain⟩ else h.origin? n } :=
    ⟨fun _ he => he, fun _ _ hc => hc⟩
  refine ⟨⟨hsound.numbers, hsound.bodies, hsound.entered, hsound.cells, hsound.distinct,
    fun n o ho => ?_⟩, hfits.imp fun l a hla => hla.mono hext rfl, hnodup⟩
  simp only at ho
  split at ho
  · next hn =>
    cases ho
    rw [hn]
    exact ⟨hid, (hla.descent_closure hbody hnone).mono hext⟩
  · obtain ⟨hn, hd⟩ := hsound.origins n o ho
    exact ⟨hn, hd.mono hext⟩

end History

end ObjectIr
