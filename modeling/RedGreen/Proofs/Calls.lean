import RedGreen.Proofs.Footprint
import RedGreen.Proofs.Running

set_option autoImplicit false

/-! # Calls that are not answered with a value

A call asks for the value of a slot while some frames wait around it; the request of a task is the
call with no frames around it. A call is on its way until it is answered to those frames, or until
one of them gives it up. In between its task may be parked, and others do as they like, except that
they take no slot off the active stack that is not theirs.

Of all the steps that a call takes on its way, the calls that it makes included, the only one that
can change the memo of its slot is the one that answers it with a value (`Call.spares`). -/

namespace RedGreen

open Evaluation

variable {p : Program} {t : Token}

/-- A call with some frames around it is on its way: they wait, and it has not been answered. -/
def Evaluation.Within (outer : List Frame) (e : Evaluation) : Prop :=
  outer <:+ e.frames ∧ ∀ r, e ≠ ⟨.answer r, outer⟩

/-- The steps that a call of a slot has taken so far, each with the world before and after it, where
    the evaluation stands now, and the slots that others have on the active stack. -/
inductive Call (p : Program) (t : Token) (i : SlotId) (outer : List Frame) :
    List (World × World) → Evaluation → World → List SlotId → Prop
  | requested {w : World} {others : List SlotId}
    (stacked : w.Stacked (outer.map Frame.slot ++ others)) :
    Call p t i outer [] ⟨.fetch i, outer⟩ w others
  | step {own : List (World × World)} {e e' : Evaluation} {w w' : World} {others : List SlotId}
    (call : Call p t i outer own e w others) (within : e.Within outer) (next : e.Next p t w e' w') :
    Call p t i outer (own ++ [(w, w')]) e' w' others
  /-- The task waits, and others change the world in any way that leaves its slots where they are. -/
  | meanwhile {own : List (World × World)} {e : Evaluation} {w w' : World}
    {others others' : List SlotId} (call : Call p t i outer own e w others)
    (stacked : w'.Stacked (e.held ++ others')) : Call p t i outer own e w' others'

/-- Where a call of a slot can stand. -/
inductive Call.Stage (i : SlotId) (outer : List Frame) : Evaluation → World → Prop
  | requested {w : World} : Stage i outer ⟨.fetch i, outer⟩ w
  | innermost {c : Control} {r : Revision} {w : World} (flight : c.flight? = some ⟨i, r⟩)
    (inside : i ∈ w.active) : Stage i outer ⟨c, outer⟩ w
  | waiting {c : Control} (inner : List Frame) {frame : Frame} {w : World} (slot : frame.slot = i)
    (inside : i ∈ w.active) (apart : i ∉ Evaluation.held ⟨c, inner⟩) :
    Stage i outer ⟨c, inner ++ frame :: outer⟩ w
  | answered {r : Except QueryError Stamped} {w : World} : Stage i outer ⟨.answer r, outer⟩ w
  | gone {e : Evaluation} {w : World} (gone : ¬ outer <:+ e.frames) : Stage i outer e w

variable {i : SlotId} {outer : List Frame} {e e' : Evaluation} {w w' : World}

theorem mem_foldl_dropInnermost {active ids : List SlotId} (h : i ∈ active) (hi : i ∉ ids) :
    i ∈ ids.foldl dropInnermost active := by
  induction ids generalizing active with
  | nil => exact h
  | cons j ids ih =>
    rw [List.mem_cons, not_or] at hi
    exact ih (mem_dropInnermost h hi.1) hi.2

theorem World.Vacates.mem {ids : List SlotId} (h : w.Vacates ids w') (hmem : i ∈ w.active)
    (hi : i ∉ ids) : i ∈ w'.active := by
  rw [h.active]
  exact mem_foldl_dropInnermost hmem hi

theorem mem_held_of_flight? {c : Control} {frames : List Frame} {f : Flight}
    (h : c.flight? = some f) : f.slot ∈ Evaluation.held ⟨c, frames⟩ := by
  rw [held_eq, flights, h]
  exact List.mem_cons_self

theorem not_mem_held {c : Control} {frames : List Frame} (hc : ∀ f, c.flight? = some f → f.slot ≠ i)
    (hframes : i ∉ frames.map Frame.slot) : i ∉ Evaluation.held ⟨c, frames⟩ := by
  rw [held_eq, flights, List.map_append, List.mem_append, not_or]
  constructor
  · cases hflight : c.flight? with
    | none => exact List.not_mem_nil
    | some f => simpa using (hc f hflight).symm
  · simpa [Function.comp_def, Frame.slot_eq] using hframes

theorem not_mem_frames {c : Control} {frames : List Frame} (h : i ∉ Evaluation.held ⟨c, frames⟩) :
    i ∉ frames.map Frame.slot := fun hi => h (List.mem_append_right _ hi)

/-- The innermost frame goes on; the one that waits is that one or is further out. -/
theorem Call.Stage.pops {c : Control} {inner frames : List Frame} {frame frame' : Frame}
    (hslot : frame.slot = i) (hin : i ∈ w.active) (hinner : i ∉ inner.map Frame.slot)
    (hframes : frame' :: frames = inner ++ frame :: outer) (hflight : c.flight? = some frame'.flight) :
    Stage i outer ⟨c, frames⟩ w := by
  cases inner with
  | nil =>
    obtain ⟨rfl, rfl⟩ := List.cons.inj hframes
    have hself : frame'.flight = ⟨i, frame'.flight.revision⟩ := by rw [← hslot, frame'.slot_eq]
    exact .innermost (hflight.trans (congrArg some hself)) hin
  | cons frame'' inner =>
    obtain ⟨rfl, rfl⟩ := List.cons.inj hframes
    rw [List.map_cons, List.mem_cons, not_or] at hinner
    refine .waiting _ hslot hin (not_mem_held ?_ hinner.2)
    intro f hf heq
    obtain rfl := Option.some.inj (hflight.symm.trans hf)
    exact hinner.1 (frame'.slot_eq ▸ heq.symm)

/-- A call that waits for one of its own calls: only the steps that come back to it matter. -/
theorem Call.Stage.moves_waiting {c : Control} {inner : List Frame} {frame : Frame}
    (hslot : frame.slot = i) (hin : i ∈ w.active) (hapart : i ∉ Evaluation.held ⟨c, inner⟩)
    {frames : List Frame} (hframes : frames = inner ++ frame :: outer)
    (h : Moves ⟨c, frames⟩ w e' w') :
    Stage i outer e' w' ∧ w'.memo? i = w.memo? i := by
  have hne {f : Flight} (hf : c.flight? = some f) : f.slot ≠ i := fun heq =>
    hapart (heq ▸ mem_held_of_flight? hf)
  have hinner := not_mem_frames hapart
  cases h with
  | bounces rests =>
    subst hframes
    refine ⟨.waiting _ hslot (rests.active ▸ hin) (not_mem_held nofun hinner), rests.memo i⟩
  | enters flight outside active retains =>
    subst hframes
    refine ⟨.waiting _ hslot ?_ (not_mem_held ?_ hinner), retains.memo i⟩
    · rw [active]
      exact List.mem_append_left _ hin
    · intro f hf heq
      obtain rfl := Option.some.inj (flight.symm.trans hf)
      obtain rfl : _ = i := heq
      exact outside hin
  | goesOn flight flight' rests =>
    subst hframes
    refine ⟨.waiting _ hslot (rests.active ▸ hin) (not_mem_held ?_ hinner), rests.memo i⟩
    rintro f hf
    obtain rfl := Option.some.inj (flight'.symm.trans hf)
    exact hne flight
  | @requests c frame' dep frames w w' flight rests =>
    subst hframes
    refine ⟨.waiting (frame' :: inner) hslot (rests.active ▸ hin) ?_, rests.memo i⟩
    refine not_mem_held nofun ?_
    rw [List.map_cons, List.mem_cons, not_or]
    exact ⟨fun heq => hne flight (frame'.slot_eq ▸ heq.symm), hinner⟩
  | fails flight vacates =>
    subst hframes
    refine ⟨.waiting _ hslot (vacates.mem hin ?_) (not_mem_held nofun hinner), vacates.memo i⟩
    simpa using (hne flight).symm
  | @succeeds f c x frames w w' flight active retains =>
    subst hframes
    refine ⟨.waiting _ hslot ?_ (not_mem_held nofun hinner), retains.memo i (hne flight).symm⟩
    rw [active]
    exact mem_dropInnermost hin (hne flight).symm
  | returns flight rests =>
    exact ⟨.pops hslot (rests.active ▸ hin) hinner hframes flight, rests.memo i⟩
  | @propagates r error frame' frames w w' vacates =>
    cases inner with
    | nil =>
      obtain ⟨rfl, rfl⟩ := List.cons.inj hframes
      exact ⟨.answered, vacates.memo i⟩
    | cons frame'' inner =>
      obtain ⟨rfl, rfl⟩ := List.cons.inj hframes
      rw [List.map_cons, List.mem_cons, not_or] at hinner
      refine ⟨.waiting _ hslot (vacates.mem hin ?_) (not_mem_held nofun hinner.2), vacates.memo i⟩
      simpa using hinner.1
  | @givesUp f c c' inside outside frame' w w' flight flight' vacates =>
    -- the frame that goes on is inside the one that waits, is that one, or is around it
    rcases List.append_eq_append_iff.1 hframes with ⟨rest, rfl, hrest⟩ | ⟨rest, rfl, hrest⟩
    · rw [List.map_append, List.mem_append, not_or] at hinner
      refine ⟨.pops hslot (vacates.mem hin ?_) hinner.2 hrest flight', vacates.memo i⟩
      exact fun hmem => (List.mem_cons.1 hmem).elim (fun heq => hne flight heq.symm) hinner.1
    · cases rest with
      | nil =>
        rw [List.append_nil] at vacates
        have hframes' : frame' :: outside = [] ++ frame :: outer := hrest.symm
        refine ⟨.pops hslot (vacates.mem hin ?_) List.not_mem_nil hframes' flight', vacates.memo i⟩
        exact fun hmem => (List.mem_cons.1 hmem).elim (fun heq => hne flight heq.symm) hinner
      | cons frame'' rest =>
        obtain ⟨rfl, rfl⟩ := List.cons.inj hrest
        refine ⟨.gone fun hsuffix => ?_, vacates.memo i⟩
        have := hsuffix.length_le
        simp at this
        omega

/-- A step of a call that is on its way leaves the memo of its slot alone, unless it answers the call
    with a value. -/
theorem Call.Stage.moves (hstage : Stage i outer e w) (hwithin : e.Within outer)
    (h : Moves e w e' w') :
    Stage i outer e' w' ∧ (w'.memo? i = w.memo? i ∨ ∃ x, e' = ⟨.answer (.ok x), outer⟩) := by
  cases hstage with
  | requested =>
    cases h with
    | bounces rests => exact ⟨.answered, .inl (rests.memo i)⟩
    | enters flight outside active retains =>
      refine ⟨.innermost flight ?_, .inl (retains.memo i)⟩
      rw [active]
      exact List.mem_append_right _ (List.mem_singleton_self i)
    | goesOn flight | requests flight | fails flight | succeeds flight | givesUp flight =>
      cases flight
  | @innermost c r w hflight hin =>
    cases h with
    | bounces | enters | returns | propagates => cases hflight
    | goesOn flight flight' rests =>
      obtain rfl := Option.some.inj (flight.symm.trans hflight)
      exact ⟨.innermost flight' (rests.active ▸ hin), .inl (rests.memo i)⟩
    | @requests c frame dep frames w w' flight rests =>
      have hslot : frame.slot = i := by
        rw [frame.slot_eq, Option.some.inj (flight.symm.trans hflight)]
      exact ⟨.waiting [] hslot (rests.active ▸ hin) List.not_mem_nil, .inl (rests.memo i)⟩
    | fails flight vacates => exact ⟨.answered, .inl (vacates.memo i)⟩
    | succeeds flight active retains => exact ⟨.answered, .inr ⟨_, rfl⟩⟩
    | @givesUp f c c' inside outside frame w w' flight flight' vacates =>
      refine ⟨.gone fun hsuffix => ?_, .inl (vacates.memo i)⟩
      have := hsuffix.length_le
      simp at this
      omega
  | waiting inner slot inside apart =>
    obtain ⟨hstage, hmemo⟩ := Stage.moves_waiting slot inside apart rfl h
    exact ⟨hstage, .inl hmemo⟩
  | answered => exact absurd rfl (hwithin.2 _)
  | gone hgone => exact absurd hwithin.1 hgone

/-- What others do does not move a call. -/
theorem Call.Stage.meanwhile (hstage : Stage i outer e w) (h : ∀ j ∈ e.held, j ∈ w'.active) :
    Stage i outer e w' := by
  cases hstage with
  | requested => exact .requested
  | innermost flight inside => exact .innermost flight (h i (mem_held_of_flight? flight))
  | waiting inner slot inside apart =>
    refine .waiting inner slot (h i ?_) apart
    rw [held, List.map_append, List.map_cons, slot]
    simp
  | answered => exact .answered
  | gone hgone => exact .gone hgone

namespace Call

variable {own : List (World × World)} {others : List SlotId}

theorem stacked (h : Call p t i outer own e w others) : w.Stacked (e.held ++ others) := by
  induction h with
  | requested stacked => exact stacked
  | step _ _ next ih => exact next.moves.stacked ih
  | meanwhile _ stacked _ => exact stacked

theorem stage (h : Call p t i outer own e w others) : Stage i outer e w := by
  induction h with
  | requested stacked => exact .requested
  | step _ within next ih => exact (ih.moves within next.moves).1
  | meanwhile _ stacked ih =>
    exact ih.meanwhile fun j hj => stacked.mem_iff.2 (List.mem_append_left _ hj)

/-- None of the steps of a call has changed the memo of its slot, unless the call has been answered
    with a value. -/
theorem spares (h : Call p t i outer own e w others) (hvalue : ∀ x, e ≠ ⟨.answer (.ok x), outer⟩) :
    ∀ u ∈ own, u.2.memo? i = u.1.memo? i := by
  induction h with
  | requested => exact fun u hu => absurd hu List.not_mem_nil
  | @step own e e' w w' others call within next ih =>
    intro u hu
    rcases List.mem_append.1 hu with hu | hu
    · exact ih (fun x => within.2 _) u hu
    · obtain rfl := List.mem_singleton.1 hu
      rcases (call.stage.moves within next.moves).2 with hmemo | ⟨x, rfl⟩
      · exact hmemo
      · exact absurd rfl (hvalue x)
  | meanwhile _ _ ih => exact ih hvalue

/-- A call goes on with its evaluation, until it is answered or given up. -/
theorem follows (h : Call p t i outer own e w others) (hreaches : Reaches p t e w e' w') :
    ∃ more e₁ w₁, Call p t i outer (own ++ more) e₁ w₁ others ∧ Reaches p t e₁ w₁ e' w' ∧
      (e₁.Within outer → e₁ = e' ∧ w₁ = w') := by
  obtain ⟨n, hn⟩ := hreaches
  induction n generalizing own e w with
  | zero =>
    cases hn
    exact ⟨[], _, _, by rwa [List.append_nil], .refl _ _, fun _ => ⟨rfl, rfl⟩⟩
  | succ n ih =>
    by_cases hwithin : e.Within outer
    · -- one step further
      have hgoesOn {e₂ : Evaluation} {w₂ : World} (hnext : e.Next p t w e₂ w₂)
          (hrest : e₂.drive p t n w₂ = .running e' w') :=
        ih (h.step hwithin hnext) hrest
      rw [drive] at hn
      cases hnext : e.step p t w with
      | finished r w₂ =>
        rw [hnext] at hn
        cases hn
      | running e₂ w₂ =>
        rw [hnext] at hn
        obtain ⟨more, e₁, w₁, hcall, hrest⟩ := hgoesOn (.inl hnext) hn
        exact ⟨_, e₁, w₁, List.append_assoc .. ▸ hcall, hrest⟩
      | parked e₂ w₂ =>
        rw [hnext] at hn
        obtain ⟨more, e₁, w₁, hcall, hrest⟩ := hgoesOn (.inr hnext) hn
        exact ⟨_, e₁, w₁, List.append_assoc .. ▸ hcall, hrest⟩
    · exact ⟨[], e, w, by rwa [List.append_nil], ⟨n + 1, hn⟩, fun hw => absurd hw hwithin⟩

end Call

/-! ## Slots in progress -/

/-- A slot is in progress for a call with some frames around it. -/
def Evaluation.InProgress (i : SlotId) (outer : List Frame) (e : Evaluation) : Prop :=
  (∃ r, e.control.flight? = some ⟨i, r⟩ ∧ e.frames = outer) ∨
    ∃ frame, frame.slot = i ∧ frame :: outer <:+ e.frames

theorem Evaluation.InProgress.within (h : e.InProgress i outer) : e.Within outer := by
  rcases h with ⟨r, hflight, rfl⟩ | ⟨frame, -, hsuffix⟩
  · refine ⟨List.suffix_refl _, fun r heq => ?_⟩
    rw [heq] at hflight
    cases hflight
  · refine ⟨(List.suffix_cons frame outer).trans hsuffix, ?_⟩
    rintro r rfl
    exact absurd hsuffix.length_le (Nat.not_succ_le_self _)

/-- A slot in progress has been, or its call has just been made. -/
theorem Evaluation.Moves.inProgress (h : Moves e w e' w') (hprogress : e'.InProgress i outer) :
    e.InProgress i outer ∨ e = ⟨.fetch i, outer⟩ := by
  cases h with
  | bounces | fails | succeeds =>
    obtain ⟨r, hflight, -⟩ | hsuffix := hprogress
    · cases hflight
    · exact .inl (.inr hsuffix)
  | enters flight outside active retains =>
    obtain ⟨r, hflight, rfl⟩ | hsuffix := hprogress
    · cases flight.symm.trans hflight
      exact .inr rfl
    · exact .inl (.inr hsuffix)
  | goesOn flight flight' rests =>
    obtain ⟨r, hflight, rfl⟩ | hsuffix := hprogress
    · exact .inl (.inl ⟨r, by rw [flight, ← flight', hflight], rfl⟩)
    · exact .inl (.inr hsuffix)
  | @requests c frame dep frames w w' flight rests =>
    obtain ⟨r, hflight, -⟩ | ⟨frame', hslot, hsuffix⟩ := hprogress
    · cases hflight
    · rcases List.suffix_cons_iff.1 hsuffix with heq | hsuffix
      · obtain ⟨rfl, rfl⟩ := List.cons.inj heq
        refine .inl (.inl ⟨frame'.flight.revision, flight.trans ?_, rfl⟩)
        rw [← hslot, frame'.slot_eq]
      · exact .inl (.inr ⟨frame', hslot, hsuffix⟩)
  | @returns r c frame frames w w' flight rests =>
    obtain ⟨r, hflight, rfl⟩ | ⟨frame', hslot, hsuffix⟩ := hprogress
    · refine .inl (.inr ⟨frame, ?_, List.suffix_refl _⟩)
      rw [frame.slot_eq, Option.some.inj (flight.symm.trans hflight)]
    · exact .inl (.inr ⟨frame', hslot, hsuffix.trans (List.suffix_cons frame frames)⟩)
  | @propagates r error frame frames w w' vacates =>
    obtain ⟨r, hflight, -⟩ | ⟨frame', hslot, hsuffix⟩ := hprogress
    · cases hflight
    · exact .inl (.inr ⟨frame', hslot, hsuffix.trans (List.suffix_cons frame frames)⟩)
  | @givesUp f c c' inside outside frame w w' flight flight' vacates =>
    have hinside : frame :: outside <:+ inside ++ frame :: outside := List.suffix_append ..
    obtain ⟨r, hflight, rfl⟩ | ⟨frame', hslot, hsuffix⟩ := hprogress
    · refine .inl (.inr ⟨frame, ?_, hinside⟩)
      rw [frame.slot_eq, Option.some.inj (flight'.symm.trans hflight)]
    · refine .inl (.inr ⟨frame', hslot, hsuffix.trans ?_⟩)
      exact (List.suffix_cons frame outside).trans hinside

/-- An evaluation has come about by calls: each slot that it has in progress is the slot of a call
    that is on its way. -/
structure Evaluation.ByCalls (p : Program) (t : Token) (e : Evaluation) (w : World)
    (others : List SlotId) : Prop where
  stacked : w.Stacked (e.held ++ others)
  call : ∀ i outer, e.InProgress i outer → ∃ own, Call p t i outer own e w others

namespace Evaluation.ByCalls

variable {others others' : List SlotId}

theorem request (root : SlotId) (h : w.Stacked others) : (request root).ByCalls p t w others where
  stacked := h
  call i outer hprogress := by
    obtain ⟨r, hflight, -⟩ | ⟨frame, -, hsuffix⟩ := hprogress
    · cases hflight
    · exact absurd hsuffix.length_le (by simp [Evaluation.request])

theorem next (h : e.ByCalls p t w others) (hnext : e.Next p t w e' w') :
    e'.ByCalls p t w' others where
  stacked := hnext.moves.stacked h.stacked
  call i outer hprogress := by
    rcases hnext.moves.inProgress hprogress with hbefore | rfl
    · obtain ⟨own, hcall⟩ := h.call i outer hbefore
      exact ⟨_, hcall.step hbefore.within hnext⟩
    · refine ⟨_, (Call.requested h.stacked).step ⟨List.suffix_refl _, ?_⟩ hnext⟩
      intro r heq
      cases heq

theorem meanwhile (h : e.ByCalls p t w others) (hstacked : w'.Stacked (e.held ++ others')) :
    e.ByCalls p t w' others' where
  stacked := hstacked
  call i outer hprogress :=
    let ⟨own, hcall⟩ := h.call i outer hprogress
    ⟨own, hcall.meanwhile hstacked⟩

end Evaluation.ByCalls

end RedGreen
