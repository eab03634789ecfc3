import RedGreen.Proofs.InFlight

set_option autoImplicit false

/-! # The footprint of a step

What a step of an evaluation can touch, whatever the program is: bodies may recover from errors,
yield and cancel, and nothing is assumed of the slots. A step issues no revision, writes no input and
leaves the entry lock alone. It can make one memo another one, that of the innermost slot in
progress, and only if it ends the request for that slot by a value (`Moves.succeeds`). On the active
stack it puts or takes what the flights of the evaluation tell (`Moves.stacked`). -/

namespace RedGreen

variable {p : Program} {t : Token}

namespace World

/-! ## What operations leave alone -/

/-- The revision, the inputs and the entry lock are as they were. -/
structure Persists (w w' : World) : Prop where
  revision : w'.revision = w.revision
  memoize : w'.memoize = w.memoize
  entryLocked : w'.entryLocked = w.entryLocked
  asyncEntry : w'.asyncEntry = w.asyncEntry
  written : ∀ i, w'.written? i = w.written? i

/-- Besides, no memo is another one. -/
structure Retains (w w' : World) : Prop extends Persists w w' where
  memo : ∀ i, w'.memo? i = w.memo? i

/-- Besides, only the memo of one slot may be another one. -/
structure RetainsBut (w : World) (i : SlotId) (w' : World) : Prop extends Persists w w' where
  memo : ∀ j, j ≠ i → w'.memo? j = w.memo? j

/-- Neither a memo nor the active stack is another one. -/
structure Rests (w w' : World) : Prop extends Retains w w' where
  active : w'.active = w.active

/-- No memo is another one, and some slots have left the active stack. -/
structure Vacates (w : World) (ids : List SlotId) (w' : World) : Prop extends Retains w w' where
  active : w'.active = ids.foldl dropInnermost w.active

variable {w w' w'' : World} {i : SlotId}

theorem Retains.refl (w : World) : Retains w w := ⟨⟨rfl, rfl, rfl, rfl, fun _ => rfl⟩, fun _ => rfl⟩

theorem Persists.trans (h : Persists w w') (h' : Persists w' w'') : Persists w w'' where
  revision := h'.revision.trans h.revision
  memoize := h'.memoize.trans h.memoize
  entryLocked := h'.entryLocked.trans h.entryLocked
  asyncEntry := h'.asyncEntry.trans h.asyncEntry
  written i := (h'.written i).trans (h.written i)

theorem Retains.trans (h : Retains w w') (h' : Retains w' w'') : Retains w w'' where
  toPersists := h.toPersists.trans h'.toPersists
  memo i := (h'.memo i).trans (h.memo i)

theorem Retains.but (h : Retains w w') (i : SlotId) : RetainsBut w i w' :=
  ⟨h.toPersists, fun j _ => h.memo j⟩

theorem RetainsBut.trans (h : RetainsBut w i w') (h' : RetainsBut w' i w'') :
    RetainsBut w i w'' where
  toPersists := h.toPersists.trans h'.toPersists
  memo j hj := (h'.memo j hj).trans (h.memo j hj)

theorem Rests.refl (w : World) : Rests w w := ⟨.refl w, rfl⟩

theorem Rests.trans (h : Rests w w') (h' : Rests w' w'') : Rests w w'' :=
  ⟨h.toRetains.trans h'.toRetains, h'.active.trans h.active⟩

theorem Rests.vacates {ids : List SlotId} (h : Rests w w') (h' : Vacates w' ids w'') :
    Vacates w ids w'' :=
  ⟨h.toRetains.trans h'.toRetains, by rw [h'.active, h.active]⟩

/-- A world with the same slots, at the same revision and with the same lock. -/
theorem Rests.of_eq (hslots : w'.slots = w.slots) (hrevision : w'.revision = w.revision)
    (hmemoize : w'.memoize = w.memoize) (hlocked : w'.entryLocked = w.entryLocked)
    (hasync : w'.asyncEntry = w.asyncEntry) (hactive : w'.active = w.active) : Rests w w' where
  revision := hrevision
  memoize := hmemoize
  entryLocked := hlocked
  asyncEntry := hasync
  written i := by rw [System.written?, System.written?, hslots]
  memo i := by rw [System.memo?, System.memo?, hslots]
  active := hactive

theorem rests_note (w : World) (entry : Entry) : Rests w (w.note entry) :=
  .of_eq rfl rfl rfl rfl rfl rfl

theorem rests_log (w : World) (e : LogEvent) : Rests w (w.log e) := w.rests_note _

theorem rests_event (w : World) (e : TraceEvent) : Rests w (w.event e) := w.rests_note _

theorem rests_cancel (w : World) (t : Token) : Rests w (w.cancel t) := .of_eq rfl rfl rfl rfl rfl rfl

theorem rests_allocate (w : World) : Rests w w.allocate.2 := .of_eq rfl rfl rfl rfl rfl rfl

theorem rests_ownCopy (w : World) (v : Value) : Rests w (w.ownCopy v).2 := by
  unfold ownCopy
  split
  · exact w.rests_allocate
  · exact .refl w

theorem retains_setActive (w : World) (active : List SlotId) : Retains w (w.setActive active) :=
  ⟨⟨rfl, rfl, rfl, rfl, fun _ => rfl⟩, fun _ => rfl⟩

theorem vacates_leaveAll (w : World) (ids : List SlotId) : Vacates w ids (w.leaveAll ids) := by
  induction ids generalizing w with
  | nil => exact ⟨.refl w, rfl⟩
  | cons i ids ih =>
    have hleave : Retains w (w.leave i) := by
      unfold leave
      split
      · exact (w.retains_setActive _).trans (rests_log _ _).toRetains
      · exact .refl w
    have hrest := ih (w.leave i)
    refine ⟨hleave.trans hrest.toRetains, hrest.active.trans ?_⟩
    rw [active_leave]
    rfl

theorem vacates_leave (w : World) (i : SlotId) : Vacates w [i] (w.leave i) := w.vacates_leaveAll [i]

/-- A slot enters if it is not in progress already. -/
theorem enter_footprint (w : World) (i : SlotId) :
    (∃ e w', w.enter i = (.error e, w') ∧ Rests w w') ∨
    ∃ w', w.enter i = (.ok (), w') ∧ i ∉ w.active ∧ w'.active = w.active ++ [i] ∧ Retains w w' := by
  unfold enter
  split
  · exact .inl ⟨_, _, rfl, (w.rests_log _).trans (rests_event _ _)⟩
  · exact .inr ⟨_, rfl, ‹_›, rfl, (w.retains_setActive _).trans (rests_log _ _).toRetains⟩

/-! ## Finding slots -/

theorem rests_openCache (w : World) (query : QueryId) (keyType : KeyType) (valueType : ValueType) :
    Rests w (w.openCache query keyType valueType).2 := by
  unfold openCache
  split
  · split <;> exact .refl w
  · exact .of_eq rfl rfl rfl rfl rfl rfl

theorem rests_addSlot (w : World) {fresh : Slot} (hmemo : fresh.memo? = none)
    (hwritten : fresh.written? = none) : Rests w (w.addSlot fresh) := by
  have hslots (i : SlotId) : (w.addSlot fresh).slots[i]? =
      if i < w.slots.length then w.slots[i]? else if i = w.slots.length then some fresh else none := by
    show (w.slots ++ [fresh])[i]? = _
    grind
  refine ⟨⟨⟨rfl, rfl, rfl, rfl, fun i => ?_⟩, fun i => ?_⟩, rfl⟩
  · rw [System.written?, System.written?, hslots]
    grind
  · rw [System.memo?, System.memo?, hslots]
    grind

theorem rests_slotFor (w : World) (valueType : ValueType) {fresh : Slot}
    (hmemo : fresh.memo? = none) (hwritten : fresh.written? = none) :
    Rests w (w.slotFor valueType fresh).2 := by
  have hopen := w.rests_openCache fresh.query fresh.key.type valueType
  unfold slotFor
  split
  · rename_i heq
    rwa [heq] at hopen
  · rename_i w₁ heq
    rw [heq] at hopen
    refine hopen.trans ?_
    unfold obtain
    split
    · split <;> exact .refl w₁
    · exact w₁.rests_addSlot hmemo hwritten

theorem rests_inputSlot (w : World) (query : QueryId) (valueType : ValueType) (key : Key) :
    Rests w (w.inputSlot query valueType key).2 := w.rests_slotFor valueType rfl rfl

theorem rests_derivedSlot (w : World) (query : QueryId) (valueType : ValueType) (key : Key)
    (recompute : Label) (equality : Equivalence) :
    Rests w (w.derivedSlot query valueType key recompute equality).2 :=
  w.rests_slotFor valueType rfl rfl

/-! ## Bodies -/

theorem record_footprint (w : World) (a : Activation) (dep : SlotId) :
    (w.record a dep).1 = a.reading dep ∧ Rests w (w.record a dep).2 := by
  refine ⟨rfl, ?_⟩
  unfold record
  split
  · exact .refl w
  · exact w.rests_log _

/-- An operation leaves the slot and the revision of the run. -/
theorem perform_footprint (w : World) (t : Token) (a : Activation) (op : Operation) :
    (w.perform t a op).2.1.slot = a.slot ∧ (w.perform t a op).2.1.revision = a.revision ∧
      Rests w (w.perform t a op).2.2 := by
  cases op with
  | read query valueType key =>
    have hslot := w.rests_inputSlot query valueType key
    simp only [perform, read]
    generalize w.inputSlot query valueType key = found at hslot
    obtain ⟨found, w₁⟩ := found
    cases found with
    | error e => exact ⟨rfl, rfl, hslot⟩
    | ok dep =>
      obtain ⟨hreading, hrecord⟩ := w₁.record_footprint a dep
      simp only [hreading]
      split <;> exact ⟨rfl, rfl, hslot.trans hrecord⟩
  | check | revision | slot => exact ⟨rfl, rfl, .refl w⟩
  | cancel => exact ⟨rfl, rfl, w.rests_cancel t⟩
  | allocate => exact ⟨rfl, rfl, w.rests_allocate⟩

/-- The outcomes of a request for a slot that has not entered yet. -/
inductive Starts (w : World) (i : SlotId) : Control × World → Prop
  | answers {r : Except QueryError Stamped} {w' : World} (rests : Rests w w') :
    Starts w i (.answer r, w')
  | enters {c : Control} {w' : World} (flight : c.flight? = some ⟨i, w.revision⟩)
    (outside : i ∉ w.active) (active : w'.active = w.active ++ [i]) (retains : Retains w w') :
    Starts w i (c, w')

/-- The outcomes of a step for a slot in progress. -/
inductive Settles (w : World) (f : Flight) : Control × World → Prop
  | goesOn {c : Control} {w' : World} (flight : c.flight? = some f) (rests : Rests w w') :
    Settles w f (c, w')
  | fails {e : QueryError} {w' : World} (vacates : Vacates w [f.slot] w') :
    Settles w f (.answer (.error e), w')
  | succeeds {x : Stamped} {w' : World} (active : w'.active = dropInnermost w.active f.slot)
    (retains : RetainsBut w f.slot w') : Settles w f (.answer (.ok x), w')

theorem settles_fail (w : World) (f : Flight) (e : QueryError) : Settles w f (w.fail f.slot e) :=
  .fails (((w.rests_log _).trans (rests_event _ _)).vacates (vacates_leave _ _))

theorem settles_succeed (w : World) (f : Flight) (result : Stamped) (outcome : Outcome) :
    Settles w f (w.succeed f.slot result outcome) := by
  have hleave := (w.rests_event (.queryEnd (w.info f.slot) outcome)).vacates (vacates_leave _ f.slot)
  exact .succeeds hleave.active (hleave.toRetains.but f.slot)

theorem retainsBut_setMemo (w : World) (i : SlotId) (memo : Option Memo) :
    RetainsBut w i (w.setMemo i memo) where
  revision := rfl
  memoize := rfl
  entryLocked := rfl
  asyncEntry := rfl
  written j := by
    rw [System.written?, System.written?, slots_setMemo]
    split
    · cases w.slots[j]? <;> simp
    · rfl
  memo j hj := by rw [System.memo?, System.memo?, slots_setMemo, if_neg (Ne.symm hj)]

/-- A request that ends by a value after its memo was replaced. -/
theorem RetainsBut.settles {f : Flight} (h : RetainsBut w f.slot w') (hactive : w'.active = w.active)
    {w'' : World} (h' : Rests w' w'') (result : Stamped) (outcome : Outcome) :
    Settles w f (w''.succeed f.slot result outcome) := by
  have hleave := (h'.trans (rests_event _ (.queryEnd (w''.info f.slot) outcome))).vacates
    (vacates_leave _ f.slot)
  refine .succeeds ?_ (h.trans (hleave.toRetains.but f.slot))
  rw [← hactive]
  exact hleave.active

theorem settles_commit (w : World) (a : Activation) (value : Value) :
    Settles w ⟨a.slot, a.revision⟩ (w.commit a value) := by
  unfold commit
  split
  · simp only
    split
    · exact (w.retainsBut_setMemo a.slot _).settles (f := ⟨a.slot, a.revision⟩) rfl (rests_log _ _)
        _ _
    · exact (w.retainsBut_setMemo a.slot _).settles (f := ⟨a.slot, a.revision⟩) rfl (.refl _) _ _
  · exact w.settles_succeed ⟨a.slot, a.revision⟩ _ _

theorem settles_finish (w : World) (t : Token) (a : Activation) (result : Except QueryError Value) :
    Settles w ⟨a.slot, a.revision⟩ (w.finish t a result) := by
  unfold finish
  split
  · exact w.settles_fail ⟨a.slot, a.revision⟩ _
  · split
    · split
      · exact w.settles_fail ⟨a.slot, a.revision⟩ _
      · exact .fails (w.vacates_leave a.slot)
    · split
      · exact w.settles_commit a _
      · exact w.settles_succeed ⟨a.slot, a.revision⟩ _ _

theorem startBody_footprint (w : World) (p : Program) (i : SlotId) (r : Revision) :
    ∃ body w', w.startBody p i r = (.body ⟨i, r, []⟩ body, w') ∧ Rests w w' := by
  unfold startBody
  split
  · exact ⟨_, _, rfl, w.rests_note _⟩
  · exact ⟨_, _, rfl, .refl w⟩

theorem settles_compute (w : World) (p : Program) (t : Token) (f : Flight) :
    Settles w f (w.compute p t f.slot f.revision) := by
  unfold compute
  split
  · exact w.settles_fail f _
  · have hlog := w.rests_log (.recompute (w.info f.slot) f.revision)
    obtain ⟨body, w', hstart, hrests⟩ :=
      (w.log (.recompute (w.info f.slot) f.revision)).startBody_footprint p f.slot f.revision
    rw [hstart]
    exact .goesOn rfl (hlog.trans hrests)

theorem touched_footprint (w : World) (t : Token) (walk : Walk) (dep : SlotId)
    (changedAt : Revision) :
    (∃ e w', w.touched t walk dep changedAt = (.answer (.error e), w') ∧
      Vacates w [walk.slot] w') ∨
    ∃ c w', w.touched t walk dep changedAt = (c, w') ∧
      c.flight? = some ⟨walk.slot, walk.revision⟩ ∧ Rests w w' := by
  unfold touched
  split
  · exact .inl ⟨_, _, rfl,
      ((w.rests_log _).trans (rests_event _ _)).vacates (vacates_leave _ _)⟩
  · split
    · exact .inr ⟨_, _, rfl, rfl, w.rests_log _⟩
    · exact .inr ⟨_, _, rfl, rfl, .refl w⟩

theorem settles_verify (w : World) (walk : Walk) :
    Settles w ⟨walk.slot, walk.revision⟩ (w.verify walk) := by
  unfold verify
  split
  · exact (w.retainsBut_setMemo walk.slot _).settles (f := ⟨walk.slot, walk.revision⟩) rfl
      (rests_log _ _) _ _
  · exact .goesOn rfl (.refl w)

/-! ## Requests -/

theorem starts_start (w : World) (i : SlotId) {c : Control} (hc : c.flight? = some ⟨i, w.revision⟩) :
    Starts w i (w.start i c) := by
  unfold start
  rcases w.enter_footprint i with ⟨e, w', henter, hrests⟩ | ⟨w', henter, hout, hactive, hretains⟩
  · rw [henter]
    exact .answers hrests
  · rw [henter]
    exact .enters hc hout hactive (hretains.trans (rests_event _ _).toRetains)

theorem starts_beginMemoized (w : World) (i : SlotId) : Starts w i (w.beginMemoized i) := by
  unfold beginMemoized
  split
  · split
    · exact .answers ((w.rests_log _).trans (rests_event _ _))
    · exact w.starts_start i rfl
  · exact w.starts_start i rfl

theorem starts_beginUncached (w : World) (p : Program) (t : Token) (i : SlotId) :
    Starts w i (w.beginUncached p t i) := by
  unfold beginUncached
  rcases w.enter_footprint i with ⟨e, w', henter, hrests⟩ | ⟨w', henter, hout, hactive, hretains⟩
  · rw [henter]
    exact .answers hrests
  · rw [henter]
    simp only
    split
    · -- a request that was cancelled leaves as it has entered
      have hleave := w'.vacates_leave i
      refine .answers ⟨hretains.trans hleave.toRetains, hleave.active.trans ?_⟩
      rw [hactive]
      exact dropInnermost_concat _ _
    · obtain ⟨body, w'', hstart, hrests⟩ :=
        (w'.log (.computeUncached (w'.info i) w'.revision)).startBody_footprint p i w'.revision
      have hquiet := (w'.rests_log (.computeUncached (w'.info i) w'.revision)).trans hrests
      rw [hstart]
      refine .enters ?_ hout (hquiet.active.trans hactive) (hretains.trans hquiet.toRetains)
      rw [hretains.revision]
      rfl

theorem starts_fetch (w : World) (p : Program) (t : Token) (i : SlotId) :
    Starts w i (w.fetch p t i) := by
  unfold fetch
  split
  · exact w.starts_beginMemoized i
  · exact w.starts_beginUncached p t i

end World

/-! ## The step -/

namespace Evaluation

/-- The next step leads to another point of the evaluation, which may be parked there. -/
def Next (p : Program) (t : Token) (e : Evaluation) (w : World) (e' : Evaluation) (w' : World) :
    Prop :=
  e.step p t w = .running e' w' ∨ e.step p t w = .parked e' w'

/-- What a step does to the control, the frames and the world, whatever the program is. -/
inductive Moves : Evaluation → World → Evaluation → World → Prop
  /-- A requested slot is answered as it is, or cannot enter. -/
  | bounces {i : SlotId} {r : Except QueryError Stamped} {frames : List Frame} {w w' : World}
    (rests : w.Rests w') : Moves ⟨.fetch i, frames⟩ w ⟨.answer r, frames⟩ w'
  | enters {i : SlotId} {c : Control} {frames : List Frame} {w w' : World}
    (flight : c.flight? = some ⟨i, w.revision⟩) (outside : i ∉ w.active)
    (active : w'.active = w.active ++ [i]) (retains : w.Retains w') :
    Moves ⟨.fetch i, frames⟩ w ⟨c, frames⟩ w'
  | goesOn {f : Flight} {c c' : Control} {frames : List Frame} {w w' : World}
    (flight : c.flight? = some f) (flight' : c'.flight? = some f) (rests : w.Rests w') :
    Moves ⟨c, frames⟩ w ⟨c', frames⟩ w'
  /-- A slot in progress waits for another one. -/
  | requests {c : Control} {frame : Frame} {dep : SlotId} {frames : List Frame} {w w' : World}
    (flight : c.flight? = some frame.flight) (rests : w.Rests w') :
    Moves ⟨c, frames⟩ w ⟨.fetch dep, frame :: frames⟩ w'
  | fails {f : Flight} {c : Control} {error : QueryError} {frames : List Frame} {w w' : World}
    (flight : c.flight? = some f) (vacates : w.Vacates [f.slot] w') :
    Moves ⟨c, frames⟩ w ⟨.answer (.error error), frames⟩ w'
  | succeeds {f : Flight} {c : Control} {x : Stamped} {frames : List Frame} {w w' : World}
    (flight : c.flight? = some f) (active : w'.active = dropInnermost w.active f.slot)
    (retains : w.RetainsBut f.slot w') : Moves ⟨c, frames⟩ w ⟨.answer (.ok x), frames⟩ w'
  | returns {r : Except QueryError Stamped} {c : Control} {frame : Frame} {frames : List Frame}
    {w w' : World} (flight : c.flight? = some frame.flight) (rests : w.Rests w') :
    Moves ⟨.answer r, frame :: frames⟩ w ⟨c, frames⟩ w'
  /-- A revalidation fails with its dependency. -/
  | propagates {r : Except QueryError Stamped} {error : QueryError} {frame : Frame}
    {frames : List Frame} {w w' : World} (vacates : w.Vacates [frame.slot] w') :
    Moves ⟨.answer r, frame :: frames⟩ w ⟨.answer (.error error), frames⟩ w'
  /-- A caller that does not wait gives up its callee and everything in progress inside. -/
  | givesUp {f : Flight} {c c' : Control} {inside outside : List Frame} {frame : Frame}
    {w w' : World} (flight : c.flight? = some f) (flight' : c'.flight? = some frame.flight)
    (vacates : w.Vacates (f.slot :: inside.map Frame.slot) w') :
    Moves ⟨c, inside ++ frame :: outside⟩ w ⟨c', outside⟩ w'

variable {w w' : World}

/-- A step that does not park leads to one point only. -/
theorem Next.eq_of_running {e e₁ e' : Evaluation} {w₁ : World} (hnext : e.Next p t w e' w')
    (h : e.step p t w = .running e₁ w₁) : e' = e₁ ∧ w' = w₁ := by
  rcases hnext with hnext | hnext
  · cases hnext.symm.trans h
    exact ⟨rfl, rfl⟩
  · cases hnext.symm.trans h

theorem eq_of_resume {frames : List Frame} {out : Control × World} {e' : Evaluation}
    (h : resume frames out = .running e' w' ∨ resume frames out = .parked e' w') :
    e' = ⟨out.1, frames⟩ ∧ w' = out.2 := by
  rcases h with h | h <;> cases h
  exact ⟨rfl, rfl⟩

theorem Moves.of_settles {f : Flight} {c : Control} {frames : List Frame} {out : Control × World}
    (hc : c.flight? = some f) (h : w.Settles f out) : Moves ⟨c, frames⟩ w ⟨out.1, frames⟩ out.2 := by
  cases h with
  | goesOn flight rests => exact .goesOn hc flight rests
  | fails vacates => exact .fails hc vacates
  | succeeds active retains => exact .succeeds hc active retains

theorem moves_stepBody {a : Activation} {body : Body} {frames : List Frame} {e' : Evaluation}
    (h : stepBody p t a body frames w = .running e' w' ∨
      stepBody p t a body frames w = .parked e' w') : Moves ⟨.body a body, frames⟩ w e' w' := by
  have hflight (b : Body) : (Control.body a b).flight? = some ⟨a.slot, a.revision⟩ := rfl
  cases body with
  | done result =>
    obtain ⟨rfl, rfl⟩ := eq_of_resume h
    exact .of_settles (hflight _) (w.settles_finish t a result)
  | perform op next =>
    obtain ⟨hslot, hrevision, hrests⟩ := w.perform_footprint t a op
    simp only [stepBody] at h
    generalize w.perform t a op = out at h hslot hrevision hrests
    rcases h with h | h <;> cases h
    exact .goesOn (hflight _) (by rw [Control.flight?, hslot, hrevision]) hrests
  | call mode label key next =>
    have hslot := w.rests_derivedSlot (p label).id (p label).valueType key label (p label).equality
    simp only [stepBody, stepCall] at h
    generalize w.derivedSlot (p label).id (p label).valueType key label (p label).equality = found
      at h hslot
    obtain ⟨found, w₁⟩ := found
    cases found with
    | error e =>
      rcases h with h | h <;> cases h
      exact .goesOn (hflight _) (hflight _) hslot
    | ok callee =>
      rcases h with h | h <;> cases h
      exact .requests rfl
        (hslot.trans (w₁.record_footprint a callee).2)
  | yield next =>
    simp only [stepBody, stepYield] at h
    cases hsplit : splitAtImmediate frames with
    | none =>
      rw [hsplit] at h
      rcases h with h | h <;> cases h
      exact .goesOn (hflight _) (hflight _) (.refl w)
    | some split =>
      obtain ⟨inside, caller, outside⟩ := split
      obtain ⟨rfl, -⟩ := eq_append_of_splitAtImmediate hsplit
      rw [hsplit] at h
      rcases h with h | h <;> cases h
      exact .givesUp (hflight _) rfl (w.vacates_leaveAll _)

/-- Every step is one of the moves. -/
theorem Next.moves {e e' : Evaluation} (h : e.Next p t w e' w') : Moves e w e' w' := by
  obtain ⟨control, frames⟩ := e
  cases control with
  | fetch i =>
    have hstarts := w.starts_fetch p t i
    obtain ⟨rfl, rfl⟩ := eq_of_resume h
    generalize w.fetch p t i = out at hstarts
    cases hstarts with
    | answers rests => exact .bounces rests
    | enters flight outside active retains => exact .enters flight outside active retains
  | walk walk =>
    simp only [Next, step, stepWalk] at h
    split at h
    · obtain ⟨rfl, rfl⟩ := eq_of_resume h
      exact .of_settles rfl (w.settles_verify walk)
    · rename_i dep rest hrest
      split at h
      · rcases h with h | h <;> cases h
        exact .requests rfl (.refl w)
      · obtain ⟨rfl, rfl⟩ := eq_of_resume h
        rcases w.touched_footprint t { walk with rest } dep (w.changedAt dep) with
          ⟨e, w', htouched, hvacates⟩ | ⟨c, w', htouched, hflight, hrests⟩
        · rw [htouched]
          exact .fails rfl hvacates
        · rw [htouched]
          exact .goesOn rfl hflight hrests
  | compute i r =>
    obtain ⟨rfl, rfl⟩ := eq_of_resume h
    exact .of_settles rfl (w.settles_compute p t ⟨i, r⟩)
  | body a body => exact moves_stepBody h
  | answer r =>
    cases frames with
    | nil => rcases h with h | h <;> cases h
    | cons frame frames =>
      cases frame with
      | touching walk dep =>
        cases r with
        | error e =>
          obtain ⟨rfl, rfl⟩ := eq_of_resume h
          exact .propagates (((w.rests_log _).trans (World.rests_event _ _)).vacates
            (World.vacates_leave _ _))
        | ok stamped =>
          obtain ⟨rfl, rfl⟩ := eq_of_resume h
          rcases w.touched_footprint t walk dep stamped.changedAt with
            ⟨e, w', htouched, hvacates⟩ | ⟨c, w', htouched, hflight, hrests⟩
          · rw [htouched]
            exact .propagates hvacates
          · rw [htouched]
            exact .returns hflight hrests
      | calling caller =>
        rcases h with h | h <;> cases h
        exact .returns rfl (.refl w)

end Evaluation

/-! ## The active stack -/

theorem perm_dropInnermost {active rest : List SlotId} {i : SlotId} (h : active.Perm (i :: rest)) :
    (dropInnermost active i).Perm rest := by
  have hreverse : active.reverse.Perm (i :: rest) := (List.reverse_perm active).trans h
  refine (List.reverse_perm _).trans ?_
  simpa using hreverse.erase i

/-- The active stack lists exactly the given slots, each once. -/
structure World.Stacked (w : World) (slots : List SlotId) : Prop where
  nodup : slots.Nodup
  perm : w.active.Perm slots

namespace World.Stacked

variable {w w' : World} {slots slots' : List SlotId}

theorem mem_iff (h : w.Stacked slots) {i : SlotId} : i ∈ w.active ↔ i ∈ slots := h.perm.mem_iff

theorem of_perm (h : w.Stacked slots) (hperm : slots.Perm slots') : w.Stacked slots' :=
  ⟨hperm.nodup_iff.1 h.nodup, h.perm.trans hperm⟩

theorem of_active (h : w.Stacked slots) (hactive : w'.active = w.active) : w'.Stacked slots :=
  ⟨h.nodup, hactive ▸ h.perm⟩

theorem enter (h : w.Stacked slots) {i : SlotId} (hout : i ∉ w.active)
    (hactive : w'.active = w.active ++ [i]) : w'.Stacked (i :: slots) where
  nodup := List.nodup_cons.2 ⟨fun hi => hout (h.mem_iff.2 hi), h.nodup⟩
  perm := by
    rw [hactive]
    exact (List.perm_append_singleton i w.active).trans (h.perm.cons i)

theorem vacates (ids : List SlotId) (h : w.Stacked (ids ++ slots))
    (hactive : w'.active = ids.foldl dropInnermost w.active) : w'.Stacked slots := by
  refine ⟨(List.nodup_append.1 h.nodup).2.1, ?_⟩
  have hperm := h.perm
  rw [hactive]
  clear h hactive
  generalize w.active = active at hperm
  induction ids generalizing active with
  | nil => exact hperm
  | cons i ids ih => exact ih _ (perm_dropInnermost hperm)

end World.Stacked

namespace Evaluation

/-- A step keeps the active stack in step with the slots that the evaluation holds. -/
theorem Moves.stacked {e e' : Evaluation} {w w' : World} (h : Moves e w e' w') {others : List SlotId}
    (hstacked : w.Stacked (e.held ++ others)) : w'.Stacked (e'.held ++ others) := by
  simp only [held_eq, flights] at hstacked ⊢
  cases h with
  | bounces rests => exact hstacked.of_active rests.active
  | enters flight outside active retains =>
    simp only [flight]
    exact hstacked.enter outside active
  | goesOn flight flight' rests =>
    simp only [flight, flight'] at hstacked ⊢
    exact hstacked.of_active rests.active
  | requests flight rests =>
    simp only [flight] at hstacked
    exact hstacked.of_active rests.active
  | fails flight vacates =>
    simp only [flight] at hstacked
    exact hstacked.vacates [_] vacates.active
  | succeeds flight active retains =>
    simp only [flight] at hstacked
    exact hstacked.vacates [_] active
  | returns flight rests =>
    simp only [flight]
    exact hstacked.of_active rests.active
  | @propagates r error frame frames w w' vacates =>
    refine World.Stacked.vacates [frame.slot] ?_ vacates.active
    simpa [Control.flight?, Frame.slot_eq] using hstacked
  | @givesUp f c c' inside outside frame w w' flight flight' vacates =>
    have hinside : inside.map Frame.slot = inside.map fun frame => frame.flight.slot :=
      List.map_congr_left fun frame _ => frame.slot_eq
    refine World.Stacked.vacates (f.slot :: inside.map Frame.slot) ?_ vacates.active
    simpa [flight, flight', hinside, Function.comp_def] using hstacked

/-- A flight that a step adds has begun at the present revision. -/
theorem Moves.flights {e e' : Evaluation} {w w' : World} (h : Moves e w e' w') {f : Flight}
    (hf : f ∈ e'.flights) : f ∈ e.flights ∨ f.revision = w.revision := by
  simp only [Evaluation.flights] at hf ⊢
  cases h with
  | bounces rests => exact .inl hf
  | enters flight =>
    rw [flight] at hf
    exact (List.mem_cons.1 hf).elim (fun heq => .inr (heq ▸ rfl)) .inl
  | goesOn flight flight' => exact .inl (by rwa [flight, ← flight'])
  | requests flight => exact .inl (by rwa [flight])
  | fails | succeeds | propagates => exact .inl (by simp_all [Control.flight?])
  | returns flight =>
    rw [flight] at hf
    exact .inl hf
  | givesUp flight flight' => exact .inl (by simp_all)

end Evaluation

end RedGreen
