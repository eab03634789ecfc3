import RedGreen.Proofs.Directory

set_option autoImplicit false

/-! # What an evaluation turns to

One inversion of the step of an evaluation (`Next.turns`), which keeps what concerns the bodies and the
recorded dependencies: which body goes on and with which rest, what is left of a revalidation, which
slot a call or a read has found. It leaves out what happens to the values, to the active stack and to
the journal. Nothing is assumed of the program or of the world. -/

namespace RedGreen

open Evaluation

variable {p : Program} {t : Token} {w w' : World}

namespace World

/-- The slot that is found or made for a fresh one belongs to its node. -/
theorem node?_of_slotFor {valueType : ValueType} {fresh : Slot} {i : SlotId}
    (h : w.slotFor valueType fresh = (.ok i, w')) : w'.node? i = some fresh.node := by
  unfold slotFor at h
  split at h
  · cases h
  · rename_i w₁ hopen
    unfold World.obtain at h
    split at h
    · rename_i j hfound
      split at h
      · cases h
        exact System.node?_of_find? hfound
      · cases h
    · cases h
      show ((w₁.slots ++ [fresh])[w₁.slots.length]?).map Slot.node = some fresh.node
      simp

/-- The body that starts for a slot: the one that it is bound to, or an error at once. -/
def Starts.Body (p : Program) (w : World) (i : SlotId) (b : Body) : Prop :=
  (∃ slot d, w.slots[i]? = some slot ∧ slot.content = .derived d ∧
    b = (p d.recompute).body slot.key) ∨ ∃ e, b = .done (.error e)

theorem startBody_turns (w : World) (p : Program) (i : SlotId) (r : Revision) :
    ∃ b, (w.startBody p i r).1 = .body ⟨i, r, []⟩ b ∧ Starts.Body p w i b := by
  unfold startBody
  split
  · exact ⟨_, rfl, .inl ⟨_, _, ‹_›, rfl, rfl⟩⟩
  · exact ⟨_, rfl, .inr ⟨_, rfl⟩⟩

end World

namespace Evaluation

/-- What a step makes of the control and the frames. -/
inductive Turns (p : Program) : Evaluation → World → Evaluation → World → Prop
  | answers {c : Control} {r : Except QueryError Stamped} {frames : List Frame} {w w' : World}
    (unanswered : ∀ r, c ≠ .answer r) : Turns p ⟨c, frames⟩ w ⟨.answer r, frames⟩ w'
  | revalidates {i : SlotId} {m : Memo} {r : Revision} {frames : List Frame} {w w' : World}
    (memo : w.memo? i = some m) :
    Turns p ⟨.fetch i, frames⟩ w ⟨.walk ⟨i, r, m.verifiedAt, m.deps⟩, frames⟩ w'
  | misses {i : SlotId} {r : Revision} {frames : List Frame} {w w' : World} :
    Turns p ⟨.fetch i, frames⟩ w ⟨.compute i r, frames⟩ w'
  | fetches {i : SlotId} {r : Revision} {b : Body} {frames : List Frame} {w w' : World}
    (starts : World.Starts.Body p w i b) : Turns p ⟨.fetch i, frames⟩ w ⟨.body ⟨i, r, []⟩ b, frames⟩ w'
  | computes {i : SlotId} {r : Revision} {b : Body} {frames : List Frame} {w w' : World}
    (starts : World.Starts.Body p w i b) :
    Turns p ⟨.compute i r, frames⟩ w ⟨.body ⟨i, r, []⟩ b, frames⟩ w'
  | outdates {walk : Walk} {frames : List Frame} {w w' : World} :
    Turns p ⟨.walk walk, frames⟩ w ⟨.compute walk.slot walk.revision, frames⟩ w'
  | passes {walk : Walk} {dep : SlotId} {rest : List SlotId} {frames : List Frame} {w w' : World}
    (next : walk.rest = dep :: rest) :
    Turns p ⟨.walk walk, frames⟩ w ⟨.walk { walk with rest }, frames⟩ w'
  | touches {walk : Walk} {dep : SlotId} {rest : List SlotId} {frames : List Frame} {w w' : World}
    (next : walk.rest = dep :: rest) :
    Turns p ⟨.walk walk, frames⟩ w ⟨.fetch dep, .touching { walk with rest } dep :: frames⟩ w'
  /-- A read has recorded its slot; no other operation records one. -/
  | performs {a a' : Activation} {op : Operation} {next : op.Reply → Body} (reply : op.Reply)
    {frames : List Frame} {w w' : World} (slot : a'.slot = a.slot)
    (deps : ∀ j ∈ a'.deps, j ∈ a.deps ∨ ∃ query valueType key, op = .read query valueType key ∧
      w'.node? j = some ⟨query, key⟩) :
    Turns p ⟨.body a (.perform op next), frames⟩ w ⟨.body a' (next reply), frames⟩ w'
  | misfits {a : Activation} {mode : CallMode} {label : Label} {key : Key}
    {next : Except QueryError Value → Body} (e : QueryError) {frames : List Frame} {w w' : World} :
    Turns p ⟨.body a (.call mode label key next), frames⟩ w ⟨.body a (next (.error e)), frames⟩ w'
  | calls {a : Activation} {mode : CallMode} {label : Label} {key : Key}
    {next : Except QueryError Value → Body} {callee : SlotId} {frames : List Frame} {w w' : World}
    (found : w'.node? callee = some (p.node label key)) :
    Turns p ⟨.body a (.call mode label key next), frames⟩ w
      ⟨.fetch callee, .calling ⟨{ a with deps := recordOnce callee a.deps }, mode, callee, next⟩ ::
        frames⟩ w'
  | yields {a : Activation} {next : Body} {frames : List Frame} {w w' : World} :
    Turns p ⟨.body a (.yield next), frames⟩ w ⟨.body a next, frames⟩ w'
  /-- A caller further out gives up its callee. -/
  | givesUp {a : Activation} {next : Body} {inside outside : List Frame} {caller : Caller}
    (reply : Except QueryError Value) {w w' : World} :
    Turns p ⟨.body a (.yield next), inside ++ .calling caller :: outside⟩ w
      ⟨.body caller.activation (caller.next reply), outside⟩ w'
  | propagates {r : Except QueryError Stamped} {walk : Walk} {dep : SlotId} {frames : List Frame}
    (e : QueryError) {w w' : World} :
    Turns p ⟨.answer r, .touching walk dep :: frames⟩ w ⟨.answer (.error e), frames⟩ w'
  | finds {r : Except QueryError Stamped} {walk : Walk} {dep : SlotId} {frames : List Frame}
    {w w' : World} :
    Turns p ⟨.answer r, .touching walk dep :: frames⟩ w
      ⟨.compute walk.slot walk.revision, frames⟩ w'
  | goesOn {r : Except QueryError Stamped} {walk : Walk} {dep : SlotId} {frames : List Frame}
    {w w' : World} : Turns p ⟨.answer r, .touching walk dep :: frames⟩ w ⟨.walk walk, frames⟩ w'
  | returns {r : Except QueryError Stamped} {caller : Caller} {frames : List Frame}
    (reply : Except QueryError Value) {w w' : World} :
    Turns p ⟨.answer r, .calling caller :: frames⟩ w
      ⟨.body caller.activation (caller.next reply), frames⟩ w'

/-! ## Operations -/

theorem turns_fetch (w w' : World) (i : SlotId) (frames : List Frame) :
    Turns p ⟨.fetch i, frames⟩ w ⟨(w.fetch p t i).1, frames⟩ w' := by
  have hstart (c : Control) (hc : Turns p ⟨.fetch i, frames⟩ w ⟨c, frames⟩ w') :
      Turns p ⟨.fetch i, frames⟩ w ⟨(w.start i c).1, frames⟩ w' := by
    unfold World.start
    split
    · exact .answers nofun
    · exact hc
  unfold World.fetch
  split
  · unfold World.beginMemoized
    split
    · split
      · exact .answers nofun
      · exact hstart _ (.revalidates ‹_›)
    · exact hstart _ .misses
  · unfold World.beginUncached
    split
    · exact .answers nofun
    · rename_i w₁ henter
      have hslots : w₁.slots = w.slots := by
        unfold World.enter at henter
        split at henter
        · cases henter
        · cases henter
          rfl
      split
      · exact .answers nofun
      · obtain ⟨b, hbody, hstarts⟩ :=
          (w₁.log (.computeUncached (w₁.info i) w₁.revision)).startBody_turns p i w₁.revision
        rw [hbody]
        have hslots' : (w₁.log (.computeUncached (w₁.info i) w₁.revision)).slots = w.slots := hslots
        rw [World.Starts.Body, hslots'] at hstarts
        exact .fetches hstarts

theorem turns_compute (w w' : World) (i : SlotId) (r : Revision) (frames : List Frame) :
    Turns p ⟨.compute i r, frames⟩ w ⟨(w.compute p t i r).1, frames⟩ w' := by
  unfold World.compute
  split
  · exact .answers nofun
  · obtain ⟨b, hbody, hstarts⟩ := (w.log (.recompute (w.info i) r)).startBody_turns p i r
    rw [hbody]
    exact .computes hstarts

theorem turns_verify (w w' : World) (walk : Walk) (frames : List Frame) :
    Turns p ⟨.walk walk, frames⟩ w ⟨(w.verify walk).1, frames⟩ w' := by
  unfold World.verify
  split
  · exact .answers nofun
  · exact .outdates

/-- A run that ends is answered. -/
theorem exists_answer_of_finish (w : World) (t : Token) (a : Activation)
    (result : Except QueryError Value) : ∃ r, (w.finish t a result).1 = .answer r := by
  unfold World.finish
  split
  · exact ⟨_, rfl⟩
  · split
    · split <;> exact ⟨_, rfl⟩
    · split
      · unfold World.commit
        split
        · simp only
          split <;> exact ⟨_, rfl⟩
        · exact ⟨_, rfl⟩
      · exact ⟨_, rfl⟩

/-- What a running body has recorded after it has performed an operation. -/
theorem deps_perform (p : Program) (w : World) (t : Token) (a : Activation) (op : Operation) :
    (w.perform t a op).2.1.slot = a.slot ∧
      ∀ j ∈ (w.perform t a op).2.1.deps, j ∈ a.deps ∨ ∃ query valueType key,
        op = .read query valueType key ∧ (w.perform t a op).2.2.node? j = some ⟨query, key⟩ := by
  cases op with
  | read query valueType key =>
    simp only [World.perform, World.read]
    generalize hfound : w.inputSlot query valueType key = found
    obtain ⟨found, w₁⟩ := found
    cases found with
    | error e => exact ⟨rfl, fun j hj => .inl hj⟩
    | ok dep =>
      have hnode : (w₁.record a dep).2.node? dep = some ⟨query, key⟩ :=
        (w₁.edits_record (p := p) a dep).continues.node? (World.node?_of_slotFor hfound)
      have hrecorded (j : SlotId) (hj : j ∈ (w₁.record a dep).1.deps) :
          j ∈ a.deps ∨ ∃ query' valueType' key', Operation.read query valueType key =
            .read query' valueType' key' ∧ (w₁.record a dep).2.node? j = some ⟨query', key'⟩ := by
        rcases mem_recordOnce.1 hj with hj | rfl
        · exact .inl hj
        · exact .inr ⟨query, valueType, key, rfl, hnode⟩
      simp only
      split <;> exact ⟨rfl, hrecorded⟩
  | check | cancel | revision | slot | allocate => exact ⟨rfl, fun j hj => .inl hj⟩

/-! ## Steps -/

theorem turns_of_stepBody {a : Activation} {body : Body} {frames : List Frame} {e' : Evaluation}
    (h : stepBody p t a body frames w = .running e' w' ∨
      stepBody p t a body frames w = .parked e' w') : Turns p ⟨.body a body, frames⟩ w e' w' := by
  cases body with
  | done result =>
    obtain ⟨rfl, -⟩ := eq_of_resume h
    obtain ⟨r, hanswer⟩ := exists_answer_of_finish w t a result
    rw [hanswer]
    exact .answers nofun
  | perform op next =>
    obtain ⟨hslot, hdeps⟩ := deps_perform p w t a op
    simp only [stepBody, Progress.running.injEq, reduceCtorEq, or_false] at h
    obtain ⟨rfl, rfl⟩ := h
    exact .performs _ hslot hdeps
  | call mode label key next =>
    simp only [stepBody, stepCall] at h
    split at h
    · simp only [Progress.running.injEq, reduceCtorEq, or_false] at h
      obtain ⟨rfl, rfl⟩ := h
      exact .misfits _
    · rename_i callee w₁ hfound
      simp only [Progress.running.injEq, reduceCtorEq, or_false] at h
      obtain ⟨rfl, rfl⟩ := h
      have hnode : w₁.node? callee = some (p.node label key) := World.node?_of_slotFor hfound
      exact .calls ((w₁.edits_record (p := p) a callee).continues.node? hnode)
  | yield next =>
    simp only [stepBody, stepYield] at h
    split at h
    · simp only [Progress.parked.injEq, reduceCtorEq, false_or] at h
      obtain ⟨rfl, rfl⟩ := h
      exact .yields
    · rename_i inside caller outside hsplit
      simp only [Progress.running.injEq, reduceCtorEq, or_false] at h
      obtain ⟨rfl, rfl⟩ := h
      obtain ⟨rfl, -⟩ := eq_append_of_splitAtImmediate hsplit
      exact .givesUp _

/-- Every step turns an evaluation in one of these ways. -/
theorem Next.turns {e e' : Evaluation} (h : e.Next p t w e' w') : Turns p e w e' w' := by
  obtain ⟨control, frames⟩ := e
  cases control with
  | fetch i =>
    obtain ⟨rfl, -⟩ := eq_of_resume h
    exact turns_fetch w w' i frames
  | compute i r =>
    obtain ⟨rfl, -⟩ := eq_of_resume h
    exact turns_compute w w' i r frames
  | walk walk =>
    have h : stepWalk t walk frames w = .running e' w' ∨
        stepWalk t walk frames w = .parked e' w' := h
    unfold stepWalk at h
    split at h
    · obtain ⟨rfl, -⟩ := eq_of_resume h
      exact turns_verify w w' walk frames
    · rename_i dep rest hrest
      simp only at h
      split at h
      · simp only [Progress.running.injEq, reduceCtorEq, or_false] at h
        obtain ⟨rfl, rfl⟩ := h
        exact .touches hrest
      · obtain ⟨rfl, rfl⟩ := eq_of_resume h
        have htouched := w.touched_spec t { walk with rest } dep (w.changedAt dep)
        generalize w.touched t { walk with rest } dep (w.changedAt dep) = out at htouched
        cases htouched with
        | cancelled => exact .answers nofun
        | changed => exact .outdates
        | unchanged => exact .passes hrest
  | body a body => exact turns_of_stepBody h
  | answer r =>
    have h : stepAnswer t r frames w = .running e' w' ∨ stepAnswer t r frames w = .parked e' w' := h
    cases frames with
    | nil => simp [stepAnswer] at h
    | cons frame frames =>
      cases frame with
      | calling caller =>
        simp only [stepAnswer, Progress.running.injEq, reduceCtorEq, or_false] at h
        obtain ⟨rfl, rfl⟩ := h
        exact .returns _
      | touching walk dep =>
        cases r with
        | error e =>
          obtain ⟨rfl, -⟩ := eq_of_resume h
          exact .propagates e
        | ok x =>
          obtain ⟨rfl, rfl⟩ := eq_of_resume h
          have htouched := w.touched_spec t walk dep x.changedAt
          generalize w.touched t walk dep x.changedAt = out at htouched
          cases htouched with
          | cancelled => exact .propagates _
          | changed => exact .finds
          | unchanged => exact .goesOn

end Evaluation

end RedGreen
