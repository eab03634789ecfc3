import Mathlib.Logic.Relation
import RedGreen.Proofs.Changes
import RedGreen.Proofs.SessionSteps

set_option autoImplicit false

/-! # The edits that a world undergoes

There are ten ways in which a world changes at once (`World.Edit`). Whatever a step of an evaluation, a
request or a client does, it does by some of them one after the other (`Next.edits`,
`Session.edits_step`). So what no edit can break holds in the course of every session: that a slot
stays what it was made for (`Edits.prefix`), say, or that a token stays cancelled
(`Edits.cancelled`). A cache is made only if its identity has none, and a slot only if its key has
none in the cache of its identity. -/

namespace RedGreen

open Evaluation

variable {p : Program} {t : Token}

/-- A slot without what it keeps. -/
def Slot.blank (slot : Slot) : Slot :=
  match slot.content with
  | .input _ => { slot with content := .input none }
  | .derived d => { slot with content := .derived d.reset }

namespace Slot

variable (slot : Slot)

@[simp] theorem blank_setMemo (memo : Option Memo) : (slot.setMemo memo).blank = slot.blank := by
  obtain ⟨query, key, content⟩ := slot
  cases content with
  | input written => rfl
  | derived d => cases memo <;> rfl

@[simp] theorem blank_clear (before : Revision) : (slot.clear before).blank = slot.blank := by
  unfold clear
  split
  · exact slot.blank_setMemo none
  · rfl

@[simp] theorem kind_blank : slot.blank.kind = slot.kind := by
  obtain ⟨query, key, content⟩ := slot
  cases content <;> rfl

end Slot

/-- A derived slot is bound to a query of its identity, and of a type. -/
def Slot.BoundTo (p : Program) (valueType : ValueType) (slot : Slot) : Prop :=
  ∀ d, slot.content = .derived d →
    (p d.recompute).id = slot.query ∧ (p d.recompute).valueType = valueType

/-- The slot that an event tells to have entered the active stack. -/
def LogEvent.entered? : LogEvent → Option SlotId
  | .entered slot _ => some slot
  | _ => none

/-- The slot that an entry of the journal tells to have entered the active stack. -/
def Entry.entered? : Entry → Option SlotId
  | .log e => e.entered?
  | _ => none

namespace World

/-- What changes a world at once. -/
inductive Edit (p : Program) (w : World) : World → Prop
  | notes (entry : Entry) (quiet : entry.entered? = none) : Edit p w (w.note entry)
  | opens {cache : Cache} (unknown : w.cache? cache.query = none) :
    Edit p w (w.setCaches (w.caches ++ [cache]))
  | grows {fresh : Slot} {valueType : ValueType} (bound : fresh.BoundTo p valueType)
    (cached : w.cache? fresh.query = some ⟨fresh.query, fresh.key.type, valueType⟩)
    (unknown : w.find? fresh.query fresh.key = none) : Edit p w (w.setSlots (w.slots ++ [fresh]))
  /-- Slots keep something else. -/
  | revises {slots : List Slot} (blank : slots.map Slot.blank = w.slots.map Slot.blank) :
    Edit p w (w.setSlots slots)
  | issues : Edit p w { w with revision := w.revision.next }
  | cancels (t : Token) : Edit p w (w.cancel t)
  | allocates : Edit p w { w with allocations := w.allocations + 1 }
  | enters {i : SlotId} (outside : i ∉ w.active) :
    Edit p w ((w.setActive (w.active ++ [i])).log (.entered i (w.active.length + 1)))
  | leaves (i : SlotId) : Edit p w (w.setActive (dropInnermost w.active i))
  | locks (entryLocked asyncEntry : Bool) : Edit p w { w with entryLocked, asyncEntry }

/-- Edits one after the other. -/
def Edits (p : Program) : World → World → Prop := Relation.ReflTransGen (Edit p)

variable {w w' w'' : World}

theorem Edits.refl (w : World) : w.Edits p w := Relation.ReflTransGen.refl

theorem Edit.edits (h : w.Edit p w') : w.Edits p w' := .single h

theorem Edits.trans (h : w.Edits p w') (h' : w'.Edits p w'') : w.Edits p w'' :=
  Relation.ReflTransGen.trans h h'

/-- What no edit breaks is not broken by several. -/
theorem Edits.preserves {motive : World → Prop} (hedit : ∀ w w', w.Edit p w' → motive w → motive w')
    (h : w.Edits p w') (hmotive : motive w) : motive w' := by
  induction h with
  | refl => exact hmotive
  | tail _ hlast ih => exact hedit _ _ hlast ih

/-! ## What stays -/

/-- No slot is removed, and each stays what it was made for. -/
theorem Edits.prefix (h : w.Edits p w') : w.slots.map Slot.blank <+: w'.slots.map Slot.blank := by
  refine h.preserves (motive := fun w' => w.slots.map Slot.blank <+: w'.slots.map Slot.blank) ?_
    (List.prefix_refl _)
  intro w₁ w₂ hedit hprefix
  cases hedit with
  | @grows fresh =>
    refine hprefix.trans ?_
    show _ <+: (w₁.slots ++ [fresh]).map Slot.blank
    rw [List.map_append]
    exact List.prefix_append _ _
  | revises blank => exact blank ▸ hprefix
  | notes | opens | issues | cancels | allocates | enters | leaves | locks => exact hprefix

theorem kind?_eq (w : World) (i : SlotId) :
    w.kind? i = (w.slots.map Slot.blank)[i]?.map Slot.kind := by
  rw [System.kind?, List.getElem?_map]
  cases w.slots[i]? <;> simp

/-- A slot stays written or computed. -/
theorem Edits.kind? (h : w.Edits p w') {i : SlotId} {k : SlotKind} (hkind : w.kind? i = some k) :
    w'.kind? i = some k := by
  rw [kind?_eq, Option.map_eq_some_iff] at hkind ⊢
  obtain ⟨slot, hslot, rfl⟩ := hkind
  refine ⟨slot, ?_, rfl⟩
  obtain ⟨more, hmore⟩ := h.prefix
  rw [← hmore, List.getElem?_append_left]
  · exact hslot
  · exact (List.getElem?_eq_some_iff.1 hslot).1

/-- A token stays cancelled. -/
theorem Edits.cancelled (h : w.Edits p w') {t : Token} (ht : t ∈ w.cancelled) : t ∈ w'.cancelled := by
  refine h.preserves (motive := fun w' => t ∈ w'.cancelled) ?_ ht
  intro w₁ w₂ hedit hcancelled
  cases hedit with
  | cancels t' => exact List.mem_cons_of_mem t' hcancelled
  | notes | opens | grows | revises | issues | allocates | enters | leaves | locks => exact hcancelled

/-- A system goes on keeping values, or keeping none. -/
theorem Edits.memoize (h : w.Edits p w') : w'.memoize = w.memoize := by
  refine h.preserves (motive := fun w' => w'.memoize = w.memoize) (fun w₁ w₂ hedit hbefore => ?_) rfl
  cases hedit <;> exact hbefore

/-! ## Operations -/

variable (w)

theorem edits_log {e : LogEvent} (hquiet : e.entered? = none) : w.Edits p (w.log e) :=
  (Edit.notes (.log e) hquiet).edits

theorem edits_event (e : TraceEvent) : w.Edits p (w.event e) := (Edit.notes _ rfl).edits

theorem edits_cancel (t : Token) : w.Edits p (w.cancel t) := (Edit.cancels t).edits

theorem edits_ownCopy (v : Value) : w.Edits p (w.ownCopy v).2 := by
  unfold ownCopy
  split
  · exact Edit.allocates.edits
  · exact .refl w

theorem edits_openCache (query : QueryId) (keyType : KeyType) (valueType : ValueType) :
    w.Edits p (w.openCache query keyType valueType).2 := by
  unfold openCache
  split
  · split <;> exact .refl w
  · rename_i hnone
    exact (Edit.opens hnone).edits.trans (edits_log _ rfl)

/-- A cache that was opened has the types that it was opened with. -/
theorem cache?_of_openCache {w w' : World} {query : QueryId} {keyType : KeyType}
    {valueType : ValueType} (h : w.openCache query keyType valueType = (.ok (), w')) :
    w'.cache? query = some ⟨query, keyType, valueType⟩ := by
  unfold openCache at h
  split at h
  · rename_i cache hcache
    split at h
    · rename_i htypes
      cases h
      obtain ⟨cquery, ckeyType, cvalueType⟩ := cache
      obtain rfl : cquery = query := by simpa using List.find?_some hcache
      obtain ⟨rfl, rfl⟩ := htypes
      exact hcache
    · cases h
  · rename_i hnone
    cases h
    show (w.caches ++ [_]).find? _ = _
    rw [List.find?_append, show w.caches.find? _ = none from hnone]
    simp

theorem edits_slotFor {valueType : ValueType} {fresh : Slot} (hbound : fresh.BoundTo p valueType) :
    w.Edits p (w.slotFor valueType fresh).2 := by
  have hopen := w.edits_openCache (p := p) fresh.query fresh.key.type valueType
  unfold slotFor
  generalize hopened : w.openCache fresh.query fresh.key.type valueType = opened at hopen
  obtain ⟨opened, w₁⟩ := opened
  cases opened with
  | error e => exact hopen
  | ok u =>
    refine hopen.trans ?_
    show w₁.Edits p (w₁.obtain fresh).2
    unfold World.obtain
    split
    · split <;> exact .refl w₁
    · rename_i hnone
      exact (Edit.grows hbound (cache?_of_openCache hopened) hnone).edits.trans (edits_log _ rfl)

theorem edits_inputSlot (query : QueryId) (valueType : ValueType) (key : Key) :
    w.Edits p (w.inputSlot query valueType key).2 :=
  w.edits_slotFor fun _ h => by cases h

theorem edits_derivedSlot (label : Label) (key : Key) (equality : Equivalence) :
    w.Edits p (w.derivedSlot (p label).id (p label).valueType key label equality).2 :=
  w.edits_slotFor fun d h => by cases h; exact ⟨rfl, rfl⟩

theorem edits_leave (i : SlotId) : w.Edits p (w.leave i) := by
  unfold leave
  split
  · exact (Edit.leaves i).edits.trans (edits_log _ rfl)
  · exact .refl w

theorem edits_leaveAll (ids : List SlotId) : w.Edits p (w.leaveAll ids) := by
  induction ids generalizing w with
  | nil => exact .refl w
  | cons i ids ih => exact (w.edits_leave i).trans (ih (w.leave i))

theorem edits_enter (i : SlotId) : w.Edits p (w.enter i).2 := by
  unfold enter
  split
  · exact (edits_log _ rfl).trans (edits_event _ _)
  · exact (Edit.enters ‹_›).edits

theorem edits_modify {i : SlotId} {f : Slot → Slot}
    (hblank : ∀ slot, w.slots[i]? = some slot → (f slot).blank = slot.blank) :
    w.Edits p (w.setSlots (w.slots.modify i f)) := by
  refine (Edit.revises (List.ext_getElem? fun j => ?_)).edits
  simp only [List.getElem?_map, List.getElem?_modify]
  cases hslot : w.slots[j]? with
  | none => rfl
  | some slot =>
    by_cases hj : i = j
    · subst hj
      simp [hblank slot hslot]
    · simp [hj]

theorem edits_setMemo (i : SlotId) (memo : Option Memo) : w.Edits p (w.setMemo i memo) :=
  w.edits_modify fun slot _ => slot.blank_setMemo memo

theorem edits_put {i : SlotId} (hkind : w.kind? i = some .input) (v : Value) :
    w.Edits p (w.put i v) := by
  have hslots := edits_modify (p := p) { w with revision := w.revision.next } (i := i)
    (f := fun slot => { slot with content := .input (some ⟨v, w.revision.next⟩) }) fun slot hslot => by
      obtain ⟨query, key, content⟩ := slot
      have hslot' : w.slots[i]? = some ⟨query, key, content⟩ := hslot
      cases content with
      | input written => rfl
      | derived d => simp [System.kind?, hslot', Slot.kind] at hkind
  exact (Edit.issues.edits.trans hslots).trans ((edits_log _ rfl).trans (edits_event _ _))

theorem edits_write (query : QueryId) (key : Key) (value : Value) :
    w.Edits p (w.write query key value).2 := by
  have hslot := w.edits_inputSlot (p := p) query value.type key
  unfold write
  unfold inputSlot at hslot ⊢
  generalize hfound : w.slotFor value.type ⟨query, key, .input none⟩ = found at hslot
  obtain ⟨found, w₁⟩ := found
  cases found with
  | error e => exact hslot
  | ok i => exact hslot.trans (w₁.edits_put (kind?_of_slotFor hfound) value)

theorem edits_inputValue (query : QueryId) (valueType : ValueType) (key : Key) :
    w.Edits p (w.inputValue query valueType key).2 := by
  have hopen := w.edits_openCache (p := p) query key.type valueType
  unfold inputValue
  generalize w.openCache query key.type valueType = opened at hopen
  obtain ⟨opened, w₁⟩ := opened
  cases opened with
  | error e => exact hopen
  | ok u =>
    simp only
    split <;> exact hopen

theorem edits_clear (before : Revision) : w.Edits p (w.clear before).2 := by
  have hslots : w.Edits p (w.setSlots (w.slots.map (·.clear before))) :=
    (Edit.revises (by simp [Function.comp_def])).edits
  exact hslots.trans (edits_log _ rfl)

theorem edits_clearCache (query : QueryId) (before : Revision) :
    w.Edits p (w.clearCache query before).2 := by
  refine (Edit.revises ?_).edits
  rw [List.map_map]
  refine List.map_congr_left fun slot _ => ?_
  simp only [Function.comp]
  split
  · exact slot.blank_clear before
  · rfl

theorem edits_clearSlot (query : QueryId) (key : Key) (before : Revision) :
    w.Edits p (w.clearSlot query key before).2 := by
  unfold clearSlot
  split
  · exact .refl w
  · split
    · split
      · exact .refl w
      · exact w.edits_modify fun slot _ => slot.blank_clear before
    · exact .refl w

/-! ## Evaluations -/

theorem edits_record (a : Activation) (dep : SlotId) : w.Edits p (w.record a dep).2 := by
  simp only [record]
  split
  · exact .refl w
  · exact edits_log _ rfl

theorem edits_perform (t : Token) (a : Activation) (op : Operation) :
    w.Edits p (w.perform t a op).2.2 := by
  cases op with
  | read query valueType key =>
    have hslot : w.Edits p (w.inputSlot query valueType key).2 :=
      w.edits_inputSlot query valueType key
    simp only [perform, read]
    generalize w.inputSlot query valueType key = found at hslot
    obtain ⟨found, w₁⟩ := found
    cases found with
    | error e => exact hslot
    | ok dep =>
      have hrecord := hslot.trans (w₁.edits_record a dep)
      simp only
      split <;> exact hrecord
  | check | revision | slot => exact .refl w
  | cancel => exact w.edits_cancel t
  | allocate => exact Edit.allocates.edits

theorem edits_fail (i : SlotId) (e : QueryError) : w.Edits p (w.fail i e).2 :=
  ((edits_log _ rfl).trans (edits_event _ _)).trans (edits_leave _ i)

theorem edits_succeed (i : SlotId) (result : Stamped) (outcome : Outcome) :
    w.Edits p (w.succeed i result outcome).2 := (w.edits_event _).trans (edits_leave _ i)

theorem edits_commit (a : Activation) (value : Value) : w.Edits p (w.commit a value).2 := by
  unfold commit
  split
  · rename_i d _
    have hkept := w.edits_setMemo (p := p) a.slot (some (d.renewed value a.revision a.deps))
    simp only
    split
    · exact (hkept.trans (edits_log _ rfl)).trans (edits_succeed _ _ _ _)
    · exact hkept.trans (edits_succeed _ _ _ _)
  · exact w.edits_succeed _ _ _

theorem edits_finish (t : Token) (a : Activation) (result : Except QueryError Value) :
    w.Edits p (w.finish t a result).2 := by
  unfold finish
  split
  · exact w.edits_fail _ _
  · split
    · split
      · exact w.edits_fail _ _
      · exact w.edits_leave _
    · split
      · exact w.edits_commit _ _
      · exact w.edits_succeed _ _ _

theorem edits_touched (t : Token) (walk : Walk) (dep : SlotId) (changedAt : Revision) :
    w.Edits p (w.touched t walk dep changedAt).2 := by
  unfold touched
  split
  · exact w.edits_fail _ _
  · split
    · exact edits_log _ rfl
    · exact .refl w

theorem edits_verify (walk : Walk) : w.Edits p (w.verify walk).2 := by
  unfold verify
  split
  · exact ((w.edits_setMemo _ _).trans (edits_log _ rfl)).trans (edits_succeed _ _ _ _)
  · exact .refl w

theorem edits_startBody (p : Program) (i : SlotId) (r : Revision) :
    w.Edits p (w.startBody p i r).2 := by
  unfold startBody
  split
  · exact (Edit.notes _ rfl).edits
  · exact .refl w

theorem edits_fetch (p : Program) (t : Token) (i : SlotId) : w.Edits p (w.fetch p t i).2 := by
  have henter := w.edits_enter (p := p) i
  have hstart (c : Control) : w.Edits p (w.start i c).2 := by
    unfold start
    generalize w.enter i = entered at henter
    obtain ⟨entered, w₁⟩ := entered
    cases entered with
    | error e => exact henter
    | ok u => exact henter.trans (edits_event _ _)
  unfold fetch
  split
  · unfold beginMemoized
    split
    · split
      · exact (edits_log _ rfl).trans (edits_event _ _)
      · exact hstart _
    · exact hstart _
  · unfold beginUncached
    generalize w.enter i = entered at henter
    obtain ⟨entered, w₁⟩ := entered
    cases entered with
    | error e => exact henter
    | ok u =>
      refine henter.trans ?_
      simp only
      split
      · exact w₁.edits_leave i
      · exact (edits_log _ rfl).trans (edits_startBody _ p i _)

theorem edits_compute (p : Program) (t : Token) (i : SlotId) (r : Revision) :
    w.Edits p (w.compute p t i r).2 := by
  unfold compute
  split
  · exact w.edits_fail i _
  · exact (edits_log _ rfl).trans (edits_startBody _ p i r)

end World

namespace Evaluation

variable {w w' : World}

theorem edits_of_stepBody {a : Activation} {body : Body} {frames : List Frame} {e' : Evaluation}
    (h : stepBody p t a body frames w = .running e' w' ∨
      stepBody p t a body frames w = .parked e' w') : w.Edits p w' := by
  cases body with
  | done result =>
    obtain ⟨-, rfl⟩ := eq_of_resume h
    exact w.edits_finish t a result
  | perform op next =>
    simp only [stepBody, Progress.running.injEq, reduceCtorEq, or_false] at h
    exact h.2 ▸ w.edits_perform t a op
  | call mode label key next =>
    have hslot : w.Edits p (w.derivedSlot (p label).id (p label).valueType key label
        (p label).equality).2 := w.edits_derivedSlot label key _
    simp only [stepBody, stepCall] at h
    generalize w.derivedSlot (p label).id (p label).valueType key label (p label).equality = found
      at h hslot
    obtain ⟨found, w₁⟩ := found
    cases found with
    | error e =>
      simp only [Progress.running.injEq, reduceCtorEq, or_false] at h
      exact h.2 ▸ hslot
    | ok callee =>
      simp only [Progress.running.injEq, reduceCtorEq, or_false] at h
      exact h.2 ▸ hslot.trans (w₁.edits_record a callee)
  | yield next =>
    simp only [stepBody, stepYield] at h
    split at h
    · simp only [Progress.parked.injEq, reduceCtorEq, false_or] at h
      exact h.2 ▸ .refl w
    · simp only [Progress.running.injEq, reduceCtorEq, or_false] at h
      exact h.2 ▸ w.edits_leaveAll _

/-- What a step of an evaluation does to the world, it does by edits. -/
theorem Next.edits {e e' : Evaluation} (h : e.Next p t w e' w') : w.Edits p w' := by
  obtain ⟨control, frames⟩ := e
  cases control with
  | fetch i =>
    obtain ⟨-, rfl⟩ := eq_of_resume h
    exact w.edits_fetch p t i
  | compute i r =>
    obtain ⟨-, rfl⟩ := eq_of_resume h
    exact w.edits_compute p t i r
  | walk walk =>
    obtain ⟨slot, revision, verifiedAt, rest⟩ := walk
    cases rest with
    | nil =>
      obtain ⟨-, rfl⟩ := eq_of_resume h
      exact w.edits_verify _
    | cons dep rest =>
      have h : stepWalk t ⟨slot, revision, verifiedAt, dep :: rest⟩ frames w = .running e' w' ∨
          stepWalk t ⟨slot, revision, verifiedAt, dep :: rest⟩ frames w = .parked e' w' := h
      simp only [stepWalk] at h
      split at h
      · simp only [Progress.running.injEq, reduceCtorEq, or_false] at h
        exact h.2 ▸ .refl w
      · obtain ⟨-, rfl⟩ := eq_of_resume h
        exact w.edits_touched t _ _ _
  | body a body => exact edits_of_stepBody h
  | answer result =>
    have h : stepAnswer t result frames w = .running e' w' ∨
        stepAnswer t result frames w = .parked e' w' := h
    cases frames with
    | nil => simp [stepAnswer] at h
    | cons frame frames =>
      cases frame with
      | calling caller =>
        simp only [stepAnswer, Progress.running.injEq, reduceCtorEq, or_false] at h
        exact h.2 ▸ .refl w
      | touching walk dep =>
        cases result with
        | error e =>
          obtain ⟨-, rfl⟩ := eq_of_resume h
          exact w.edits_fail walk.slot e
        | ok stamped =>
          obtain ⟨-, rfl⟩ := eq_of_resume h
          exact w.edits_touched t walk dep stamped.changedAt

theorem Reaches.edits {e e' : Evaluation} (h : Reaches p t e w e' w') : w.Edits p w' := by
  refine h.preserves (motive := fun _ w' => w.Edits p w') ?_ (.refl w)
  exact fun e₁ w₁ e₂ w₂ hnext hedits => hedits.trans hnext.edits

end Evaluation

/-! ## Requests and tasks -/

theorem Access.edits_admission (access : Access) (queued : Bool) (w : World) :
    w.Edits p (access.admission queued w).2 := by
  cases access with
  | free => exact .refl w
  | blocking =>
    simp only [Access.admission]
    split
    · split
      · exact World.edits_log w rfl
      · exact .refl w
    · exact (World.Edit.locks _ _).edits
  | waiting =>
    simp only [Access.admission]
    split
    · exact .refl w
    · exact (World.Edit.locks _ _).edits

theorem Access.edits_release (access : Access) (w : World) : w.Edits p (access.release w) := by
  cases access with
  | free => exact .refl w
  | blocking | waiting => exact (World.Edit.locks _ _).edits

theorem Request.edits_begin (p : Program) (request : Request) (w : World) :
    w.Edits p (request.begin p w).2 := by
  have hofSlot {out : Except QueryError SlotId × World} (h : w.Edits p out.2) :
      w.Edits p (Begun.ofSlot out).2 := by
    obtain ⟨out, w'⟩ := out
    cases out <;> exact h
  cases request with
  | write _ id key value => exact (w.edits_ownCopy value).trans (World.edits_write _ id key _)
  | read id valueType key => exact w.edits_inputValue id valueType key
  | query _ label key => exact hofSlot (w.edits_derivedSlot label key _)
  | derive label key equality => exact hofSlot (w.edits_derivedSlot label key _)
  | prepare label key equality => exact w.edits_derivedSlot label key equality
  | touch id valueType key =>
    have hopen := w.edits_openCache (p := p) id key.type valueType
    simp only [begin]
    generalize w.openCache id key.type valueType = opened at hopen
    obtain ⟨opened, w₁⟩ := opened
    cases opened with
    | error e => exact hopen
    | ok u =>
      simp only
      split
      · exact hopen
      · split <;> exact hopen
  | clear _ before => exact w.edits_clear before

namespace Task

variable {task : Task} {w w' : World}

theorem edits_drop (task : Task) (w : World) : w.Edits p (task.drop w) := by
  unfold drop
  split
  · exact .refl w
  · rename_i e _
    exact (w.edits_leaveAll e.held).trans (Access.edits_release _ _)

theorem Begins.edits {e : Evaluation} (h : task.Begins p w e w') : w.Edits p w' := by
  rcases h with ⟨-, rfl⟩ | ⟨-, w₁, hentry, hbegin⟩
  · exact .refl w'
  · have haccess := task.request.access.edits_admission task.queued (p := p) w
    rw [hentry] at haccess
    have hbegins := task.request.edits_begin p w₁
    rw [hbegin] at hbegins
    exact haccess.trans hbegins

theorem Course.edits {out : Poll × World} (h : Course p task w out) : w.Edits p out.2 := by
  cases h with
  | waits => exact .refl w
  | refused unbegun entry =>
    have haccess := task.request.access.edits_admission task.queued (p := p) w
    rwa [entry] at haccess
  | @answered w₁ w₂ result unbegun entry opens =>
    have haccess := task.request.access.edits_admission task.queued (p := p) w
    rw [entry] at haccess
    have hbegin := task.request.edits_begin p w₁
    rw [opens] at hbegin
    exact (haccess.trans hbegin).trans (Access.edits_release _ _)
  | parks begins reaches => exact begins.edits.trans reaches.edits
  | ends begins finishes =>
    exact (begins.edits.trans finishes.reaches.edits).trans (Access.edits_release _ _)

end Task

/-! ## Sessions -/

theorem Poll.edits_left {out : Poll × World} {w : World} (h : w.Edits p out.2) :
    w.Edits p (Poll.left out) := by
  obtain ⟨poll, w'⟩ := out
  cases poll with
  | ready => exact h
  | pending woken task => exact h.trans (task.edits_drop w')

namespace Session

variable {s : Session}

theorem edits_dropTask (s : Session) (name : String) : s.world.Edits p (s.dropTask name).world := by
  unfold dropTask
  split
  · exact Task.edits_drop _ _
  · exact .refl _

theorem edits_dropGuard (s : Session) (name : String) : s.world.Edits p (s.dropGuard name).world := by
  unfold dropGuard
  split
  · exact World.edits_leave _ _
  · exact .refl _

theorem Effects.edits {step : Step} {w : World} {tasks : Named Task} {guards : Named SlotId}
    (h : s.Effects p step w tasks guards) : s.world.Edits p w := by
  cases h with
  | performs course => exact Poll.edits_left course.edits
  | spawns | drops => exact s.edits_dropTask _
  | ends carries found course => exact course.edits
  | waits carries found course => exact course.edits
  | cancels => exact World.edits_cancel _ _
  | @enters name slot w entered =>
    have henter := s.world.edits_enter (p := p) slot
    rw [entered] at henter
    exact henter.trans (edits_dropGuard { s with world := w } name)
  | @refuses name slot e w refused =>
    have henter := s.world.edits_enter (p := p) slot
    rwa [refused] at henter
  | leaves name => exact s.edits_dropGuard name
  | @clearsCache query keyType valueType before w opened =>
    have hopen := s.world.edits_openCache (p := p) query keyType valueType
    rw [opened] at hopen
    exact hopen.trans (w.edits_clearCache query before)
  | @clearsSlot query valueType key before w opened =>
    have hopen := s.world.edits_openCache (p := p) query key.type valueType
    rw [opened] at hopen
    exact hopen.trans (w.edits_clearSlot query key before)
  | makes => exact World.edits_inputSlot _ _ _ _
  | opens => exact World.edits_openCache _ _ _ _
  | looks => exact .refl _

/-- What a step of a client does to the world, it does by edits. -/
theorem edits_step (p : Program) (limits : Limits) (s : Session) (step : Step) :
    s.world.Edits p (s.step p limits step).2.world := (effects_step limits s step).edits

end Session

end RedGreen
