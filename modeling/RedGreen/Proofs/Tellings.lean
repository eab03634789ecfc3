import RedGreen.Proofs.ActiveStack
import RedGreen.Proofs.EntryLock
import RedGreen.Proofs.Trails

set_option autoImplicit false

/-! # What the tracer is told of

Every event for the tracer is about a slot that there is, and the path of a cycle leads along the slots in
progress (`World.Attests`). A step of an evaluation tells at most one event (`Next.tells`), and each other
operation of a request tells none, or that an input was written. The slots in progress are those that
evaluations have come to, which are derived slots, and those that a client has entered by their number. Such a
number need not be that of a slot; then the path of a cycle names the position, by its number
(`Session.Strays`). -/

namespace RedGreen

open Evaluation

variable {p : Program} {t : Token} {w w' : World}

/-! ## The events of an operation -/

namespace World

/-- What the tracer was told. -/
def events (w : World) : List TraceEvent := w.journal.events

variable (w)

@[simp] theorem events_log (e : LogEvent) : (w.log e).events = w.events := by
  simp [events, log, note, Journal.events]

@[simp] theorem events_event (e : TraceEvent) : (w.event e).events = w.events ++ [e] := by
  simp [events, event, note, Journal.events]

@[simp] theorem events_leave (i : SlotId) : (w.leave i).events = w.events := by
  unfold leave
  split
  · exact events_log _ _
  · rfl

@[simp] theorem events_leaveAll (ids : List SlotId) : (w.leaveAll ids).events = w.events := by
  induction ids generalizing w with
  | nil => rfl
  | cons i ids ih => exact (ih (w.leave i)).trans (w.events_leave i)

theorem events_openCache (query : QueryId) (keyType : KeyType) (valueType : ValueType) :
    (w.openCache query keyType valueType).2.events = w.events := by
  unfold openCache
  split
  · split <;> rfl
  · exact events_log _ _

theorem events_slotFor (valueType : ValueType) (fresh : Slot) :
    (w.slotFor valueType fresh).2.events = w.events := by
  have hopen := w.events_openCache fresh.query fresh.key.type valueType
  unfold slotFor
  generalize w.openCache fresh.query fresh.key.type valueType = opened at hopen
  obtain ⟨opened, w₁⟩ := opened
  cases opened with
  | error e => exact hopen
  | ok u =>
    refine Eq.trans ?_ hopen
    show (w₁.obtain fresh).2.events = w₁.events
    unfold World.obtain
    split
    · split <;> rfl
    · exact events_log _ _

theorem events_record (a : Activation) (dep : SlotId) : (w.record a dep).2.events = w.events := by
  simp only [record]
  split
  · rfl
  · exact events_log _ _

theorem events_perform (t : Token) (a : Activation) (op : Operation) :
    (w.perform t a op).2.2.events = w.events := by
  cases op with
  | read query valueType key =>
    have hslot : (w.inputSlot query valueType key).2.events = w.events := w.events_slotFor valueType _
    simp only [perform, read]
    generalize w.inputSlot query valueType key = found at hslot
    obtain ⟨found, w₁⟩ := found
    cases found with
    | error e => exact hslot
    | ok dep =>
      have hrecord := (w₁.events_record a dep).trans hslot
      simp only
      split <;> exact hrecord
  | _ => rfl

theorem events_inputValue (query : QueryId) (valueType : ValueType) (key : Key) :
    (w.inputValue query valueType key).2.events = w.events := by
  have hopen := w.events_openCache query key.type valueType
  unfold inputValue
  generalize w.openCache query key.type valueType = opened at hopen
  obtain ⟨opened, w₁⟩ := opened
  cases opened with
  | error e => exact hopen
  | ok u =>
    simp only
    split <;> exact hopen

theorem events_clearSlot (query : QueryId) (key : Key) (before : Revision) :
    (w.clearSlot query key before).2.events = w.events := by
  unfold clearSlot
  split
  · rfl
  · split
    · split <;> rfl
    · rfl

theorem events_startBody (p : Program) (i : SlotId) (r : Revision) :
    (w.startBody p i r).2.events = w.events := by
  unfold startBody
  split
  · simp [events, note, Journal.events]
  · rfl

theorem events_fail (i : SlotId) (e : QueryError) :
    (w.fail i e).2.events = w.events ++ [.queryEnd (w.info i) (.ofError e)] := by
  rw [fail, events_leave, events_event, events_log]

theorem events_succeed (i : SlotId) (result : Stamped) (outcome : Outcome) :
    (w.succeed i result outcome).2.events = w.events ++ [.queryEnd (w.info i) outcome] := by
  rw [succeed, events_leave, events_event]

theorem events_admission (access : Access) (queued : Bool) :
    (access.admission queued w).2.events = w.events := by
  cases access with
  | free => rfl
  | blocking =>
    simp only [Access.admission]
    split
    · split
      · exact w.events_log _
      · rfl
    · rfl
  | waiting =>
    simp only [Access.admission]
    split <;> rfl

theorem events_release (access : Access) : (access.release w).events = w.events := by
  cases access <;> rfl

theorem events_drop (task : Task) : (task.drop w).events = w.events := by
  unfold Task.drop
  split
  · rfl
  · exact (events_release _ _).trans (w.events_leaveAll _)

end World

/-! ## The events of a step -/

namespace Evaluation

/-- What a step of an evaluation may tell the tracer: the start or the end of a request for a derived value,
    or a cycle that a request for a derived value closes. -/
inductive Tells (w : World) : TraceEvent → Prop
  | starts {i : SlotId} (derived : w.kind? i = some .derived) (r : Revision) :
    Tells w (.queryStart (w.info i) r)
  | ends {i : SlotId} (derived : w.kind? i = some .derived) (outcome : Outcome) :
    Tells w (.queryEnd (w.info i) outcome)
  | cycle {i : SlotId} (derived : w.kind? i = some .derived) :
    Tells w (.cycleDetected ((w.active ++ [i]).map w.nameOf))

/-- A step tells nothing or one event. -/
def TellsAtMostOne (w w' : World) : Prop :=
  w'.events = w.events ∨ ∃ e, Tells w e ∧ w'.events = w.events ++ [e]

variable {e e' : Evaluation} {frames : List Frame} {i : SlotId}

theorem tells_fail (hi : w.kind? i = some .derived) (error : QueryError) :
    TellsAtMostOne w (w.fail i error).2 :=
  .inr ⟨_, .ends hi _, w.events_fail i error⟩

/-- The end of a request is told by the name that its slot had before it kept something else. -/
theorem tells_succeed (hi : w.kind? i = some .derived) (hinfo : w'.info i = w.info i)
    (hevents : w'.events = w.events) (result : Stamped) (outcome : Outcome) :
    TellsAtMostOne w (w'.succeed i result outcome).2 :=
  .inr ⟨_, .ends hi outcome, by rw [World.events_succeed, hinfo, hevents]⟩

theorem tells_commit {a : Activation} (hi : w.kind? a.slot = some .derived) (value : Value) :
    TellsAtMostOne w (w.commit a value).2 := by
  unfold World.commit
  split
  · simp only
    split
    · refine tells_succeed hi ?_ ?_ _ _
      · exact w.info_setMemo a.slot a.slot _
      · exact World.events_log _ _
    · exact tells_succeed hi (w.info_setMemo a.slot a.slot _) rfl _ _
  · exact tells_succeed hi rfl rfl _ _

theorem tells_finish {a : Activation} (hi : w.kind? a.slot = some .derived)
    (result : Except QueryError Value) : TellsAtMostOne w (w.finish t a result).2 := by
  unfold World.finish
  split
  · exact tells_fail hi _
  · split
    · split
      · exact tells_fail hi _
      · exact .inl (w.events_leave _)
    · split
      · exact tells_commit hi _
      · exact tells_succeed hi rfl rfl _ _

theorem tells_touched {walk : Walk} (hi : w.kind? walk.slot = some .derived) (dep : SlotId)
    (changedAt : Revision) : TellsAtMostOne w (w.touched t walk dep changedAt).2 := by
  unfold World.touched
  split
  · exact tells_fail hi _
  · split
    · exact .inl (w.events_log _)
    · exact .inl rfl

theorem tells_verify {walk : Walk} (hi : w.kind? walk.slot = some .derived) :
    TellsAtMostOne w (w.verify walk).2 := by
  unfold World.verify
  split
  · refine tells_succeed hi ?_ ?_ _ _
    · exact w.info_setMemo walk.slot walk.slot _
    · exact World.events_log _ _
  · exact .inl rfl

theorem tells_compute (hi : w.kind? i = some .derived) (p : Program) (r : Revision) :
    TellsAtMostOne w (w.compute p t i r).2 := by
  unfold World.compute
  split
  · exact tells_fail hi _
  · exact .inl ((World.events_startBody _ p i r).trans (w.events_log _))

theorem tells_fetch (hi : w.kind? i = some .derived) (p : Program) :
    TellsAtMostOne w (w.fetch p t i).2 := by
  have hcycle (hactive : i ∈ w.active) : TellsAtMostOne w (w.enter i).2 := by
    rw [World.enter, if_pos hactive]
    exact .inr ⟨_, .cycle hi, by simp⟩
  have hstart (c : Control) : TellsAtMostOne w (w.start i c).2 := by
    unfold World.start
    by_cases hactive : i ∈ w.active
    · have hcycle := hcycle hactive
      rw [World.enter, if_pos hactive] at hcycle ⊢
      exact hcycle
    · rw [World.enter, if_neg hactive]
      exact .inr ⟨_, .starts hi _, by rw [World.events_event, World.events_log]; rfl⟩
  unfold World.fetch
  split
  · unfold World.beginMemoized
    split
    · split
      · exact .inr ⟨_, .ends hi .cacheHit, by simp⟩
      · exact hstart _
    · exact hstart _
  · unfold World.beginUncached
    by_cases hactive : i ∈ w.active
    · have hcycle := hcycle hactive
      rw [World.enter, if_pos hactive] at hcycle ⊢
      exact hcycle
    · rw [World.enter, if_neg hactive]
      simp only
      split
      · left
        rw [World.events_leave, World.events_log]
        rfl
      · left
        rw [World.events_startBody, World.events_log, World.events_log]
        rfl

/-- A step tells at most one event, which is of derived slots. -/
theorem Next.tells (h : e.Next p t w e' w') (hderived : e.OnDerived w) : TellsAtMostOne w w' := by
  obtain ⟨control, frames⟩ := e
  have hflight (f : Flight) (hf : f ∈ flights ⟨control, frames⟩) := hderived.flights f hf
  cases control with
  | fetch i =>
    obtain ⟨-, rfl⟩ := eq_of_resume h
    exact tells_fetch (hderived.requested i rfl) p
  | walk walk =>
    obtain ⟨slot, revision, verifiedAt, rest⟩ := walk
    have hwalk : w.kind? slot = some .derived := hflight ⟨slot, revision⟩ List.mem_cons_self
    simp only [Next, step, stepWalk] at h
    split at h
    · obtain ⟨-, rfl⟩ := eq_of_resume h
      exact tells_verify hwalk
    · split at h
      · rcases h with h | h <;> cases h
        exact .inl rfl
      · obtain ⟨-, rfl⟩ := eq_of_resume h
        exact tells_touched hwalk _ _
  | compute i r =>
    obtain ⟨-, rfl⟩ := eq_of_resume h
    exact tells_compute (hflight ⟨i, r⟩ List.mem_cons_self) p r
  | body a body =>
    have ha : w.kind? a.slot = some .derived := hflight ⟨a.slot, a.revision⟩ List.mem_cons_self
    cases body with
    | done result =>
      obtain ⟨-, rfl⟩ := eq_of_resume h
      exact tells_finish ha result
    | perform op next =>
      rcases h with h | h <;> cases h
      exact .inl (w.events_perform t a op)
    | call mode label key next =>
      have hslot : (w.derivedSlot (p label).id (p label).valueType key label
          (p label).equality).2.events = w.events := w.events_slotFor _ _
      simp only [Next, step, stepBody, stepCall] at h
      generalize w.derivedSlot (p label).id (p label).valueType key label (p label).equality = found
        at h hslot
      obtain ⟨found, w₁⟩ := found
      cases found with
      | error e =>
        rcases h with h | h <;> cases h
        exact .inl hslot
      | ok callee =>
        rcases h with h | h <;> cases h
        exact .inl ((w₁.events_record a callee).trans hslot)
    | yield next =>
      simp only [Next, step, stepBody, stepYield] at h
      split at h
      · rcases h with h | h <;> cases h
        exact .inl rfl
      · rcases h with h | h <;> cases h
        exact .inl (w.events_leaveAll _)
  | answer r =>
    cases frames with
    | nil => rcases h with h | h <;> cases h
    | cons frame frames =>
      cases frame with
      | touching walk dep =>
        have hwalk : w.kind? walk.slot = some .derived :=
          hflight ⟨walk.slot, walk.revision⟩ List.mem_cons_self
        cases r with
        | error e =>
          obtain ⟨-, rfl⟩ := eq_of_resume h
          exact tells_fail hwalk e
        | ok stamped =>
          obtain ⟨-, rfl⟩ := eq_of_resume h
          exact tells_touched hwalk dep stamped.changedAt
      | calling caller =>
        rcases h with h | h <;> cases h
        exact .inl rfl

end Evaluation

/-! ## Names that are known -/

namespace World

variable {strays others : SlotId → Prop} {e : TraceEvent} {i : SlotId}

/-- There is a slot at a position, or the position is a stray one. -/
def Places (w : World) (strays : SlotId → Prop) (i : SlotId) : Prop :=
  (w.describe? i).isSome ∨ strays i

/-- What a name denotes: a slot whose text it is, or a stray position whose number it is. -/
inductive Denotes (w : World) (strays : SlotId → Prop) (name : String) (i : SlotId) : Prop
  | slot {info : SlotInfo} (described : w.describe? i = some info) (text : info.text = name)
  | position (stray : strays i) (number : "#" ++ Nat.repr i = name)

/-- An event is about a slot, and a cycle leads along names that denote something. -/
def Shows (w : World) (strays : SlotId → Prop) : TraceEvent → Prop
  | .inputSet slot _ | .queryStart slot _ | .queryEnd slot _ => ∃ i, w.describe? i = some slot
  | .cycleDetected path => ∀ name ∈ path, ∃ i, w.Denotes strays name i

/-- The tracer was told of nothing else. -/
def Attests (w : World) (strays : SlotId → Prop) : Prop := ∀ e ∈ w.events, w.Shows strays e

theorem Places.continues (h : w.Places strays i) (hw : w.Continues w') : w'.Places strays i := by
  refine h.imp_left fun hsome => ?_
  obtain ⟨info, hinfo⟩ := Option.isSome_iff_exists.1 hsome
  exact Option.isSome_iff_exists.2 ⟨info, hw.describe? hinfo⟩

theorem places_of_kind? {k : SlotKind} (h : w.kind? i = some k) : w.Places strays i := by
  obtain ⟨info, hinfo, -⟩ := exists_describe? h
  exact .inl (Option.isSome_iff_exists.2 ⟨info, hinfo⟩)

theorem Places.denotes (h : w.Places strays i) : w.Denotes strays (w.nameOf i) i := by
  cases hinfo : w.describe? i with
  | some info => exact .slot hinfo (by rw [System.nameOf, hinfo])
  | none =>
    rcases h with h | h
    · simp [hinfo] at h
    · exact .position h (by rw [System.nameOf, hinfo])

theorem Denotes.continues {name : String} (h : w.Denotes strays name i) (hw : w.Continues w') :
    w'.Denotes strays name i := by
  cases h with
  | slot described text => exact .slot (hw.describe? described) text
  | position stray number => exact .position stray number

theorem Denotes.mono {name : String} (h : w.Denotes strays name i) (hstrays : ∀ i, strays i → others i) :
    w.Denotes others name i := by
  cases h with
  | slot described text => exact .slot described text
  | position stray number => exact .position (hstrays i stray) number

theorem Shows.continues (h : w.Shows strays e) (hw : w.Continues w') :
    w'.Shows strays e := by
  cases e with
  | inputSet slot _ | queryStart slot _ | queryEnd slot _ =>
    obtain ⟨i, hi⟩ := h
    exact ⟨i, hw.describe? hi⟩
  | cycleDetected path => exact fun name hname => (h name hname).imp fun _ hi => hi.continues hw

theorem Shows.mono (h : w.Shows strays e) (hstrays : ∀ i, strays i → others i) :
    w.Shows others e := by
  cases e with
  | inputSet | queryStart | queryEnd => exact h
  | cycleDetected path => exact fun name hname => (h name hname).imp fun _ hi => hi.mono hstrays

theorem Attests.of_nil (h : w.events = []) : w.Attests strays :=
  fun _ he => absurd (h ▸ he) List.not_mem_nil

theorem Attests.mono (h : w.Attests strays) (hstrays : ∀ i, strays i → others i) : w.Attests others :=
  fun e he => (h e he).mono hstrays

theorem Attests.of_events (h : w.Attests strays) (hw : w.Continues w') (hevents : w'.events = w.events) :
    w'.Attests strays :=
  fun e he => (h e (hevents ▸ he)).continues hw

theorem Attests.of_append (h : w.Attests strays) (hw : w.Continues w') (he : w'.Shows strays e)
    (hevents : w'.events = w.events ++ [e]) : w'.Attests strays := by
  intro e' he'
  rw [hevents, List.mem_append, List.mem_singleton] at he'
  rcases he' with he' | rfl
  · exact (h e' he').continues hw
  · exact he

/-- The path of a cycle leads along the slots in progress. -/
theorem places_path (hactive : ∀ j ∈ w.active, w.Places strays j) (hi : w.Places strays i) :
    w.Shows strays (.cycleDetected ((w.active ++ [i]).map w.nameOf)) := by
  intro name hname
  obtain ⟨j, hj, rfl⟩ := List.mem_map.1 hname
  rcases List.mem_append.1 hj with hj | hj
  · exact ⟨j, (hactive j hj).denotes⟩
  · exact ⟨j, (List.mem_singleton.1 hj ▸ hi).denotes⟩

end World

/-! ## Evaluations -/

namespace Evaluation

open World

variable {e e' : Evaluation} {strays : SlotId → Prop} {others : List SlotId}

theorem Tells.shows {event : TraceEvent} (h : Tells w event)
    (hactive : ∀ j ∈ w.active, w.Places strays j) : w.Shows strays event := by
  cases h with
  | starts derived | ends derived =>
    obtain ⟨info, hinfo, -⟩ := exists_describe? derived
    exact ⟨_, (info_of_describe? hinfo).symm ▸ hinfo⟩
  | cycle derived => exact places_path hactive (places_of_kind? derived)

theorem TellsAtMostOne.attests (h : TellsAtMostOne w w') (hw : w.Continues w')
    (hactive : ∀ j ∈ w.active, w.Places strays j) (hattests : w.Attests strays) : w'.Attests strays := by
  rcases h with hevents | ⟨event, htells, hevents⟩
  · exact hattests.of_events hw hevents
  · exact hattests.of_append hw ((htells.shows hactive).continues hw) hevents

/-- What is in progress is a derived slot that the evaluation has come to, or another one. -/
theorem OnDerived.places (h : e.OnDerived w) (hstacked : w.Stacked (e.held ++ others))
    (hothers : ∀ j ∈ others, w.Places strays j) : ∀ j ∈ w.active, w.Places strays j := by
  intro j hj
  rcases List.mem_append.1 (hstacked.mem_iff.1 hj) with hj | hj
  · rw [held_eq] at hj
    obtain ⟨f, hf, rfl⟩ := List.mem_map.1 hj
    exact places_of_kind? (h.flights f hf)
  · exact hothers j hj

/-- In the course of an evaluation, the tracer is told of slots. -/
theorem Reaches.attests (h : Reaches p t e w e' w') (hderived : e.OnDerived w)
    (hstacked : w.Stacked (e.held ++ others)) (hothers : ∀ j ∈ others, w.Places strays j)
    (hattests : w.Attests strays) : w'.Attests strays ∧ ∀ j ∈ w'.active, w'.Places strays j := by
  obtain ⟨hattests', hderived', hstacked', hothers'⟩ :=
    h.preserves (motive := fun e w => w.Attests strays ∧ e.OnDerived w ∧ w.Stacked (e.held ++ others) ∧
      ∀ j ∈ others, w.Places strays j)
    (fun e₁ w₁ e₂ w₂ hnext ⟨hattests, hderived, hstacked, hothers⟩ =>
      have hcontinues := hnext.edits.continues
      ⟨(hnext.tells hderived).attests hcontinues (hderived.places hstacked hothers) hattests,
        hderived.next hnext, hnext.moves.stacked hstacked, fun j hj => (hothers j hj).continues hcontinues⟩)
    ⟨hattests, hderived, hstacked, hothers⟩
  exact ⟨hattests', hderived'.places hstacked' hothers'⟩

end Evaluation

/-! ## Requests and tasks -/

open World

variable {strays : SlotId → Prop} {others : List SlotId}

theorem World.attests_write (p : Program) (query : QueryId) (key : Key) (value : Value)
    (h : w.Attests strays) : (w.write query key value).2.Attests strays := by
  have hslot := h.of_events (w.edits_inputSlot (p := p) query value.type key).continues
    (w.events_slotFor value.type _)
  unfold write
  unfold inputSlot at hslot ⊢
  generalize hfound : w.slotFor value.type ⟨query, key, .input none⟩ = found at hslot
  obtain ⟨found, w₁⟩ := found
  cases found with
  | error e => exact hslot
  | ok i =>
    have hkind : w₁.kind? i = some .input := kind?_of_slotFor hfound
    have hput := (w₁.edits_put (p := p) hkind value).continues
    obtain ⟨info, hinfo, -⟩ := exists_describe? hkind
    refine hslot.of_append (e := .inputSet (w₁.info i) w₁.revision.next) hput ⟨i, ?_⟩ ?_
    · rw [info_of_describe? hinfo]
      exact hput.describe? hinfo
    · show (World.event _ _).events = _
      rw [events_event, events_log]
      rfl

theorem Request.attests_begin (p : Program) (request : Request) (h : w.Attests strays) :
    (request.begin p w).2.Attests strays := by
  have hcontinues := (request.edits_begin p w).continues
  have hofSlot {out : Except QueryError SlotId × World} (hout : out.2.events = w.events) :
      (Begun.ofSlot out).2.events = w.events := by
    obtain ⟨out, w'⟩ := out
    cases out <;> exact hout
  cases request with
  | write _ id key value =>
    have hown : (w.ownCopy value).2.events = w.events := by
      unfold ownCopy
      split <;> rfl
    exact World.attests_write p id key _ (h.of_events (w.edits_ownCopy (p := p) value).continues hown)
  | read id valueType key => exact h.of_events hcontinues (w.events_inputValue id valueType key)
  | query _ label key => exact h.of_events hcontinues (hofSlot (w.events_slotFor _ _))
  | derive label key equality => exact h.of_events hcontinues (hofSlot (w.events_slotFor _ _))
  | prepare label key equality => exact h.of_events hcontinues (w.events_slotFor _ _)
  | touch id valueType key =>
    refine h.of_events hcontinues ?_
    have hopen := w.events_openCache id key.type valueType
    simp only [begin]
    generalize w.openCache id key.type valueType = opened at hopen
    obtain ⟨opened, w₁⟩ := opened
    cases opened with
    | error e => exact hopen
    | ok u =>
      simp only
      split
      · exact hopen
      · split <;> exact hopen
  | clear _ before => exact h.of_events hcontinues (events_log _ _)

theorem Access.attests_admission (p : Program) (access : Access) (queued : Bool)
    (h : w.Attests strays) : (access.admission queued w).2.Attests strays :=
  h.of_events (access.edits_admission queued (p := p) w).continues (w.events_admission access queued)

theorem Access.attests_release (p : Program) (access : Access) (h : w.Attests strays) :
    (access.release w).Attests strays :=
  h.of_events (access.edits_release (p := p) w).continues (w.events_release access)

namespace Task

variable {task : Task} {e : Evaluation} {out : Poll × World}

theorem Begins.attests (h : task.Begins p w e w') (hattests : w.Attests strays) : w'.Attests strays := by
  rcases h with ⟨-, rfl⟩ | ⟨-, w₁, hentry, hbegin⟩
  · exact hattests
  · have hadmission := task.request.access.attests_admission p task.queued hattests
    rw [hentry] at hadmission
    have hbegins := task.request.attests_begin p hadmission
    rwa [hbegin] at hbegins

/-- While a task is polled, the tracer is told of slots. -/
theorem Course.attests (h : Course p task w out)
    (hderived : ∀ e w', task.Begins p w e w' → e.OnDerived w')
    (hstacked : w.Stacked (task.held ++ others)) (hothers : ∀ j ∈ others, w.Places strays j)
    (hattests : w.Attests strays) : out.2.Attests strays := by
  have hreaches {e e' : Evaluation} {w₁ w' : World} (hbegins : task.Begins p w e w₁)
      (hreaches : Reaches p task.token e w₁ e' w') : w'.Attests strays :=
    (hreaches.attests (hderived e w₁ hbegins) (hbegins.stacked hstacked)
      (fun j hj => (hothers j hj).continues hbegins.edits.continues) (hbegins.attests hattests)).1
  cases h with
  | waits => exact hattests
  | refused unbegun entry =>
    have hadmission := task.request.access.attests_admission p task.queued hattests
    rwa [entry] at hadmission
  | @answered w₁ w₂ result unbegun entry opens =>
    have hadmission := task.request.access.attests_admission p task.queued hattests
    rw [entry] at hadmission
    have hbegin := task.request.attests_begin p hadmission
    rw [opens] at hbegin
    exact task.request.access.attests_release p hbegin
  | parks begins reaches => exact hreaches begins reaches
  | ends begins finishes =>
    exact task.request.access.attests_release p (hreaches begins finishes.reaches)

theorem attests_drop (p : Program) (task : Task) (h : w.Attests strays) : (task.drop w).Attests strays :=
  h.of_events (task.edits_drop (p := p) w).continues (w.events_drop task)

end Task

/-! ## Sessions -/

namespace Session

variable {s : Session} {limits : Limits} {steps : List Step} {i : SlotId} {task : Task}

/-- A position that a client entered when there was no slot at it. -/
def Strays (p : Program) (limits : Limits) (s : Session) (steps : List Step) (i : SlotId) : Prop :=
  ∃ before guard, before ++ [.enter guard i] <+: steps ∧ (s.after p limits before).world.describe? i = none

theorem Strays.append (h : s.Strays p limits steps i) (more : List Step) :
    s.Strays p limits (steps ++ more) i := by
  obtain ⟨before, guard, hbefore, hnone⟩ := h
  exact ⟨before, guard, hbefore.trans (List.prefix_append steps more), hnone⟩

/-- A task that a step takes up, or that is kept. -/
def Carries (s : Session) (task : Task) : Prop :=
  task.suspended = none ∨ ∃ name, s.tasks.get? name = some task

/-- A guard that a client holds was entered by a step. -/
theorem Effects.guards {step : Step} {w : World} {tasks : Named Task} {guards : Named SlotId}
    (h : s.Effects p step w tasks guards) : ∀ entry ∈ guards.entries,
      entry ∈ s.guards.entries ∨ ∃ guard, step = .enter guard entry.2 := by
  have herase (name : String) : ∀ entry ∈ (s.guards.erase name).entries, entry ∈ s.guards.entries :=
    fun entry hentry => List.mem_of_mem_filter hentry
  cases h with
  | @enters name slot w entered =>
    refine List.forall_mem_cons.2 ⟨.inr ⟨name, rfl⟩, fun entry hentry => .inl ?_⟩
    exact herase name entry (List.mem_of_mem_filter hentry)
  | leaves name => exact fun entry hentry => .inl (herase name entry hentry)
  | _ => exact fun entry hentry => .inl hentry

/-- At a position that is entered by a guard there is a slot, unless there was none when it was entered. -/
theorem places_of_guarded (p : Program) (limits : Limits) (hs : s.guards = {}) (steps : List Step) :
    ∀ i ∈ (s.after p limits steps).guarded,
      (s.after p limits steps).world.Places (s.Strays p limits steps) i := by
  induction steps using List.reverseRecOn with
  | nil =>
    intro i hi
    simp [after, guarded, hs] at hi
  | append_singleton steps step ih =>
    have hcontinues := continues_report (p := p) limits (s.after p limits steps) step
    intro i hi
    rw [after_concat] at hi ⊢
    obtain ⟨entry, hentry, rfl⟩ := List.mem_map.1 hi
    have heffects := effects_step (p := p) limits (s.after p limits steps) step
    rcases heffects.guards entry hentry with hentry | ⟨guard, rfl⟩
    · have hplaces := (ih entry.2 (List.mem_map_of_mem hentry)).continues hcontinues
      exact hplaces.imp_right fun hstray => hstray.append [step]
    · cases hinfo : (s.after p limits steps).world.describe? entry.2 with
      | some info => exact .inl (Option.isSome_iff_exists.2 ⟨info, hcontinues.describe? hinfo⟩)
      | none => exact .inr ⟨steps, guard, List.prefix_refl _, hinfo⟩

theorem events_dropTask (s : Session) (name : String) :
    (s.dropTask name).world.events = s.world.events := by
  unfold dropTask
  split
  · exact s.world.events_drop _
  · rfl

theorem events_dropGuard (s : Session) (name : String) :
    (s.dropGuard name).world.events = s.world.events := by
  unfold dropGuard
  split
  · exact s.world.events_leave _
  · rfl

/-- What a step tells the tracer is about slots, if what a poll of a task tells is. -/
theorem Effects.attests {step : Step} {w : World} {tasks : Named Task} {guards : Named SlotId}
    (h : s.Effects p step w tasks guards) (hnone : s.world.events = [])
    (hpolls : ∀ task out, s.Carries task → task.Course p s.world out → out.2.Attests strays)
    (hplaces : ∀ i ∈ s.world.active, s.world.Places strays i) : w.Attests strays := by
  have hsilent {w : World} (hevents : w.events = s.world.events) : w.Attests strays :=
    .of_nil (hevents.trans hnone)
  cases h with
  | @performs request name out course =>
    have hout := hpolls _ out (.inl rfl) course
    obtain ⟨poll, w⟩ := out
    cases poll with
    | ready result => exact hout
    | pending woken task => exact task.attests_drop p hout
  | ends carries found course => exact hpolls _ _ (.inr ⟨_, found⟩) course
  | waits carries found course => exact hpolls _ _ (.inr ⟨_, found⟩) course
  | spawns | drops => exact hsilent (s.events_dropTask _)
  | cancels | looks => exact hsilent rfl
  | @enters name slot w entered =>
    refine hsilent ((events_dropGuard { s with world := w } name).trans ?_)
    rw [World.enter] at entered
    split at entered
    · cases entered
    · cases entered
      exact events_log _ _
  | @refuses name slot e w refused =>
    have hactive := (World.enter_eq_error refused).1
    rw [World.enter, if_pos hactive] at refused
    cases refused
    refine (Attests.of_nil hnone).of_append ⟨List.prefix_refl _, List.prefix_refl _⟩
      ((places_path hplaces (hplaces slot hactive)).continues ⟨List.prefix_refl _, List.prefix_refl _⟩) ?_
    rw [events_event, events_log]
  | leaves name => exact hsilent (s.events_dropGuard name)
  | @clearsCache query keyType valueType before w opened =>
    have hopen := s.world.events_openCache query keyType valueType
    rw [opened] at hopen
    exact hsilent hopen
  | @clearsSlot query valueType key before w opened =>
    have hopen := s.world.events_openCache query key.type valueType
    rw [opened] at hopen
    exact hsilent ((w.events_clearSlot query key before).trans hopen)
  | makes => exact hsilent (s.world.events_slotFor _ _)
  | opens => exact hsilent (s.world.events_openCache _ _ _)

/-- Nothing has happened in a session yet. -/
structure Unused (p : Program) (s : Session) : Prop where
  orderly : s.Orderly p
  tasks : s.tasks = {}
  guards : s.guards = {}
  collector : s.collector = {}

theorem unused_fresh (p : Program) (memoize traced : Bool) : (Session.fresh memoize traced).Unused p :=
  ⟨orderly_fresh p memoize traced, rfl, rfl, rfl⟩

namespace Unused

variable (hs : s.Unused p)
include hs

theorem exists_threaded (limits : Limits) (steps : List Step)
    (htask : (s.after p limits steps).Carries task) :
    ∃ own, task.Threaded p (s.after p limits steps).world own := by
  rcases htask with hunbegun | ⟨name, hfound⟩
  · exact ⟨[], .unbegun hunbegun⟩
  · obtain ⟨own, told, hattends⟩ := exists_attends limits hs.tasks steps hfound
    exact ⟨own, (hattends.threaded hs.orderly).2 task hfound⟩

/-- At a position in progress there is a slot, unless there was none when a client entered it. -/
theorem places_of_active (limits : Limits) (steps : List Step) :
    ∀ i ∈ (s.after p limits steps).world.active,
      (s.after p limits steps).world.Places (s.Strays p limits steps) i := by
  have haccounted := (hs.orderly.after limits steps).timed.accounted
  intro i hi
  rcases mem_inProgress.1 (haccounted.stacked.mem_iff.1 hi) with hguarded | ⟨entry, hentry, hheld⟩
  · exact places_of_guarded p limits hs.guards steps i hguarded
  · have hfound := haccounted.tasks.get?_of_mem hentry
    obtain ⟨own, hthreaded⟩ := hs.exists_threaded limits steps (.inr ⟨entry.1, hfound⟩)
    cases hthreaded with
    | unbegun unbegun =>
      rw [Task.held, unbegun] at hheld
      cases hheld
    | @underway e own suspended thread =>
      rw [Task.held, suspended] at hheld
      have hheld : i ∈ e.held := hheld
      rw [Evaluation.held_eq] at hheld
      obtain ⟨f, hf, rfl⟩ := List.mem_map.1 hheld
      exact places_of_kind? (thread.onDerived.flights f hf)

/-- What is in progress besides a task. -/
theorem exists_beside (limits : Limits) (steps : List Step)
    (htask : (s.after p limits steps).Carries task) : ∃ others,
      (s.after p limits steps).world.Stacked (task.held ++ others) ∧
        ∀ i ∈ others, (s.after p limits steps).world.Places (s.Strays p limits steps) i := by
  have haccounted := (hs.orderly.after limits steps).timed.accounted
  have hplaces := hs.places_of_active limits steps
  rcases htask with hunbegun | ⟨name, hfound⟩
  · exact ⟨_, haccounted.beside (.inl ⟨hunbegun, rfl⟩),
      fun i hi => hplaces i (haccounted.stacked.mem_iff.2 hi)⟩
  · have hstacked := haccounted.beside (.inr ⟨name, hfound, rfl⟩)
    exact ⟨_, hstacked, fun i hi => hplaces i (hstacked.mem_iff.2 (List.mem_append_right _ hi))⟩

theorem events_after (limits : Limits) (steps : List Step) :
    (s.after p limits steps).world.events = [] := by
  rw [World.events, (hs.orderly.after limits steps).journal]
  rfl

/-- At every point of an evaluation, the tracer has been told of slots. -/
theorem attests_of_reaches (limits : Limits) (steps : List Step) {e e' : Evaluation}
    (htask : (s.after p limits steps).Carries task)
    (hbegins : task.Begins p (s.after p limits steps).world e w)
    (hreaches : Reaches p task.token e w e' w') :
    w'.Attests (s.Strays p limits steps) ∧ ∀ i ∈ w'.active, w'.Places (s.Strays p limits steps) i := by
  obtain ⟨own, hthreaded⟩ := hs.exists_threaded limits steps htask
  obtain ⟨others, hstacked, hothers⟩ := hs.exists_beside limits steps htask
  exact hreaches.attests (hbegins.thread hthreaded).onDerived (hbegins.stacked hstacked)
    (fun j hj => (hothers j hj).continues hbegins.edits.continues)
    (hbegins.attests (.of_nil (hs.events_after limits steps)))

theorem attests_of_course (limits : Limits) (steps : List Step) {out : Poll × World}
    (htask : (s.after p limits steps).Carries task)
    (hcourse : task.Course p (s.after p limits steps).world out) :
    out.2.Attests (s.Strays p limits steps) := by
  obtain ⟨own, hthreaded⟩ := hs.exists_threaded limits steps htask
  obtain ⟨others, hstacked, hothers⟩ := hs.exists_beside limits steps htask
  exact hcourse.attests (fun e w' hbegins => (hbegins.thread hthreaded).onDerived) hstacked hothers
    (.of_nil (hs.events_after limits steps))

/-- During a step, the tracer is told of slots. -/
theorem attests_step (limits : Limits) (steps : List Step) (step : Step) :
    ((s.after p limits steps).step p limits step).2.world.Attests
      (s.Strays p limits (steps ++ [step])) := by
  have hattests := (effects_step (p := p) limits (s.after p limits steps) step).attests
    (hs.events_after limits steps) (fun task out => hs.attests_of_course limits steps)
    (hs.places_of_active limits steps)
  exact hattests.mono fun i hstray => hstray.append [step]

end Unused

end Session

end RedGreen
