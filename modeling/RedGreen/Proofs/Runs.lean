import RedGreen.Proofs.Courses

set_option autoImplicit false

/-! # Bodies that are started

The counter of runs tells which bodies were started, in order. Whatever the program is, a step starts
at most one body, and it does so when a request for a slot, or the computation of a slot, turns into
the run of its body (`Next.runs`). Nothing else that a request does starts a body. -/

namespace RedGreen

open Evaluation

variable {p : Program} {t : Token}

/-- The entry tells neither of a run nor of a request for a derived value. -/
def Entry.Hushed : Entry → Prop
  | .log _ | .event (.inputSet _ _) => True
  | _ => False

namespace World

/-- The bodies that were started. -/
def runs (w : World) : List (Label × Key) := w.journal.runs

variable {w w' w'' : World}

/-! ## Operations that start nothing and end nothing -/

/-- Neither a run nor a request for a derived value is told of. -/
def Hushed (w w' : World) : Prop :=
  ∃ told : Journal, w'.journal = w.journal ++ told ∧ ∀ entry ∈ told, entry.Hushed

theorem Hushed.of_journal (h : w'.journal = w.journal) : w.Hushed w' := ⟨[], by simp [h], nofun⟩

theorem Hushed.note (w : World) {entry : Entry} (h : entry.Hushed) : w.Hushed (w.note entry) :=
  ⟨[entry], rfl, by simpa using h⟩

theorem Hushed.trans (h : w.Hushed w') (h' : w'.Hushed w'') : w.Hushed w'' := by
  obtain ⟨told, htold, hhushed⟩ := h
  obtain ⟨told', htold', hhushed'⟩ := h'
  refine ⟨told ++ told', by rw [htold', htold, List.append_assoc], fun entry hentry => ?_⟩
  exact (List.mem_append.1 hentry).elim (hhushed entry) (hhushed' entry)

/-- The counter of runs does not hear of it. -/
theorem Hushed.runs (h : w.Hushed w') : w'.runs = w.runs := by
  obtain ⟨told, htold, hhushed⟩ := h
  have hnone : told.runs = [] := by
    refine List.filterMap_eq_nil_iff.2 fun entry hentry => ?_
    have hentry := hhushed entry hentry
    cases entry with
    | event | log => rfl
    | run => exact hentry.elim
  rw [World.runs, World.runs, htold, Journal.runs_append, hnone, List.append_nil]

variable (w)

theorem hushed_log (e : LogEvent) : w.Hushed (w.log e) := .note w trivial

theorem hushed_leave (i : SlotId) : w.Hushed (w.leave i) := by
  unfold leave
  split
  · exact hushed_log _ _
  · exact .of_journal rfl

theorem hushed_leaveAll (ids : List SlotId) : w.Hushed (w.leaveAll ids) := by
  induction ids generalizing w with
  | nil => exact .of_journal rfl
  | cons i ids ih => exact (w.hushed_leave i).trans (ih (w.leave i))

theorem hushed_openCache (query : QueryId) (keyType : KeyType) (valueType : ValueType) :
    w.Hushed (w.openCache query keyType valueType).2 := by
  unfold openCache
  split
  · split <;> exact .of_journal rfl
  · exact hushed_log _ _

theorem hushed_slotFor (valueType : ValueType) (fresh : Slot) :
    w.Hushed (w.slotFor valueType fresh).2 := by
  have hopen := w.hushed_openCache fresh.query fresh.key.type valueType
  unfold slotFor
  generalize w.openCache fresh.query fresh.key.type valueType = opened at hopen
  obtain ⟨opened, w₁⟩ := opened
  cases opened with
  | error e => exact hopen
  | ok u =>
    refine hopen.trans ?_
    show w₁.Hushed (w₁.obtain fresh).2
    unfold World.obtain
    split
    · split <;> exact .of_journal rfl
    · exact hushed_log _ _

theorem hushed_record (a : Activation) (dep : SlotId) : w.Hushed (w.record a dep).2 := by
  simp only [record]
  split
  · exact .of_journal rfl
  · exact hushed_log _ _

theorem hushed_perform (t : Token) (a : Activation) (op : Operation) :
    w.Hushed (w.perform t a op).2.2 := by
  cases op with
  | read query valueType key =>
    have hslot : w.Hushed (w.inputSlot query valueType key).2 := w.hushed_slotFor valueType _
    simp only [perform, read]
    generalize w.inputSlot query valueType key = found at hslot
    obtain ⟨found, w₁⟩ := found
    cases found with
    | error e => exact hslot
    | ok dep =>
      have hrecord := hslot.trans (w₁.hushed_record a dep)
      simp only
      split <;> exact hrecord
  | _ => exact .of_journal rfl

theorem hushed_inputValue (query : QueryId) (valueType : ValueType) (key : Key) :
    w.Hushed (w.inputValue query valueType key).2 := by
  have hopen := w.hushed_openCache query key.type valueType
  unfold inputValue
  generalize w.openCache query key.type valueType = opened at hopen
  obtain ⟨opened, w₁⟩ := opened
  cases opened with
  | error e => exact hopen
  | ok u =>
    simp only
    split <;> exact hopen

/-! ## Operations that start nothing -/

@[simp] theorem runs_log (e : LogEvent) : (w.log e).runs = w.runs := (w.hushed_log e).runs

@[simp] theorem runs_event (e : TraceEvent) : (w.event e).runs = w.runs := by
  simp [runs, event, note, Journal.runs]

@[simp] theorem runs_leave (i : SlotId) : (w.leave i).runs = w.runs := (w.hushed_leave i).runs

theorem runs_fail (i : SlotId) (e : QueryError) : (w.fail i e).2.runs = w.runs := by
  simp [fail]

theorem runs_succeed (i : SlotId) (result : Stamped) (outcome : Outcome) :
    (w.succeed i result outcome).2.runs = w.runs := by
  simp [succeed]

theorem runs_setMemo (i : SlotId) (memo : Option Memo) : (w.setMemo i memo).runs = w.runs := rfl

theorem runs_commit (a : Activation) (value : Value) : (w.commit a value).2.runs = w.runs := by
  unfold commit
  split
  · simp only
    split <;> simp [runs_succeed, runs_setMemo]
  · exact w.runs_succeed _ _ _

theorem runs_finish (t : Token) (a : Activation) (result : Except QueryError Value) :
    (w.finish t a result).2.runs = w.runs := by
  unfold finish
  split
  · exact w.runs_fail _ _
  · split
    · split
      · exact w.runs_fail _ _
      · exact w.runs_leave _
    · split
      · exact w.runs_commit _ _
      · exact w.runs_succeed _ _ _

theorem runs_touched (t : Token) (walk : Walk) (dep : SlotId) (changedAt : Revision) :
    (w.touched t walk dep changedAt).2.runs = w.runs := by
  unfold touched
  split
  · exact w.runs_fail _ _
  · split
    · exact runs_log _ _
    · rfl

theorem runs_verify (walk : Walk) : (w.verify walk).2.runs = w.runs := by
  unfold verify
  split
  · simp [runs_succeed, runs_setMemo]
  · rfl

/-! ## Operations that may start a body -/

/-- The body that a slot is bound to, if there is one. -/
def bodyOf (i : SlotId) : List (Label × Key) :=
  match w.slots[i]? with
  | some { key, content := .derived d, .. } => [(d.recompute, key)]
  | _ => []

/-- The body that has been started if this is the next control. -/
def startedAt : Control → List (Label × Key)
  | .body a _ => w.bodyOf a.slot
  | _ => []

theorem runs_startBody (p : Program) (i : SlotId) (r : Revision) :
    (w.startBody p i r).2.runs = w.runs ++ w.startedAt (w.startBody p i r).1 := by
  unfold startBody startedAt bodyOf
  split
  · rename_i hslot
    simp [runs, note, Journal.runs, hslot]
  · simp

theorem startedAt_of_slots {w w' : World} (h : w'.slots = w.slots) : w'.startedAt = w.startedAt := by
  funext c
  cases c <;> simp [startedAt, bodyOf, h]

theorem runs_start (i : SlotId) {c : Control} (hc : w.startedAt c = []) :
    (w.start i c).2.runs = w.runs ++ w.startedAt (w.start i c).1 := by
  have henter : (w.enter i).2.runs = w.runs := by
    unfold enter
    split
    · simp
    · exact runs_log _ _
  unfold start
  generalize w.enter i = entered at henter
  obtain ⟨entered, w₁⟩ := entered
  cases entered with
  | error e => simpa [startedAt] using henter
  | ok u => simpa [hc] using henter

theorem runs_fetch (p : Program) (t : Token) (i : SlotId) :
    (w.fetch p t i).2.runs = w.runs ++ w.startedAt (w.fetch p t i).1 := by
  unfold fetch
  split
  · unfold beginMemoized
    split
    · split
      · simp [startedAt]
      · exact w.runs_start i rfl
    · exact w.runs_start i rfl
  · unfold beginUncached
    split
    · rename_i e w₁ henter
      unfold enter at henter
      split at henter
      · cases henter
        simp [startedAt]
      · cases henter
    · rename_i w₁ henter
      have hw₁ : w₁.runs = w.runs ∧ w₁.slots = w.slots := by
        unfold enter at henter
        split at henter
        · cases henter
        · cases henter
          exact ⟨runs_log _ _, rfl⟩
      split
      · simpa [startedAt] using hw₁.1
      · have hbody := runs_startBody (w₁.log (.computeUncached (w₁.info i) w₁.revision)) p i w₁.revision
        rw [hbody, runs_log, hw₁.1, startedAt_of_slots hw₁.2.symm]
        rfl

theorem runs_compute (p : Program) (t : Token) (i : SlotId) (r : Revision) :
    (w.compute p t i r).2.runs = w.runs ++ w.startedAt (w.compute p t i r).1 := by
  unfold compute
  split
  · simp [startedAt, fail]
  · have hbody := runs_startBody (w.log (.recompute (w.info i) r)) p i r
    rwa [runs_log] at hbody

end World

/-! ## Steps -/

namespace Evaluation

variable {w w' : World}

/-- The body that a step has started. -/
def started (w : World) (e e' : Evaluation) : List (Label × Key) :=
  match e.control with
  | .fetch _ | .compute _ _ => w.startedAt e'.control
  | _ => []

theorem runs_of_stepBody {a : Activation} {body : Body} {frames : List Frame} {e' : Evaluation}
    (h : stepBody p t a body frames w = .running e' w' ∨
      stepBody p t a body frames w = .parked e' w') : w'.runs = w.runs := by
  cases body with
  | done result =>
    obtain ⟨-, rfl⟩ := eq_of_resume h
    exact w.runs_finish t a result
  | perform op next =>
    have hruns := (w.hushed_perform t a op).runs
    simp only [stepBody, Progress.running.injEq, reduceCtorEq, or_false] at h
    exact h.2 ▸ hruns
  | call mode label key next =>
    have hslot : (w.derivedSlot (p label).id (p label).valueType key label
        (p label).equality).2.runs = w.runs := (w.hushed_slotFor _ _).runs
    simp only [stepBody, stepCall] at h
    generalize w.derivedSlot (p label).id (p label).valueType key label (p label).equality = found
      at h hslot
    obtain ⟨found, w₁⟩ := found
    cases found with
    | error e =>
      simp only [Progress.running.injEq, reduceCtorEq, or_false] at h
      exact h.2 ▸ hslot
    | ok callee =>
      simp only [Progress.running.injEq, reduceCtorEq, or_false] at h
      exact h.2 ▸ (w₁.hushed_record a callee).runs.trans hslot
  | yield next =>
    simp only [stepBody, stepYield] at h
    split at h
    · simp only [Progress.parked.injEq, reduceCtorEq, false_or] at h
      exact h.2 ▸ rfl
    · simp only [Progress.running.injEq, reduceCtorEq, or_false] at h
      exact h.2 ▸ (w.hushed_leaveAll _).runs

/-- A step starts the body of a slot if a request for the slot, or its computation, turns into the
    run of the body. -/
theorem Next.runs {e e' : Evaluation} (h : e.Next p t w e' w') :
    w'.runs = w.runs ++ started w e e' := by
  obtain ⟨control, frames⟩ := e
  cases control with
  | fetch i =>
    obtain ⟨rfl, rfl⟩ := eq_of_resume h
    exact w.runs_fetch p t i
  | compute i r =>
    obtain ⟨rfl, rfl⟩ := eq_of_resume h
    exact w.runs_compute p t i r
  | walk walk =>
    obtain ⟨slot, revision, verifiedAt, rest⟩ := walk
    cases rest with
    | nil =>
      obtain ⟨-, rfl⟩ := eq_of_resume h
      simpa [started] using w.runs_verify _
    | cons dep rest =>
      have h : stepWalk t ⟨slot, revision, verifiedAt, dep :: rest⟩ frames w = .running e' w' ∨
          stepWalk t ⟨slot, revision, verifiedAt, dep :: rest⟩ frames w = .parked e' w' := h
      simp only [stepWalk] at h
      split at h
      · simp only [Progress.running.injEq, reduceCtorEq, or_false] at h
        simp [started, h.2]
      · obtain ⟨-, rfl⟩ := eq_of_resume h
        simpa [started] using w.runs_touched t _ _ _
  | body a body => simpa [started] using runs_of_stepBody h
  | answer result =>
    have h : stepAnswer t result frames w = .running e' w' ∨
        stepAnswer t result frames w = .parked e' w' := h
    simp only [started, List.append_nil]
    cases frames with
    | nil => simp [stepAnswer] at h
    | cons frame frames =>
      cases frame with
      | calling caller =>
        simp only [stepAnswer, Progress.running.injEq, reduceCtorEq, or_false] at h
        exact h.2 ▸ rfl
      | touching walk dep =>
        cases result with
        | error e =>
          obtain ⟨-, rfl⟩ := eq_of_resume h
          exact w.runs_fail walk.slot e
        | ok stamped =>
          obtain ⟨-, rfl⟩ := eq_of_resume h
          exact w.runs_touched t walk dep stamped.changedAt

/-- The counter only goes on. -/
theorem Reaches.runs_prefix {e e' : Evaluation} (h : Reaches p t e w e' w') :
    w.runs <+: w'.runs := by
  refine h.preserves (motive := fun _ w' => w.runs <+: w'.runs) ?_ (List.prefix_refl _)
  intro e₁ w₁ e₂ w₂ hnext hruns
  rw [hnext.runs]
  exact hruns.trans (List.prefix_append _ _)

end Evaluation

/-! ## Requests -/

namespace World

variable (w : World)

theorem hushed_write (query : QueryId) (key : Key) (value : Value) :
    w.Hushed (w.write query key value).2 := by
  have hslot : w.Hushed (w.inputSlot query value.type key).2 := w.hushed_slotFor _ _
  unfold write
  generalize w.inputSlot query value.type key = found at hslot
  obtain ⟨found, w₁⟩ := found
  cases found with
  | error e => exact hslot
  | ok i =>
    refine hslot.trans ?_
    simp only [put]
    exact (Hushed.of_journal rfl).trans ((hushed_log _ _).trans (.note _ trivial))

theorem hushed_clearSlot (query : QueryId) (key : Key) (before : Revision) :
    w.Hushed (w.clearSlot query key before).2 := by
  unfold clearSlot
  split
  · exact .of_journal rfl
  · split
    · split <;> exact .of_journal rfl
    · exact .of_journal rfl

end World

theorem Access.hushed_admission (access : Access) (queued : Bool) (w : World) :
    w.Hushed (access.admission queued w).2 := by
  cases access with
  | free => exact .of_journal rfl
  | blocking =>
    simp only [Access.admission]
    split
    · split
      · exact w.hushed_log _
      · exact .of_journal rfl
    · exact .of_journal rfl
  | waiting =>
    simp only [Access.admission]
    split <;> exact .of_journal rfl

theorem Access.hushed_release (access : Access) (w : World) : w.Hushed (access.release w) := by
  cases access <;> exact .of_journal rfl

/-- A request that begins tells of no run, and of no request for a derived value. -/
theorem Request.hushed_begin (p : Program) (request : Request) (w : World) :
    w.Hushed (request.begin p w).2 := by
  have hofSlot {out : Except QueryError SlotId × World} (h : w.Hushed out.2) :
      w.Hushed (Begun.ofSlot out).2 := by
    obtain ⟨out, w'⟩ := out
    cases out <;> exact h
  cases request with
  | write _ id key value =>
    have hown : w.Hushed (w.ownCopy value).2 := by
      unfold World.ownCopy
      split <;> exact .of_journal rfl
    exact hown.trans (World.hushed_write _ id key _)
  | read id valueType key => exact w.hushed_inputValue id valueType key
  | query _ label key => exact hofSlot (w.hushed_slotFor _ _)
  | derive label key equality => exact hofSlot (w.hushed_slotFor _ _)
  | prepare label key equality => exact w.hushed_slotFor _ _
  | touch id valueType key =>
    have hopen := w.hushed_openCache id key.type valueType
    simp only [begin]
    generalize w.openCache id key.type valueType = opened at hopen
    obtain ⟨opened, w₁⟩ := opened
    cases opened with
    | error e => exact hopen
    | ok u =>
      simp only
      split
      · exact hopen
      · split <;> exact hopen
  | clear _ before => exact (World.Hushed.of_journal rfl).trans (World.hushed_log _ _)

/-! ## Tasks -/

/-- What a poll has left when a task that is not done is dropped. -/
def Poll.left : Poll × World → World
  | (.ready _, w) => w
  | (.pending _ task, w) => task.drop w

namespace Task

variable {task : Task} {w : World}

theorem hushed_drop (task : Task) (w : World) : w.Hushed (task.drop w) := by
  unfold drop
  split
  · exact .of_journal rfl
  · exact (w.hushed_leaveAll _).trans (Access.hushed_release _ _)

theorem Begins.hushed {e : Evaluation} {w' : World} (h : task.Begins p w e w') : w.Hushed w' := by
  rcases h with ⟨-, rfl⟩ | ⟨-, w₁, hentry, hbegin⟩
  · exact .of_journal rfl
  · have hhushed := task.request.hushed_begin p w₁
    rw [hbegin] at hhushed
    have hadmission := task.request.access.hushed_admission task.queued w
    rw [hentry] at hadmission
    exact hadmission.trans hhushed

/-- Whatever becomes of a task, it takes back no start of a body. -/
theorem Course.runs_prefix {out : Poll × World} (h : Course p task w out) :
    w.runs <+: (Poll.left out).runs := by
  cases h with
  | waits => exact (task.hushed_drop w).runs.symm ▸ List.prefix_refl _
  | refused unbegun entry =>
    have hadmission := (task.request.access.hushed_admission task.queued w).runs
    rw [entry] at hadmission
    exact hadmission.symm ▸ List.prefix_refl _
  | @answered w₁ w₂ result unbegun entry opens =>
    have hadmission := (task.request.access.hushed_admission task.queued w).runs
    rw [entry] at hadmission
    have hbegin := (task.request.hushed_begin p w₁).runs
    rw [opens] at hbegin
    have hruns : (task.request.access.release w₂).runs = w.runs :=
      (Access.hushed_release _ _).runs.trans (hbegin.trans hadmission)
    exact hruns.symm ▸ List.prefix_refl _
  | parks begins reaches =>
    rw [← begins.hushed.runs]
    exact reaches.runs_prefix.trans ((hushed_drop _ _).runs.symm ▸ List.prefix_refl _)
  | ends begins finishes =>
    rw [← begins.hushed.runs]
    exact finishes.reaches.runs_prefix.trans ((Access.hushed_release _ _).runs.symm ▸ List.prefix_refl _)

end Task

end RedGreen
