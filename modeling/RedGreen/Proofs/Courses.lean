import RedGreen.Proofs.Footprint
import RedGreen.Proofs.Requests
import RedGreen.Proofs.Running

set_option autoImplicit false

/-! # What becomes of a task that is polled

However often a task is polled in a row, and whatever limits its polls have, one of five things
happens (`Course`): it goes on waiting for the entry lock, it is refused, it is answered at once, or
its evaluation takes some steps, after which it is either kept or answered. Nothing is assumed of the
program or of the world.

On the way a task holds the entry lock as long as its request is under way and goes through the lock,
and it has on the active stack the slots that its evaluation holds. -/

namespace RedGreen

open Evaluation

variable {p : Program} {t : Token} {w w' : World}

/-! ## Steps one after the other -/

/-- What every step preserves, a run preserves. -/
theorem Evaluation.Reaches.preserves {motive : Evaluation → World → Prop}
    (hstep : ∀ e w e' w', e.Next p t w e' w' → motive e w → motive e' w') {e e' : Evaluation}
    (h : Reaches p t e w e' w') (hmotive : motive e w) : motive e' w' := by
  obtain ⟨n, hn⟩ := h
  induction n generalizing e w with
  | zero =>
    cases hn
    exact hmotive
  | succ n ih =>
    rw [drive] at hn
    cases hnext : e.step p t w with
    | running e₁ w₁ =>
      rw [hnext] at hn
      exact ih (hstep e w e₁ w₁ (.inl hnext) hmotive) hn
    | parked e₁ w₁ =>
      rw [hnext] at hn
      exact ih (hstep e w e₁ w₁ (.inr hnext) hmotive) hn
    | finished r w₁ =>
      rw [hnext] at hn
      cases hn

/-- A step leaves the revision and the entry lock alone. -/
theorem Evaluation.Moves.persists {e e' : Evaluation} (h : Moves e w e' w') : w.Persists w' := by
  cases h with
  | bounces rests | goesOn _ _ rests | requests _ rests | returns _ rests => exact rests.toPersists
  | enters _ _ _ retains => exact retains.toPersists
  | fails _ vacates | propagates vacates | givesUp _ _ vacates => exact vacates.toPersists
  | succeeds _ _ retains => exact retains.toPersists

theorem Evaluation.Reaches.persists {e e' : Evaluation} (h : Reaches p t e w e' w') :
    w.Persists w' := by
  refine h.preserves (motive := fun _ w' => w.Persists w') ?_ (World.Retains.refl w).toPersists
  intro e₁ w₁ e₂ w₂ hnext hbefore
  exact hbefore.trans hnext.moves.persists

/-! ## Beginnings -/

namespace Request

/-- The outcomes of a request that has been admitted. -/
inductive Opens (w : World) : Begun × World → Prop
  | evaluates {root : SlotId} {w' : World} (rests : w.Rests w') :
    Opens w (.evaluating (.request root), w')
  | fails {e : QueryError} {w' : World} (rests : w.Rests w') : Opens w (.answered (.error e), w')
  | answers {reply : Reply} {w' : World} (active : w'.active = w.active)
    (entryLocked : w'.entryLocked = w.entryLocked) (asyncEntry : w'.asyncEntry = w.asyncEntry) :
    Opens w (.answered (.ok reply), w')

theorem Opens.ofResult {α : Type} (reply : α → Reply) {out : Except QueryError α × World}
    (h : w.Rests out.2) : Opens w (Begun.ofResult reply out) := by
  obtain ⟨result, w'⟩ := out
  cases result with
  | error e => exact .fails h
  | ok a => exact .answers h.active h.entryLocked h.asyncEntry

theorem Opens.ofSlot {out : Except QueryError SlotId × World} (h : w.Rests out.2) :
    Opens w (Begun.ofSlot out) := by
  obtain ⟨result, w'⟩ := out
  cases result with
  | error e => exact .fails h
  | ok i => exact .evaluates h

theorem rests_inputValue (w : World) (query : QueryId) (valueType : ValueType) (key : Key) :
    w.Rests (w.inputValue query valueType key).2 := by
  have hopen := w.rests_openCache query key.type valueType
  unfold World.inputValue
  split
  · rename_i heq
    rwa [heq] at hopen
  · rename_i heq
    rw [heq] at hopen
    split <;> exact hopen

theorem opens_write {w w₁ : World} (h : w.Rests w₁) (query : QueryId) (key : Key) (value : Value) :
    Opens w (Begun.ofResult .revision (w₁.write query key value)) := by
  have hslot := h.trans (w₁.rests_inputSlot query value.type key)
  unfold World.write
  split
  · rename_i heq
    rw [heq] at hslot
    exact .fails hslot
  · rename_i heq
    rw [heq] at hslot
    exact .answers hslot.active hslot.entryLocked hslot.asyncEntry

theorem opens_begin (p : Program) (request : Request) (w : World) :
    Opens w (request.begin p w) := by
  cases request with
  | write access query key value => exact opens_write (w.rests_ownCopy value) query key _
  | read query valueType key => exact .ofResult _ (rests_inputValue w query valueType key)
  | query access label key => exact .ofSlot (w.rests_derivedSlot _ _ _ _ _)
  | derive label key equality => exact .ofSlot (w.rests_derivedSlot _ _ _ _ _)
  | prepare label key equality => exact .ofResult _ (w.rests_derivedSlot _ _ _ _ _)
  | touch query valueType key =>
    have hopen := w.rests_openCache query key.type valueType
    simp only [begin]
    split
    · rename_i heq
      rw [heq] at hopen
      exact .fails hopen
    · rename_i heq
      rw [heq] at hopen
      split
      · exact .answers hopen.active hopen.entryLocked hopen.asyncEntry
      · split
        · exact .evaluates hopen
        · exact .answers hopen.active hopen.entryLocked hopen.asyncEntry
  | clear access before => exact .answers rfl rfl rfl

end Request

/-! ## The entry lock -/

/-- How many of the one entry lock are taken. -/
def World.locks (w : World) : Nat := if w.entryLocked then 1 else 0

/-- How many entry locks a request holds while it is under way. -/
def Access.locks : Access → Nat
  | .free => 0
  | _ => 1

/-- How many entry locks a task holds. -/
def Task.locks (task : Task) : Nat := if task.suspended.isSome then task.request.access.locks else 0

/-- The slots that a task has on the active stack. -/
def Task.held (task : Task) : List SlotId := (task.suspended.map Evaluation.held).getD []

theorem World.locks_le_one (w : World) : w.locks ≤ 1 := by
  unfold World.locks
  split <;> decide

theorem World.unlocked_of_locks (h : w.locks = 0) : w.entryLocked = false := by
  unfold World.locks at h
  split at h
  · cases h
  · exact Bool.not_eq_true _ ▸ ‹_›

theorem World.Persists.locks (h : w.Persists w') : w'.locks = w.locks := by
  rw [World.locks, World.locks, h.entryLocked]

/-- The outcomes of trying the entry lock. -/
inductive Access.Tries (access : Access) (w : World) : Admission × World → Prop
  | admitted {w' : World} (active : w'.active = w.active) (locks : w'.locks = w.locks + access.locks) :
    Tries access w (.admitted, w')
  | waits : Tries access w (.waits, w)
  | refused {w' : World} (rests : w.Rests w') : Tries access w (.refused, w')

theorem Access.tries_admission (access : Access) (queued : Bool) (w : World) :
    access.Tries w (access.admission queued w) := by
  have hlock (waiting : Bool) (hfree : ¬ w.entryLocked = true) :
      (w.lockEntry waiting).locks = w.locks + 1 := by
    rw [World.locks, World.locks, if_neg hfree]
    rfl
  cases access with
  | free => exact .admitted rfl rfl
  | blocking =>
    simp only [Access.admission]
    split
    · split
      · exact .refused (w.rests_log _)
      · exact .waits
    · exact .admitted rfl (hlock _ ‹_›)
  | waiting =>
    simp only [Access.admission]
    split
    · exact .waits
    · exact .admitted rfl (hlock _ ‹_›)

theorem Access.active_release (access : Access) (w : World) :
    (access.release w).active = w.active := by
  cases access <;> rfl

/-- Whoever holds the entry lock gives it back. -/
theorem Access.locks_release {access : Access} {n : Nat} (h : w.locks = n + access.locks) :
    (access.release w).locks = n := by
  cases access with
  | free => exact h
  | blocking | waiting =>
    have hle := w.locks_le_one
    obtain rfl : n = 0 := by
      rw [h] at hle
      exact Nat.le_zero.1 (Nat.le_of_succ_le_succ hle)
    rfl

/-! ## Courses -/

namespace Task

/-- The evaluation of a task, where it stands or as it begins. -/
def Begins (p : Program) (task : Task) (w : World) (e : Evaluation) (w' : World) : Prop :=
  task.suspended = some e ∧ w' = w ∨
    task.suspended = none ∧ ∃ w₁, task.request.access.admission task.queued w = (.admitted, w₁) ∧
      task.request.begin p w₁ = (.evaluating e, w')

/-- Whether it was queued does not matter when a task begins. -/
theorem Begins.requeued {task : Task} {e : Evaluation} (h : task.Begins p w e w') (queued : Bool) :
    Begins p { task with queued } w e w' := by
  rcases h with h | ⟨hunbegun, w₁, hentry, hbegin⟩
  · exact .inl h
  · exact .inr ⟨hunbegun, w₁, Access.admitted_of_admitted _ hentry, hbegin⟩

/-- What becomes of a task that is polled for a while. -/
inductive Course (p : Program) (task : Task) (w : World) : Poll × World → Prop
  | waits {woken queued : Bool} (unbegun : task.suspended = none)
    (stays : task.queued = true → queued = true) :
    Course p task w (.pending woken { task with queued }, w)
  | refused {w' : World} (unbegun : task.suspended = none)
    (entry : task.request.access.admission task.queued w = (.refused, w')) :
    Course p task w (.ready (.error .busy), w')
  | answered {w₁ w₂ : World} {result : Except QueryError Reply} (unbegun : task.suspended = none)
    (entry : task.request.access.admission task.queued w = (.admitted, w₁))
    (opens : task.request.begin p w₁ = (.answered result, w₂)) :
    Course p task w (.ready result, task.request.access.release w₂)
  | parks {woken queued : Bool} {e e' : Evaluation} {w₁ w' : World} (begins : task.Begins p w e w₁)
    (reaches : Reaches p task.token e w₁ e' w') :
    Course p task w (.pending woken { task with suspended := some e', queued }, w')
  | ends {e : Evaluation} {w₁ w' : World} {result : Except QueryError Stamped}
    (begins : task.Begins p w e w₁) (finishes : Evaluation.Finishes p task.token e w₁ result w') :
    Course p task w
      (.ready (result.map task.request.replyOf), task.request.access.release w')

theorem course_resume {task : Task} {e : Evaluation} {w₁ : World} (budget : Nat)
    (hbegins : task.Begins p w e w₁) : Course p task w (task.resume p budget e w₁) := by
  unfold resume settle
  obtain ⟨hfinished, hparked, hrunning⟩ := drive_of_advance budget e w₁ (p := p) (t := task.token)
  have hadvance : Course p task w (settle task (e.advance p task.token budget w₁)) := by
    unfold settle
    split
    · exact .ends hbegins (hfinished _ _ ‹_›)
    · exact .parks hbegins (hparked _ _ ‹_›)
    · exact .parks hbegins (hrunning _ _ ‹_›)
  cases haccess : task.request.access with
  | free | waiting =>
    simp only
    rw [← haccess]
    exact hadvance
  | blocking =>
    simp only
    rw [← haccess]
    split
    · exact .ends hbegins ⟨budget, ‹_›⟩
    · exact absurd ‹_› (drive_ne_parked budget e w₁)
    · exact .parks hbegins ⟨budget, ‹_›⟩

theorem course_poll (budget : Nat) (task : Task) (w : World) :
    Course p task w (task.poll p budget w) := by
  unfold poll
  split
  · exact course_resume budget (.inl ⟨‹_›, rfl⟩)
  · have htries := task.request.access.tries_admission task.queued w
    split
    · exact .refused ‹_› ‹_›
    · rename_i heq
      rw [heq] at htries
      cases htries
      exact .waits ‹_› fun _ => rfl
    · split
      · exact .answered ‹_› ‹_› ‹_›
      · exact course_resume budget (.inr ⟨‹_›, _, ‹_›, ‹_›⟩)

/-- A task that is kept goes on. -/
theorem Course.trans {task task' : Task} {woken : Bool} {out : Poll × World}
    (h : Course p task w (.pending woken task', w')) (h' : Course p task' w' out) :
    Course p task w out := by
  cases h with
  | @waits _ queued unbegun stays =>
    cases h' with
    | waits _ stays' => exact .waits unbegun fun h => stays' (stays h)
    | refused _ entry =>
      -- whoever is refused now was not queued before
      obtain rfl : queued = false := Access.unqueued_of_refused entry
      have hunqueued : task.queued = false := Bool.eq_false_iff.2 fun h => nomatch stays h
      exact .refused unbegun (hunqueued ▸ entry)
    | answered _ entry opens => exact .answered unbegun (Access.admitted_of_admitted _ entry) opens
    | parks begins reaches => exact .parks (begins.requeued task.queued) reaches
    | ends begins finishes => exact .ends (begins.requeued task.queued) finishes
  | @parks _ queued e e' w₁ w' begins reaches =>
    have hgoesOn {e₂ : Evaluation} {w₂ : World}
        (hbegins : Begins p { task with suspended := some e', queued } w' e₂ w₂) :
        e₂ = e' ∧ w₂ = w' := by
      rcases hbegins with ⟨hsuspended, rfl⟩ | ⟨hnone, -⟩
      · exact ⟨(Option.some.inj hsuspended).symm, rfl⟩
      · cases hnone
    cases h' with
    | waits unbegun | refused unbegun | answered unbegun => cases unbegun
    | parks begins' reaches' =>
      obtain ⟨rfl, rfl⟩ := hgoesOn begins'
      exact .parks begins (reaches.trans reaches')
    | ends begins' finishes =>
      obtain ⟨rfl, rfl⟩ := hgoesOn begins'
      exact .ends begins (reaches.finishes finishes)

theorem course_refl (woken : Bool) (task : Task) (w : World) :
    Course p task w (.pending woken task, w) := by
  obtain ⟨request, token, suspended, queued⟩ := task
  cases suspended with
  | none => exact .waits rfl id
  | some e => exact .parks (.inl ⟨rfl, rfl⟩) (.refl e w)

theorem course_pollTimes (budget n : Nat) (task : Task) (w : World) :
    Course p task w (task.pollTimes p budget n w) := by
  match n with
  | 0 => exact course_refl false task w
  | 1 => exact course_poll budget task w
  | n + 2 =>
    have hpoll := course_poll (p := p) budget task w
    rw [pollTimes]
    split
    · rename_i heq
      rw [heq] at hpoll
      exact hpoll.trans (course_pollTimes budget (n + 1) _ _)
    · exact hpoll

theorem course_run (budget polls : Nat) (task : Task) (w : World) :
    Course p task w (task.run p budget polls w) := by
  induction polls generalizing task w with
  | zero => exact course_refl true task w
  | succ polls ih =>
    have hpoll := course_poll (p := p) budget task w
    rw [run]
    split
    · rename_i heq
      rw [heq] at hpoll
      exact hpoll.trans (ih _ _)
    · exact hpoll

/-- Under large enough limits, a task passes each point that driving its evaluation leads to. -/
theorem course_of_drive (task : Task) {n budget polls : Nat} {e e' : Evaluation}
    (h : e.drive p task.token n w = .running e' w') (hbudget : n ≤ budget) (hpolls : n < polls) :
    Course p { task with suspended := some e' } w'
      (run p budget polls { task with suspended := some e } w) := by
  induction n using Nat.strongRecOn generalizing e w polls with
  | _ n ih =>
    obtain ⟨polls, rfl⟩ : ∃ k, polls = k + 1 := ⟨polls - 1, by omega⟩
    obtain ⟨k, rfl⟩ := Nat.exists_eq_add_of_le hbudget
    -- the first poll goes on from the point, or it stops before it
    have hpass (hresume : task.resume p (n + k) e w = task.resume p k e' w') :
        Course p { task with suspended := some e' } w'
          (run p (n + k) (polls + 1) { task with suspended := some e } w) := by
      have hresumed : Course p { task with suspended := some e' } w' (task.resume p (n + k) e w) :=
        hresume ▸ course_resume k (.inl ⟨rfl, rfl⟩)
      have hpoll : Task.poll p (n + k) { task with suspended := some e } w =
          task.resume p (n + k) e w := rfl
      rw [run, hpoll]
      split
      · rename_i heq
        exact (heq ▸ hresumed).trans (course_run _ _ _ _)
      · exact hresumed
    cases haccess : task.request.access with
    | blocking => exact hpass (by simp only [resume, haccess, drive_add_of_running h])
    | free | waiting =>
      rcases advance_of_running h k with hadvance | ⟨e₁, w₁, m, hm, hpark, hrest⟩
      · exact hpass (by simp only [resume, haccess, hadvance])
      · rw [run]
        simp only [poll, resume, haccess, hpark, settle]
        exact ih m hm hrest (by omega) (by omega)

end Task

end RedGreen
