import RedGreen.Proofs.Abandonment
import RedGreen.Proofs.Observation

set_option autoImplicit false

/-! # Requests at the entry lock take turns

Only one of the requests that go through the entry lock is under way at a time. So whatever the
client polls in between, a session comes to the same as if these requests had been made one after the
other, each on its own, in the order in which they got the lock: they are answered the same, and the
system is the same (`entry_points_serializable`). A request that is dropped while it is parked counts
as far as it came; one that never got the lock does not count at all. -/

namespace RedGreen

open Evaluation

variable {p : Program} {w w' : World}

/-! ## One revision -/

/-- All that a request under way does and asks for belongs to the revision at which it got the lock,
    and the inputs stay as they were. -/
theorem Task.one_revision {task : Task} {e : Evaluation} {w₁ : World} (hunbegun : task.suspended = none)
    (hbegins : task.Begins p w e w₁) {e' : Evaluation} (h : Reaches p task.token e w₁ e' w') :
    w'.revision = w.revision ∧ (∀ i, w'.written? i = w.written? i) ∧
      ∀ f ∈ e'.flights, f.revision = w.revision := by
  rcases hbegins with ⟨hsuspended, -⟩ | ⟨-, w₀, hentry, hbegin⟩
  · rw [hunbegun] at hsuspended
    cases hsuspended
  have hadmitted := (Access.alters_of_entry hentry).grows
  have hopens := Request.opens_begin p task.request w₀
  rw [hbegin] at hopens
  cases hopens with
  | evaluates rests =>
    refine h.preserves (motive := fun e u => u.revision = w.revision ∧
      (∀ i, u.written? i = w.written? i) ∧ ∀ f ∈ e.flights, f.revision = w.revision) ?_
      ⟨rests.revision.trans hadmitted.revision,
        fun i => (rests.written i).trans (hadmitted.written i),
        fun f hf => absurd hf List.not_mem_nil⟩
    rintro e₁ w₁ e₂ w₂ hnext ⟨hrevision, hwritten, hflights⟩
    have hpersists := hnext.moves.persists
    refine ⟨hpersists.revision.trans hrevision, fun i => (hpersists.written i).trans (hwritten i),
      fun f hf => ?_⟩
    rcases hnext.moves.flights hf with hbefore | hnew
    · exact hflights f hbefore
    · exact hnew.trans hrevision

/-! ## Worlds that agree -/

/-- Two worlds differ in nothing but what observers were told. -/
structure World.Agrees (w v : World) : Prop where
  system : v.toSystem = w.toSystem
  cancelled : v.cancelled = w.cancelled
  allocations : v.allocations = w.allocations

namespace World.Agrees

theorem refl (w : World) : w.Agrees w := ⟨rfl, rfl, rfl⟩

theorem of_retold (w : World) (j : Journal) : w.Agrees (w.retold j) := ⟨rfl, rfl, rfl⟩

theorem eq_retold {v : World} (h : w.Agrees v) : v = w.retold v.journal := by
  obtain ⟨system, cancelled, allocations, journal⟩ := w
  obtain ⟨system', cancelled', allocations', journal'⟩ := v
  obtain ⟨rfl, rfl, rfl⟩ := h
  rfl

theorem symm {v : World} (h : w.Agrees v) : v.Agrees w :=
  ⟨h.system.symm, h.cancelled.symm, h.allocations.symm⟩

theorem trans {v u : World} (h : w.Agrees v) (h' : v.Agrees u) : w.Agrees u :=
  ⟨h'.system.trans h.system, h'.cancelled.trans h.cancelled, h'.allocations.trans h.allocations⟩

/-- What becomes of a task is the same in both. -/
theorem course {v : World} (h : w.Agrees v) {task : Task} {out : Poll × World}
    (hcourse : task.Course p w out) : ∃ v', task.Course p v (out.1, v') ∧ out.2.Agrees v' := by
  obtain ⟨j, hretold⟩ := hcourse.retold v.journal
  rw [← h.eq_retold] at hretold
  exact ⟨_, hretold, .of_retold _ _⟩

theorem drop {v : World} (h : w.Agrees v) (task : Task) : (task.drop w).Agrees (task.drop v) := by
  obtain ⟨j, hretold⟩ := task.drop_retold w v.journal
  rw [h.eq_retold, hretold]
  exact .of_retold _ _

end World.Agrees

/-! ## Turns -/

/-- How the turn of a request ends. -/
inductive Ending where
  | answered (result : Except QueryError Reply)
  /-- It is dropped where its evaluation stands. -/
  | dropped (e : Evaluation)

/-- The turn of a request that has got the entry lock. -/
structure Turn where
  request : Request
  token : Token
  ending : Ending

namespace Turn

/-- The task of the request, before it is polled. -/
def task (turn : Turn) : Task := { request := turn.request, token := turn.token }

/-- What a turn makes of a world when nothing else happens: the request is run to its answer, under
    any limits that are large enough, or it is carried as far as it came and is then dropped. -/
def Plays (p : Program) (turn : Turn) (w w' : World) : Prop :=
  match turn.ending with
  | .answered result => ∃ bound, ∀ budget polls, bound ≤ budget → bound ≤ polls →
    turn.task.run p budget polls w = (.ready result, w')
  | .dropped e => ∃ e₀ w₀ w₁, turn.task.Begins p w e₀ w₀ ∧ Reaches p turn.token e₀ w₀ e w₁ ∧
    w' = Task.drop { turn.task with suspended := some e } w₁

end Turn

/-- What turns make of a world, one after the other. -/
def Serially (p : Program) : List Turn → World → World → Prop
  | [], w, w' => w' = w
  | turn :: turns, w, w' => ∃ w₁, turn.Plays p w w₁ ∧ Serially p turns w₁ w'

theorem Serially.append {turns turns' : List Turn} {w₁ : World} (h : Serially p turns w w₁)
    (h' : Serially p turns' w₁ w') : Serially p (turns ++ turns') w w' := by
  induction turns generalizing w with
  | nil =>
    obtain rfl : w₁ = w := h
    exact h'
  | cons turn turns ih =>
    obtain ⟨w₂, hplays, hrest⟩ := h
    exact ⟨w₂, hplays, ih hrest⟩

/-- The turn that ends with a poll, if one does. A task that has not begun does not begin while the
    entry lock is taken. -/
def Task.turns (task : Task) (w : World) (polled : Poll) : List Turn :=
  if task.suspended.isNone ∧ w.entryLocked then []
  else
    match polled with
    | .ready result => [⟨task.request, task.token, .answered result⟩]
    | .pending _ _ => []

theorem Task.turns_waiting {task : Task} (hunbegun : task.suspended = none)
    (hlocked : w.entryLocked = true) (polled : Poll) : task.turns w polled = [] := by
  unfold Task.turns
  rw [if_pos ⟨by rw [hunbegun]; rfl, hlocked⟩]

theorem Task.turns_pending (task : Task) (w : World) (woken : Bool) (task' : Task) :
    task.turns w (.pending woken task') = [] := by
  unfold Task.turns
  split <;> rfl

theorem Task.turns_ready {task : Task} (h : task.suspended = none → w.entryLocked = false)
    (result : Except QueryError Reply) :
    task.turns w (.ready result) = [⟨task.request, task.token, .answered result⟩] := by
  unfold Task.turns
  refine if_neg fun hand => ?_
  rw [h (Option.isNone_iff_eq_none.1 hand.1)] at hand
  exact nomatch hand.2

/-- The turn that ends when a task is dropped, if it has begun. -/
def Task.lastTurn (task : Task) : List Turn :=
  match task.suspended with
  | some e => [⟨task.request, task.token, .dropped e⟩]
  | none => []

namespace Session

/-- The turns that end with a step. -/
def turns (p : Program) (limits : Limits) (s : Session) : Step → List Turn
  | .perform request token =>
    let task : Task := { request, token := (s.tokenFor token).1 }
    match task.run p limits.steps limits.polls s.world with
    | (.ready result, _) => task.turns s.world (.ready result)
    | (.pending _ task, _) => task.lastTurn
  | .poll name times =>
    match s.tasks.get? name with
    | some task => task.turns s.world (task.pollTimes p limits.steps (max 1 times) s.world).1
    | none => []
  | .run name =>
    match s.tasks.get? name with
    | some task => task.turns s.world (task.run p limits.steps limits.polls s.world).1
    | none => []
  | .drop name | .spawn name _ _ => ((s.tasks.get? name).map Task.lastTurn).getD []
  | _ => []

/-- The turns that end in the course of some steps, in order. -/
def turnsOf (p : Program) (limits : Limits) : Session → List Step → List Turn
  | _, [] => []
  | s, step :: steps => s.turns p limits step ++ turnsOf p limits (s.report p limits step).2 steps

end Session

/-! ## Turns and courses -/

theorem Access.admission_of_locked {access : Access} (hentry : access ≠ .free) (queued : Bool)
    (hlocked : w.entryLocked = true) :
    access.admission queued w = (.waits, w) ∨
      access.admission queued w = (.refused, w.log .blockingRefused) := by
  cases access with
  | free => exact absurd rfl hentry
  | blocking =>
    simp only [Access.admission, hlocked, if_true]
    split
    · exact .inr rfl
    · exact .inl rfl
  | waiting => exact .inl (if_pos hlocked)

theorem Access.unlocked_release {access : Access} (hentry : access ≠ .free) (w : World) :
    (access.release w).entryLocked = false := by
  cases access with
  | free => exact absurd rfl hentry
  | blocking | waiting => rfl

namespace Task

variable {task : Task}

/-- Who begins has found the entry lock free and takes it. -/
theorem Begins.locks {e : Evaluation} (h : task.Begins p w e w')
    (hentry : task.request.access ≠ .free) (hunbegun : task.suspended = none) :
    w.entryLocked = false ∧ w'.entryLocked = true := by
  rcases h with ⟨hsuspended, -⟩ | ⟨-, w₁, hadmission, hbegin⟩
  · rw [hunbegun] at hsuspended
    cases hsuspended
  have hlocks : w.entryLocked = false ∧ w₁.entryLocked = true := by
    cases hlocked : w.entryLocked with
    | true =>
      rcases Access.admission_of_locked hentry task.queued hlocked with hadmission' | hadmission' <;>
        cases hadmission'.symm.trans hadmission
    | false =>
      cases haccess : task.request.access with
      | free => exact absurd haccess hentry
      | blocking | waiting =>
        simp only [haccess, Access.admission, hlocked] at hadmission
        cases hadmission
        exact ⟨rfl, rfl⟩
  have hopens := Request.opens_begin p task.request w₁
  rw [hbegin] at hopens
  cases hopens with
  | evaluates rests => exact ⟨hlocks.1, rests.entryLocked.trans hlocks.2⟩

/-- While the entry lock is taken, a task that goes through it does not begin. -/
theorem Course.of_locked {out : Poll × World} (h : Course p task w out)
    (hentry : task.request.access ≠ .free) (hunbegun : task.suspended = none)
    (hlocked : w.entryLocked = true) :
    w.Agrees out.2 ∧ ((∃ woken queued, out.1 = .pending woken { task with queued }) ∨
      out.1 = .ready (.error .busy)) := by
  cases h with
  | waits => exact ⟨.refl w, .inl ⟨_, _, rfl⟩⟩
  | refused _ entry =>
    rcases Access.admission_of_locked hentry task.queued hlocked with hadmission | hadmission
    · cases hadmission.symm.trans entry
    · cases hadmission.symm.trans entry
      exact ⟨⟨rfl, rfl, rfl⟩, .inr rfl⟩
  | answered _ entry =>
    rcases Access.admission_of_locked hentry task.queued hlocked with hadmission | hadmission <;>
      cases hadmission.symm.trans entry
  | parks begins | ends begins =>
    rw [(begins.locks hentry hunbegun).1] at hlocked
    cases hlocked

/-- A task that is answered on its course is answered the same when it is run, under any limits that
    are large enough. -/
theorem Course.run {result : Except QueryError Reply} (h : Course p task w (.ready result, w'))
    (hunbegun : task.suspended = none) (hunlocked : w.entryLocked = false) :
    ∃ bound, ∀ budget polls, bound ≤ budget → bound ≤ polls →
      task.run p budget polls w = (.ready result, w') := by
  cases h with
  | refused _ entry =>
    obtain ⟨w₁, hadmission, -⟩ := task.request.access.admission_of_unlocked task.queued hunlocked
    cases hadmission.symm.trans entry
  | answered _ entry opens =>
    refine ⟨1, fun budget polls _ hpolls => ?_⟩
    obtain ⟨polls, rfl⟩ := Nat.exists_eq_add_of_le' hpolls
    exact run_of_answered hunbegun entry opens
  | ends begins finishes =>
    rcases begins with ⟨hsuspended, -⟩ | ⟨-, w₁, hentry, hbegin⟩
    · rw [hunbegun] at hsuspended
      cases hsuspended
    obtain ⟨n, hn⟩ := finishes
    refine ⟨n + 1, fun budget polls hbudget hpolls => ?_⟩
    obtain ⟨polls, rfl⟩ : ∃ k, polls = k + 1 := ⟨polls - 1, by omega⟩
    rw [run_of_begin hunbegun hentry hbegin, run_of_finishes task hn (by omega) (by omega)]

/-- Whether it was queued does not matter to a task that finds the entry lock free. -/
theorem Course.requeued {result : Except QueryError Reply}
    (h : Course p task w (.ready result, w')) (hunlocked : w.entryLocked = false) (queued : Bool) :
    Course p { task with queued } w (.ready result, w') := by
  cases h with
  | refused _ entry =>
    obtain ⟨w₁, hadmission, -⟩ := task.request.access.admission_of_unlocked task.queued hunlocked
    cases hadmission.symm.trans entry
  | answered unbegun entry opens =>
    exact .answered unbegun (Access.admitted_of_admitted _ entry) opens
  | ends begins finishes => exact .ends (begins.requeued queued) finishes

/-- A task that finds the entry lock free and is answered has taken its turn and has given the lock
    back. -/
theorem Course.plays {result : Except QueryError Reply} (h : Course p task w (.ready result, w'))
    (hentry : task.request.access ≠ .free) (hunbegun : task.suspended = none)
    (hunlocked : w.entryLocked = false) :
    Turn.Plays p ⟨task.request, task.token, .answered result⟩ w w' ∧ w'.entryLocked = false := by
  constructor
  · obtain ⟨request, token, suspended, queued⟩ := task
    obtain rfl : suspended = none := hunbegun
    exact (h.requeued hunlocked false).run rfl hunlocked
  · cases h with
    | refused _ entry =>
      obtain ⟨w₁, hadmission, -⟩ := task.request.access.admission_of_unlocked task.queued hunlocked
      cases hadmission.symm.trans entry
    | answered | ends => exact Access.unlocked_release hentry _

/-- The turn of a task that is under way goes on or ends. -/
theorem Course.goesOn {e₀ e : Evaluation} {w₀ : World} {out : Poll × World}
    (hentry : task.request.access ≠ .free) (hunlocked : w.entryLocked = false)
    (hbegins : Begins p { task with suspended := none } w e₀ w₀)
    (hreaches : Reaches p task.token e₀ w₀ e w') (hsuspended : task.suspended = some e)
    (hcourse : Course p task w' out) :
    match out with
    | (.ready result, w'') => Turn.Plays p ⟨task.request, task.token, .answered result⟩ w w'' ∧
        w''.entryLocked = false
    | (.pending _ task', w'') => ∃ e' queued, task' = { task with suspended := some e', queued } ∧
        Reaches p task.token e₀ w₀ e' w'' := by
  obtain ⟨request, token, suspended, queued⟩ := task
  obtain rfl : suspended = some e := hsuspended
  have hparks : Course p ⟨request, token, none, queued⟩ w
      (.pending true ⟨request, token, some e, queued⟩, w') := .parks hbegins hreaches
  have htrans := hparks.trans hcourse
  obtain ⟨polled, w''⟩ := out
  cases polled with
  | ready result => exact htrans.plays hentry rfl hunlocked
  | pending woken task' =>
    cases hcourse with
    | waits unbegun => cases unbegun
    | parks begins reaches =>
      rcases begins with ⟨heq, rfl⟩ | ⟨hnone, -⟩
      · cases heq
        exact ⟨_, _, rfl, hreaches.trans reaches⟩
      · cases hnone

/-- A task stays the task of its request. -/
theorem Course.request {task' : Task} {woken : Bool}
    (h : Course p task w (.pending woken task', w')) :
    task'.request = task.request ∧ task'.token = task.token := by
  cases h with
  | waits | parks => exact ⟨rfl, rfl⟩

end Task

/-! ## Sessions at the entry lock -/

/-- A step of a client that makes requests through the entry lock only, and polls, runs and drops its
    tasks as it likes. -/
def Step.AtEntry : Step → Prop
  | .perform request _ | .spawn _ request _ => request.access ≠ .free
  | .poll _ _ | .run _ | .drop _ => True
  | _ => False

namespace Session

variable {s s' : Session} {name : String} {task : Task}

/-- All tasks go through the entry lock. -/
def AtEntry (s : Session) : Prop := ∀ name task, s.tasks.get? name = some task →
  task.request.access ≠ .free

/-- Where a session stands after some turns that have left the entry lock free: nobody is under way
    and the session agrees with what the turns have made of the world, or the turn of one task goes
    on, and the session agrees with what it has made of that world so far. -/
inductive Stands (p : Program) (w : World) (s : Session) : Prop
  | free (unlocked : w.entryLocked = false)
    (unbegun : ∀ name task, s.tasks.get? name = some task → task.suspended = none)
    (agrees : w.Agrees s.world)
  | held {name : String} {task : Task} {e₀ e : Evaluation} {w₀ w' : World}
    (unlocked : w.entryLocked = false) (found : s.tasks.get? name = some task)
    (suspended : task.suspended = some e)
    (unbegun : ∀ other task', other ≠ name → s.tasks.get? other = some task' →
      task'.suspended = none)
    (begins : Task.Begins p { task with suspended := none } w e₀ w₀)
    (reaches : Reaches p task.token e₀ w₀ e w') (agrees : w'.Agrees s.world)

/-- Tasks that have not begun come and go. -/
theorem Stands.of_tasks (h : s.Stands p w) (hagrees : s.world.Agrees s'.world)
    (htasks : ∀ name task, s'.tasks.get? name = some task →
      task.suspended = none ∨ s.tasks.get? name = some task)
    (hkept : ∀ name task, s.tasks.get? name = some task → task.suspended ≠ none →
      s'.tasks.get? name = some task) : s'.Stands p w := by
  cases h with
  | free unlocked unbegun agrees =>
    exact .free unlocked (fun name task htask => (htasks name task htask).elim id (unbegun name task))
      (agrees.trans hagrees)
  | held unlocked found suspended unbegun begins reaches agrees =>
    refine .held unlocked (hkept _ _ found (by rw [suspended]; nofun)) suspended ?_ begins reaches
      (agrees.trans hagrees)
    exact fun other task' hne htask => (htasks other task' htask).elim id (unbegun other task' hne)

/-- A task that has not begun is kept or forgotten. -/
theorem Stands.of_unbegun (h : s.Stands p w) (name : String) (hagrees : s.world.Agrees s'.world)
    (hname : ∀ task, s.tasks.get? name = some task → task.suspended = none)
    (hname' : ∀ task, s'.tasks.get? name = some task → task.suspended = none)
    (hothers : ∀ other, other ≠ name → s'.tasks.get? other = s.tasks.get? other) :
    s'.Stands p w := by
  refine h.of_tasks hagrees (fun other task htask => ?_) fun other task htask hbegun => ?_
  · by_cases hne : other = name
    · exact .inl (hname' task (hne ▸ htask))
    · exact .inr (hothers other hne ▸ htask)
  · by_cases hne : other = name
    · exact absurd (hname task (hne ▸ htask)) hbegun
    · exact (hothers other hne).trans htask

/-- While a task is under way, the entry lock is taken. -/
theorem entryLocked_of_begins {e₀ e : Evaluation} {w₀ : World}
    (hentry : task.request.access ≠ .free)
    (hbegins : Task.Begins p { task with suspended := none } w e₀ w₀)
    (hreaches : Reaches p task.token e₀ w₀ e w') : w'.entryLocked = true :=
  hreaches.persists.entryLocked.trans (hbegins.locks hentry rfl).2

/-- All tasks but the one of a name have not begun. -/
def OthersUnbegun (s : Session) (name : String) : Prop :=
  ∀ other task, other ≠ name → s.tasks.get? other = some task → task.suspended = none

/-- When the task of the name is forgotten, no task has begun. -/
theorem OthersUnbegun.unbegun_of_erase (h : s.OthersUnbegun name)
    (htasks : s'.tasks = s.tasks.erase name) (other : String) (task : Task)
    (hget : s'.tasks.get? other = some task) : task.suspended = none := by
  rw [htasks] at hget
  by_cases hne : other = name
  · rw [hne, Named.get?_erase_self] at hget
    cases hget
  · rw [Named.get?_erase_of_ne _ hne] at hget
    exact h other task hne hget

theorem OthersUnbegun.insert (h : s.OthersUnbegun name) {task : Task}
    (htasks : s'.tasks = s.tasks.insert name task) : s'.OthersUnbegun name := by
  intro other task' hne hget
  rw [htasks, Named.get?_insert_of_ne _ hne] at hget
  exact h other task' hne hget

section

variable {out : Poll × World} (hcourse : task.Course p s.world out)
  (htask : s.tasks.get? name = some task) (hentry : task.request.access ≠ .free)
include hcourse htask hentry

/-- A poll while nobody is under way: a turn begins, and perhaps it ends at once. -/
theorem stands_afterPoll_of_free (unlocked : w.entryLocked = false)
    (unbegun : ∀ name task, s.tasks.get? name = some task → task.suspended = none)
    (agrees : w.Agrees s.world) :
    ∃ w', Serially p (task.turns s.world out.1) w w' ∧ (s.afterPoll name out).2.Stands p w' := by
  have hunbegun := unbegun name task htask
  have hothers : s.OthersUnbegun name := fun other task' _ hget => unbegun other task' hget
  obtain ⟨v, hcourse', hv⟩ := agrees.symm.course hcourse
  obtain ⟨polled, u⟩ := out
  cases polled with
  | ready result =>
    obtain ⟨hplays, hunlocked⟩ := hcourse'.plays hentry hunbegun unlocked
    rw [Task.turns_ready fun _ => by rw [agrees.system, unlocked]]
    exact ⟨v, ⟨v, hplays, rfl⟩, .free hunlocked (hothers.unbegun_of_erase rfl) hv.symm⟩
  | pending woken task' =>
    rw [Task.turns_pending]
    refine ⟨w, rfl, ?_⟩
    cases hcourse' with
    | waits =>
      refine .free unlocked (fun other task' hget => ?_) hv.symm
      by_cases hne : other = name
      · subst hne
        cases (Named.get?_insert_self ..).symm.trans hget
        exact hunbegun
      · exact hothers.insert rfl other task' hne hget
    | @parks _ queued _ _ _ _ begins reaches =>
      refine .held unlocked (Named.get?_insert_self ..) rfl (hothers.insert rfl) ?_ reaches hv.symm
      have hrequeued := begins.requeued queued
      rwa [show { task with queued } = Task.mk task.request task.token none queued by
        rw [← hunbegun]] at hrequeued

omit htask in
/-- A poll of the task that is under way: its turn goes on or ends. -/
theorem stands_afterPoll_of_held {e₀ e : Evaluation} {w₀ w₁ : World} (unlocked : w.entryLocked = false)
    (suspended : task.suspended = some e) (unbegun : s.OthersUnbegun name)
    (begins : Task.Begins p { task with suspended := none } w e₀ w₀)
    (reaches : Reaches p task.token e₀ w₀ e w₁) (agrees : w₁.Agrees s.world) :
    ∃ w', Serially p (task.turns s.world out.1) w w' ∧ (s.afterPoll name out).2.Stands p w' := by
  have hbegun : task.suspended = none → s.world.entryLocked = false := by
    rw [suspended]
    nofun
  obtain ⟨v, hcourse', hv⟩ := agrees.symm.course hcourse
  have hgoesOn := hcourse'.goesOn hentry unlocked begins reaches suspended
  obtain ⟨polled, u⟩ := out
  cases polled with
  | ready result =>
    obtain ⟨hplays, hunlocked⟩ := hgoesOn
    rw [Task.turns_ready hbegun]
    exact ⟨v, ⟨v, hplays, rfl⟩, .free hunlocked (unbegun.unbegun_of_erase rfl) hv.symm⟩
  | pending woken task' =>
    obtain ⟨e', queued, rfl, hreaches⟩ := hgoesOn
    rw [Task.turns_pending]
    exact ⟨w, rfl, .held unlocked (Named.get?_insert_self ..) rfl (unbegun.insert rfl)
      (begins.requeued queued) hreaches hv.symm⟩

/-- A poll of a task that has not begun while the lock is taken: it has to wait, or it is refused. -/
theorem Stands.afterPoll_of_locked (h : s.Stands p w) (hlocked : s.world.entryLocked = true)
    (hunbegun : task.suspended = none) :
    ∃ w', Serially p (task.turns s.world out.1) w w' ∧ (s.afterPoll name out).2.Stands p w' := by
  obtain ⟨hagrees, hwaits⟩ := hcourse.of_locked hentry hunbegun hlocked
  have hname (task' : Task) (hget : s.tasks.get? name = some task') : task'.suspended = none :=
    Option.some.inj (htask.symm.trans hget) ▸ hunbegun
  rw [Task.turns_waiting hunbegun hlocked]
  refine ⟨w, rfl, ?_⟩
  obtain ⟨polled, u⟩ := out
  rcases hwaits with ⟨woken, queued, hpending⟩ | hbusy
  · obtain rfl : polled = _ := hpending
    refine h.of_unbegun name hagrees hname (fun task' hget => ?_)
      fun other hne => Named.get?_insert_of_ne _ hne _
    cases (Named.get?_insert_self ..).symm.trans hget
    exact hunbegun
  · obtain rfl : polled = _ := hbusy
    refine h.of_unbegun name hagrees hname (fun task' hget => ?_)
      fun other hne => Named.get?_erase_of_ne _ hne
    cases (Named.get?_erase_self ..).symm.trans hget

end

/-- A poll of a named task: its turn begins, goes on or ends, or it has to wait. -/
theorem Stands.afterPoll (hs : s.AtEntry) (h : s.Stands p w)
    (htask : s.tasks.get? name = some task) {out : Poll × World}
    (hcourse : task.Course p s.world out) :
    ∃ w', Serially p (task.turns s.world out.1) w w' ∧ (s.afterPoll name out).2.Stands p w' := by
  have hentry := hs name task htask
  cases h with
  | free unlocked unbegun agrees =>
    exact stands_afterPoll_of_free hcourse htask hentry unlocked unbegun agrees
  | @held name₀ task₀ e₀ e w₀ w₁ unlocked found suspended unbegun begins reaches agrees =>
    by_cases hne : name = name₀
    · subst hne
      obtain rfl : task = task₀ := Option.some.inj (htask.symm.trans found)
      exact stands_afterPoll_of_held hcourse hentry unlocked suspended unbegun begins reaches agrees
    · -- another task has the lock
      have hlocked : s.world.entryLocked = true := by
        rw [agrees.system]
        exact entryLocked_of_begins (hs name₀ task₀ found) begins reaches
      have hstands : s.Stands p w := .held unlocked found suspended unbegun begins reaches agrees
      exact hstands.afterPoll_of_locked hcourse htask hentry hlocked (unbegun name task hne htask)

/-- A task is dropped: it never began, or its turn ends here. -/
theorem Stands.dropTask (hs : s.AtEntry) (h : s.Stands p w) (name : String) :
    ∃ w', Serially p (((s.tasks.get? name).map Task.lastTurn).getD []) w w' ∧
      (s.dropTask name).Stands p w' := by
  unfold Session.dropTask
  cases htask : s.tasks.get? name with
  | none => exact ⟨w, rfl, h⟩
  | some task =>
    simp only [Option.map_some, Option.getD_some]
    cases hsuspended : task.suspended with
    | none =>
      refine ⟨w, by rw [Task.lastTurn, hsuspended]; rfl, ?_⟩
      refine h.of_unbegun name ?_ (fun task' hget => ?_) (fun task' hget => ?_)
        fun other hne => Named.get?_erase_of_ne _ hne
      · rw [Task.drop, hsuspended]
        exact .refl _
      · rwa [← Option.some.inj (htask.symm.trans hget)]
      · cases (Named.get?_erase_self ..).symm.trans hget
    | some e =>
      cases h with
      | free unlocked unbegun agrees =>
        rw [unbegun name task htask] at hsuspended
        cases hsuspended
      | @held name₀ task₀ e₀ e' w₀ w₁ unlocked found suspended unbegun begins reaches agrees =>
        by_cases hne : name = name₀
        · subst hne
          obtain rfl : task = task₀ := Option.some.inj (htask.symm.trans found)
          obtain rfl : e' = e := Option.some.inj (suspended.symm.trans hsuspended)
          obtain ⟨request, token, suspended', queued⟩ := task
          obtain rfl : suspended' = some e' := suspended
          have hothers : s.OthersUnbegun name := unbegun
          refine ⟨_, ⟨_, ⟨_, _, _, begins.requeued false, reaches, rfl⟩, rfl⟩,
            .free ?_ (hothers.unbegun_of_erase rfl) (agrees.drop _)⟩
          exact Access.unlocked_release (hs name _ htask) _
        · rw [unbegun name task hne htask] at hsuspended
          cases hsuspended

/-- A request that is made at once: it takes its turn, or it has to wait and is dropped. -/
theorem Stands.perform (limits : Limits) (hs : s.AtEntry) (h : s.Stands p w) {request : Request}
    (hentry : request.access ≠ .free) (token : Option String) :
    ∃ w', Serially p (s.turns p limits (.perform request token)) w w' ∧
      (s.step p limits (.perform request token)).2.Stands p w' := by
  have hworld := s.world_tokenFor token
  have htasks := s.tasks_tokenFor token
  simp only [Session.step, Session.turns]
  generalize s.tokenFor token = out at hworld htasks
  obtain ⟨t, s₁⟩ := out
  simp only at hworld htasks ⊢
  rw [hworld]
  have hcourse := Task.course_run (p := p) limits.steps limits.polls { request, token := t } s.world
  generalize Task.run p limits.steps limits.polls { request, token := t } s.world = out at hcourse
  obtain ⟨polled, u⟩ := out
  -- only the world of the session is another one
  have hstands {w' v : World} (h' : s.Stands p w') (hagrees : s.world.Agrees v) :
      Stands p w' { s₁ with world := v } :=
    h'.of_tasks hagrees (fun _ _ hget => .inr (htasks ▸ hget)) fun _ _ hget _ => htasks ▸ hget
  cases hlocked : s.world.entryLocked with
  | true =>
    obtain ⟨hagrees, hwaits⟩ := hcourse.of_locked hentry rfl hlocked
    rcases hwaits with ⟨woken, queued, hpending⟩ | hbusy
    · obtain rfl : polled = _ := hpending
      exact ⟨w, rfl, hstands h hagrees⟩
    · obtain rfl : polled = _ := hbusy
      refine ⟨w, ?_, hstands h hagrees⟩
      simp only
      rw [Task.turns_waiting rfl hlocked]
      rfl
  | false =>
    cases h with
    | held unlocked found suspended unbegun begins reaches agrees =>
      have := entryLocked_of_begins (hs _ _ found) begins reaches
      rw [← agrees.system, hlocked] at this
      cases this
    | free unlocked unbegun agrees =>
      obtain ⟨v, hcourse', hv⟩ := agrees.symm.course hcourse
      have hfree {w' v : World} (hunlocked : w'.entryLocked = false) (hagrees : w'.Agrees v) :
          Stands p w' { s₁ with world := v } :=
        .free hunlocked (fun name task hget => unbegun name task (htasks ▸ hget)) hagrees
      cases polled with
      | ready result =>
        obtain ⟨hplays, hunlocked⟩ := hcourse'.plays hentry rfl unlocked
        refine ⟨v, ?_, hfree hunlocked hv.symm⟩
        simp only
        rw [Task.turns_ready fun _ => hlocked]
        exact ⟨v, hplays, rfl⟩
      | pending woken task =>
        cases hcourse' with
        | waits => exact ⟨w, rfl, hfree unlocked hv.symm⟩
        | parks begins reaches =>
          refine ⟨_, ⟨_, ⟨_, _, _, begins, reaches, rfl⟩, rfl⟩, hfree ?_ (hv.symm.drop _)⟩
          exact Access.unlocked_release hentry _

theorem atEntry_insert (hs : s.AtEntry) (hentry : task.request.access ≠ .free)
    (htasks : s'.tasks = s.tasks.insert name task) : s'.AtEntry := by
  intro other task' hget
  rw [htasks] at hget
  by_cases hne : other = name
  · rw [hne, Named.get?_insert_self] at hget
    cases hget
    exact hentry
  · rw [Named.get?_insert_of_ne _ hne] at hget
    exact hs other task' hget

theorem atEntry_erase (hs : s.AtEntry) (htasks : s'.tasks = s.tasks.erase name) : s'.AtEntry := by
  intro other task' hget
  rw [htasks] at hget
  by_cases hne : other = name
  · rw [hne, Named.get?_erase_self] at hget
    cases hget
  · rw [Named.get?_erase_of_ne _ hne] at hget
    exact hs other task' hget

theorem AtEntry.afterPoll (hs : s.AtEntry) (htask : s.tasks.get? name = some task)
    {out : Poll × World} (hcourse : task.Course p s.world out) :
    (s.afterPoll name out).2.AtEntry := by
  obtain ⟨polled, u⟩ := out
  cases polled with
  | ready result => exact atEntry_erase hs rfl
  | pending woken task' => exact atEntry_insert hs (hcourse.request.1 ▸ hs name task htask) rfl

theorem AtEntry.step (limits : Limits) (hs : s.AtEntry) {step : Step} (hstep : step.AtEntry) :
    (s.step p limits step).2.AtEntry := by
  cases step with
  | perform request token =>
    have htasks := s.tasks_tokenFor token
    simp only [Session.step]
    split <;> exact fun name task hget => hs name task (htasks ▸ hget)
  | spawn name request token =>
    have htasks : ((s.dropTask name).tokenFor token).2.tasks = s.tasks.erase name := by
      rw [tasks_tokenFor, tasks_dropTask]
    have hdropped : ((s.dropTask name).tokenFor token).2.AtEntry := atEntry_erase hs htasks
    have hrequest : request.access ≠ .free := hstep
    exact atEntry_insert hdropped hrequest rfl
  | poll name times =>
    simp only [Session.step]
    cases htask : s.tasks.get? name with
    | none => exact hs
    | some task => exact hs.afterPoll htask (Task.course_pollTimes limits.steps _ task s.world)
  | run name =>
    simp only [Session.step]
    cases htask : s.tasks.get? name with
    | none => exact hs
    | some task => exact hs.afterPoll htask (Task.course_run limits.steps _ task s.world)
  | drop name => exact atEntry_erase hs (s.tasks_dropTask name)
  | cancel | lookAtToken | enter | leave | stack | slots | describe | stamps | debug | resultsFor
  | takeEvents | cache | clearCache | clearSlot | makeInput | inspect | gatherDeps =>
    exact hstep.elim

/-- Every step carries turns on, and ends some. -/
theorem Stands.step (limits : Limits) (hs : s.AtEntry) (h : s.Stands p w) {step : Step}
    (hstep : step.AtEntry) :
    ∃ w', Serially p (s.turns p limits step) w w' ∧ (s.step p limits step).2.Stands p w' := by
  cases step with
  | perform request token => exact h.perform limits hs hstep token
  | spawn name request token =>
    obtain ⟨w', hserially, hstands⟩ := h.dropTask hs name
    have hworld := (s.dropTask name).world_tokenFor token
    have htasks := (s.dropTask name).tasks_tokenFor token
    have herased : (s.dropTask name).tasks.get? name = none := by
      rw [tasks_dropTask, Named.get?_erase_self]
    simp only [Session.step]
    generalize (s.dropTask name).tokenFor token = out at hworld htasks
    obtain ⟨t, s₁⟩ := out
    simp only at hworld htasks
    refine ⟨w', hserially, hstands.of_tasks ?_ (fun other task hget => ?_) fun other task hget _ => ?_⟩
    · rw [hworld]
      exact .refl _
    · by_cases hne : other = name
      · subst hne
        cases (Named.get?_insert_self ..).symm.trans hget
        exact .inl rfl
      · exact .inr (by rwa [← htasks, ← Named.get?_insert_of_ne s₁.tasks hne])
    · have hne : other ≠ name := by
        rintro rfl
        cases herased.symm.trans hget
      rwa [← htasks, ← Named.get?_insert_of_ne s₁.tasks hne] at hget
  | poll name times =>
    simp only [Session.step, Session.turns]
    cases htask : s.tasks.get? name with
    | none => exact ⟨w, rfl, h⟩
    | some task => exact h.afterPoll hs htask (Task.course_pollTimes limits.steps _ task s.world)
  | run name =>
    simp only [Session.step, Session.turns]
    cases htask : s.tasks.get? name with
    | none => exact ⟨w, rfl, h⟩
    | some task => exact h.afterPoll hs htask (Task.course_run limits.steps _ task s.world)
  | drop name => exact h.dropTask hs name
  | cancel | lookAtToken | enter | leave | stack | slots | describe | stamps | debug | resultsFor
  | takeEvents | cache | clearCache | clearSlot | makeInput | inspect | gatherDeps =>
    exact hstep.elim

theorem Stands.after (limits : Limits) (hs : s.AtEntry) (h : s.Stands p w) {steps : List Step}
    (hsteps : ∀ step ∈ steps, step.AtEntry) :
    (s.after p limits steps).AtEntry ∧
      ∃ w', Serially p (s.turnsOf p limits steps) w w' ∧ (s.after p limits steps).Stands p w' := by
  induction steps generalizing s w with
  | nil => exact ⟨hs, w, rfl, h⟩
  | cons step steps ih =>
    have hstep := hsteps step List.mem_cons_self
    obtain ⟨w₁, hserially, hstands⟩ := h.step limits hs hstep
    -- handing out the journal changes nothing
    have hreported : (s.report p limits step).2.Stands p w₁ :=
      hstands.of_tasks ⟨rfl, rfl, rfl⟩ (fun _ _ hget => .inr hget) fun _ _ hget _ => hget
    obtain ⟨hs', w₂, hserially', hstands'⟩ := ih (s := (s.report p limits step).2)
      (hs.step (p := p) limits hstep) hreported fun step' hmem => hsteps step' (List.mem_cons_of_mem _ hmem)
    exact ⟨hs', w₂, hserially.append hserially', hstands'⟩

/-- What a step that carries a request is answered: the request goes on, or was refused while another
    one has the entry lock, or its turn ends with this answer. -/
def Tells (p : Program) (limits : Limits) (s : Session) (step : Step) (request : Request) : Prop :=
  let answer := (s.report p limits step).1.answer
  answer = .pending ∨
    answer = .failed .busy ∧ s.world.entryLocked = true ∧ s.turns p limits step = [] ∨
    ∃ token result, answer = .ofResult result ∧
      s.turns p limits step = [⟨request, token, .answered result⟩]

/-- The answer of a task that was polled. -/
theorem turns_of_course (hentry : task.request.access ≠ .free) {result : Except QueryError Reply}
    {u : World} (hcourse : task.Course p s.world (.ready result, u)) :
    result = .error .busy ∧ s.world.entryLocked = true ∧ task.turns s.world (.ready result) = [] ∨
      task.turns s.world (.ready result) = [⟨task.request, task.token, .answered result⟩] := by
  cases hsuspended : task.suspended with
  | some e => exact .inr (Task.turns_ready (by rw [hsuspended]; nofun) result)
  | none =>
    cases hlocked : s.world.entryLocked with
    | false => exact .inr (Task.turns_ready (fun _ => hlocked) result)
    | true =>
      refine .inl ⟨?_, rfl, Task.turns_waiting hsuspended hlocked _⟩
      obtain ⟨-, ⟨woken, queued, hpending⟩ | hbusy⟩ := hcourse.of_locked hentry hsuspended hlocked
      · cases hpending
      · exact Poll.ready.inj hbusy

theorem AtEntry.tells (limits : Limits) (hs : s.AtEntry) {step : Step} (hstep : step.AtEntry)
    {request : Request} {name : Option String} (hcarries : step.Carries s request name) :
    s.Tells p limits step request := by
  -- a poll of a named task
  have hpolled {task : Task} {name : String} (htask : s.tasks.get? name = some task)
      {out : Poll × World} (hcourse : task.Course p s.world out)
      (hanswer : (s.report p limits step).1.answer = (s.afterPoll name out).1)
      (hturns : s.turns p limits step = task.turns s.world out.1) :
      s.Tells p limits step task.request := by
    obtain ⟨polled, u⟩ := out
    unfold Tells
    rw [hanswer, hturns]
    cases polled with
    | pending woken task' => exact .inl rfl
    | ready result =>
      rcases turns_of_course (hs name task htask) hcourse with ⟨rfl, hlocked, hnone⟩ | hone
      · exact .inr (.inl ⟨rfl, hlocked, hnone⟩)
      · exact .inr (.inr ⟨_, _, rfl, hone⟩)
  cases hcarries with
  | perform _ token =>
    have hworld := s.world_tokenFor token
    have hentry : request.access ≠ .free := hstep
    simp only [Tells, Session.report, Session.step, Session.turns]
    generalize s.tokenFor token = out at hworld
    obtain ⟨t, s₁⟩ := out
    simp only at hworld ⊢
    rw [hworld]
    have hcourse := Task.course_run (p := p) limits.steps limits.polls { request, token := t } s.world
    generalize Task.run p limits.steps limits.polls { request, token := t } s.world = out at hcourse
    obtain ⟨polled, u⟩ := out
    cases polled with
    | pending woken task => exact .inl rfl
    | ready result =>
      rcases turns_of_course hentry hcourse with ⟨rfl, hlocked, hnone⟩ | hone
      · exact .inr (.inl ⟨rfl, hlocked, hnone⟩)
      · exact .inr (.inr ⟨_, _, rfl, hone⟩)
  | @poll name task times htask =>
    refine hpolled htask (Task.course_pollTimes limits.steps (max 1 times) task s.world) ?_ ?_
    · simp only [Session.report, Session.step, htask]
    · simp only [Session.turns, htask]
  | @run name task htask =>
    refine hpolled htask (Task.course_run limits.steps limits.polls task s.world) ?_ ?_
    · simp only [Session.report, Session.step, htask]
    · simp only [Session.turns, htask]

end Session

/-- Nobody is under way, and all tasks that wait go through the entry lock. -/
structure Session.Idle (s : Session) : Prop where
  unlocked : s.world.entryLocked = false
  unbegun : ∀ name task, s.tasks.get? name = some task → task.suspended = none
  entry : s.AtEntry

/-- Entry points are serializable. Take any program, and a client that polls, runs and drops any
    number of tasks, each of a request that goes through the entry lock, and makes such requests at
    once in between, blocking or waiting, in any order. Let the turns be those of the requests that
    got the lock, in that order, each with its answer or, if it was dropped, with the point that it
    had reached. Then the turns, taken one after the other and each on its own, end with the same
    answers and leave the same system, up to what one request that still has the lock has done since.
    A step that carries a request answers with the end of its turn, or that it waits, or that it was
    refused, and then it has no turn. All that a request does belongs to the revision at which it got
    the lock, and the inputs stay as they were. -/
theorem entry_points_serializable (p : Program) (limits : Session.Limits) {s₀ : Session}
    (hidle : s₀.Idle) {steps : List Step} (hsteps : ∀ step ∈ steps, step.AtEntry) :
    (∃ w, Serially p (s₀.turnsOf p limits steps) s₀.world w ∧
      (s₀.after p limits steps).Stands p w) ∧
    (∀ step request name, step.AtEntry → step.Carries (s₀.after p limits steps) request name →
      (s₀.after p limits steps).Tells p limits step request) ∧
    ∀ (task : Task) w e w₁ e' w', task.suspended = none → task.Begins p w e w₁ →
      Reaches p task.token e w₁ e' w' → w'.revision = w.revision ∧
        (∀ i, w'.written? i = w.written? i) ∧ ∀ f ∈ e'.flights, f.revision = w.revision := by
  have hstands : s₀.Stands p s₀.world := .free hidle.unlocked hidle.unbegun (.refl _)
  obtain ⟨hentry, hserial⟩ := hstands.after limits hidle.entry hsteps
  exact ⟨hserial, fun _ _ _ hstep hcarries => hentry.tells limits hstep hcarries,
    fun _ _ _ _ _ _ hunbegun hbegins hreaches => Task.one_revision hunbegun hbegins hreaches⟩

/-! ## A write waits for a query that is parked -/

/-- A query is parked in the middle; a write that blocks is refused, and one that waits gets its turn
    after the query. -/
def turnSteps : List Step :=
  [.perform (.write .blocking ⟨"x"⟩ .unit (.int 5)) none,
    .spawn "query" (.query .waiting "thrice" .unit) none,
    .poll "query" 1,
    .perform (.write .blocking ⟨"x"⟩ .unit (.int 6)) none,
    .spawn "write" (.write .waiting ⟨"x"⟩ .unit (.int 7)) none,
    .poll "write" 1,
    .run "query",
    .run "write"]

theorem turnSteps_atEntry : ∀ step ∈ turnSteps, step.AtEntry := by
  simp [turnSteps, Step.AtEntry, Request.access]

theorem Session.idle_fresh (memoize traced : Bool) : (Session.fresh memoize traced).Idle where
  unlocked := rfl
  unbegun name task htask := by cases htask
  entry name task htask := by cases htask

theorem entry_points_serializable_thrice :
    ∃ w, Serially thrice
        [⟨.write .blocking ⟨"x"⟩ .unit (.int 5), 0, .answered (.ok (.revision 2))⟩,
          ⟨.query .waiting "thrice" .unit, 1, .answered (.ok (.value (.int 15)))⟩,
          ⟨.write .waiting ⟨"x"⟩ .unit (.int 7), 3, .answered (.ok (.revision 3))⟩]
        (Session.fresh true true).world w ∧
      w.Agrees ((Session.fresh true true).after thrice ⟨40, 3⟩ turnSteps).world := by
  obtain ⟨⟨w, hserially, hstands⟩, -⟩ :=
    entry_points_serializable thrice ⟨40, 3⟩ (Session.idle_fresh true true) turnSteps_atEntry
  refine ⟨w, hserially, ?_⟩
  cases hstands with
  | free unlocked unbegun agrees => exact agrees
  | held unlocked found => cases found

end RedGreen
