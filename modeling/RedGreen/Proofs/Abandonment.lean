import Mathlib.Algebra.GroupWithZero.Nat
import Mathlib.Algebra.BigOperators.Group.List.Basic
import Mathlib.Data.List.Flatten
import RedGreen.Proofs.Calls
import RedGreen.Proofs.Concurrency
import RedGreen.Proofs.Courses

set_option autoImplicit false

/-! # Failed and abandoned computations commit nothing

A session keeps account of what is in progress: the active stack lists the slots of its guards and
those that its tasks hold, each once, and the entry lock is taken if a task that goes through it is
under way. Every step keeps these accounts, whatever the program is and whatever the client does
(`Session.Accounted.report`). So a task that is gone, because it was answered or dropped, has left
nothing behind, and what its calls have kept is what they have answered with a value
(`abandoned_computations_commit_nothing`). -/

namespace RedGreen

open Evaluation

variable {p : Program}

/-! ## Accounts of a task -/

/-- A task is accounted for: its slots are on the active stack beside those of others, it holds the
    entry lock if it goes through it and is under way, and all its slots in progress are the slots of
    calls on their way. -/
structure Task.Accounted (p : Program) (w : World) (others : List SlotId) (locks : Nat)
    (task : Task) : Prop where
  stacked : w.Stacked (task.held ++ others)
  locks : w.locks = locks + task.locks
  calls : ∀ e, task.suspended = some e → e.ByCalls p task.token w others

/-- What is left of a poll is accounted for. -/
def Poll.Accounted (p : Program) (others : List SlotId) (locks : Nat) : Poll × World → Prop
  | (.ready _, w) => w.Stacked others ∧ w.locks = locks
  | (.pending _ task, w) => task.Accounted p w others locks

namespace Task

variable {task : Task} {w w' : World} {others : List SlotId} {locks : Nat}

/-- A task that has not begun accounts for nothing. -/
theorem accounted_of_unbegun (hunbegun : task.suspended = none) (hstacked : w.Stacked others)
    (hlocks : w.locks = locks) : task.Accounted p w others locks where
  stacked := by rwa [held, hunbegun]
  locks := by rw [Task.locks, hunbegun]; exact hlocks
  calls e he := by rw [hunbegun] at he; cases he

theorem Accounted.of_unbegun (h : task.Accounted p w others locks)
    (hunbegun : task.suspended = none) : w.Stacked others ∧ w.locks = locks := by
  have hstacked := h.stacked
  have hlocks := h.locks
  rw [held, hunbegun] at hstacked
  rw [Task.locks, hunbegun] at hlocks
  exact ⟨hstacked, hlocks⟩

theorem accounted_of_suspended {e : Evaluation} {queued : Bool}
    (h : e.ByCalls p task.token w others)
    (hlocks : w.locks = locks + task.request.access.locks) :
    Accounted p w others locks { task with suspended := some e, queued } where
  stacked := h.stacked
  locks := hlocks
  calls e' he' := by
    obtain rfl := Option.some.inj he'
    exact h

theorem Accounted.begins (h : task.Accounted p w others locks) {e : Evaluation}
    (hbegins : task.Begins p w e w') :
    e.ByCalls p task.token w' others ∧ w'.locks = locks + task.request.access.locks := by
  rcases hbegins with ⟨hsuspended, rfl⟩ | ⟨hunbegun, w₁, hentry, hbegin⟩
  · refine ⟨h.calls e hsuspended, h.locks.trans ?_⟩
    rw [Task.locks, hsuspended]
    rfl
  · obtain ⟨hstacked, hlocks⟩ := h.of_unbegun hunbegun
    have htries := task.request.access.tries_admission task.queued w
    have hopens := Request.opens_begin p task.request w₁
    rw [hentry] at htries
    rw [hbegin] at hopens
    cases htries with
    | admitted active locked =>
      cases hopens with
      | evaluates rests =>
        refine ⟨.request _ (hstacked.of_active (rests.active.trans active)), ?_⟩
        rw [rests.locks, locked, hlocks]

/-- However a task is polled, it stays accounted for. -/
theorem Course.accounted {out : Poll × World} (hcourse : Course p task w out)
    (h : task.Accounted p w others locks) : Poll.Accounted p others locks out := by
  cases hcourse with
  | waits => exact ⟨h.stacked, h.locks, h.calls⟩
  | refused unbegun entry =>
    obtain ⟨hstacked, hlocks⟩ := h.of_unbegun unbegun
    have htries := task.request.access.tries_admission task.queued w
    rw [entry] at htries
    cases htries with
    | refused rests => exact ⟨hstacked.of_active rests.active, rests.locks.trans hlocks⟩
  | @answered w₁ w₂ result unbegun entry opens =>
    obtain ⟨hstacked, hlocks⟩ := h.of_unbegun unbegun
    have htries := task.request.access.tries_admission task.queued w
    have hopens := Request.opens_begin p task.request w₁
    rw [entry] at htries
    rw [opens] at hopens
    have hrest : w₂.active = w₁.active ∧ w₂.locks = w₁.locks := by
      cases hopens with
      | fails rests => exact ⟨rests.active, rests.locks⟩
      | answers active locked => exact ⟨active, by rw [World.locks, World.locks, locked]⟩
    cases htries with
    | admitted active locked =>
      refine ⟨hstacked.of_active ?_, Access.locks_release ?_⟩
      · rw [Access.active_release, hrest.1, active]
      · rw [hrest.2, locked, hlocks]
  | parks begins reaches =>
    obtain ⟨hcalls, hlocks⟩ := h.begins begins
    refine accounted_of_suspended ?_ (reaches.persists.locks.trans hlocks)
    exact reaches.preserves (motive := fun e w => e.ByCalls p task.token w others)
      (fun _ _ _ _ hnext hcalls => hcalls.next hnext) hcalls
  | ends begins finishes =>
    obtain ⟨hcalls, hlocks⟩ := h.begins begins
    have hreaches := finishes.reaches
    have hend := hreaches.preserves (motive := fun e w => e.ByCalls p task.token w others)
      (fun _ _ _ _ hnext hcalls => hcalls.next hnext) hcalls
    refine ⟨hend.stacked.of_active (Access.active_release _ _), Access.locks_release ?_⟩
    exact hreaches.persists.locks.trans hlocks

/-- A task that is dropped changes no memo, takes its slots off the active stack, and gives the entry
    lock back. -/
theorem Accounted.drop (h : task.Accounted p w others locks) :
    (∀ i, (task.drop w).memo? i = w.memo? i) ∧ (task.drop w).Stacked others ∧
      (task.drop w).locks = locks := by
  unfold Task.drop
  cases hsuspended : task.suspended with
  | none =>
    obtain ⟨hstacked, hlocks⟩ := h.of_unbegun hsuspended
    exact ⟨fun _ => rfl, hstacked, hlocks⟩
  | some e =>
    have hvacates := w.vacates_leaveAll e.held
    have hrelease := task.request.access.alters_release (e.abandon w)
    refine ⟨fun i => (hrelease.grows.memo i).trans (hvacates.memo i), ?_, ?_⟩
    · exact (World.Stacked.vacates e.held (h.calls e hsuspended).stacked hvacates.active).of_active
        hrelease.active
    · refine Access.locks_release (hvacates.locks.trans (h.locks.trans ?_))
      rw [Task.locks, hsuspended]
      rfl

end Task

/-! ## Things kept by name -/

namespace Named

variable {α : Type} {n : Named α} {name : String} {a : α}

/-- There is at most one thing of a name. -/
def Distinct (n : Named α) : Prop := (n.entries.map Prod.fst).Nodup

theorem Distinct.erase (h : n.Distinct) (name : String) : (n.erase name).Distinct :=
  List.Nodup.sublist (List.filter_sublist.map _) h

theorem Distinct.insert (h : n.Distinct) (name : String) (a : α) : (n.insert name a).Distinct := by
  refine List.nodup_cons.2 ⟨fun hmem => ?_, h.erase name⟩
  obtain ⟨entry, hentry, hname⟩ := List.mem_map.1 hmem
  simpa [hname] using (List.mem_filter.1 hentry).2

theorem erase_of_get?_none (h : n.get? name = none) : n.erase name = n := by
  obtain ⟨entries⟩ := n
  refine congrArg Named.mk (List.filter_eq_self.2 fun entry hentry => ?_)
  have := List.lookup_eq_none_iff.1 h entry hentry
  simpa [bne, BEq.comm] using this

/-- The thing of a name and the things of other names are all there is. -/
theorem Distinct.perm_of_get? (h : n.Distinct) (hget : n.get? name = some a) :
    n.entries.Perm ((name, a) :: (n.erase name).entries) := by
  obtain ⟨entries⟩ := n
  simp only [Distinct, get?, Named.erase] at h hget ⊢
  induction entries with
  | nil => cases hget
  | cons entry entries ih =>
    obtain ⟨key, b⟩ := entry
    obtain ⟨hkey, hdistinct⟩ := List.nodup_cons.1 h
    by_cases hname : key = name
    · subst hname
      simp only [List.lookup_cons, beq_self_eq_true, Option.some.injEq] at hget
      subst hget
      have hrest : entries.filter (fun entry => entry.1 != key) = entries := by
        refine List.filter_eq_self.2 fun entry hentry => ?_
        have hmem : entry.1 ∈ entries.map Prod.fst := List.mem_map_of_mem hentry
        have hne : entry.1 ≠ key := fun heq => hkey (heq ▸ hmem)
        simpa using hne
      simp [hrest]
    · have hne : (name == key) = false := by simpa using Ne.symm hname
      simp only [List.lookup_cons, hne] at hget
      simp only [List.filter_cons, bne_iff_ne, ne_eq, hname, not_false_eq_true, if_true]
      exact ((ih hdistinct hget).cons _).trans (List.Perm.swap ..)

end Named

/-! ## Accounts of a session -/

namespace Session

variable {s s' : Session} {name : String} {task : Task}

/-- The slots under guards. -/
def guarded (s : Session) : List SlotId := s.guards.entries.map Prod.snd

/-- The slots in progress: those that tasks hold and those under guards. -/
def inProgress (s : Session) : List SlotId :=
  (s.tasks.entries.flatMap fun entry => entry.2.held) ++ s.guarded

/-- What is in progress besides a task. -/
def heldBeside (s : Session) (name : String) : List SlotId :=
  ((s.tasks.erase name).entries.flatMap fun entry => entry.2.held) ++ s.guarded

/-- How many entry locks the tasks hold. -/
def locks (s : Session) : Nat := (s.tasks.entries.map fun entry => entry.2.locks).sum

/-- How many entry locks are held besides a task. -/
def locksBeside (s : Session) (name : String) : Nat :=
  ((s.tasks.erase name).entries.map fun entry => entry.2.locks).sum

/-- Everything in progress is accounted for by the tasks and the guards. -/
structure Accounted (p : Program) (s : Session) : Prop where
  tasks : s.tasks.Distinct
  guards : s.guards.Distinct
  /-- The active stack lists the slots in progress, each once. -/
  stacked : s.world.Stacked s.inProgress
  /-- The entry lock is taken if a task holds it. -/
  locks : s.world.locks = s.locks
  /-- Evaluations have come about by calls. -/
  calls : ∀ name task e, s.tasks.get? name = some task → task.suspended = some e →
    ∃ others, e.ByCalls p task.token s.world others

theorem perm_inProgress (h : s.tasks.Distinct) (htask : s.tasks.get? name = some task) :
    s.inProgress.Perm (task.held ++ s.heldBeside name) := by
  have hperm := (h.perm_of_get? htask).flatMap_right fun entry => entry.2.held
  rw [inProgress, heldBeside, ← List.append_assoc]
  exact hperm.append_right _

theorem locks_eq (h : s.tasks.Distinct) (htask : s.tasks.get? name = some task) :
    s.locks = s.locksBeside name + task.locks := by
  have hperm := (h.perm_of_get? htask).map fun entry => entry.2.locks
  rw [locks, locksBeside, hperm.sum_eq, List.map_cons, List.sum_cons, Nat.add_comm]

/-- Without tasks and guards nothing is in progress. -/
theorem Accounted.idle (h : s.Accounted p) (htasks : s.tasks.entries = [])
    (hguards : s.guards.entries = []) : s.world.active = [] := by
  have hperm := h.stacked.perm
  simpa [inProgress, guarded, htasks, hguards] using hperm

/-- Without tasks nobody holds the entry lock. -/
theorem Accounted.free (h : s.Accounted p) (htasks : s.tasks.entries = []) :
    s.world.entryLocked = false := by
  refine World.unlocked_of_locks ?_
  rw [h.locks, Session.locks, htasks]
  rfl

theorem Accounted.of_get? (h : s.Accounted p) (htask : s.tasks.get? name = some task) :
    task.Accounted p s.world (s.heldBeside name) (s.locksBeside name) where
  stacked := h.stacked.of_perm (perm_inProgress h.tasks htask)
  locks := h.locks.trans (locks_eq h.tasks htask)
  calls e he := by
    obtain ⟨others, hcalls⟩ := h.calls name task e htask he
    refine hcalls.meanwhile ?_
    have hstacked := h.stacked.of_perm (perm_inProgress h.tasks htask)
    rwa [Task.held, he] at hstacked

/-- The evaluations of a session that are as they were have come about by calls. -/
theorem Accounted.calls_of (h : s.Accounted p) (htasks : s'.tasks.Distinct)
    (hstacked : s'.world.Stacked s'.inProgress) {e : Evaluation}
    (htask : s.tasks.get? name = some task) (htask' : s'.tasks.get? name = some task)
    (he : task.suspended = some e) : ∃ others, e.ByCalls p task.token s'.world others := by
  obtain ⟨others, hcalls⟩ := h.calls name task e htask he
  have hstacked' := hstacked.of_perm (perm_inProgress htasks htask')
  rw [Task.held, he] at hstacked'
  exact ⟨_, hcalls.meanwhile hstacked'⟩

/-- The world changes and the tasks stay. -/
theorem Accounted.of_world (h : s.Accounted p) (htasks : s'.tasks = s.tasks)
    (hguards : s'.guards.Distinct)
    (hstacked : s'.world.Stacked ((s.tasks.entries.flatMap fun entry => entry.2.held) ++ s'.guarded))
    (hlocks : s'.world.locks = s.world.locks) : s'.Accounted p := by
  have hstacked' : s'.world.Stacked s'.inProgress := by rwa [inProgress, htasks]
  have hdistinct : s'.tasks.Distinct := htasks ▸ h.tasks
  refine ⟨hdistinct, hguards, hstacked', ?_, fun name task e htask he => ?_⟩
  · rw [hlocks, h.locks, Session.locks, Session.locks, htasks]
  · exact h.calls_of hdistinct hstacked' (htasks ▸ htask) htask he

/-- The world rests, apart from what is kept in it. -/
theorem Accounted.of_active (h : s.Accounted p) (htasks : s'.tasks = s.tasks)
    (hguards : s'.guards = s.guards) (hactive : s'.world.active = s.world.active)
    (hlocked : s'.world.entryLocked = s.world.entryLocked) : s'.Accounted p := by
  refine h.of_world htasks (hguards ▸ h.guards) (h.stacked.of_active hactive |>.of_perm ?_) ?_
  · rw [inProgress, guarded, guarded, hguards]
  · rw [World.locks, World.locks, hlocked]

/-- A task is forgotten and gives up what it held. -/
theorem Accounted.erase (h : s.Accounted p) (htasks : s'.tasks = s.tasks.erase name)
    (hguards : s'.guards = s.guards) (hstacked : s'.world.Stacked (s.heldBeside name))
    (hlocks : s'.world.locks = s.locksBeside name) : s'.Accounted p := by
  have hstacked' : s'.world.Stacked s'.inProgress := by
    rw [inProgress, guarded, htasks, hguards]
    exact hstacked
  have hdistinct : s'.tasks.Distinct := htasks ▸ h.tasks.erase name
  refine ⟨hdistinct, hguards ▸ h.guards, hstacked', ?_, fun other task e htask he => ?_⟩
  · rw [hlocks, locksBeside, Session.locks, htasks]
  · refine h.calls_of hdistinct hstacked' ?_ htask he
    rw [htasks] at htask
    by_cases hne : other = name
    · rw [hne, Named.get?_erase_self] at htask
      cases htask
    · rwa [Named.get?_erase_of_ne _ hne] at htask

/-- A task is kept in place of one of the same name. -/
theorem Accounted.insert (h : s.Accounted p) (htasks : s'.tasks = s.tasks.insert name task)
    (hguards : s'.guards = s.guards)
    (htask : task.Accounted p s'.world (s.heldBeside name) (s.locksBeside name)) :
    s'.Accounted p := by
  have hstacked' : s'.world.Stacked s'.inProgress := by
    refine htask.stacked.of_perm ?_
    rw [inProgress, guarded, htasks, hguards, heldBeside, ← List.append_assoc]
    exact .refl _
  have hdistinct : s'.tasks.Distinct := htasks ▸ h.tasks.insert name task
  refine ⟨hdistinct, hguards ▸ h.guards, hstacked', ?_, fun other task' e htask' he => ?_⟩
  · rw [htask.locks, locksBeside, Session.locks, htasks, Nat.add_comm]
    rfl
  · by_cases hne : other = name
    · subst hne
      rw [htasks, Named.get?_insert_self] at htask'
      cases htask'
      exact ⟨_, htask.calls e he⟩
    · refine h.calls_of hdistinct hstacked' ?_ htask' he
      rwa [htasks, Named.get?_insert_of_ne _ hne] at htask'

/-! ## Steps -/

@[simp] theorem guards_tokenFor (s : Session) (name : Option String) :
    (s.tokenFor name).2.guards = s.guards := by
  unfold tokenFor
  split
  · rfl
  · split <;> rfl

theorem Accounted.tokenFor (h : s.Accounted p) (name : Option String) :
    (s.tokenFor name).2.Accounted p :=
  h.of_active (s.tasks_tokenFor name) (s.guards_tokenFor name) (by rw [s.world_tokenFor name])
    (by rw [s.world_tokenFor name])

@[simp] theorem tasks_dropTask (s : Session) (name : String) :
    (s.dropTask name).tasks = s.tasks.erase name := by
  unfold Session.dropTask
  cases htask : s.tasks.get? name with
  | none => exact (Named.erase_of_get?_none htask).symm
  | some task => rfl

theorem Accounted.dropTask (h : s.Accounted p) (name : String) : (s.dropTask name).Accounted p := by
  unfold Session.dropTask
  cases htask : s.tasks.get? name with
  | none => exact h
  | some task =>
    obtain ⟨-, hstacked, hlocks⟩ := (h.of_get? htask).drop
    exact h.erase rfl rfl hstacked hlocks

theorem Accounted.afterPoll (h : s.Accounted p) (htask : s.tasks.get? name = some task)
    {out : Poll × World} (hcourse : task.Course p s.world out) :
    (s.afterPoll name out).2.Accounted p := by
  have hout := hcourse.accounted (h.of_get? htask)
  obtain ⟨poll, w⟩ := out
  cases poll with
  | ready r => exact h.erase rfl rfl hout.1 hout.2
  | pending woken task' => exact h.insert rfl rfl hout

/-- A guard that is dropped takes its slot off the active stack. -/
theorem dropGuard_spec (hguards : s.guards.Distinct) (others : List SlotId)
    (hstacked : s.world.Stacked (others ++ s.guarded)) (name : String) :
    (s.dropGuard name).world.Stacked (others ++ ((s.guards.erase name).entries.map Prod.snd)) ∧
      (s.dropGuard name).guards = s.guards.erase name ∧ (s.dropGuard name).tasks = s.tasks ∧
      (s.dropGuard name).world.locks = s.world.locks := by
  unfold dropGuard
  cases hguard : s.guards.get? name with
  | none =>
    have herase := Named.erase_of_get?_none hguard
    exact ⟨by rwa [herase], herase.symm, rfl, rfl⟩
  | some slot =>
    have hvacates := s.world.vacates_leave slot
    refine ⟨World.Stacked.vacates [slot] (hstacked.of_perm ?_) hvacates.active, rfl, rfl,
      hvacates.locks⟩
    have hperm := (hguards.perm_of_get? hguard).map Prod.snd
    exact (hperm.append_left others).trans List.perm_middle

/-- A task that has not begun is kept under a name that is free. -/
theorem Accounted.spawn (h : s.Accounted p) (hfree : s.tasks.get? name = none)
    (hunbegun : task.suspended = none) :
    Accounted p { s with tasks := s.tasks.insert name task } := by
  have herase := Named.erase_of_get?_none hfree
  refine h.insert rfl rfl (Task.accounted_of_unbegun hunbegun ?_ ?_)
  · rw [heldBeside, herase]
    exact h.stacked
  · rw [locksBeside, herase]
    exact h.locks

theorem active_clearSlot (w : World) (query : QueryId) (key : Key) (before : Revision) :
    (w.clearSlot query key before).2.active = w.active ∧
      (w.clearSlot query key before).2.entryLocked = w.entryLocked := by
  unfold World.clearSlot
  split
  · exact ⟨rfl, rfl⟩
  · split
    · split <;> exact ⟨rfl, rfl⟩
    · exact ⟨rfl, rfl⟩

/-- A request that is carried as far as the limits go leaves nothing behind. -/
theorem Accounted.perform (limits : Limits) (h : s.Accounted p) (request : Request)
    (token : Option String) : (s.step p limits (.perform request token)).2.Accounted p := by
  have hworld := s.world_tokenFor token
  have htasks := s.tasks_tokenFor token
  have hguards := s.guards_tokenFor token
  simp only [Session.step]
  generalize s.tokenFor token = out at hworld htasks hguards
  obtain ⟨t, s₁⟩ := out
  simp only at hworld htasks hguards
  have hcourse := Task.course_run (p := p) limits.steps limits.polls { request, token := t } s.world
  have hout := hcourse.accounted (Task.accounted_of_unbegun rfl h.stacked rfl)
  rw [hworld]
  generalize Task.run p limits.steps limits.polls { request, token := t } s.world = ended at hout
  obtain ⟨poll, w⟩ := ended
  have hdone {w' : World} (hstacked : w'.Stacked s.inProgress) (hlocks : w'.locks = s.world.locks) :
      Accounted p { s₁ with world := w' } :=
    h.of_world htasks (hguards ▸ h.guards)
      (by rw [guarded, hguards]; exact hstacked) hlocks
  cases poll with
  | ready r => exact hdone hout.1 hout.2
  | pending woken task =>
    obtain ⟨-, hstacked, hlocks⟩ := Task.Accounted.drop hout
    exact hdone hstacked hlocks

/-- A guard of the same name leaves after the new one has entered. -/
theorem Accounted.enter (limits : Limits) (h : s.Accounted p) (name : String) (slot : SlotId) :
    (s.step p limits (.enter name slot)).2.Accounted p := by
  simp only [Session.step]
  rcases s.world.enter_footprint slot with
    ⟨e, w, henter, hrests⟩ | ⟨w, henter, hout, hactive, hretains⟩
  · rw [henter]
    exact h.of_active rfl rfl hrests.active hrests.entryLocked
  · rw [henter]
    let held := s.tasks.entries.flatMap fun entry => entry.2.held
    obtain ⟨hstacked', hguards, htasks, hlocks⟩ :=
      dropGuard_spec (s := { s with world := w }) h.guards (slot :: held)
        (h.stacked.enter hout hactive) name
    refine h.of_world htasks ?_ ?_ (hlocks.trans hretains.locks)
    · exact (hguards ▸ h.guards.erase name :
        (dropGuard { s with world := w } name).guards.Distinct).insert name slot
    · refine hstacked'.of_perm ?_
      have herased : (s.guards.erase name).erase name = s.guards.erase name :=
        Named.erase_of_get?_none (s.guards.get?_erase_self name)
      simp only [guarded, Named.insert, hguards, herased, List.map_cons]
      exact List.perm_middle.symm

theorem Accounted.clearCache (limits : Limits) (h : s.Accounted p) (query : QueryId)
    (keyType : KeyType) (valueType : ValueType) (before : Revision) :
    (s.step p limits (.clearCache query keyType valueType before)).2.Accounted p := by
  have hrests := s.world.rests_openCache query keyType valueType
  simp only [Session.step]
  split
  · rename_i heq
    rw [heq] at hrests
    exact h.of_active rfl rfl hrests.active hrests.entryLocked
  · rename_i heq
    rw [heq] at hrests
    exact h.of_active rfl rfl hrests.active hrests.entryLocked

theorem Accounted.clearSlot (limits : Limits) (h : s.Accounted p) (query : QueryId)
    (valueType : ValueType) (key : Key) (before : Revision) :
    (s.step p limits (.clearSlot query valueType key before)).2.Accounted p := by
  have hrests := s.world.rests_openCache query key.type valueType
  simp only [Session.step]
  split
  · rename_i heq
    rw [heq] at hrests
    exact h.of_active rfl rfl hrests.active hrests.entryLocked
  · rename_i w heq
    rw [heq] at hrests
    obtain ⟨hactive, hlocked⟩ := active_clearSlot w query key before
    exact h.of_active rfl rfl (hactive.trans hrests.active) (hlocked.trans hrests.entryLocked)

theorem Accounted.step (limits : Limits) (h : s.Accounted p) (step : Step) :
    (s.step p limits step).2.Accounted p := by
  cases step with
  | perform request token => exact h.perform limits request token
  | spawn name request token =>
    refine ((h.dropTask name).tokenFor token).spawn ?_ rfl
    rw [tasks_tokenFor, tasks_dropTask, Named.get?_erase_self]
  | poll name times =>
    simp only [Session.step]
    cases htask : s.tasks.get? name with
    | none => exact h
    | some task => exact h.afterPoll htask (Task.course_pollTimes limits.steps _ task s.world)
  | run name =>
    simp only [Session.step]
    cases htask : s.tasks.get? name with
    | none => exact h
    | some task => exact h.afterPoll htask (Task.course_run limits.steps _ task s.world)
  | drop name => exact h.dropTask name
  | cancel token => exact (h.tokenFor (some token)).of_active rfl rfl rfl rfl
  | lookAtToken token => exact h.tokenFor (some token)
  | enter name slot => exact h.enter limits name slot
  | leave name =>
    obtain ⟨hstacked, hguards, htasks, hlocks⟩ := dropGuard_spec h.guards _ h.stacked name
    refine h.of_world htasks (hguards ▸ h.guards.erase name) ?_ hlocks
    rwa [guarded, Session.step, hguards]
  | stack | slots | describe | stamps | debug | resultsFor => exact h
  | takeEvents =>
    simp only [Session.step]
    split
    · exact h.of_active rfl rfl rfl rfl
    · exact h
  | cache query keyType valueType =>
    have hrests := s.world.rests_openCache query keyType valueType
    exact h.of_active rfl rfl hrests.active hrests.entryLocked
  | clearCache query keyType valueType before =>
    exact h.clearCache limits query keyType valueType before
  | clearSlot query valueType key before =>
    exact h.clearSlot limits query valueType key before
  | makeInput query valueType key =>
    have hrests := s.world.rests_inputSlot query valueType key
    exact h.of_active rfl rfl hrests.active hrests.entryLocked
  | inspect query valueType key =>
    have hrests := s.world.rests_openCache query key.type valueType
    exact h.of_active rfl rfl hrests.active hrests.entryLocked
  | gatherDeps query keyType valueType keys =>
    have hrests := s.world.rests_openCache query keyType valueType
    exact h.of_active rfl rfl hrests.active hrests.entryLocked

theorem Accounted.report (limits : Limits) (h : s.Accounted p) (step : Step) :
    (s.report p limits step).2.Accounted p := (h.step limits step).of_active rfl rfl rfl rfl

theorem accounted_fresh (p : Program) (memoize traced : Bool) :
    (Session.fresh memoize traced).Accounted p where
  tasks := .nil
  guards := .nil
  stacked := ⟨.nil, .nil⟩
  locks := rfl
  calls name task e htask := by cases htask

theorem Accounted.after (limits : Limits) (h : s.Accounted p) (steps : List Step) :
    (s.after p limits steps).Accounted p := by
  induction steps generalizing s with
  | nil => exact h
  | cons step steps ih => exact ih (h.report limits step)

/-! ## What is gone has left nothing behind -/

/-- All that happens to the slots of a task happens by its calls, and nothing stays of a task that is
    gone. -/
structure Tidies (p : Program) (limits : Limits) (s : Session) : Prop where
  /-- Nothing is on the active stack but the slots of guards and of tasks that are under way. -/
  stacked : s.world.Stacked s.inProgress
  /-- The entry lock is free unless a task that is under way holds it. -/
  locks : s.world.locks = s.locks
  /-- The slots that a task has in progress are those of its calls. -/
  calls : ∀ name task e, s.tasks.get? name = some task → task.suspended = some e →
    e.ByCalls p task.token s.world (s.heldBeside name)
  /-- Polling a task takes steps of its evaluation, and if the task is answered, only what others
      have in progress stays. -/
  polls : ∀ name task times, s.tasks.get? name = some task →
    task.Course p s.world (task.pollTimes p limits.steps times s.world) ∧
      Poll.Accounted p (s.heldBeside name) (s.locksBeside name)
        (task.pollTimes p limits.steps times s.world)
  runs : ∀ name task polls, s.tasks.get? name = some task →
    task.Course p s.world (task.run p limits.steps polls s.world) ∧
      Poll.Accounted p (s.heldBeside name) (s.locksBeside name)
        (task.run p limits.steps polls s.world)
  /-- Dropping a task changes no memo, takes the slots that it holds off the active stack, and frees
      the entry lock if it holds it. -/
  drops : ∀ name task, s.tasks.get? name = some task →
    (∀ i, (task.drop s.world).memo? i = s.world.memo? i) ∧
      (task.drop s.world).Stacked (s.heldBeside name) ∧
      (∀ i ∈ task.held, i ∉ (task.drop s.world).active) ∧
      (task.locks = 1 → (task.drop s.world).entryLocked = false)

theorem Accounted.tidies (limits : Limits) (h : s.Accounted p) : s.Tidies p limits where
  stacked := h.stacked
  locks := h.locks
  calls name task e htask he := (h.of_get? htask).calls e he
  polls name task times htask :=
    have hcourse := Task.course_pollTimes limits.steps times task s.world
    ⟨hcourse, hcourse.accounted (h.of_get? htask)⟩
  runs name task polls htask :=
    have hcourse := Task.course_run limits.steps polls task s.world
    ⟨hcourse, hcourse.accounted (h.of_get? htask)⟩
  drops name task htask := by
    have haccounted := h.of_get? htask
    obtain ⟨hmemo, hstacked, hlocks⟩ := haccounted.drop
    refine ⟨hmemo, hstacked, fun i hi hactive => ?_, fun hheld => ?_⟩
    · -- each slot was listed once
      exact (List.nodup_append.1 haccounted.stacked.nodup).2.2 i hi i (hstacked.mem_iff.1 hactive) rfl
    · have hbefore := haccounted.locks
      have hle := s.world.locks_le_one
      rw [hheld, ← hlocks] at hbefore
      exact World.unlocked_of_locks (by omega)

end Session

/-- Failed and abandoned computations commit nothing. Take any program, and any steps of a client:
    requests of all kinds, tasks that are polled, run and dropped, cancellations, clears and guards.
    A call of a slot that has not been answered with a value, because it still goes on, was answered
    with an error or was given up together with a call around it, has not changed the memo of the
    slot by any of its steps, and of its slots only those that are still in progress are on the
    active stack. A call takes all the steps of its evaluation until it is answered or given up, the
    evaluations of the session have come about by such calls, and a task that is answered or dropped
    leaves neither a slot on the active stack nor the entry lock taken. -/
theorem abandoned_computations_commit_nothing (p : Program) (limits : Session.Limits)
    (memoize traced : Bool) (steps : List Step) :
    (∀ t i outer own e w others, Call p t i outer own e w others →
      ((∀ x, e ≠ ⟨.answer (.ok x), outer⟩) → ∀ u ∈ own, u.2.memo? i = u.1.memo? i) ∧
      w.Stacked (e.held ++ others) ∧
      ∀ e' w', Reaches p t e w e' w' → ∃ more e₁ w₁, Call p t i outer (own ++ more) e₁ w₁ others ∧
        Reaches p t e₁ w₁ e' w' ∧ (e₁.Within outer → e₁ = e' ∧ w₁ = w')) ∧
    ((Session.fresh memoize traced).after p limits steps).Tidies p limits :=
  ⟨fun _ _ _ _ _ _ _ hcall => ⟨hcall.spares, hcall.stacked, fun _ _ hreaches =>
      hcall.follows hreaches⟩,
    ((Session.accounted_fresh p memoize traced).after limits steps).tidies limits⟩

/-! ## A computation that waits and then fails -/

/-- A query that waits and then fails. -/
def lateQuery : Query where
  id := ⟨"late"⟩
  valueType := .int
  equality := Equality.content.same
  body := fun _ => .yield (.done (.error (.computationFailed (.message "late"))))

/-- A query that calls another one. -/
def awaitingQuery : Query where
  id := ⟨"awaiting"⟩
  valueType := .int
  equality := Equality.content.same
  body := fun _ => .call .awaited "late" .unit .done

/-- A program whose computations wait and fail. -/
def late : Program := either "late" lateQuery awaitingQuery

/-- The world of a system that has just the slot of the query that waits. -/
def lateWorld : World := (World.derivedSlot {} ⟨"late"⟩ .int .unit "late" lateQuery.equality).2

/-- The call of that query takes four steps, the second of which leaves it parked. -/
theorem late_call : ∃ own w, own.length = 4 ∧ Call late 0 0 [] own
    ⟨.answer (.error (.computationFailed (.message "late"))), []⟩ w [] := by
  have hwithin (e : Evaluation) (h : ∀ r, e.control ≠ .answer r) : e.Within [] :=
    ⟨List.nil_suffix, fun r heq => h r (congrArg Evaluation.control heq)⟩
  have hrequested : Call late 0 0 [] [] ⟨.fetch 0, []⟩ lateWorld [] := .requested ⟨.nil, .nil⟩
  have hentered := hrequested.step (hwithin _ fun _ h => by cases h) (.inl rfl)
  have hstarted := hentered.step (hwithin _ fun _ h => by cases h) (.inl rfl)
  have hparked := hstarted.step (hwithin _ fun _ h => by cases h) (.inr rfl)
  have hfailed := hparked.step (hwithin _ fun _ h => by cases h) (.inl rfl)
  exact ⟨_, _, rfl, hfailed⟩

/-- A waiting request is polled once, and then its task is parked in the middle of a call. -/
def lateSteps : List Step :=
  [.spawn "request" (.query .waiting "awaiting" .unit) none, .poll "request" 1]

theorem abandoned_computations_commit_nothing_late :
    (∃ own w, own.length = 4 ∧ Call late 0 0 [] own
        ⟨.answer (.error (.computationFailed (.message "late"))), []⟩ w [] ∧
      (∀ u ∈ own, u.2.memo? 0 = u.1.memo? 0) ∧ w.Stacked []) ∧
    ∃ task, ((Session.fresh true true).after late ⟨40, 3⟩ lateSteps).tasks.get? "request" = some task ∧
      task.held = [1, 0] ∧
      (∀ i ∈ [1, 0],
        i ∉ (task.drop ((Session.fresh true true).after late ⟨40, 3⟩ lateSteps).world).active) ∧
      (task.drop ((Session.fresh true true).after late ⟨40, 3⟩ lateSteps).world).entryLocked = false := by
  obtain ⟨hcalls, htidies⟩ :=
    abandoned_computations_commit_nothing late ⟨40, 3⟩ true true lateSteps
  obtain ⟨own, w, hlength, hcall⟩ := late_call
  obtain ⟨hspares, hstacked, -⟩ := hcalls _ _ _ _ _ _ _ hcall
  refine ⟨⟨own, w, hlength, hcall, hspares nofun, hstacked⟩, ?_⟩
  obtain ⟨-, -, hleft, hunlocked⟩ := htidies.drops "request" _ rfl
  exact ⟨_, rfl, rfl, hleft, hunlocked rfl⟩

end RedGreen
