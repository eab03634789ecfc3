import RedGreen.Proofs.Candor
import RedGreen.Proofs.Serial

set_option autoImplicit false

/-! # The entry lock and the flag beside it

The entry lock and the flag that tells whether its holder waits are set and reset in different
places. They agree at all times: the lock is taken if a task that goes through it is under way, there
is one such task at most, and the flag is up if that task is a waiting one (`World.HeldBy`). A course
of a task keeps this among whatever others hold (`Task.Course.heldBy`), and so does every step of a
client (`Session.heldBy_after`). So a blocking request that comes while the flag is up is refused, and
it is accepted again when the holder is gone (`busy_while_waiting_request_holds`).

The flag alone does not tell who is answered `busy`. A body can make up this error like any other; the
bodies of a candid program do not. A blocking request that is queued looks at the lock only, so it is
not refused when a waiting request gets the lock before it. And a poll of a task that does not hold
the lock puts the flag up, if it finds the lock free (`flag_and_refusals_differ`). -/

namespace RedGreen

open Evaluation

variable {p : Program} {t : Token} {w w' : World}

/-! ## Holders of the entry lock -/

/-- What a request that is under way contributes to the holders of the entry lock: how it goes about
    it. -/
def Access.holds : Access → List Access
  | .free => []
  | access => [access]

/-- The entry lock as a task holds it. -/
def Task.holds (task : Task) : List Access :=
  if task.suspended.isSome then task.request.access.holds else []

/-- The entry lock is held as listed: by one at most, it is taken if somebody holds it, and the flag
    beside it tells whether the holder is a waiting request. -/
structure World.HeldBy (w : World) (holders : List Access) : Prop where
  single : holders.length ≤ 1
  locked : w.entryLocked = true ↔ holders ≠ []
  flagged : w.asyncEntry = true ↔ .waiting ∈ holders

namespace World.HeldBy

variable {holders others : List Access} {access : Access}

theorem of_eq (h : w.HeldBy holders) (hlocked : w'.entryLocked = w.entryLocked)
    (hflag : w'.asyncEntry = w.asyncEntry) : w'.HeldBy holders where
  single := h.single
  locked := hlocked ▸ h.locked
  flagged := hflag ▸ h.flagged

theorem persists (h : w.HeldBy holders) (hpersists : w.Persists w') : w'.HeldBy holders :=
  h.of_eq hpersists.entryLocked hpersists.asyncEntry

theorem of_perm (h : w.HeldBy holders) (hperm : holders.Perm others) : w.HeldBy others where
  single := hperm.length_eq ▸ h.single
  locked := h.locked.trans (not_congr ⟨fun h => (h ▸ hperm).nil_eq.symm,
    fun h => (h ▸ hperm).eq_nil⟩)
  flagged := h.flagged.trans hperm.mem_iff

/-- Nobody holds the lock. -/
theorem nil_iff : w.HeldBy [] ↔ w.entryLocked = false ∧ w.asyncEntry = false := by
  constructor
  · intro h
    exact ⟨Bool.eq_false_iff.2 fun hlocked => h.locked.1 hlocked rfl,
      Bool.eq_false_iff.2 fun hflag => absurd (h.flagged.1 hflag) List.not_mem_nil⟩
  · rintro ⟨hlocked, hflag⟩
    exact ⟨Nat.zero_le _, by simp [hlocked], by simp [hflag]⟩

theorem nil_of_unlocked (h : w.HeldBy holders) (hunlocked : ¬ w.entryLocked = true) :
    holders = [] :=
  Classical.not_not.1 fun hne => hunlocked (h.locked.2 hne)

/-- If one holds the lock, the others do not. -/
theorem others_eq_nil (h : w.HeldBy (holders ++ others)) (haccess : access ∈ holders) :
    others = [] := by
  have hsingle := h.single
  have hpos := List.length_pos_of_mem haccess
  rw [List.length_append] at hsingle
  exact List.eq_nil_of_length_eq_zero (by omega)

/-- Whoever is admitted holds the lock from then on, unless the request is free of it. -/
theorem admitted {queued : Bool} (h : w.HeldBy others)
    (hentry : access.admission queued w = (.admitted, w')) :
    w'.HeldBy (access.holds ++ others) := by
  cases access with
  | free =>
    cases hentry
    exact h
  | blocking =>
    simp only [Access.admission] at hentry
    split at hentry
    · split at hentry <;> cases hentry
    · cases hentry
      obtain rfl := h.nil_of_unlocked ‹_›
      obtain ⟨-, hflag⟩ := nil_iff.1 h
      exact ⟨Nat.le_refl _, by simp [World.lockEntry, Access.holds],
        by simp [World.lockEntry, Access.holds, hflag]⟩
  | waiting =>
    simp only [Access.admission] at hentry
    split at hentry
    · cases hentry
    · cases hentry
      obtain rfl := h.nil_of_unlocked ‹_›
      exact ⟨Nat.le_refl _, by simp [World.lockEntry, Access.holds],
        by simp [World.lockEntry, Access.holds]⟩

/-- Whoever gives the lock back leaves it free, and the flag down. -/
theorem release (h : w.HeldBy (access.holds ++ others)) : (access.release w).HeldBy others := by
  cases access with
  | free => exact h
  | blocking =>
    obtain rfl := h.others_eq_nil (List.mem_singleton_self _)
    have hflag : w.asyncEntry = false := by simpa [Access.holds] using h.flagged
    exact nil_iff.2 ⟨rfl, by simp [Access.release, World.unlockEntry, hflag]⟩
  | waiting =>
    obtain rfl := h.others_eq_nil (List.mem_singleton_self _)
    exact nil_iff.2 ⟨rfl, by simp [Access.release, World.unlockEntry]⟩

end World.HeldBy

/-- The entry lock is held by others and by what is left of a poll. -/
def Poll.HeldBy (others : List Access) : Poll × World → Prop
  | (.ready _, w) => w.HeldBy others
  | (.pending _ task, w) => w.HeldBy (task.holds ++ others)

namespace Task

variable {task : Task} {others : List Access}

theorem holds_of_unbegun (hunbegun : task.suspended = none) : task.holds = [] := by
  simp [holds, hunbegun]

theorem holds_of_suspended {e : Evaluation} (hsuspended : task.suspended = some e) :
    task.holds = task.request.access.holds := by
  simp [holds, hsuspended]

theorem mem_request_of_mem_holds {access : Access} (h : access ∈ task.holds) :
    access ∈ task.request.access.holds := by
  unfold holds at h
  split at h
  · exact h
  · exact absurd h List.not_mem_nil

theorem eq_of_mem_holds {access : Access} (h : access ∈ task.holds) :
    access = task.request.access := by
  have hmem := mem_request_of_mem_holds h
  generalize task.request.access = own at hmem
  cases own with
  | free => exact absurd hmem List.not_mem_nil
  | blocking | waiting => exact List.mem_singleton.1 hmem

/-- A task whose evaluation has begun holds the lock, if it goes through it. -/
theorem Begins.heldBy {e : Evaluation} (hbegins : task.Begins p w e w')
    (h : w.HeldBy (task.holds ++ others)) : w'.HeldBy (task.request.access.holds ++ others) := by
  rcases hbegins with ⟨hsuspended, rfl⟩ | ⟨hunbegun, w₁, hentry, hbegin⟩
  · rwa [holds_of_suspended hsuspended] at h
  · rw [holds_of_unbegun hunbegun] at h
    have hopens := Request.opens_begin p task.request w₁
    rw [hbegin] at hopens
    cases hopens with
    | evaluates rests => exact (World.HeldBy.admitted h hentry).persists rests.toPersists

/-- However a task is polled, the lock is held as before by others, and by the task if it is under
    way. -/
theorem Course.heldBy {out : Poll × World} (hcourse : Course p task w out)
    (h : w.HeldBy (task.holds ++ others)) : Poll.HeldBy others out := by
  cases hcourse with
  | waits => exact h
  | refused unbegun entry =>
    rw [holds_of_unbegun unbegun] at h
    have htries := task.request.access.tries_admission task.queued w
    rw [entry] at htries
    cases htries with
    | refused rests => exact h.persists rests.toPersists
  | @answered w₁ w₂ result unbegun entry opens =>
    rw [holds_of_unbegun unbegun] at h
    have hopens := Request.opens_begin p task.request w₁
    rw [opens] at hopens
    refine World.HeldBy.release ((World.HeldBy.admitted h entry).of_eq ?_ ?_)
    · cases hopens with
      | fails rests => exact rests.entryLocked
      | answers _ entryLocked _ => exact entryLocked
    · cases hopens with
      | fails rests => exact rests.asyncEntry
      | answers _ _ asyncEntry => exact asyncEntry
  | parks begins reaches => exact (begins.heldBy h).persists reaches.persists
  | ends begins finishes =>
    exact World.HeldBy.release ((begins.heldBy h).persists finishes.reaches.persists)

/-- A task that is dropped holds the lock no more. -/
theorem heldBy_drop (h : w.HeldBy (task.holds ++ others)) : (task.drop w).HeldBy others := by
  unfold drop
  cases hsuspended : task.suspended with
  | none => rwa [holds_of_unbegun hsuspended] at h
  | some e =>
    rw [holds_of_suspended hsuspended] at h
    exact World.HeldBy.release (h.persists (w.vacates_leaveAll e.held).toPersists)

end Task

theorem Poll.HeldBy.left {others : List Access} {out : Poll × World} (h : Poll.HeldBy others out) :
    (Poll.left out).HeldBy others := by
  obtain ⟨poll, w⟩ := out
  cases poll with
  | ready result => exact h
  | pending woken task => exact Task.heldBy_drop h

/-! ## Steps of a client -/

theorem Named.Distinct.get?_of_mem {α : Type} {n : Named α} (h : n.Distinct) {entry : String × α}
    (hentry : entry ∈ n.entries) : n.get? entry.1 = some entry.2 := by
  obtain ⟨before, after, heq⟩ := List.append_of_mem hentry
  refine List.lookup_eq_some_iff.2 ⟨before, after, heq, fun other hother => ?_⟩
  rw [Named.Distinct, heq, List.map_append, List.map_cons] at h
  have hne := (List.nodup_append.1 h).2.2 other.1 (List.mem_map_of_mem hother) entry.1
    List.mem_cons_self
  simpa using Ne.symm hne

/-- A step is about a named task: it makes, polls or drops it. -/
def Step.Handles : Step → String → Prop
  | .spawn name _ _, n | .poll name _, n | .run name, n | .drop name, n => n = name
  | _, _ => False

/-- A step polls a named task. -/
def Step.PollsTask : Step → String → Prop
  | .poll name _, n | .run name, n => n = name
  | _, _ => False

theorem Step.Carries.pollsTask {s : Session} {step : Step} {request : Request} {name : String}
    (h : step.Carries s request (some name)) : step.PollsTask name := by
  cases h <;> rfl

/-- A step is about one task only. -/
theorem Step.Handles.eq_of_pollsTask {step : Step} {name other : String} (h : step.Handles name)
    (h' : step.PollsTask other) : name = other := by
  cases step with
  | poll | run => exact h.trans h'.symm
  | _ => exact h'.elim

theorem Step.PollsTask.handles {step : Step} {name : String} (h : step.PollsTask name) :
    step.Handles name := by
  cases step with
  | poll | run => exact h
  | _ => exact h.elim

namespace Session

variable {s : Session} {name : String} {task : Task} {access : Access}

/-- How those who hold the entry lock go about it. -/
def holders (s : Session) : List Access := s.tasks.entries.flatMap fun entry => entry.2.holds

/-- How those who hold the entry lock besides a task go about it. -/
def holdersBeside (s : Session) (name : String) : List Access :=
  (s.tasks.erase name).entries.flatMap fun entry => entry.2.holds

/-- The task of a name holds the entry lock: it is under way, and goes through the lock in the given
    way. -/
def Holds (s : Session) (name : String) (access : Access) : Prop :=
  ∃ task, s.tasks.get? name = some task ∧ access ∈ task.holds

theorem perm_holders (h : s.tasks.Distinct) (htask : s.tasks.get? name = some task) :
    s.holders.Perm (task.holds ++ s.holdersBeside name) :=
  (h.perm_of_get? htask).flatMap_right fun entry : String × Task => entry.2.holds

theorem mem_holders (h : s.tasks.Distinct) : access ∈ s.holders ↔ ∃ name, s.Holds name access := by
  constructor
  · intro hmem
    obtain ⟨entry, hentry, haccess⟩ := List.mem_flatMap.1 hmem
    exact ⟨entry.1, entry.2, h.get?_of_mem hentry, haccess⟩
  · rintro ⟨name, task, hfound, haccess⟩
    exact (perm_holders h hfound).mem_iff.2 (List.mem_append_left _ haccess)

/-- Only one task holds the lock. -/
theorem Holds.unique (hdistinct : s.tasks.Distinct) (h : s.world.HeldBy s.holders)
    {other : String} {access' : Access} (hholds : s.Holds name access)
    (hother : s.Holds other access') : name = other := by
  obtain ⟨task, hfound, haccess⟩ := hholds
  obtain ⟨task', hfound', haccess'⟩ := hother
  by_contra hne
  have hbeside : access' ∈ s.holdersBeside name := by
    rw [← Named.get?_erase_of_ne s.tasks (Ne.symm hne)] at hfound'
    have hperm := (hdistinct.erase name).perm_of_get? hfound'
    refine List.mem_flatMap.2 ⟨(other, task'), hperm.mem_iff.2 List.mem_cons_self, haccess'⟩
  rw [(h.of_perm (perm_holders hdistinct hfound)).others_eq_nil haccess] at hbeside
  exact absurd hbeside List.not_mem_nil

theorem heldBy_dropTask (hdistinct : s.tasks.Distinct) (h : s.world.HeldBy s.holders)
    (name : String) : (s.dropTask name).world.HeldBy (s.holdersBeside name) := by
  unfold dropTask
  cases htask : s.tasks.get? name with
  | none =>
    rw [holdersBeside, Named.erase_of_get?_none htask]
    exact h
  | some task => exact Task.heldBy_drop (h.of_perm (perm_holders hdistinct htask))

theorem retains_dropGuard (s : Session) (name : String) :
    s.world.Retains (s.dropGuard name).world := by
  unfold dropGuard
  split
  · exact (s.world.vacates_leave _).toRetains
  · exact .refl _

theorem heldBy_clearSlot {holders : List Access} (h : w.HeldBy holders) (query : QueryId) (key : Key)
    (before : Revision) : (w.clearSlot query key before).2.HeldBy holders := by
  unfold World.clearSlot
  split
  · exact h
  · split
    · split
      · exact h
      · exact h.of_eq rfl rfl
    · exact h

theorem Holds.access_eq {access' : Access} (hholds : s.Holds name access)
    (hother : s.Holds name access') : access = access' := by
  obtain ⟨task, hfound, haccess⟩ := hholds
  obtain ⟨task', hfound', haccess'⟩ := hother
  cases hfound.symm.trans hfound'
  exact (Task.eq_of_mem_holds haccess).trans (Task.eq_of_mem_holds haccess').symm

/-- A step of a client keeps the lock and the flag in agreement with the tasks that are under way. -/
theorem Effects.heldBy {step : Step} {tasks : Named Task} {guards : Named SlotId}
    (heffects : s.Effects p step w tasks guards) (hdistinct : s.tasks.Distinct)
    (h : s.world.HeldBy s.holders) :
    w.HeldBy (tasks.entries.flatMap fun entry => entry.2.holds) := by
  cases heffects with
  | @performs request tokenName out course =>
    have hheld : s.world.HeldBy
      (Task.holds { request, token := (s.tokenFor tokenName).1 } ++ s.holders) := h
    exact (course.heldBy hheld).left
  | @spawns name request tokenName token =>
    have hdropped := heldBy_dropTask hdistinct h name
    rw [Named.insert, Named.erase_of_get?_none (s.tasks.get?_erase_self name)]
    exact hdropped
  | ends carries found course | waits carries found course =>
    exact course.heldBy (h.of_perm (perm_holders hdistinct found))
  | drops name => exact heldBy_dropTask hdistinct h name
  | cancels name => exact h.persists (s.world.rests_cancel _).toPersists
  | @enters name slot w entered =>
    rcases s.world.enter_footprint slot with ⟨e, w', henter, -⟩ | ⟨w', henter, -, -, hretains⟩
    · cases henter.symm.trans entered
    · cases henter.symm.trans entered
      exact h.persists (hretains.trans (retains_dropGuard { s with world := w } name)).toPersists
  | @refuses name slot e w refused =>
    rcases s.world.enter_footprint slot with ⟨e', w', henter, hrests⟩ | ⟨w', henter, -⟩
    · cases henter.symm.trans refused
      exact h.persists hrests.toPersists
    · cases henter.symm.trans refused
  | leaves name => exact h.persists (s.retains_dropGuard name).toPersists
  | @clearsCache query keyType valueType before w opened =>
    have hopen := s.world.rests_openCache query keyType valueType
    rw [opened] at hopen
    exact (h.persists hopen.toPersists).of_eq rfl rfl
  | @clearsSlot query valueType key before w opened =>
    have hopen := s.world.rests_openCache query key.type valueType
    rw [opened] at hopen
    exact heldBy_clearSlot (h.persists hopen.toPersists) query key before
  | makes query valueType key => exact h.persists (s.world.rests_inputSlot _ _ _).toPersists
  | opens step query keyType valueType => exact h.persists (s.world.rests_openCache _ _ _).toPersists
  | looks step => exact h

theorem heldBy_report (limits : Limits) (hs : s.Accounted p) (h : s.world.HeldBy s.holders)
    (step : Step) : (s.report p limits step).2.world.HeldBy (s.report p limits step).2.holders :=
  ((effects_step (p := p) limits s step).heldBy hs.tasks h).of_eq rfl rfl

theorem heldBy_after (limits : Limits) (hs : s.Accounted p) (h : s.world.HeldBy s.holders)
    (steps : List Step) : (s.after p limits steps).world.HeldBy (s.after p limits steps).holders := by
  induction steps generalizing s with
  | nil => exact h
  | cons step steps ih => exact ih (hs.report limits step) (heldBy_report limits hs h step)

/-- A step leaves alone the tasks that it is not about. -/
theorem Effects.get?_of_not_handles {step : Step} {tasks : Named Task} {guards : Named SlotId}
    (heffects : s.Effects p step w tasks guards) (hname : ¬ step.Handles name) :
    tasks.get? name = s.tasks.get? name := by
  cases heffects with
  | @spawns other request tokenName token =>
    rw [Named.get?_insert_of_ne _ hname, Named.get?_erase_of_ne _ hname]
  | ends carries found course =>
    refine Named.get?_erase_of_ne _ ?_
    rintro rfl
    exact hname carries.pollsTask.handles
  | waits carries found course =>
    refine Named.get?_insert_of_ne _ ?_ _
    rintro rfl
    exact hname carries.pollsTask.handles
  | drops other => exact Named.get?_erase_of_ne _ hname
  | _ => rfl

/-! ## Refusals -/

/-- A blocking request comes while the flag is up, and does not wait for the lock already. -/
def Refuses (s : Session) (step : Step) : Prop :=
  s.world.asyncEntry = true ∧ ∃ task, step.task? s = some task ∧ task.suspended = none ∧
    task.queued = false ∧ task.request.access = .blocking

/-- A step takes up an evaluation that ends with a refusal, which one of its bodies has made up. -/
def MakesUp (p : Program) (s : Session) (step : Step) : Prop :=
  ∃ task e w₁ w₂, step.task? s = some task ∧ task.Begins p s.world e w₁ ∧
    Finishes p task.token e w₁ (.error .busy) w₂

end Session

namespace Task

variable {task : Task}

section Refused

variable (budget n : Nat) (hunbegun : task.suspended = none) (hqueued : task.queued = false)
  (hblocking : task.request.access = .blocking) (hlocked : w.entryLocked = true)
  (hflag : w.asyncEntry = true)
include hunbegun hqueued hblocking hlocked hflag

/-- A blocking request that comes while the flag is up is refused. -/
theorem poll_refused : task.poll p budget w = (.ready (.error .busy), w.log .blockingRefused) := by
  simp [poll, hunbegun, hqueued, hblocking, Access.admission, hlocked, hflag]

theorem pollTimes_refused :
    task.pollTimes p budget (n + 1) w = (.ready (.error .busy), w.log .blockingRefused) := by
  have hpoll := poll_refused (p := p) budget hunbegun hqueued hblocking hlocked hflag
  cases n with
  | zero => exact hpoll
  | succ n => rw [pollTimes, hpoll]

theorem run_refused :
    task.run p budget (n + 1) w = (.ready (.error .busy), w.log .blockingRefused) := by
  rw [run, poll_refused budget hunbegun hqueued hblocking hlocked hflag]

end Refused

/-- A request that is answered at once is not answered with a refusal. -/
theorem begin_ne_busy {request : Request} {e : QueryError}
    (h : request.begin p w = (.answered (.error e), w')) : e ≠ .busy := by
  cases request with
  | write access query key value =>
    simp only [Request.begin, Begun.ofResult, World.write] at h
    split at h <;> cases h
    exact World.slotFor_ne_busy ‹_›
  | read query valueType key =>
    simp only [Request.begin, Begun.ofResult, World.inputValue] at h
    split at h
    · cases h
      exact World.openCache_ne_busy ‹_›
    · split at h <;> cases h <;> exact fun h => by cases h
  | query access label key | derive label key equality =>
    simp only [Request.begin, Begun.ofSlot] at h
    split at h <;> cases h
    exact World.slotFor_ne_busy ‹_›
  | prepare label key equality =>
    simp only [Request.begin, Begun.ofResult] at h
    generalize hslot : w.derivedSlot (p label).id (p label).valueType key label equality = out at h
    obtain ⟨_ | i, w₁⟩ := out <;> cases h
    exact World.slotFor_ne_busy hslot
  | touch query valueType key =>
    simp only [Request.begin] at h
    split at h
    · cases h
      exact World.openCache_ne_busy ‹_›
    · split at h
      · cases h
      · split at h <;> cases h
  | clear access before => cases h

/-- A task that is answered with a refusal was refused at the entry, or has ended with one. -/
theorem Course.of_busy (h : Course p task w (.ready (.error .busy), w')) :
    (w.asyncEntry = true ∧ task.suspended = none ∧ task.queued = false ∧
        task.request.access = .blocking) ∨
      ∃ e w₁ w₂, task.Begins p w e w₁ ∧ Finishes p task.token e w₁ (.error .busy) w₂ := by
  generalize hbusy : Poll.ready (Except.error QueryError.busy) = polled at h
  cases h with
  | waits | parks => cases hbusy
  | refused unbegun entry =>
    left
    have hunqueued := Access.unqueued_of_refused entry
    cases haccess : task.request.access with
    | free =>
      rw [haccess] at entry
      cases entry
    | waiting =>
      simp only [haccess, Access.admission] at entry
      split at entry <;> cases entry
    | blocking =>
      simp only [haccess, Access.admission] at entry
      split at entry
      · split at entry
        · exact ⟨(Bool.and_eq_true_iff.1 ‹_›).2, unbegun, hunqueued, rfl⟩
        · cases entry
      · cases entry
  | answered unbegun entry opens =>
    cases hbusy
    exact absurd rfl (begin_ne_busy opens)
  | @ends e w₁ w₂ result begins finishes =>
    right
    cases result with
    | ok stamped => cases hbusy
    | error error =>
      cases hbusy
      exact ⟨e, w₁, w₂, begins, finishes⟩

end Task

namespace Session

variable {s : Session} {name : String} {task : Task} {access : Access} {limits : Limits}

theorem error_of_ofResult {result : Except QueryError Reply} {e : QueryError}
    (h : Answer.ofResult result = .failed e) : result = .error e := by
  cases result with
  | ok reply => cases h
  | error error =>
    cases h
    rfl

/-- A task that a step takes up is answered with a refusal. -/
theorem refuses_or_makesUp {step : Step} (htask : step.task? s = some task)
    (h : (s.step p limits step).1 = .failed .busy) : s.Refuses step ∨ s.MakesUp p step := by
  obtain ⟨⟨poll, w⟩, hcourse, hanswer, -⟩ := course_of_task? (p := p) limits htask
  cases poll with
  | pending woken task' => cases hanswer.symm.trans h
  | ready result =>
    obtain rfl := error_of_ofResult (hanswer.symm.trans h)
    rcases hcourse.of_busy with ⟨hflag, hunbegun⟩ | ⟨e, w₁, w₂, hbegins, hfinishes⟩
    · exact .inl ⟨hflag, task, htask, hunbegun⟩
    · exact .inr ⟨task, e, w₁, w₂, htask, hbegins, hfinishes⟩

theorem answering_ne_busy {α : Type} {answer : α → Answer} {result : Except QueryError α}
    (hresult : ∀ e, result = .error e → e ≠ .busy) (hanswer : ∀ a, answer a ≠ .failed .busy) :
    (s.answering answer (result, w)).1 ≠ .failed .busy := by
  cases result with
  | ok a => exact hanswer a
  | error e => exact fun h => hresult e rfl (Answer.failed.inj h)

theorem openCache_fst_ne_busy (w : World) (query : QueryId) (keyType : KeyType)
    (valueType : ValueType) (e : QueryError)
    (h : (w.openCache query keyType valueType).1 = .error e) : e ≠ .busy :=
  World.openCache_ne_busy (Prod.ext h rfl)

theorem viewSlot_ne_failed (w : World) (query : QueryId) (key : Key) (e : QueryError) :
    viewSlot w query key ≠ .failed e := by
  unfold viewSlot
  split
  · nofun
  · split
    · nofun
    · split <;> nofun

/-- A step that is answered with a refusal brings a request that is refused, or a body has made the
    refusal up. -/
theorem refuses_or_makesUp_of_busy {step : Step}
    (h : (s.step p limits step).1 = .failed .busy) : s.Refuses step ∨ s.MakesUp p step := by
  cases step with
  | perform request token => exact refuses_or_makesUp rfl h
  | poll name times | run name =>
    cases hfound : s.tasks.get? name with
    | none => simp [Session.step, hfound] at h
    | some task => exact refuses_or_makesUp hfound h
  | enter name slot =>
    simp only [Session.step] at h
    split at h
    · rename_i henter
      unfold World.enter at henter
      split at henter <;> cases henter
      cases h
    · cases h
  | clearCache query keyType valueType before =>
    simp only [Session.step] at h
    split at h
    · cases h
      exact absurd rfl (World.openCache_ne_busy ‹_›)
    · cases h
  | clearSlot query valueType key before =>
    simp only [Session.step] at h
    split at h
    · cases h
      exact absurd rfl (World.openCache_ne_busy ‹_›)
    · cases h
  | makeInput query valueType key =>
    refine absurd h (answering_ne_busy (fun e he => ?_) fun _ h => by cases h)
    exact World.slotFor_ne_busy (Prod.ext he rfl)
  | cache query keyType valueType | gatherDeps query keyType valueType keys =>
    exact absurd h (answering_ne_busy (openCache_fst_ne_busy _ _ _ _) fun _ h => by cases h)
  | inspect query valueType key =>
    exact absurd h (answering_ne_busy (openCache_fst_ne_busy _ _ _ _)
      fun _ => viewSlot_ne_failed _ _ _ _)
  | takeEvents | resultsFor =>
    simp only [Session.step] at h
    split at h <;> cases h
  | _ => cases h

/-- A step that takes up a queued request while the lock is taken comes to nothing. -/
theorem step_of_queued (limits : Limits) {step : Step} (htask : step.task? s = some task)
    (hunbegun : task.suspended = none) (hqueued : task.queued = true)
    (hblocking : task.request.access = .blocking) (hlocked : s.world.entryLocked = true) :
    (s.step p limits step).1 = .pending ∧ (s.step p limits step).2.world = s.world := by
  obtain ⟨out, hcourse, hanswer, hworld⟩ := course_of_task? (p := p) limits htask
  have hentry : task.request.access ≠ .free := hblocking ▸ nofun
  cases hcourse with
  | @waits woken queued =>
    have hdrop : ({ task with queued } : Task).drop s.world = s.world := by
      simp only [Task.drop, hunbegun]
    exact ⟨hanswer, hworld.elim id fun hleft => hleft.trans hdrop⟩
  | refused _ entry =>
    rw [Access.unqueued_of_refused entry] at hqueued
    cases hqueued
  | answered _ entry =>
    rcases Access.admission_of_locked hentry task.queued hlocked with hadmission | hadmission <;>
      cases hadmission.symm.trans entry
  | parks begins | ends begins =>
    rw [(begins.locks hentry hunbegun).1] at hlocked
    cases hlocked

/-- A step that is refused is answered so, and changes nothing but the log. -/
theorem step_of_refuses {step : Step} (hlocked : s.world.entryLocked = true)
    (hrefuses : s.Refuses step) (hpolls : 0 < limits.polls) :
    (s.step p limits step).1 = .failed .busy ∧
      (s.step p limits step).2.world = s.world.log .blockingRefused ∧
      (s.step p limits step).2.guards = s.guards := by
  obtain ⟨hflag, task, htask, hunbegun, hqueued, hblocking⟩ := hrefuses
  obtain ⟨polls, hpolls⟩ := Nat.exists_eq_add_of_le' hpolls
  cases step with
  | perform request token =>
    cases htask
    have hworld := s.world_tokenFor token
    have hguards := s.guards_tokenFor token
    simp only [Session.step]
    generalize s.tokenFor token = out at hworld hguards
    obtain ⟨t, s₁⟩ := out
    simp only at hworld hguards ⊢
    have hrefused : Task.run p limits.steps (polls + 1) { request, token := t } s.world =
        (.ready (.error .busy), s.world.log .blockingRefused) :=
      Task.run_refused _ _ rfl rfl hblocking hlocked hflag
    rw [hworld, hpolls, hrefused]
    exact ⟨rfl, rfl, hguards⟩
  | poll name times =>
    have hfound : s.tasks.get? name = some task := htask
    obtain ⟨n, hn⟩ := Nat.exists_eq_add_of_le' (Nat.le_max_left 1 times)
    simp only [Session.step, hfound, hn]
    rw [Task.pollTimes_refused _ _ hunbegun hqueued hblocking hlocked hflag]
    exact ⟨rfl, rfl, rfl⟩
  | run name =>
    have hfound : s.tasks.get? name = some task := htask
    simp only [Session.step, hfound, hpolls]
    rw [Task.run_refused _ _ hunbegun hqueued hblocking hlocked hflag]
    exact ⟨rfl, rfl, rfl⟩
  | _ => cases htask

end Session

/-! ## What the lock and the flag come to -/

namespace Session

variable {s : Session} {limits : Limits} {name : String} {access : Access}

/-- No body of a candid program makes up a refusal. -/
theorem Candid.not_makesUp (hp : p.Candid) (h : s.Candid) (step : Step) : ¬ s.MakesUp p step := by
  rintro ⟨task, e, w₁, w₂, htask, hbegins, hfinishes⟩
  have hbegun : e.Candid := by
    refine hbegins.candid ?_
    rcases unbegun_or_found htask with hunbegun | ⟨name, hfound⟩
    · intro e he
      cases hunbegun.symm.trans he
    · obtain ⟨entry, hentry, rfl⟩ := mem_entries_of_get? hfound
      exact h entry hentry
  exact (hbegun.reaches hp hfinishes.reaches).control rfl

/-- A task that the session can poll, with how others hold the entry lock: the task of a new request,
    or one that is kept. -/
def Among (s : Session) (task : Task) (others : List Access) : Prop :=
  task.suspended = none ∧ others = s.holders ∨
    ∃ name, s.tasks.get? name = some task ∧ others = s.holdersBeside name

/-- The lock and the flag agree with the tasks, and a blocking request is refused while the flag is
    up. -/
structure GuardsEntry (p : Program) (limits : Limits) (s : Session) : Prop where
  /-- One task at most holds the lock. -/
  single : ∀ name access name' access', s.Holds name access → s.Holds name' access' → name = name'
  locked : s.world.entryLocked = true ↔ ∃ name access, s.Holds name access
  /-- The flag is up if the holder is a waiting request. -/
  flagged : s.world.asyncEntry = true ↔ ∃ name, s.Holds name .waiting
  /-- So it is at every point of every evaluation. -/
  evaluations : ∀ task others e₀ w₀ e w, s.Among task others → task.Begins p s.world e₀ w₀ →
    Reaches p task.token e₀ w₀ e w → w.HeldBy (task.request.access.holds ++ others)
  /-- A blocking request that comes while the flag is up is refused, and changes nothing. -/
  refuses : ∀ step, s.Refuses step → 0 < limits.polls →
    (s.report p limits step).1.answer = .failed .busy ∧
      s.world.Agrees (s.report p limits step).2.world ∧
      (s.report p limits step).2.guards = s.guards
  /-- And nothing else is answered so, unless a body makes a refusal up. -/
  busy : ∀ step, (s.report p limits step).1.answer = .failed .busy →
    s.Refuses step ∨ s.MakesUp p step
  /-- No body of a candid program does. -/
  busy_iff : p.Candid → 0 < limits.polls → ∀ step,
    (s.report p limits step).1.answer = .failed .busy ↔ s.Refuses step
  /-- A blocking request that is queued waits for the lock, whoever holds it. -/
  waits : ∀ step task, step.task? s = some task → task.suspended = none → task.queued = true →
    task.request.access = .blocking → s.world.entryLocked = true →
    (s.report p limits step).1.answer = .pending ∧ s.world.Agrees (s.report p limits step).2.world
  /-- A step that is not about the holder leaves it the lock, and the flag as it is. -/
  keeps : ∀ step name access, s.Holds name access → ¬ step.Handles name →
    (s.report p limits step).2.world.entryLocked = true ∧
      (s.report p limits step).2.world.asyncEntry = s.world.asyncEntry ∧
      (s.report p limits step).2.tasks.get? name = s.tasks.get? name
  /-- Nobody gets the lock but by a poll that finds it free. -/
  takes : ∀ step name access, (s.report p limits step).2.Holds name access →
    s.Holds name access ∨ step.PollsTask name ∧ s.world.entryLocked = false
  /-- When the holder is answered or dropped, the lock is free and the flag is down. -/
  gives : ∀ step name access, s.Holds name access → ¬ (s.report p limits step).2.Holds name access →
    (s.report p limits step).2.world.entryLocked = false ∧
      (s.report p limits step).2.world.asyncEntry = false
  /-- And then a blocking request is accepted. -/
  accepts : (∀ name access, ¬ s.Holds name access) → s.world.asyncEntry = false ∧
    ∀ queued, Access.blocking.admission queued s.world = (.admitted, s.world.lockEntry false)

theorem locked_iff (hdistinct : s.tasks.Distinct) (h : s.world.HeldBy s.holders) :
    s.world.entryLocked = true ↔ ∃ name access, s.Holds name access := by
  rw [h.locked]
  constructor
  · intro hne
    obtain ⟨access, hmem⟩ := List.exists_mem_of_ne_nil _ hne
    obtain ⟨name, hholds⟩ := (mem_holders hdistinct).1 hmem
    exact ⟨name, access, hholds⟩
  · rintro ⟨name, access, hholds⟩
    exact List.ne_nil_of_mem ((mem_holders hdistinct).2 ⟨name, hholds⟩)

theorem flagged_iff (hdistinct : s.tasks.Distinct) (h : s.world.HeldBy s.holders) :
    s.world.asyncEntry = true ↔ ∃ name, s.Holds name .waiting :=
  h.flagged.trans (mem_holders hdistinct)

/-- If nobody holds the lock, it is free and the flag is down. -/
theorem heldBy_nil (hdistinct : s.tasks.Distinct) (h : s.world.HeldBy s.holders)
    (hnobody : ∀ name access, ¬ s.Holds name access) : s.world.HeldBy [] := by
  have hnil : s.holders = [] := List.eq_nil_iff_forall_not_mem.2 fun access hmem =>
    have ⟨name, hholds⟩ := (mem_holders hdistinct).1 hmem
    hnobody name access hholds
  rwa [hnil] at h

theorem Among.heldBy {task : Task} {others : List Access} (h : s.Among task others)
    (hdistinct : s.tasks.Distinct) (hheld : s.world.HeldBy s.holders) :
    s.world.HeldBy (task.holds ++ others) := by
  rcases h with ⟨hunbegun, rfl⟩ | ⟨name, hfound, rfl⟩
  · rwa [Task.holds_of_unbegun hunbegun]
  · exact hheld.of_perm (perm_holders hdistinct hfound)

/-- Whoever holds the lock after a step held it before, or was polled while it was free. -/
theorem Effects.holds {step : Step} {tasks : Named Task} {guards : Named SlotId} {task : Task}
    (heffects : s.Effects p step w tasks guards) (hdistinct : s.tasks.Distinct)
    (h : s.world.HeldBy s.holders) (hfound : tasks.get? name = some task)
    (haccess : access ∈ task.holds) :
    s.Holds name access ∨ step.PollsTask name ∧ s.world.entryLocked = false := by
  by_cases hname : step.Handles name
  · cases heffects with
    | @waits _ other before after woken w carries found course =>
      obtain rfl := hname.eq_of_pollsTask carries.pollsTask
      rw [Named.get?_insert_self] at hfound
      cases hfound
      have hbefore := h.of_perm (perm_holders hdistinct found)
      cases hsuspended : before.suspended with
      | some e =>
        left
        refine ⟨before, found, ?_⟩
        rw [Task.holds_of_suspended hsuspended, ← course.request.1]
        exact Task.mem_request_of_mem_holds haccess
      | none =>
        -- the lock was taken by this poll, so nobody else had it
        right
        have hafter : w.HeldBy (task.holds ++ s.holdersBeside name) := course.heldBy hbefore
        have hnobody : s.holdersBeside name = [] := hafter.others_eq_nil haccess
        rw [hnobody, Task.holds_of_unbegun hsuspended] at hbefore
        exact ⟨carries.pollsTask, (World.HeldBy.nil_iff.1 hbefore).1⟩
    | @ends _ other before result w carries found course =>
      obtain rfl := hname.eq_of_pollsTask carries.pollsTask
      rw [Named.get?_erase_self] at hfound
      cases hfound
    | @spawns other request tokenName token =>
      obtain rfl : name = other := hname
      rw [Named.get?_insert_self] at hfound
      cases hfound
      exact absurd haccess List.not_mem_nil
    | drops other =>
      obtain rfl : name = other := hname
      rw [Named.get?_erase_self] at hfound
      cases hfound
    | _ => exact .inl ⟨task, hfound, haccess⟩
  · exact .inl ⟨task, (heffects.get?_of_not_handles hname).symm.trans hfound, haccess⟩

theorem Accounted.guardsEntry (limits : Limits) (hs : s.Accounted p) (hcandid : p.Candid → s.Candid)
    (h : s.world.HeldBy s.holders) : s.GuardsEntry p limits := by
  have hrefuses (step : Step) (hrefuses : s.Refuses step) (hpolls : 0 < limits.polls) :
      (s.report p limits step).1.answer = .failed .busy ∧
        s.world.Agrees (s.report p limits step).2.world ∧
        (s.report p limits step).2.guards = s.guards := by
    have hlocked : s.world.entryLocked = true := by
      obtain ⟨name, hholds⟩ := (flagged_iff hs.tasks h).1 hrefuses.1
      exact (locked_iff hs.tasks h).2 ⟨name, _, hholds⟩
    obtain ⟨hanswer, hworld, hguards⟩ := step_of_refuses (p := p) hlocked hrefuses hpolls
    refine ⟨hanswer, ?_, hguards⟩
    simp only [Session.report, hworld]
    exact ⟨rfl, rfl, rfl⟩
  have hafter (step : Step) := heldBy_report limits hs h step
  have heffects (step : Step) := effects_step (p := p) limits s step
  have htakes (step : Step) (name : String) (access : Access)
      (hholds : (s.report p limits step).2.Holds name access) :
      s.Holds name access ∨ step.PollsTask name ∧ s.world.entryLocked = false := by
    obtain ⟨task, hfound, haccess⟩ := hholds
    exact (heffects step).holds hs.tasks h hfound haccess
  refine
    { single := fun _ _ _ _ hholds hother => hholds.unique hs.tasks h hother
      locked := locked_iff hs.tasks h
      flagged := flagged_iff hs.tasks h
      evaluations := fun task others e₀ w₀ e w hamong hbegins hreaches =>
        (hbegins.heldBy (hamong.heldBy hs.tasks h)).persists hreaches.persists
      refuses := hrefuses
      busy := fun _ hbusy => refuses_or_makesUp_of_busy hbusy
      busy_iff := fun hp hpolls step =>
        ⟨fun hbusy => (refuses_or_makesUp_of_busy hbusy).resolve_right
          ((hcandid hp).not_makesUp hp step), fun href => (hrefuses step href hpolls).1⟩
      waits := fun step task htask hunbegun hqueued hblocking hlocked => ?_
      keeps := fun step name access hholds hname => ?_
      takes := htakes
      gives := fun step name access hholds hgone => ?_
      accepts := fun hnobody => ?_ }
  · obtain ⟨hanswer, hworld⟩ := step_of_queued (p := p) limits htask hunbegun hqueued hblocking
      hlocked
    refine ⟨hanswer, ?_⟩
    simp only [Session.report, hworld]
    exact ⟨rfl, rfl, rfl⟩
  · have hget : (s.report p limits step).2.tasks.get? name = s.tasks.get? name :=
      (heffects step).get?_of_not_handles hname
    have hholds' : (s.report p limits step).2.Holds name access := by
      obtain ⟨task, hfound, haccess⟩ := hholds
      exact ⟨task, hget.trans hfound, haccess⟩
    have hdistinct := (hs.report limits step).tasks
    refine ⟨(locked_iff hdistinct (hafter step)).2 ⟨name, access, hholds'⟩, ?_, hget⟩
    -- the flag tells of the same holder before and after
    rw [Bool.eq_iff_iff, flagged_iff hdistinct (hafter step), flagged_iff hs.tasks h]
    constructor <;> rintro ⟨other, hother⟩
    · obtain rfl := hholds'.unique hdistinct (hafter step) hother
      obtain ⟨task, hfound, haccess⟩ := hother
      exact ⟨name, task, hget.symm.trans hfound, haccess⟩
    · obtain rfl := hholds.unique hs.tasks h hother
      obtain ⟨task, hfound, haccess⟩ := hother
      exact ⟨name, task, hget.trans hfound, haccess⟩
  · refine World.HeldBy.nil_iff.1 (heldBy_nil (hs.report limits step).tasks (hafter step) ?_)
    intro other access' hother
    rcases htakes step other access' hother with hbefore | ⟨-, hunlocked⟩
    · obtain rfl := hholds.unique hs.tasks h hbefore
      exact hgone (hholds.access_eq hbefore ▸ hother)
    · rw [(locked_iff hs.tasks h).2 ⟨name, access, hholds⟩] at hunlocked
      cases hunlocked
  · obtain ⟨hunlocked, hflag⟩ := World.HeldBy.nil_iff.1 (heldBy_nil hs.tasks h hnobody)
    exact ⟨hflag, fun _ => if_neg (Bool.eq_false_iff.1 hunlocked)⟩

end Session

/-- A blocking request is refused if it comes while a waiting request holds the entry lock. Take any
    program, and any steps of a client: requests of all kinds, blocking ones among them, and tasks
    that are made, polled, answered and dropped in any order, some of them under way and parked, some
    waiting for the lock and some never polled. In the state that they lead to, one task at most
    holds the lock, the lock is taken if there is one, and the flag beside it is up if this task is a
    waiting one. A blocking request that comes while the flag is up is refused and changes nothing, and
    no other step is answered with a refusal, unless a body has made one up, which those of a candid
    program do not. A blocking request that was not refused when it came waits for as long as the lock
    is taken. A step about another task leaves the holder, the lock and the flag as they are, a task
    gets the lock only by a poll that finds it free, and when the holder is answered or dropped, the
    lock is free, the flag is down, and blocking requests are accepted. -/
theorem busy_while_waiting_request_holds (p : Program) (limits : Session.Limits)
    (memoize traced : Bool) (steps : List Step) :
    ((Session.fresh memoize traced).after p limits steps).GuardsEntry p limits := by
  have hfresh := Session.accounted_fresh p memoize traced
  have hcandid : (Session.fresh memoize traced).Candid := fun _ hmem => absurd hmem List.not_mem_nil
  have hheld : (Session.fresh memoize traced).world.HeldBy (Session.fresh memoize traced).holders :=
    World.HeldBy.nil_iff.2 ⟨rfl, rfl⟩
  exact (hfresh.after limits steps).guardsEntry limits (fun hp => hcandid.after hp steps)
    (Session.heldBy_after limits hfresh hheld steps)

/-! ## A write is refused while a query is parked -/

/-- A session in which a waiting query is parked. -/
def parkedSession : Session := (Session.fresh true true).after thrice ⟨40, 3⟩ (turnSteps.take 3)

/-- A blocking write. -/
def blockingWrite : Step := .perform (.write .blocking ⟨"x"⟩ .unit (.int 6)) none

theorem busy_while_waiting_request_holds_thrice :
    parkedSession.Holds "query" .waiting ∧
      (parkedSession.report thrice ⟨40, 3⟩ blockingWrite).1.answer = .failed .busy ∧
      (parkedSession.report thrice ⟨40, 3⟩ (.drop "query")).2.world.asyncEntry = false ∧
      ((parkedSession.report thrice ⟨40, 3⟩ (.drop "query")).2.report thrice ⟨40, 3⟩
        blockingWrite).1.answer = .reply (.revision 3) := by
  have hguards : parkedSession.GuardsEntry thrice ⟨40, 3⟩ :=
    busy_while_waiting_request_holds thrice ⟨40, 3⟩ true true (turnSteps.take 3)
  have hholds : parkedSession.Holds "query" .waiting := ⟨_, rfl, List.mem_singleton_self _⟩
  refine ⟨hholds, ?_, ?_, rfl⟩
  · exact (hguards.refuses blockingWrite ⟨rfl, _, rfl, rfl, rfl, rfl⟩ (by decide)).1
  · refine (hguards.gives (.drop "query") "query" .waiting hholds ?_).2
    rintro ⟨task, hfound, -⟩
    cases hfound

/-! ## Refusals and the flag -/

/-- A program whose bodies make up a refusal. -/
def sham : Program := fun _ =>
  { id := ⟨"sham"⟩, valueType := .int, equality := Equality.content.same,
    body := fun _ => .done (.error .busy) }

/-- A blocking write waits for a blocking query, which is dropped; then a waiting query gets the lock
    before the write. -/
def queuedSteps : List Step :=
  [.spawn "first" (.query .blocking "thrice" .unit) none, .poll "first" 1,
    .spawn "write" (.write .blocking ⟨"x"⟩ .unit (.int 6)) none, .poll "write" 1,
    .drop "first", .spawn "query" (.query .waiting "thrice" .unit) none, .poll "query" 1]

/-- The answer of a blocking request does not follow from the flag. A body makes up a refusal while
    the flag is down; a task that does not hold the lock is polled, and the flag goes up; and a
    blocking write that waits for the lock is not refused while the flag is up. -/
theorem flag_and_refusals_differ :
    ((Session.fresh true true).world.asyncEntry = false ∧
      ((Session.fresh true true).report sham ⟨40, 3⟩
        (.perform (.query .blocking "sham" .unit) none)).1.answer = .failed .busy) ∧
    ((∀ name access, ¬ ((Session.fresh true true).after thrice ⟨40, 3⟩ (turnSteps.take 2)).Holds
        name access) ∧
      ((Session.fresh true true).after thrice ⟨40, 3⟩ (turnSteps.take 2)).world.asyncEntry = false ∧
      (((Session.fresh true true).after thrice ⟨40, 3⟩ (turnSteps.take 2)).report thrice ⟨40, 3⟩
        (.poll "query" 1)).2.world.asyncEntry = true) ∧
    ((Session.fresh true true).after thrice ⟨2, 3⟩ queuedSteps).world.asyncEntry = true ∧
      (((Session.fresh true true).after thrice ⟨2, 3⟩ queuedSteps).report thrice ⟨2, 3⟩
        (.poll "write" 1)).1.answer = .pending := by
  refine ⟨⟨rfl, rfl⟩, ⟨?_, rfl, rfl⟩, rfl, rfl⟩
  intro name access hholds
  have hfresh := Session.accounted_fresh thrice true true
  have hheld := Session.heldBy_after ⟨40, 3⟩ hfresh (World.HeldBy.nil_iff.2 ⟨rfl, rfl⟩)
    (turnSteps.take 2)
  have hdistinct := (hfresh.after ⟨40, 3⟩ (turnSteps.take 2)).tasks
  exact Bool.false_ne_true ((Session.locked_iff hdistinct hheld).2 ⟨name, access, hholds⟩)

end RedGreen
