import RedGreen.Proofs.Abandonment
import RedGreen.Proofs.Runs

set_option autoImplicit false

/-! # What a step of a client can do

There are many steps that a client can take, but few things that they do to the world, the tasks and
the guards of a session (`Effects`): a task takes some of its course, is made or is dropped, a slot
enters or leaves, a token is cancelled, memos are dropped, or a cache or an input slot is made. What
is claimed of all steps is proved by cases on these. -/

namespace RedGreen

open Evaluation

variable {p : Program}

/-! ## The active stack in the course of a task -/

/-- A run keeps the active stack in step with the slots that the evaluation holds. -/
theorem Evaluation.Reaches.stacked {t : Token} {e e' : Evaluation} {w w' : World}
    {others : List SlotId} (h : Reaches p t e w e' w') (hstacked : w.Stacked (e.held ++ others)) :
    w'.Stacked (e'.held ++ others) :=
  h.preserves (motive := fun e' w' => w'.Stacked (e'.held ++ others))
    (fun _ _ _ _ hnext hstacked => hnext.moves.stacked hstacked) hstacked

theorem Task.Begins.stacked {task : Task} {e : Evaluation} {w w' : World} {others : List SlotId}
    (h : task.Begins p w e w') (hstacked : w.Stacked (task.held ++ others)) :
    w'.Stacked (e.held ++ others) := by
  rcases h with ⟨hsuspended, rfl⟩ | ⟨hunbegun, w₁, hentry, hbegin⟩
  · rwa [held, hsuspended] at hstacked
  · rw [held, hunbegun] at hstacked
    have halters := Access.alters_of_entry hentry
    have hopens := Request.opens_begin p task.request w₁
    rw [hbegin] at hopens
    cases hopens with
    | evaluates rests => exact hstacked.of_active (rests.active.trans halters.active)

/-! ## Steps of a client -/

/-- The task that a step takes up: that of a new request, or one that is kept. -/
def Step.task? (s : Session) : Step → Option Task
  | .perform request name => some { request, token := (s.tokenFor name).1 }
  | .poll name _ | .run name => s.tasks.get? name
  | _ => none

/-- The answer that a poll comes to. -/
def Poll.answer : Poll → Answer
  | .ready result => .ofResult result
  | .pending _ _ => .pending

namespace Session

variable {s : Session}

/-- What a step of a client makes of the world, the tasks and the guards of a session. -/
inductive Effects (p : Program) (s : Session) : Step → World → Named Task → Named SlotId → Prop
  /-- A request is polled for as long as it asks for it, and dropped if it still waits then. -/
  | performs {request : Request} {name : Option String} {out : Poll × World}
    (course : Task.Course p { request, token := (s.tokenFor name).1 } s.world out) :
    Effects p s (.perform request name) (Poll.left out) s.tasks s.guards
  | spawns {name : String} {request : Request} {tokenName : Option String} (token : Token) :
    Effects p s (.spawn name request tokenName) (s.dropTask name).world
      ((s.tasks.erase name).insert name { request, token }) s.guards
  /-- A task is polled, and is answered. -/
  | ends {step : Step} {name : String} {task : Task} {result : Except QueryError Reply} {w : World}
    (carries : step.Carries s task.request (some name)) (found : s.tasks.get? name = some task)
    (course : task.Course p s.world (.ready result, w)) :
    Effects p s step w (s.tasks.erase name) s.guards
  /-- A task is polled, and is kept. -/
  | waits {step : Step} {name : String} {task task' : Task} {woken : Bool} {w : World}
    (carries : step.Carries s task.request (some name)) (found : s.tasks.get? name = some task)
    (course : task.Course p s.world (.pending woken task', w)) :
    Effects p s step w (s.tasks.insert name task') s.guards
  | drops (name : String) :
    Effects p s (.drop name) (s.dropTask name).world (s.tasks.erase name) s.guards
  | cancels (name : String) :
    Effects p s (.cancel name) (s.world.cancel (s.tokenFor (some name)).1) s.tasks s.guards
  | enters {name : String} {slot : SlotId} {w : World}
    (entered : s.world.enter slot = (.ok (), w)) :
    Effects p s (.enter name slot) (dropGuard { s with world := w } name).world s.tasks
      ((s.guards.erase name).insert name slot)
  | refuses {name : String} {slot : SlotId} {e : QueryError} {w : World}
    (refused : s.world.enter slot = (.error e, w)) :
    Effects p s (.enter name slot) w s.tasks s.guards
  | leaves (name : String) :
    Effects p s (.leave name) (s.dropGuard name).world s.tasks (s.guards.erase name)
  | clearsCache {query : QueryId} {keyType : KeyType} {valueType : ValueType} {before : Revision}
    {w : World} (opened : s.world.openCache query keyType valueType = (.ok (), w)) :
    Effects p s (.clearCache query keyType valueType before) (w.clearCache query before).2 s.tasks
      s.guards
  | clearsSlot {query : QueryId} {valueType : ValueType} {key : Key} {before : Revision} {w : World}
    (opened : s.world.openCache query key.type valueType = (.ok (), w)) :
    Effects p s (.clearSlot query valueType key before) (w.clearSlot query key before).2 s.tasks
      s.guards
  | makes (query : QueryId) (valueType : ValueType) (key : Key) :
    Effects p s (.makeInput query valueType key) (s.world.inputSlot query valueType key).2 s.tasks
      s.guards
  | opens (step : Step) (query : QueryId) (keyType : KeyType) (valueType : ValueType) :
    Effects p s step (s.world.openCache query keyType valueType).2 s.tasks s.guards
  | looks (step : Step) : Effects p s step s.world s.tasks s.guards

/-- What a step that polls a task makes of the world and the tasks. -/
inductive Polls (p : Program) (s : Session) : Step → World → Named Task → Prop
  | performs {request : Request} {name : Option String} {out : Poll × World}
    (course : Task.Course p { request, token := (s.tokenFor name).1 } s.world out) :
    Polls p s (.perform request name) (Poll.left out) s.tasks
  | ends {step : Step} {name : String} {task : Task} {result : Except QueryError Reply} {w : World}
    (carries : step.Carries s task.request (some name)) (found : s.tasks.get? name = some task)
    (course : task.Course p s.world (.ready result, w)) : Polls p s step w (s.tasks.erase name)
  | waits {step : Step} {name : String} {task task' : Task} {woken : Bool} {w : World}
    (carries : step.Carries s task.request (some name)) (found : s.tasks.get? name = some task)
    (course : task.Course p s.world (.pending woken task', w)) :
    Polls p s step w (s.tasks.insert name task')

/-- A task that the session can poll, with what else is in progress: the task of a new request, or one
    that is kept. -/
def Beside (s : Session) (task : Task) (others : List SlotId) : Prop :=
  task.suspended = none ∧ others = s.inProgress ∨
    ∃ name, s.tasks.get? name = some task ∧ others = s.heldBeside name

theorem Accounted.beside {task : Task} {others : List SlotId} (h : s.Accounted p)
    (htask : s.Beside task others) : s.world.Stacked (task.held ++ others) := by
  rcases htask with ⟨hunbegun, rfl⟩ | ⟨name, hfound, rfl⟩
  · rw [Task.held, hunbegun]
    exact h.stacked
  · exact (h.of_get? hfound).stacked

theorem mem_entries_of_get? {α : Type} {n : Named α} {name : String} {a : α}
    (h : n.get? name = some a) : ∃ entry ∈ n.entries, entry.2 = a := by
  have hmem := (Named.subperm_of_get? h fun a => [a]).subset (List.mem_append_left _ (.head _))
  obtain ⟨entry, hentry, heq⟩ := List.mem_flatMap.1 hmem
  exact ⟨entry, hentry, (List.mem_singleton.1 heq).symm⟩

@[simp] theorem guards_dropTask (s : Session) (name : String) :
    (s.dropTask name).guards = s.guards := by
  unfold dropTask
  split <;> rfl

@[simp] theorem tasks_dropGuard (s : Session) (name : String) :
    (s.dropGuard name).tasks = s.tasks := by
  unfold dropGuard
  split <;> rfl

@[simp] theorem guards_dropGuard (s : Session) (name : String) :
    (s.dropGuard name).guards = s.guards.erase name := by
  unfold dropGuard
  cases hguard : s.guards.get? name with
  | none => exact (Named.erase_of_get?_none hguard).symm
  | some slot => rfl

theorem world_afterPoll (s : Session) (name : String) (out : Poll × World) :
    (s.afterPoll name out).2.world = out.2 := by
  obtain ⟨poll, w⟩ := out
  cases poll <;> rfl

/-- A poll of a named task. -/
theorem effects_afterPoll {step : Step} {name : String} {task : Task}
    (hcarries : step.Carries s task.request (some name)) (hfound : s.tasks.get? name = some task)
    {out : Poll × World} (hcourse : task.Course p s.world out) :
    Effects p s step (s.afterPoll name out).2.world (s.afterPoll name out).2.tasks
      (s.afterPoll name out).2.guards := by
  obtain ⟨poll, w⟩ := out
  cases poll with
  | ready result => exact .ends hcarries hfound hcourse
  | pending woken task' => exact .waits hcarries hfound hcourse

/-- Every step of a client has one of the effects. -/
theorem effects_step (limits : Limits) (s : Session) (step : Step) :
    s.Effects p step (s.step p limits step).2.world (s.step p limits step).2.tasks
      (s.step p limits step).2.guards := by
  cases step with
  | perform request name =>
    have hcourse := Task.course_run (p := p) limits.steps limits.polls
      { request, token := (s.tokenFor name).1 } s.world
    have hperforms := Effects.performs hcourse
    have hworld := s.world_tokenFor name
    have htasks := s.tasks_tokenFor name
    have hguards := s.guards_tokenFor name
    simp only [Session.step]
    generalize s.tokenFor name = made at hperforms hworld htasks hguards
    obtain ⟨token, s₁⟩ := made
    simp only at hworld htasks hguards hperforms ⊢
    rw [hworld]
    generalize Task.run p limits.steps limits.polls { request, token } s.world = out at hperforms
    rw [← htasks, ← hguards] at hperforms
    obtain ⟨poll, w⟩ := out
    cases poll <;> exact hperforms
  | spawn name request tokenName =>
    simp only [Session.step]
    generalize hmade : (s.dropTask name).tokenFor tokenName = made
    have hworld := (s.dropTask name).world_tokenFor tokenName
    have htasks := (s.dropTask name).tasks_tokenFor tokenName
    have hguards := (s.dropTask name).guards_tokenFor tokenName
    rw [hmade] at hworld htasks hguards
    simp only [hworld, htasks, hguards, tasks_dropTask, guards_dropTask]
    exact .spawns _
  | poll name times =>
    simp only [Session.step]
    cases hfound : s.tasks.get? name with
    | none => exact .looks _
    | some task =>
      exact effects_afterPoll (.poll times hfound) hfound
        (Task.course_pollTimes limits.steps _ task s.world)
  | run name =>
    simp only [Session.step]
    cases hfound : s.tasks.get? name with
    | none => exact .looks _
    | some task =>
      exact effects_afterPoll (.run hfound) hfound
        (Task.course_run limits.steps limits.polls task s.world)
  | drop name =>
    simp only [Session.step, tasks_dropTask, guards_dropTask]
    exact .drops name
  | cancel name =>
    simp only [Session.step, world_tokenFor, tasks_tokenFor, guards_tokenFor]
    exact .cancels name
  | lookAtToken name =>
    simp only [Session.step, world_tokenFor, tasks_tokenFor, guards_tokenFor]
    exact .looks _
  | enter name slot =>
    simp only [Session.step]
    split
    · exact .refuses ‹_›
    · simp only [tasks_dropGuard, guards_dropGuard]
      exact .enters ‹_›
  | leave name =>
    simp only [Session.step, tasks_dropGuard, guards_dropGuard]
    exact .leaves name
  | stack | slots | describe | stamps | debug | resultsFor => exact .looks _
  | takeEvents =>
    simp only [Session.step]
    split <;> exact .looks _
  | cache query keyType valueType => exact .opens _ query keyType valueType
  | clearCache query keyType valueType before =>
    have hopens := Effects.opens (p := p) (s := s) (.clearCache query keyType valueType before)
      query keyType valueType
    simp only [Session.step]
    split
    · rename_i hopen
      rwa [hopen] at hopens
    · exact .clearsCache ‹_›
  | clearSlot query valueType key before =>
    have hopens := Effects.opens (p := p) (s := s) (.clearSlot query valueType key before)
      query key.type valueType
    simp only [Session.step]
    split
    · rename_i hopen
      rwa [hopen] at hopens
    · exact .clearsSlot ‹_›
  | makeInput query valueType key => exact .makes query valueType key
  | inspect query valueType key => exact .opens _ query key.type valueType
  | gatherDeps query keyType valueType keys => exact .opens _ query keyType valueType

/-- A request that is made is carried as far as the limits go, and dropped if it still waits then. -/
theorem step_perform (s : Session) (limits : Limits) (request : Request) (token : Option String) :
    let out := Task.run p limits.steps limits.polls { request, token := (s.tokenFor token).1 } s.world
    (s.step p limits (.perform request token)).1 = out.1.answer ∧
      (s.step p limits (.perform request token)).2.world = Poll.left out := by
  have hworld := s.world_tokenFor token
  simp only [Session.step, hworld]
  generalize Task.run p limits.steps limits.polls _ s.world = out
  obtain ⟨poll, w⟩ := out
  cases poll <;> exact ⟨rfl, rfl⟩

theorem world_perform (s : Session) (limits : Limits) (request : Request) (token : Option String) :
    (s.step p limits (.perform request token)).2.world = Poll.left (Task.run p limits.steps
      limits.polls { request, token := (s.tokenFor token).1 } s.world) :=
  (step_perform s limits request token).2

/-- A task that a step takes up has not begun, or it is kept. -/
theorem unbegun_or_found {step : Step} {task : Task} (h : step.task? s = some task) :
    task.suspended = none ∨ ∃ name, s.tasks.get? name = some task := by
  cases step with
  | perform request name =>
    cases h
    exact .inl rfl
  | poll name _ | run name => exact .inr ⟨name, h⟩
  | _ => cases h

/-- A step that carries a request takes up its task. -/
theorem task?_of_carries {step : Step} {request : Request} {name : Option String}
    (h : step.Carries s request name) :
    ∃ task, step.task? s = some task ∧ task.request = request := by
  cases h with
  | perform _ token => exact ⟨_, rfl, rfl⟩
  | poll _ found | run found => exact ⟨_, found, rfl⟩

/-- A step that polls a task takes it up. -/
theorem Polls.task? {step : Step} {w : World} {tasks : Named Task} (h : s.Polls p step w tasks) :
    ∃ task, step.task? s = some task := by
  cases h with
  | performs => exact ⟨_, rfl⟩
  | ends carries | waits carries =>
    obtain ⟨task, htask, -⟩ := task?_of_carries carries
    exact ⟨task, htask⟩

/-- The task that a step takes up, and what becomes of it when it is polled. -/
def polled? (p : Program) (limits : Limits) (s : Session) (step : Step) : Option (Task × Poll × World) :=
  (step.task? s).map fun task =>
    match step with
    | .poll _ times => (task, task.pollTimes p limits.steps (max 1 times) s.world)
    | _ => (task, task.run p limits.steps limits.polls s.world)

theorem polled?_eq_none {limits : Limits} {step : Step} :
    s.polled? p limits step = none ↔ step.task? s = none := Option.map_eq_none_iff

theorem task?_of_polled {limits : Limits} {step : Step} {task : Task} {out : Poll × World}
    (h : s.polled? p limits step = some (task, out)) : step.task? s = some task := by
  obtain ⟨task', htask, heq⟩ := Option.map_eq_some_iff.1 h
  split at heq <;> cases heq <;> exact htask

theorem course_of_polled {limits : Limits} {step : Step} {task : Task} {out : Poll × World}
    (h : s.polled? p limits step = some (task, out)) : task.Course p s.world out := by
  obtain ⟨task', -, heq⟩ := Option.map_eq_some_iff.1 h
  split at heq <;> cases heq
  · exact Task.course_pollTimes _ _ _ _
  · exact Task.course_run _ _ _ _

/-- The answer of a step that takes up a task tells what becomes of the task, and the world is the one
    that this leads to, or the one that is left of it. -/
theorem step_of_polled {limits : Limits} {step : Step} {task : Task} {out : Poll × World}
    (h : s.polled? p limits step = some (task, out)) :
    (s.step p limits step).1 = out.1.answer ∧
      ((s.step p limits step).2.world = out.2 ∨ (s.step p limits step).2.world = Poll.left out) := by
  -- a poll of a named task
  have hafterPoll (name : String) (out : Poll × World) :
      (s.afterPoll name out).1 = out.1.answer ∧ (s.afterPoll name out).2.world = out.2 := by
    obtain ⟨poll, w⟩ := out
    cases poll <;> exact ⟨rfl, rfl⟩
  have htask := task?_of_polled h
  cases step with
  | perform request name =>
    cases h
    obtain ⟨hanswer, hworld⟩ := step_perform s limits request name (p := p)
    exact ⟨hanswer, .inr hworld⟩
  | poll name times | run name =>
    have hfound : s.tasks.get? name = some task := htask
    simp only [polled?, htask, Option.map_some, Option.some.injEq, Prod.mk.injEq, true_and] at h
    simp only [Session.step, hfound, h]
    obtain ⟨hanswer, hworld⟩ := hafterPoll name out
    exact ⟨hanswer, .inl hworld⟩
  | _ => cases htask

theorem course_of_task? (limits : Limits) {step : Step} {task : Task}
    (h : step.task? s = some task) :
    ∃ out, task.Course p s.world out ∧ (s.step p limits step).1 = out.1.answer ∧
      ((s.step p limits step).2.world = out.2 ∨ (s.step p limits step).2.world = Poll.left out) := by
  cases hpolled : s.polled? p limits step with
  | none =>
    rw [polled?_eq_none.1 hpolled] at h
    cases h
  | some polled =>
    obtain ⟨task', out⟩ := polled
    cases (task?_of_polled hpolled).symm.trans h
    exact ⟨out, course_of_polled hpolled, step_of_polled hpolled⟩

end Session

end RedGreen
