import RedGreen.Proofs.Stamps

set_option autoImplicit false

/-! # Where tasks are parked

An evaluation is parked by a body that yields, and by nothing else (`Evaluation.atBody_of_parked`). The
limit on the steps of a poll can stop a task anywhere in its evaluation. But where no poll is cut short by
this limit, all tasks that a session keeps stand at bodies (`Session.parked_after`). -/

namespace RedGreen

open Evaluation

variable {p : Program} {t : Token} {w w' : World}

/-! ## Evaluations -/

namespace Evaluation

variable {e e' : Evaluation}

/-- A body is what goes on next. -/
def AtBody (e : Evaluation) : Prop := ∃ a body, e.control = .body a body

theorem atBody_of_parked (h : e.step p t w = .parked e' w') : e'.AtBody := by
  obtain ⟨control, frames⟩ := e
  cases control with
  | fetch | compute => cases h
  | walk walk =>
    have h : stepWalk t walk frames w = .parked e' w' := h
    unfold stepWalk at h
    split at h
    · cases h
    · simp only at h
      split at h <;> cases h
  | answer result =>
    have h : stepAnswer t result frames w = .parked e' w' := h
    unfold stepAnswer at h
    split at h
    · cases h
    · split at h <;> cases h
    · cases h
  | body a body =>
    cases body with
    | done | perform => cases h
    | call mode label key next =>
      have h : stepCall p a mode label key next frames w = .parked e' w' := h
      unfold stepCall at h
      split at h <;> cases h
    | yield next =>
      have h : stepYield a next frames w = .parked e' w' := h
      unfold stepYield at h
      split at h
      · cases h
        exact ⟨a, next, rfl⟩
      · cases h

theorem atBody_of_advance {budget : Nat} (h : e.advance p t budget w = .parked e' w') :
    e'.AtBody := by
  induction budget generalizing e w with
  | zero => cases h
  | succ budget ih =>
    rw [advance] at h
    cases hstep : e.step p t w with
    | running e₁ w₁ =>
      rw [hstep] at h
      exact ih h
    | parked e₁ w₁ =>
      rw [hstep] at h
      cases h
      exact atBody_of_parked hstep
    | finished result w₁ =>
      rw [hstep] at h
      cases h

end Evaluation

/-! ## Tasks -/

namespace Task

variable {task task' : Task} {woken : Bool} {budget : Nat}

/-- A task that has begun stands at a body. -/
def Parked (task : Task) : Prop := ∀ e, task.suspended = some e → e.AtBody

/-- A poll that a budget of steps does not cut short: the evaluation comes to its end or is parked. -/
def Uncut (p : Program) (budget : Nat) (task : Task) (w : World) : Prop :=
  ∀ e w₁, task.Begins p w e w₁ → ∀ e' w',
    (match task.request.access with
      | .blocking => e.drive p task.token budget w₁
      | _ => e.advance p task.token budget w₁) ≠ .running e' w'

/-- No poll is cut short, if a task is polled some times at most and a poll follows another one as `again`
    has it. -/
def UncutTimes (p : Program) (budget : Nat) (again : Bool → Prop) : Nat → Task → World → Prop
  | 0, _, _ => True
  | n + 1, task, w => task.Uncut p budget w ∧ ∀ woken task' w', again woken →
      task.poll p budget w = (.pending woken task', w') → UncutTimes p budget again n task' w'

theorem parked_of_resume {e : Evaluation} {w₁ : World} (hbegins : task.Begins p w e w₁)
    (huncut : task.Uncut p budget w) (h : task.resume p budget e w₁ = (.pending woken task', w')) :
    task'.Parked := by
  have hrunning := huncut e w₁ hbegins
  unfold resume settle at h
  split at h
  · cases h
  · rename_i e' w₂ hprogress
    cases h
    rintro e₂ he
    obtain rfl := Option.some.inj he
    split at hprogress
    · exact absurd hprogress (drive_ne_parked budget e w₁)
    · exact atBody_of_advance hprogress
  · exact absurd ‹_› (hrunning _ _)

theorem Parked.poll (hparked : task.Parked) (huncut : task.Uncut p budget w)
    (h : task.poll p budget w = (.pending woken task', w')) : task'.Parked := by
  unfold Task.poll at h
  split at h
  · exact parked_of_resume (.inl ⟨‹_›, rfl⟩) huncut h
  · split at h
    · cases h
    · cases h
      exact hparked
    · split at h
      · cases h
      · exact parked_of_resume (.inr ⟨‹_›, _, ‹_›, ‹_›⟩) huncut h

theorem Parked.pollTimes {task : Task} {w : World} (hparked : task.Parked) {n : Nat}
    (huncut : task.UncutTimes p budget (fun _ => True) n w)
    (h : task.pollTimes p budget n w = (.pending woken task', w')) : task'.Parked := by
  match n with
  | 0 =>
    cases h
    exact hparked
  | 1 => exact hparked.poll huncut.1 h
  | n + 2 =>
    obtain ⟨huncut, hrest⟩ := huncut
    rw [Task.pollTimes] at h
    split at h
    · rename_i woken₁ task₁ w₁ hpoll
      exact (hparked.poll huncut hpoll).pollTimes (hrest _ _ _ trivial hpoll) h
    · exact hparked.poll huncut h

theorem Parked.run (hparked : task.Parked) {polls : Nat}
    (huncut : task.UncutTimes p budget (· = true) polls w)
    (h : task.run p budget polls w = (.pending woken task', w')) : task'.Parked := by
  induction polls generalizing task w with
  | zero =>
    cases h
    exact hparked
  | succ polls ih =>
    obtain ⟨huncut, hrest⟩ := huncut
    rw [Task.run] at h
    split at h
    · exact ih (hparked.poll huncut ‹_›) (hrest _ _ _ rfl ‹_›) h
    · exact hparked.poll huncut h

end Task

/-! ## Sessions -/

/-- No poll in the course of a step of a client is cut short by the limit on its steps. -/
def Step.Uncut (p : Program) (limits : Session.Limits) (s : Session) (step : Step) : Prop :=
  ∀ task, step.task? s = some task →
    match step with
    | .poll _ times => task.UncutTimes p limits.steps (fun _ => True) (max 1 times) s.world
    | _ => task.UncutTimes p limits.steps (· = true) limits.polls s.world

namespace Session

variable {s : Session} {limits : Limits}

/-- No poll in the course of some steps is cut short. -/
def Uncut (p : Program) (limits : Limits) : Session → List Step → Prop
  | _, [] => True
  | s, step :: steps => step.Uncut p limits s ∧ Uncut p limits (s.report p limits step).2 steps

/-- All tasks that are kept stand at bodies. -/
def Parked (s : Session) : Prop := ∀ entry ∈ s.tasks.entries, entry.2.Parked

/-- A named task that is polled is parked again, if it is kept. -/
theorem Parked.afterPoll (h : s.Parked) {name : String} {out : Poll × World}
    (hout : ∀ woken task' w', out = (.pending woken task', w') → task'.Parked) :
    (s.afterPoll name out).2.Parked := by
  obtain ⟨poll, w⟩ := out
  intro entry hentry
  cases poll with
  | ready result => exact h entry (List.mem_filter.1 hentry).1
  | pending woken task' =>
    rcases List.mem_cons.1 hentry with rfl | hentry
    · exact hout woken task' w rfl
    · exact h entry (List.mem_filter.1 hentry).1

theorem Parked.step (h : s.Parked) {step : Step} (huncut : step.Uncut p limits s) :
    (s.step p limits step).2.Parked := by
  have hfound {name : String} {task : Task} (hget : s.tasks.get? name = some task) :
      task.Parked := by
    obtain ⟨entry, hentry, rfl⟩ := mem_entries_of_get? hget
    exact h entry hentry
  cases htask : step.task? s with
  | none =>
    rcases (effects_step (p := p) limits s step).aside with hpolls | ⟨-, -, htasks⟩
    · obtain ⟨task, htaken⟩ := hpolls.task?
      cases htask.symm.trans htaken
    · intro entry hentry e he
      rcases htasks entry hentry with hbefore | ⟨hunbegun, -⟩
      · exact h entry hbefore e he
      · cases hunbegun.symm.trans he
  | some task =>
    have htimes := huncut task htask
    cases step with
    | perform request name =>
      have heffects := effects_step (p := p) limits s (.perform request name)
      unfold Parked
      generalize (s.step p limits (.perform request name)).2.tasks = tasks,
        (s.step p limits (.perform request name)).2.world = w,
        (s.step p limits (.perform request name)).2.guards = guards at heffects
      cases heffects with
      | performs | opens | looks => exact h
      | ends carries | waits carries => cases carries
    | poll name times =>
      have hget : s.tasks.get? name = some task := htask
      simp only [Session.step, hget]
      exact h.afterPoll fun _ _ _ heq => (hfound hget).pollTimes htimes heq
    | run name =>
      have hget : s.tasks.get? name = some task := htask
      simp only [Session.step, hget]
      exact h.afterPoll fun _ _ _ heq => (hfound hget).run htimes heq
    | _ => cases htask

/-- Where no poll is cut short, all tasks that are kept stand at bodies. -/
theorem Parked.after (h : s.Parked) {steps : List Step} (huncut : s.Uncut p limits steps) :
    (s.after p limits steps).Parked := by
  induction steps generalizing s with
  | nil => exact h
  | cons step steps ih => exact ih (h.step huncut.1) huncut.2

end Session

end RedGreen
