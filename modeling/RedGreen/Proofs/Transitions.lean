import RedGreen.Proofs.SessionSteps

set_option autoImplicit false

/-! # The steps of evaluations

Each step of an evaluation, with the worlds before and after it, is a *transition*. The transitions of an
evaluation in a row are a *trail* (`Trail`). A task that is polled takes the steps of one trail
(`Task.Takes`), and the steps of a client, one after the other, let the evaluations that they take up
proceed by the steps of such trails (`Session.Proceeds`). -/

namespace RedGreen

open Evaluation

variable {p : Program} {t : Token} {w w' : World}

/-! ## Steps -/

/-- A step of an evaluation, with the worlds before and after it. -/
structure Transition where
  source : Evaluation
  before : World
  target : Evaluation
  after : World

namespace Evaluation

variable {e e' : Evaluation}

/-- The first steps of an evaluation. -/
def trail (p : Program) (t : Token) : Nat → Evaluation → World → List Transition
  | 0, _, _ => []
  | n + 1, e, w =>
    match e.step p t w with
    | .running e' w' | .parked e' w' => ⟨e, w, e', w'⟩ :: trail p t n e' w'
    | .finished _ _ => []

/-- An evaluation takes some steps in a row. -/
inductive Trail (p : Program) (t : Token) :
    Evaluation → World → List Transition → Evaluation → World → Prop
  | here (e : Evaluation) (w : World) : Trail p t e w [] e w
  | step {e e₁ e' : Evaluation} {w w₁ w' : World} {own : List Transition} (next : e.Next p t w e₁ w₁)
    (rest : Trail p t e₁ w₁ own e' w') : Trail p t e w (⟨e, w, e₁, w₁⟩ :: own) e' w'

theorem trail_of_drive {n : Nat} (h : e.drive p t n w = .running e' w') :
    Trail p t e w (trail p t n e w) e' w' := by
  induction n generalizing e w with
  | zero =>
    cases h
    exact .here _ _
  | succ n ih =>
    simp only [drive, trail] at h ⊢
    cases hstep : e.step p t w with
    | finished r w₁ =>
      rw [hstep] at h
      cases h
    | running e₁ w₁ =>
      rw [hstep] at h
      exact .step (.inl hstep) (ih h)
    | parked e₁ w₁ =>
      rw [hstep] at h
      exact .step (.inr hstep) (ih h)

theorem Reaches.exists_trail (h : Reaches p t e w e' w') : ∃ own, Trail p t e w own e' w' := by
  obtain ⟨n, hn⟩ := h
  exact ⟨_, trail_of_drive hn⟩

theorem Next.reaches (h : e.Next p t w e' w') : Reaches p t e w e' w' := h.elim .of_step .of_parked

end Evaluation

/-! ## Tasks -/

/-- The steps that the evaluation of a task takes while the task is polled for a while, and what becomes
    of the task. -/
inductive Task.Takes (p : Program) (task : Task) (w : World) : List Transition → Poll × World → Prop
  | waits {woken queued : Bool} (unbegun : task.suspended = none) :
    Takes p task w [] (.pending woken { task with queued }, w)
  | refused {w' : World} (unbegun : task.suspended = none)
    (entry : task.request.access.admission task.queued w = (.refused, w')) :
    Takes p task w [] (.ready (.error .busy), w')
  | answered {w₁ w₂ : World} {result : Except QueryError Reply} (unbegun : task.suspended = none)
    (entry : task.request.access.admission task.queued w = (.admitted, w₁))
    (opens : task.request.begin p w₁ = (.answered result, w₂)) :
    Takes p task w [] (.ready result, task.request.access.release w₂)
  | parks {woken queued : Bool} {e e' : Evaluation} {w₁ w' : World} {own : List Transition}
    (begins : task.Begins p w e w₁) (trail : Trail p task.token e w₁ own e' w') :
    Takes p task w own (.pending woken { task with suspended := some e', queued }, w')
  | ends {e : Evaluation} {w₁ w' : World} {result : Except QueryError Stamped} {own : List Transition}
    (begins : task.Begins p w e w₁) (trail : Trail p task.token e w₁ own ⟨.answer result, []⟩ w') :
    Takes p task w own (.ready (result.map task.request.replyOf), task.request.access.release w')

theorem Task.Course.exists_takes {task : Task} {out : Poll × World} (h : task.Course p w out) :
    ∃ own, task.Takes p w own out := by
  cases h with
  | waits unbegun => exact ⟨_, .waits unbegun⟩
  | refused unbegun entry => exact ⟨_, .refused unbegun entry⟩
  | answered unbegun entry opens => exact ⟨_, .answered unbegun entry opens⟩
  | parks begins reaches =>
    obtain ⟨own, htrail⟩ := reaches.exists_trail
    exact ⟨own, .parks begins htrail⟩
  | ends begins finishes =>
    obtain ⟨own, htrail⟩ := finishes.reaches.exists_trail
    exact ⟨own, .ends begins htrail⟩

/-! ## Clients -/

namespace Session

variable {limits : Limits}

/-- The steps that evaluations take in the course of the steps of a client, one after the other. -/
inductive Proceeds (p : Program) (limits : Limits) : Session → List Step → List Transition → Prop
  | idle (s : Session) : Proceeds p limits s [] []
  /-- A step that polls nothing. -/
  | aside {s : Session} {step : Step} {steps : List Step} {more : List Transition}
    (untaken : s.polled? p limits step = none)
    (rest : Proceeds p limits (s.report p limits step).2 steps more) :
    Proceeds p limits s (step :: steps) more
  | polls {s : Session} {step : Step} {steps : List Step} {task : Task} {out : Poll × World}
    {own more : List Transition} (polled : s.polled? p limits step = some (task, out))
    (takes : task.Takes p s.world own out)
    (rest : Proceeds p limits (s.report p limits step).2 steps more) :
    Proceeds p limits s (step :: steps) (own ++ more)

/-- Evaluations do proceed, whatever a client does. -/
theorem exists_proceeds (s : Session) (steps : List Step) : ∃ own, s.Proceeds p limits steps own := by
  induction steps generalizing s with
  | nil => exact ⟨[], .idle s⟩
  | cons step steps ih =>
    obtain ⟨more, hmore⟩ := ih (s.report p limits step).2
    cases hpolled : s.polled? p limits step with
    | none => exact ⟨more, .aside hpolled hmore⟩
    | some polled =>
      obtain ⟨own, htakes⟩ := (course_of_polled hpolled).exists_takes
      exact ⟨own ++ more, .polls hpolled htakes hmore⟩

end Session

end RedGreen
