import RedGreen.Proofs.Concurrency
import RedGreen.Proofs.Shortcuts

set_option autoImplicit false

/-! # Sessions in which no shortcut is wrong

A body may go on after a call has failed, or hand on another error. Then a revalidation may confirm a
memo that is no longer right, and it may fail where the body would not. A step of a session is
*straight* if the evaluation that it carries takes no such shortcut on its way. As long as all steps
are straight, a system that keeps values answers as one that keeps none
(`Session.Twins.reports_of_straight`). -/

namespace RedGreen

open Evaluation

variable {p : Program} {use : Usages} {same : Indistinct}

/-! ## Requests -/

/-- If the evaluation of a request is straight and finishes, then it finishes without a memory, with
    the same result. -/
theorem World.Twins.request_of_straight (hp : p.Pure use same False) (hacyclic : p.Acyclic)
    {w w' w₁ : World} (h : w.Twins p use w') (hfair : w.Fair p use same) {i i' : SlotId}
    {label : Label} {key : Key} {t u : Token} {result : Except QueryError Stamped}
    (hi : w.node? i = some (p.node label key)) (hi' : w'.node? i' = some (p.node label key))
    (hstraight : (Evaluation.request i).Straight p t w)
    (hfinishes : Evaluation.Finishes p t (.request i) w result w₁) :
    ∃ result' w₁', Evaluation.Finishes p u (.request i') w' result' w₁' ∧
      Agree (fun s s' : Stamped => s.value.Alike s'.value) result result' ∧
      w₁.Fair p use same ∧ w₁.Twins p use w₁' ∧ w₁.entryLocked = w.entryLocked ∧
      w₁'.entryLocked = w'.entryLocked := by
  obtain ⟨hfair₁, hspares, hidle₁, n, r, hyields, hagree⟩ :=
    hfair.request_finishes hp hacyclic (by simp [h.uncancelled]) h.idle hi hstraight hfinishes
  obtain ⟨result', w₁', hfinishes', hanswer⟩ := (hyields.evaluates_alone hp).request_finishes_plainly
    hp (h.plain u) h.idle' (h.tidy.keyType hi) hi'
  refine ⟨result', w₁', hfinishes', ?_, hfair₁, ?_, hspares.entryLocked, hanswer.entryLocked⟩
  · refine hagree.trans (hanswer.agree.symm fun _ _ hab => hab.2.symm) ?_
    exact fun _ _ _ hab hbc => hab.trans hbc
  · refine h.of_extends hspares.toExtends hfair₁.tidy (hidle₁.trans h.idle.symm) hanswer.toExtends
      hanswer.tidy ?_
    rw [hanswer.active, h.idle']
    rfl

/-- The evaluation that a request begins, if it begins one, is straight. -/
def Request.Straight (p : Program) (t : Token) (request : Request) (w : World) : Prop :=
  ∀ w₁ e w₂, request.access.admission false w = (.admitted, w₁) → request.begin p w₁ = (.evaluating e, w₂) →
    e.Straight p t w₂

/-- What twins begin, the one that keeps no values ends if the other one is straight and does,
    alike. -/
theorem Request.transfers_of_straight (hp : p.Pure use same False) (hacyclic : p.Acyclic)
    {request : Request} (hconsistent : request.Consistent p use) (hasks : request.Asks)
    {w w' : World} (h : w.Twins p use w') (hfair : w.Fair p use same) (t t' : Token)
    (hstraight : ∀ e w₁, request.begin p w = (.evaluating e, w₁) → e.Straight p t w₁) :
    request.Transfers p t t' Reply.Alike (fun w w' => w.Twins p use w' ∧ w.Fair p use same) w w'
      (request.begin p w) (request.begin p w') := by
  have hbegins := Request.begin_twins hp hconsistent hasks h
  generalize request.begin p w = out at hbegins hstraight
  generalize request.begin p w' = out' at hbegins
  cases hbegins with
  | answered hagree hturns htwins hlocked hlocked' =>
    exact .answered hagree ⟨htwins, hfair.turns hturns⟩ hlocked hlocked'
  | evaluating hvalue hfinds hfinds' htwins =>
    refine .evaluating fun result w₁ hfinishes => ?_
    obtain ⟨result', w₁', hfinishes', hagree, hfair₁, htwins₁, hlocked, hlocked'⟩ :=
      htwins.request_of_straight (u := t') hp hacyclic (hfair.grows hfinds.tidy hfinds.toGrows)
        hfinds.found hfinds'.found (hstraight _ _ rfl) hfinishes
    exact ⟨result', w₁', hfinishes', request.alike_replyOf hvalue hagree, ⟨htwins₁, hfair₁⟩,
      hlocked.trans hfinds.entryLocked, hlocked'.trans hfinds'.entryLocked⟩

/-! ## Sessions -/

namespace Session

/-- The evaluation that a step carries, if it carries one, is straight. -/
def StepsStraight (p : Program) (s : Session) : Step → Prop
  | .perform request token => request.Straight p (s.tokenFor token).1 s.world
  | _ => True

/-- All steps, one after the other, are straight. -/
def Straight (p : Program) (limits : Limits) : Session → List Step → Prop
  | _, [] => True
  | s, step :: steps => s.StepsStraight p step ∧ Straight p limits (s.report p limits step).2 steps

/-- A straight step that is answered takes twins to twins, and both give the same answer, under large
    enough limits. -/
theorem Twins.step_of_straight (hp : p.Pure use same False) (hacyclic : p.Acyclic) {step : Step}
    (hstep : step.Sequential p use) {s s' : Session} (h : s.Twins p use s')
    (hfair : s.world.Fair p use same) (hstraight : s.StepsStraight p step) {limits : Limits}
    (hanswered : (s.step p limits step).1 ≠ .pending) :
    ∃ bound answer' s₁', (∀ limits' : Limits, bound ≤ limits'.steps → bound ≤ limits'.polls →
        s'.step p limits' step = (answer', s₁')) ∧
      (s.step p limits step).1.Alike answer' ∧ (s.step p limits step).2.world.Fair p use same ∧
      (s.step p limits step).2.Twins p use s₁' := by
  by_cases hperform : ∃ request token, step = .perform request token
  · obtain ⟨request, token, rfl⟩ := hperform
    have hstraight : request.Straight p (s.tokenFor token).1 s.world := hstraight
    obtain ⟨answer, w₁, hrun⟩ := ready_of_step hanswered
    obtain ⟨bound, answer', w₁', hrun', hagree, ⟨htwins, hfair₁⟩, hfree, hfree'⟩ :=
      Request.run_transfers h.free h.free'
        (fun w w' w₁ w₁' hw halters halters' =>
          ⟨hw.1.alters halters halters', hw.2.turns (halters.turns hw.2.tidy)⟩)
        (fun w₁ w₁' hentry halters halters' => Request.transfers_of_straight hp hacyclic hstep.1
          hstep.2 (h.worlds.alters halters halters') (hfair.turns (halters.turns hfair.tidy)) _
          (s'.tokenFor token).1 fun e w₂ => hstraight w₁ e w₂ hentry) hrun
    rw [step_of_ready hrun]
    exact ⟨bound, _, _, fun limits' hsteps hpolls => step_of_ready (hrun' _ _ hsteps hpolls),
      Answer.alike_ofResult hagree, hfair₁, htwins, hfree, hfree'⟩
  · obtain ⟨answer, answer', s₁, s₁', hstep₁, hstep₁', halike, hturns, htwins⟩ :=
      h.clear hstep fun request token heq => hperform ⟨request, token, heq⟩
    rw [hstep₁]
    exact ⟨0, answer', s₁', fun limits' _ _ => hstep₁' limits', halike, hfair.turns hturns, htwins⟩

/-- What twins are asked, one request after the other, they answer alike, as long as all steps are
    straight. -/
theorem Twins.reports_of_straight (hp : p.Pure use same False) (hacyclic : p.Acyclic)
    {limits : Limits} {steps : List Step} (hsteps : ∀ step ∈ steps, step.Sequential p use)
    {s s' : Session} (h : s.Twins p use s') (hfair : s.world.Fair p use same)
    (hstraight : s.Straight p limits steps)
    (hanswered : ∀ report ∈ s.reports p limits steps, report.answer ≠ .pending) :
    ∃ bound, ∀ limits' : Limits, bound ≤ limits'.steps → bound ≤ limits'.polls →
      List.Forall₂ (fun report report' => report.answer.Alike report'.answer)
        (s.reports p limits steps) (s'.reports p limits' steps) := by
  exact reports_transfer Answer.Alike (fun steps s s' => (∀ step ∈ steps, step.Sequential p use) ∧
    s.Twins p use s' ∧ s.world.Fair p use same ∧ s.Straight p limits steps)
    (fun step steps s s' ⟨hsteps, h, hfair, hstraight⟩ hanswered => by
      obtain ⟨bound, answer', s₁', hstep, halike, hfair₁, htwins⟩ := h.step_of_straight hp hacyclic
        (hsteps step List.mem_cons_self) hfair hstraight.1 hanswered
      have halters : (s.step p limits step).2.world.Alters (s.report p limits step).2.world :=
        ⟨rfl, rfl, rfl, rfl, rfl, rfl⟩
      exact ⟨bound, answer', s₁', hstep, halike, fun collector =>
        ⟨fun st hst => hsteps st (List.mem_cons_of_mem _ hst), htwins.reported _ _,
          hfair₁.turns (halters.turns hfair₁.tidy), hstraight.2⟩⟩)
    ⟨hsteps, h, hfair, hstraight⟩ hanswered

end Session

end RedGreen
