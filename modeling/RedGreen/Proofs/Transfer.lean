import Mathlib.Data.List.Forall2
import RedGreen.Proofs.Requests
import RedGreen.Proofs.Running

set_option autoImplicit false

/-! # One system answers after another

Two systems are asked for the same, one request after the other. If the evaluations that requests
begin on the one system end on the other one whenever they end on the first, alike, then so do the
requests (`Request.run_transfers`), and if each step does, then so do whole sessions
(`Session.reports_transfer`). Which of the two keeps values is left open. -/

namespace RedGreen

variable {p : Program} {t t' : Token}

/-! ## Requests -/

/-- What two systems begin: both answer at once, alike, or whenever the evaluation of the one ends,
    then so does that of the other one, alike. -/
inductive Request.Transfers (p : Program) (request : Request) (t t' : Token)
    (alike : Reply → Reply → Prop) (related : World → World → Prop) (w w' : World) :
    Begun × World → Begun × World → Prop
  | answered {answer answer' : Except QueryError Reply} {w₁ w₁' : World}
    (agree : Agree alike answer answer') (relates : related w₁ w₁')
    (entryLocked : w₁.entryLocked = w.entryLocked)
    (entryLocked' : w₁'.entryLocked = w'.entryLocked) :
    Transfers p request t t' alike related w w' (.answered answer, w₁) (.answered answer', w₁')
  | evaluating {e e' : Evaluation} {w₁ w₁' : World}
    (ends : ∀ result w₂, e.Finishes p t w₁ result w₂ → ∃ result' w₂', e'.Finishes p t' w₁' result' w₂' ∧
      Agree alike (result.map request.replyOf) (result'.map request.replyOf) ∧ related w₂ w₂' ∧
      w₂.entryLocked = w.entryLocked ∧ w₂'.entryLocked = w'.entryLocked) :
    Transfers p request t t' alike related w w' (.evaluating e, w₁) (.evaluating e', w₁')

/-- A request that is answered by the one system is answered by the other one, alike, under large
    enough limits. -/
theorem Request.run_transfers {request : Request} {alike : Reply → Reply → Prop}
    {related : World → World → Prop} {w w' w₁ : World} (hfree : w.entryLocked = false)
    (hfree' : w'.entryLocked = false)
    (halters : ∀ w w' w₁ w₁' : World, related w w' → w.Alters w₁ → w'.Alters w₁' → related w₁ w₁')
    (hbegins : ∀ w₁ w₁' : World, request.access.admission false w = (.admitted, w₁) → w.Alters w₁ →
      w'.Alters w₁' → request.Transfers p t t' alike related w₁ w₁' (request.begin p w₁)
        (request.begin p w₁')) {budget polls : Nat} {answer : Except QueryError Reply}
    (hrun : Task.run p budget polls { request, token := t } w = (.ready answer, w₁)) :
    ∃ bound answer' w₁', (∀ budget polls, bound ≤ budget → bound ≤ polls →
        Task.run p budget polls { request, token := t' } w' = (.ready answer', w₁')) ∧
      Agree alike answer answer' ∧ related w₁ w₁' ∧ w₁.entryLocked = false ∧
      w₁'.entryLocked = false := by
  obtain ⟨polls, rfl⟩ : ∃ n, polls = n + 1 := by
    cases polls with
    | zero => cases hrun
    | succ n => exact ⟨n, rfl⟩
  obtain ⟨w₂, hentry, halters₂, hrelease⟩ := request.access.admission_of_unlocked false hfree
  obtain ⟨w₂', hentry', halters₂', hrelease'⟩ := request.access.admission_of_unlocked false hfree'
  have hbegins := hbegins w₂ w₂' hentry halters₂ halters₂'
  generalize hout : request.begin p w₂ = out at hbegins
  generalize hout' : request.begin p w₂' = out' at hbegins
  cases hbegins with
  | @answered _ answer' w₃ w₃' hagree hrelated hlocked hlocked' =>
    rw [Task.run_of_answered rfl hentry hout] at hrun
    cases hrun
    refine ⟨1, answer', request.access.release w₃', fun budget polls _ hpolls => ?_, hagree,
      halters _ _ _ _ hrelated (request.access.alters_release w₃) (request.access.alters_release w₃'),
      hrelease _ hlocked, hrelease' _ hlocked'⟩
    obtain ⟨polls, rfl⟩ := Nat.exists_eq_add_of_le' hpolls
    exact Task.run_of_answered rfl hentry' hout'
  | @evaluating e e' w₃ w₃' ends =>
    rw [Task.run_of_begin rfl hentry hout] at hrun
    obtain ⟨result, w₄, hfinishes, rfl, rfl⟩ := Task.finishes_of_run hrun
    obtain ⟨result', w₄', ⟨n, hn⟩, hagree, hrelated, hlocked, hlocked'⟩ := ends result w₄ hfinishes
    refine ⟨n + 1, result'.map request.replyOf, request.access.release w₄',
      fun budget polls hbudget hpolls => ?_, hagree,
      halters _ _ _ _ hrelated (request.access.alters_release w₄) (request.access.alters_release w₄'),
      hrelease _ hlocked, hrelease' _ hlocked'⟩
    obtain ⟨polls, rfl⟩ : ∃ k, polls = k + 1 := ⟨polls - 1, by omega⟩
    rw [Task.run_of_begin rfl hentry' hout']
    exact Task.run_of_finishes { request, token := t' } hn (by omega) (by omega)

/-! ## Sessions -/

namespace Session

@[simp] theorem world_tokenFor (s : Session) (name : Option String) :
    (s.tokenFor name).2.world = s.world := by
  unfold tokenFor
  split
  · rfl
  · split <;> rfl

/-- A request that is answered answers the step that makes it. -/
theorem step_of_ready {s : Session} {limits : Limits} {request : Request} {token : Option String}
    {answer : Except QueryError Reply} {w : World}
    (h : Task.run p limits.steps limits.polls { request, token := (s.tokenFor token).1 } s.world =
      (.ready answer, w)) :
    s.step p limits (.perform request token) =
      (.ofResult answer, { (s.tokenFor token).2 with world := w }) := by
  simp only [step, world_tokenFor, h]

theorem ready_of_step {s : Session} {limits : Limits} {request : Request} {token : Option String}
    (h : (s.step p limits (.perform request token)).1 ≠ .pending) :
    ∃ answer w, Task.run p limits.steps limits.polls { request, token := (s.tokenFor token).1 }
      s.world = (.ready answer, w) := by
  simp only [step, world_tokenFor] at h
  generalize Task.run p limits.steps limits.polls _ s.world = out at h ⊢
  obtain ⟨poll, w⟩ := out
  cases poll with
  | ready answer => exact ⟨answer, w, rfl⟩
  | pending woken task => exact absurd rfl h

/-- If each step that is answered by the one session is answered by the other one, alike, then so are
    all of them, under large enough limits. -/
theorem reports_transfer (alike : Answer → Answer → Prop)
    (related : List Step → Session → Session → Prop) {limits : Limits}
    (hstep : ∀ (step : Step) (steps : List Step) (s s' : Session), related (step :: steps) s s' →
      (s.step p limits step).1 ≠ .pending →
      ∃ bound answer' s₁', (∀ limits' : Limits, bound ≤ limits'.steps → bound ≤ limits'.polls →
          s'.step p limits' step = (answer', s₁')) ∧
        alike (s.step p limits step).1 answer' ∧
        ∀ collector, related steps (s.report p limits step).2
          { s₁' with world := { s₁'.world with journal := [] }, collector })
    {steps : List Step} {s s' : Session} (h : related steps s s')
    (hanswered : ∀ report ∈ s.reports p limits steps, report.answer ≠ .pending) :
    ∃ bound, ∀ limits' : Limits, bound ≤ limits'.steps → bound ≤ limits'.polls →
      List.Forall₂ (fun report report' => alike report.answer report'.answer)
        (s.reports p limits steps) (s'.reports p limits' steps) := by
  induction steps generalizing s s' with
  | nil => exact ⟨0, fun _ _ _ => .nil⟩
  | cons step steps ih =>
    obtain ⟨bound, answer', s₁', hanswer, halike, hrelated⟩ :=
      hstep step steps s s' h (hanswered _ List.mem_cons_self)
    obtain ⟨bound', hrest⟩ := ih (hrelated (s₁'.collector.recordAll s₁'.world.journal.events))
      fun report hreport => hanswered report (List.mem_cons_of_mem _ hreport)
    refine ⟨max bound bound', fun limits' hbudget hpolls => ?_⟩
    have hfirst := hanswer limits' (by omega) (by omega)
    refine .cons ?_ ?_
    · show alike (s.step p limits step).1 (s'.step p limits' step).1
      rw [hfirst]
      exact halike
    · have hreport : (s'.report p limits' step).2 =
          { s₁' with
            world := { s₁'.world with journal := [] }
            collector := s₁'.collector.recordAll s₁'.world.journal.events } := by
        simp only [report, hfirst]
      show List.Forall₂ _ _ (Session.reports p limits' (s'.report p limits' step).2 steps)
      rw [hreport]
      exact hrest limits' (by omega) (by omega)

end Session

end RedGreen
