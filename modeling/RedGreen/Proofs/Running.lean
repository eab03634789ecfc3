import RedGreen.Task

set_option autoImplicit false

/-! # Runs, polls and what they come to

An evaluation that is driven finishes, or it does not. `Reaches` and `Finishes` say where driving
leads, without a budget. A task that is polled takes the same steps in the same order, split by its
parkings, so it is answered under large enough limits exactly if driving its evaluation finishes
(`run_of_finishes`, `finishes_of_run`). -/

namespace RedGreen

namespace Evaluation

variable {p : Program} {t : Token}

/-- Driving an evaluation for a while leads to another point of it. -/
def Reaches (p : Program) (t : Token) (e : Evaluation) (w : World) (e' : Evaluation) (w' : World) :
    Prop :=
  ∃ n, e.drive p t n w = .running e' w'

/-- Driving an evaluation leads to its end. -/
def Finishes (p : Program) (t : Token) (e : Evaluation) (w : World)
    (result : Except QueryError Stamped) (w' : World) : Prop :=
  ∃ n, e.drive p t n w = .finished result w'

/-- Only an answer that nobody waits for is the end. -/
theorem eq_answer_of_finished {e : Evaluation} {w w' : World} {result : Except QueryError Stamped}
    (h : e.step p t w = .finished result w') : e = ⟨.answer result, []⟩ ∧ w' = w := by
  obtain ⟨control, frames⟩ := e
  unfold step at h
  split at h
  · cases h
  · unfold stepWalk at h
    split at h
    · cases h
    · split at h <;> cases h
  · cases h
  · rename_i a body hcontrol
    cases body with
    | done r => cases h
    | perform op next => cases h
    | call mode label key next =>
      simp only [stepBody, stepCall] at h
      split at h <;> cases h
    | yield next =>
      simp only [stepBody, stepYield] at h
      split at h <;> cases h
  · rename_i result₁ hcontrol
    obtain rfl : control = .answer result₁ := hcontrol
    cases frames with
    | nil =>
      cases h
      exact ⟨rfl, rfl⟩
    | cons frame frames =>
      cases frame with
      | touching walk dep => cases result₁ <;> cases h
      | calling caller => cases h

/-! ## Driving -/

theorem drive_add_of_running {m : Nat} {e e' : Evaluation} {w w' : World}
    (h : e.drive p t m w = .running e' w') (n : Nat) :
    e.drive p t (m + n) w = e'.drive p t n w' := by
  rw [drive_add, h]

theorem drive_add_of_finished {m : Nat} {e : Evaluation} {w w' : World}
    {result : Except QueryError Stamped} (h : e.drive p t m w = .finished result w') (n : Nat) :
    e.drive p t (m + n) w = .finished result w' := by
  rw [drive_add, h]

theorem drive_succ_of_running {n : Nat} {e e' : Evaluation} {w w' : World}
    (h : e.step p t w = .running e' w') : e.drive p t (n + 1) w = e'.drive p t n w' := by
  rw [drive, h]

theorem drive_succ_of_parked {n : Nat} {e e' : Evaluation} {w w' : World}
    (h : e.step p t w = .parked e' w') : e.drive p t (n + 1) w = e'.drive p t n w' := by
  rw [drive, h]

/-- A point on the way to the end is followed by the rest of the way. -/
theorem drive_of_finished_of_running {m n : Nat} {e e' : Evaluation} {w w' w'' : World}
    {result : Except QueryError Stamped} (h : e.drive p t n w = .finished result w'')
    (h' : e.drive p t m w = .running e' w') :
    ∃ k, n = m + k ∧ e'.drive p t k w' = .finished result w'' := by
  rcases Nat.le_total m n with hle | hle
  · obtain ⟨k, rfl⟩ := Nat.exists_eq_add_of_le hle
    exact ⟨k, rfl, by rw [← drive_add_of_running h', h]⟩
  · obtain ⟨k, rfl⟩ := Nat.exists_eq_add_of_le hle
    rw [drive_add_of_finished h] at h'
    cases h'

theorem Reaches.refl (e : Evaluation) (w : World) : Reaches p t e w e w := ⟨0, rfl⟩

theorem Reaches.trans {e e' e'' : Evaluation} {w w' w'' : World} (h : Reaches p t e w e' w')
    (h' : Reaches p t e' w' e'' w'') : Reaches p t e w e'' w'' := by
  obtain ⟨m, hm⟩ := h
  obtain ⟨n, hn⟩ := h'
  exact ⟨m + n, by rw [drive_add_of_running hm, hn]⟩

theorem Reaches.of_step {e e' : Evaluation} {w w' : World} (h : e.step p t w = .running e' w') :
    Reaches p t e w e' w' := ⟨1, drive_succ_of_running h⟩

theorem Reaches.of_parked {e e' : Evaluation} {w w' : World} (h : e.step p t w = .parked e' w') :
    Reaches p t e w e' w' := ⟨1, drive_succ_of_parked h⟩

/-- One more step in front. -/
theorem Reaches.head {e e' e'' : Evaluation} {w w' w'' : World}
    (h : e.step p t w = .running e' w') (h' : Reaches p t e' w' e'' w'') :
    Reaches p t e w e'' w'' := (Reaches.of_step h).trans h'

theorem Reaches.finishes {e e' : Evaluation} {w w' w'' : World}
    {result : Except QueryError Stamped} (h : Reaches p t e w e' w')
    (h' : Finishes p t e' w' result w'') : Finishes p t e w result w'' := by
  obtain ⟨m, hm⟩ := h
  obtain ⟨n, hn⟩ := h'
  exact ⟨m + n, by rw [drive_add_of_running hm, hn]⟩

theorem Finishes.of_answer (result : Except QueryError Stamped) (w : World) :
    Finishes p t ⟨.answer result, []⟩ w result w := ⟨1, rfl⟩

theorem Finishes.unique {e : Evaluation} {w w₁ w₂ : World}
    {result₁ result₂ : Except QueryError Stamped} (h₁ : Finishes p t e w result₁ w₁)
    (h₂ : Finishes p t e w result₂ w₂) : result₁ = result₂ ∧ w₁ = w₂ := by
  obtain ⟨m, hm⟩ := h₁
  obtain ⟨n, hn⟩ := h₂
  have hm' := drive_add_of_finished hm n
  rw [Nat.add_comm, drive_add_of_finished hn m] at hm'
  cases hm'
  exact ⟨rfl, rfl⟩

/-- The last point of the way to the end is an answer that nobody waits for. -/
theorem Finishes.reaches {e : Evaluation} {w w' : World} {result : Except QueryError Stamped}
    (h : Finishes p t e w result w') : Reaches p t e w ⟨.answer result, []⟩ w' := by
  obtain ⟨n, hn⟩ := h
  induction n generalizing e w with
  | zero => cases hn
  | succ n ih =>
    rw [drive] at hn
    cases hstep : e.step p t w with
    | running e₁ w₁ =>
      rw [hstep] at hn
      exact .head hstep (ih hn)
    | parked e₁ w₁ =>
      rw [hstep] at hn
      exact (Reaches.of_parked hstep).trans (ih hn)
    | finished result₁ w₁ =>
      rw [hstep] at hn
      cases hn
      obtain ⟨rfl, rfl⟩ := eq_answer_of_finished hstep
      exact .refl _ _

/-! ## Driving with parkings -/

/-- Advancing is driving up to the first parking. -/
theorem advance_of_finished {n budget : Nat} {e : Evaluation} {w w' : World}
    {result : Except QueryError Stamped} (hle : n ≤ budget)
    (h : e.drive p t n w = .finished result w') :
    e.advance p t budget w = .finished result w' ∨
      ∃ e₁ w₁ k, k < n ∧ e.advance p t budget w = .parked e₁ w₁ ∧
        e₁.drive p t k w₁ = .finished result w' := by
  induction n generalizing e w budget with
  | zero => cases h
  | succ n ih =>
    obtain ⟨budget, rfl⟩ := Nat.exists_eq_add_of_le' hle
    rw [← Nat.add_assoc, advance]
    rw [drive] at h
    split at h
    · rename_i e₁ w₁ hstep
      rcases ih (Nat.le_add_left n budget) h with hdone | ⟨e₂, w₂, k, hk, hpark, hrest⟩
      · exact .inl (by rw [hstep]; exact hdone)
      · exact .inr ⟨e₂, w₂, k, by omega, by rw [hstep]; exact hpark, hrest⟩
    · rename_i e₁ w₁ hstep
      exact .inr ⟨e₁, w₁, n, by omega, by rw [hstep], h⟩
    · rename_i result' w₁ hstep
      cases h
      exact .inl (by rw [hstep])

/-- A point that driving leads to is either passed by advancing, or it comes after the first
    parking. -/
theorem advance_of_running {n : Nat} {e e' : Evaluation} {w w' : World}
    (h : e.drive p t n w = .running e' w') (k : Nat) :
    e.advance p t (n + k) w = e'.advance p t k w' ∨
      ∃ e₁ w₁ m, m < n ∧ e.advance p t (n + k) w = .parked e₁ w₁ ∧
        e₁.drive p t m w₁ = .running e' w' := by
  induction n generalizing e w with
  | zero =>
    cases h
    exact .inl (by rw [Nat.zero_add])
  | succ n ih =>
    rw [Nat.add_right_comm, advance]
    rw [drive] at h
    split at h
    · rename_i e₁ w₁ hstep
      rw [hstep]
      rcases ih h with hpass | ⟨e₂, w₂, m, hm, hpark, hrest⟩
      · exact .inl hpass
      · exact .inr ⟨e₂, w₂, m, by omega, hpark, hrest⟩
    · rename_i e₁ w₁ hstep
      exact .inr ⟨e₁, w₁, n, by omega, by rw [hstep], h⟩
    · cases h

theorem drive_ne_parked (n : Nat) (e : Evaluation) (w : World) {e' : Evaluation} {w' : World} :
    e.drive p t n w ≠ .parked e' w' := by
  induction n generalizing e w with
  | zero => exact nofun
  | succ n ih =>
    rw [drive]
    cases e.step p t w with
    | running e₁ w₁ => exact ih e₁ w₁
    | parked e₁ w₁ => exact ih e₁ w₁
    | finished result w₁ =>
      intro h
      cases h

/-- Where nothing is parked, driving is advancing. -/
theorem drive_eq_advance {n : Nat} {e : Evaluation} {w : World}
    (h : ∀ e' w', e.advance p t n w ≠ .parked e' w') : e.drive p t n w = e.advance p t n w := by
  induction n generalizing e w with
  | zero => rfl
  | succ n ih =>
    rw [advance] at h
    rw [drive, advance]
    cases hstep : e.step p t w with
    | running e₁ w₁ =>
      rw [hstep] at h
      exact ih h
    | parked e₁ w₁ =>
      rw [hstep] at h
      exact absurd rfl (h e₁ w₁)
    | finished result w₁ => rfl

/-- Where advancing leads to, driving leads to. -/
theorem drive_of_advance (budget : Nat) (e : Evaluation) (w : World) :
    (∀ result w', e.advance p t budget w = .finished result w' → Finishes p t e w result w') ∧
    (∀ e' w', e.advance p t budget w = .parked e' w' → Reaches p t e w e' w') ∧
    ∀ e' w', e.advance p t budget w = .running e' w' → Reaches p t e w e' w' := by
  induction budget generalizing e w with
  | zero =>
    refine ⟨nofun, nofun, ?_⟩
    intro e' w' h
    cases h
    exact .refl e w
  | succ budget ih =>
    rw [advance]
    cases hstep : e.step p t w with
    | running e₁ w₁ =>
      have hreach : Reaches p t e w e₁ w₁ := .of_step hstep
      obtain ⟨hfinished, hparked, hrunning⟩ := ih e₁ w₁
      exact ⟨fun r w' h => hreach.finishes (hfinished r w' h),
        fun e' w' h => hreach.trans (hparked e' w' h),
        fun e' w' h => hreach.trans (hrunning e' w' h)⟩
    | parked e₁ w₁ =>
      refine ⟨fun _ _ h => (by cases h), ?_, fun _ _ h => (by cases h)⟩
      intro e' w' h
      cases h
      exact .of_parked hstep
    | finished result w₁ =>
      refine ⟨?_, fun _ _ h => (by cases h), fun _ _ h => (by cases h)⟩
      intro r w' h
      cases h
      exact ⟨1, by rw [drive, hstep]⟩

end Evaluation

/-! ## Tasks -/

namespace Task

open Evaluation

variable {p : Program}

/-- Under large enough limits, a task whose evaluation finishes is answered. -/
theorem run_of_finishes (task : Task) {n budget polls : Nat} {e : Evaluation} {w w' : World}
    {result : Except QueryError Stamped} (h : e.drive p task.token n w = .finished result w')
    (hbudget : n ≤ budget) (hpolls : n < polls) :
    run p budget polls { task with suspended := some e } w =
      (.ready (result.map task.request.replyOf), task.request.access.release w') := by
  induction n using Nat.strongRecOn generalizing e w polls with
  | _ n ih =>
    obtain ⟨polls, rfl⟩ : ∃ k, polls = k + 1 := ⟨polls - 1, by omega⟩
    rw [run]
    simp only [poll, resume]
    cases haccess : task.request.access with
    | blocking =>
      obtain ⟨k, rfl⟩ := Nat.exists_eq_add_of_le hbudget
      simp only [drive_add_of_finished h k, settle, haccess]
    | free | waiting =>
      rcases advance_of_finished hbudget h with hdone | ⟨e₁, w₁, k, hk, hpark, hrest⟩
      · simp only [hdone, settle, haccess]
      · simp only [hpark, settle]
        rw [ih k hk hrest (by omega) (by omega), haccess]

/-- A task that is answered has finished its evaluation. -/
theorem finishes_of_run {budget polls : Nat} {task : Task} {e : Evaluation} {w w' : World}
    {answer : Except QueryError Reply}
    (h : run p budget polls { task with suspended := some e } w = (.ready answer, w')) :
    ∃ result w₁, Finishes p task.token e w result w₁ ∧ answer = result.map task.request.replyOf ∧
      w' = task.request.access.release w₁ := by
  induction polls generalizing e w with
  | zero => cases h
  | succ polls ih =>
    -- a poll that does not answer leaves the task at a point that driving reaches
    have hnext (e₁ : Evaluation) (w₁ : World) (hreach : Reaches p task.token e w e₁ w₁)
        (hrest : run p budget polls { task with suspended := some e₁ } w₁ = (.ready answer, w')) :
        ∃ result w₂, Finishes p task.token e w result w₂ ∧
          answer = result.map task.request.replyOf ∧ w' = task.request.access.release w₂ := by
      obtain ⟨result, w₂, hfinishes, hanswer, hw⟩ := ih hrest
      exact ⟨result, w₂, hreach.finishes hfinishes, hanswer, hw⟩
    rw [run] at h
    simp only [poll, resume] at h
    cases haccess : task.request.access with
    | blocking =>
      simp only [haccess] at h
      cases hdrive : e.drive p task.token budget w with
      | running e₁ w₁ =>
        simp only [hdrive, settle] at h
        rw [← haccess]
        exact hnext e₁ w₁ ⟨budget, hdrive⟩ h
      | parked e₁ w₁ =>
        -- driving never parks
        exact absurd hdrive (drive_ne_parked budget e w)
      | finished result w₁ =>
        simp only [hdrive, settle, haccess] at h
        cases h
        exact ⟨result, w₁, ⟨budget, hdrive⟩, rfl, rfl⟩
    | free | waiting =>
      simp only [haccess] at h
      obtain ⟨hfinished, hparked, hrunning⟩ :=
        drive_of_advance budget e w (p := p) (t := task.token)
      cases hadvance : e.advance p task.token budget w with
      | running e₁ w₁ =>
        simp only [hadvance, settle] at h
        rw [← haccess]
        exact hnext e₁ w₁ (hrunning e₁ w₁ hadvance) h
      | parked e₁ w₁ =>
        simp only [hadvance, settle] at h
        rw [← haccess]
        exact hnext e₁ w₁ (hparked e₁ w₁ hadvance) h
      | finished result w₁ =>
        simp only [hadvance, settle, haccess] at h
        cases h
        exact ⟨result, w₁, hfinished result w₁ hadvance, rfl, rfl⟩

/-- A task that is admitted goes on with the evaluation that its request begins. -/
theorem run_of_begin {budget polls : Nat} {task : Task} {e : Evaluation} {w w₁ w₂ : World}
    (hfresh : task.suspended = none)
    (hentry : task.request.access.admission task.queued w = (.admitted, w₁))
    (hbegin : task.request.begin p w₁ = (.evaluating e, w₂)) :
    run p budget (polls + 1) task w = run p budget (polls + 1) { task with suspended := some e } w₂ := by
  rw [run, run]
  simp only [poll, hfresh, hentry, hbegin]
  rfl

/-- A task whose request is answered at once is done. -/
theorem run_of_answered {budget polls : Nat} {task : Task} {answer : Except QueryError Reply}
    {w w₁ w₂ : World} (hfresh : task.suspended = none)
    (hentry : task.request.access.admission task.queued w = (.admitted, w₁))
    (hbegin : task.request.begin p w₁ = (.answered answer, w₂)) :
    run p budget (polls + 1) task w = (.ready answer, task.request.access.release w₂) := by
  rw [run]
  simp only [poll, hfresh, hentry, hbegin]

end Task

end RedGreen
