import RedGreen.Proofs.Running
import RedGreen.Proofs.Steps

set_option autoImplicit false

/-! # What waits around an evaluation

An evaluation runs in the same way whatever frames wait around it, until it is answered or parks:
only then does a frame further out come into play. So a nested request can be looked at on its own
(`RunsTo.inside`). Around it, the answer goes to the innermost frame; and where the nested request
would be parked, the innermost caller that does not wait drops it. -/

namespace RedGreen.Evaluation

variable {p : Program} {t : Token} {e e' e'' : Evaluation} {w w' w'' : World}

/-- The evaluation with more frames around it. -/
def inside (e : Evaluation) (outer : List Frame) : Evaluation := ⟨e.control, e.frames ++ outer⟩

/-! ## Frames -/

theorem splitAtImmediate_append_some {frames inside outside : List Frame} {caller : Caller}
    (h : splitAtImmediate frames = some (inside, caller, outside)) (outer : List Frame) :
    splitAtImmediate (frames ++ outer) = some (inside, caller, outside ++ outer) := by
  induction frames generalizing inside with
  | nil => cases h
  | cons frame frames ih =>
    unfold splitAtImmediate at h
    split at h
    · cases h
      rfl
    · rename_i hframe
      obtain ⟨⟨tail, found, rest⟩, hsplit, heq⟩ := Option.map_eq_some_iff.1 h
      cases heq
      rw [List.cons_append, splitAtImmediate]
      · rw [ih hsplit]
        rfl
      · exact hframe

theorem splitAtImmediate_append_none {frames : List Frame} (h : splitAtImmediate frames = none)
    (outer : List Frame) : splitAtImmediate (frames ++ outer) =
      (splitAtImmediate outer).map fun (inside, caller, outside) =>
        (frames ++ inside, caller, outside) := by
  induction frames with
  | nil =>
    rw [List.nil_append]
    cases splitAtImmediate outer <;> rfl
  | cons frame frames ih =>
    unfold splitAtImmediate at h
    split at h
    · cases h
    · rename_i hframe
      rw [List.cons_append, splitAtImmediate]
      · rw [ih (Option.map_eq_none_iff.1 h), Option.map_map]
        rfl
      · exact hframe

/-! ## Steps -/

theorem resume_inside {frames : List Frame} {out : Control × World}
    (h : resume frames out = .running e' w') (outer : List Frame) :
    resume (frames ++ outer) out = .running (e'.inside outer) w' := by
  cases h
  rfl

/-- A step does not look at the frames further out, unless it parks or there are no others. -/
theorem step_inside (h : e.step p t w = .running e' w') (outer : List Frame) :
    (e.inside outer).step p t w = .running (e'.inside outer) w' := by
  obtain ⟨control, frames⟩ := e
  cases control with
  | fetch i => exact resume_inside h outer
  | compute i r => exact resume_inside h outer
  | walk walk =>
    replace h : stepWalk t walk frames w = .running e' w' := h
    show stepWalk t walk (frames ++ outer) w = _
    unfold stepWalk at h ⊢
    split at h
    · exact resume_inside h outer
    · simp only at h ⊢
      split at h
      · cases h
        rw [if_pos ‹_›]
        rfl
      · rw [if_neg ‹_›]
        exact resume_inside h outer
  | body a body =>
    replace h : stepBody p t a body frames w = .running e' w' := h
    show stepBody p t a body (frames ++ outer) w = _
    cases body with
    | done result => exact resume_inside h outer
    | perform op next =>
      cases h
      rfl
    | call mode label key next =>
      simp only [stepBody, stepCall] at h ⊢
      split at h <;> cases h <;> rfl
    | yield next =>
      simp only [stepBody, stepYield] at h ⊢
      split at h
      · cases h
      · rw [splitAtImmediate_append_some ‹_› outer]
        cases h
        rfl
  | answer r =>
    cases frames with
    | nil => cases h
    | cons frame frames =>
      cases frame with
      | calling caller =>
        cases h
        rfl
      | touching walk dep => cases r <;> exact resume_inside h outer

/-- Only a body that yields is parked, and only if all callers around it wait. -/
theorem eq_yield_of_parked (h : e.step p t w = .parked e' w') :
    ∃ a next frames, e = ⟨.body a (.yield next), frames⟩ ∧ e' = ⟨.body a next, frames⟩ ∧ w' = w ∧
      splitAtImmediate frames = none := by
  obtain ⟨control, frames⟩ := e
  cases control with
  | fetch | compute => cases h
  | walk walk =>
    replace h : stepWalk t walk frames w = .parked e' w' := h
    unfold stepWalk at h
    split at h
    · cases h
    · simp only at h
      split at h <;> cases h
  | body a body =>
    replace h : stepBody p t a body frames w = .parked e' w' := h
    cases body with
    | done | perform => cases h
    | call mode label key next =>
      simp only [stepBody, stepCall] at h
      split at h <;> cases h
    | yield next =>
      simp only [stepBody, stepYield] at h
      split at h
      · cases h
        exact ⟨a, next, frames, rfl, rfl, rfl, ‹_›⟩
      · cases h
  | answer r =>
    cases frames with
    | nil => cases h
    | cons frame frames =>
      cases frame with
      | calling caller => cases h
      | touching walk dep => cases r <;> cases h

/-! ## Runs that are not parked -/

/-- Steps that do not park lead to another point of an evaluation. -/
def RunsTo (p : Program) (t : Token) (e : Evaluation) (w : World) (e' : Evaluation) (w' : World) :
    Prop :=
  ∃ n, e.advance p t n w = .running e' w'

/-- An evaluation comes to its end without being parked. -/
def Completes (p : Program) (t : Token) (e : Evaluation) (w : World)
    (result : Except QueryError Stamped) (w' : World) : Prop :=
  ∃ n, e.advance p t n w = .finished result w'

/-- An evaluation comes to a point where it is parked. -/
def Parks (p : Program) (t : Token) (e : Evaluation) (w : World) (e' : Evaluation) (w' : World) :
    Prop :=
  ∃ n, e.advance p t n w = .parked e' w'

theorem RunsTo.refl (e : Evaluation) (w : World) : RunsTo p t e w e w := ⟨0, rfl⟩

theorem RunsTo.of_step (h : e.step p t w = .running e' w') : RunsTo p t e w e' w' :=
  ⟨1, by rw [advance, h]; rfl⟩

theorem RunsTo.trans (h : RunsTo p t e w e' w') (h' : RunsTo p t e' w' e'' w'') :
    RunsTo p t e w e'' w'' := by
  obtain ⟨m, hm⟩ := h
  obtain ⟨n, hn⟩ := h'
  exact ⟨m + n, by rw [advance_add, hm]; exact hn⟩

theorem RunsTo.parks (h : RunsTo p t e w e' w') (h' : Parks p t e' w' e'' w'') :
    Parks p t e w e'' w'' := by
  obtain ⟨m, hm⟩ := h
  obtain ⟨n, hn⟩ := h'
  exact ⟨m + n, by rw [advance_add, hm]; exact hn⟩

theorem RunsTo.reaches (h : RunsTo p t e w e' w') : Reaches p t e w e' w' := by
  obtain ⟨n, hn⟩ := h
  exact (drive_of_advance n e w).2.2 e' w' hn

theorem Parks.reaches (h : Parks p t e w e' w') : Reaches p t e w e' w' := by
  obtain ⟨n, hn⟩ := h
  exact (drive_of_advance n e w).2.1 e' w' hn

theorem advance_inside {n : Nat} (h : e.advance p t n w = .running e' w') (outer : List Frame) :
    (e.inside outer).advance p t n w = .running (e'.inside outer) w' := by
  induction n generalizing e w with
  | zero =>
    cases h
    rfl
  | succ n ih =>
    rw [advance] at h ⊢
    cases hstep : e.step p t w with
    | running e₁ w₁ =>
      rw [hstep] at h
      rw [step_inside hstep outer]
      exact ih h
    | parked e₁ w₁ =>
      rw [hstep] at h
      cases h
    | finished r w₁ =>
      rw [hstep] at h
      cases h

/-- So a run does not depend on the frames around it. -/
theorem RunsTo.inside (h : RunsTo p t e w e' w') (outer : List Frame) :
    RunsTo p t (e.inside outer) w (e'.inside outer) w' := by
  obtain ⟨n, hn⟩ := h
  exact ⟨n, advance_inside hn outer⟩

/-- The last point of a run that comes to its end is an answer that nobody waits for. -/
theorem Completes.runsTo {result : Except QueryError Stamped} (h : Completes p t e w result w') :
    RunsTo p t e w ⟨.answer result, []⟩ w' := by
  obtain ⟨n, hn⟩ := h
  induction n generalizing e w with
  | zero => cases hn
  | succ n ih =>
    rw [advance] at hn
    cases hstep : e.step p t w with
    | running e₁ w₁ =>
      rw [hstep] at hn
      exact (RunsTo.of_step hstep).trans (ih hn)
    | parked e₁ w₁ =>
      rw [hstep] at hn
      cases hn
    | finished r w₁ =>
      rw [hstep] at hn
      cases hn
      obtain ⟨rfl, rfl⟩ := eq_answer_of_finished hstep
      exact .refl _ _

/-- The last point of a run that is parked is a body that yields. -/
theorem Parks.runsTo (h : Parks p t e w e' w') :
    ∃ a next frames, e' = ⟨.body a next, frames⟩ ∧ splitAtImmediate frames = none ∧
      RunsTo p t e w ⟨.body a (.yield next), frames⟩ w' := by
  obtain ⟨n, hn⟩ := h
  induction n generalizing e w with
  | zero => cases hn
  | succ n ih =>
    rw [advance] at hn
    cases hstep : e.step p t w with
    | running e₁ w₁ =>
      rw [hstep] at hn
      obtain ⟨a, next, frames, rfl, hwait, hruns⟩ := ih hn
      exact ⟨a, next, frames, rfl, hwait, (RunsTo.of_step hstep).trans hruns⟩
    | parked e₁ w₁ =>
      rw [hstep] at hn
      cases hn
      obtain ⟨a, next, frames, rfl, rfl, rfl, hwait⟩ := eq_yield_of_parked hstep
      exact ⟨a, next, frames, rfl, hwait, .refl _ _⟩
    | finished r w₁ =>
      rw [hstep] at hn
      cases hn

/-- An evaluation that can be driven to its end comes to its end, or is parked before. -/
theorem Finishes.completes_or_parks {result : Except QueryError Stamped}
    (h : Finishes p t e w result w') :
    Completes p t e w result w' ∨ ∃ e₁ w₁, Parks p t e w e₁ w₁ := by
  obtain ⟨n, hn⟩ := h
  rcases advance_of_finished (Nat.le_refl n) hn with hdone | ⟨e₁, w₁, -, -, hpark, -⟩
  · exact .inl ⟨n, hdone⟩
  · exact .inr ⟨e₁, w₁, n, hpark⟩

/-! ## The innermost caller -/

/-- What a caller is told of an answer: the value only if the request has not been cancelled
    meanwhile. -/
def told (t : Token) (w : World) (result : Except QueryError Stamped) : Except QueryError Value :=
  match result with
  | .error e => .error e
  | .ok stamped => (w.check t).map fun _ => stamped.value

/-- A request that comes to its end is answered to its caller, whether this one waits or not. -/
theorem Completes.returns {result : Except QueryError Stamped} (h : Completes p t e w result w')
    (caller : Caller) (frames : List Frame) :
    RunsTo p t (e.inside (.calling caller :: frames)) w
      ⟨.body caller.activation (caller.next (told t w' result)), frames⟩ w' :=
  (h.runsTo.inside _).trans (.of_step rfl)

/-- A request that would be parked is given up by a caller that does not wait, together with all that
    it has in progress. -/
theorem Parks.refused (h : Parks p t e w e' w') (a : Activation) (callee : SlotId)
    (next : Except QueryError Value → Body) (frames : List Frame) :
    RunsTo p t (e.inside (.calling ⟨a, .immediate, callee, next⟩ :: frames)) w
      ⟨.body a (next (.error (.suspended ((e'.abandon w').info callee).text))), frames⟩
      (e'.abandon w') := by
  obtain ⟨a', next', inner, rfl, hwait, hruns⟩ := h.runsTo
  have hsplit : splitAtImmediate (inner ++ .calling ⟨a, .immediate, callee, next⟩ :: frames) =
      some (inner, ⟨a, .immediate, callee, next⟩, frames) := by
    rw [splitAtImmediate_append_none hwait, splitAtImmediate]
    simp
  refine (hruns.inside _).trans (.of_step ?_)
  show stepYield a' next' (inner ++ .calling ⟨a, .immediate, callee, next⟩ :: frames) w' = _
  rw [stepYield, hsplit]
  rfl

/-- A request is parked together with its caller, if that one and all callers further out wait. -/
theorem Parks.inside (h : Parks p t e w e' w') {outer : List Frame}
    (hwaits : splitAtImmediate outer = none) :
    Parks p t (e.inside outer) w (e'.inside outer) w' := by
  obtain ⟨a, next, inner, rfl, hwait, hruns⟩ := h.runsTo
  refine (hruns.inside _).parks ⟨1, ?_⟩
  have hstep : (⟨.body a (.yield next), inner ++ outer⟩ : Evaluation).step p t w' =
      .parked ⟨.body a next, inner ++ outer⟩ w' := by
    show stepYield a next (inner ++ outer) w' = _
    rw [stepYield, splitAtImmediate_append_none hwait, hwaits]
    rfl
  show advance p t 1 ⟨.body a (.yield next), inner ++ outer⟩ w' = _
  rw [advance, hstep]
  rfl

end RedGreen.Evaluation
