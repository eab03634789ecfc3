import RedGreen.Evaluation.Step

set_option autoImplicit false

/-! # Running an evaluation

A body may call queries without end, so a run is given a budget of steps. A run whose budget is used
up is still running: it can be taken up again where it stands, and a larger budget only goes
further (`advance_add`). -/

namespace RedGreen.Evaluation

/-- Takes steps until the evaluation is parked or finished, or the budget is used up. -/
def advance (p : Program) (t : Token) : Nat → Evaluation → World → Progress
  | 0, e, w => .running e w
  | budget + 1, e, w =>
    match step p t e w with
    | .running e w => advance p t budget e w
    | progress => progress

/-- Takes steps until the evaluation is finished, going on whenever it is parked. -/
def drive (p : Program) (t : Token) : Nat → Evaluation → World → Progress
  | 0, e, w => .running e w
  | budget + 1, e, w =>
    match step p t e w with
    | .running e w => drive p t budget e w
    | .parked e w => drive p t budget e w
    | .finished result w => .finished result w

/-- Two budgets one after the other are their sum. -/
theorem advance_add (p : Program) (t : Token) (m n : Nat) (e : Evaluation) (w : World) :
    advance p t (m + n) e w =
      match advance p t m e w with
      | .running e w => advance p t n e w
      | progress => progress := by
  induction m generalizing e w with
  | zero => simp [advance]
  | succ m ih =>
    rw [Nat.succ_add]
    simp only [advance]
    cases step p t e w with
    | running e w => exact ih e w
    | parked e w => rfl
    | finished result w => rfl

/-- Two budgets one after the other are their sum. -/
theorem drive_add (p : Program) (t : Token) (m n : Nat) (e : Evaluation) (w : World) :
    drive p t (m + n) e w =
      match drive p t m e w with
      | .running e w => drive p t n e w
      | progress => progress := by
  induction m generalizing e w with
  | zero => simp [drive]
  | succ m ih =>
    rw [Nat.succ_add]
    simp only [drive]
    cases step p t e w with
    | running e w => exact ih e w
    | parked e w => exact ih e w
    | finished result w => rfl

end RedGreen.Evaluation
