import RedGreen.Program
import RedGreen.World

set_option autoImplicit false

/-! # Evaluations: a request for a derived value in progress

An evaluation is what is left to do of one request for a derived value. Since a computation can
yield, be polled again later, or be dropped half-way, this is a value and not a stack of running
functions: a *control* that says what happens next, and a list of *frames*, innermost first, that
wait for its answer. A frame is either a revalidation that waits for one of the recorded
dependencies, or a running body that waits for a query it called. Every slot on the way from the
request to the control is named by exactly one of these, which is how an evaluation that is dropped
can take its slots off the active stack. -/

namespace RedGreen

/-- A running body: the slot it computes, the revision at which it started, and the slots it has
    read so far, in the order of first reading. -/
structure Activation where
  slot : SlotId
  revision : Revision
  deps : List SlotId := []

/-- A revalidation: the slot, the revision at which it started, the revision up to which the memo
    was valid before, and the recorded dependencies that are still to be brought up to date. -/
structure Walk where
  slot : SlotId
  revision : Revision
  verifiedAt : Revision
  rest : List SlotId

/-- A running body that waits for a query it called. -/
structure Caller where
  activation : Activation
  mode : CallMode
  callee : SlotId
  next : Except QueryError Value → Body

/-- What waits for the answer of a request for a derived value. -/
inductive Frame where
  | touching (walk : Walk) (dep : SlotId)
  | calling (caller : Caller)

/-- The slot in progress that a frame stands for. -/
def Frame.slot : Frame → SlotId
  | .touching walk _ => walk.slot
  | .calling caller => caller.activation.slot

/-- What happens next. -/
inductive Control where
  /-- A derived value is requested. -/
  | fetch (slot : SlotId)
  /-- A revalidation goes on to its next dependency. -/
  | walk (walk : Walk)
  /-- A body is about to start. -/
  | compute (slot : SlotId) (revision : Revision)
  /-- A body runs. -/
  | body (activation : Activation) (body : Body)
  /-- A request is answered, with the value and the revision at which it last changed. -/
  | answer (result : Except QueryError Stamped)

/-- The slot in progress that a control stands for. -/
def Control.slot? : Control → Option SlotId
  | .fetch _ => none
  | .walk w => some w.slot
  | .compute slot _ => some slot
  | .body a _ => some a.slot
  | .answer _ => none

/-- What is left to do of one request for a derived value. -/
structure Evaluation where
  control : Control
  /-- Innermost first. -/
  frames : List Frame := []

namespace Evaluation

/-- The evaluation of a request that has not begun. -/
def request (slot : SlotId) : Evaluation := { control := .fetch slot }

/-- The slots that the evaluation holds on the active stack, innermost first. -/
def held (e : Evaluation) : List SlotId := e.control.slot?.toList ++ e.frames.map Frame.slot

/-- Drops an evaluation: its slots leave the active stack, the innermost first. -/
def abandon (e : Evaluation) (w : World) : World := w.leaveAll e.held

end Evaluation

/-- Splits frames at the innermost caller that does not wait: the frames inside it, that caller, and
    the frames outside it. -/
def splitAtImmediate : List Frame → Option (List Frame × Caller × List Frame)
  | [] => none
  | frame :: frames =>
    match frame with
    | .calling { activation, mode := .immediate, callee, next } =>
      some ([], { activation, mode := .immediate, callee, next }, frames)
    | frame =>
      (splitAtImmediate frames).map fun (inside, caller, outside) =>
        (frame :: inside, caller, outside)

/-- Splitting loses no frame, and the caller found does not wait. -/
theorem eq_append_of_splitAtImmediate {frames inside outside : List Frame} {caller : Caller}
    (h : splitAtImmediate frames = some (inside, caller, outside)) :
    frames = inside ++ .calling caller :: outside ∧ caller.mode = .immediate := by
  induction frames generalizing inside with
  | nil => simp [splitAtImmediate] at h
  | cons frame frames ih =>
    unfold splitAtImmediate at h
    split at h
    · simp only [Option.some.injEq, Prod.mk.injEq] at h
      obtain ⟨rfl, rfl, rfl⟩ := h
      exact ⟨rfl, rfl⟩
    · obtain ⟨⟨tail, inner, rest⟩, hsplit, heq⟩ := Option.map_eq_some_iff.1 h
      simp only [Prod.mk.injEq] at heq
      obtain ⟨rfl, rfl, rfl⟩ := heq
      obtain ⟨rfl, himmediate⟩ := ih hsplit
      exact ⟨rfl, himmediate⟩

end RedGreen
