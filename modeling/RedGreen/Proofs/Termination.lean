import RedGreen.Proofs.Turns

set_option autoImplicit false

/-! # Evaluations of bounded depth come to an end

An evaluation takes only finitely many steps as long as a bounded number of frames wait at a time
(`wellFounded_stepsWithin`). This holds whatever the program is and whatever happens to the world
between the steps: memos may be dropped and made, and dependencies recorded that form cycles.

No number of steps can be told in advance, since a body may go on in infinitely many ways, so the proof
is by induction along the evaluation. Frames that wait can only be left by an answer, or to a caller
further out that gives up (`Exits`). Where both come to an end, so does what runs inside: a body by
induction on the body, a revalidation on what is left to look at, and what either of them asks for, one
frame deeper, on the number of frames that there is room for. -/

namespace RedGreen.Evaluation

variable {p : Program} {t : Token} {depth : Nat} {frames : List Frame}

/-- A step, in whatever world, to an evaluation with at most a number of frames. -/
def StepsWithin (p : Program) (t : Token) (depth : Nat) (e' e : Evaluation) : Prop :=
  e'.frames.length ≤ depth ∧ ∃ w w', e.Next p t w e' w'

/-- The ways out of frames come to an end. -/
structure Exits (p : Program) (t : Token) (depth : Nat) (frames : List Frame) : Prop where
  answers : ∀ r, Acc (StepsWithin p t depth) ⟨.answer r, frames⟩
  outer : ∀ inside caller outside reply, frames = inside ++ .calling caller :: outside →
    Acc (StepsWithin p t depth) ⟨.body caller.activation (caller.next reply), outside⟩

/-- What runs inside one more frame comes to an end, if there is room for the frame and the ways out
    of it come to an end. -/
def Deepens (p : Program) (t : Token) (depth : Nat) (frames : List Frame) : Prop :=
  ∀ frame, frames.length < depth → Exits p t depth (frame :: frames) →
    ∀ c, Acc (StepsWithin p t depth) ⟨c, frame :: frames⟩

theorem acc_of_turns {e : Evaluation}
    (h : ∀ e' w w', e'.frames.length ≤ depth → Turns p e w e' w' → Acc (StepsWithin p t depth) e') :
    Acc (StepsWithin p t depth) e :=
  .intro e fun e' ⟨hframes, w, w', hnext⟩ => h e' w w' hframes hnext.turns

/-! ## Bodies -/

/-- The ways out of a call lead back to the rest of the body, or further out. -/
theorem Exits.calling (h : Exits p t depth frames) {next : Except QueryError Value → Body}
    (hnext : ∀ reply a, Acc (StepsWithin p t depth) ⟨.body a (next reply), frames⟩) (a : Activation)
    (mode : CallMode) (callee : SlotId) :
    Exits p t depth (.calling ⟨a, mode, callee, next⟩ :: frames) where
  answers r := by
    refine acc_of_turns fun e' w w' hframes hturns => ?_
    cases hturns with
    | answers unanswered => exact absurd rfl (unanswered r)
    | returns reply => exact hnext reply a
  outer inside caller outside reply heq := by
    cases inside with
    | nil =>
      cases heq
      exact hnext reply a
    | cons frame inside => exact h.outer inside caller outside reply (List.cons.inj heq).2

theorem acc_body (hexits : Exits p t depth frames) (hdeepens : Deepens p t depth frames) (b : Body)
    (a : Activation) : Acc (StepsWithin p t depth) ⟨.body a b, frames⟩ := by
  induction b generalizing a with
  | done result =>
    refine acc_of_turns fun e' w w' hframes hturns => ?_
    cases hturns with
    | answers => exact hexits.answers _
  | perform op next ih =>
    refine acc_of_turns fun e' w w' hframes hturns => ?_
    cases hturns with
    | answers => exact hexits.answers _
    | performs reply => exact ih reply _
  | call mode label key next ih =>
    refine acc_of_turns fun e' w w' hframes hturns => ?_
    cases hturns with
    | answers => exact hexits.answers _
    | misfits e => exact ih (.error e) a
    | calls found => exact hdeepens _ hframes (hexits.calling ih _ _ _) _
  | yield next ih =>
    refine acc_of_turns fun e' w w' hframes hturns => ?_
    generalize hall : frames = all at hturns
    cases hturns with
    | answers => exact hall ▸ hexits.answers _
    | yields => exact hall ▸ ih a
    | givesUp reply => exact hexits.outer _ _ _ reply hall

/-! ## Revalidations -/

theorem acc_compute (hexits : Exits p t depth frames) (hdeepens : Deepens p t depth frames)
    (i : SlotId) (r : Revision) : Acc (StepsWithin p t depth) ⟨.compute i r, frames⟩ := by
  refine acc_of_turns fun e' w w' hframes hturns => ?_
  cases hturns with
  | answers => exact hexits.answers _
  | computes starts => exact acc_body hexits hdeepens _ _

/-- The ways out of a revalidation lead back to the rest of it, to the body, or further out. -/
theorem Exits.touching (h : Exits p t depth frames) {walk : Walk}
    (hcompute : ∀ i r, Acc (StepsWithin p t depth) ⟨.compute i r, frames⟩)
    (hwalk : Acc (StepsWithin p t depth) ⟨.walk walk, frames⟩) (dep : SlotId) :
    Exits p t depth (.touching walk dep :: frames) where
  answers r := by
    refine acc_of_turns fun e' w w' hframes hturns => ?_
    cases hturns with
    | answers unanswered => exact absurd rfl (unanswered r)
    | propagates e => exact h.answers _
    | finds => exact hcompute _ _
    | goesOn => exact hwalk
  outer inside caller outside reply heq := by
    cases inside with
    | nil => cases heq
    | cons frame inside => exact h.outer inside caller outside reply (List.cons.inj heq).2

theorem acc_walk (hexits : Exits p t depth frames) (hdeepens : Deepens p t depth frames)
    (walk : Walk) : Acc (StepsWithin p t depth) ⟨.walk walk, frames⟩ := by
  obtain ⟨slot, revision, verifiedAt, rest⟩ := walk
  induction rest with
  | nil =>
    refine acc_of_turns fun e' w w' hframes hturns => ?_
    cases hturns with
    | answers => exact hexits.answers _
    | outdates => exact acc_compute hexits hdeepens _ _
    | passes next | touches next => cases next
  | cons dep rest ih =>
    refine acc_of_turns fun e' w w' hframes hturns => ?_
    cases hturns with
    | answers => exact hexits.answers _
    | outdates => exact acc_compute hexits hdeepens _ _
    | passes next =>
      cases next
      exact ih
    | touches next =>
      cases next
      exact hdeepens _ hframes (hexits.touching (acc_compute hexits hdeepens) ih _) _

/-! ## Evaluations -/

theorem acc_control (hexits : Exits p t depth frames) (hdeepens : Deepens p t depth frames)
    (c : Control) : Acc (StepsWithin p t depth) ⟨c, frames⟩ := by
  cases c with
  | answer r => exact hexits.answers r
  | body a b => exact acc_body hexits hdeepens b a
  | compute i r => exact acc_compute hexits hdeepens i r
  | walk walk => exact acc_walk hexits hdeepens walk
  | fetch i =>
    refine acc_of_turns fun e' w w' hframes hturns => ?_
    cases hturns with
    | answers => exact hexits.answers _
    | revalidates memo => exact acc_walk hexits hdeepens _
    | misses => exact acc_compute hexits hdeepens _ _
    | fetches starts => exact acc_body hexits hdeepens _ _

/-- What runs inside frames comes to an end, if the ways out of them do. The induction is on the number
    of further frames that there is room for. -/
theorem acc_of_exits (room : Nat) {frames : List Frame} (hroom : depth ≤ frames.length + room)
    (hexits : Exits p t depth frames) (c : Control) : Acc (StepsWithin p t depth) ⟨c, frames⟩ := by
  induction room generalizing frames c with
  | zero => exact acc_control hexits (fun _ hlt => absurd hroom (Nat.not_le.2 hlt)) c
  | succ room ih =>
    refine acc_control hexits (fun frame _ hexits' c' => ih ?_ hexits' c') c
    rw [List.length_cons]
    omega

theorem exits (p : Program) (t : Token) (depth : Nat) (frames : List Frame) :
    Exits p t depth frames := by
  induction frames with
  | nil =>
    refine ⟨fun r => acc_of_turns fun e' w w' hframes hturns => ?_, fun inside _ _ _ heq => ?_⟩
    · cases hturns with
      | answers unanswered => exact absurd rfl (unanswered r)
    · cases inside <;> cases heq
  | cons frame frames ih =>
    have hinside (c : Control) : Acc (StepsWithin p t depth) ⟨c, frames⟩ :=
      acc_of_exits depth (Nat.le_add_left _ _) ih c
    cases frame with
    | calling caller => exact ih.calling (fun reply a => hinside _) _ _ _
    | touching walk dep => exact ih.touching (fun i r => hinside _) (hinside _) dep

/-- Within a bounded number of frames, no evaluation goes on without end, whatever happens to the world
    between its steps. -/
theorem wellFounded_stepsWithin (p : Program) (t : Token) (depth : Nat) :
    WellFounded (StepsWithin p t depth) :=
  ⟨fun e => acc_of_exits depth (Nat.le_add_left _ _) (exits p t depth e.frames) e.control⟩

/-- An evaluation that never has more than a number of frames waiting finishes. -/
theorem exists_finishes {e : Evaluation} {w : World}
    (hdepth : ∀ e' w', Reaches p t e w e' w' → e'.frames.length ≤ depth) :
    ∃ result w', Finishes p t e w result w' := by
  induction e using (wellFounded_stepsWithin p t depth).induction generalizing w with
  | _ e ih =>
    have hgoesOn {e₁ : Evaluation} {w₁ : World} (hreach : Reaches p t e w e₁ w₁)
        (hnext : e.Next p t w e₁ w₁) : ∃ result w', Finishes p t e w result w' := by
      obtain ⟨result, w', hfinishes⟩ := ih e₁ ⟨hdepth e₁ w₁ hreach, w, w₁, hnext⟩
        fun e' w' hreach' => hdepth e' w' (hreach.trans hreach')
      exact ⟨result, w', hreach.finishes hfinishes⟩
    cases hstep : e.step p t w with
    | running e₁ w₁ => exact hgoesOn (.of_step hstep) (.inl hstep)
    | parked e₁ w₁ => exact hgoesOn (.of_parked hstep) (.inr hstep)
    | finished result w' => exact ⟨result, w', 1, by rw [drive, hstep]⟩

end RedGreen.Evaluation
