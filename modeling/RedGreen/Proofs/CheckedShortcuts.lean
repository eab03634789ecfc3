import RedGreen.Proofs.StraightSessions

set_option autoImplicit false

/-! # Checking that shortcuts are right

Whether a session is straight can be computed, where its evaluations come to an end. A shortcut is right if
the body, evaluated on the present inputs, ends as the revalidation does. So each evaluation is followed
to its end, and wherever it takes a shortcut the body is evaluated as well
(`Session.straight_of_staysRight`). -/

namespace RedGreen

open Evaluation

variable {p : Program} {use : Usages} {same : Indistinct} {t : Token}

/-! ## Evaluating bodies -/

/-- What a body yields on given inputs, if it takes few enough steps. -/
def Program.yields? (p : Program) (inputs : Inputs) : Nat → Body → Option (Except QueryError Value)
  | _, .done r => some r
  | 0, _ => none
  | n + 1, .perform (.read query _ key) next => p.yields? inputs n (next (inputs.answer query key))
  | n + 1, .perform .check next => p.yields? inputs n (next (.ok ()))
  | n + 1, .perform .allocate next => p.yields? inputs n (next (0 : Nat))
  | _ + 1, .perform _ _ => none
  | n + 1, .call _ label key next =>
    (p.yields? inputs n ((p label).body key)).bind fun reply => p.yields? inputs n (next reply)
  | n + 1, .yield next => p.yields? inputs n next

theorem yields_of_yields? {inputs : Inputs} {n : Nat} {b : Body} {r : Except QueryError Value}
    (h : p.yields? inputs n b = some r) : ∃ m, Yields p inputs m b r := by
  induction n generalizing b r with
  | zero =>
    cases b with
    | done r' =>
      cases h
      exact ⟨0, .done r⟩
    | perform | call | yield => cases h
  | succ n ih =>
    cases b with
    | done r' =>
      cases h
      exact ⟨0, .done r⟩
    | perform op next =>
      cases op with
      | read query valueType key =>
        obtain ⟨m, hm⟩ := ih h
        exact ⟨m + 1, .read hm⟩
      | check =>
        obtain ⟨m, hm⟩ := ih h
        exact ⟨m + 1, .check hm⟩
      | allocate =>
        obtain ⟨m, hm⟩ := ih h
        exact ⟨m + 1, .allocate hm⟩
      | cancel | revision | slot => cases h
    | call mode label key next =>
      obtain ⟨reply, hreply, hnext⟩ := Option.bind_eq_some_iff.1 h
      obtain ⟨m, hm⟩ := ih hreply
      obtain ⟨k, hk⟩ := ih hnext
      exact ⟨m + k + 1, .call hm hk⟩
    | yield next =>
      obtain ⟨m, hm⟩ := ih h
      exact ⟨m + 1, .yield hm⟩

/-- The label and the key of a derived slot that belongs to the query of its label, and what its body yields
    on the present inputs. -/
def World.yields? (p : Program) (n : Nat) (w : World) (i : SlotId) :
    Option (Label × Except QueryError Value) :=
  match w.slots[i]? with
  | some ⟨query, key, .derived d⟩ =>
    if (p d.recompute).id = query then
      (p.yields? w.inputs n ((p d.recompute).body key)).map fun r => (d.recompute, r)
    else none
  | _ => none

theorem World.yields_of_yields? {w : World} {n : Nat} {i : SlotId} {label : Label}
    {r : Except QueryError Value} (h : w.yields? p n i = some (label, r)) :
    ∃ key m, w.node? i = some (p.node label key) ∧ Yields p w.inputs m ((p label).body key) r := by
  unfold World.yields? at h
  split at h
  · rename_i query key d hslot
    split at h
    · rename_i hid
      obtain ⟨r', hr', heq⟩ := Option.map_eq_some_iff.1 h
      cases heq
      obtain ⟨m, hm⟩ := RedGreen.yields_of_yields? hr'
      exact ⟨key, m, System.node?_eq_some.2 ⟨_, hslot, hid.symm, rfl⟩, hm⟩
    · cases h
  · cases h

/-! ## Following evaluations -/

namespace Evaluation

/-- A shortcut that the next step takes, if it takes one, ends as the body does. -/
def isRight (p : Program) (n : Nat) (e : Evaluation) (w : World) : Bool :=
  match e.control, e.frames with
  | .walk walk, _ =>
    !walk.rest.isEmpty ||
      match w.yields? p n walk.slot, w.memo? walk.slot with
      | some (label, .ok v), some m => decide (m.value.type = (p label).valueType ∧ m.value.Alike v)
      | _, _ => false
  | .answer (.error error), .touching walk _ :: _ =>
    match w.yields? p n walk.slot with
    | some (_, .error e) => decide (e = error)
    | _ => false
  | _, _ => true

theorem confirmsRightly_of_isRight (hp : p.Pure use same False) {n : Nat} {e : Evaluation} {w : World}
    (h : e.isRight p n w = true) : ConfirmsRightly p w e := by
  rintro walk m hcontrol hrest hm - label key hnode
  simp only [isRight, hcontrol, hrest, hm, List.isEmpty_nil, Bool.not_true, Bool.false_or] at h
  split at h
  · rename_i label' v m' hyields hm'
    obtain rfl := Option.some.inj hm'
    obtain ⟨key', k, hnode', hbody⟩ := World.yields_of_yields? hyields
    obtain ⟨htype, halike⟩ := of_decide_eq_true h
    exact YieldsAlike.of_node hp ⟨k, v, hbody, htype, halike⟩
      (Option.some.inj (hnode'.symm.trans hnode))
  · cases h

theorem failsRightly_of_isRight (hp : p.Pure use same False) {n : Nat} {e : Evaluation} {w : World}
    (h : e.isRight p n w = true) : FailsRightly p w e := by
  rintro walk dep frames error rfl label key hnode -
  simp only [isRight] at h
  split at h
  · rename_i label' error' hyields
    obtain rfl := of_decide_eq_true h
    obtain ⟨key', k, hnode', hbody⟩ := World.yields_of_yields? hyields
    exact ⟨k, hp.body_eq (Option.some.inj (hnode'.symm.trans hnode)) ▸ hbody⟩
  · cases h

/-- All shortcuts are right, up to an end that is reached within a budget. -/
def staysRight (p : Program) (t : Token) : Nat → Evaluation → World → Bool
  | 0, _, _ => false
  | n + 1, e, w =>
    e.isRight p n w && match e.step p t w with
      | .running e w => e.staysRight p t n w
      | .parked e w => e.staysRight p t n w
      | .finished _ _ => true

theorem isRight_of_reaches {n : Nat} {e e₁ : Evaluation} {w w₁ : World}
    (h : e.staysRight p t n w = true) (hreach : Reaches p t e w e₁ w₁) :
    ∃ m, e₁.isRight p m w₁ = true := by
  obtain ⟨k, hk⟩ := hreach
  induction k generalizing n e w with
  | zero =>
    cases hk
    cases n with
    | zero => cases h
    | succ n => exact ⟨n, (Bool.and_eq_true_iff.1 h).1⟩
  | succ k ih =>
    cases n with
    | zero => cases h
    | succ n =>
      obtain ⟨-, hrest⟩ := Bool.and_eq_true_iff.1 h
      rw [drive] at hk
      cases hstep : e.step p t w with
      | running e w =>
        rw [hstep] at hk hrest
        exact ih hrest hk
      | parked e w =>
        rw [hstep] at hk hrest
        exact ih hrest hk
      | finished result w =>
        rw [hstep] at hk
        cases hk

theorem straight_of_staysRight (hp : p.Pure use same False) {n : Nat} {e : Evaluation} {w : World}
    (h : e.staysRight p t n w = true) : e.Straight p t w := by
  intro e₁ w₁ hreach
  obtain ⟨m, hm⟩ := isRight_of_reaches h hreach
  exact ⟨confirmsRightly_of_isRight hp hm, failsRightly_of_isRight hp hm⟩

end Evaluation

/-! ## Sessions -/

/-- The evaluation that a request begins, if it begins one, takes right shortcuts only. -/
def Request.staysRight (p : Program) (t : Token) (n : Nat) (request : Request) (w : World) : Bool :=
  match request.access.admission false w with
  | (_, w) =>
    match request.begin p w with
    | (.evaluating e, w) => e.staysRight p t n w
    | (.answered _, _) => true

namespace Session

/-- All evaluations that begin in the course of some steps do. -/
def staysRight (p : Program) (limits : Limits) : Session → List Step → Bool
  | _, [] => true
  | s, step :: steps =>
    (match step with
      | .perform request token => request.staysRight p (s.tokenFor token).1 limits.steps s.world
      | _ => true) && staysRight p limits (s.report p limits step).2 steps

theorem straight_of_staysRight (hp : p.Pure use same False) {limits : Limits} {s : Session}
    {steps : List Step} (h : s.staysRight p limits steps = true) : s.Straight p limits steps := by
  induction steps generalizing s with
  | nil => trivial
  | cons step steps ih =>
    obtain ⟨hstep, hsteps⟩ := Bool.and_eq_true_iff.1 h
    refine ⟨?_, ih hsteps⟩
    cases step with
    | perform request token =>
      intro w₁ e w₂ hentry hbegin
      simp only [Request.staysRight, hentry, hbegin] at hstep
      exact Evaluation.straight_of_staysRight hp hstep
    | _ => trivial

end Session

end RedGreen
