import RedGreen.Proofs.Interleaving
import RedGreen.Proofs.Requests

set_option autoImplicit false

/-! # Tasks that overlap writes

A task is *fine* since a revision if its evaluation, in case it has begun, has begun since then and
is under way. However tasks are polled, whatever is written, cleared, cancelled and dropped in
between: the world stays steady and all tasks stay fine, and a task that answers with a value is
right if no revision was issued since it began (`poll_fine`, `run_fine`). -/

namespace RedGreen

open Evaluation

variable {p : Program} {use : Usages} {same : Indistinct} {w w' : World} {F others : List Flight}
  {since : Revision} {kept : List SlotId}

/-! ## Right answers -/

/-- A value that a request is right to answer. -/
def Request.Right (p : Program) (inputs : Inputs) : Request → Value → Prop
  | .query _ label key, v => YieldsAlike p inputs label key v
  | .derive label key _, v => YieldsAlike p inputs label key v
  | .read id _ key, v => ∃ u, inputs id key = some u ∧ v.Alike u
  | _, _ => False

/-- What an evaluation is asked for on behalf of a request. -/
def Request.Demands : Request → Label → Key → Prop
  | .query _ label key, label', key' => label' = label ∧ key' = key
  | .derive label key _, label', key' => label' = label ∧ key' = key
  | .touch _ _ _, _, _ => True
  | _, _, _ => False

theorem Request.Demands.right {request : Request} {label : Label} {key : Key} {inputs : Inputs}
    {stamped : Stamped} {v : Value} (h : request.Demands label key)
    (hyields : YieldsAlike p inputs label key stamped.value)
    (hreply : request.replyOf stamped = .value v) : request.Right p inputs v := by
  cases request with
  | query access label' key' =>
    obtain ⟨rfl, rfl⟩ := h
    cases hreply
    exact hyields
  | derive label' key' equality =>
    obtain ⟨rfl, rfl⟩ := h
    cases hreply
    exact hyields
  | touch query valueType key' => cases hreply
  | write | read | prepare | clear => exact h.elim

/-! ## Fine tasks -/

/-- The flights of a task. -/
def Task.flights (task : Task) : List Flight := (task.suspended.map Evaluation.flights).getD []

/-- A task may be polled in a world. -/
structure Task.Fine (p : Program) (use : Usages) (same : Indistinct) (w : World) (F : List Flight)
    (since : Revision) (task : Task) : Prop where
  consistent : task.request.Consistent p use
  underWay : ∀ e, task.suspended = some e → ∃ demand : Demand, since ≤ demand.since ∧
    task.request.Demands demand.label demand.key ∧ w.UnderWay p use same task.token F demand e

/-- A task that has its slots to itself stays fine. -/
theorem Task.Fine.passes {task : Task} {F' : List Flight}
    (h : task.Fine p use same w F since) (hs : w.Steady p use same F)
    (hpasses : w.Passes p use same F w' F' kept) (hsub : task.flights ⊆ F)
    (hkept : ∀ f ∈ task.flights, f.slot ∈ kept) : task.Fine p use same w' F' since where
  consistent := h.consistent
  underWay e he := by
    obtain ⟨demand, hsince, hdemands, hunder⟩ := h.underWay e he
    have hflights : task.flights = e.flights := by rw [flights, he]; rfl
    rw [hflights] at hsub hkept
    exact ⟨demand, hsince, hdemands, hunder.passes hs hpasses hsub hkept⟩

/-- If a task is to drop memos as soon as it is admitted, it drops none that is valid as of now. -/
def Task.ClearsIssued (task : Task) (w : World) : Prop :=
  ∀ access before w', task.suspended = none → task.request = .clear access before →
    task.request.access.admission task.queued w = (.admitted, w') → before ≤ w.revision

/-- What a poll of a fine task comes to. -/
def Poll.Fine (p : Program) (use : Usages) (same : Indistinct) (w : World) (F others : List Flight)
    (since : Revision) (request : Request) (out : Poll × World) : Prop :=
  match out.1 with
  | .ready answer =>
    out.2.Steady p use same others ∧
      w.Passes p use same F out.2 others (others.map Flight.slot) ∧
      ∀ v, answer = .ok (.value v) → since = out.2.revision → request.Right p out.2.inputs v
  | .pending _ task =>
    task.request = request ∧ out.2.Steady p use same (task.flights ++ others) ∧
      w.Passes p use same F out.2 (task.flights ++ others) (others.map Flight.slot) ∧
      task.Fine p use same out.2 (task.flights ++ others) since ∧ task.ClearsIssued out.2

theorem Poll.Fine.trans {F' : List Flight} {request : Request} {out : Poll × World}
    (hpasses : w.Passes p use same F w' F' (others.map Flight.slot))
    (h : Poll.Fine p use same w' F' others since request out) :
    Poll.Fine p use same w F others since request out := by
  obtain ⟨poll, w''⟩ := out
  cases poll with
  | ready answer => exact ⟨h.1, hpasses.trans h.2.1, h.2.2⟩
  | pending woken task => exact ⟨h.1, h.2.1, hpasses.trans h.2.2.1, h.2.2.2⟩

/-- Only the entry lock may be another one. -/
theorem World.Steady.alters (hs : w.Steady p use same F) (hw : w.Alters w')
    (kept : List SlotId) :
    w'.Steady p use same F ∧ w.Passes p use same F w' F kept :=
  hs.grows (hw.tidy hs.tidy) hw.grows hw.active kept

/-! ## Polls -/

section Polls

variable {task : Task}

theorem settle_fine {demand : Demand} {progress : Progress}
    (hconsistent : task.request.Consistent p use) (hsince : since ≤ demand.since)
    (hrevision : demand.since ≤ w.revision)
    (hdemands : task.request.Demands demand.label demand.key)
    (h : Progress.Fine p use same task.token w F others demand progress) :
    Poll.Fine p use same w F others since task.request (task.settle progress) := by
  cases progress with
  | finished result w' =>
    obtain ⟨hs, hpasses, hright⟩ := h
    have halters := task.request.access.alters_release w'
    obtain ⟨hs', hpasses'⟩ := hs.alters halters (others.map Flight.slot)
    refine ⟨hs', hpasses.trans hpasses', fun v hv hnow => ?_⟩
    cases result with
    | error e => cases hv
    | ok stamped =>
      -- no revision was issued since the evaluation began
      have hnow : since = w'.revision := hnow.trans halters.revision
      have hdemand : demand.since = w'.revision :=
        Nat.le_antisymm (Nat.le_trans hrevision hpasses.revision) (hnow ▸ hsince)
      have hyields := hright stamped rfl hdemand
      rw [← halters.inputs] at hyields
      exact hdemands.right hyields (Except.ok.inj hv)
  | parked e w' | running e w' =>
    obtain ⟨hs, hunder, hpasses⟩ := h
    refine ⟨rfl, hs, hpasses, ⟨hconsistent, ?_⟩, fun _ _ _ hunbegun => nomatch hunbegun⟩
    rintro e' ⟨⟩
    exact ⟨demand, hsince, hdemands, hunder⟩

variable (hp : p.Pure use same True) (htr : ∀ label key, Transparent ((p label).body key))
include hp htr

/-- An evaluation that has begun goes on. -/
theorem resume_fine (budget : Nat) {demand : Demand} {e : Evaluation}
    (hconsistent : task.request.Consistent p use) (hsince : since ≤ demand.since)
    (hdemands : task.request.Demands demand.label demand.key)
    (hs : w.Steady p use same (e.flights ++ others))
    (h : w.UnderWay p use same task.token (e.flights ++ others) demand e) :
    Poll.Fine p use same w (e.flights ++ others) others since task.request
      (task.resume p budget e w) := by
  have hrevision := h.since_le hs (List.subset_append_left _ _)
  unfold Task.resume
  refine settle_fine hconsistent hsince hrevision hdemands ?_
  split
  · exact drive_fine hp htr budget hs h
  · exact advance_fine hp htr budget hs h

/-- A request that is answered at once is right; one that is not goes on. -/
theorem begin_fine (budget : Nat) (hs : w.Steady p use same others)
    (hconsistent : task.request.Consistent p use)
    (hclears : ∀ access before, task.request = .clear access before → before ≤ w.revision)
    (hsince : since ≤ w.revision) :
    Poll.Fine p use same w others others since task.request
      (match task.request.begin p w with
        | (.answered answer, w') => (.ready answer, task.request.access.release w')
        | (.evaluating e, w') => task.resume p budget e w') := by
  have hbegins := Request.begin_spec hp.consistent hs.tidy hconsistent
  -- an answer that is no value
  have hready {answer : Except QueryError Reply} {w' : World}
      (h : w'.Steady p use same others ∧
        w.Passes p use same others w' others (others.map Flight.slot))
      (hright : ∀ v, answer = .ok (.value v) → task.request.Right p w'.inputs v) :
      Poll.Fine p use same w others others since task.request
        (.ready answer, task.request.access.release w') := by
    have halters := task.request.access.alters_release w'
    obtain ⟨hs', hpasses'⟩ := h.1.alters halters (others.map Flight.slot)
    refine ⟨hs', h.2.trans hpasses', fun v hv _ => ?_⟩
    rw [halters.inputs]
    exact hright v hv
  -- a request for the value of a slot that was found
  have hevaluating {label : Label} {key : Key} {i : SlotId} {w' : World}
      (hfinds : w.Finds p use (p.node label key) i w')
      (hdemands : task.request.Demands label key) :
      Poll.Fine p use same w others others since task.request
        (task.resume p budget (.request i) w') := by
    obtain ⟨hs', hpasses⟩ := hs.grows hfinds.tidy hfinds.toGrows hfinds.active
      (others.map Flight.slot)
    refine Poll.Fine.trans hpasses ?_
    have hrevision : since ≤ w'.revision := Nat.le_trans hsince hpasses.revision
    have hunder : w'.UnderWay p use same task.token others ⟨label, key, w'.revision⟩ (.request i) :=
      underWay_request hfinds.found (Nat.le_refl _)
    exact resume_fine (e := .request i) hp htr budget hconsistent hrevision hdemands hs' hunder
  generalize hrequest : task.request = request at hbegins hready hevaluating hclears ⊢
  generalize request.begin p w = out at hbegins
  cases hbegins with
  | write alike finds kind tidy writes active entryLocked =>
    obtain ⟨hs₁, hpasses₁⟩ := hs.grows finds.tidy finds.toGrows finds.active (others.map Flight.slot)
    obtain ⟨hs₂, hpasses₂⟩ := hs₁.writes tidy writes (active.trans finds.active.symm)
      (others.map Flight.slot)
    exact hready ⟨hs₂, hpasses₁.trans hpasses₂⟩ fun _ hv => by cases hv
  | @read query valueType key reply w' agree tidy grows active entryLocked =>
    refine hready (hs.grows tidy grows active _) fun v hv => ?_
    cases reply with
    | error e => cases hv
    | ok u =>
      cases hv
      rw [grows.inputs hs.tidy tidy]
      rw [Inputs.answer] at agree
      cases hinput : w.inputs query key with
      | none =>
        rw [hinput] at agree
        exact (Agree.not_ok_error agree).elim
      | some u =>
        rw [hinput] at agree
        exact ⟨u, hinput, Agree.ok_ok.1 agree⟩
  | query finds => exact hevaluating finds ⟨rfl, rfl⟩
  | derive finds => exact hevaluating finds ⟨rfl, rfl⟩
  | prepare finds =>
    exact hready (hs.grows finds.tidy finds.toGrows finds.active _) fun _ hv => by cases hv
  | touch label_id finds => exact hevaluating finds trivial
  | untouched tidy grows active entryLocked =>
    exact hready (hs.grows tidy grows active _) fun _ hv => by cases hv
  | clear tidy clears active entryLocked =>
    exact hready (hs.clears tidy (hclears _ _ rfl) clears active _) fun _ hv => by cases hv

/-- One poll of a task, whatever else is in flight. -/
theorem poll_fine (budget : Nat) (hs : w.Steady p use same (task.flights ++ others))
    (h : task.Fine p use same w (task.flights ++ others) since) (hclears : task.ClearsIssued w)
    (hsince : since ≤ w.revision) :
    Poll.Fine p use same w (task.flights ++ others) others since task.request
      (task.poll p budget w) := by
  unfold Task.poll
  cases hsuspended : task.suspended with
  | some e =>
    obtain ⟨demand, hdemand, hdemands, hunder⟩ := h.underWay e hsuspended
    have hflights : task.flights = e.flights := by rw [Task.flights, hsuspended]; rfl
    rw [hflights] at hs hunder ⊢
    exact resume_fine hp htr budget h.consistent hdemand hdemands hs hunder
  | none =>
    have hflights : task.flights = [] := by rw [Task.flights, hsuspended]; rfl
    rw [hflights] at hs h ⊢
    generalize hentry : task.request.access.admission task.queued w = out
    obtain ⟨admission, w'⟩ := out
    have halters := Access.alters_of_entry hentry
    obtain ⟨hs', hpasses⟩ := hs.alters halters (others.map Flight.slot)
    refine Poll.Fine.trans hpasses ?_
    have hsince' : since ≤ w'.revision := Nat.le_trans hsince (Nat.le_of_eq halters.revision.symm)
    cases admission with
    | admitted =>
      refine begin_fine hp htr budget hs' h.consistent (fun access before heq => ?_) hsince'
      exact Nat.le_trans (hclears access before w' hsuspended heq hentry) hpasses.revision
    | refused => exact ⟨hs', .refl _ _ _, nofun⟩
    | waits =>
      obtain rfl := Access.world_of_waits hentry
      refine ⟨rfl, hs', .refl _ _ _, ⟨h.consistent, fun _ he => nomatch he⟩, ?_⟩
      intro access before w₁ _ heq hadmitted
      exact hclears access before w₁ hsuspended heq (Access.admitted_of_admitted _ hadmitted)

/-- A task that is polled a number of times. -/
theorem pollTimes_fine (budget n : Nat) (hs : w.Steady p use same (task.flights ++ others))
    (h : task.Fine p use same w (task.flights ++ others) since) (hclears : task.ClearsIssued w)
    (hsince : since ≤ w.revision) :
    Poll.Fine p use same w (task.flights ++ others) others since task.request
      (task.pollTimes p budget n w) := by
  cases n with
  | zero => exact ⟨rfl, hs, .refl _ _ _, h, hclears⟩
  | succ n =>
    induction n generalizing task w with
    | zero => exact poll_fine hp htr budget hs h hclears hsince
    | succ n ih =>
      have hpoll := poll_fine hp htr budget hs h hclears hsince
      rw [Task.pollTimes]
      generalize task.poll p budget w = out at hpoll
      obtain ⟨poll, w'⟩ := out
      cases poll with
      | ready answer => exact hpoll
      | pending woken task' =>
        obtain ⟨hrequest, hs', hpasses, h', hclears'⟩ := hpoll
        rw [← hrequest]
        exact .trans hpasses (ih hs' h' hclears' (Nat.le_trans hsince hpasses.revision))

/-- A task that is polled for as long as it asks for it. -/
theorem run_fine (budget n : Nat) (hs : w.Steady p use same (task.flights ++ others))
    (h : task.Fine p use same w (task.flights ++ others) since) (hclears : task.ClearsIssued w)
    (hsince : since ≤ w.revision) :
    Poll.Fine p use same w (task.flights ++ others) others since task.request
      (task.run p budget n w) := by
  induction n generalizing task w with
  | zero => exact ⟨rfl, hs, .refl _ _ _, h, hclears⟩
  | succ n ih =>
    have hpoll := poll_fine hp htr budget hs h hclears hsince
    rw [Task.run]
    generalize task.poll p budget w = out at hpoll
    obtain ⟨poll, w'⟩ := out
    cases poll with
    | ready answer => exact hpoll
    | pending woken task' =>
      obtain ⟨hrequest, hs', hpasses, h', hclears'⟩ := hpoll
      cases woken with
      | false => exact ⟨hrequest, hs', hpasses, h', hclears'⟩
      | true =>
        rw [← hrequest]
        exact .trans hpasses (ih hs' h' hclears' (Nat.le_trans hsince hpasses.revision))

omit hp htr in
/-- A task that is dropped gives its slots up. -/
theorem drop_fine (task : Task) (hs : w.Steady p use same (task.flights ++ others)) :
    (task.drop w).Steady p use same others ∧
      w.Passes p use same (task.flights ++ others) (task.drop w) others (others.map Flight.slot) := by
  unfold Task.drop
  cases hsuspended : task.suspended with
  | none =>
    have hflights : task.flights = [] := by rw [Task.flights, hsuspended]; rfl
    rw [hflights] at hs ⊢
    exact ⟨hs, .refl _ _ _⟩
  | some e =>
    have hflights : task.flights = e.flights := by rw [Task.flights, hsuspended]; rfl
    rw [hflights] at hs ⊢
    simp only [Evaluation.abandon, e.held_eq]
    obtain ⟨hs', hpasses⟩ := hs.leaveAll (others.map Flight.slot)
    obtain ⟨hs'', hpasses'⟩ := hs'.alters (task.request.access.alters_release _) (others.map Flight.slot)
    exact ⟨hs'', hpasses.trans hpasses'⟩

end Polls

end RedGreen
