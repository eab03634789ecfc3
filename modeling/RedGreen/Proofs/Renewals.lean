import RedGreen.Proofs.Concurrency
import RedGreen.Proofs.Stamps
import RedGreen.Proofs.Transitions

set_option autoImplicit false

/-! # What a slot keeps is renewed at later and later revisions

A step of an evaluation *renews* what a slot keeps, if a run of its body has ended with a value, or if a
revalidation has ended and found no change. Which steps these are is read off the controls
(`Transition.renewal?`), not off what the slot keeps before and after: each of them makes the slot valid
up to a revision that is later than the one before, and no other step changes what is kept
(`Next.renews`, `Next.memo_of_no_renewal`). So the revisions of all the steps that renew a slot, while
nothing is cleared, are in order and each is there once (`Session.Timed.renewals`). -/

namespace RedGreen

open Evaluation

variable {p : Program} {t : Token}

/-! ## Steps that renew -/

namespace Transition

/-- The derived slot that a step renews, and the revision up to which it is valid then. -/
def renewal? (x : Transition) : Option Flight :=
  match x.source.control, x.target.control with
  | .walk walk, .answer (.ok _) => some ⟨walk.slot, walk.revision⟩
  | .body a _, .answer (.ok _) =>
    if x.before.memoize ∧ x.before.kind? a.slot = some .derived then some ⟨a.slot, a.revision⟩
    else none
  | _, _ => none

/-- The revision up to which a step renews a slot. -/
def renewalOf? (i : SlotId) (x : Transition) : Option Revision :=
  (x.renewal?.filter fun f => f.slot = i).map Flight.revision

/-- A slot is valid up to a later revision than before, the last change of its value is not further back,
    and all other slots keep what they kept. -/
structure Renews (x : Transition) (f : Flight) : Prop where
  kept : ∃ m, x.after.memo? f.slot = some m ∧ m.verifiedAt = f.revision
  later : x.before.verifiedAt f.slot < f.revision
  changed : x.before.changedAt f.slot ≤ x.after.changedAt f.slot
  others : ∀ j, j ≠ f.slot → x.after.memo? j = x.before.memo? j

/-- The slot in flight at the control is the one that a step renews. -/
theorem flight?_of_renewal {x : Transition} {f : Flight} (h : x.renewal? = some f) :
    x.source.control.flight? = some f := by
  unfold renewal? at h
  split at h
  · rename_i walk _ hwalk _
    rw [hwalk]
    exact h
  · rename_i a _ _ hbody _
    rw [hbody]
    split at h
    · exact h
    · cases h
  · cases h

end Transition

namespace Evaluation

variable {e e' : Evaluation} {w w' : World} {F : List Flight} {others : List SlotId} {f : Flight}
  {i : SlotId}

/-- A step that renews a slot leaves a memo of the revision of the flight. -/
theorem Next.kept_of_renewal (h : e.Next p t w e' w')
    (hrenewal : Transition.renewal? ⟨e, w, e', w'⟩ = some f) :
    ∃ m, w'.memo? f.slot = some m ∧ m.verifiedAt = f.revision := by
  obtain ⟨control, frames⟩ := e
  obtain ⟨control', frames'⟩ := e'
  unfold Transition.renewal? at hrenewal
  split at hrenewal
  · rename_i walk x hsource htarget
    obtain rfl : control = .walk walk := hsource
    obtain rfl : control' = .answer (.ok x) := htarget
    obtain rfl := Option.some.inj hrenewal
    obtain ⟨-, -, hverify⟩ := h.rest_eq_nil
    cases hm : w.memo? walk.slot with
    | none =>
      simp only [World.verify, hm] at hverify
      cases hverify
    | some m =>
      obtain ⟨-, hself⟩ := World.memo_verify hm
      rw [hverify] at hself
      exact ⟨_, hself, rfl⟩
  · rename_i a body x hsource htarget
    obtain rfl : control = .body a body := hsource
    obtain rfl : control' = .answer (.ok x) := htarget
    split at hrenewal
    · rename_i hkeeps
      obtain ⟨hmemoize, hkind⟩ := hkeeps
      obtain rfl := Option.some.inj hrenewal
      obtain ⟨value, -, -, hcommit⟩ := h.done_of_ok
      rw [if_pos hmemoize] at hcommit
      rcases w.memo_commit a value with ⟨hother, -⟩ | ⟨d, -, -, hself, -⟩
      · exact absurd hkind hother
      · rw [hcommit] at hself
        exact ⟨_, hself, rfl⟩
    · cases hrenewal
  · cases hrenewal

/-- A step changes what is kept for the slot in flight at its control only. -/
theorem Next.memo_of_ne (h : e.Next p t w e' w') (hf : e.control.flight? = some f)
    (hi : i ≠ f.slot) : w'.memo? i = w.memo? i := by
  cases h.remembers with
  | keeps memo => exact memo i
  | confirms rest memo self others | renews uncancelled memoize memo self others =>
    obtain rfl := Option.some.inj hf
    exact others i hi

/-- A step that renews nothing leaves all that is kept as it is. -/
theorem Next.memo_of_no_renewal (h : e.Next p t w e' w')
    (hrenewal : Transition.renewal? ⟨e, w, e', w'⟩ = none) : w'.memo? i = w.memo? i := by
  cases h.remembers with
  | keeps memo => exact memo i
  | confirms => cases hrenewal
  | renews uncancelled memoize memo self others kind =>
    rw [Transition.renewal?] at hrenewal
    simp only [memoize, kind, and_self, if_true] at hrenewal
    cases hrenewal

/-- A slot that a step renews is valid up to a later revision than before. -/
theorem Next.renews (h : e.Next p t w e' w') (hstacked : w.Stacked (e.held ++ others))
    (hF : ∀ f ∈ F, f.slot ∈ others) (ht : w.Timely (e.flights ++ F))
    (hrenewal : Transition.renewal? ⟨e, w, e', w'⟩ = some f) :
    Transition.Renews ⟨e, w, e', w'⟩ f := by
  obtain ⟨m, hm, hverified⟩ := h.kept_of_renewal hrenewal
  have hflight : e.control.flight? = some f := Transition.flight?_of_renewal hrenewal
  have haloft : w.Aloft f := ht.aloft f (List.mem_append_left _ (by simp [flights, hflight]))
  obtain ⟨-, hages⟩ := h.timely hstacked hF ht
  rcases hages.memo f.slot with hsame | hadvances
  · -- what was kept was valid up to an earlier revision only
    have hlt := haloft.stale m (hsame.symm.trans hm)
    rw [hverified] at hlt
    exact absurd hlt (Nat.lt_irrefl _)
  · have hlater := hadvances.verified
    rw [System.verifiedAt_of_memo hm, hverified] at hlater
    exact ⟨⟨m, hm, hverified⟩, hlater, hadvances.changed, fun j hj => h.memo_of_ne hflight hj⟩

end Evaluation

/-! ## One renewal after the other -/

/-- While a world has become another one, a slot was renewed at some revisions, in this order. -/
structure World.Renewals (w : World) (i : SlotId) (revisions : List Revision) (w' : World) : Prop where
  increasing : revisions.Pairwise (· < ·)
  /-- All of them are later than the revision up to which the slot was valid before. -/
  after : ∀ m, w.memo? i = some m → ∀ r ∈ revisions, m.verifiedAt < r
  /-- None is later than the revision up to which the slot is valid now. -/
  upTo : ∀ r ∈ revisions, ∃ m, w'.memo? i = some m ∧ r ≤ m.verifiedAt
  keeps : ∀ m, w.memo? i = some m → ∃ m', w'.memo? i = some m' ∧ m.verifiedAt ≤ m'.verifiedAt

namespace World.Renewals

variable {w w' w'' : World} {i : SlotId} {revisions revisions' : List Revision}

theorem of_memo (h : w'.memo? i = w.memo? i) : w.Renewals i [] w' where
  increasing := .nil
  after _ _ _ hr := absurd hr List.not_mem_nil
  upTo _ hr := absurd hr List.not_mem_nil
  keeps m hm := ⟨m, h.trans hm, Nat.le_refl _⟩

theorem trans (h : w.Renewals i revisions w') (h' : w'.Renewals i revisions' w'') :
    w.Renewals i (revisions ++ revisions') w'' where
  increasing := by
    refine List.pairwise_append.2 ⟨h.increasing, h'.increasing, fun r hr r' hr' => ?_⟩
    obtain ⟨m, hm, hle⟩ := h.upTo r hr
    exact Nat.lt_of_le_of_lt hle (h'.after m hm r' hr')
  after m hm r hr := by
    rcases List.mem_append.1 hr with hr | hr
    · exact h.after m hm r hr
    · obtain ⟨m', hm', hle⟩ := h.keeps m hm
      exact Nat.lt_of_le_of_lt hle (h'.after m' hm' r hr)
  upTo r hr := by
    rcases List.mem_append.1 hr with hr | hr
    · obtain ⟨m, hm, hle⟩ := h.upTo r hr
      obtain ⟨m', hm', hle'⟩ := h'.keeps m hm
      exact ⟨m', hm', Nat.le_trans hle hle'⟩
    · exact h'.upTo r hr
  keeps m hm := by
    obtain ⟨m', hm', hle⟩ := h.keeps m hm
    obtain ⟨m'', hm'', hle'⟩ := h'.keeps m' hm'
    exact ⟨m'', hm'', Nat.le_trans hle hle'⟩

/-- In the end nothing is kept that was not. -/
theorem memo_right (h : w.Renewals i revisions w') (hmemo : w''.memo? i = w'.memo? i) :
    w.Renewals i revisions w'' := by
  simpa using h.trans (.of_memo hmemo)

/-- At first nothing is kept that is not there later. -/
theorem memo_left (hmemo : w'.memo? i = w.memo? i) (h : w'.Renewals i revisions w'') :
    w.Renewals i revisions w'' := by
  simpa using (of_memo hmemo).trans h

end World.Renewals

namespace Evaluation

variable {e e' : Evaluation} {w w' : World} {F : List Flight} {others : List SlotId} {i : SlotId}
  {own : List Transition}

/-- One step renews a slot once at most. -/
theorem Next.renewals (h : e.Next p t w e' w') (hstacked : w.Stacked (e.held ++ others))
    (hF : ∀ f ∈ F, f.slot ∈ others) (ht : w.Timely (e.flights ++ F)) (i : SlotId) :
    w.Renewals i (Transition.renewalOf? i ⟨e, w, e', w'⟩).toList w' := by
  unfold Transition.renewalOf?
  cases hrenewal : Transition.renewal? ⟨e, w, e', w'⟩ with
  | none => exact .of_memo (h.memo_of_no_renewal hrenewal)
  | some f =>
    have hrenews := h.renews hstacked hF ht hrenewal
    by_cases hi : f.slot = i
    · subst hi
      obtain ⟨m, hm, hverified⟩ := hrenews.kept
      have hafter (o : Memo) (ho : w.memo? f.slot = some o) : o.verifiedAt < f.revision := by
        have hlater := hrenews.later
        rwa [System.verifiedAt_of_memo ho] at hlater
      simp only [Option.filter_some, decide_true, if_true, Option.map_some, Option.toList_some]
      refine ⟨List.pairwise_singleton _ _, fun o ho r hr => ?_, fun r hr => ?_, fun o ho => ?_⟩
      · rw [List.mem_singleton.1 hr]
        exact hafter o ho
      · rw [List.mem_singleton.1 hr]
        exact ⟨m, hm, Nat.le_of_eq hverified.symm⟩
      · exact ⟨m, hm, hverified ▸ Nat.le_of_lt (hafter o ho)⟩
    · simp only [Option.filter_some, hi, decide_false, Bool.false_eq_true, if_false, Option.map_none,
        Option.toList_none]
      exact .of_memo (hrenews.others i fun heq => hi heq.symm)

theorem Trail.renewals (h : Trail p t e w own e' w') (hstacked : w.Stacked (e.held ++ others))
    (hF : ∀ f ∈ F, f.slot ∈ others) (ht : w.Timely (e.flights ++ F)) (i : SlotId) :
    w.Renewals i (own.filterMap (Transition.renewalOf? i)) w' := by
  induction h with
  | here => exact .of_memo rfl
  | @step e e₁ e' w w₁ w' own next rest ih =>
    have hrest := ih (next.moves.stacked hstacked) (next.timely hstacked hF ht).1
    have hall := (next.renewals hstacked hF ht i).trans hrest
    rw [List.filterMap_cons]
    cases hrenewal : Transition.renewalOf? i ⟨e, w, e₁, w₁⟩ <;> rw [hrenewal] at hall <;> exact hall

end Evaluation

namespace Task

variable {task : Task} {w w' : World} {F : List Flight} {others : List SlotId} {i : SlotId}
  {own : List Transition} {out : Poll × World}

theorem Takes.renewals (h : task.Takes p w own out) (hclears : ¬task.request.Clears)
    (hstacked : w.Stacked (task.held ++ others)) (hF : ∀ f ∈ F, f.slot ∈ others)
    (ht : w.Timely (task.flights ++ F)) (i : SlotId) :
    w.Renewals i (own.filterMap (Transition.renewalOf? i)) out.2 := by
  cases h with
  | waits => exact .of_memo rfl
  | refused unbegun entry => exact .of_memo ((Access.alters_of_entry entry).still.memo i)
  | @answered w₁ w₂ result unbegun entry opens =>
    refine .of_memo (((task.request.access.alters_release w₂).still.memo i).trans ?_)
    have hchanges := task.request.begin_changes p w₁
    rw [opens] at hchanges
    refine Eq.trans ?_ ((Access.alters_of_entry entry).still.memo i)
    generalize task.request = request at hclears hchanges
    cases hchanges with
    | rests rests => exact rests.memo i
    | writes rests kind => exact ((World.put_changes kind _).2.2 i).trans (rests.memo i)
    | clears access before => exact absurd ⟨access, before, rfl⟩ hclears
  | parks begins trail =>
    exact (trail.renewals (begins.stacked hstacked) hF (begins.timely ht).1 i).memo_left
      (begins.still.memo i)
  | @ends e w₁ w₂ result own begins trail =>
    exact ((trail.renewals (begins.stacked hstacked) hF (begins.timely ht).1 i).memo_left
      (begins.still.memo i)).memo_right ((task.request.access.alters_release w₂).still.memo i)

end Task

/-! ## Sessions -/

/-- A step carries the request of the task that it takes up. -/
theorem Step.carries_of_task {s : Session} {step : Step} {task : Task}
    (h : step.task? s = some task) : ∃ name, step.Carries s task.request name := by
  cases step with
  | perform request name =>
    cases h
    exact ⟨none, .perform request name⟩
  | poll name times => exact ⟨some name, .poll times h⟩
  | run name => exact ⟨some name, .run h⟩
  | _ => cases h

namespace Session

variable {s : Session} {limits : Limits}

/-- None of some steps drops memos. -/
def Unclearing (p : Program) (limits : Limits) : Session → List Step → Prop
  | _, [] => True
  | s, step :: steps => ¬step.Clears s ∧ Unclearing p limits (s.report p limits step).2 steps

/-- A step that polls nothing and clears nothing leaves what is kept as it is. -/
theorem memo_of_untaken {step : Step} (htask : step.task? s = none) (hclears : ¬step.Clears s)
    (i : SlotId) : (s.report p limits step).2.world.memo? i = s.world.memo? i := by
  rcases (effects_step (p := p) limits s step).aside with hpolls | ⟨-, hstill, -⟩
  · obtain ⟨task, htaken⟩ := hpolls.task?
    cases htask.symm.trans htaken
  · exact (hstill.resolve_right fun hdirectly => hclears (.inr hdirectly)).memo i

/-- A step that polls a task renews a slot as often as the evaluation of the task does. -/
theorem Timed.renewals_of_polled (h : s.Timed p) {step : Step} {task : Task} {out : Poll × World}
    {own : List Transition} (hpolled : s.polled? p limits step = some (task, out))
    (htakes : task.Takes p s.world own out) (hclears : ¬step.Clears s) (i : SlotId) :
    s.world.Renewals i (own.filterMap (Transition.renewalOf? i))
      (s.report p limits step).2.world := by
  have htask := task?_of_polled hpolled
  obtain ⟨others, F, hstacked, hF, ht⟩ := h.among (unbegun_or_found htask)
  obtain ⟨name, hcarries⟩ := Step.carries_of_task htask
  have hout := htakes.renewals (fun hclear => hclears (.inl ⟨_, name, hcarries, hclear⟩)) hstacked hF
    ht i
  refine hout.memo_right ?_
  -- a report empties the journal, which holds no memos
  change (s.step p limits step).2.world.memo? i = out.2.memo? i
  rcases (step_of_polled hpolled).2 with hworld | hworld
  · rw [hworld]
  · rw [hworld]
    obtain ⟨poll, w⟩ := out
    cases poll with
    | ready result => rfl
    | pending woken task' => exact (task'.still_drop w).memo i

/-- Without a clear, a slot is renewed at later and later revisions. -/
theorem Timed.renewals (h : s.Timed p) {steps : List Step} {own : List Transition}
    (hproceeds : s.Proceeds p limits steps own) (hsteps : s.Unclearing p limits steps) (i : SlotId) :
    s.world.Renewals i (own.filterMap (Transition.renewalOf? i)) (s.after p limits steps).world := by
  induction hproceeds with
  | idle s => exact .of_memo rfl
  | aside untaken rest ih =>
    exact (ih (h.report limits _).1 hsteps.2).memo_left
      (memo_of_untaken (polled?_eq_none.1 untaken) hsteps.1 i)
  | polls polled takes rest ih =>
    rw [List.filterMap_append]
    exact (h.renewals_of_polled polled takes hsteps.1 i).trans (ih (h.report limits _).1 hsteps.2)

/-- Stamps are in order, and whatever happens next moves them forward. -/
structure MovesForward (p : Program) (limits : Limits) (s : Session) : Prop where
  stamped : ∀ slot ∈ s.world.slots, slot.Stamped s.world.revision
  /-- A step of a client lets memos age, writes one input or drops memos. -/
  steps : ∀ step, s.world.Restamps (step.Writes s) (step.Clears s) (s.report p limits step).2.world
  /-- A step of an evaluation leaves the stamps in order, and it renews one slot or none. -/
  evaluations : ∀ (task : Task) e₀ w₀ e w e' w',
    (task.suspended = none ∨ ∃ name, s.tasks.get? name = some task) →
    task.Begins p s.world e₀ w₀ → Reaches p task.token e₀ w₀ e w → e.Next p task.token w e' w' →
      (∀ slot ∈ w'.slots, slot.Stamped w'.revision) ∧ w.Ages w' ∧
      (∀ f, Transition.renewal? ⟨e, w, e', w'⟩ = some f → Transition.Renews ⟨e, w, e', w'⟩ f) ∧
      (Transition.renewal? ⟨e, w, e', w'⟩ = none → ∀ i, w'.memo? i = w.memo? i)
  /-- Whatever a client does, evaluations take some steps in the course of it. -/
  proceeds : ∀ steps, ∃ own, s.Proceeds p limits steps own
  /-- As long as nothing is cleared, these steps renew a slot at later and later revisions. -/
  renewals : ∀ i steps own, s.Unclearing p limits steps → s.Proceeds p limits steps own →
    (own.filterMap (Transition.renewalOf? i)).Pairwise (· < ·)

end Session

/-- Stamps only move forward. Take any program, and any steps of a client: writes, queries, free
    requests, polls, drops, cancellations, guards, and clears of anything. In the state that they lead
    to, a derived slot has no value, no stamps and no dependencies, or the stamp of its last change is
    not earlier than the first revision and not later than the stamp of its validity, which is not later
    than now; an input bears a stamp exactly if it was written, and none that is later than now.
    A further step writes one input, if it is a write, under the revision that it issues, or it drops
    memos, if it is a clear, or each derived slot is as it was or is valid up to a later revision than
    before, with a stamp of its last change that is not earlier. Within a step, whenever a run of a body
    ends with a value or a revalidation finds no change, the slot becomes valid up to a later revision
    than before, and nothing else changes what is kept. So as long as nothing is cleared, no slot is
    committed or revalidated twice under the same revision. -/
theorem stamps_move_forward (p : Program) (limits : Session.Limits) (memoize traced : Bool)
    (steps : List Step) :
    ((Session.fresh memoize traced).after p limits steps).MovesForward p limits := by
  have htimed := (Session.timed_fresh p memoize traced).after limits steps
  generalize (Session.fresh memoize traced).after p limits steps = s at htimed
  refine ⟨htimed.timely.stamped, fun step => (htimed.report limits step).2, ?_, s.exists_proceeds,
    fun i more own hmore hproceeds => (htimed.renewals hproceeds hmore i).increasing⟩
  intro task e₀ w₀ e w e' w' htask hbegins hreaches hnext
  obtain ⟨others, F, hstacked, hF, ht⟩ := htimed.reaches htask hbegins hreaches
  obtain ⟨ht', hages⟩ := hnext.timely hstacked hF ht
  exact ⟨ht'.stamped, hages, fun f hrenewal => hnext.renews hstacked hF ht hrenewal,
    fun hnone i => hnext.memo_of_no_renewal hnone⟩

/-- What comes after the query is parked: the write and the rest of the query, the query again, a write
    of another input, and the query once more. -/
def thriceLater : List Step :=
  thriceSteps.drop 3 ++
    [.perform (.query .free "thrice" .unit) none,
      .perform (.write .blocking ⟨"y"⟩ .unit (.int 1)) none,
      .perform (.query .free "thrice" .unit) none]

theorem thriceLater_unclearing :
    ((Session.fresh true true).after thrice ⟨40, 3⟩ (thriceSteps.take 3)).Unclearing thrice ⟨40, 3⟩
      thriceLater := by
  have hperform (s : Session) {request : Request} (hrequest : ¬request.Clears) :
      ¬Step.Clears s (.perform request none) := by
    rintro (⟨request, name, carries, hclears⟩ | hfalse)
    · cases carries
      exact hrequest hclears
    · exact hfalse
  have hwrites (access : Access) (id : QueryId) (n : Int) :
      ¬(Request.write access id .unit (.int n)).Clears := by
    rintro ⟨access, before, heq⟩
    cases heq
  have hqueries : ¬(Request.query .free "thrice" .unit).Clears := by
    rintro ⟨access, before, heq⟩
    cases heq
  refine ⟨hperform _ (hwrites _ _ _), ?_, hperform _ hqueries, hperform _ (hwrites _ _ _),
    hperform _ hqueries, trivial⟩
  rintro (⟨request, name, carries, access, before, hclear⟩ | hfalse)
  · cases carries with
    | poll times found =>
      obtain rfl := Option.some.inj found
      cases hclear
  · exact hfalse

/-- A query that a write has overlapped ends under the revision at which it began, it is made again under
    the next one, and after a write of another input it is found valid under the third. -/
theorem stamps_move_forward_thrice : ∃ own,
    ((Session.fresh true true).after thrice ⟨40, 3⟩ (thriceSteps.take 3)).Proceeds thrice ⟨40, 3⟩
        thriceLater own ∧
      own.filterMap (Transition.renewalOf? 1) = [2, 3, 4] ∧
      List.Pairwise (· < ·) [(2 : Revision), 3, 4] := by
  have hproceeds : ∃ own,
      ((Session.fresh true true).after thrice ⟨40, 3⟩ (thriceSteps.take 3)).Proceeds thrice ⟨40, 3⟩
        thriceLater own ∧ own.filterMap (Transition.renewalOf? 1) = [2, 3, 4] :=
    ⟨_, .polls rfl (.answered rfl rfl rfl)
      (.polls rfl (.ends (.inl ⟨rfl, rfl⟩) (trail_of_drive (n := 2) rfl))
        (.polls rfl (.ends (.inr ⟨rfl, _, rfl, rfl⟩) (trail_of_drive (n := 15) rfl))
          (.polls rfl (.answered rfl rfl rfl)
            (.polls rfl (.ends (.inr ⟨rfl, _, rfl, rfl⟩) (trail_of_drive (n := 8) rfl)) (.idle _))))),
      rfl⟩
  obtain ⟨own, hown, hlist⟩ := hproceeds
  exact ⟨own, hown, hlist, hlist ▸
    (stamps_move_forward thrice ⟨40, 3⟩ true true (thriceSteps.take 3)).renewals 1 _ own
      thriceLater_unclearing hown⟩

end RedGreen
