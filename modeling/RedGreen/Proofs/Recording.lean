import RedGreen.Proofs.EveryRequestEnds
import RedGreen.Proofs.Stamps
import RedGreen.Proofs.Turns

set_option autoImplicit false

/-! # A run records what it addresses

While a body runs, the slots that it looks up are recorded, and when it ends with a value, the list is
kept with the value. In the meantime other bodies run, because this one calls them or because tasks
take turns, and all of them record slots (`BodyRun`). Whatever they do, a run has recorded the slots
that its own steps have addressed, each once, in the order in which they came first, and no other
(`BodyRun.records`). -/

namespace RedGreen

open Evaluation

variable {p : Program} {t : Token} {i : SlotId} {outer : List Frame} {seen : List SlotId}
  {e e' : Evaluation} {w w' : World}

/-- Recording a slot keeps the order in which the slots came first. -/
theorem recordOnce_eraseDups (dep : SlotId) (l : List SlotId) :
    recordOnce dep l.eraseDups = (l ++ [dep]).eraseDups := by
  rw [List.eraseDups_append, recordOnce]
  by_cases h : dep ∈ l
  · simp [h, List.removeAll]
  · simp [h, List.removeAll, List.eraseDups_cons]

theorem nodup_eraseDups (l : List SlotId) : l.eraseDups.Nodup := by
  induction l using List.reverseRecOn with
  | nil => exact .nil
  | append_singleton l dep ih =>
    rw [← recordOnce_eraseDups]
    exact nodup_recordOnce ih

/-- The slot that a body addresses in its next step: the one that it reads or calls, if an identity
    and types like these have such a slot. -/
def World.addressed (p : Program) (w : World) : Body → Option SlotId
  | .perform (.read query valueType key) _ => (w.inputSlot query valueType key).1.toOption
  | .call _ label key _ =>
    (w.derivedSlot (p label).id (p label).valueType key label (p label).equality).1.toOption
  | _ => none

/-! ## Runs of a body -/

/-- A run of the body of a slot, with some frames around it: the slots that its own steps have
    addressed so far, and where the evaluation stands now. -/
inductive BodyRun (p : Program) (t : Token) (i : SlotId) (outer : List Frame) :
    List SlotId → Evaluation → World → Prop
  | starts {c : Control} {a : Activation} {b : Body} {w w' : World}
    (requests : c = .fetch i ∨ ∃ r, c = .compute i r)
    (next : Next p t ⟨c, outer⟩ w ⟨.body a b, outer⟩ w') :
    BodyRun p t i outer [] ⟨.body a b, outer⟩ w'
  /-- The body takes a step itself. -/
  | acts {seen : List SlotId} {a : Activation} {b : Body} {e' : Evaluation} {w w' : World}
    (run : BodyRun p t i outer seen ⟨.body a b, outer⟩ w)
    (next : Next p t ⟨.body a b, outer⟩ w e' w') :
    BodyRun p t i outer (seen ++ (w.addressed p b).toList) e' w'
  /-- The body waits for a call, and what it has called takes a step. -/
  | waits {seen : List SlotId} {e e' : Evaluation} {caller : Caller} {w w' : World}
    (run : BodyRun p t i outer seen e w) (inside : .calling caller :: outer <:+ e.frames)
    (next : e.Next p t w e' w') : BodyRun p t i outer seen e' w'
  /-- The task is parked, and others change the world in any way. -/
  | meanwhile {seen : List SlotId} {e : Evaluation} {w w' : World}
    (run : BodyRun p t i outer seen e w) : BodyRun p t i outer seen e w'

namespace BodyRun

/-- Where a run can stand, and what it has recorded. -/
inductive Stage (i : SlotId) (outer : List Frame) (seen : List SlotId) : Evaluation → Prop
  | running {a : Activation} {b : Body} (slot : a.slot = i) (deps : a.deps = seen.eraseDups) :
    Stage i outer seen ⟨.body a b, outer⟩
  | waiting {c : Control} (inner : List Frame) {caller : Caller}
    (slot : caller.activation.slot = i) (deps : caller.activation.deps = seen.eraseDups) :
    Stage i outer seen ⟨c, inner ++ .calling caller :: outer⟩
  | ended {e : Evaluation} (stopped : ∀ a b, e ≠ ⟨.body a b, outer⟩)
    (left : ∀ caller, ¬ .calling caller :: outer <:+ e.frames) : Stage i outer seen e

theorem not_suffix_cons {frame : Frame} {frames : List Frame} (h : frames.length ≤ outer.length) :
    ¬ frame :: outer <:+ frames := fun hsuffix =>
  absurd hsuffix.length_le (by rw [List.length_cons]; omega)

theorem Stage.ended_of_length (h : e.frames.length < outer.length) : Stage i outer seen e := by
  refine .ended ?_ fun caller => not_suffix_cons (Nat.le_of_lt h)
  rintro a b rfl
  exact absurd h (Nat.lt_irrefl _)

theorem Stage.answered (r : Except QueryError Stamped) : Stage i outer seen ⟨.answer r, outer⟩ :=
  .ended (fun _ _ h => by cases h) fun _ => not_suffix_cons (Nat.le_refl _)

/-! ### The steps of the body itself -/

/-- What an operation records is what it addresses. -/
theorem deps_perform {a : Activation} (hdeps : a.deps = seen.eraseDups) (op : Operation)
    (next : op.Reply → Body) :
    (w.perform t a op).2.1.deps = (seen ++ (w.addressed p (.perform op next)).toList).eraseDups := by
  cases op with
  | read query valueType key =>
    simp only [World.perform, World.read, World.addressed]
    generalize w.inputSlot query valueType key = found
    obtain ⟨found, w₁⟩ := found
    cases found with
    | error e => simpa [Except.toOption] using hdeps
    | ok dep =>
      have hrecorded : recordOnce dep a.deps = (seen ++ [dep]).eraseDups := by
        rw [hdeps, recordOnce_eraseDups]
      simp only
      split <;> exact hrecorded
  | check | cancel | revision | slot | allocate =>
    simpa [World.addressed, World.perform] using hdeps

/-- When the body takes a step, it has recorded what this step addresses. -/
theorem Stage.acts {a : Activation} {b : Body} (hslot : a.slot = i) (hdeps : a.deps = seen.eraseDups)
    (hnext : Next p t ⟨.body a b, outer⟩ w e' w') :
    Stage i outer (seen ++ (w.addressed p b).toList) e' := by
  cases b with
  | done result =>
    obtain ⟨rfl, -⟩ := eq_of_resume hnext
    obtain ⟨r, hanswer⟩ := exists_answer_of_finish w t a result
    rw [hanswer]
    exact .answered r
  | perform op next =>
    rcases hnext with hnext | hnext <;> cases hnext
    exact .running ((World.perform_footprint w t a op).1.trans hslot) (deps_perform hdeps op next)
  | call mode label key next =>
    simp only [Next, step, stepBody, stepCall] at hnext
    split at hnext
    · rename_i hfound
      rcases hnext with hnext | hnext <;> cases hnext
      refine .running hslot ?_
      rw [World.addressed, hfound]
      simpa [Except.toOption] using hdeps
    · rename_i callee w₁ hfound
      rcases hnext with hnext | hnext <;> cases hnext
      refine .waiting [] hslot ?_
      rw [World.addressed, hfound]
      show recordOnce callee a.deps = (seen ++ [callee]).eraseDups
      rw [hdeps, recordOnce_eraseDups]
  | yield next =>
    simp only [Next, step, stepBody, stepYield] at hnext
    split at hnext
    · rcases hnext with hnext | hnext <;> cases hnext
      refine .running hslot ?_
      simpa [World.addressed] using hdeps
    · rename_i inside caller outside hsplit
      obtain ⟨rfl, -⟩ := eq_append_of_splitAtImmediate hsplit
      rcases hnext with hnext | hnext <;> cases hnext
      refine .ended_of_length ?_
      simp only [List.length_append, List.length_cons]
      omega

end BodyRun

/-! ### Steps of others -/

namespace Evaluation

/-- What a step makes of the frames: they stay, one is put on them, a revalidation is done with its
    dependency, or a caller goes on, with all that was inside it gone. -/
inductive Shifts : Evaluation → Evaluation → Prop
  | stays {c c' : Control} {frames : List Frame} : Shifts ⟨c, frames⟩ ⟨c', frames⟩
  | pushes {c c' : Control} {frame : Frame} {frames : List Frame} :
    Shifts ⟨c, frames⟩ ⟨c', frame :: frames⟩
  | pops {c c' : Control} {walk : Walk} {dep : SlotId} {frames : List Frame} :
    Shifts ⟨c, .touching walk dep :: frames⟩ ⟨c', frames⟩
  | resumes {c : Control} {b : Body} (inside : List Frame) {caller : Caller} {outside : List Frame} :
    Shifts ⟨c, inside ++ .calling caller :: outside⟩ ⟨.body caller.activation b, outside⟩

theorem Turns.shifts (h : Turns p e w e' w') : Shifts e e' := by
  cases h with
  | answers | revalidates | misses | fetches | computes | outdates | passes | performs | misfits
  | yields => exact .stays
  | touches | calls => exact .pushes
  | propagates | finds | goesOn => exact .pops
  | returns => exact .resumes []
  | givesUp => exact .resumes _

end Evaluation

namespace BodyRun

/-- While a body waits, others do not touch what it has recorded. -/
theorem Stage.waits {c : Control} {inner : List Frame} {caller : Caller}
    (hslot : caller.activation.slot = i) (hdeps : caller.activation.deps = seen.eraseDups)
    {frames : List Frame} (hframes : frames = inner ++ .calling caller :: outer)
    (h : Shifts ⟨c, frames⟩ e') : Stage i outer seen e' := by
  cases h with
  | stays =>
    subst hframes
    exact .waiting inner hslot hdeps
  | @pushes _ _ frame =>
    subst hframes
    exact .waiting (frame :: inner) hslot hdeps
  | pops =>
    cases inner with
    | nil => cases hframes
    | cons frame inner =>
      obtain ⟨-, rfl⟩ := List.cons.inj hframes
      exact .waiting inner hslot hdeps
  | @resumes _ _ inside other outside =>
    -- the caller that goes on is inside this one, is this one, or is around it
    rcases List.append_eq_append_iff.1 hframes with ⟨rest, rfl, hrest⟩ | ⟨rest, rfl, hrest⟩
    · cases rest with
      | nil =>
        obtain ⟨heq, rfl⟩ := List.cons.inj hrest
        cases heq
        exact .running hslot hdeps
      | cons frame rest =>
        obtain ⟨-, rfl⟩ := List.cons.inj hrest
        exact .waiting rest hslot hdeps
    · cases rest with
      | nil =>
        obtain ⟨heq, rfl⟩ := List.cons.inj hrest
        cases heq
        exact .running hslot hdeps
      | cons frame rest =>
        obtain ⟨-, rfl⟩ := List.cons.inj hrest
        refine .ended_of_length ?_
        simp only [List.append_eq, List.length_append, List.length_cons]
        omega

/-- While the body runs, its own list tells. -/
theorem Stage.recorded {a : Activation} {b : Body} (h : Stage i outer seen ⟨.body a b, outer⟩) :
    a.slot = i ∧ a.deps = seen.eraseDups := by
  generalize hstands : (⟨.body a b, outer⟩ : Evaluation) = e at h
  cases h with
  | running slot deps =>
    cases hstands
    exact ⟨slot, deps⟩
  | waiting inner =>
    have hlength := congrArg (·.frames.length) hstands
    simp only [List.length_append, List.length_cons] at hlength
    omega
  | ended stopped => exact absurd hstands.symm (stopped a b)

/-- Wherever a run stands, it has recorded the slots that its own steps have addressed, each once, in
    the order in which they came first. -/
theorem records (h : BodyRun p t i outer seen e w) : Stage i outer seen e := by
  induction h with
  | @starts c a b w w' requests next =>
    have hturns := next.turns
    rcases requests with rfl | ⟨r, rfl⟩ <;> cases hturns <;> exact .running rfl rfl
  | acts run next ih => exact .acts ih.recorded.1 ih.recorded.2 next
  | waits run inside next ih =>
    cases ih with
    | running => exact absurd inside (not_suffix_cons (Nat.le_refl _))
    | waiting inner slot deps => exact .waits slot deps rfl next.turns.shifts
    | ended _ left => exact absurd inside (left _)
  | meanwhile run ih => exact ih

end BodyRun

/-! ## Bodies in progress -/

namespace Evaluation

/-- The body of a slot runs with some frames around it, or waits there for a call. -/
def RunsBody (i : SlotId) (outer : List Frame) (e : Evaluation) : Prop :=
  (∃ a b, e = ⟨.body a b, outer⟩ ∧ a.slot = i) ∨
    ∃ caller : Caller, caller.activation.slot = i ∧ .calling caller :: outer <:+ e.frames

/-- A body in progress was, or it has just started. -/
theorem Turns.runsBody (h : Turns p e w e' w') (hruns : e'.RunsBody i outer) :
    e.RunsBody i outer ∨ ∃ c a b, e = ⟨c, outer⟩ ∧ e' = ⟨.body a b, outer⟩ ∧
      (c = .fetch i ∨ ∃ r, c = .compute i r) := by
  rcases hruns with ⟨a, b, rfl, rfl⟩ | ⟨caller, hslot, hinside⟩
  · cases h with
    | fetches => exact .inr ⟨_, _, _, rfl, rfl, .inl rfl⟩
    | computes => exact .inr ⟨_, _, _, rfl, rfl, .inr ⟨_, rfl⟩⟩
    | performs _ slot => exact .inl (.inl ⟨_, _, rfl, slot.symm⟩)
    | misfits | yields => exact .inl (.inl ⟨_, _, rfl, rfl⟩)
    | givesUp => exact .inl (.inr ⟨_, rfl, List.suffix_append ..⟩)
    | returns => exact .inl (.inr ⟨_, rfl, List.suffix_refl _⟩)
  · cases h with
    | calls =>
      rcases List.suffix_cons_iff.1 hinside with hcalls | hbefore
      · cases hcalls
        exact .inl (.inl ⟨_, _, rfl, hslot⟩)
      · exact .inl (.inr ⟨caller, hslot, hbefore⟩)
    | touches =>
      rcases List.suffix_cons_iff.1 hinside with hcalls | hbefore
      · cases hcalls
      · exact .inl (.inr ⟨caller, hslot, hbefore⟩)
    | givesUp =>
      refine .inl (.inr ⟨caller, hslot, hinside.trans ?_⟩)
      exact (List.suffix_cons _ _).trans (List.suffix_append _ _)
    | propagates | finds | goesOn | returns =>
      exact .inl (.inr ⟨caller, hslot, hinside.trans (List.suffix_cons _ _)⟩)
    | _ => exact .inl (.inr ⟨caller, hslot, hinside⟩)

/-- Each body in progress is in a run. -/
def ByRuns (p : Program) (t : Token) (e : Evaluation) (w : World) : Prop :=
  ∀ i outer, e.RunsBody i outer → ∃ seen, BodyRun p t i outer seen e w

theorem ByRuns.request (root : SlotId) (w : World) : (request root).ByRuns p t w := by
  rintro i outer (⟨a, b, h, -⟩ | ⟨caller, -, hsuffix⟩)
  · cases h
  · exact absurd hsuffix.length_le (by simp [Evaluation.request])

theorem ByRuns.next (h : e.ByRuns p t w) (hnext : e.Next p t w e' w') : e'.ByRuns p t w' := by
  intro i outer hruns
  rcases hnext.turns.runsBody hruns with hbefore | ⟨c, a, b, rfl, rfl, hrequests⟩
  · obtain ⟨seen, hrun⟩ := h i outer hbefore
    rcases hbefore with ⟨a, b, rfl, -⟩ | ⟨caller, -, hinside⟩
    · exact ⟨_, hrun.acts hnext⟩
    · exact ⟨_, hrun.waits hinside hnext⟩
  · exact ⟨[], .starts hrequests hnext⟩

theorem ByRuns.reaches (h : e.ByRuns p t w) (hreaches : Reaches p t e w e' w') : e'.ByRuns p t w' :=
  hreaches.preserves (motive := fun e w => e.ByRuns p t w) (fun _ _ _ _ hnext h => h.next hnext) h

theorem ByRuns.meanwhile (h : e.ByRuns p t w) (w' : World) : e.ByRuns p t w' := fun i outer hruns =>
  let ⟨seen, hrun⟩ := h i outer hruns
  ⟨seen, hrun.meanwhile⟩

end Evaluation

/-! ## Values that are kept -/

/-- A run that ends with a value which is kept leaves its own list with it. -/
theorem Evaluation.memo_of_done {a : Activation} {value : Value} {outer : List Frame}
    (hnext : Next p t ⟨.body a (.done (.ok value)), outer⟩ w e' w') (hmemoize : w.memoize = true)
    (huncancelled : t ∉ w.cancelled) (hkind : w.kind? a.slot = some .derived) :
    ∃ m, w'.memo? a.slot = some m ∧ m.value = value ∧ m.deps = a.deps := by
  obtain ⟨-, rfl⟩ := eq_of_resume hnext
  have hfinish : w.finish t a (.ok value) = w.commit a value := by
    simp only [World.finish, World.check_eq_ok_iff.2 huncancelled, hmemoize, if_true]
  rw [hfinish]
  rcases w.memo_commit a value with ⟨hother, -⟩ | ⟨d, -, -, hself, -⟩
  · exact absurd hkind hother
  · exact ⟨_, hself, rfl, rfl⟩

/-- What is recorded and kept at a point of an evaluation. -/
structure Evaluation.Records (p : Program) (t : Token) (e : Evaluation) (w : World) : Prop where
  /-- Each body in progress is in a run of its own. -/
  runs : e.ByRuns p t w
  /-- In whatever run it is, it has recorded what the run has addressed. -/
  recorded : ∀ i outer seen, BodyRun p t i outer seen e w → BodyRun.Stage i outer seen e
  /-- If it ends with a value which is kept, this is the list that is kept: each slot once, in the order
      in which the run came to them. -/
  commits : ∀ a value outer e' w', e = ⟨.body a (.done (.ok value)), outer⟩ → e.Next p t w e' w' →
    w.memoize = true → t ∉ w.cancelled → w.kind? a.slot = some .derived →
    ∃ seen m, BodyRun p t a.slot outer seen e w ∧ w'.memo? a.slot = some m ∧ m.value = value ∧
      m.deps = seen.eraseDups ∧ m.deps.Nodup ∧
      ∀ seen', BodyRun p t a.slot outer seen' e w → m.deps = seen'.eraseDups
  /-- No other step keeps another list. -/
  others : ∀ e' w' j m', e.Next p t w e' w' → w'.memo? j = some m' → w'.memo? j ≠ w.memo? j →
    (∃ a value outer, e = ⟨.body a (.done (.ok value)), outer⟩ ∧ j = a.slot) ∨
      ∃ m, w.memo? j = some m ∧ m'.deps = m.deps

theorem Evaluation.ByRuns.records (h : e.ByRuns p t w) : e.Records p t w where
  runs := h
  recorded _ _ _ hrun := hrun.records
  commits := by
    rintro a value outer e' w' rfl hnext hmemoize huncancelled hkind
    obtain ⟨seen, hrun⟩ := h a.slot outer (.inl ⟨a, _, rfl, rfl⟩)
    obtain ⟨m, hm, hvalue, hdeps⟩ := memo_of_done hnext hmemoize huncancelled hkind
    have hseen := hdeps.trans hrun.records.recorded.2
    exact ⟨seen, m, hrun, hm, hvalue, hseen, hseen ▸ nodup_eraseDups seen,
      fun seen' hrun' => hdeps.trans hrun'.records.recorded.2⟩
  others e' w' j m' hnext hm' hother := by
    cases hnext.remembers with
    | keeps memo => exact absurd (memo j) hother
    | @confirms walk m _ _ _ _ memo self others =>
      by_cases hj : j = walk.slot
      · subst hj
        cases hm'.symm.trans self
        exact .inr ⟨m, memo, rfl⟩
      · exact absurd (others j hj) hother
    | @renews a value d frames _ _ _ _ _ _ others =>
      by_cases hj : j = a.slot
      · exact .inl ⟨a, value, frames, rfl, hj⟩
      · exact absurd (others j hj) hother

/-! ## Sessions -/

/-- If a task is under way, each body in progress is in a run. -/
def Task.ByRuns (p : Program) (task : Task) : Prop :=
  ∀ e, task.suspended = some e → ∀ w, e.ByRuns p task.token w

theorem Task.Begins.byRuns {task : Task} (h : task.Begins p w e w') (htask : task.ByRuns p) :
    e.ByRuns p task.token w' := by
  rcases h with ⟨hsuspended, -⟩ | ⟨-, w₁, -, hbegin⟩
  · exact htask e hsuspended w'
  · have hopens := Request.opens_begin p task.request w₁
    rw [hbegin] at hopens
    cases hopens
    exact .request _ _

theorem Task.Course.byRuns {task task' : Task} {woken : Bool}
    (h : task.Course p w (.pending woken task', w')) (htask : task.ByRuns p) : task'.ByRuns p := by
  cases h with
  | waits => exact htask
  | parks begins reaches =>
    intro e he w''
    cases he
    exact ((begins.byRuns htask).reaches reaches).meanwhile w''

namespace Session

variable {s : Session}

/-- Each body in progress is in a run. -/
def ByRuns (p : Program) (s : Session) : Prop := ∀ entry ∈ s.tasks.entries, entry.2.ByRuns p

theorem Effects.byRuns {step : Step} {tasks : Named Task} {guards : Named SlotId}
    (heffects : s.Effects p step w tasks guards) (h : s.ByRuns p) :
    ∀ entry ∈ tasks.entries, entry.2.ByRuns p := by
  rcases heffects.aside with hpolls | ⟨-, -, htasks⟩
  · cases hpolls with
    | performs => exact h
    | ends => exact fun entry hentry => h entry (List.mem_filter.1 hentry).1
    | waits carries found course =>
      obtain ⟨entry, hentry, rfl⟩ := mem_entries_of_get? found
      intro entry' hentry'
      rcases List.mem_cons.1 hentry' with rfl | hentry'
      · exact course.byRuns (h entry hentry)
      · exact h entry' (List.mem_filter.1 hentry').1
  · intro entry hentry
    rcases htasks entry hentry with hbefore | ⟨hunbegun, -⟩
    · exact h entry hbefore
    · exact fun e he => nomatch hunbegun.symm.trans he

theorem ByRuns.after (h : s.ByRuns p) (limits : Limits) (steps : List Step) :
    (s.after p limits steps).ByRuns p := by
  induction steps generalizing s with
  | nil => exact h
  | cons step steps ih => exact ih ((effects_step (p := p) limits s step).byRuns h)

end Session

/-- The dependencies that are kept are what the run addressed. Take any program, and any steps of a
    client, with tasks that take turns in any order. Take a task, a new one or one that is kept, and any
    point that its evaluation comes to. Each body in progress there is in a run that has started with
    nothing recorded; its own steps have addressed some slots, between which bodies that it called and
    tasks beside it have done as they like. It has recorded the slots that it has addressed, whether a
    value was read there or not, each once and in the order in which they came first, and no other. If
    it ends with a value that is kept, this list is kept with it, and no other step makes another list
    of the dependencies that a memo has. -/
theorem dependencies_are_addressed_by_the_run (p : Program) (limits : Session.Limits)
    (memoize traced : Bool) (steps : List Step) {task : Task}
    (htask : task.suspended = none ∨
      ∃ name, ((Session.fresh memoize traced).after p limits steps).tasks.get? name = some task)
    {e₀ e : Evaluation} {w₀ w : World}
    (hbegins : task.Begins p ((Session.fresh memoize traced).after p limits steps).world e₀ w₀)
    (hreaches : Reaches p task.token e₀ w₀ e w) : e.Records p task.token w := by
  have hfresh : (Session.fresh memoize traced).ByRuns p := fun _ hmem => absurd hmem List.not_mem_nil
  have hs := hfresh.after limits steps
  generalize (Session.fresh memoize traced).after p limits steps = s at hs htask hbegins
  have htaskRuns : task.ByRuns p := by
    rcases htask with hunbegun | ⟨name, hfound⟩
    · exact fun e he => nomatch hunbegun.symm.trans he
    · obtain ⟨entry, hentry, rfl⟩ := Session.mem_entries_of_get? hfound
      exact hs entry hentry
  exact ((hbegins.byRuns htaskRuns).reaches hreaches).records

/-! ## An input that only a nested query reads -/

/-- A query that calls another one, which reads an input, has recorded the other one only. -/
theorem dependencies_are_addressed_by_the_run_ping :
    ∃ (e₀ : Evaluation) (w₀ w w' : World) (a : Activation) (m inner : Memo) (seen : List SlotId),
      Task.Begins ping { request := .query .waiting "pong" .unit, token := 5 }
        ((Session.fresh true true).after ping ⟨20, 3⟩ (pingSteps.take 1)).world e₀ w₀ ∧
      Reaches ping 5 e₀ w₀ ⟨.body a (.done (.ok (.int 0))), []⟩ w ∧
      BodyRun ping 5 1 [] seen ⟨.body a (.done (.ok (.int 0))), []⟩ w ∧
      w'.memo? 1 = some m ∧ m.deps = seen.eraseDups ∧ m.deps = [2] ∧
      w'.memo? 2 = some inner ∧ inner.deps = [0] := by
  obtain ⟨e₀, w₀, a, w, w', hbegins, hdrive, hnext, hslot, hdeps, hmemoize, hcancelled, hkind, inner,
      hinner, hread⟩ :
      ∃ e₀ w₀ a w w',
        Task.Begins ping { request := .query .waiting "pong" .unit, token := 5 }
          ((Session.fresh true true).after ping ⟨20, 3⟩ (pingSteps.take 1)).world e₀ w₀ ∧
        drive ping 5 8 e₀ w₀ = .running ⟨.body a (.done (.ok (.int 0))), []⟩ w ∧
        (∃ e', Next ping 5 ⟨.body a (.done (.ok (.int 0))), []⟩ w e' w') ∧ a.slot = 1 ∧ a.deps = [2] ∧
        w.memoize = true ∧ w.cancelled = [] ∧ w.kind? 1 = some .derived ∧
        ∃ inner, w'.memo? 2 = some inner ∧ inner.deps = [0] :=
    ⟨_, _, _, _, _, .inr ⟨rfl, _, rfl, rfl⟩, rfl, ⟨_, .inl rfl⟩, rfl, rfl, rfl, rfl, rfl, _, rfl, rfl⟩
  obtain ⟨e', hnext⟩ := hnext
  have hrecords := dependencies_are_addressed_by_the_run ping ⟨20, 3⟩ true true (pingSteps.take 1)
    (.inl rfl) hbegins ⟨8, hdrive⟩
  obtain ⟨seen, m, hrun, hm, -, hseen, -⟩ := hrecords.commits a _ _ e' w' rfl hnext hmemoize
    (hcancelled ▸ List.not_mem_nil) (hslot ▸ hkind)
  rw [hslot] at hrun hm
  have hrecorded := hrun.records.recorded.2
  exact ⟨e₀, w₀, w, w', a, m, inner, seen, hbegins, ⟨8, hdrive⟩, hrun, hm, hseen,
    (hseen.trans hrecorded.symm).trans hdeps, hinner, hread⟩

end RedGreen
