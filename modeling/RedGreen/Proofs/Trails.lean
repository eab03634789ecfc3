import Mathlib.Data.List.Chain
import RedGreen.Proofs.EntryLock
import RedGreen.Proofs.Reports
import RedGreen.Proofs.Transitions

set_option autoImplicit false

/-! # The steps of a request

The evaluation of a request takes its steps in several polls, and between them others do as they like.
All the steps that it has taken since the request was made are its *thread* (`Thread`). A client that
polls a request, in one step or in several, gathers its thread poll by poll (`Session.Polled`), and what
the reports of these polls tell of requests for derived values is what the steps of the thread tell
(`Session.polled_fresh`). -/

namespace RedGreen

open Evaluation

variable {p : Program} {t : Token} {w w' : World}

/-! ## Steps -/

namespace Transition

variable {x : Transition}

/-- What the step tells of requests for derived values. -/
def events (x : Transition) : List TraceEvent :=
  x.after.queryEvents.drop x.before.queryEvents.length

theorem events_eq {told : List TraceEvent}
    (h : x.after.queryEvents = x.before.queryEvents ++ told) : x.events = told := by
  rw [events, h, List.drop_left]

/-- The step begins a request for a slot. -/
def begins (x : Transition) : Bool :=
  match x.source.control with
  | .fetch _ => true
  | _ => false

/-- The step goes on after a yield. -/
def yields (x : Transition) : Bool :=
  match x.source.control with
  | .body _ (.yield _) => true
  | _ => false

/-- A body yields, although a caller around it does not wait: the caller gives up its callee. -/
def GivesUp (x : Transition) : Prop := ∃ a next caller,
  x.source.control = .body a (.yield next) ∧ .calling caller ∈ x.source.frames ∧ caller.mode = .immediate

end Transition

namespace Evaluation

variable {e e' : Evaluation} {own more : List Transition}

/-- What the steps tell is what the tracer is told. -/
theorem Trail.queryEvents (h : Trail p t e w own e' w') (hderived : e.OnDerived w) :
    w'.queryEvents = w.queryEvents ++ own.flatMap Transition.events := by
  induction h with
  | here => simp
  | @step e e₁ e' w w₁ w' own next rest ih =>
    obtain ⟨told, -, htold⟩ := next.reports hderived
    have hevents : Transition.events ⟨e, w, e₁, w₁⟩ = told := Transition.events_eq htold
    rw [ih (hderived.next next), htold, List.flatMap_cons, hevents, List.append_assoc]

end Evaluation

/-! ## Threads -/

namespace World

/-- What the slots in an evaluation find around them: a directory in order, others in progress, and stamps
    in order. -/
structure Hosts (p : Program) (w : World) (e : Evaluation) : Prop where
  directory : w.InDirectory p
  among : ∃ others F, w.Stacked (e.held ++ others) ∧ (∀ f ∈ F, f.slot ∈ others) ∧
    w.Timely (e.flights ++ F)

theorem Continues.kind? (h : w.Continues w') {i : SlotId} {k : SlotKind} (hkind : w.kind? i = some k) :
    w'.kind? i = some k := by
  obtain ⟨info, hinfo, rfl⟩ := exists_describe? hkind
  exact kind?_of_describe? (h.describe? hinfo)

end World

namespace Evaluation

/-- The steps that an evaluation has taken since its request was made. Others act in between. -/
inductive Thread (p : Program) (t : Token) : List Transition → Evaluation → World → Prop
  | begins {i : SlotId} {w : World} (derived : w.kind? i = some .derived) :
    Thread p t [] (Evaluation.request i) w
  | step {own : List Transition} {e e' : Evaluation} {w w' : World} (thread : Thread p t own e w)
    (hosts : w.Hosts p e) (next : e.Next p t w e' w') :
    Thread p t (own ++ [⟨e, w, e', w'⟩]) e' w'
  | rests {own : List Transition} {e : Evaluation} {w w' : World} (thread : Thread p t own e w)
    (continues : w.Continues w') (memoize : w'.memoize = w.memoize) : Thread p t own e w'

variable {e e' : Evaluation} {own more : List Transition}

theorem Thread.onDerived (h : Thread p t own e w) : e.OnDerived w := by
  induction h with
  | begins derived =>
    refine ⟨fun f hf => absurd hf List.not_mem_nil, fun j hj => ?_⟩
    cases hj
    exact derived
  | step _ _ next ih => exact ih.next next
  | rests _ continues _ ih => exact ih.mono fun _ => continues.kind?

theorem Trail.thread (h : Trail p t e w more e' w') (hthread : Thread p t own e w)
    (hhosts : ∀ e₁ w₁, Reaches p t e w e₁ w₁ → w₁.Hosts p e₁) : Thread p t (own ++ more) e' w' := by
  induction h generalizing own with
  | here => simpa using hthread
  | step next rest ih =>
    rw [List.append_cons]
    exact ih (hthread.step (hhosts _ _ (.refl _ _)) next)
      fun e₁ w₁ hreaches => hhosts e₁ w₁ (next.reaches.trans hreaches)

end Evaluation

namespace Transition

/-- The step is one that an evaluation has taken, with everything in order. -/
structure Genuine (p : Program) (t : Token) (x : Transition) : Prop where
  next : x.source.Next p t x.before x.target x.after
  derived : x.source.OnDerived x.before
  hosts : x.before.Hosts p x.source

/-- The second step goes on from where the first one has led to. -/
structure Precedes (x y : Transition) : Prop where
  source : y.source = x.target
  continues : x.after.Continues y.before

end Transition

namespace Evaluation

variable {e : Evaluation} {own : List Transition}

theorem Thread.genuine (h : Thread p t own e w) :
    ∀ x ∈ own, x.Genuine p t ∧ x.before.memoize = w.memoize := by
  induction h with
  | begins => exact fun x hx => absurd hx List.not_mem_nil
  | step thread hosts next ih =>
    have hmemoize := next.edits.memoize
    refine List.forall_mem_append.2 ⟨fun x hx => ?_, List.forall_mem_singleton.2 ?_⟩
    · obtain ⟨hgenuine, hkept⟩ := ih x hx
      exact ⟨hgenuine, hkept.trans hmemoize.symm⟩
    · exact ⟨⟨next, thread.onDerived, hosts⟩, hmemoize.symm⟩
  | rests thread continues memoize ih =>
    rw [memoize]
    exact ih

/-- The steps follow on one another, up to where the evaluation stands. -/
theorem Thread.chain (h : Thread p t own e w) : own.IsChain Transition.Precedes ∧
    ∀ x ∈ own.getLast?, x.target = e ∧ x.after.Continues w := by
  induction h with
  | begins => exact ⟨.nil, by simp⟩
  | @step own e e' w w' thread hosts next ih =>
    obtain ⟨hchain, hlast⟩ := ih
    refine ⟨List.isChain_append.2 ⟨hchain, .singleton _, fun x hx y hy => ?_⟩, fun x hx => ?_⟩
    · obtain ⟨htarget, hcontinues⟩ := hlast x hx
      cases hy
      exact ⟨htarget.symm, hcontinues⟩
    · rw [List.getLast?_concat] at hx
      cases hx
      exact ⟨rfl, List.prefix_refl _, List.prefix_refl _⟩
  | rests thread continues memoize ih =>
    exact ⟨ih.1, fun x hx => ⟨(ih.2 x hx).1, (ih.2 x hx).2.trans continues⟩⟩

end Evaluation

/-! ## Tasks -/

/-- What the evaluation of a task has done so far. -/
inductive Task.Threaded (p : Program) (w : World) (task : Task) : List Transition → Prop
  | unbegun (unbegun : task.suspended = none) : Threaded p w task []
  | underway {e : Evaluation} {own : List Transition} (suspended : task.suspended = some e)
    (thread : Thread p task.token own e w) : Threaded p w task own

namespace Task

variable {task : Task} {out : Poll × World} {own more : List Transition}

theorem Threaded.mono (h : task.Threaded p w own) (hcontinues : w.Continues w')
    (hmemoize : w'.memoize = w.memoize) : task.Threaded p w' own := by
  cases h with
  | unbegun unbegun => exact .unbegun unbegun
  | underway suspended thread => exact .underway suspended (thread.rests hcontinues hmemoize)

/-- A request for a slot asks for a derived one. -/
theorem kind?_of_begin {request : Request} {i : SlotId}
    (h : request.begin p w = (.evaluating (Evaluation.request i), w')) : w'.kind? i = some .derived := by
  have hofSlot {out : Except QueryError SlotId × World}
      (hout : ∀ i, out.1 = .ok i → out.2.kind? i = some .derived)
      (h : Begun.ofSlot out = (.evaluating (Evaluation.request i), w')) : w'.kind? i = some .derived := by
    obtain ⟨found, w₁⟩ := out
    cases found with
    | error e => cases h
    | ok j =>
      cases h
      exact hout i rfl
  have hslot {w : World} {query : QueryId} {valueType : ValueType} {key : Key} {label : Label}
      {equality : Equivalence} (i : SlotId)
      (hi : (w.derivedSlot query valueType key label equality).1 = .ok i) :
      (w.derivedSlot query valueType key label equality).2.kind? i = some .derived :=
    @World.kind?_of_slotFor _ _ valueType ⟨query, key, .derived (.fresh label equality)⟩ i
      (Prod.ext hi rfl)
  cases request with
  | query access label key => exact hofSlot hslot h
  | derive label key equality => exact hofSlot hslot h
  | touch query valueType key =>
    simp only [Request.begin] at h
    split at h
    · cases h
    · split at h
      · cases h
      · split at h
        · cases h
          assumption
        · cases h
  | write | read | prepare | clear => cases h

/-- The evaluation of a task goes on where it was, or it begins. -/
theorem Begins.thread {e : Evaluation} (h : task.Begins p w e w') (htask : task.Threaded p w own) :
    Thread p task.token own e w' := by
  rcases h with ⟨hsuspended, rfl⟩ | ⟨hunbegun, w₁, -, hbegin⟩
  · cases htask with
    | unbegun unbegun => cases unbegun.symm.trans hsuspended
    | underway suspended thread =>
      cases suspended.symm.trans hsuspended
      exact thread
  · cases htask with
    | underway suspended => cases hunbegun.symm.trans suspended
    | unbegun =>
      have hopens := Request.opens_begin p task.request w₁
      rw [hbegin] at hopens
      cases hopens with
      | evaluates => exact .begins (kind?_of_begin hbegin)

/-- What becomes of the task tells of requests for derived values what its steps tell. -/
theorem Takes.queryEvents (h : Takes p task w more out) (htask : task.Threaded p w own) :
    out.2.queryEvents = w.queryEvents ++ more.flatMap Transition.events := by
  cases h with
  | waits => simp
  | refused unbegun entry =>
    have hentry := (task.request.access.hushed_admission task.queued w).queryEvents
    rw [entry] at hentry
    simpa using hentry
  | @answered w₁ w₂ result unbegun entry opens =>
    have hentry := task.request.access.hushed_admission task.queued w
    rw [entry] at hentry
    have hbegin := task.request.hushed_begin p w₁
    rw [opens] at hbegin
    simpa using ((hentry.trans hbegin).trans (task.request.access.hushed_release w₂)).queryEvents
  | parks begins trail =>
    rw [trail.queryEvents (begins.thread htask).onDerived, begins.hushed.queryEvents]
  | @ends e w₁ w₂ result own begins trail =>
    rw [(task.request.access.hushed_release w₂).queryEvents,
      trail.queryEvents (begins.thread htask).onDerived, begins.hushed.queryEvents]

/-- What the evaluation of a task has done when it was polled: all steps of an evaluation, and it is at its
    end if the task is answered; or none, as the request needed no evaluation or has not begun. -/
inductive Polled (p : Program) (t : Token) (own : List Transition) : Poll × World → Prop
  | waits {woken : Bool} {task : Task} {w : World} (token : task.token = t)
    (threaded : task.Threaded p w own) : Polled p t own (.pending woken task, w)
  | answered {result : Except QueryError Reply} {w : World} (none : own = []) :
    Polled p t own (.ready result, w)
  | ends {answer : Except QueryError Stamped} {result : Except QueryError Reply} {w w' : World}
    (thread : Thread p t own ⟨.answer answer, []⟩ w) (edits : w.Edits p w') :
    Polled p t own (.ready result, w')

theorem Takes.polled (h : Takes p task w more out) (htask : task.Threaded p w own)
    (hhosts : ∀ e₀ w₀ e₁ w₁, task.Begins p w e₀ w₀ → Reaches p task.token e₀ w₀ e₁ w₁ → w₁.Hosts p e₁) :
    Polled p task.token (own ++ more) out := by
  have hnone (hunbegun : task.suspended = none) : own ++ [] = [] := by
    cases htask with
    | unbegun => rfl
    | underway suspended => cases hunbegun.symm.trans suspended
  cases h with
  | waits unbegun =>
    rw [List.append_nil]
    refine .waits rfl ?_
    cases htask with
    | unbegun => exact .unbegun unbegun
    | underway suspended => cases unbegun.symm.trans suspended
  | refused unbegun | answered unbegun => exact .answered (hnone unbegun)
  | parks begins trail =>
    exact .waits rfl (.underway rfl (trail.thread (begins.thread htask) fun _ _ => hhosts _ _ _ _ begins))
  | @ends e w₁ w₂ result own begins trail =>
    exact .ends (trail.thread (begins.thread htask) fun _ _ => hhosts _ _ _ _ begins)
      (task.request.access.edits_release w₂)

end Task

/-! ## Clients -/

namespace Session

variable {s : Session} {limits : Limits} {name : String} {step : Step}

/-- What a report tells of requests for derived values. -/
def Report.queryEvents (report : Report) : List TraceEvent := report.events.filter TraceEvent.ofQuery

/-- A client polls a named task by a step: the steps that the evaluation takes, and what becomes of the
    task. -/
structure Visits (p : Program) (limits : Limits) (s : Session) (step : Step) (name : String)
    (task : Task) (more : List Transition) (out : Poll × World) : Prop where
  polls : step.PollsTask name
  found : s.tasks.get? name = some task
  takes : task.Takes p s.world more out
  comes : s.step p limits step = s.afterPoll name out

/-- What the evaluation of a named task has done since the client has made the task, and what the reports
    of the polls have told of requests for derived values. -/
inductive Attends (p : Program) (limits : Limits) (s : Session) (name : String) :
    List Step → List Transition → List TraceEvent → Prop
  | spawns (steps : List Step) (request : Request) (token : Option String) :
    Attends p limits s name (steps ++ [.spawn name request token]) [] []
  | polls {steps : List Step} {step : Step} {task : Task} {out : Poll × World}
    {own more : List Transition} {told : List TraceEvent} (before : Attends p limits s name steps own told)
    (visits : (s.after p limits steps).Visits p limits step name task more out) :
    Attends p limits s name (steps ++ [step]) (own ++ more)
      (told ++ ((s.after p limits steps).report p limits step).1.queryEvents)
  | others {steps : List Step} {step : Step} {own : List Transition} {told : List TraceEvent}
    (before : Attends p limits s name steps own told) (others : ¬step.Handles name) :
    Attends p limits s name (steps ++ [step]) own told

/-- What the evaluation of a request has done when the last step of a client has polled it, what the
    reports of its polls have told of requests for derived values, and what has become of it. -/
inductive Conducts (p : Program) (limits : Limits) (s : Session) :
    List Step → List Transition → List TraceEvent → Poll → Prop
  | performs {steps : List Step} {request : Request} {token : Option String} {own : List Transition}
    {out : Poll × World}
    (takes : Task.Takes p { request, token := ((s.after p limits steps).tokenFor token).1 }
      (s.after p limits steps).world own out)
    (comes : Task.run p limits.steps limits.polls
      { request, token := ((s.after p limits steps).tokenFor token).1 }
      (s.after p limits steps).world = out) :
    Conducts p limits s (steps ++ [.perform request token]) own
      ((s.after p limits steps).report p limits (.perform request token)).1.queryEvents out.1
  | polls {name : String} {steps : List Step} {step : Step} {task : Task} {out : Poll × World}
    {own more : List Transition} {told : List TraceEvent} (before : Attends p limits s name steps own told)
    (visits : (s.after p limits steps).Visits p limits step name task more out) :
    Conducts p limits s (steps ++ [step]) (own ++ more)
      (told ++ ((s.after p limits steps).report p limits step).1.queryEvents) out.1

/-! ## Sessions in order -/

theorem after_concat (limits : Limits) (s : Session) (steps : List Step) (step : Step) :
    s.after p limits (steps ++ [step]) = ((s.after p limits steps).report p limits step).2 :=
  List.foldl_concat ..

/-- Everything is in order, and the journal has been handed out. -/
structure Orderly (p : Program) (s : Session) : Prop where
  timed : s.Timed p
  directory : s.world.InDirectory p
  journal : s.world.journal = []

theorem orderly_fresh (p : Program) (memoize traced : Bool) : (Session.fresh memoize traced).Orderly p :=
  ⟨timed_fresh p memoize traced, World.inDirectory_new memoize, rfl⟩

theorem Orderly.report (h : s.Orderly p) (limits : Limits) (step : Step) :
    (s.report p limits step).2.Orderly p :=
  ⟨(h.timed.report limits step).1, inDirectory_report limits step h.directory, rfl⟩

theorem Orderly.after (h : s.Orderly p) (limits : Limits) (steps : List Step) :
    (s.after p limits steps).Orderly p := by
  induction steps generalizing s with
  | nil => exact h
  | cons step steps ih => exact ih (h.report limits step)

theorem Orderly.queryEvents (h : s.Orderly p) : s.world.queryEvents = [] := by
  rw [World.queryEvents, h.journal]
  rfl

/-- Wherever the evaluation of a task comes to, it finds everything in order. -/
theorem Orderly.hosts (h : s.Orderly p) {task : Task} {e₀ e : Evaluation} {w₀ w : World}
    (htask : task.suspended = none ∨ ∃ name, s.tasks.get? name = some task)
    (hbegins : task.Begins p s.world e₀ w₀) (hreaches : Reaches p task.token e₀ w₀ e w) :
    w.Hosts p e :=
  ⟨(hbegins.edits.trans hreaches.edits).inDirectory h.directory, h.timed.reaches htask hbegins hreaches⟩

/-! ## What a client gathers -/

theorem queryEvents_left (out : Poll × World) : World.queryEvents (Poll.left out) = out.2.queryEvents := by
  obtain ⟨poll, w⟩ := out
  cases poll with
  | ready result => rfl
  | pending woken task => exact (task.hushed_drop w).queryEvents

section

variable {steps : List Step} {task : Task} {own more : List Transition} {out : Poll × World}
  {told : List TraceEvent} {poll : Poll}

theorem Visits.queryEvents (h : s.Visits p limits step name task more out) (hs : s.Orderly p)
    (htask : task.Threaded p s.world own) :
    (s.report p limits step).1.queryEvents = more.flatMap Transition.events := by
  have hworld : (s.step p limits step).2.world = out.2 := by rw [h.comes, world_afterPoll]
  have htold := h.takes.queryEvents htask
  rwa [hs.queryEvents, List.nil_append, ← hworld] at htold

theorem Visits.polled (h : s.Visits p limits step name task more out) (hs : s.Orderly p)
    (htask : task.Threaded p s.world own) : Task.Polled p task.token (own ++ more) out :=
  h.takes.polled htask fun _ _ _ _ => hs.hosts (.inr ⟨name, h.found⟩)

/-- The reports tell what the steps tell, and the thread of a task is its evaluation's. -/
theorem Attends.threaded (h : s.Attends p limits name steps own told) (hs : s.Orderly p) :
    told = own.flatMap Transition.events ∧ ∀ task, (s.after p limits steps).tasks.get? name = some task →
      task.Threaded p (s.after p limits steps).world own := by
  induction h with
  | spawns steps request token =>
    refine ⟨rfl, fun task htask => .unbegun ?_⟩
    simp only [after_concat, Session.report, Session.step, Named.get?_insert_self] at htask
    cases htask
    rfl
  | @polls steps step task out own more told before visits ih =>
    obtain ⟨rfl, htasks⟩ := ih
    have hafter := hs.after limits steps
    have htask := htasks task visits.found
    have hpolled := visits.polled hafter htask
    refine ⟨by rw [visits.queryEvents hafter htask, List.flatMap_append], fun task' htask' => ?_⟩
    rw [after_concat] at htask' ⊢
    simp only [Session.report, visits.comes] at htask' ⊢
    obtain ⟨poll, w⟩ := out
    cases poll with
    | ready result =>
      rw [afterPoll, Named.get?_erase_self] at htask'
      cases htask'
    | pending woken kept =>
      rw [afterPoll, Named.get?_insert_self] at htask'
      cases htask'
      cases hpolled with
      | waits _ threaded => exact threaded.mono ⟨List.prefix_refl _, List.prefix_refl _⟩ rfl
  | @others steps step own told before others ih =>
    refine ⟨ih.1, fun task htask => ?_⟩
    have heffects := effects_step (p := p) limits (s.after p limits steps) step
    have hkept : (s.after p limits (steps ++ [step])).tasks.get? name =
        (s.after p limits steps).tasks.get? name := by
      rw [after_concat]
      exact heffects.get?_of_not_handles others
    rw [hkept] at htask
    rw [after_concat]
    exact (ih.2 task htask).mono (continues_report limits _ step) (edits_step p limits _ step).memoize

/-- The same when the task is polled for the last time. -/
theorem Conducts.polled (h : s.Conducts p limits steps own told poll) (hs : s.Orderly p) :
    told = own.flatMap Transition.events ∧
      ∃ t w, Task.Polled p t own (poll, w) ∧ w.memoize = s.world.memoize := by
  cases h with
  | @performs steps request token own out takes comes =>
    have hafter := hs.after limits steps
    have htask : Task.Threaded p (s.after p limits steps).world
        { request, token := ((s.after p limits steps).tokenFor token).1 } [] := .unbegun rfl
    refine ⟨?_, _, out.2, takes.polled htask fun _ _ _ _ => hafter.hosts (.inl rfl), ?_⟩
    · have htold := takes.queryEvents htask
      rw [hafter.queryEvents, List.nil_append] at htold
      rw [← htold, ← queryEvents_left, ← comes, ← world_perform]
      rfl
    · have hcourse := Task.course_run (p := p) limits.steps limits.polls
        { request, token := ((s.after p limits steps).tokenFor token).1 } (s.after p limits steps).world
      rw [← comes, hcourse.edits.memoize, memoize_after]
  | @polls name steps step task out own more told before visits =>
    have hafter := hs.after limits steps
    obtain ⟨rfl, htasks⟩ := before.threaded hs
    have htask := htasks task visits.found
    refine ⟨by rw [visits.queryEvents hafter htask, List.flatMap_append], _, out.2,
      visits.polled hafter htask, ?_⟩
    rw [← world_afterPoll, ← visits.comes, (edits_step p limits _ step).memoize, memoize_after]

theorem exists_visits (limits : Limits) (hpolls : step.PollsTask name)
    (hfound : s.tasks.get? name = some task) : ∃ more out, s.Visits p limits step name task more out := by
  cases step with
  | poll other times =>
    obtain rfl : name = other := hpolls
    have hcourse := Task.course_pollTimes (p := p) limits.steps (max 1 times) task s.world
    obtain ⟨more, htakes⟩ := hcourse.exists_takes
    exact ⟨more, _, rfl, hfound, htakes, by simp only [Session.step, hfound]⟩
  | run other =>
    obtain rfl : name = other := hpolls
    have hcourse := Task.course_run (p := p) limits.steps limits.polls task s.world
    obtain ⟨more, htakes⟩ := hcourse.exists_takes
    exact ⟨more, _, rfl, hfound, htakes, by simp only [Session.step, hfound]⟩
  | _ => exact hpolls.elim

/-- A task that is kept after a step which polls it was kept before. -/
theorem exists_get?_of_pollsTask (hpolls : step.PollsTask name)
    (h : (s.step p limits step).2.tasks.get? name = some task) :
    ∃ before, s.tasks.get? name = some before := by
  cases hfound : s.tasks.get? name with
  | some before => exact ⟨before, rfl⟩
  | none =>
    cases step with
    | poll other | run other =>
      obtain rfl : name = other := hpolls
      simp only [Session.step, hfound] at h
      cases h
    | _ => exact hpolls.elim

/-- Each kept task has been attended to since it was made. -/
theorem exists_attends (limits : Limits) (hs : s.tasks = {}) (steps : List Step)
    (h : (s.after p limits steps).tasks.get? name = some task) :
    ∃ own told, s.Attends p limits name steps own told := by
  induction steps using List.reverseRecOn generalizing task with
  | nil =>
    rw [after, List.foldl_nil, hs] at h
    cases h
  | append_singleton steps step ih =>
    rw [after_concat] at h
    by_cases hpolls : step.PollsTask name
    · obtain ⟨before, hbefore⟩ := exists_get?_of_pollsTask hpolls h
      obtain ⟨own, told, hattends⟩ := ih hbefore
      obtain ⟨more, out, hvisits⟩ := exists_visits (p := p) limits hpolls hbefore
      exact ⟨_, _, hattends.polls hvisits⟩
    · by_cases hname : step.Handles name
      · cases step with
        | spawn other request token =>
          obtain rfl : name = other := hname
          exact ⟨[], [], .spawns steps request token⟩
        | drop other =>
          obtain rfl : name = other := hname
          have hgone := tasks_dropTask (s.after p limits steps) name
          simp only [Session.report, Session.step, hgone, Named.get?_erase_self] at h
          cases h
        | poll | run => exact absurd hname hpolls
        | _ => exact hname.elim
      · have hkept := (effects_step (p := p) limits (s.after p limits steps) step).get?_of_not_handles hname
        obtain ⟨own, told, hattends⟩ := ih (hkept.symm.trans h)
        exact ⟨own, told, hattends.others hname⟩

/-- Whenever a step takes up a task, a client conducts it. -/
theorem exists_conducts (limits : Limits) (hs : s.tasks = {}) (steps : List Step)
    (h : step.task? (s.after p limits steps) = some task) :
    ∃ own told poll, s.Conducts p limits (steps ++ [step]) own told poll ∧
      ((s.after p limits steps).step p limits step).1 = poll.answer := by
  have hpoll {name : String} (hpolls : step.PollsTask name)
      (hfound : (s.after p limits steps).tasks.get? name = some task) :
      ∃ own told poll, s.Conducts p limits (steps ++ [step]) own told poll ∧
        ((s.after p limits steps).step p limits step).1 = poll.answer := by
    obtain ⟨own, told, hattends⟩ := exists_attends limits hs steps hfound
    obtain ⟨more, ⟨poll, w⟩, hvisits⟩ := exists_visits (p := p) limits hpolls hfound
    refine ⟨_, _, poll, .polls hattends hvisits, ?_⟩
    rw [hvisits.comes]
    cases poll <;> rfl
  cases step with
  | perform request token =>
    have hcourse := Task.course_run (p := p) limits.steps limits.polls
      { request, token := ((s.after p limits steps).tokenFor token).1 } (s.after p limits steps).world
    obtain ⟨own, htakes⟩ := hcourse.exists_takes
    exact ⟨own, _, _, .performs htakes rfl, (step_perform _ limits request token).1⟩
  | poll name times | run name => exact hpoll rfl h
  | _ => cases h

end

end Session

end RedGreen
