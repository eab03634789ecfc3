import RedGreen.Proofs.References
import RedGreen.Proofs.Termination

set_option autoImplicit false

/-! # Every request comes to an end

A request for a node that leads to finitely many nodes ends with a value or an error, whatever has been
recorded in the system and however the bodies call each other (`requests_terminate`). Every slot that
the request waits for is on the active stack, a slot that is there already is refused, and the slots
belong to different nodes; so no more frames wait than there are nodes, and evaluations of bounded depth
come to an end. -/

namespace RedGreen

open Evaluation

variable {p : Program} {F : Finset Node} {task : Task} {s : Session}

/-- The slots that the request of a task has in progress are on the active stack, each once, and are no
    more than there are nodes that the request can come to. -/
theorem Session.Descends.held_le (h : s.Descends p) (haccounted : s.Accounted p) (hF : p.Closed F)
    (htask : task.suspended = none ∨ ∃ name, s.tasks.get? name = some task)
    (hnode : ∀ n, task.request.node? p = some n → n ∈ F) {e₀ e : Evaluation} {w₀ w : World}
    (hbegins : task.Begins p s.world e₀ w₀) (hreaches : Reaches p task.token e₀ w₀ e w) :
    e.held.Nodup ∧ e.held ⊆ w.active ∧ e.held.length ≤ F.card := by
  obtain ⟨others, hstacked, hdescends⟩ : ∃ others, s.world.Stacked (task.held ++ others) ∧
      task.Descends p s.world := by
    rcases htask with hunbegun | ⟨name, hfound⟩
    · exact ⟨_, haccounted.beside (.inl ⟨hunbegun, rfl⟩), Task.descends_of_unbegun hunbegun⟩
    · exact ⟨_, haccounted.beside (.inr ⟨name, hfound, rfl⟩), h.of_get? hfound⟩
  have hstacked' := hreaches.stacked (hbegins.stacked hstacked)
  obtain ⟨hdir₀, hrecorded₀, root, n, hn, hroot, hdescends₀⟩ :=
    hbegins.descends h.directory h.recorded hdescends
  obtain ⟨hdir, -, hdescends'⟩ := hreaches.descends hdir₀ hrecorded₀ hdescends₀
  have hwithin := hdescends'.within hF ⟨n, hnode n hn, hreaches.edits.continues.node? hroot⟩
  have hnodup : e.held.Nodup := (List.nodup_append.1 hstacked'.nodup).1
  exact ⟨hnodup, fun i hi => hstacked'.mem_iff.2 (List.mem_append_left _ hi),
    hdir.length_le_card hnodup hwithin⟩

theorem Evaluation.length_frames_le_held (e : Evaluation) : e.frames.length ≤ e.held.length := by
  rw [held, List.length_append, List.length_map]
  exact Nat.le_add_left _ _

/-- However the world changes between its steps, an evaluation that holds a bounded number of slots goes
    on for finitely many steps only. -/
theorem Evaluation.wellFounded_held (p : Program) (t : Token) (bound : Nat) :
    WellFounded fun e' e : Evaluation => e'.held.length ≤ bound ∧ ∃ w w', e.Next p t w e' w' := by
  refine Subrelation.wf (fun {e' e} ⟨hheld, hnext⟩ => ?_) (wellFounded_stepsWithin p t bound)
  exact ⟨Nat.le_trans e'.length_frames_le_held hheld, hnext⟩

/-- A task whose evaluation finishes is answered under large enough limits, unless the entry lock is
    taken. -/
theorem Task.exists_ready (w : World)
    (hfinishes : ∀ e w₀, task.Begins p w e w₀ → ∃ result w', Finishes p task.token e w₀ result w') :
    ∃ bound, ∀ budget polls, bound ≤ budget → bound ≤ polls →
      task.suspended = none ∧ w.entryLocked = true ∨
        ∃ result w', task.run p budget polls w = (.ready result, w') := by
  obtain ⟨request, token, suspended, queued⟩ := task
  cases suspended with
  | some e =>
    obtain ⟨result, w', n, hn⟩ := hfinishes e w (.inl ⟨rfl, rfl⟩)
    refine ⟨n + 1, fun budget polls hbudget hpolls => .inr ?_⟩
    exact ⟨_, _, run_of_finishes { request, token, queued } hn (by omega) (by omega)⟩
  | none =>
    by_cases hlocked : w.entryLocked = true
    · exact ⟨0, fun _ _ _ _ => .inl ⟨rfl, hlocked⟩⟩
    · obtain ⟨w₁, hentry, -⟩ :=
        request.access.admission_of_unlocked queued (Bool.not_eq_true _ ▸ hlocked)
      generalize hbegin : request.begin p w₁ = out
      obtain ⟨begun, w₂⟩ := out
      cases begun with
      | answered result =>
        refine ⟨1, fun budget polls _ hpolls => .inr ?_⟩
        obtain ⟨polls, rfl⟩ := Nat.exists_eq_add_of_le' hpolls
        exact ⟨_, _, run_of_answered rfl hentry hbegin⟩
      | evaluating e =>
        obtain ⟨result, w', n, hn⟩ := hfinishes e w₂ (.inr ⟨rfl, w₁, hentry, hbegin⟩)
        refine ⟨n + 1, fun budget polls hbudget hpolls => .inr ?_⟩
        obtain ⟨polls, rfl⟩ : ∃ k, polls = k + 1 := ⟨polls - 1, by omega⟩
        rw [run_of_begin rfl hentry hbegin]
        exact ⟨_, _, run_of_finishes { request, token, queued } hn (by omega) (by omega)⟩

/-- Every request comes to an end. Take any program and finitely many nodes such that the bodies of
    these nodes ask for nodes among them only, whatever they are told. Take any steps of a client, with
    memoization or without, and a task with a request for one of the nodes: a new one, or one that is
    kept and may have been parked at any point.
    Wherever its evaluation comes to, the slots that it has in progress are on the active stack, each
    once, and are no more than there are nodes. If it goes on undisturbed, it ends with a value or an
    error. Whatever happens to the world between its steps, it takes finitely many of them. And under
    large enough limits the task is answered, unless it has still to wait for the entry lock. -/
theorem requests_terminate (hF : p.Closed F) (limits : Session.Limits) (memoize traced : Bool)
    (steps : List Step)
    (htask : task.suspended = none ∨
      ∃ name, ((Session.fresh memoize traced).after p limits steps).tasks.get? name = some task)
    (hnode : ∀ n, task.request.node? p = some n → n ∈ F) :
    (∀ e₀ w₀, task.Begins p ((Session.fresh memoize traced).after p limits steps).world e₀ w₀ →
      (∀ e w, Reaches p task.token e₀ w₀ e w →
        e.held.Nodup ∧ e.held ⊆ w.active ∧ e.held.length ≤ F.card) ∧
      ∃ result w', Finishes p task.token e₀ w₀ result w') ∧
    (WellFounded fun e' e : Evaluation =>
      e'.held.length ≤ F.card ∧ ∃ w w', e.Next p task.token w e' w') ∧
    ∃ bound, ∀ budget polls, bound ≤ budget → bound ≤ polls →
      task.suspended = none ∧
          ((Session.fresh memoize traced).after p limits steps).world.entryLocked = true ∨
        ∃ result w', task.run p budget polls
          ((Session.fresh memoize traced).after p limits steps).world = (.ready result, w') := by
  have hdescends := (Session.descends_fresh p memoize traced).after limits steps
  have haccounted := (Session.accounted_fresh p memoize traced).after limits steps
  generalize (Session.fresh memoize traced).after p limits steps = s at hdescends haccounted htask
  have hheld {e₀ e : Evaluation} {w₀ w : World} (hbegins : task.Begins p s.world e₀ w₀)
      (hreaches : Reaches p task.token e₀ w₀ e w) :=
    hdescends.held_le haccounted hF htask hnode hbegins hreaches
  have hfinishes (e₀ : Evaluation) (w₀ : World) (hbegins : task.Begins p s.world e₀ w₀) :
      ∃ result w', Finishes p task.token e₀ w₀ result w' :=
    exists_finishes fun e w hreaches =>
      Nat.le_trans e.length_frames_le_held (hheld hbegins hreaches).2.2
  exact ⟨fun e₀ w₀ hbegins => ⟨fun e w hreaches => hheld hbegins hreaches,
    hfinishes e₀ w₀ hbegins⟩, wellFounded_held p task.token F.card, Task.exists_ready s.world hfinishes⟩

/-! ## Two queries that call each other -/

/-- Ends unless an input is not zero; then it calls the other query. -/
def unlessZero : Except QueryError Value → Body
  | .ok (.int 0) => .done (.ok (.int 0))
  | _ => .call .awaited "pong" .unit .done

/-- Reads the input, and may call the other query. -/
def pingQuery : Query where
  id := ⟨"ping"⟩
  valueType := .int
  equality := Equality.content.same
  body := fun _ => .perform (.read ⟨"x"⟩ .int .unit) unlessZero

/-- Calls the first query. -/
def pongQuery : Query where
  id := ⟨"pong"⟩
  valueType := .int
  equality := Equality.content.same
  body := fun _ => .call .awaited "ping" .unit .done

/-- A program of the two. -/
def ping : Program := either "ping" pingQuery pongQuery

/-- The nodes of the program. -/
def pingNodes : Finset Node := {⟨⟨"x"⟩, .unit⟩, ⟨⟨"ping"⟩, .unit⟩, ⟨⟨"pong"⟩, .unit⟩}

theorem unlessZero_eq (r : Except QueryError Value) :
    unlessZero r = .done (.ok (.int 0)) ∨ unlessZero r = .call .awaited "pong" .unit .done := by
  unfold unlessZero
  split
  · exact .inl rfl
  · exact .inr rfl

theorem ping_closed : ping.Closed pingNodes := by
  rintro m hm n ⟨label, hid, hmentions⟩
  rw [ping, either] at hid hmentions
  split at hmentions
  · cases hmentions with
    | read => decide
    | performed r h =>
      rcases unlessZero_eq r with hdone | hcall
      · rw [hdone] at h
        cases h
      · rw [hcall] at h
        cases h with
        | call => decide
        | called r h => cases h
  · cases hmentions with
    | call => decide
    | called r h => cases h

/-- The second query has recorded the first; then the input is written, after which the first calls the
    second. -/
def pingSteps : List Step :=
  [.perform (.write .blocking ⟨"x"⟩ .unit (.int 0)) none,
    .perform (.query .waiting "pong" .unit) none,
    .perform (.write .blocking ⟨"x"⟩ .unit (.int 1)) none]

/-- A request in which recorded dependencies and the calls that are made now form a cycle. -/
theorem requests_terminate_ping :
    (WellFounded fun e' e : Evaluation => e'.held.length ≤ 3 ∧ ∃ w w', e.Next ping 5 w e' w') ∧
    ∃ bound, ∀ budget polls, bound ≤ budget → bound ≤ polls →
      ∃ result w', Task.run ping budget polls { request := .query .waiting "pong" .unit, token := 5 }
        ((Session.fresh true true).after ping ⟨20, 3⟩ pingSteps).world = (.ready result, w') := by
  obtain ⟨-, hfounded, bound, hbound⟩ := @requests_terminate ping pingNodes
    { request := .query .waiting "pong" .unit, token := 5 } ping_closed ⟨20, 3⟩ true true pingSteps
    (.inl rfl) fun n hn => by cases hn; decide
  refine ⟨hfounded, bound, fun budget polls hbudget hpolls => ?_⟩
  refine (hbound budget polls hbudget hpolls).resolve_left fun ⟨_, hlocked⟩ => ?_
  exact absurd hlocked (by decide +kernel)

end RedGreen
