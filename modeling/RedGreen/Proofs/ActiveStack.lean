import Mathlib.Data.List.Dedup
import RedGreen.Proofs.Edits

set_option autoImplicit false

/-! # The active stack lists the live guards

A slot is under way while a guard for it is alive: a guard that a client holds, or the one of a
running computation. The active stack lists the slots under live guards, each once, in the order in
which they have entered (`active_stack_lists_live_guards`).

Guards may go in any order, so the order on the stack is not the one of a last-in-first-out use. It
is told by the log: if of all the slots that have entered only the last entrance of each is kept, and
of these only the ones that are still alive, then what remains is the active stack. No edit of the
world breaks this (`InOrder`). -/

namespace RedGreen

open Evaluation
open scoped List

variable {p : Program}

/-! ## Lists -/

section

variable {α : Type} [DecidableEq α]

/-- What is added at the end is the last of its kind. -/
theorem concat_sublist_dedup {l entered : List α} {a : α} (h : l <+ entered.dedup) (ha : a ∉ l) :
    l ++ [a] <+ (entered ++ [a]).dedup := by
  induction entered generalizing l with
  | nil =>
    rw [List.sublist_nil.1 h]
    exact List.Sublist.refl _
  | cons b entered ih =>
    by_cases hb : b ∈ entered
    · rw [List.dedup_cons_of_mem hb] at h
      rw [List.cons_append, List.dedup_cons_of_mem (List.mem_append_left _ hb)]
      exact ih h ha
    · rw [List.dedup_cons_of_notMem hb] at h
      by_cases hab : a = b
      · -- the first entrance of `a` is not the last one any more
        subst hab
        rw [List.cons_append, List.dedup_cons_of_mem (by simp)]
        cases h with
        | cons _ h => exact ih h ha
        | cons_cons => exact absurd List.mem_cons_self ha
      · rw [List.cons_append, List.dedup_cons_of_notMem (by simp [hb, Ne.symm hab])]
        cases h with
        | cons _ h => exact (ih h ha).cons b
        | @cons_cons l _ _ h => exact (ih h fun hmem => ha (List.mem_cons_of_mem b hmem)).cons_cons b

/-- A sublist of a list without repetitions is what remains if the others are left out. -/
theorem sublist_eq_filter {l m : List α} (h : l <+ m) (hnodup : m.Nodup) :
    l = m.filter (· ∈ l) := by
  have hsub : l <+ m.filter (· ∈ l) := by
    have hfilter := h.filter (· ∈ l)
    rwa [List.filter_eq_self.2 (by simp)] at hfilter
  refine hsub.eq_of_length_le (List.Nodup.subperm (hnodup.filter _) ?_).length_le
  intro a ha
  simpa using (List.mem_filter.1 ha).2

end

theorem dropInnermost_eq_filter {active : List SlotId} (h : active.Nodup) (i : SlotId) :
    dropInnermost active i = active.filter (· ≠ i) := by
  rw [dropInnermost, (List.nodup_reverse.2 h).erase_eq_filter, List.filter_reverse,
    List.reverse_reverse]
  exact List.filter_congr fun j _ => Bool.eq_iff_iff.2 (by simp)

/-- Slots that leave, each of which was on the stack once, leave the others in their order. -/
theorem foldl_dropInnermost_eq_filter {active : List SlotId} (h : active.Nodup) (ids : List SlotId) :
    ids.foldl dropInnermost active = active.filter (· ∉ ids) := by
  induction ids generalizing active with
  | nil => simp
  | cons i ids ih =>
    rw [List.foldl_cons, dropInnermost_eq_filter h i, ih (h.filter _), List.filter_filter]
    exact List.filter_congr fun j _ => by simp [Bool.and_comm]

/-! ## The order of the active stack -/

namespace World

/-- The slots that have entered, as the journal tells. -/
def entered (w : World) : List SlotId := w.journal.filterMap Entry.entered?

/-- The active stack lists slots in the order in which they have entered last; some slots have entered
    before the journal began. -/
def InOrder (before : List SlotId) (w : World) : Prop :=
  w.active <+ (before ++ w.entered).dedup

variable {w w' : World} {before alive : List SlotId}

theorem entered_note_of_quiet {entry : Entry} (h : entry.entered? = none) :
    (w.note entry).entered = w.entered := by
  simp [entered, note, h]

/-- No edit breaks the order. -/
theorem Edit.inOrder (h : w.Edit p w') (hw : w.InOrder before) : w'.InOrder before := by
  cases h with
  | notes entry quiet =>
    rw [InOrder, entered_note_of_quiet quiet]
    exact hw
  | @enters i outside =>
    have hentered : ((w.setActive (w.active ++ [i])).log (.entered i (w.active.length + 1))).entered
        = w.entered ++ [i] := List.filterMap_append
    rw [InOrder, hentered, ← List.append_assoc]
    exact concat_sublist_dedup hw outside
  | leaves i =>
    have hdrop : dropInnermost w.active i <+ w.active :=
      List.reverse_sublist.1 (by simpa [dropInnermost] using List.erase_sublist)
    exact hdrop.trans hw
  | opens | grows | revises | issues | cancels | allocates | locks => exact hw

theorem Edits.inOrder (h : w.Edits p w') (hw : w.InOrder before) : w'.InOrder before :=
  h.preserves (fun _ _ hedit hw => hedit.inOrder hw) hw

theorem Stacked.nodup_active (h : w.Stacked alive) : w.active.Nodup := h.perm.nodup_iff.2 h.nodup

/-- A stack in order lists what is alive in the order of entrance. -/
theorem InOrder.active_eq (h : w.InOrder before) (hstacked : w.Stacked alive) :
    w.active = (before ++ w.entered).dedup.filter (· ∈ alive) := by
  rw [sublist_eq_filter h (List.nodup_dedup _)]
  exact List.filter_congr fun i _ => by simpa using hstacked.mem_iff

end World

/-! ## Sessions -/

namespace Session

variable {s : Session} {limits : Limits}

/-- The slots that have entered, as some reports tell. -/
def entrances (reports : List Report) : List SlotId :=
  reports.flatMap fun report => report.logs.filterMap LogEvent.entered?

theorem entered_eq_of_journal (journal : Journal) :
    journal.logs.filterMap LogEvent.entered? = journal.filterMap Entry.entered? := by
  rw [Journal.logs, List.filterMap_filterMap]
  refine List.filterMap_congr fun entry _ => ?_
  cases entry <;> rfl

/-- A step keeps the order of the active stack, and the report of the step tells what has entered. -/
theorem inOrder_report {before : List SlotId} (limits : Limits) (step : Step)
    (h : s.world.InOrder before) :
    (s.report p limits step).2.world.InOrder
      (before ++ (s.report p limits step).1.logs.filterMap LogEvent.entered?) := by
  have hstep := (edits_step p limits s step).inOrder h
  have hlogs : (s.report p limits step).1.logs.filterMap LogEvent.entered? =
      (s.step p limits step).2.world.entered := entered_eq_of_journal _
  rw [hlogs, World.InOrder]
  exact (List.append_nil (before ++ _)).symm ▸ hstep

theorem inOrder_after {before : List SlotId} (limits : Limits) (steps : List Step)
    (hjournal : s.world.journal = []) (h : s.world.InOrder before) :
    (s.after p limits steps).world.InOrder (before ++ entrances (s.reports p limits steps)) ∧
      (s.after p limits steps).world.journal = [] := by
  induction steps generalizing s before with
  | nil => exact ⟨by rwa [reports, entrances, List.flatMap_nil, List.append_nil], hjournal⟩
  | cons step steps ih =>
    have hrest := ih (s := (s.report p limits step).2) rfl (inOrder_report limits step h)
    rwa [List.append_assoc] at hrest

/-- What the active stack tells of the guards that are alive in a session, of which some slots have
    entered so far. -/
structure ListsGuards (p : Program) (limits : Limits) (entered : List SlotId) (s : Session) :
    Prop where
  /-- No slot is listed twice, and none is under two guards. -/
  once : s.world.active.Nodup ∧ s.inProgress.Nodup
  /-- The stack lists the slots of the guards that are alive, in the order in which they entered. -/
  order : s.world.active = entered.dedup.filter (· ∈ s.inProgress)
  alive : ∀ i, i ∈ s.world.active ↔ i ∈ s.guarded ∨ ∃ entry ∈ s.tasks.entries, i ∈ entry.2.held
  /-- And it does so at every point of every evaluation. -/
  evaluations : ∀ task others e₀ w₀ e w, s.Beside task others →
    Task.Begins p task s.world e₀ w₀ → Reaches p task.token e₀ w₀ e w →
      (e.held ++ others).Nodup ∧
        w.active = (entered ++ w.entered).dedup.filter (· ∈ e.held ++ others)
  /-- A slot under a live guard cannot enter; then the stack and the guards stay as they are. -/
  rejects : ∀ name slot, slot ∈ s.world.active →
    (∃ path, (s.report p limits (.enter name slot)).1.answer = .failed (.cycle path)) ∧
      (s.report p limits (.enter name slot)).2.world.active = s.world.active ∧
      (s.report p limits (.enter name slot)).2.guards = s.guards
  /-- A guard that is dropped takes its slot off the stack, and leaves the others in their order. -/
  leaves : ∀ name slot, s.guards.get? name = some slot → slot ∈ s.world.active ∧
    (s.report p limits (.leave name)).2.world.active = s.world.active.filter (· ≠ slot)
  /-- A task that is dropped takes its slots off the stack, and leaves the others in their order. -/
  drops : ∀ name task, s.tasks.get? name = some task → (∀ i ∈ task.held, i ∈ s.world.active) ∧
    (s.report p limits (.drop name)).2.world.active = s.world.active.filter (· ∉ task.held)
  /-- The stack is empty when no guard is alive. -/
  empty : s.guarded = [] → (∀ entry ∈ s.tasks.entries, entry.2.held = []) → s.world.active = []

theorem mem_inProgress {i : SlotId} :
    i ∈ s.inProgress ↔ i ∈ s.guarded ∨ ∃ entry ∈ s.tasks.entries, i ∈ entry.2.held := by
  rw [inProgress, List.mem_append, List.mem_flatMap, or_comm]

theorem Accounted.listsGuards {before : List SlotId} (h : s.Accounted p)
    (horder : s.world.InOrder before) (hjournal : s.world.journal = []) :
    s.ListsGuards p limits before where
  once := ⟨h.stacked.nodup_active, h.stacked.nodup⟩
  order := by
    have heq := horder.active_eq h.stacked
    rwa [World.entered, hjournal, List.filterMap_nil, List.append_nil] at heq
  alive i := h.stacked.mem_iff.trans mem_inProgress
  evaluations task others e₀ w₀ e w htask hbegins hreaches := by
    have hstacked := hreaches.stacked (hbegins.stacked (h.beside htask))
    exact ⟨hstacked.nodup, ((hbegins.edits.trans hreaches.edits).inOrder horder).active_eq hstacked⟩
  rejects name slot hslot := by
    have henter : s.world.enter slot = (.error (.cycle ((s.world.active ++ [slot]).map s.world.nameOf)),
        _) := if_pos hslot
    simp only [Session.report, Session.step, henter]
    exact ⟨⟨_, rfl⟩, rfl, trivial⟩
  leaves name slot hguard := by
    have hmem : slot ∈ s.guarded := by
      have hperm := (h.guards.perm_of_get? hguard).map Prod.snd
      exact hperm.mem_iff.2 List.mem_cons_self
    refine ⟨h.stacked.mem_iff.2 (mem_inProgress.2 (.inl hmem)), ?_⟩
    have hleave : (s.report p limits (.leave name)).2.world.active =
        dropInnermost s.world.active slot := by
      show (s.dropGuard name).world.active = _
      simp only [dropGuard, hguard]
      exact (s.world.vacates_leave slot).active
    rw [hleave, dropInnermost_eq_filter h.stacked.nodup_active]
  drops name task htask := by
    have hstacked := (h.of_get? htask).stacked
    refine ⟨fun i hi => hstacked.mem_iff.2 (List.mem_append_left _ hi), ?_⟩
    have hdrop : (s.report p limits (.drop name)).2.world.active =
        task.held.foldl dropInnermost s.world.active := by
      show (s.dropTask name).world.active = _
      simp only [Session.dropTask, htask, Task.drop]
      unfold Task.held
      cases task.suspended with
      | none => rfl
      | some e => exact (Access.active_release _ _).trans (s.world.vacates_leaveAll e.held).active
    rw [hdrop, foldl_dropInnermost_eq_filter h.stacked.nodup_active]
  empty hguards htasks := by
    refine List.eq_nil_iff_forall_not_mem.2 fun i hi => ?_
    rcases mem_inProgress.1 (h.stacked.mem_iff.1 hi) with hi | ⟨entry, hentry, hi⟩
    · exact absurd hi (hguards ▸ List.not_mem_nil)
    · exact absurd hi (htasks entry hentry ▸ List.not_mem_nil)

end Session

/-- The active stack lists the live guards. Take any program, memoizing or not, and any steps of a
    client: guards that enter and are dropped in any order, and requests that are polled, answered,
    cancelled or dropped in any order, several at once. In the state that they lead to, the active
    stack lists the slots under guards that are alive, those that the client holds and those of
    running computations, each once and in the order in which they have entered; the reports of the
    steps tell what has entered. The same holds at every point of every evaluation. A slot that is
    refused changes nothing, and a guard or a task that is dropped takes just its own slots off the
    stack. -/
theorem active_stack_lists_live_guards (p : Program) (limits : Session.Limits)
    (memoize traced : Bool) (steps : List Step) :
    ((Session.fresh memoize traced).after p limits steps).ListsGuards p limits
      (Session.entrances ((Session.fresh memoize traced).reports p limits steps)) := by
  have hfresh : (Session.fresh memoize traced).world.InOrder [] := List.nil_sublist _
  obtain ⟨horder, hjournal⟩ := Session.inOrder_after (p := p) limits steps rfl hfresh
  exact ((Session.accounted_fresh p memoize traced).after limits steps).listsGuards horder hjournal

/-- A task is parked between two guards, of which the first is dropped and entered anew. -/
def guardedSteps : List Step :=
  [.enter "outer" 7, .spawn "request" (.query .waiting "awaiting" .unit) none, .poll "request" 1,
    .enter "inner" 9, .leave "outer", .enter "again" 7]

theorem active_stack_lists_live_guards_late :
    Session.entrances ((Session.fresh true true).reports late ⟨40, 3⟩ guardedSteps) =
      [7, 0, 1, 9, 7] ∧
    ((Session.fresh true true).after late ⟨40, 3⟩ guardedSteps).world.active = [0, 1, 9, 7] ∧
    (∃ task, ((Session.fresh true true).after late ⟨40, 3⟩ guardedSteps).tasks.get? "request" =
      some task ∧ task.held = [1, 0]) ∧
    (((Session.fresh true true).after late ⟨40, 3⟩ guardedSteps).report late ⟨40, 3⟩
      (.drop "request")).2.world.active = [9, 7] := by
  have hlists := active_stack_lists_live_guards late ⟨40, 3⟩ true true guardedSteps
  have hentrances : Session.entrances ((Session.fresh true true).reports late ⟨40, 3⟩ guardedSteps) =
      [7, 0, 1, 9, 7] := rfl
  have hactive : ((Session.fresh true true).after late ⟨40, 3⟩ guardedSteps).world.active =
      [0, 1, 9, 7] := by
    rw [hlists.order, hentrances]
    rfl
  refine ⟨hentrances, hactive, ⟨_, rfl, rfl⟩, ?_⟩
  rw [(hlists.drops "request" _ rfl).2, hactive]
  rfl

end RedGreen
