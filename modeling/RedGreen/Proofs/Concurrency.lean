import Mathlib.Data.List.Flatten
import Mathlib.Data.List.Perm.Subperm
import RedGreen.Proofs.History
import RedGreen.Proofs.Overlap

set_option autoImplicit false

/-! # Overlapping writes poison nothing

A client of a session polls any number of tasks in any order, and writes, clears, cancels and drops
between the polls. The flights of a session are those of its tasks. Each step keeps the world steady
and the tasks fine (`Session.Fine.step`), so a request that is answered with a value while no
revision was issued since it began is answered as a system without a memory answers it
(`overlap_never_poisons`). -/

namespace RedGreen

open Evaluation

variable {p : Program} {use : Usages} {same : Indistinct}

/-! ## Things kept by name -/

namespace Named

variable {α β : Type}

/-- The parts of the thing of a name and of the things of other names. -/
theorem subperm_of_get? {n : Named α} {name : String} {a : α} (h : n.get? name = some a)
    (parts : α → List β) :
    List.Subperm (parts a ++ (n.erase name).entries.flatMap fun entry => parts entry.2)
      (n.entries.flatMap fun entry => parts entry.2) := by
  obtain ⟨entries⟩ := n
  simp only [get?, erase] at h ⊢
  induction entries with
  | nil => cases h
  | cons entry entries ih =>
    obtain ⟨key, b⟩ := entry
    by_cases hkey : key = name
    · subst hkey
      simp only [List.lookup_cons, beq_self_eq_true, Option.some.injEq] at h
      subst h
      simp only [List.flatMap_cons, List.filter_cons, bne_self_eq_false, Bool.false_eq_true, if_false]
      refine (List.subperm_append_left _).2 (List.Sublist.subperm ?_)
      exact List.filter_sublist.flatMap _
    · have hne : (name == key) = false := by simpa using Ne.symm hkey
      simp only [List.lookup_cons, hne] at h
      simp only [List.flatMap_cons, List.filter_cons, bne_iff_ne, ne_eq, hkey, not_false_eq_true,
        if_true]
      refine (List.perm_append_comm_assoc _ _ _).subperm.trans ?_
      exact (List.subperm_append_left _).2 (ih h)

end Named

/-! ## Fine sessions -/

/-- A subset of the flights, each once. -/
theorem World.Steady.of_subperm {w : World} {F F' : List Flight} (h : w.Steady p use same F)
    (hsub : F'.Subperm F) (kept : List SlotId) :
    w.Steady p use same F' ∧ w.Passes p use same F w F' kept := by
  obtain ⟨G, hperm, hsublist⟩ := id hsub
  refine h.mono hsub.subset ?_ kept
  exact (hperm.map Flight.slot).nodup_iff.1 (h.distinct.sublist (hsublist.map Flight.slot))

namespace Session

/-- The flights of all tasks. -/
def flights (s : Session) : List Flight := s.tasks.entries.flatMap fun entry => entry.2.flights

/-- The world of a session is steady, and the tasks are fine since some revisions. -/
structure Fine (p : Program) (use : Usages) (same : Indistinct) (since : String → Revision)
    (s : Session) : Prop where
  steady : s.world.Steady p use same s.flights
  tasks : ∀ name task, s.tasks.get? name = some task →
    task.Fine p use same s.world s.flights (since name)
  since_le : ∀ name, since name ≤ s.world.revision

variable {since : String → Revision} {s : Session}

/-- What is in flight besides a task. -/
def flightsBeside (s : Session) (name : String) : List Flight :=
  (s.tasks.erase name).entries.flatMap fun entry => entry.2.flights

theorem Fine.steady_of_get? (h : s.Fine p use same since) {name : String} {task : Task}
    (htask : s.tasks.get? name = some task) (kept : List SlotId) :
    s.world.Steady p use same (task.flights ++ s.flightsBeside name) ∧
      s.world.Passes p use same s.flights s.world (task.flights ++ s.flightsBeside name) kept :=
  h.steady.of_subperm (Named.subperm_of_get? htask Task.flights) kept

/-- A task is fine among its own flights and those beside it. -/
theorem Fine.task_of_get? (h : s.Fine p use same since) {name : String} {task : Task}
    (htask : s.tasks.get? name = some task) :
    task.Fine p use same s.world (task.flights ++ s.flightsBeside name) (since name) := by
  have hsub : task.flights ⊆ s.flights := fun f hf =>
    (Named.subperm_of_get? htask Task.flights).subset (List.mem_append_left _ hf)
  obtain ⟨-, hpasses⟩ := h.steady_of_get? htask (task.flights.map Flight.slot)
  exact (h.tasks name task htask).passes h.steady hpasses hsub fun f hf => List.mem_map_of_mem hf

/-- The other tasks stay fine. -/
theorem Fine.tasks_beside (h : s.Fine p use same since) {name other : String} (hne : other ≠ name)
    {task : Task} (htask : s.tasks.get? other = some task) {w : World} {F : List Flight}
    (hpasses : s.world.Passes p use same s.flights w F ((s.flightsBeside name).map Flight.slot)) :
    task.Fine p use same w F (since other) := by
  have hfine := h.tasks other task htask
  rw [← Named.get?_erase_of_ne s.tasks hne] at htask
  have hbeside : task.flights ⊆ s.flightsBeside name := by
    refine fun f hf => (Named.subperm_of_get? htask Task.flights).subset ?_
    exact List.mem_append_left _ hf
  have hall : s.flightsBeside name ⊆ s.flights :=
    (List.filter_sublist.flatMap fun entry : String × Task => entry.2.flights).subset
  exact hfine.passes h.steady hpasses (fun f hf => hall (hbeside hf))
    fun f hf => List.mem_map_of_mem (hbeside hf)

/-- The world changes and the tasks stay. -/
theorem Fine.of_passes (h : s.Fine p use same since) {s' : Session} (htasks : s'.tasks = s.tasks)
    (hs : s'.world.Steady p use same s.flights)
    (hpasses : s.world.Passes p use same s.flights s'.world s.flights (s.flights.map Flight.slot)) :
    s'.Fine p use same since := by
  have hflights : s'.flights = s.flights := by rw [flights, htasks, flights]
  refine ⟨by rwa [hflights], fun name task htask => ?_, fun name => ?_⟩
  · rw [htasks] at htask
    rw [hflights]
    refine (h.tasks name task htask).passes h.steady hpasses ?_ ?_
    · intro f hf
      refine (Named.subperm_of_get? htask Task.flights).subset ?_
      exact List.mem_append_left _ hf
    · intro f hf
      refine List.mem_map_of_mem ((Named.subperm_of_get? htask Task.flights).subset ?_)
      exact List.mem_append_left _ hf
  · exact Nat.le_trans (h.since_le name) hpasses.revision

/-- A task is forgotten and gives its slots up. -/
theorem Fine.erase (h : s.Fine p use same since) {s' : Session} {name : String}
    (htasks : s'.tasks = s.tasks.erase name)
    (hs : s'.world.Steady p use same (s.flightsBeside name))
    (hpasses : s.world.Passes p use same s.flights s'.world (s.flightsBeside name)
      ((s.flightsBeside name).map Flight.slot)) :
    s'.Fine p use same since := by
  have hflights : s'.flights = s.flightsBeside name := by rw [flights, htasks]; rfl
  refine ⟨by rwa [hflights], fun other task htask => ?_,
    fun other => Nat.le_trans (h.since_le other) hpasses.revision⟩
  rw [htasks] at htask
  rw [hflights]
  by_cases hne : other = name
  · rw [hne, Named.get?_erase_self] at htask
    cases htask
  · rw [Named.get?_erase_of_ne _ hne] at htask
    exact h.tasks_beside hne htask hpasses

/-- A task is kept in place of one of the same name. -/
theorem Fine.insert (h : s.Fine p use same since) {s' : Session} {name : String} {task : Task}
    (htasks : s'.tasks = s.tasks.insert name task)
    (hs : s'.world.Steady p use same (task.flights ++ s.flightsBeside name))
    (hpasses : s.world.Passes p use same s.flights s'.world (task.flights ++ s.flightsBeside name)
      ((s.flightsBeside name).map Flight.slot))
    (hfine : task.Fine p use same s'.world (task.flights ++ s.flightsBeside name) (since name)) :
    s'.Fine p use same since := by
  have hflights : s'.flights = task.flights ++ s.flightsBeside name := by
    rw [flights, htasks]
    rfl
  refine ⟨by rwa [hflights], fun other task' htask => ?_,
    fun other => Nat.le_trans (h.since_le other) hpasses.revision⟩
  rw [htasks] at htask
  rw [hflights]
  by_cases hne : other = name
  · subst hne
    rw [Named.get?_insert_self] at htask
    cases htask
    exact hfine
  · rw [Named.get?_insert_of_ne _ hne] at htask
    exact h.tasks_beside hne htask hpasses

@[simp] theorem tasks_tokenFor (s : Session) (name : Option String) :
    (s.tokenFor name).2.tasks = s.tasks := by
  unfold tokenFor
  split
  · rfl
  · split <;> rfl

theorem Fine.tokenFor (h : s.Fine p use same since) (name : Option String) :
    (s.tokenFor name).2.Fine p use same since := by
  have hworld := s.world_tokenFor name
  have htasks := s.tasks_tokenFor name
  refine h.of_passes htasks ?_ ?_
  · rw [hworld]
    exact h.steady
  · rw [hworld]
    exact .refl _ _ _

theorem Fine.dropTask (h : s.Fine p use same since) (name : String) :
    (s.dropTask name).Fine p use same since ∧
      s.world.revision ≤ (s.dropTask name).world.revision := by
  unfold Session.dropTask
  cases htask : s.tasks.get? name with
  | none => exact ⟨h, Nat.le_refl _⟩
  | some task =>
    obtain ⟨hs, hpasses⟩ := h.steady_of_get? htask ((s.flightsBeside name).map Flight.slot)
    obtain ⟨hs', hpasses'⟩ := drop_fine task hs
    exact ⟨h.erase rfl hs' (hpasses.trans hpasses'), (hpasses.trans hpasses').revision⟩

/-! ## Steps -/

end Session

/-- A step of a client that polls, writes, clears, cancels and drops as it likes. It uses identities
    as every other step does, and whatever it clears is not valid as of now: a task that clears may
    be made with any bound, which counts when the task is polled and gets past the entry lock. -/
def Step.Permitted (p : Program) (use : Usages) (s : Session) : Step → Prop
  | .perform request _ => request.Consistent p use ∧
    ∀ access before, request = .clear access before → before ≤ s.world.revision
  | .spawn _ request _ => request.Consistent p use
  | .poll name _ | .run name => ∀ task, s.tasks.get? name = some task → task.ClearsIssued s.world
  | .drop _ | .cancel _ => True
  | .clearCache query keyType valueType before =>
    (keyType = (use query).keyType ∧ valueType = (use query).valueType) ∧
      before ≤ s.world.revision
  | .clearSlot query valueType key before =>
    (key.type = (use query).keyType ∧ valueType = (use query).valueType) ∧
      before ≤ s.world.revision
  | _ => False

/-- A step carries a request as far as it can: one of its own, or the one of a named task. -/
inductive Step.Carries (s : Session) : Step → Request → Option String → Prop
  | perform (request : Request) (token : Option String) :
    Carries s (.perform request token) request none
  | poll {name : String} {task : Task} (times : Nat) (h : s.tasks.get? name = some task) :
    Carries s (.poll name times) task.request (some name)
  | run {name : String} {task : Task} (h : s.tasks.get? name = some task) :
    Carries s (.run name) task.request (some name)

namespace Session

variable {since : String → Revision} {s : Session}

/-- Since when a request that a step carries has been on its way. -/
def carriedSince (s : Session) (since : String → Revision) : Option String → Revision
  | none => s.world.revision
  | some name => since name

/-- What is right about a step: the session stays fine, and a value that the step answers is right,
    if no revision was issued since the request began. -/
def StepsWell (p : Program) (use : Usages) (same : Indistinct) (since : String → Revision)
    (s : Session) (step : Step) (out : Answer × Session) : Prop :=
  out.2.Fine p use same since ∧ s.world.revision ≤ out.2.world.revision ∧
    ∀ request name v, step.Carries s request name → out.1 = .reply (.value v) →
      s.carriedSince since name = out.2.world.revision → request.Right p out.2.world.inputs v

theorem value_of_ofResult {r : Except QueryError Reply} {v : Value}
    (h : Answer.ofResult r = .reply (.value v)) : r = .ok (.value v) := by
  cases r with
  | error e => cases h
  | ok reply =>
    cases h
    rfl

/-- A poll of a named task. -/
theorem Fine.afterPoll (h : s.Fine p use same since) {name : String} {task : Task}
    (htask : s.tasks.get? name = some task) {step : Step}
    (hcarries : ∀ request name', step.Carries s request name' → request = task.request ∧
      name' = some name) {out : Poll × World}
    (hout : Poll.Fine p use same s.world (task.flights ++ s.flightsBeside name)
      (s.flightsBeside name) (since name) task.request out) :
    StepsWell p use same since s step (s.afterPoll name out) := by
  obtain ⟨-, hpasses⟩ := h.steady_of_get? htask ((s.flightsBeside name).map Flight.slot)
  obtain ⟨poll, w⟩ := out
  cases poll with
  | ready answer =>
    obtain ⟨hs', hpasses', hright⟩ := hout
    refine ⟨h.erase rfl hs' (hpasses.trans hpasses'), (hpasses.trans hpasses').revision, ?_⟩
    intro request name' v hcarried hv hsince
    obtain ⟨rfl, rfl⟩ := hcarries request name' hcarried
    exact hright v (value_of_ofResult hv) hsince
  | pending woken task' =>
    obtain ⟨-, hs', hpasses', hfine, -⟩ := hout
    exact ⟨h.insert rfl hs' (hpasses.trans hpasses') hfine, (hpasses.trans hpasses').revision,
      fun _ _ _ _ hv => nomatch hv⟩

/-- A cache is opened, and what of it was last verified before some revision is dropped. -/
theorem Fine.clears (h : s.Fine p use same since) {step : Step} {before : Revision} {w w' : World}
    {answer : Answer} (hcarries : ∀ request name, ¬step.Carries s request name)
    (ht : Tidy p use w.toSystem)
    (hgrows : World.Grows s.world w) (hactive : w.active = s.world.active)
    (hbefore : before ≤ s.world.revision) (ht' : Tidy p use w'.toSystem)
    (hclears : World.Clears w before w') (hactive' : w'.active = w.active) :
    StepsWell p use same since s step (answer, { s with world := w' }) := by
  obtain ⟨hs₁, hpasses₁⟩ := h.steady.grows ht hgrows hactive (s.flights.map Flight.slot)
  obtain ⟨hs₂, hpasses₂⟩ := hs₁.clears ht' (hgrows.revision ▸ hbefore) hclears hactive'
    (s.flights.map Flight.slot)
  exact ⟨h.of_passes rfl hs₂ (hpasses₁.trans hpasses₂), (hpasses₁.trans hpasses₂).revision,
    fun _ _ _ hcarried => absurd hcarried (hcarries _ _)⟩

/-- A task is made, and nothing of it has begun. -/
theorem Fine.spawn (limits : Limits) (h : s.Fine p use same since) (name : String)
    {request : Request} (token : Option String) (hconsistent : request.Consistent p use) :
    StepsWell p use same since s (.spawn name request token)
      (s.step p limits (.spawn name request token)) := by
  obtain ⟨hdropped, hrevision⟩ := h.dropTask name
  have hfine := hdropped.tokenFor token
  rw [← (s.dropTask name).world_tokenFor token] at hrevision
  refine ⟨?_, hrevision, fun _ _ _ hcarried => by cases hcarried⟩
  simp only [Session.step]
  generalize (s.dropTask name).tokenFor token = out at hfine hrevision
  obtain ⟨t, s₁⟩ := out
  have hbeside : (s₁.flightsBeside name).Subperm s₁.flights :=
    (List.filter_sublist.flatMap _).subperm
  obtain ⟨hs', hpasses⟩ := hfine.steady.of_subperm hbeside
    ((s₁.flightsBeside name).map Flight.slot)
  exact hfine.insert rfl hs' hpasses ⟨hconsistent, fun _ he => by cases he⟩

variable (hp : p.Pure use same True) (htr : ∀ label key, Transparent ((p label).body key))
include hp htr

/-- A request is carried as far as it can be, and given up if it is not answered then. -/
theorem Fine.perform (limits : Limits) (h : s.Fine p use same since) {request : Request}
    (token : Option String) (hconsistent : request.Consistent p use)
    (hclears : ∀ access before, request = .clear access before → before ≤ s.world.revision) :
    StepsWell p use same since s (.perform request token)
      (s.step p limits (.perform request token)) := by
  have hworld := s.world_tokenFor token
  have htasks := s.tasks_tokenFor token
  simp only [Session.step]
  generalize s.tokenFor token = out at hworld htasks
  obtain ⟨t, s₁⟩ := out
  simp only at hworld htasks
  have hfine : Task.Fine p use same s.world s.flights s.world.revision { request, token := t } :=
    ⟨hconsistent, fun _ he => by cases he⟩
  have hrun : Poll.Fine p use same s.world s.flights s.flights s.world.revision request
      (Task.run p limits.steps limits.polls { request, token := t } s.world) :=
    run_fine hp htr limits.steps limits.polls h.steady hfine
      (fun access before _ _ heq _ => hclears access before heq) (Nat.le_refl _)
  rw [hworld]
  generalize Task.run p limits.steps limits.polls { request, token := t } s.world = ended at hrun
  obtain ⟨poll, w⟩ := ended
  cases poll with
  | ready answer =>
    obtain ⟨hs', hpasses, hright⟩ := hrun
    refine ⟨h.of_passes htasks hs' hpasses, hpasses.revision, ?_⟩
    intro request' name v hcarried hv hsince
    cases hcarried
    exact hright v (value_of_ofResult hv) hsince
  | pending woken task =>
    obtain ⟨-, hs', hpasses, -⟩ := hrun
    obtain ⟨hs'', hpasses'⟩ := drop_fine task hs'
    exact ⟨h.of_passes htasks hs'' (hpasses.trans hpasses'), (hpasses.trans hpasses').revision,
      fun _ _ _ _ hv => by cases hv⟩

theorem Fine.step (limits : Limits) {step : Step} (h : s.Fine p use same since)
    (hstep : step.Permitted p use s) :
    StepsWell p use same since s step (s.step p limits step) := by
  cases step with
  | perform request token => exact h.perform hp htr limits token hstep.1 hstep.2
  | spawn name request token => exact h.spawn limits name token hstep
  | poll name times =>
    simp only [Session.step]
    cases htask : s.tasks.get? name with
    | none => exact ⟨h, Nat.le_refl _, fun _ _ _ _ hv => by cases hv⟩
    | some task =>
      obtain ⟨hs, -⟩ := h.steady_of_get? htask []
      refine h.afterPoll htask ?_ (pollTimes_fine hp htr limits.steps (max 1 times) hs
        (h.task_of_get? htask) (hstep task htask) (h.since_le name))
      rintro _ _ (_ | ⟨_, htask'⟩ | _)
      cases htask.symm.trans htask'
      exact ⟨rfl, rfl⟩
  | run name =>
    simp only [Session.step]
    cases htask : s.tasks.get? name with
    | none => exact ⟨h, Nat.le_refl _, fun _ _ _ _ hv => by cases hv⟩
    | some task =>
      obtain ⟨hs, -⟩ := h.steady_of_get? htask []
      refine h.afterPoll htask ?_ (run_fine hp htr limits.steps limits.polls hs
        (h.task_of_get? htask) (hstep task htask) (h.since_le name))
      rintro _ _ (_ | _ | htask')
      cases htask.symm.trans htask'
      exact ⟨rfl, rfl⟩
  | drop name =>
    obtain ⟨hdropped, hrevision⟩ := h.dropTask name
    exact ⟨hdropped, hrevision, fun _ _ _ hcarried => by cases hcarried⟩
  | cancel token =>
    have hfine := h.tokenFor (some token)
    obtain ⟨hs', hpasses⟩ := hfine.steady.cancel (s.tokenFor (some token)).1
      ((s.tokenFor (some token)).2.flights.map Flight.slot)
    refine ⟨hfine.of_passes rfl hs' hpasses, ?_, fun _ _ _ hcarried => by cases hcarried⟩
    exact Nat.le_of_eq (congrArg (·.revision) (s.world_tokenFor (some token)).symm)
  | clearCache query keyType valueType before =>
    obtain ⟨htypes, hbefore⟩ := hstep
    obtain ⟨w, hopen, ht, hgrows, -, hactive, -⟩ :=
      World.openCache_spec h.steady.tidy htypes.1 htypes.2
    obtain ⟨ht', hclears⟩ := World.clearCache_spec ht query before
    simp only [Session.step, hopen]
    refine h.clears (fun _ _ hcarried => ?_) ht hgrows hactive hbefore ht' hclears rfl
    cases hcarried
  | clearSlot query valueType key before =>
    obtain ⟨htypes, hbefore⟩ := hstep
    obtain ⟨w, hopen, ht, hgrows, -, hactive, -⟩ :=
      World.openCache_spec h.steady.tidy htypes.1 htypes.2
    obtain ⟨ht', hclears, hactive', -⟩ := World.clearSlot_spec ht query key before
    simp only [Session.step, hopen]
    refine h.clears (fun _ _ hcarried => ?_) ht hgrows hactive hbefore ht' hclears hactive'
    cases hcarried
  | lookAtToken | enter | leave | stack | slots | describe | stamps | debug | resultsFor | takeEvents
  | cache | makeInput | inspect | gatherDeps => exact hstep.elim

/-! ## Runs of a session -/

omit hp htr in
/-- Handing out the journal changes nothing that a step depends on. -/
theorem Fine.reported (h : s.Fine p use same since) (c : Collector) :
    Fine p use same since { s with world := { s.world with journal := [] }, collector := c } := by
  have halters : s.world.Alters { s.world with journal := [] } := ⟨rfl, rfl, rfl, rfl, rfl, rfl⟩
  obtain ⟨hs', hpasses⟩ := h.steady.alters halters (s.flights.map Flight.slot)
  exact h.of_passes rfl hs' hpasses

end Session

/-- Where permitted steps lead. -/
inductive Session.Leads (p : Program) (use : Usages) (limits : Session.Limits) :
    Session → Session → Prop
  | refl (s : Session) : Leads p use limits s s
  | step {s s' : Session} {step : Step} (h : Leads p use limits s s')
    (hstep : step.Permitted p use s') : Leads p use limits s (s'.report p limits step).2

namespace Session

variable {since : String → Revision} {s s' : Session} {limits : Limits}

theorem Leads.fine (hp : p.Pure use same True)
    (htr : ∀ label key, Transparent ((p label).body key)) (h : Leads p use limits s s')
    (hfine : s.Fine p use same since) :
    s'.Fine p use same since ∧ s.world.revision ≤ s'.world.revision := by
  induction h with
  | refl => exact ⟨hfine, Nat.le_refl _⟩
  | step _ hstep ih =>
    obtain ⟨hfine', hle⟩ := ih
    obtain ⟨hfine'', hle', -⟩ := hfine'.step hp htr limits hstep
    exact ⟨hfine''.reported _, Nat.le_trans hle hle'⟩

/-- The session after some steps. -/
def after (p : Program) (limits : Limits) (s : Session) (steps : List Step) : Session :=
  steps.foldl (fun s step => (s.report p limits step).2) s

/-- In a new session nothing is in flight and nothing is kept. -/
theorem fine_fresh (traced : Bool) :
    (Session.fresh true traced).Fine p use same fun _ => .never := by
  have hsound : ({ memoize := true } : World).Sound p use same := World.sound_new true rfl
  refine ⟨⟨hsound.tidy, hsound.memoize, ?_, .nil, ?_, ?_, ?_⟩, ?_, fun _ => Nat.zero_le _⟩
  · exact fun f hf => absurd hf List.not_mem_nil
  · exact fun i m hm => (hsound.justified i m hm).changed_le
  · exact fun i m hm => (hsound.justified i m hm).verified_le
  · intro i m hm
    cases hm
  · intro name task htask
    cases htask

/-- A system without a memory, idle and free, that holds the same inputs. -/
def plainly (s : Session) : Session where
  world := { s.world with memoize := false, active := [], cancelled := [], entryLocked := false }

end Session

/-! ## Right answers are plain answers -/

/-- What a request is right to answer, a system without a memory answers. -/
theorem Request.Right.run_plainly (hp : p.Pure use same True) {w : World}
    (ht : Tidy p use w.toSystem) (hmemoize : w.memoize = false) (hidle : w.active = [])
    (hfree : w.entryLocked = false) {t : Token} (huncancelled : t ∉ w.cancelled) {request : Request}
    (hconsistent : request.Consistent p use) {v : Value} (hright : request.Right p w.inputs v) :
    ∃ bound w' v', (∀ budget polls, bound ≤ budget → bound ≤ polls →
        Task.run p budget polls { request, token := t } w = (.ready (.ok (.value v')), w')) ∧
      v.Alike v' := by
  obtain ⟨w₁, hentry, halters, -⟩ := request.access.admission_of_unlocked false hfree
  have ht₁ := halters.tidy ht
  have hbegins := Request.begin_spec hp.consistent ht₁ hconsistent
  rw [← halters.inputs] at hright
  -- the evaluation of a body that yields the value
  have hevaluates {i : SlotId} {label : Label} {key : Key} {w₂ : World}
      (hbegin : request.begin p w₁ = (.evaluating (.request i), w₂))
      (hfinds : w₁.Finds p use (p.node label key) i w₂)
      (hvalue : ∀ stamped, request.replyOf stamped = .value stamped.value)
      (hyields : YieldsAlike p w₁.inputs label key v) :
      ∃ bound w' v', (∀ budget polls, bound ≤ budget → bound ≤ polls →
          Task.run p budget polls { request, token := t } w = (.ready (.ok (.value v')), w')) ∧
        v.Alike v' := by
    obtain ⟨n, u, hu, halike⟩ := hyields
    have hplain : w₂.Plain p use t w₁.inputs := by
      refine ⟨hfinds.tidy, ?_, ?_, hfinds.inputs ht₁ hfinds.tidy⟩
      · rw [hfinds.memoize, halters.memoize, hmemoize]
      · rwa [hfinds.cancelled, halters.cancelled]
    have hidle₂ : w₂.active = [] := by rw [hfinds.active, halters.active, hidle]
    obtain ⟨result, w', ⟨k, hk⟩, hanswer⟩ := (hu.evaluates_alone hp).request_finishes_plainly hp
      hplain hidle₂ (hfinds.tidy.keyType hfinds.found) hfinds.found
    obtain ⟨stamped, rfl, hstamped⟩ := hanswer.agree.of_ok_right
    refine ⟨k + 1, request.access.release w', stamped.value, ?_, halike.2.trans hstamped.2.symm⟩
    intro budget polls hbudget hpolls
    obtain ⟨polls, rfl⟩ : ∃ n, polls = n + 1 := ⟨polls - 1, by omega⟩
    rw [Task.run_of_begin rfl hentry hbegin, Task.run_of_finishes { request, token := t } hk
      (by omega) (by omega)]
    simp only [Except.map, hvalue]
  generalize hout : request.begin p w₁ = out at hbegins
  cases hbegins with
  | query finds => exact hevaluates hout finds (fun _ => rfl) hright
  | derive finds => exact hevaluates hout finds (fun _ => rfl) hright
  | @read query valueType key reply w₂ agree tidy grows active entryLocked =>
    obtain ⟨u, hu, halike⟩ := hright
    rw [Inputs.answer, hu] at agree
    obtain ⟨v', rfl, hv'⟩ := agree.of_ok_right
    refine ⟨1, w₂, v', fun budget polls _ hpolls => ?_, halike.trans hv'.symm⟩
    obtain ⟨polls, rfl⟩ := Nat.exists_eq_add_of_le' hpolls
    exact Task.run_of_answered rfl hentry hout
  | write | prepare | touch | untouched | clear => exact hright.elim

namespace Session

variable {since : String → Revision} {s s' : Session} {limits : Limits}

/-- A step that carries a request of a fine session carries one that is used as its identity is. -/
theorem Fine.consistent (h : s.Fine p use same since) {step : Step}
    (hstep : step.Permitted p use s) {request : Request} {name : Option String}
    (hcarries : step.Carries s request name) : request.Consistent p use := by
  cases hcarries with
  | perform token => exact hstep.1
  | poll times htask => exact (h.tasks _ _ htask).consistent
  | run htask => exact (h.tasks _ _ htask).consistent

end Session

/-- A computation that overlaps a write never poisons what is kept. Take a program whose bodies
    depend only on what they read, hand on the errors of their calls, wait for their calls and may
    yield anywhere, and whose equalities for early cutoff hold of values only that no body can tell
    apart. However tasks are polled, and whatever is written, cleared, cancelled and dropped between
    the polls: if a request that had not begun in `s₁` is answered with a value by a step after `s₂`,
    and if no revision was issued in between, then a system without a memory gives the same answer on
    the same inputs. -/
theorem overlap_never_poisons (hp : p.Pure use same True)
    (htr : ∀ label key, Transparent ((p label).body key)) {limits : Session.Limits} {traced : Bool}
    {s₁ s₂ : Session} (h₁ : Session.Leads p use limits (.fresh true traced) s₁)
    (h₂ : Session.Leads p use limits s₁ s₂) {step : Step} (hstep : step.Permitted p use s₂)
    {request : Request} {name : Option String} (hcarries : step.Carries s₂ request name)
    (hunbegun : ∀ n task, name = some n → s₁.tasks.get? n = some task → task.suspended = none)
    {v : Value} (hanswer : (s₂.report p limits step).1.answer = .reply (.value v))
    (hunwritten : (s₂.report p limits step).1.revision = s₁.world.revision) :
    ∃ bound, ∀ limits' : Session.Limits, bound ≤ limits'.steps → bound ≤ limits'.polls →
      ∃ v', v.Alike v' ∧
        ((s₂.report p limits step).2.plainly.report p limits' (.perform request none)).1.answer =
          .reply (.value v') := by
  have hfresh : (Session.fresh true traced).Fine p use same fun _ => .never :=
    Session.fine_fresh traced
  obtain ⟨hfine₁, -⟩ := h₁.fine hp htr hfresh
  -- the task that carries the request is fine since the first session
  let since (n : String) : Revision := if name = some n then s₁.world.revision else .never
  have hsince₁ : s₁.Fine p use same since := by
    refine ⟨hfine₁.steady, fun n task htask => ?_, fun n => ?_⟩
    · have hfine := hfine₁.tasks n task htask
      refine ⟨hfine.consistent, fun e he => ?_⟩
      by_cases hname : name = some n
      · rw [hunbegun n task hname htask] at he
        cases he
      · simp only [since, if_neg hname]
        exact hfine.underWay e he
    · by_cases hname : name = some n
      · simp only [since, if_pos hname]
        exact Nat.le_refl _
      · simp only [since, if_neg hname]
        exact Nat.zero_le _
  obtain ⟨hfine₂, hle₂⟩ := h₂.fine hp htr hsince₁
  obtain ⟨hfine₃, hle₃, hright⟩ := hfine₂.step hp htr limits hstep
  have hrevision : (s₂.step p limits step).2.world.revision = s₁.world.revision := hunwritten
  have hcarried : s₂.carriedSince since name = (s₂.step p limits step).2.world.revision := by
    rw [hrevision]
    cases name with
    | none => exact Nat.le_antisymm (hrevision ▸ hle₃) hle₂
    | some n => simp only [Session.carriedSince, since, if_pos]
  have hvalue := hright request name v hcarries hanswer hcarried
  have ht : Tidy p use (s₂.report p limits step).2.plainly.world.toSystem :=
    hfine₃.steady.tidy.of_eq rfl rfl
  obtain ⟨bound, w', v', hrun, halike⟩ := hvalue.run_plainly hp ht rfl rfl rfl
    (t := ((s₂.report p limits step).2.plainly.tokenFor none).1) List.not_mem_nil
    (hfine₂.consistent hstep hcarries)
  refine ⟨bound, fun limits' hsteps hpolls => ⟨v', halike, ?_⟩⟩
  simp only [Session.report, Session.step, Session.world_tokenFor] at hrun ⊢
  rw [hrun limits'.steps limits'.polls hsteps hpolls]
  rfl

/-! ## A computation that a write overlaps -/

/-- Adds an input, which is read after a pause, to the value of a call. -/
def thenAddInput : Except QueryError Value → Body
  | .ok (.int m) => .yield (.perform (.read ⟨"x"⟩ .int .unit) (thenInteger fun n => m + n))
  | .ok _ => .done (.ok (.int 0))
  | .error e => .done (.error e)

/-- Twice an input, and the input again. -/
def thriceQuery : Query where
  id := ⟨"thrice"⟩
  valueType := .int
  equality := Equality.content.same
  body := fun _ => .call .awaited "twice" .unit thenAddInput

/-- A program in which a write can come between the two reads of an input. -/
def thrice : Program := either "twice" twiceQuery thriceQuery

theorem thrice_pure : thrice.Pure integerUses sameInteger True := by
  refine either_pure "twice" ⟨rfl, rfl, by simp [twiceQuery]⟩ ⟨rfl, rfl, by simp [thriceQuery]⟩
    (by simp [twiceQuery, thriceQuery]) (fun key => ?_) fun key => ?_
  · exact .read rfl fun r r' h => lawful_thenInteger _ (h.mono fun _ _ => sameInteger_of_alikeOf)
  · refine .call rfl (fun _ => rfl) fun r r' h => ?_
    cases h with
    | ok h =>
      obtain ⟨hv, rfl⟩ := h
      rename_i v
      cases v <;> cases hv
      refine .yield trivial (.read rfl fun r r' h => lawful_thenInteger _ (h.mono fun _ _ => ?_))
      exact sameInteger_of_alikeOf
    | error e => exact .done (.error e)

theorem thrice_transparent (label : Label) (key : Key) :
    Transparent ((thrice label).body key) := by
  refine either_cases "twice" (fun query => Transparent (query.body key)) ?_ ?_ label
  · exact .perform (transparent_thenInteger _)
  · refine .call (fun e => rfl) fun v => ?_
    cases v with
    | int m => exact .yield (.perform (transparent_thenInteger _))
    | str | bool | float | res | list => exact .done _

/-- A query is parked after it has read the input once; then the input is written, and the query
    goes on to its end. -/
def thriceSteps : List Step :=
  [.perform (.write .blocking ⟨"x"⟩ .unit (.int 5)) none,
    .spawn "early" (.query .free "thrice" .unit) none,
    .poll "early" 1,
    .perform (.write .waiting ⟨"x"⟩ .unit (.int 7)) none,
    .poll "early" 1]

theorem thriceSteps_lead :
    Session.Leads thrice integerUses ⟨40, 3⟩ (.fresh true true)
      ((Session.fresh true true).after thrice ⟨40, 3⟩ thriceSteps) := by
  have hwrite (access : Access) (n : Int) (s : Session) :
      Step.Permitted thrice integerUses s
        (.perform (.write access ⟨"x"⟩ .unit (.int n)) none) :=
    ⟨by simp [Request.Consistent, integerUses, Key.type, Value.type], fun _ _ h => by cases h⟩
  have hspawn (s : Session) :
      Step.Permitted thrice integerUses s (.spawn "early" (.query .free "thrice" .unit) none) := rfl
  have hpoll (s : Session) (hquery : (s.tasks.get? "early").map Task.request =
      some (.query .free "thrice" .unit)) :
      Step.Permitted thrice integerUses s (.poll "early" 1) := by
    intro task htask access before w' _ hclear _
    rw [htask, Option.map_some, Option.some.injEq, hclear] at hquery
    cases hquery
  exact (((((Session.Leads.refl _).step (hwrite .blocking 5 _)).step (hspawn _)).step
    (hpoll _ rfl)).step (hwrite .waiting 7 _)).step (hpoll _ rfl)

theorem overlap_never_poisons_thrice :
    ∃ bound, ∀ limits' : Session.Limits, bound ≤ limits'.steps → bound ≤ limits'.polls →
      ∃ v', Value.Alike (.int 21) v' ∧
        ((((Session.fresh true true).after thrice ⟨40, 3⟩ thriceSteps).report thrice ⟨40, 3⟩
          (.perform (.query .free "thrice" .unit) none)).2.plainly.report thrice limits'
          (.perform (.query .free "thrice" .unit) none)).1.answer = .reply (.value v') := by
  have hstep (s : Session) :
      Step.Permitted thrice integerUses s (.perform (.query .free "thrice" .unit) none) :=
    ⟨rfl, nofun⟩
  have hanswer : (((Session.fresh true true).after thrice ⟨40, 3⟩ thriceSteps).report thrice ⟨40, 3⟩
      (.perform (.query .free "thrice" .unit) none)).1.answer = .reply (.value (.int 21)) := rfl
  have hafter : ((Session.fresh true true).after thrice ⟨40, 3⟩ thriceSteps).world.revision = 3 := rfl
  have hreport : (((Session.fresh true true).after thrice ⟨40, 3⟩ thriceSteps).report thrice ⟨40, 3⟩
      (.perform (.query .free "thrice" .unit) none)).1.revision = 3 := rfl
  exact overlap_never_poisons thrice_pure thrice_transparent thriceSteps_lead (.refl _) (hstep _)
    (.perform _ none) (fun _ _ hnone => nomatch hnone) hanswer (hreport.trans hafter.symm)

end RedGreen
