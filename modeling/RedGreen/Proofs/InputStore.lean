import RedGreen.Proofs.Conflicts
import RedGreen.Proofs.Serial
import RedGreen.Proofs.Stamps
import RedGreen.Proofs.Turns

set_option autoImplicit false

/-! # The inputs are a store of last writes

A write is committed by the one poll that gets past the entry lock, if the cache and the slot that it
asks for can be had: then it is answered with the revision issued for it (`Commit`). In all other
cases it leaves the system as it was. Nothing else issues a revision or changes an input. So the
commits of a session tell its revision and all its inputs: an input holds the value of the last commit
to its node, and bears the revision of that commit as its stamps, at every point of every evaluation
(`writes_are_committed_once`). -/

namespace RedGreen

open Evaluation

variable {p : Program} {t : Token} {w w' w'' : World}

/-! ## Commits -/

/-- A write that was committed: the value, as it was stored, and the revision issued for it. -/
structure Commit where
  node : Node
  value : Value
  revision : Revision
deriving DecidableEq, Repr

/-- What a commit leaves in its input slot. -/
def Commit.stamped (c : Commit) : Stamped := ⟨c.value, c.revision⟩

/-- The last of some commits to a node. -/
def Commit.lastTo (commits : List Commit) (n : Node) : Option Commit :=
  commits.reverse.find? (·.node = n)

theorem Commit.lastTo_concat (commits : List Commit) (c : Commit) (n : Node) :
    Commit.lastTo (commits ++ [c]) n = if c.node = n then some c else Commit.lastTo commits n := by
  rw [lastTo, List.reverse_append, List.reverse_singleton, List.singleton_append, List.find?_cons]
  by_cases h : c.node = n
  · simp [h]
  · simp [h, lastTo]

theorem Commit.mem_of_lastTo {commits : List Commit} {n : Node} {c : Commit}
    (h : Commit.lastTo commits n = some c) : c ∈ commits ∧ c.node = n :=
  ⟨List.mem_reverse.1 (List.mem_of_find?_eq_some h), by simpa using List.find?_some h⟩

namespace World

/-- An input was written, and this is what it holds. -/
def LastWritten (w : World) (n : Node) (x : Stamped) : Prop :=
  ∃ i, w.node? i = some n ∧ w.written? i = some x

/-- No revision was issued, and no input is another one. -/
structure KeepsInputs (w w' : World) : Prop where
  revision : w'.revision = w.revision
  written : ∀ i, w'.written? i = w.written? i

/-- A write was committed: one revision was issued for it, its value is stored under that revision in
    the slot of its node, and no other input is another one. -/
structure Receives (w : World) (c : Commit) (w' : World) : Prop where
  revision : w'.revision = w.revision.next
  issued : c.revision = w.revision.next
  cache : w'.cache? c.node.query = some ⟨c.node.query, c.node.key.type, c.value.type⟩
  stored : ∃ i, w'.node? i = some c.node ∧ w'.written? i = some c.stamped ∧
    ∀ j, j ≠ i → w'.written? j = w.written? j

theorem KeepsInputs.refl (w : World) : w.KeepsInputs w := ⟨rfl, fun _ => rfl⟩

theorem KeepsInputs.trans (h : w.KeepsInputs w') (h' : w'.KeepsInputs w'') : w.KeepsInputs w'' :=
  ⟨h'.revision.trans h.revision, fun i => (h'.written i).trans (h.written i)⟩

theorem Persists.keepsInputs (h : w.Persists w') : w.KeepsInputs w' := ⟨h.revision, h.written⟩

theorem Drops.keepsInputs (h : w.Drops w') : w.KeepsInputs w' := ⟨h.revision, h.written⟩

theorem Untouched.keepsInputs (h : w.Untouched w') : w.KeepsInputs w' :=
  ⟨h.revision, fun i => by rw [System.written?, System.written?, h.slots]⟩

/-- Nobody has touched the system before a write was committed. -/
theorem Untouched.receives {c : Commit} (h : w.Untouched w') (hreceives : w'.Receives c w'') :
    w.Receives c w'' where
  revision := hreceives.revision.trans (congrArg Revision.next h.revision)
  issued := hreceives.issued.trans (congrArg Revision.next h.revision)
  cache := hreceives.cache
  stored := by
    obtain ⟨i, hi, hself, hothers⟩ := hreceives.stored
    exact ⟨i, hi, hself, fun j hj => (hothers j hj).trans (h.keepsInputs.written j)⟩

/-- Nobody touches the system after a write was committed. -/
theorem Receives.untouched {c : Commit} (hreceives : w.Receives c w') (h : w'.Untouched w'') :
    w.Receives c w'' where
  revision := h.revision.trans hreceives.revision
  issued := hreceives.issued
  cache := by
    rw [System.cache?, h.caches]
    exact hreceives.cache
  stored := by
    obtain ⟨i, hi, hself, hothers⟩ := hreceives.stored
    refine ⟨i, ?_, (h.keepsInputs.written i).trans hself,
      fun j hj => (h.keepsInputs.written j).trans (hothers j hj)⟩
    rw [System.node?_eq, System.nodes, h.slots, ← System.nodes, ← System.node?_eq]
    exact hi

/-! ## What is written in other worlds -/

theorem exists_node?_of_written? {i : SlotId} {x : Stamped} (h : w.written? i = some x) :
    ∃ n, w.node? i = some n := by
  obtain ⟨slot, hslot, -⟩ := Option.bind_eq_some_iff.1 h
  exact ⟨slot.node, System.node?_eq_some.2 ⟨slot, hslot, rfl, rfl⟩⟩

/-- A cache stays the cache of its identity. -/
theorem Continues.cache? (h : w.Continues w') {query : QueryId} {cache : Cache}
    (hcache : w.cache? query = some cache) : w'.cache? query = some cache := by
  obtain ⟨more, hmore⟩ := h.caches
  rw [System.cache?, ← hmore, List.find?_append, show w.caches.find? _ = _ from hcache]
  rfl

/-- Where no input is another one, the same is written to the same nodes. -/
theorem KeepsInputs.lastWritten (h : w.KeepsInputs w') (hcontinues : w.Continues w') {n : Node}
    {x : Stamped} : w'.LastWritten n x ↔ w.LastWritten n x := by
  constructor
  · rintro ⟨i, hi, hx⟩
    have hbefore := (h.written i).symm.trans hx
    obtain ⟨m, hm⟩ := exists_node?_of_written? hbefore
    obtain rfl := Option.some.inj ((hcontinues.node? hm).symm.trans hi)
    exact ⟨i, hm, hbefore⟩
  · rintro ⟨i, hi, hx⟩
    exact ⟨i, hcontinues.node? hi, (h.written i).trans hx⟩

/-- After a commit, its node holds its value, and the others what they held. -/
theorem Receives.lastWritten {c : Commit} (h : w.Receives c w') (hcontinues : w.Continues w')
    (hdir : w'.InDirectory p) {n : Node} {x : Stamped} :
    w'.LastWritten n x ↔ if c.node = n then x = c.stamped else w.LastWritten n x := by
  obtain ⟨i, hi, hself, hothers⟩ := h.stored
  by_cases hn : c.node = n
  · subst hn
    rw [if_pos rfl]
    constructor
    · rintro ⟨j, hj, hx⟩
      obtain rfl := hdir.distinct hi hj
      exact Option.some.inj (hx.symm.trans hself)
    · rintro rfl
      exact ⟨i, hi, hself⟩
  · rw [if_neg hn]
    constructor
    · rintro ⟨j, hj, hx⟩
      have hne : j ≠ i := by
        rintro rfl
        exact hn (Option.some.inj (hi.symm.trans hj))
      have hbefore := (hothers j hne).symm.trans hx
      obtain ⟨m, hm⟩ := exists_node?_of_written? hbefore
      obtain rfl := Option.some.inj ((hcontinues.node? hm).symm.trans hj)
      exact ⟨j, hm, hbefore⟩
    · rintro ⟨j, hj, hx⟩
      have hj' := hcontinues.node? hj
      have hne : j ≠ i := by
        rintro rfl
        exact hn (Option.some.inj (hi.symm.trans hj'))
      exact ⟨j, hj', (hothers j hne).trans hx⟩

/-! ## Writes -/

/-- A slot cannot be had only if the world conflicts with what is asked for. -/
theorem conflicts_of_slotFor {valueType : ValueType} {fresh : Slot} {e : QueryError}
    (h : w.slotFor valueType fresh = (.error e, w')) :
    w.Conflicts (.slot fresh.query valueType fresh.key fresh.kind) := by
  unfold slotFor at h
  split at h
  · rename_i hopen
    unfold openCache at hopen
    split at hopen
    · split at hopen
      · cases hopen
      · exact .types ‹_› ‹_›
    · cases hopen
  · rename_i w₁ hopen
    have hslots : w₁.slots = w.slots := by
      unfold openCache at hopen
      split at hopen
      · split at hopen <;> cases hopen
        rfl
      · cases hopen
        rfl
    unfold obtain at h
    split at h
    · rename_i i hfound
      split at h
      · cases h
      · rename_i hkind
        refine .kind rfl (i := i) ?_ ?_
        · rwa [System.find?, hslots] at hfound
        · rwa [System.kind?, hslots] at hkind
    · cases h

/-- A slot that was had is in a cache of its types. -/
theorem cache?_of_slotFor {valueType : ValueType} {fresh : Slot} {i : SlotId}
    (h : w.slotFor valueType fresh = (.ok i, w')) :
    w'.cache? fresh.query = some ⟨fresh.query, fresh.key.type, valueType⟩ := by
  unfold slotFor at h
  split at h
  · cases h
  · rename_i w₁ hopen
    have hcache := cache?_of_openCache hopen
    unfold obtain at h
    split at h
    · split at h <;> cases h
      exact hcache
    · cases h
      exact hcache

/-- The value that is stored by a write. -/
theorem fst_ownCopy_of_allocations (h : w'.allocations = w.allocations) (value : Value) :
    (w'.ownCopy value).1 = (w.ownCopy value).1 := by
  unfold ownCopy allocate
  rw [h]
  split <;> rfl

end World

/-- A write either meets a conflict, and is answered by the error, or is committed. -/
theorem Request.begin_write (hdir : w.InDirectory p) (access : Access) (query : QueryId) (key : Key)
    (value : Value) :
    (∃ w', (Request.write access query key value).begin p w =
        (.answered (.error (.kindMismatch query)), w') ∧ w.Untouched w') ∨
      ∃ w', (Request.write access query key value).begin p w =
          (.answered (.ok (.revision w.revision.next)), w') ∧
        w.Receives ⟨⟨query, key⟩, (w.ownCopy value).1, w.revision.next⟩ w' := by
  have hown : w.Untouched (w.ownCopy value).2 := .of_toSystem (w.toSystem_ownCopy value)
  cases hslot : (w.ownCopy value).2.inputSlot query (w.ownCopy value).1.type key with
  | mk found w₁ =>
    cases found with
    | error e =>
      left
      have hconflicts := World.conflicts_of_slotFor hslot
      have hback : (w.ownCopy value).2.Untouched w :=
        .of_toSystem (w.toSystem_ownCopy value).symm
      rw [w.type_ownCopy] at hconflicts
      exact Request.begin_of_conflicts hdir rfl (hconflicts.of_untouched hback)
    | ok i =>
      right
      have hrests := (w.ownCopy value).2.rests_inputSlot query (w.ownCopy value).1.type key
      rw [hslot] at hrests
      have hrevision : w₁.revision = w.revision := hrests.revision.trans hown.revision
      obtain ⟨hself, hothers, -⟩ :=
        World.put_changes (World.kind?_of_slotFor hslot) (w.ownCopy value).1
      have hnode := (w₁.edits_put (p := p) (World.kind?_of_slotFor hslot)
        (w.ownCopy value).1).continues.node? (World.node?_of_slotFor hslot)
      refine ⟨w₁.put i (w.ownCopy value).1, ?_, ?_⟩
      · simp only [begin, World.write, hslot, Begun.ofResult, Except.map, hrevision]
      · refine ⟨congrArg Revision.next hrevision, rfl, World.cache?_of_slotFor hslot, i, hnode, ?_,
          fun j hj => (hothers j hj).trans ?_⟩
        · rw [hself, hrevision]
          rfl
        · exact (hrests.written j).trans (hown.keepsInputs.written j)

/-! ## Tasks -/

theorem Access.allocations_admission (access : Access) (queued : Bool) (w : World) :
    (access.admission queued w).2.allocations = w.allocations := by
  cases access with
  | free => rfl
  | blocking =>
    simp only [Access.admission]
    split
    · split <;> rfl
    · rfl
  | waiting =>
    simp only [Access.admission]
    split <;> rfl

namespace Task

variable {task : Task} {out : Poll × World}

/-- A write has no evaluation that could be under way. -/
theorem Begins.not_writes {e : Evaluation} (h : task.Begins p w e w')
    (hunbegun : task.request.Writes → task.suspended = none) : ¬ task.request.Writes := by
  intro hwrites
  rcases h with ⟨hsuspended, -⟩ | ⟨-, w₁, -, hbegin⟩
  · cases (hunbegun hwrites).symm.trans hsuspended
  · obtain ⟨access, query, key, value, hrequest⟩ := hwrites
    rw [hrequest] at hbegin
    cases hbegin

/-- What becomes of a write: it waits, is refused or fails, and nothing has happened, or it is
    committed and is answered with the revision issued for it. -/
theorem Course.of_write (h : Course p task w out) (hunbegun : task.suspended = none)
    (hdir : w.InDirectory p) {access : Access} {query : QueryId} {key : Key} {value : Value}
    (hrequest : task.request = .write access query key value) :
    w.Untouched out.2 ∧ ((∃ woken queued, out.1 = .pending woken { task with queued }) ∨
        out.1 = .ready (.error .busy) ∨ out.1 = .ready (.error (.kindMismatch query))) ∨
      out.1 = .ready (.ok (.revision w.revision.next)) ∧
        w.Receives ⟨⟨query, key⟩, (w.ownCopy value).1, w.revision.next⟩ out.2 := by
  have hwrites : task.request.Writes := ⟨access, query, key, value, hrequest⟩
  have hentered := task.request.access.untouched_admission task.queued w
  have hallocations := task.request.access.allocations_admission task.queued w
  cases h with
  | waits => exact .inl ⟨.refl w, .inl ⟨_, _, rfl⟩⟩
  | refused _ entry =>
    rw [entry] at hentered
    exact .inl ⟨hentered, .inr (.inl rfl)⟩
  | @answered w₁ w₂ result _ entry opens =>
    rw [entry] at hentered hallocations
    have hrelease := task.request.access.untouched_release w₂
    rw [hrequest] at opens
    rcases Request.begin_write (hdir.of_untouched hentered) access query key value with
      ⟨w', hbegin, hsame⟩ | ⟨w', hbegin, hreceives⟩
    · cases hbegin.symm.trans opens
      exact .inl ⟨(hentered.trans hsame).trans hrelease, .inr (.inr rfl)⟩
    · cases hbegin.symm.trans opens
      have hrevision : w₁.revision = w.revision := hentered.revision
      rw [hrevision, World.fst_ownCopy_of_allocations hallocations value] at hreceives
      exact .inr ⟨by rw [hrevision], (hentered.receives hreceives).untouched hrelease⟩
  | parks begins => exact absurd hwrites (begins.not_writes fun _ => hunbegun)
  | ends begins => exact absurd hwrites (begins.not_writes fun _ => hunbegun)

/-- A request that is no write leaves the inputs alone. -/
theorem Course.keepsInputs (h : Course p task w out) (hwrites : ¬ task.request.Writes) :
    w.KeepsInputs out.2 := by
  cases h with
  | waits => exact .refl w
  | refused _ entry =>
    have hentered := task.request.access.untouched_admission task.queued w
    rw [entry] at hentered
    exact hentered.keepsInputs
  | @answered w₁ w₂ result _ entry opens =>
    have hentered := task.request.access.untouched_admission task.queued w
    rw [entry] at hentered
    have hchanges := task.request.begin_changes p w₁
    rw [opens] at hchanges
    refine (hentered.keepsInputs.trans ?_).trans
      (task.request.access.untouched_release w₂).keepsInputs
    generalize task.request = request at hwrites hchanges
    cases hchanges with
    | rests rests => exact rests.toPersists.keepsInputs
    | writes => exact absurd ⟨_, _, _, _, rfl⟩ hwrites
    | clears access before => exact (w₁.drops_clear before).keepsInputs
  | parks begins reaches =>
    have hstill := begins.still
    exact World.KeepsInputs.trans ⟨hstill.revision, hstill.written⟩ reaches.persists.keepsInputs
  | @ends e w₁ w' result begins finishes =>
    have hstill := begins.still
    exact (World.KeepsInputs.trans ⟨hstill.revision, hstill.written⟩
      finishes.reaches.persists.keepsInputs).trans
        (task.request.access.untouched_release w').keepsInputs

theorem keepsInputs_left (out : Poll × World) : out.2.KeepsInputs (Poll.left out) := by
  obtain ⟨poll, w⟩ := out
  cases poll with
  | ready result => exact .refl w
  | pending woken task => exact (task.still_drop w).drops.keepsInputs

/-- A write that is kept has not begun. -/
theorem Course.unbegun {task' : Task} {woken : Bool} (h : Course p task w (.pending woken task', w'))
    (hunbegun : task.request.Writes → task.suspended = none) (hwrites : task'.request.Writes) :
    task'.suspended = none := by
  cases h with
  | waits unbegun => exact unbegun
  | parks begins => exact absurd hwrites (begins.not_writes hunbegun)

end Task

/-! ## Sessions -/

namespace Session

variable {s : Session} {limits : Limits}

/-- The write that a step commits: one that it carries and answers with a revision. -/
def commit? (p : Program) (limits : Limits) (s : Session) (step : Step) : Option Commit :=
  match (step.task? s).map Task.request, (s.report p limits step).1.answer with
  | some (.write _ query key value), .reply (.revision r) =>
    some ⟨⟨query, key⟩, (s.world.ownCopy value).1, r⟩
  | _, _ => none

/-- The writes that steps commit, in their order. -/
def commits (p : Program) (limits : Limits) : Session → List Step → List Commit
  | _, [] => []
  | s, step :: steps =>
    (s.commit? p limits step).toList ++ commits p limits (s.report p limits step).2 steps

/-- The commits of a session tell its revision and its inputs. -/
structure Stored (p : Program) (commits : List Commit) (s : Session) : Prop where
  directory : s.world.InDirectory p
  unbegun : ∀ entry ∈ s.tasks.entries, entry.2.request.Writes → entry.2.suspended = none
  revision : s.world.revision = .start + commits.length
  revisions : commits.map Commit.revision = List.range' Revision.start.next commits.length
  written : ∀ n x, s.world.LastWritten n x ↔ (Commit.lastTo commits n).map Commit.stamped = some x
  cached : ∀ c ∈ commits,
    s.world.cache? c.node.query = some ⟨c.node.query, c.node.key.type, c.value.type⟩

/-- A step that carries no write leaves the inputs alone. -/
theorem keepsInputs_step (limits : Limits) {step : Step}
    (h : ∀ task, step.task? s = some task → ¬ task.request.Writes) :
    s.world.KeepsInputs (s.step p limits step).2.world := by
  cases htask : step.task? s with
  | some task =>
    obtain ⟨out, hcourse, -, hworld⟩ := course_of_task? (p := p) limits htask
    have hkeeps := hcourse.keepsInputs (h task htask)
    rcases hworld with hworld | hworld
    · exact hworld ▸ hkeeps
    · exact hworld ▸ hkeeps.trans (Task.keepsInputs_left out)
  | none =>
    have heffects := effects_step (p := p) limits s step
    generalize s.step p limits step = out at heffects
    rcases heffects.aside with hpolls | ⟨hdrops, -⟩
    · obtain ⟨task, htask'⟩ := hpolls.task?
      cases htask.symm.trans htask'
    · exact hdrops.keepsInputs

/-- A step that carries no write commits none. -/
theorem commit?_eq_none {step : Step} (h : ∀ task, step.task? s = some task → ¬ task.request.Writes) :
    s.commit? p limits step = none := by
  unfold commit?
  split
  · rename_i hrequest _
    obtain ⟨task, htask, hwrite⟩ := Option.map_eq_some_iff.1 hrequest
    exact absurd ⟨_, _, _, _, hwrite⟩ (h task htask)
  · rfl

/-- What becomes of a write that a step carries: it is committed, or it is answered that it waits, was
    refused or failed, and nothing has happened. -/
def Writes (p : Program) (limits : Limits) (s : Session) (step : Step) (query : QueryId) (key : Key)
    (value : Value) : Prop :=
  (s.commit? p limits step = none ∧
    ((s.report p limits step).1.answer = .pending ∨
      (s.report p limits step).1.answer = .failed .busy ∨
      (s.report p limits step).1.answer = .failed (.kindMismatch query)) ∧
    s.world.Untouched (s.report p limits step).2.world) ∨
  ∃ c : Commit, c = ⟨⟨query, key⟩, (s.world.ownCopy value).1, s.world.revision.next⟩ ∧
    s.commit? p limits step = some c ∧
    (s.report p limits step).1.answer = .reply (.revision c.revision) ∧
    s.world.Receives c (s.report p limits step).2.world

theorem Stored.task_unbegun {commits : List Commit} (h : s.Stored p commits) {step : Step}
    {task : Task} (htask : step.task? s = some task) (hwrites : task.request.Writes) :
    task.suspended = none := by
  rcases unbegun_or_found htask with hunbegun | ⟨name, hfound⟩
  · exact hunbegun
  · obtain ⟨entry, hentry, rfl⟩ := mem_entries_of_get? hfound
    exact h.unbegun entry hentry hwrites

theorem Stored.writes (limits : Limits) {commits : List Commit} (h : s.Stored p commits)
    {step : Step} {task : Task} (htask : step.task? s = some task) {access : Access}
    {query : QueryId} {key : Key} {value : Value}
    (hrequest : task.request = .write access query key value) :
    s.Writes p limits step query key value := by
  have hunbegun := h.task_unbegun htask ⟨_, _, _, _, hrequest⟩
  obtain ⟨⟨poll, w⟩, hcourse, hanswer, hworld⟩ := course_of_task? (p := p) limits htask
  have hreported : (s.step p limits step).2.world.Untouched (s.report p limits step).2.world :=
    .of_toSystem rfl
  have hcommit {r : Revision} (hrevision : (s.report p limits step).1.answer = .reply (.revision r)) :
      s.commit? p limits step = some ⟨⟨query, key⟩, (s.world.ownCopy value).1, r⟩ := by
    rw [commit?, htask, Option.map_some, hrequest, hrevision]
  have hnone (hother : ∀ r, (s.report p limits step).1.answer ≠ .reply (.revision r)) :
      s.commit? p limits step = none := by
    unfold commit?
    split
    · exact absurd ‹_› (hother _)
    · rfl
  rcases hcourse.of_write hunbegun h.directory hrequest with
    ⟨hsame, hpolled⟩ | ⟨hready, hreceives⟩
  · left
    have hleft : s.world.Untouched (s.step p limits step).2.world := by
      rcases hworld with hworld | hworld
      · exact hworld ▸ hsame
      · rw [hworld]
        rcases hpolled with ⟨woken, queued, rfl⟩ | rfl | rfl
        · rw [Poll.left, Task.drop, hunbegun]
          exact hsame
        · exact hsame
        · exact hsame
    have hanswered : (s.report p limits step).1.answer = .pending ∨
        (s.report p limits step).1.answer = .failed .busy ∨
        (s.report p limits step).1.answer = .failed (.kindMismatch query) := by
      rcases hpolled with ⟨woken, queued, rfl⟩ | rfl | rfl
      · exact .inl hanswer
      · exact .inr (.inl hanswer)
      · exact .inr (.inr hanswer)
    refine ⟨hnone fun r hrevision => ?_, hanswered, hleft.trans hreported⟩
    rcases hanswered with h | h | h <;> cases h.symm.trans hrevision
  · right
    have hanswer : (s.report p limits step).1.answer = .reply (.revision s.world.revision.next) := by
      obtain rfl : poll = .ready (.ok (.revision s.world.revision.next)) := hready
      exact hanswer
    refine ⟨_, rfl, hcommit hanswer, hanswer, World.Receives.untouched ?_ hreported⟩
    obtain rfl : poll = .ready (.ok (.revision s.world.revision.next)) := hready
    rcases hworld with hworld | hworld <;> exact hworld ▸ hreceives

/-- A step commits one write, or none, and then it leaves the inputs alone. -/
theorem Stored.step (limits : Limits) {commits : List Commit} (h : s.Stored p commits)
    (step : Step) :
    (s.commit? p limits step = none ∧ s.world.KeepsInputs (s.report p limits step).2.world) ∨
      ∃ c, s.commit? p limits step = some c ∧ s.world.Receives c (s.report p limits step).2.world := by
  by_cases hwrites : ∃ task, step.task? s = some task ∧ task.request.Writes
  · obtain ⟨task, htask, access, query, key, value, hrequest⟩ := hwrites
    rcases h.writes limits htask hrequest with
      ⟨hnone, -, hsame⟩ | ⟨c, -, hsome, -, hreceives⟩
    · exact .inl ⟨hnone, hsame.keepsInputs⟩
    · exact .inr ⟨c, hsome, hreceives⟩
  · have hnot (task : Task) (htask : step.task? s = some task) : ¬ task.request.Writes :=
      fun h => hwrites ⟨task, htask, h⟩
    have hkeeps := keepsInputs_step (p := p) limits hnot
    exact .inl ⟨commit?_eq_none hnot, hkeeps.trans ⟨rfl, fun _ => rfl⟩⟩

theorem Effects.unbegun {step : Step} {tasks : Named Task} {guards : Named SlotId}
    (heffects : s.Effects p step w tasks guards)
    (h : ∀ entry ∈ s.tasks.entries, entry.2.request.Writes → entry.2.suspended = none) :
    ∀ entry ∈ tasks.entries, entry.2.request.Writes → entry.2.suspended = none := by
  rcases heffects.aside with hpolls | ⟨-, -, htasks⟩
  · cases hpolls with
    | performs => exact h
    | ends => exact fun entry hentry => h entry (List.mem_filter.1 hentry).1
    | waits carries found course =>
      obtain ⟨entry, hentry, rfl⟩ := mem_entries_of_get? found
      intro entry' hentry' hwrites
      rcases List.mem_cons.1 hentry' with rfl | hentry'
      · exact course.unbegun (h entry hentry) hwrites
      · exact h entry' (List.mem_filter.1 hentry').1 hwrites
  · intro entry hentry hwrites
    rcases htasks entry hentry with hbefore | ⟨hunbegun, -⟩
    · exact h entry hbefore hwrites
    · exact hunbegun

theorem Stored.report (limits : Limits) {commits : List Commit} (h : s.Stored p commits)
    (step : Step) :
    (s.report p limits step).2.Stored p (commits ++ (s.commit? p limits step).toList) := by
  have hdirectory := inDirectory_report (p := p) limits step h.directory
  have hcontinues := continues_report (p := p) limits s step
  have hunbegun := (effects_step (p := p) limits s step).unbegun h.unbegun
  have hcached (c : Commit) (hc : c ∈ commits) : (s.report p limits step).2.world.cache?
      c.node.query = some ⟨c.node.query, c.node.key.type, c.value.type⟩ :=
    hcontinues.cache? (h.cached c hc)
  rcases h.step limits step with ⟨hnone, hkeeps⟩ | ⟨c, hsome, hreceives⟩
  · rw [hnone, Option.toList_none, List.append_nil]
    exact ⟨hdirectory, hunbegun, hkeeps.revision.trans h.revision, h.revisions,
      fun n x => (hkeeps.lastWritten hcontinues).trans (h.written n x), hcached⟩
  · rw [hsome, Option.toList_some]
    refine ⟨hdirectory, hunbegun, ?_, ?_, fun n x => ?_, ?_⟩
    · rw [hreceives.revision, h.revision, List.length_append]
      rfl
    · rw [List.map_append, h.revisions, List.length_append, List.length_singleton,
        List.range'_concat, List.map_singleton, hreceives.issued, h.revision, Nat.one_mul,
        Nat.add_right_comm]
    · rw [hreceives.lastWritten hcontinues hdirectory, h.written, Commit.lastTo_concat]
      split
      · simp [eq_comm]
      · rfl
    · intro c' hc'
      rcases List.mem_append.1 hc' with hc' | hc'
      · exact hcached c' hc'
      · rw [List.mem_singleton.1 hc']
        exact hreceives.cache

theorem Stored.after (limits : Limits) {before : List Commit} (h : s.Stored p before)
    (steps : List Step) :
    (s.after p limits steps).Stored p (before ++ commits p limits s steps) := by
  induction steps generalizing s before with
  | nil => exact (List.append_nil before).symm ▸ h
  | cons step steps ih =>
    have hrest := ih (h.report limits step)
    rwa [List.append_assoc] at hrest

theorem stored_fresh (p : Program) (memoize traced : Bool) :
    (Session.fresh memoize traced).Stored p [] where
  directory := World.inDirectory_new memoize
  unbegun _ hentry := absurd hentry List.not_mem_nil
  revision := rfl
  revisions := rfl
  written n x := by
    constructor
    · rintro ⟨i, hi, -⟩
      cases hi
    · exact nofun
  cached _ hc := absurd hc List.not_mem_nil

end Session

/-! ## What is read -/

/-- What an input tells of the last commit to its node: its value, and the revision of the commit as
    both stamps. If there was none, it tells that it is unset and bears no stamps. -/
def World.Tells (w : World) (n : Node) : Option Commit → Prop
  | some c => w.inputValue n.query c.value.type n.key = (.ok c.value, w) ∧
      w.stamps? n.query n.key = some (c.revision, c.revision)
  | none => (∀ valueType v, (w.inputValue n.query valueType n.key).1 ≠ .ok v) ∧
      ∀ i, w.find? n.query n.key = some i → w.kind? i = some .input →
        w.stamps? n.query n.key = some (.never, .never)

namespace World

/-- An input that was written, in a cache of its types, is read. -/
theorem LastWritten.inputValue {n : Node} {x : Stamped} (h : w.LastWritten n x)
    (hdir : w.InDirectory p)
    (hcache : w.cache? n.query = some ⟨n.query, n.key.type, x.value.type⟩) :
    w.inputValue n.query x.value.type n.key = (.ok x.value, w) ∧
      w.stamps? n.query n.key = some (x.changedAt, x.changedAt) := by
  obtain ⟨i, hi, hx⟩ := h
  have hfind := hdir.find?_eq hi
  have hopen : w.openCache n.query n.key.type x.value.type = (.ok (), w) := by
    simp only [openCache, hcache, and_self, if_true]
  obtain ⟨⟨query, key, content⟩, hslot, hwritten⟩ := Option.bind_eq_some_iff.1 hx
  cases content with
  | derived d => cases hwritten
  | input written =>
    obtain rfl : written = some x := hwritten
    constructor
    · simp only [World.inputValue, hopen, hfind, Option.bind_some, hslot]
    · simp [System.stamps?, hfind, System.changedAt, System.verifiedAt, hslot, Slot.changedAt,
        Slot.verifiedAt]

/-- What is read was written. -/
theorem lastWritten_of_inputValue {n : Node} {valueType : ValueType} {v : Value}
    (h : (w.inputValue n.query valueType n.key).1 = .ok v) : ∃ x, w.LastWritten n x := by
  have hslots : (w.openCache n.query n.key.type valueType).2.slots = w.slots := by
    unfold openCache
    split
    · split <;> rfl
    · rfl
  unfold inputValue at h
  split at h
  · cases h
  · rename_i w₁ hopen
    rw [hopen] at hslots
    have hslots : w₁.slots = w.slots := hslots
    split at h
    · rename_i query key written hslot
      obtain ⟨i, hfind, hi⟩ := Option.bind_eq_some_iff.1 hslot
      rw [System.find?, hslots] at hfind
      rw [hslots] at hi
      exact ⟨written, i, System.node?_of_find? hfind, by rw [System.written?, hi]; rfl⟩
    · cases h
    · cases h

/-- An input that was not written bears no stamps. -/
theorem stamps?_of_unwritten {n : Node} {i : SlotId} (hnot : ∀ x, ¬ w.LastWritten n x)
    (hfind : w.find? n.query n.key = some i) (hkind : w.kind? i = some .input) :
    w.stamps? n.query n.key = some (.never, .never) := by
  obtain ⟨⟨query, key, content⟩, hslot, hinput⟩ := Option.map_eq_some_iff.1 hkind
  cases content with
  | derived d => cases hinput
  | input written =>
    cases written with
    | some x =>
      exact absurd ⟨i, System.node?_of_find? hfind, by rw [System.written?, hslot]; rfl⟩ (hnot x)
    | none =>
      simp [System.stamps?, hfind, System.changedAt, System.verifiedAt, hslot, Slot.changedAt,
        Slot.verifiedAt]

end World

namespace Session

variable {s : Session} {limits : Limits}

/-- At every point of every evaluation the inputs are those of the session. -/
theorem Meets.keepsInputs (h : s.Meets p w) : s.world.KeepsInputs w := by
  cases h with
  | between => exact .refl _
  | amidst carried begins reaches =>
    have hstill := begins.still
    exact World.KeepsInputs.trans ⟨hstill.revision, hstill.written⟩ reaches.persists.keepsInputs

theorem Stored.tells {commits : List Commit} (h : s.Stored p commits) (hmeets : s.Meets p w)
    (n : Node) : w.Tells n (Commit.lastTo commits n) := by
  have hdir := hmeets.edits.inDirectory h.directory
  have hcontinues := hmeets.edits.continues
  have hwritten (x : Stamped) := (hmeets.keepsInputs.lastWritten hcontinues (n := n) (x := x)).trans
    (h.written n x)
  cases hlast : Commit.lastTo commits n with
  | some c =>
    obtain ⟨hmem, rfl⟩ := Commit.mem_of_lastTo hlast
    have hstored := (hwritten c.stamped).2 (by rw [hlast]; rfl)
    exact hstored.inputValue hdir (hcontinues.cache? (h.cached c hmem))
  | none =>
    have hnot (x : Stamped) : ¬ w.LastWritten n x := by
      rw [hwritten, hlast]
      exact nofun
    refine ⟨fun valueType v hread => ?_, fun i hfind hkind =>
      World.stamps?_of_unwritten hnot hfind hkind⟩
    obtain ⟨x, hx⟩ := World.lastWritten_of_inputValue hread
    exact hnot x hx

/-- The writes of a session are kept as they were committed. -/
structure KeepsWrites (p : Program) (limits : Limits) (commits : List Commit) (s : Session) :
    Prop where
  /-- The revision counts the commits. -/
  revision : s.world.revision = .start + commits.length
  /-- Each commit has a revision of its own, and they are issued one after the other. -/
  revisions : commits.map Commit.revision = List.range' Revision.start.next commits.length
  /-- At every point of every evaluation, every input tells of the last commit to it. -/
  tells : ∀ w, s.Meets p w → w.revision = s.world.revision ∧
    ∀ n, w.Tells n (Commit.lastTo commits n)
  /-- A write is committed, or nothing has happened. -/
  writes : ∀ step task access query key value, step.task? s = some task →
    task.request = .write access query key value → s.Writes p limits step query key value
  /-- A write that is dropped leaves nothing behind. -/
  drops : ∀ name task, s.tasks.get? name = some task → task.request.Writes →
    s.world.Untouched (s.report p limits (.drop name)).2.world
  /-- A step that commits a write issues one revision and changes one input. -/
  commits : ∀ step c, s.commit? p limits step = some c →
    s.world.Receives c (s.report p limits step).2.world
  /-- No other step issues a revision or changes an input. -/
  others : ∀ step, s.commit? p limits step = none →
    s.world.KeepsInputs (s.report p limits step).2.world

theorem KeepsWrites.increasing {commits : List Commit} (h : s.KeepsWrites p limits commits) :
    (commits.map Commit.revision).Pairwise (· < ·) :=
  h.revisions ▸ List.pairwise_lt_range'

theorem Stored.keepsWrites {commits : List Commit} (h : s.Stored p commits) (limits : Limits) :
    s.KeepsWrites p limits commits where
  revision := h.revision
  revisions := h.revisions
  tells w hmeets := ⟨hmeets.keepsInputs.revision, h.tells hmeets⟩
  writes step task access query key value htask hrequest := h.writes limits htask hrequest
  drops name task hfound hwrites := by
    obtain ⟨entry, hentry, rfl⟩ := mem_entries_of_get? hfound
    have hdrop : (s.step p limits (.drop name)).2.world = s.world := by
      simp only [Session.step, dropTask, hfound, Task.drop, h.unbegun entry hentry hwrites]
    refine .of_toSystem ?_
    show (s.step p limits (.drop name)).2.world.toSystem = s.world.toSystem
    rw [hdrop]
  commits step c hcommit := by
    rcases h.step limits step with ⟨hnone, -⟩ | ⟨c', hsome, hreceives⟩
    · cases hnone.symm.trans hcommit
    · cases hsome.symm.trans hcommit
      exact hreceives
  others step hcommit := by
    rcases h.step limits step with ⟨-, hkeeps⟩ | ⟨c', hsome, -⟩
    · exact hkeeps
    · cases hsome.symm.trans hcommit

end Session

/-- No write is lost, made twice or half done. Take any program, memoizing or not, and any steps of a
    client: writes that block or wait, some of them refused and some dropped while they wait, among
    queries, clears, cancellations and computations that are parked. The revision counts the writes
    that were answered with a revision, and these revisions are issued one after the other. At every
    point of every evaluation an input tells of the last of these writes to it: its value, and its
    revision as both stamps. A write that is answered otherwise or is dropped leaves the system as it
    was, and no other step issues a revision or changes an input. -/
theorem writes_are_committed_once (p : Program) (limits : Session.Limits) (memoize traced : Bool)
    (steps : List Step) :
    ((Session.fresh memoize traced).after p limits steps).KeepsWrites p limits
      (Session.commits p limits (.fresh memoize traced) steps) :=
  ((Session.stored_fresh p memoize traced).after limits steps).keepsWrites limits

/-! ## Writes around a query that is parked -/

/-- Of six writes, one comes while a query is parked and is refused, one waits and is dropped, and one
    asks for the slot of the query. -/
def writeSteps : List Step :=
  turnSteps ++
    [.spawn "query" (.query .waiting "thrice" .unit) none,
      .perform (.write .blocking ⟨"thrice"⟩ .unit (.int 8)) none,
      .perform (.write .blocking ⟨"x"⟩ .unit (.int 9)) none,
      .poll "query" 1,
      .spawn "write" (.write .waiting ⟨"x"⟩ .unit (.int 10)) none,
      .poll "write" 1,
      .drop "write"]

theorem writes_are_committed_once_thrice :
    Session.commits thrice ⟨40, 3⟩ (.fresh true true) writeSteps =
        [⟨⟨⟨"x"⟩, .unit⟩, .int 5, 2⟩, ⟨⟨⟨"x"⟩, .unit⟩, .int 7, 3⟩, ⟨⟨⟨"x"⟩, .unit⟩, .int 9, 4⟩] ∧
      ((Session.fresh true true).after thrice ⟨40, 3⟩ writeSteps).world.revision = 4 ∧
      ((Session.fresh true true).after thrice ⟨40, 3⟩ writeSteps).world.Tells ⟨⟨"x"⟩, .unit⟩
        (some ⟨⟨⟨"x"⟩, .unit⟩, .int 9, 4⟩) := by
  have hcommits : Session.commits thrice ⟨40, 3⟩ (.fresh true true) writeSteps =
      [⟨⟨⟨"x"⟩, .unit⟩, .int 5, 2⟩, ⟨⟨⟨"x"⟩, .unit⟩, .int 7, 3⟩, ⟨⟨⟨"x"⟩, .unit⟩, .int 9, 4⟩] := rfl
  have hkeeps := writes_are_committed_once thrice ⟨40, 3⟩ true true writeSteps
  rw [hcommits] at hkeeps
  exact ⟨hcommits, hkeeps.revision, (hkeeps.tells _ .between).2 ⟨⟨"x"⟩, .unit⟩⟩

end RedGreen
