import RedGreen.Proofs.Edits

set_option autoImplicit false

/-! # Worlds behind a veil

Which caches there are and what observers were told matters to no operation but those that look a
cache up, and which tokens are cancelled matters only as far as the own token goes. So a world does the
same if these parts of it are replaced (`World.veil`), and they stay as they are. -/

namespace RedGreen

open Evaluation

variable {p : Program} {t t' : Token}

namespace World

/-- The world with other caches and other cancelled tokens, where more was told before. -/
def veil (cs : List Cache) (C : List Token) (J : Journal) (w : World) : World :=
  { w with caches := cs, cancelled := C, journal := J ++ w.journal }

/-- What does the same behind every veil makes no cache. -/
theorem caches_of_veil {α : Type} (op : World → α × World)
    (hop : ∀ v cs C J, op (veil cs C J v) = Prod.map id (veil cs C J) (op v)) (w : World) :
    (op w).2.caches = w.caches :=
  congrArg (fun out => out.2.caches) (hop w w.caches w.cancelled [])

/-- It cancels no token either. -/
theorem cancelled_of_veil {α : Type} (op : World → α × World)
    (hop : ∀ v cs C J, op (veil cs C J v) = Prod.map id (veil cs C J) (op v)) (w : World) :
    (op w).2.cancelled = w.cancelled :=
  congrArg (fun out => out.2.cancelled) (hop w w.caches w.cancelled [])

variable (w : World) (cs : List Cache) (C : List Token) (J : Journal)

/-! ## Parts of a world -/

@[simp] theorem note_veil (entry : Entry) :
    (w.veil cs C J).note entry = (w.note entry).veil cs C J := by
  simp [veil, note]

@[simp] theorem log_veil (e : LogEvent) : (w.veil cs C J).log e = (w.log e).veil cs C J :=
  w.note_veil cs C J _

@[simp] theorem event_veil (e : TraceEvent) : (w.veil cs C J).event e = (w.event e).veil cs C J :=
  w.note_veil cs C J _

@[simp] theorem setActive_veil (active : List SlotId) :
    (w.veil cs C J).setActive active = (w.setActive active).veil cs C J := rfl

@[simp] theorem setSlots_veil (slots : List Slot) :
    (w.veil cs C J).setSlots slots = (w.setSlots slots).veil cs C J := rfl

@[simp] theorem setMemo_veil (i : SlotId) (memo : Option Memo) :
    (w.veil cs C J).setMemo i memo = (w.setMemo i memo).veil cs C J := rfl

@[simp] theorem lockEntry_veil (waiting : Bool) :
    (w.veil cs C J).lockEntry waiting = (w.lockEntry waiting).veil cs C J := rfl

@[simp] theorem revision_veil : (w.veil cs C J).revision = w.revision := rfl

@[simp] theorem slots_veil : (w.veil cs C J).slots = w.slots := rfl

@[simp] theorem active_veil : (w.veil cs C J).active = w.active := rfl

@[simp] theorem memoize_veil : (w.veil cs C J).memoize = w.memoize := rfl

@[simp] theorem entryLocked_veil : (w.veil cs C J).entryLocked = w.entryLocked := rfl

@[simp] theorem asyncEntry_veil : (w.veil cs C J).asyncEntry = w.asyncEntry := rfl

@[simp] theorem info_veil (i : SlotId) : (w.veil cs C J).info i = w.info i := rfl

@[simp] theorem kind?_veil (i : SlotId) : (w.veil cs C J).kind? i = w.kind? i := rfl

@[simp] theorem memo?_veil (i : SlotId) : (w.veil cs C J).memo? i = w.memo? i := rfl

@[simp] theorem changedAt_veil (i : SlotId) : (w.veil cs C J).changedAt i = w.changedAt i := rfl

@[simp] theorem find?_veil (query : QueryId) (key : Key) :
    (w.veil cs C J).find? query key = w.find? query key := rfl

variable {C}

theorem check_veil (ht : t' ∈ C ↔ t ∈ w.cancelled) : (w.veil cs C J).check t' = w.check t := by
  simp [check, veil, ht]

variable (C)

/-! ## Operations -/

@[simp] theorem leave_veil (i : SlotId) : (w.veil cs C J).leave i = (w.leave i).veil cs C J := by
  unfold leave
  simp only [active_veil, setActive_veil, log_veil]
  split <;> rfl

theorem leaveAll_veil (ids : List SlotId) :
    (w.veil cs C J).leaveAll ids = (w.leaveAll ids).veil cs C J := by
  induction ids generalizing w with
  | nil => rfl
  | cons i ids ih =>
    rw [leaveAll, List.foldl_cons, leave_veil]
    exact ih (w.leave i)

theorem enter_veil (i : SlotId) :
    (w.veil cs C J).enter i = Prod.map id (veil cs C J) (w.enter i) := by
  unfold enter
  simp only [active_veil, setActive_veil, log_veil, event_veil]
  split <;> rfl

theorem obtain_veil (fresh : Slot) :
    (w.veil cs C J).obtain fresh = Prod.map id (veil cs C J) (w.obtain fresh) := by
  unfold obtain addSlot
  simp only [find?_veil, kind?_veil, slots_veil, setSlots_veil, log_veil]
  split
  · rename_i i _
    by_cases hkind : w.kind? i = some fresh.kind <;> simp [hkind]
  · rfl

theorem record_veil (a : Activation) (dep : SlotId) :
    (w.veil cs C J).record a dep = Prod.map id (veil cs C J) (w.record a dep) := by
  unfold record
  simp only [log_veil]
  split <;> rfl

theorem fail_veil (i : SlotId) (e : QueryError) :
    (w.veil cs C J).fail i e = Prod.map id (veil cs C J) (w.fail i e) := by
  simp [fail]

theorem succeed_veil (i : SlotId) (x : Stamped) (outcome : Outcome) :
    (w.veil cs C J).succeed i x outcome = Prod.map id (veil cs C J) (w.succeed i x outcome) := by
  simp [succeed]

theorem startBody_veil (p : Program) (i : SlotId) (r : Revision) :
    (w.veil cs C J).startBody p i r = Prod.map id (veil cs C J) (w.startBody p i r) := by
  unfold startBody
  simp only [slots_veil, note_veil]
  split <;> rfl

theorem commit_veil (a : Activation) (value : Value) :
    (w.veil cs C J).commit a value = Prod.map id (veil cs C J) (w.commit a value) := by
  unfold commit
  simp only [slots_veil, setMemo_veil, log_veil, info_veil, succeed_veil]
  split
  · split <;> rfl
  · rfl

theorem start_veil (i : SlotId) (c : Control) :
    (w.veil cs C J).start i c = Prod.map id (veil cs C J) (w.start i c) := by
  unfold start
  rw [enter_veil]
  obtain ⟨entered, w₁⟩ := w.enter i
  cases entered with
  | error e => rfl
  | ok u => simp

theorem verify_veil (walk : Walk) :
    (w.veil cs C J).verify walk = Prod.map id (veil cs C J) (w.verify walk) := by
  unfold verify
  simp only [memo?_veil, setMemo_veil, info_veil, log_veil, succeed_veil]
  split <;> rfl

variable {C}

theorem finish_veil (ht : t' ∈ C ↔ t ∈ w.cancelled) (a : Activation) (r : Except QueryError Value) :
    (w.veil cs C J).finish t' a r = Prod.map id (veil cs C J) (w.finish t a r) := by
  unfold finish
  simp only [w.check_veil cs J ht, memoize_veil, fail_veil, leave_veil, commit_veil, succeed_veil]
  split
  · rfl
  · split <;> split <;> rfl

theorem compute_veil (ht : t' ∈ C ↔ t ∈ w.cancelled) (p : Program) (i : SlotId) (r : Revision) :
    (w.veil cs C J).compute p t' i r = Prod.map id (veil cs C J) (w.compute p t i r) := by
  unfold compute
  simp only [w.check_veil cs J ht, fail_veil, info_veil, log_veil, startBody_veil]
  split <;> rfl

theorem touched_veil (ht : t' ∈ C ↔ t ∈ w.cancelled) (walk : Walk) (dep : SlotId) (r : Revision) :
    (w.veil cs C J).touched t' walk dep r = Prod.map id (veil cs C J) (w.touched t walk dep r) := by
  unfold touched
  simp only [w.check_veil cs J ht, fail_veil, info_veil, log_veil]
  split
  · rfl
  · split <;> rfl

theorem fetch_veil (ht : t' ∈ C ↔ t ∈ w.cancelled) (p : Program) (i : SlotId) :
    (w.veil cs C J).fetch p t' i = Prod.map id (veil cs C J) (w.fetch p t i) := by
  unfold fetch beginMemoized beginUncached
  simp only [memoize_veil, memo?_veil, revision_veil, info_veil, log_veil, event_veil, start_veil,
    enter_veil]
  split
  · split
    · split <;> rfl
    · rfl
  · have hcancelled : (w.enter i).2.cancelled = w.cancelled :=
      congrArg (fun out => out.2.cancelled) (w.enter_veil w.caches w.cancelled [] i)
    generalize w.enter i = out at hcancelled ⊢
    obtain ⟨entered, w₁⟩ := out
    cases entered with
    | error e => rfl
    | ok u =>
      have hcheck : (w₁.veil cs C J).check t' = w₁.check t := w₁.check_veil cs J (hcancelled ▸ ht)
      simp only [Prod.map, id, hcheck, leave_veil, info_veil, revision_veil, log_veil, startBody_veil]
      split <;> rfl

end World

/-! ## Steps -/

namespace Progress

/-- The world of a progress. -/
def world : Progress → World
  | .running _ w | .parked _ w | .finished _ w => w

/-- The progress in another world. -/
def map (f : World → World) : Progress → Progress
  | .running e w => .running e (f w)
  | .parked e w => .parked e (f w)
  | .finished r w => .finished r (f w)

end Progress

/-- What happens next looks no cache up and cancels no token. -/
def Control.Ordinary : Control → Prop
  | .body _ (.perform (.read _ _ _) _) | .body _ (.perform .cancel _) | .body _ (.call _ _ _ _) => False
  | _ => True

namespace Evaluation

variable (w : World) (cs : List Cache) {C : List Token} (J : Journal)

theorem resume_veil (frames : List Frame) (out : Control × World) :
    resume frames (Prod.map id (World.veil cs C J) out) = (resume frames out).map (World.veil cs C J) :=
  rfl

/-- A step that is ordinary does the same behind a veil. -/
theorem step_veil (p : Program) {e : Evaluation} (ht : t' ∈ C ↔ t ∈ w.cancelled)
    (he : e.control.Ordinary) :
    e.step p t' (w.veil cs C J) = (e.step p t w).map (World.veil cs C J) := by
  obtain ⟨control, frames⟩ := e
  cases control with
  | fetch i => simp only [step, w.fetch_veil cs J ht, resume_veil]
  | walk walk =>
    simp only [step, stepWalk, World.kind?_veil, World.changedAt_veil, World.verify_veil,
      w.touched_veil cs J ht, resume_veil]
    split
    · rfl
    · split <;> rfl
  | compute i r => simp only [step, w.compute_veil cs J ht, resume_veil]
  | body a body =>
    cases body with
    | done result => simp only [step, stepBody, w.finish_veil cs J ht, resume_veil]
    | perform op next =>
      cases op with
      | read | cancel => exact he.elim
      | check =>
        simp only [step, stepBody, World.perform, w.check_veil cs J ht]
        rfl
      | revision | slot | allocate => rfl
    | call => exact he.elim
    | yield next =>
      simp only [step, stepBody, stepYield, World.leaveAll_veil, World.info_veil]
      split <;> rfl
  | answer r =>
    cases frames with
    | nil => rfl
    | cons frame frames =>
      cases frame with
      | touching walk dep =>
        cases r with
        | error e => simp only [step, stepAnswer, World.fail_veil, resume_veil]
        | ok stamped => simp only [step, stepAnswer, w.touched_veil cs J ht, resume_veil]
      | calling caller =>
        simp only [step, stepAnswer, w.check_veil cs J ht]
        rfl

end Evaluation

/-! ## Requests and tasks -/

theorem Begun.ofSlot_snd (out : Except QueryError SlotId × World) : (Begun.ofSlot out).2 = out.2 := by
  obtain ⟨found, w⟩ := out
  cases found <;> rfl

namespace World

variable (w : World) (cs : List Cache) (C : List Token) (J : Journal)

theorem put_veil (i : SlotId) (value : Value) :
    (w.veil cs C J).put i value = (w.put i value).veil cs C J := by
  simp [put, log, event, note, veil]
  rfl

theorem ownCopy_veil (value : Value) :
    (w.veil cs C J).ownCopy value = Prod.map id (veil cs C J) (w.ownCopy value) := by
  cases value <;> rfl

theorem clear_veil (before : Revision) :
    (w.veil cs C J).clear before = Prod.map id (veil cs C J) (w.clear before) := by
  simp [clear]

theorem clearCache_veil (query : QueryId) (before : Revision) :
    (w.veil cs C J).clearCache query before =
      Prod.map id (veil cs C J) (w.clearCache query before) := rfl

theorem clearSlot_veil (query : QueryId) (key : Key) (before : Revision) :
    (w.veil cs C J).clearSlot query key before =
      Prod.map id (veil cs C J) (w.clearSlot query key before) := by
  unfold clearSlot
  simp only [find?_veil, slots_veil, setSlots_veil]
  split
  · rfl
  · split
    · split <;> rfl
    · rfl

end World

variable (w : World) (cs : List Cache) (C : List Token) (J : Journal)

theorem Access.admission_veil (access : Access) (queued : Bool) :
    access.admission queued (w.veil cs C J) =
      Prod.map id (World.veil cs C J) (access.admission queued w) := by
  cases access with
  | free => rfl
  | blocking =>
    simp only [Access.admission, World.entryLocked_veil, World.asyncEntry_veil, World.log_veil]
    split
    · split <;> rfl
    · rfl
  | waiting =>
    simp only [Access.admission, World.entryLocked_veil, World.lockEntry_veil]
    by_cases hlocked : w.entryLocked = true <;> simp [hlocked]

theorem Access.release_veil (access : Access) :
    access.release (w.veil cs C J) = (access.release w).veil cs C J := by
  cases access <;> rfl

theorem Task.drop_veil (task : Task) :
    task.drop (w.veil cs C J) = (task.drop w).veil cs C J := by
  unfold Task.drop
  split
  · rfl
  · rw [abandon, World.leaveAll_veil, Access.release_veil]
    rfl

end RedGreen
