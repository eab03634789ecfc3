import RedGreen.Proofs.Courses

set_option autoImplicit false

/-! # Observers change nothing

What observers are told goes into the journal, and nothing ever looks at it. So two worlds that
differ in their journals only give the same answers and stay such worlds, whatever is done in both:
an operation (`Told`), a step of an evaluation, or the whole course of a task (`Course.told`). -/

namespace RedGreen

open Evaluation

variable {p : Program} {t : Token}

namespace World

/-- The world with another journal. -/
def retold (w : World) (j : Journal) : World := { w with journal := j }

/-- The same comes out, but for the journal. -/
def Told {α : Type} (out out' : α × World) : Prop := ∃ j, out' = (out.1, out.2.retold j)

theorem Told.mk {α : Type} (a : α) (w : World) (j : Journal) : Told (a, w) (a, w.retold j) :=
  ⟨j, rfl⟩

/-- To compare what is done with two outcomes, it is enough to take two worlds that differ in their
    journals only. -/
@[elab_as_elim]
theorem Told.elim {α : Type} {motive : α × World → α × World → Prop} {out out' : α × World}
    (h : Told out out') (hmotive : ∀ a w j, motive (a, w) (a, w.retold j)) : motive out out' := by
  obtain ⟨j, rfl⟩ := h
  exact hmotive out.1 out.2 j

variable (w : World) (j : Journal)

/-! ## Operations on the world -/

theorem retold_leave (i : SlotId) : ∃ j', (w.retold j).leave i = (w.leave i).retold j' := by
  unfold leave
  by_cases h : i ∈ w.active
  · rw [if_pos h, if_pos (show i ∈ (w.retold j).active from h)]
    exact ⟨_, rfl⟩
  · rw [if_neg h, if_neg (show i ∉ (w.retold j).active from h)]
    exact ⟨j, rfl⟩

theorem retold_leaveAll (ids : List SlotId) :
    ∃ j', (w.retold j).leaveAll ids = (w.leaveAll ids).retold j' := by
  induction ids generalizing w j with
  | nil => exact ⟨j, rfl⟩
  | cons i ids ih =>
    obtain ⟨j', hleave⟩ := w.retold_leave j i
    obtain ⟨j'', hrest⟩ := ih (w.leave i) j'
    refine ⟨j'', ?_⟩
    rw [leaveAll, List.foldl_cons, hleave]
    exact hrest

theorem check_retold (t : Token) : (w.retold j).check t = w.check t := rfl

theorem told_ownCopy (v : Value) : Told (w.ownCopy v) ((w.retold j).ownCopy v) := by
  cases v <;> exact ⟨j, rfl⟩

theorem told_openCache (query : QueryId) (keyType : KeyType) (valueType : ValueType) :
    Told (w.openCache query keyType valueType)
      ((w.retold j).openCache query keyType valueType) := by
  have hcache : (w.retold j).cache? query = w.cache? query := rfl
  unfold openCache
  rw [hcache]
  split
  · split <;> exact ⟨j, rfl⟩
  · exact ⟨_, rfl⟩

theorem told_obtain (fresh : Slot) : Told (w.obtain fresh) ((w.retold j).obtain fresh) := by
  have hfind : (w.retold j).find? fresh.query fresh.key = w.find? fresh.query fresh.key := rfl
  have hkind (i : SlotId) : (w.retold j).kind? i = w.kind? i := rfl
  unfold obtain
  simp only [hfind, hkind]
  split
  · split <;> exact ⟨j, rfl⟩
  · exact ⟨_, rfl⟩

theorem told_slotFor (valueType : ValueType) (fresh : Slot) :
    Told (w.slotFor valueType fresh) ((w.retold j).slotFor valueType fresh) := by
  unfold slotFor
  refine (w.told_openCache j fresh.query fresh.key.type valueType).elim fun opened w j => ?_
  cases opened with
  | error e => exact .mk _ w j
  | ok u => exact w.told_obtain j fresh

theorem told_inputSlot (query : QueryId) (valueType : ValueType) (key : Key) :
    Told (w.inputSlot query valueType key) ((w.retold j).inputSlot query valueType key) :=
  w.told_slotFor j valueType _

theorem told_derivedSlot (query : QueryId) (valueType : ValueType) (key : Key) (label : Label)
    (equality : Equivalence) :
    Told (w.derivedSlot query valueType key label equality)
      ((w.retold j).derivedSlot query valueType key label equality) :=
  w.told_slotFor j valueType _

theorem told_write (query : QueryId) (key : Key) (value : Value) :
    Told (w.write query key value) ((w.retold j).write query key value) := by
  unfold write
  refine (w.told_inputSlot j query value.type key).elim fun found w j => ?_
  cases found with
  | error e => exact .mk _ w j
  | ok i => exact ⟨_, rfl⟩

theorem told_inputValue (query : QueryId) (valueType : ValueType) (key : Key) :
    Told (w.inputValue query valueType key) ((w.retold j).inputValue query valueType key) := by
  unfold inputValue
  refine (w.told_openCache j query key.type valueType).elim fun opened w j => ?_
  cases opened with
  | error e => exact .mk _ w j
  | ok u =>
    have hslot : ((w.retold j).find? query key).bind ((w.retold j).slots[·]?) =
        (w.find? query key).bind (w.slots[·]?) := rfl
    simp only [hslot]
    split <;> exact .mk _ w j

theorem told_enter (i : SlotId) : Told (w.enter i) ((w.retold j).enter i) := by
  unfold enter
  by_cases h : i ∈ w.active
  · rw [if_pos h, if_pos (show i ∈ (w.retold j).active from h)]
    exact ⟨_, rfl⟩
  · rw [if_neg h, if_neg (show i ∉ (w.retold j).active from h)]
    exact ⟨_, rfl⟩

/-! ## Parts of a step -/

theorem told_fail (i : SlotId) (e : QueryError) : Told (w.fail i e) ((w.retold j).fail i e) := by
  obtain ⟨j', hleave⟩ := retold_leave
    ((w.log (.queryFailed (w.info i) e)).event (.queryEnd (w.info i) (.ofError e))) _ i
  exact ⟨j', Prod.ext rfl hleave⟩

theorem told_succeed (i : SlotId) (x : Stamped) (outcome : Outcome) :
    Told (w.succeed i x outcome) ((w.retold j).succeed i x outcome) := by
  obtain ⟨j', hleave⟩ := retold_leave (w.event (.queryEnd (w.info i) outcome)) _ i
  exact ⟨j', Prod.ext rfl hleave⟩

theorem told_startBody (p : Program) (i : SlotId) (r : Revision) :
    Told (w.startBody p i r) ((w.retold j).startBody p i r) := by
  have hslots : (w.retold j).slots = w.slots := rfl
  unfold startBody
  rw [hslots]
  split <;> exact ⟨_, rfl⟩

theorem told_record (a : Activation) (dep : SlotId) :
    Told (w.record a dep) ((w.retold j).record a dep) := by
  unfold record
  split <;> exact ⟨_, rfl⟩

theorem told_read (t : Token) (a : Activation) (query : QueryId) (valueType : ValueType)
    (key : Key) : ∃ j', (w.retold j).read t a query valueType key =
      ((w.read t a query valueType key).1, (w.read t a query valueType key).2.1,
        (w.read t a query valueType key).2.2.retold j') := by
  unfold read
  refine (w.told_inputSlot j query valueType key).elim fun found w j => ?_
  cases found with
  | error e => exact ⟨j, rfl⟩
  | ok dep =>
    simp only
    refine (w.told_record j a dep).elim fun a w j => ?_
    have hwritten : (w.retold j).written? dep = w.written? dep := rfl
    simp only [hwritten, check_retold]
    split <;> exact ⟨j, rfl⟩

theorem told_perform (t : Token) (a : Activation) (op : Operation) :
    ∃ j', (w.retold j).perform t a op =
      ((w.perform t a op).1, (w.perform t a op).2.1, (w.perform t a op).2.2.retold j') := by
  cases op with
  | read query valueType key => exact w.told_read j t a query valueType key
  | check | cancel | revision | slot | allocate => exact ⟨j, rfl⟩

theorem told_commit (a : Activation) (value : Value) :
    Told (w.commit a value) ((w.retold j).commit a value) := by
  have hslots : (w.retold j).slots = w.slots := rfl
  unfold commit
  rw [hslots]
  split
  · simp only
    split
    · exact told_succeed (World.log (w.setMemo a.slot _) _) _ a.slot _ _
    · exact told_succeed (w.setMemo a.slot _) j a.slot _ _
  · exact w.told_succeed j a.slot _ _

theorem told_finish (t : Token) (a : Activation) (result : Except QueryError Value) :
    Told (w.finish t a result) ((w.retold j).finish t a result) := by
  have hmemoize : (w.retold j).memoize = w.memoize := rfl
  unfold finish
  rw [check_retold, hmemoize]
  split
  · exact w.told_fail j a.slot _
  · split
    · split
      · exact w.told_fail j a.slot _
      · obtain ⟨j', hleave⟩ := w.retold_leave j a.slot
        exact ⟨j', Prod.ext rfl hleave⟩
    · split
      · exact w.told_commit j a _
      · exact w.told_succeed j a.slot _ _

theorem told_start (i : SlotId) (c : Control) : Told (w.start i c) ((w.retold j).start i c) := by
  unfold start
  refine (w.told_enter j i).elim fun entered w j => ?_
  cases entered with
  | error e => exact .mk _ w j
  | ok u => exact ⟨_, rfl⟩

theorem told_fetch (p : Program) (t : Token) (i : SlotId) :
    Told (w.fetch p t i) ((w.retold j).fetch p t i) := by
  have hmemoize : (w.retold j).memoize = w.memoize := rfl
  have hmemo : (w.retold j).memo? i = w.memo? i := rfl
  have hrevision : (w.retold j).revision = w.revision := rfl
  unfold fetch
  rw [hmemoize]
  split
  · unfold beginMemoized
    rw [hmemo, hrevision]
    split
    · split
      · exact ⟨_, rfl⟩
      · exact w.told_start j i _
    · exact w.told_start j i _
  · unfold beginUncached
    refine (w.told_enter j i).elim fun entered w j => ?_
    cases entered with
    | error e => exact .mk _ w j
    | ok u =>
      simp only [check_retold]
      split
      · obtain ⟨j', hleave⟩ := w.retold_leave j i
        exact ⟨j', Prod.ext rfl hleave⟩
      · exact told_startBody (w.log (.computeUncached (w.info i) w.revision)) _ p i w.revision

theorem told_compute (p : Program) (t : Token) (i : SlotId) (r : Revision) :
    Told (w.compute p t i r) ((w.retold j).compute p t i r) := by
  unfold compute
  rw [check_retold]
  split
  · exact w.told_fail j i _
  · exact told_startBody (w.log (.recompute (w.info i) r)) _ p i r

theorem told_touched (t : Token) (walk : Walk) (dep : SlotId) (changedAt : Revision) :
    Told (w.touched t walk dep changedAt) ((w.retold j).touched t walk dep changedAt) := by
  unfold touched
  rw [check_retold]
  split
  · exact w.told_fail j walk.slot _
  · split <;> exact ⟨_, rfl⟩

theorem told_verify (walk : Walk) : Told (w.verify walk) ((w.retold j).verify walk) := by
  have hmemo : (w.retold j).memo? walk.slot = w.memo? walk.slot := rfl
  unfold verify
  rw [hmemo]
  split
  · exact told_succeed (World.log (w.setMemo walk.slot _) _) _ walk.slot _ _
  · exact .mk _ w j

end World

/-! ## Steps -/

/-- The same progress, but for the journal. -/
inductive Progress.Told : Progress → Progress → Prop
  | running (e : Evaluation) (w : World) (j : Journal) : Told (.running e w) (.running e (w.retold j))
  | parked (e : Evaluation) (w : World) (j : Journal) : Told (.parked e w) (.parked e (w.retold j))
  | finished (r : Except QueryError Stamped) (w : World) (j : Journal) :
    Told (.finished r w) (.finished r (w.retold j))

namespace Evaluation

variable (w : World) (j : Journal)

theorem told_resume (frames : List Frame) {out out' : Control × World} (h : World.Told out out') :
    (resume frames out).Told (resume frames out') := by
  obtain ⟨j', rfl⟩ := h
  exact .running ..

theorem told_stepBody (p : Program) (t : Token) (a : Activation) (body : Body)
    (frames : List Frame) :
    (stepBody p t a body frames w).Told (stepBody p t a body frames (w.retold j)) := by
  cases body with
  | done result => exact told_resume frames (w.told_finish j t a result)
  | perform op next =>
    obtain ⟨j', hperform⟩ := w.told_perform j t a op
    simp only [stepBody, hperform]
    exact .running ..
  | call mode label key next =>
    simp only [stepBody, stepCall]
    refine (w.told_derivedSlot j (p label).id (p label).valueType key label
      (p label).equality).elim fun found w j => ?_
    cases found with
    | error e => exact .running ..
    | ok callee =>
      simp only
      exact (w.told_record j a callee).elim fun a w j => .running ..
  | yield next =>
    simp only [stepBody, stepYield]
    split
    · exact .parked ..
    · rename_i inside caller outside _
      obtain ⟨j', hleave⟩ := w.retold_leaveAll j (a.slot :: inside.map Frame.slot)
      rw [hleave]
      exact .running ..

theorem told_stepAnswer (t : Token) (r : Except QueryError Stamped) (frames : List Frame) :
    (stepAnswer t r frames w).Told (stepAnswer t r frames (w.retold j)) := by
  cases frames with
  | nil => exact .finished ..
  | cons frame frames =>
    cases frame with
    | touching walk dep =>
      cases r with
      | error e => exact told_resume frames (w.told_fail j walk.slot e)
      | ok stamped => exact told_resume frames (w.told_touched j t walk dep stamped.changedAt)
    | calling caller => exact .running ..

/-- A step does the same whatever observers were told. -/
theorem told_step (p : Program) (t : Token) (e : Evaluation) :
    (e.step p t w).Told (e.step p t (w.retold j)) := by
  obtain ⟨control, frames⟩ := e
  cases control with
  | fetch i => exact told_resume frames (w.told_fetch j p t i)
  | walk walk =>
    have hkind (dep : SlotId) : (w.retold j).kind? dep = w.kind? dep := rfl
    have hchanged (dep : SlotId) : (w.retold j).changedAt dep = w.changedAt dep := rfl
    simp only [step, stepWalk, hkind, hchanged]
    split
    · exact told_resume frames (w.told_verify j walk)
    · split
      · exact .running ..
      · exact told_resume frames (w.told_touched j t _ _ _)
  | compute i r => exact told_resume frames (w.told_compute j p t i r)
  | body a body => exact told_stepBody w j p t a body frames
  | answer r => exact told_stepAnswer w j t r frames

theorem told_drive (p : Program) (t : Token) (n : Nat) (e : Evaluation) :
    (e.drive p t n w).Told (e.drive p t n (w.retold j)) := by
  induction n generalizing e w j with
  | zero => exact .running ..
  | succ n ih =>
    have hstep := told_step w j p t e
    rw [drive, drive]
    generalize e.step p t w = progress, e.step p t (w.retold j) = progress' at hstep
    cases hstep with
    | running e₁ w₁ j₁ | parked e₁ w₁ j₁ => exact ih w₁ j₁ e₁
    | finished r w₁ j₁ => exact .finished ..

variable {w j} {e e' : Evaluation} {w' : World}

theorem Reaches.retold (h : Reaches p t e w e' w') (j : Journal) :
    ∃ j', Reaches p t e (w.retold j) e' (w'.retold j') := by
  obtain ⟨n, hn⟩ := h
  have hdrive := told_drive w j p t n e
  rw [hn] at hdrive
  generalize hn' : e.drive p t n (w.retold j) = progress at hdrive
  cases hdrive with
  | running e₁ w₁ j' => exact ⟨j', n, hn'⟩

theorem Finishes.retold {r : Except QueryError Stamped} (h : Finishes p t e w r w') (j : Journal) :
    ∃ j', Finishes p t e (w.retold j) r (w'.retold j') := by
  obtain ⟨n, hn⟩ := h
  have hdrive := told_drive w j p t n e
  rw [hn] at hdrive
  generalize hn' : e.drive p t n (w.retold j) = progress at hdrive
  cases hdrive with
  | finished r₁ w₁ j' => exact ⟨j', n, hn'⟩

end Evaluation

/-! ## Tasks -/

theorem Access.told_admission (access : Access) (queued : Bool) (w : World) (j : Journal) :
    World.Told (access.admission queued w) (access.admission queued (w.retold j)) := by
  have hlocked : (w.retold j).entryLocked = w.entryLocked := rfl
  have hasync : (w.retold j).asyncEntry = w.asyncEntry := rfl
  cases access with
  | free => exact ⟨j, rfl⟩
  | blocking =>
    simp only [Access.admission, hlocked, hasync]
    split
    · split <;> exact ⟨_, rfl⟩
    · exact ⟨j, rfl⟩
  | waiting =>
    simp only [Access.admission, hlocked]
    split <;> exact ⟨j, rfl⟩

theorem Access.release_retold (access : Access) (w : World) (j : Journal) :
    access.release (w.retold j) = (access.release w).retold j := by
  cases access <;> rfl

theorem Begun.told_ofResult {α : Type} (reply : α → Reply) {out out' : Except QueryError α × World}
    (h : World.Told out out') : World.Told (ofResult reply out) (ofResult reply out') := by
  obtain ⟨j', rfl⟩ := h
  exact ⟨j', rfl⟩

theorem Begun.told_ofSlot {out out' : Except QueryError SlotId × World} (h : World.Told out out') :
    World.Told (ofSlot out) (ofSlot out') := by
  refine h.elim fun found w j => ?_
  cases found <;> exact ⟨j, rfl⟩

theorem Request.told_begin (p : Program) (request : Request) (w : World) (j : Journal) :
    World.Told (request.begin p w) (request.begin p (w.retold j)) := by
  cases request with
  | write access query key value =>
    refine (w.told_ownCopy j value).elim (motive := fun out out' =>
      World.Told (Begun.ofResult .revision (out.2.write query key out.1))
        (Begun.ofResult .revision (out'.2.write query key out'.1))) fun value w j => ?_
    exact Begun.told_ofResult _ (w.told_write j query key value)
  | read query valueType key => exact Begun.told_ofResult _ (w.told_inputValue j query valueType key)
  | query access label key => exact Begun.told_ofSlot (w.told_derivedSlot j _ _ _ _ _)
  | derive label key equality => exact Begun.told_ofSlot (w.told_derivedSlot j _ _ _ _ _)
  | prepare label key equality => exact Begun.told_ofResult _ (w.told_derivedSlot j _ _ _ _ _)
  | touch query valueType key =>
    simp only [begin]
    refine (w.told_openCache j query key.type valueType).elim fun opened w j => ?_
    cases opened with
    | error e => exact ⟨j, rfl⟩
    | ok u =>
      have hfind : (w.retold j).find? query key = w.find? query key := rfl
      have hkind (i : SlotId) : (w.retold j).kind? i = w.kind? i := rfl
      have hchanged (i : SlotId) : (w.retold j).changedAt i = w.changedAt i := rfl
      simp only [hfind, hkind, hchanged]
      split
      · exact ⟨j, rfl⟩
      · split <;> exact ⟨j, rfl⟩
  | clear access before => exact ⟨_, rfl⟩

namespace Task

variable {task : Task} {w w' : World}

theorem Begins.retold {e : Evaluation} (h : task.Begins p w e w') (j : Journal) :
    ∃ j', task.Begins p (w.retold j) e (w'.retold j') := by
  rcases h with ⟨hsuspended, rfl⟩ | ⟨hunbegun, w₁, hentry, hbegin⟩
  · exact ⟨j, .inl ⟨hsuspended, rfl⟩⟩
  · obtain ⟨j₁, hentry'⟩ := task.request.access.told_admission task.queued w j
    rw [hentry] at hentry'
    obtain ⟨j₂, hbegin'⟩ := task.request.told_begin p w₁ j₁
    rw [hbegin] at hbegin'
    exact ⟨j₂, .inr ⟨hunbegun, _, hentry', hbegin'⟩⟩

/-- What becomes of a task does not depend on what observers were told. -/
theorem Course.retold {out : Poll × World} (h : Course p task w out) (j : Journal) :
    ∃ j', Course p task (w.retold j) (out.1, out.2.retold j') := by
  cases h with
  | waits unbegun stays => exact ⟨j, .waits unbegun stays⟩
  | refused unbegun entry =>
    obtain ⟨j', hentry⟩ := task.request.access.told_admission task.queued w j
    rw [entry] at hentry
    exact ⟨j', .refused unbegun hentry⟩
  | answered unbegun entry opens =>
    obtain ⟨j₁, hentry⟩ := task.request.access.told_admission task.queued w j
    rw [entry] at hentry
    obtain ⟨j₂, hbegin⟩ := task.request.told_begin p _ j₁
    rw [opens] at hbegin
    exact ⟨j₂, Access.release_retold .. ▸ .answered unbegun hentry hbegin⟩
  | parks begins reaches =>
    obtain ⟨j₁, hbegins⟩ := begins.retold j
    obtain ⟨j₂, hreaches⟩ := reaches.retold j₁
    exact ⟨j₂, .parks hbegins hreaches⟩
  | ends begins finishes =>
    obtain ⟨j₁, hbegins⟩ := begins.retold j
    obtain ⟨j₂, hfinishes⟩ := finishes.retold j₁
    exact ⟨j₂, Access.release_retold .. ▸ .ends hbegins hfinishes⟩

theorem drop_retold (task : Task) (w : World) (j : Journal) :
    ∃ j', task.drop (w.retold j) = (task.drop w).retold j' := by
  unfold drop
  split
  · exact ⟨j, rfl⟩
  · rename_i e _
    obtain ⟨j', hleave⟩ := w.retold_leaveAll j e.held
    refine ⟨j', ?_⟩
    rw [abandon, hleave, Access.release_retold]
    rfl

end Task

end RedGreen
