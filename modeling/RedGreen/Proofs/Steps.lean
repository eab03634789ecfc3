import RedGreen.Evaluation.Run
import RedGreen.Proofs.Operations

set_option autoImplicit false

/-! # What each part of a step does

The step of an evaluation is made of a few functions on the world. For each there is a relation or a
lemma that lists its outcomes: what the control is, in which case, and what has become of the world.
The proofs about runs go through these lists and unfold nothing. -/

namespace RedGreen

variable {p : Program} {use : Usages} {same : Indistinct} {yields : Prop}

/-! ## The active stack -/

/-- An active stack without the innermost occurrence of a slot. -/
def dropInnermost (active : List SlotId) (i : SlotId) : List SlotId :=
  (active.reverse.erase i).reverse

@[simp] theorem dropInnermost_concat (active : List SlotId) (i : SlotId) :
    dropInnermost (active ++ [i]) i = active := by
  simp [dropInnermost]

theorem mem_dropInnermost {active : List SlotId} {i j : SlotId} (h : j ∈ active) (hne : j ≠ i) :
    j ∈ dropInnermost active i :=
  List.mem_reverse.2 ((List.mem_erase_of_ne hne).2 (List.mem_reverse.2 h))

/-- A memo that came after another one: either its value counts as changed when it was made, or it
    is as good as the one before and keeps the stamp of the last change. -/
def Memo.Supersedes (m : Memo) (same : Value → Value → Prop) (old : Option Memo) : Prop :=
  m.changedAt = m.verifiedAt ∨
    ∃ o, old = some o ∧ m.changedAt = o.changedAt ∧ same o.value m.value

/-- The stamp of the last change of a new memo is not after the revision of the memo. -/
theorem Memo.Supersedes.changed_le {m : Memo} {related : Value → Value → Prop} {old : Option Memo}
    (h : m.Supersedes related old) (hold : ∀ o, old = some o → o.changedAt ≤ m.verifiedAt) :
    m.changedAt ≤ m.verifiedAt := by
  rcases h with hstamp | ⟨o, ho, hstamp, -⟩
  · exact Nat.le_of_eq hstamp
  · rw [hstamp]
    exact hold o ho

theorem Derived.renewed_supersedes {d : Derived} (related : Value → Value → Prop) {value : Value}
    (hfaithful : ∀ old, d.memo = some old → d.equality old.value value = true →
      related old.value value) (revision : Revision) (deps : List SlotId) :
    (d.renewed value revision deps).Supersedes related d.memo := by
  unfold Derived.renewed
  cases hold : d.memo with
  | none => exact .inl rfl
  | some old =>
    by_cases hequal : d.equality old.value value = true
    · exact .inr ⟨old, rfl, by simp [hequal], hfaithful old hold hequal⟩
    · exact .inl (by simp [hequal])

/-- A running body that has read a slot. -/
def Activation.reading (a : Activation) (dep : SlotId) : Activation :=
  { a with deps := recordOnce dep a.deps }

namespace World

/-! ## Ends of a request -/

theorem fail_spec (w : World) (i : SlotId) (e : QueryError) :
    ∃ w', w.fail i e = (.answer (.error e), w') ∧ Quiet w w' ∧
      w'.active = dropInnermost w.active i :=
  ⟨_, rfl, ((w.quiet_log _).trans (quiet_event _ _)).trans (quiet_leave _ _), active_leave _ _⟩

theorem succeed_spec (w : World) (i : SlotId) (result : Stamped) (outcome : Outcome) :
    ∃ w', w.succeed i result outcome = (.answer (.ok result), w') ∧ Quiet w w' ∧
      w'.active = dropInnermost w.active i :=
  ⟨_, rfl, (w.quiet_event _).trans (quiet_leave _ _), active_leave _ _⟩

theorem check_of_mem {w : World} {t : Token} (h : t ∈ w.cancelled) :
    w.check t = .error .cancelled := if_pos h

theorem check_of_not_mem {w : World} {t : Token} (h : t ∉ w.cancelled) : w.check t = .ok () :=
  if_neg h

/-! ## Requests -/

theorem startBody_spec (hp : p.Consistent use) {w : World} (ht : Tidy p use w.toSystem)
    {i : SlotId} {label : Label} {key : Key} (hi : w.node? i = some (p.node label key))
    (revision : Revision) :
    ∃ w', w.startBody p i revision = (.body ⟨i, revision, []⟩ ((p label).body key), w') ∧
      Quiet w w' ∧ w'.active = w.active := by
  obtain ⟨d, hslot, hbody, -⟩ := ht.bound hp hi
  refine ⟨_, ?_, w.quiet_note (.run d.recompute key), rfl⟩
  simp only [startBody, hslot, hbody]

/-- The outcomes of a request that uses what is kept. -/
inductive Fetches (w : World) (i : SlotId) : Control × World → Prop
  | hit {m : Memo} {w' : World} (memo : w.memo? i = some m) (verified : m.verifiedAt = w.revision)
    (quiet : Quiet w w') (active : w'.active = w.active) :
    Fetches w i (.answer (.ok m.toStamped), w')
  | cycle {w' : World} (stale : ∀ m, w.memo? i = some m → m.verifiedAt ≠ w.revision)
    (inside : i ∈ w.active) (quiet : Quiet w w') (active : w'.active = w.active) :
    Fetches w i (.answer (.error (.cycle ((w.active ++ [i]).map w.nameOf))), w')
  | walk {m : Memo} {w' : World} (memo : w.memo? i = some m) (stale : m.verifiedAt ≠ w.revision)
    (outside : i ∉ w.active) (quiet : Quiet w w') (active : w'.active = w.active ++ [i]) :
    Fetches w i (.walk ⟨i, w.revision, m.verifiedAt, m.deps⟩, w')
  | compute {w' : World} (memo : w.memo? i = none) (outside : i ∉ w.active) (quiet : Quiet w w')
    (active : w'.active = w.active ++ [i]) : Fetches w i (.compute i w.revision, w')

theorem fetch_spec {w : World} (hmemoize : w.memoize = true) (t : Token) (i : SlotId) :
    Fetches w i (w.fetch p t i) := by
  simp only [fetch, hmemoize, if_true, beginMemoized, start]
  split
  · rename_i m hmemo
    split
    · exact .hit hmemo ‹_› ((w.quiet_log _).trans (quiet_event _ _)) rfl
    · rename_i hstale
      rcases w.enter_cases i with ⟨hin, w', henter, hquiet, hactive⟩ | ⟨hout, w', henter, hquiet, hactive⟩
      · rw [henter]
        refine .cycle ?_ hin hquiet hactive
        intro m' hm'
        rw [← Option.some.inj (hmemo.symm.trans hm')]
        exact hstale
      · rw [henter]
        exact .walk hmemo hstale hout (hquiet.trans (quiet_event _ _)) hactive
  · rename_i hmemo
    rcases w.enter_cases i with ⟨hin, w', henter, hquiet, hactive⟩ | ⟨hout, w', henter, hquiet, hactive⟩
    · rw [henter]
      exact .cycle (by simp [hmemo]) hin hquiet hactive
    · rw [henter]
      exact .compute hmemo hout (hquiet.trans (quiet_event _ _)) hactive

/-- The outcomes of a request that keeps nothing. -/
inductive FetchesAfresh (w : World) (t : Token) (i : SlotId) (body : Body) : Control × World → Prop
  | cycle {w' : World} (inside : i ∈ w.active) (quiet : Quiet w w') (active : w'.active = w.active) :
    FetchesAfresh w t i body (.answer (.error (.cycle ((w.active ++ [i]).map w.nameOf))), w')
  | cancelled {w' : World} (outside : i ∉ w.active) (cancelled : t ∈ w.cancelled)
    (quiet : Quiet w w') (active : w'.active = w.active) :
    FetchesAfresh w t i body (.answer (.error .cancelled), w')
  | run {w' : World} (outside : i ∉ w.active) (quiet : Quiet w w')
    (active : w'.active = w.active ++ [i]) :
    FetchesAfresh w t i body (.body ⟨i, w.revision, []⟩ body, w')

theorem fetch_spec_afresh (hp : p.Consistent use) {w : World} (ht : Tidy p use w.toSystem)
    (hmemoize : w.memoize = false) (t : Token) {i : SlotId} {label : Label} {key : Key}
    (hi : w.node? i = some (p.node label key)) :
    FetchesAfresh w t i ((p label).body key) (w.fetch p t i) := by
  simp only [fetch, hmemoize, Bool.false_eq_true, if_false, beginUncached]
  rcases w.enter_cases i with ⟨hin, w₁, henter, hquiet, hactive⟩ | ⟨hout, w₁, henter, hquiet, hactive⟩
  · rw [henter]
    exact .cycle hin hquiet hactive
  · rw [henter]
    by_cases hcancelled : t ∈ w.cancelled
    · simp only [check_of_mem (hquiet.cancelled ▸ hcancelled)]
      refine .cancelled hout hcancelled (hquiet.trans (quiet_leave _ _)) ?_
      rw [active_leave, hactive]
      exact dropInnermost_concat _ _
    · simp only [check_of_not_mem (hquiet.cancelled ▸ hcancelled)]
      have hq := hquiet.trans (w₁.quiet_log (.computeUncached (w₁.info i) w₁.revision))
      obtain ⟨w₂, hstart, hquiet', hactive'⟩ :=
        startBody_spec hp (hq.tidy ht) (hq.grows.node i _ hi) w₁.revision
      rw [hstart, hquiet.revision]
      exact .run hout (hq.trans hquiet') (hactive'.trans hactive)

/-- The outcomes of starting the run of a slot in progress. -/
inductive Computes (w : World) (t : Token) (i : SlotId) (revision : Revision) (body : Body) :
    Control × World → Prop
  | cancelled {w' : World} (cancelled : t ∈ w.cancelled) (quiet : Quiet w w')
    (active : w'.active = dropInnermost w.active i) :
    Computes w t i revision body (.answer (.error .cancelled), w')
  | run {w' : World} (quiet : Quiet w w') (active : w'.active = w.active) :
    Computes w t i revision body (.body ⟨i, revision, []⟩ body, w')

theorem compute_spec (hp : p.Consistent use) {w : World} (ht : Tidy p use w.toSystem)
    (t : Token) {i : SlotId} {label : Label} {key : Key}
    (hi : w.node? i = some (p.node label key)) (revision : Revision) :
    Computes w t i revision ((p label).body key) (w.compute p t i revision) := by
  unfold compute
  by_cases hcancelled : t ∈ w.cancelled
  · obtain ⟨w', hfail, hquiet, hactive⟩ := w.fail_spec i .cancelled
    rw [check_of_mem hcancelled]
    simp only [hfail]
    exact .cancelled hcancelled hquiet hactive
  · rw [check_of_not_mem hcancelled]
    have hq := w.quiet_log (.recompute (w.info i) revision)
    obtain ⟨w', hstart, hquiet, hactive⟩ :=
      startBody_spec hp (hq.tidy ht) (hq.grows.node i _ hi) revision
    simp only [hstart]
    exact .run (hq.trans hquiet) hactive

/-! ## Bodies -/

theorem record_spec (w : World) (a : Activation) (dep : SlotId) :
    ∃ w', w.record a dep = (a.reading dep, w') ∧ Quiet w w' ∧ w'.active = w.active := by
  unfold record
  split
  · exact ⟨_, rfl, .refl w, rfl⟩
  · exact ⟨_, rfl, w.quiet_log _, rfl⟩

/-- An input is read as it is, unless the request was cancelled. -/
theorem read_spec {w : World} (ht : Tidy p use w.toSystem) (t : Token) (a : Activation)
    {query : QueryId} {valueType : ValueType} {key : Key}
    (typed : use query = ⟨.input, key.type, valueType⟩) :
    ∃ i w' reply, w.read t a query valueType key = (reply, a.reading i, w') ∧
      Finds p use w ⟨query, key⟩ i w' ∧
      (Agree (Value.AlikeOf valueType) reply (w'.inputs.answer query key) ∨
        t ∈ w.cancelled ∧ reply = .error .cancelled) := by
  obtain ⟨i, w₁, hslot, hfinds⟩ := inputSlot_spec ht typed
  obtain ⟨w₂, hrecord, hquiet, hactive⟩ := w₁.record_spec a i
  have hfinds₂ : Finds p use w ⟨query, key⟩ i w₂ :=
    ⟨hfinds.toGrows.trans hquiet.grows, hquiet.tidy hfinds.tidy,
      hquiet.grows.node i _ hfinds.found, hactive.trans hfinds.active,
      hquiet.entryLocked.trans hfinds.entryLocked⟩
  have hinputs : w₂.inputs query key = (w₂.written? i).map fun x => x.value.bare :=
    hfinds₂.tidy.inputs_eq (n := ⟨query, key⟩) hfinds₂.found
  unfold read
  simp only [hslot, hrecord]
  cases hwritten : w₂.written? i with
  | none =>
    refine ⟨i, w₂, _, rfl, hfinds₂, .inl ?_⟩
    rw [Inputs.answer, hinputs, hwritten]
    exact .error _
  | some x =>
    by_cases hcancelled : t ∈ w.cancelled
    · refine ⟨i, w₂, _, rfl, hfinds₂, .inr ⟨hcancelled, ?_⟩⟩
      rw [check_of_mem (hfinds₂.cancelled ▸ hcancelled)]
      rfl
    · refine ⟨i, w₂, _, rfl, hfinds₂, .inl ?_⟩
      rw [check_of_not_mem (hfinds₂.cancelled ▸ hcancelled), Inputs.answer, hinputs, hwritten]
      have htype := hfinds₂.tidy.type_inputs (hinputs.trans (congrArg _ hwritten))
      rw [Value.type_bare, typed] at htype
      exact .ok ⟨htype, x.value.alike_bare⟩

/-- What a kept run leaves: the memo of the run, and whatever else was there. -/
structure Commits (p : Program) (use : Usages) (same : Value → Value → Prop) (w : World)
    (i : SlotId) (m : Memo) (w' : World) : Prop extends Renews w i m w' where
  tidy : Tidy p use w'.toSystem
  supersedes : m.Supersedes same (w.memo? i)
  active : w'.active = dropInnermost w.active i
  entryLocked : w'.entryLocked = w.entryLocked

theorem Renews.quiet {w w' w'' : World} {i : SlotId} {m : Memo} (h : Renews w i m w')
    (hq : Quiet w' w'') : Renews w i m w'' where
  toExtends := h.toExtends.trans hq.grows.toExtends
  memo_self := (hq.grows.memo i).trans h.memo_self
  memo_other j hj := (hq.grows.memo j).trans (h.memo_other j hj)

theorem commit_spec (hp : p.Consistent use) {w : World} (ht : Tidy p use w.toSystem)
    {a : Activation} {label : Label} {key : Key} (hi : w.node? a.slot = some (p.node label key))
    {related : Value → Value → Prop} {value : Value}
    (hrelated : ∀ o, w.memo? a.slot = some o → (p label).equality o.value value = true →
      related o.value value) :
    ∃ m w', w.commit a value = (.answer (.ok m.toStamped), w') ∧ m.value = value ∧
      m.verifiedAt = a.revision ∧ m.deps = a.deps ∧ Commits p use related w a.slot m w' := by
  obtain ⟨d, hslot, -, hequality⟩ := ht.bound hp hi
  have hmemo : w.memo? a.slot = d.memo := by rw [System.memo?, hslot]; rfl
  have hsupersedes := Derived.renewed_supersedes related
    (fun o ho heq => hrelated o (hmemo.trans ho) (by rwa [← hequality])) a.revision a.deps
  have hrenews := setMemo_renews ht hslot (d.renewed value a.revision a.deps)
  have htidy := (setMemo_spec ht a.slot (some (d.renewed value a.revision a.deps))).1
  have hend (w₁ : World) (hq : Quiet (w.setMemo a.slot (some (d.renewed value a.revision a.deps))) w₁)
      (hactive₁ : w₁.active = w.active) (outcome : Outcome) :
      ∃ w', w₁.succeed a.slot (d.renewed value a.revision a.deps).toStamped outcome =
        (.answer (.ok (d.renewed value a.revision a.deps).toStamped), w') ∧
        Commits p use related w a.slot (d.renewed value a.revision a.deps) w' := by
    obtain ⟨w', hsucceed, hquiet, hactive⟩ := w₁.succeed_spec a.slot
      (d.renewed value a.revision a.deps).toStamped outcome
    have hq' := hq.trans hquiet
    refine ⟨w', hsucceed, hrenews.quiet hq', hq'.tidy htidy, ?_, ?_, hq'.entryLocked⟩
    · rw [hmemo]
      exact hsupersedes
    · rw [hactive, hactive₁]
  unfold commit
  simp only [hslot]
  split
  · obtain ⟨w', hsucceed, hcommits⟩ := hend _ (quiet_log _ _) rfl .unchanged
    exact ⟨_, w', hsucceed, rfl, rfl, rfl, hcommits⟩
  · obtain ⟨w', hsucceed, hcommits⟩ := hend _ (.refl _) rfl .changed
    exact ⟨_, w', hsucceed, rfl, rfl, rfl, hcommits⟩

/-- The outcomes of a run that is kept. -/
inductive Finishes (p : Program) (use : Usages) (same : Value → Value → Prop) (w : World)
    (t : Token) (a : Activation) : Except QueryError Value → Control × World → Prop
  | failed {e : QueryError} {w' : World} (quiet : Quiet w w')
    (active : w'.active = dropInnermost w.active a.slot) :
    Finishes p use same w t a (.error e) (.answer (.error e), w')
  | cancelled {v : Value} {w' : World} (cancelled : t ∈ w.cancelled) (quiet : Quiet w w')
    (active : w'.active = dropInnermost w.active a.slot) :
    Finishes p use same w t a (.ok v) (.answer (.error .cancelled), w')
  | kept {v : Value} {m : Memo} {w' : World} (uncancelled : t ∉ w.cancelled) (value : m.value = v)
    (verifiedAt : m.verifiedAt = a.revision) (deps : m.deps = a.deps)
    (commits : Commits p use same w a.slot m w') :
    Finishes p use same w t a (.ok v) (.answer (.ok m.toStamped), w')

theorem finish_spec_of_related (hp : p.Consistent use) {w : World} (ht : Tidy p use w.toSystem)
    (hmemoize : w.memoize = true) (t : Token) {a : Activation} {label : Label} {key : Key}
    (hi : w.node? a.slot = some (p.node label key)) (related : Value → Value → Prop)
    (result : Except QueryError Value)
    (hrelated : ∀ v o, result = .ok v → w.memo? a.slot = some o →
      (p label).equality o.value v = true → related o.value v) :
    Finishes p use related w t a result (w.finish t a result) := by
  unfold finish
  cases result with
  | error e =>
    obtain ⟨w', hfail, hquiet, hactive⟩ := w.fail_spec a.slot e
    simp only [hfail]
    exact .failed hquiet hactive
  | ok v =>
    by_cases hcancelled : t ∈ w.cancelled
    · obtain ⟨w', hfail, hquiet, hactive⟩ := w.fail_spec a.slot .cancelled
      simp only [check_of_mem hcancelled, hmemoize, if_true, hfail]
      exact .cancelled hcancelled hquiet hactive
    · obtain ⟨m, w', hcommit, hvalue, hverified, hdeps, hcommits⟩ := commit_spec hp ht hi
        (hrelated v · rfl)
      simp only [check_of_not_mem hcancelled, hmemoize, if_true, hcommit]
      exact .kept hcancelled hvalue hverified hdeps hcommits

theorem finish_spec (hp : p.Pure use same yields) {w : World} (ht : Tidy p use w.toSystem)
    (hmemoize : w.memoize = true) (t : Token) {a : Activation} {label : Label} {key : Key}
    (hi : w.node? a.slot = some (p.node label key))
    (hold : ∀ o, w.memo? a.slot = some o → o.value.type = (p label).valueType)
    (result : Except QueryError Value)
    (hresult : ∀ v, result = .ok v → v.type = (p label).valueType) :
    Finishes p use (same (p label).id) w t a result (w.finish t a result) :=
  finish_spec_of_related hp.consistent ht hmemoize t hi _ result fun v o hv ho heq =>
    hp.faithful label _ _ (hold o ho) (hresult v hv) heq

/-- A run that is not kept ends with its result, unless the request was cancelled. -/
theorem finish_spec_afresh {w : World} (hmemoize : w.memoize = false) {t : Token}
    (huncancelled : t ∉ w.cancelled) (a : Activation) (result : Except QueryError Value) :
    ∃ w', w.finish t a result = (.answer (result.map fun v => ⟨v, a.revision⟩), w') ∧ Quiet w w' ∧
      w'.active = dropInnermost w.active a.slot := by
  unfold finish
  cases result with
  | error e => exact w.fail_spec a.slot e
  | ok v =>
    simp only [check_of_not_mem huncancelled, hmemoize, Bool.false_eq_true, if_false]
    exact w.succeed_spec a.slot _ _

/-! ## Revalidation -/

/-- The outcomes for a revalidation of a dependency that was brought up to date. -/
inductive Touches (w : World) (t : Token) (walk : Walk) (changedAt : Revision) :
    Control × World → Prop
  | cancelled {w' : World} (cancelled : t ∈ w.cancelled) (quiet : Quiet w w')
    (active : w'.active = dropInnermost w.active walk.slot) :
    Touches w t walk changedAt (.answer (.error .cancelled), w')
  | changed {w' : World} (changed : walk.verifiedAt < changedAt) (quiet : Quiet w w')
    (active : w'.active = w.active) :
    Touches w t walk changedAt (.compute walk.slot walk.revision, w')
  | unchanged (unchanged : changedAt ≤ walk.verifiedAt) : Touches w t walk changedAt (.walk walk, w)

theorem touched_spec (w : World) (t : Token) (walk : Walk) (dep : SlotId) (changedAt : Revision) :
    Touches w t walk changedAt (w.touched t walk dep changedAt) := by
  unfold touched
  by_cases hcancelled : t ∈ w.cancelled
  · obtain ⟨w', hfail, hquiet, hactive⟩ := w.fail_spec walk.slot .cancelled
    simp only [check_of_mem hcancelled, hfail]
    exact .cancelled hcancelled hquiet hactive
  · simp only [check_of_not_mem hcancelled]
    split
    · exact .changed ‹_› (w.quiet_log _) rfl
    · exact .unchanged (Nat.le_of_not_lt ‹_›)

/-- The outcomes of a revalidation that found no change. -/
inductive Verifies (p : Program) (use : Usages) (same : Value → Value → Prop) (w : World)
    (walk : Walk) : Control × World → Prop
  | kept {m : Memo} {w' : World} (memo : w.memo? walk.slot = some m)
    (commits : Commits p use same w walk.slot { m with verifiedAt := walk.revision } w') :
    Verifies p use same w walk (.answer (.ok m.toStamped), w')
  | dropped (memo : w.memo? walk.slot = none) :
    Verifies p use same w walk (.compute walk.slot walk.revision, w)

theorem verify_spec_of_related (hp : p.Consistent use) {w : World} (ht : Tidy p use w.toSystem)
    (walk : Walk) {label : Label} {key : Key} (hi : w.node? walk.slot = some (p.node label key))
    (related : Value → Value → Prop)
    (hrelated : ∀ o, w.memo? walk.slot = some o → related o.value o.value) :
    Verifies p use related w walk (w.verify walk) := by
  obtain ⟨d, hslot, -, -⟩ := ht.bound hp hi
  unfold verify
  split
  · rename_i m hmemo
    have hrenews := setMemo_renews ht hslot { m with verifiedAt := walk.revision }
    have htidy := (setMemo_spec ht walk.slot (some { m with verifiedAt := walk.revision })).1
    have hq := (w.setMemo walk.slot (some { m with verifiedAt := walk.revision })).quiet_log
      (.revalidated (w.info walk.slot) walk.revision)
    obtain ⟨w', hsucceed, hquiet, hactive⟩ := succeed_spec
      ((w.setMemo walk.slot (some { m with verifiedAt := walk.revision })).log
        (.revalidated (w.info walk.slot) walk.revision)) walk.slot m.toStamped .revalidated
    rw [hsucceed]
    refine .kept hmemo ⟨hrenews.quiet (hq.trans hquiet), (hq.trans hquiet).tidy htidy, ?_,
      hactive, (hq.trans hquiet).entryLocked⟩
    exact .inr ⟨m, hmemo, rfl, hrelated m hmemo⟩
  · exact .dropped ‹_›

theorem verify_spec (hp : p.Pure use same yields) {w : World} (ht : Tidy p use w.toSystem)
    (walk : Walk) {label : Label} {key : Key}
    (hi : w.node? walk.slot = some (p.node label key))
    (hold : ∀ o, w.memo? walk.slot = some o → o.value.type = (p label).valueType) :
    Verifies p use (same (p label).id) w walk (w.verify walk) :=
  verify_spec_of_related hp.consistent ht walk hi _ fun o ho =>
    hp.alike _ _ _ (Value.alikeOf_refl ((hold o ho).trans (hp.valueType label).symm))

end World

/-! ## Frames -/

theorem splitAtImmediate_calling {caller : Caller} {frames : List Frame}
    (hmode : caller.mode = .awaited) (h : splitAtImmediate frames = none) :
    splitAtImmediate (.calling caller :: frames) = none := by
  obtain ⟨activation, mode, callee, next⟩ := caller
  obtain rfl : mode = .awaited := hmode
  simp [splitAtImmediate, h]

theorem splitAtImmediate_touching {walk : Walk} {dep : SlotId} {frames : List Frame}
    (h : splitAtImmediate frames = none) : splitAtImmediate (.touching walk dep :: frames) = none := by
  simp [splitAtImmediate, h]

/-! ## Calls -/

theorem stepCall_spec (hp : p.Consistent use) {w : World} (ht : Tidy p use w.toSystem)
    (a : Activation) (mode : CallMode) {label : Label} {key : Key}
    (typed : key.type = (use (p label).id).keyType) (next : Except QueryError Value → Body)
    (frames : List Frame) :
    ∃ i w', Evaluation.stepCall p a mode label key next frames w =
      .running ⟨.fetch i, .calling ⟨a.reading i, mode, i, next⟩ :: frames⟩ w' ∧
      World.Finds p use w (p.node label key) i w' := by
  obtain ⟨i, w₁, hslot, hfinds⟩ := World.derivedSlot_spec hp ht typed
  obtain ⟨w₂, hrecord, hquiet, hactive⟩ := w₁.record_spec a i
  refine ⟨i, w₂, ?_, hfinds.toGrows.trans hquiet.grows, hquiet.tidy hfinds.tidy,
    hquiet.grows.node i _ hfinds.found, hactive.trans hfinds.active,
    hquiet.entryLocked.trans hfinds.entryLocked⟩
  simp only [Evaluation.stepCall, hslot, hrecord]

end RedGreen
