import RedGreen.Evaluation
import RedGreen.Proofs.Recovery

set_option autoImplicit false

/-! # What an evaluation on its own knows

While one evaluation is in progress and nothing else happens, the inputs and the revision stay what
they are. A body in progress has read what it would read now (`Tracks`), and a revalidation in
progress has found some of the recorded dependencies unchanged (`Rechecks`). All this is told of the
control and of each frame (`Stands`). Each slot in progress is that of a body that calls the next
one, so without cycles among the queries no slot is entered twice (`Awaits.not_mem`). -/

namespace RedGreen

open Evaluation

variable {p : Program} {use : Usages} {same : Indistinct}

/-- The slot that was asked for by the innermost frame, or by the request itself. -/
def asked (root : SlotId) : List Frame → SlotId
  | [] => root
  | .touching _ dep :: _ => dep
  | .calling caller :: _ => caller.callee

namespace World

/-! ## Running bodies -/

/-- What a running body has read is as it was: it is known as of now, or it is a call that fails now
    as it did. -/
def Noted (p : Program) (use : Usages) (same : Indistinct) (w : World) (read : Read) : Prop :=
  w.Seen p use same w.revision read ∨
    read.Failed ∧ w.Placed p use read ∧ read.Matches p use same w.inputs

/-- A run of the body of a slot has come to what is left of it by reads that are as they were. -/
structure Tracks (p : Program) (use : Usages) (same : Indistinct) (w : World) (i : SlotId) (b : Body)
    (label : Label) (key : Key) (reads : List Read) : Prop where
  node : w.node? i = some (p.node label key)
  lawful : Lawful p use same False (p label).valueType b b
  follows : Follows ((p label).body key) reads b
  noted : ∀ read ∈ reads, w.Noted p use same read

/-- A body in progress. -/
def Runs (p : Program) (use : Usages) (same : Indistinct) (w : World) (a : Activation) (b : Body) :
    Prop :=
  a.revision = w.revision ∧ ∃ label key reads, w.Tracks p use same a.slot b label key reads ∧
    a.deps = dependencies reads

/-- A body in progress waits for a query it has called. -/
def Asks (p : Program) (use : Usages) (same : Indistinct) (w : World) (caller : Caller) : Prop :=
  caller.activation.revision = w.revision ∧ ∃ label key reads label' key',
    w.Tracks p use same caller.activation.slot (.call caller.mode label' key' caller.next) label key
      reads ∧
    w.node? caller.callee = some (p.node label' key') ∧
    caller.activation.deps = recordOnce caller.callee (dependencies reads)

section Bodies

variable {w w' : World} {kept : List SlotId} {i : SlotId} {b : Body} {label : Label} {key : Key}
  {reads : List Read}

theorem Noted.placed {read : Read} (h : w.Noted p use same read) : w.Placed p use read := by
  rcases h with hseen | ⟨-, hplaced, -⟩
  · exact hseen.toPlaced
  · exact hplaced

theorem Noted.current {read : Read} (h : w.Noted p use same read) :
    read.Matches p use same w.inputs := by
  rcases h with hseen | ⟨-, -, hcurrent⟩
  · exact hseen.current rfl
  · exact hcurrent

theorem Noted.spares {read : Read} (h : w.Noted p use same read) (ht : Tidy p use w.toSystem)
    (ht' : Tidy p use w'.toSystem) (hw : w.Spares p use same kept w') : w'.Noted p use same read := by
  rcases h with hseen | ⟨hfailed, hplaced, hcurrent⟩
  · refine .inl ?_
    rw [hw.revision]
    exact hw.seen _ read (Nat.le_refl _) hseen
  · refine .inr ⟨hfailed, hplaced.of_node hw.node, ?_⟩
    rwa [hw.inputs ht ht']

/-- The reads of a body in progress are known as of now, unless a call has failed. -/
theorem Tracks.known (h : w.Tracks p use same i b label key reads) :
    w.Known p use same w.revision reads := by
  refine ⟨fun read hmem => (h.noted read hmem).placed, ?_⟩
  by_cases hfailed : ∃ read ∈ reads, read.Failed
  · exact .inl hfailed
  · refine .inr fun read hmem => ?_
    rcases h.noted read hmem with hseen | ⟨hthis, -⟩
    · exact hseen
    · exact absurd ⟨read, hmem, hthis⟩ hfailed

/-- What a run ends with is what the body yields. -/
theorem Tracks.result (hp : p.Pure use same False) {r : Except QueryError Value}
    (h : w.Tracks p use same i (.done r) label key reads) (ht : Tidy p use w.toSystem) :
    ∃ n r', Yields p w.inputs n ((p label).body key) r' ∧
      Agree (Value.AlikeOf (p label).valueType) r r' :=
  h.follows.result (hp.lawful label key (ht.keyType h.node))
    fun read hmem => (h.noted read hmem).current

theorem Tracks.next (h : w.Tracks p use same i b label key reads) {b' : Body} {reads' : List Read}
    (hfollows : Follows b reads' b') (hlawful : Lawful p use same False (p label).valueType b' b')
    (hnoted : ∀ read ∈ reads', w.Noted p use same read) :
    w.Tracks p use same i b' label key (reads ++ reads') where
  node := h.node
  lawful := hlawful
  follows := h.follows.trans hfollows
  noted read hmem := by
    rcases List.mem_append.1 hmem with hmem | hmem
    · exact h.noted read hmem
    · exact hnoted read hmem

theorem Tracks.spares (h : w.Tracks p use same i b label key reads) (ht : Tidy p use w.toSystem)
    (ht' : Tidy p use w'.toSystem) (hw : w.Spares p use same kept w') :
    w'.Tracks p use same i b label key reads :=
  ⟨hw.node _ _ h.node, h.lawful, h.follows, fun read hmem => (h.noted read hmem).spares ht ht' hw⟩

theorem Asks.spares {caller : Caller} (h : w.Asks p use same caller) (ht : Tidy p use w.toSystem)
    (ht' : Tidy p use w'.toSystem) (hw : w.Spares p use same kept w') :
    w'.Asks p use same caller := by
  obtain ⟨hrevision, label, key, reads, label', key', htracks, hcallee, hdeps⟩ := h
  exact ⟨hrevision.trans hw.revision.symm, label, key, reads, label', key',
    htracks.spares ht ht' hw, hw.node _ _ hcallee, hdeps⟩

/-- A caller depends on what it has called. -/
theorem Asks.depends {caller : Caller} (h : w.Asks p use same caller) :
    ∃ label key label' key', w.node? caller.activation.slot = some (p.node label key) ∧
      w.node? caller.callee = some (p.node label' key') ∧
      p.Depends (p.node label key) (p.node label' key') := by
  obtain ⟨-, label, key, reads, label', key', htracks, hcallee, -⟩ := h
  refine ⟨label, key, label', key', htracks.node, hcallee, label, key, label', key', rfl, ?_, rfl⟩
  exact htracks.follows.calls .here

end Bodies

/-! ## Revalidations -/

/-- Some of the recorded dependencies of a memo have been found unchanged. Unless a call of the run
    that left the memo has failed, the reads of these are known as of now. -/
structure Rechecked (p : Program) (use : Usages) (same : Indistinct) (w : World) (i : SlotId)
    (m : Memo) (done todo : List SlotId) (label : Label) (key : Key) (reads : List Read) : Prop where
  memo : w.memo? i = some m
  node : w.node? i = some (p.node label key)
  follows : Follows ((p label).body key) reads (.done (.ok m.value))
  deps : m.deps = dependencies reads
  split : m.deps = done ++ todo
  placed : ∀ read ∈ reads, w.Placed p use read
  seen : (∃ read ∈ reads, read.Failed) ∨ ∀ read ∈ reads,
    w.Seen p use same m.verifiedAt read ∧ (read.slot ∈ done → w.Seen p use same w.revision read)

/-- A revalidation in progress, of a memo that was valid up to `r`. -/
def Rechecks (p : Program) (use : Usages) (same : Indistinct) (w : World) (i : SlotId) (r : Revision)
    (done todo : List SlotId) : Prop :=
  ∃ m label key reads, w.Rechecked p use same i m done todo label key reads ∧ m.verifiedAt = r

section Revalidations

variable {w w' : World} {kept : List SlotId} {i : SlotId} {m : Memo} {done todo : List SlotId}
  {label : Label} {key : Key} {reads : List Read}

/-- At its beginning, a revalidation has found nothing yet. -/
theorem Reliable.rechecks (h : w.Reliable p use same i m) (hm : w.memo? i = some m) :
    w.Rechecks p use same i m.verifiedAt [] m.deps := by
  obtain ⟨label, key, reads, hi, -, hfollows, hdeps, hknown⟩ := h.run
  refine ⟨m, label, key, reads, ⟨hm, hi, hfollows, hdeps, rfl, hknown.placed, ?_⟩, rfl⟩
  exact hknown.seen.imp_right fun hreads read hmem =>
    ⟨hreads read hmem, fun hnone => absurd hnone List.not_mem_nil⟩

theorem Rechecked.spares (h : w.Rechecked p use same i m done todo label key reads)
    (hfair : w.Fair p use same) (hw : w.Spares p use same kept w') (hkept : i ∈ kept) :
    w'.Rechecked p use same i m done todo label key reads where
  memo := (hw.memo i hkept).trans h.memo
  node := hw.node _ _ h.node
  follows := h.follows
  deps := h.deps
  split := h.split
  placed read hmem := (h.placed read hmem).of_node hw.node
  seen := by
    refine h.seen.imp_right fun hreads read hmem => ?_
    obtain ⟨hseen, hdone⟩ := hreads read hmem
    refine ⟨hw.seen _ read (hfair.reliable i m h.memo).verified_le hseen, fun hslot => ?_⟩
    rw [hw.revision]
    exact hw.seen _ read (Nat.le_refl _) (hdone hslot)

theorem Rechecks.spares {r : Revision} (h : w.Rechecks p use same i r done todo)
    (hfair : w.Fair p use same) (hw : w.Spares p use same kept w') (hkept : i ∈ kept) :
    w'.Rechecks p use same i r done todo := by
  obtain ⟨m, label, key, reads, hrechecked, hverified⟩ := h
  exact ⟨m, label, key, reads, hrechecked.spares hfair hw hkept, hverified⟩

/-- One more dependency has been found unchanged. -/
theorem Rechecks.next {r : Revision} {dep : SlotId}
    (h : w.Rechecks p use same i r done (dep :: todo))
    (hseen : ∀ read, ¬read.Failed → read.slot = dep → w.Seen p use same r read →
      w.Seen p use same w.revision read) : w.Rechecks p use same i r (done ++ [dep]) todo := by
  obtain ⟨m, label, key, reads, hrechecked, hverified⟩ := h
  refine ⟨m, label, key, reads, ⟨hrechecked.memo, hrechecked.node, hrechecked.follows,
    hrechecked.deps, by simpa using hrechecked.split, hrechecked.placed, ?_⟩, hverified⟩
  by_cases hfailed : ∃ read ∈ reads, read.Failed
  · exact .inl hfailed
  · refine hrechecked.seen.imp_right fun hreads read hmem => ?_
    obtain ⟨hold, hdone⟩ := hreads read hmem
    refine ⟨hold, fun hslot => ?_⟩
    rcases List.mem_append.1 hslot with hslot | hslot
    · exact hdone hslot
    · have hok : ¬read.Failed := fun hthis => hfailed ⟨read, hmem, hthis⟩
      exact hseen read hok (List.mem_singleton.1 hslot) (hverified ▸ hold)

/-- What was recorded is read by a read of the run. -/
theorem Rechecked.read_of_mem (h : w.Rechecked p use same i m done todo label key reads)
    {dep : SlotId} (hmem : dep ∈ done ++ todo) : ∃ read ∈ reads, read.slot = dep := by
  rw [← h.split, h.deps] at hmem
  exact mem_dependencies.1 hmem

/-- A memo depends on the derived values that its run has read. -/
theorem Rechecks.depends (hp : p.Pure use same False) {r : Revision}
    (h : w.Rechecks p use same i r done todo) {dep : SlotId} (hmem : dep ∈ done ++ todo)
    {label' : Label} {key' : Key} (hdep : w.node? dep = some (p.node label' key')) :
    ∃ label key, w.node? i = some (p.node label key) ∧
      p.Depends (p.node label key) (p.node label' key') := by
  obtain ⟨m, label, key, reads, hrechecked, -⟩ := h
  obtain ⟨read, hread, rfl⟩ := hrechecked.read_of_mem hmem
  obtain ⟨l, k, hsource, hnode⟩ := (hrechecked.placed read hread).derived hp hdep
  exact ⟨label, key, hrechecked.node, label, key, l, k, rfl,
    hrechecked.follows.calls_of_mem hread hsource, hnode.symm⟩

/-- If all recorded dependencies have been found unchanged, and no call of the run has failed, the
    reads of the run are known as of now. -/
theorem Rechecked.known (h : w.Rechecked p use same i m done [] label key reads) :
    w.Known p use same w.revision reads := by
  refine ⟨h.placed, h.seen.imp_right fun hreads read hmem => (hreads read hmem).2 ?_⟩
  have hsplit := h.split
  rw [List.append_nil] at hsplit
  rw [← hsplit, h.deps]
  exact mem_dependencies.2 ⟨read, hmem, rfl⟩

/-- A transparent body yields the error of the next dependency, if this yields an error. -/
theorem Rechecked.fails (hp : p.Pure use same False) {dep : SlotId} {rest : List SlotId}
    (h : w.Rechecked p use same i m done (dep :: rest) label key reads)
    (ht : Tidy p use w.toSystem) (htransparent : Transparent ((p label).body key))
    {label' : Label} {key' : Key} (hdep : w.node? dep = some (p.node label' key')) {e : QueryError}
    (hfails : ∃ n, Yields p w.inputs n ((p label').body key') (.error e)) :
    ∃ n, Yields p w.inputs n ((p label).body key) (.error e) := by
  have hseen := h.seen.resolve_left fun ⟨read, hmem, hfailed⟩ =>
    h.follows.not_failed htransparent hmem hfailed
  have hat : FailsAt p use same w.inputs e reads := by
    refine failsAt_of_dependencies (h.deps.symm.trans h.split) ?_ ?_
    · exact fun read hmem hdone => ((hseen read hmem).2 hdone).current rfl
    · intro read hmem hslot
      obtain ⟨l, k, hsource, hnode⟩ := (h.placed read hmem).derived hp (hslot ▸ hdep)
      exact ⟨l, k, hsource, hp.body_eq hnode ▸ hfails⟩
  exact h.follows.fails htransparent (hp.lawful label key (ht.keyType h.node)) hat

end Revalidations

/-! ## Controls and frames -/

/-- The body of a slot yields an error now. -/
def Errs (p : Program) (w : World) (i : SlotId) (e : QueryError) : Prop :=
  ∀ label key, w.node? i = some (p.node label key) →
    ∃ n, Yields p w.inputs n ((p label).body key) (.error e)

theorem Errs.intro (hp : p.Pure use same False) {w : World} {i : SlotId} {label : Label} {key : Key}
    (hi : w.node? i = some (p.node label key)) {e : QueryError}
    (h : ∃ n, Yields p w.inputs n ((p label).body key) (.error e)) : w.Errs p i e := by
  intro label' key' hi'
  rwa [← hp.body_eq (Option.some.inj (hi.symm.trans hi'))]

/-- What frames know that wait for the slot that was asked for. -/
def Awaits (p : Program) (use : Usages) (same : Indistinct) (w : World) (root : SlotId) :
    List Frame → Prop
  | [] => True
  | .touching walk dep :: frames =>
    walk.revision = w.revision ∧ walk.slot = asked root frames ∧
      (∃ done, w.Rechecks p use same walk.slot walk.verifiedAt done (dep :: walk.rest)) ∧
      Awaits p use same w root frames
  | .calling caller :: frames =>
    caller.activation.slot = asked root frames ∧ w.Asks p use same caller ∧
      Awaits p use same w root frames

/-- What the control knows of the slot that was asked for. A value that is answered is kept, and it
    is valid now; an error that is answered is that of the body. -/
def Knows (p : Program) (use : Usages) (same : Indistinct) (w : World) (i : SlotId) :
    Control → Prop
  | .fetch j => j = i
  | .walk walk => walk.slot = i ∧ walk.revision = w.revision ∧
    ∃ done, w.Rechecks p use same i walk.verifiedAt done walk.rest
  | .compute j r => j = i ∧ r = w.revision
  | .body a b => a.slot = i ∧ w.Runs p use same a b
  | .answer (.ok stamped) =>
    ∃ m, w.memo? i = some m ∧ m.toStamped = stamped ∧ m.verifiedAt = w.revision
  | .answer (.error e) => w.Errs p i e

/-- An evaluation in progress, on its own. -/
structure Stands (p : Program) (use : Usages) (same : Indistinct) (w : World) (root : SlotId)
    (e : Evaluation) : Prop where
  active : w.active = e.held.reverse
  node : ∃ label key, w.node? (asked root e.frames) = some (p.node label key)
  control : w.Knows p use same (asked root e.frames) e.control
  frames : w.Awaits p use same root e.frames

section Frames

variable {w w' : World} {root : SlotId} {frames : List Frame} {label : Label} {key : Key}

theorem Awaits.spares (h : w.Awaits p use same root frames) (hfair : w.Fair p use same)
    (ht' : Tidy p use w'.toSystem) {kept : List SlotId} (hw : w.Spares p use same kept w')
    (hkept : frames.map Frame.slot ⊆ kept) : w'.Awaits p use same root frames := by
  induction frames with
  | nil => trivial
  | cons frame frames ih =>
    rw [List.map_cons, List.cons_subset] at hkept
    obtain ⟨hself, hrest⟩ := hkept
    cases frame with
    | touching walk dep =>
      obtain ⟨hrevision, hslot, ⟨done, hrechecks⟩, hawaits⟩ := h
      exact ⟨hrevision.trans hw.revision.symm, hslot, ⟨done, hrechecks.spares hfair hw hself⟩,
        ih hawaits hrest⟩
    | calling caller =>
      obtain ⟨hslot, hasks, hawaits⟩ := h
      exact ⟨hslot, hasks.spares hfair.tidy ht' hw, ih hawaits hrest⟩

/-- Each slot that waits depends on the slot that was asked for. -/
theorem Awaits.depends (hp : p.Pure use same False) (h : w.Awaits p use same root frames)
    (hi : w.node? (asked root frames) = some (p.node label key)) :
    ∀ frame ∈ frames, ∃ m, w.node? frame.slot = some m ∧
      Relation.TransGen p.Depends m (p.node label key) := by
  induction frames generalizing label key with
  | nil => exact fun _ hmem => absurd hmem List.not_mem_nil
  | cons frame frames ih =>
    -- the slots further out depend on the one of the innermost frame
    have hout {l : Label} {k : Key} (hslot : frame.slot = asked root frames)
        (hnode : w.node? frame.slot = some (p.node l k))
        (hdepends : p.Depends (p.node l k) (p.node label key))
        (hawaits : w.Awaits p use same root frames) : ∀ frame' ∈ frame :: frames,
          ∃ m, w.node? frame'.slot = some m ∧ Relation.TransGen p.Depends m (p.node label key) := by
      intro frame' hmem
      rcases List.mem_cons.1 hmem with rfl | hmem
      · exact ⟨_, hnode, .single hdepends⟩
      · obtain ⟨m, hm, hto⟩ := ih hawaits (hslot ▸ hnode) frame' hmem
        exact ⟨m, hm, hto.tail hdepends⟩
    cases frame with
    | touching walk dep =>
      obtain ⟨-, hslot, ⟨done, hrechecks⟩, hawaits⟩ := h
      have hmem : dep ∈ done ++ dep :: walk.rest := by simp
      obtain ⟨l, k, hnode, hdepends⟩ := hrechecks.depends hp hmem hi
      exact hout hslot hnode hdepends hawaits
    | calling caller =>
      obtain ⟨hslot, hasks, hawaits⟩ := h
      obtain ⟨l, k, l', k', hnode, hcallee, hdepends⟩ := hasks.depends
      rw [Option.some.inj (hcallee.symm.trans hi)] at hdepends
      exact hout hslot hnode hdepends hawaits

/-- Without cycles, the slot that was asked for is not one of those that wait. -/
theorem Awaits.not_mem (hp : p.Pure use same False) (hacyclic : p.Acyclic)
    (h : w.Awaits p use same root frames)
    (hi : w.node? (asked root frames) = some (p.node label key)) :
    asked root frames ∉ frames.map Frame.slot := by
  intro hmem
  obtain ⟨frame, hframe, hslot⟩ := List.mem_map.1 hmem
  obtain ⟨m, hm, hdepends⟩ := h.depends hp hi frame hframe
  rw [hslot, hi] at hm
  rw [← Option.some.inj hm] at hdepends
  exact hacyclic _ hdepends

end Frames

end World

end RedGreen
