import RedGreen.Evaluation
import RedGreen.Proofs.Soundness
import RedGreen.Proofs.Steps

set_option autoImplicit false

/-! # Slots in flight

Several evaluations can be on their way at once, each parked in the middle of its own. A *flight* is
a slot in progress together with the revision at which its request began; this is the stamp that a
memo made by the flight will bear. While slots are in flight, more has to be known of a read than the
stamps of what was read: whatever memo the slot will have later must bear a later stamp than the
reader. So a read is *watched* if a flight of the slot that was read began after the reader, and if
the slot, in case it holds no memo, can only be entered at a later revision.

In a *steady* world the reads of all memos are watched. The operations of an evaluation keep a world
steady, and they keep every read watched that was (`Passes`). -/

namespace RedGreen

variable {p : Program} {use : Usages} {same : Indistinct} {yields : Prop}

/-! ## Flights -/

/-- A slot in progress and the revision at which its request began. -/
structure Flight where
  slot : SlotId
  revision : Revision

/-- The flight that a control stands for. -/
def Control.flight? : Control → Option Flight
  | .fetch _ => none
  | .walk w => some ⟨w.slot, w.revision⟩
  | .compute slot revision => some ⟨slot, revision⟩
  | .body a _ => some ⟨a.slot, a.revision⟩
  | .answer _ => none

/-- The flight that a frame stands for. -/
def Frame.flight : Frame → Flight
  | .touching walk _ => ⟨walk.slot, walk.revision⟩
  | .calling caller => ⟨caller.activation.slot, caller.activation.revision⟩

/-- The flights of an evaluation, innermost first. -/
def Evaluation.flights (e : Evaluation) : List Flight :=
  e.control.flight?.toList ++ e.frames.map Frame.flight

theorem Frame.slot_eq (frame : Frame) : frame.slot = frame.flight.slot := by cases frame <;> rfl

theorem Evaluation.held_eq (e : Evaluation) : e.held = e.flights.map Flight.slot := by
  obtain ⟨control, frames⟩ := e
  have hframes : frames.map Frame.slot = (frames.map Frame.flight).map Flight.slot := by
    rw [List.map_map]
    exact List.map_congr_left fun frame _ => frame.slot_eq
  cases control <;> simp [held, flights, Control.slot?, Control.flight?, hframes]

namespace World

/-! ## Watched reads -/

/-- What is known of a read of a reader that is valid up to `r`, while some slots are in flight. -/
structure Watched (p : Program) (use : Usages) (same : Indistinct) (w : World) (F : List Flight)
    (r : Revision) (read : Read) : Prop extends Seen p use same w r read where
  /-- A value that is not kept can be computed only at a later revision. -/
  absent : ∀ label key, read.source = .derived label key → w.memo? read.slot = none → r < w.revision
  /-- What is in flight began later. -/
  inFlight : ∀ f ∈ F, f.slot = read.slot → r < f.revision

/-- The reads of the run that left a memo. -/
structure Made (p : Program) (use : Usages) (same : Indistinct) (w : World) (F : List Flight)
    (i : SlotId) (m : Memo) (reads : List Read) : Prop where
  run : ∃ label key, w.node? i = some (p.node label key) ∧ m.value.type = (p label).valueType ∧
    Follows ((p label).body key) reads (.done (.ok m.value))
  deps : m.deps = dependencies reads
  watched : ∀ read ∈ reads, w.Watched p use same F m.verifiedAt read

/-- A derived slot is in flight, at a revision at which its memo is not valid. -/
structure Flies (p : Program) (w : World) (f : Flight) : Prop where
  node : ∃ label key, w.node? f.slot = some (p.node label key)
  active : f.slot ∈ w.active
  revision : f.revision ≤ w.revision
  stale : ∀ m, w.memo? f.slot = some m → m.verifiedAt < f.revision

/-- The given slots are in flight, each once, and the reads of all memos are watched. -/
structure Steady (p : Program) (use : Usages) (same : Indistinct) (w : World) (F : List Flight) :
    Prop where
  tidy : Tidy p use w.toSystem
  memoize : w.memoize = true
  flies : ∀ f ∈ F, w.Flies p f
  distinct : (F.map Flight.slot).Nodup
  changed_le : ∀ i m, w.memo? i = some m → m.changedAt ≤ m.verifiedAt
  verified_le : ∀ i m, w.memo? i = some m → m.verifiedAt ≤ w.revision
  made : ∀ i m, w.memo? i = some m → ∃ reads, w.Made p use same F i m reads

/-- What the time that passes between two worlds keeps: reads stay watched, and the memos of some
    slots are not renewed. -/
structure Passes (p : Program) (use : Usages) (same : Indistinct) (w : World) (F : List Flight)
    (w' : World) (F' : List Flight) (kept : List SlotId) : Prop where
  revision : w.revision ≤ w'.revision
  inputs : w'.revision = w.revision → w'.inputs = w.inputs
  cancelled : ∀ t ∈ w.cancelled, t ∈ w'.cancelled
  node : ∀ i n, w.node? i = some n → w'.node? i = some n
  memo : ∀ i ∈ kept, w'.memo? i = w.memo? i ∨ w'.memo? i = none
  watched : ∀ r read, r ≤ w.revision → w.Watched p use same F r read →
    w'.Watched p use same F' r read

variable {w w' w'' : World} {F F' F'' : List Flight} {kept : List SlotId}

namespace Watched

variable {r : Revision} {read : Read}

/-- Fewer slots in flight are no danger. -/
theorem mono (h : w.Watched p use same F r read) (hsub : F' ⊆ F) : w.Watched p use same F' r read :=
  ⟨h.toSeen, h.absent, fun f hf => h.inFlight f (hsub hf)⟩

theorem grows (h : w.Watched p use same F r read) (ht : Tidy p use w.toSystem)
    (ht' : Tidy p use w'.toSystem) (hw : Grows w w') : w'.Watched p use same F r read where
  toSeen := h.toSeen.grows ht ht' hw
  absent label key hsource hmemo := by
    rw [hw.revision]
    exact h.absent label key hsource ((hw.memo _).symm.trans hmemo)
  inFlight := h.inFlight

/-- A slot that is entered now was valid longer than any reader of it, or it has no memo: its flight
    begins later. -/
theorem enter (h : w.Watched p use same F r read) {i : SlotId} {label : Label} {key : Key}
    (hp : p.Pure use same yields) (hi : w.node? i = some (p.node label key))
    (hstale : ∀ m, w.memo? i = some m → m.verifiedAt < w.revision) :
    w.Watched p use same (⟨i, w.revision⟩ :: F) r read where
  toSeen := h.toSeen
  absent := h.absent
  inFlight f hf hslot := by
    rcases List.mem_cons.1 hf with rfl | hf
    · obtain rfl : i = read.slot := hslot
      cases hmemo : w.memo? read.slot with
      | some m => exact Nat.lt_of_le_of_lt (h.verified m hmemo) (hstale m hmemo)
      | none =>
        obtain ⟨label', key', hsource, -⟩ := h.toPlaced.derived hp hi
        exact h.absent label' key' hsource hmemo
    · exact h.inFlight f hf hslot

/-- A renewal by a flight comes after every reader of the slot. -/
theorem renews (hp : p.Pure use same yields) (h : w.Watched p use same F r read)
    (ht : Tidy p use w.toSystem) {f : Flight} (hf : f ∈ F) {m : Memo} {label : Label} {key : Key}
    (hi : w.node? f.slot = some (p.node label key)) (hverified : m.verifiedAt = f.revision)
    (hw : Commits p use (same (p label).id) w f.slot m w') (hsub : F' ⊆ F) :
    w'.Watched p use same F' r read where
  toSeen := by
    have hlater (hslot : read.slot = f.slot) : r < m.verifiedAt := by
      rw [hverified]
      exact h.inFlight f hf hslot.symm
    exact h.toSeen.renews hp ht hw.tidy hi hw.toRenews hw.supersedes
      (fun hslot => Nat.le_of_lt (hlater hslot)) fun hslot => .inl (hlater hslot)
  absent label' key' hsource hmemo := by
    rw [hw.revision]
    by_cases hslot : read.slot = f.slot
    · rw [hslot, hw.memo_self] at hmemo
      cases hmemo
    · exact h.absent label' key' hsource ((hw.memo_other _ hslot).symm.trans hmemo)
  inFlight f' hf' := h.inFlight f' (hsub hf')

/-- What a clear drops was not valid as of now, provided that it drops nothing that is. -/
theorem clears (h : w.Watched p use same F r read) (ht : Tidy p use w.toSystem)
    (ht' : Tidy p use w'.toSystem) {before : Revision} (hbefore : before ≤ w.revision)
    (hw : Clears w before w') : w'.Watched p use same F r read where
  toSeen := h.toSeen.clears ht ht' hw
  absent label key hsource hmemo := by
    rw [hw.revision]
    rcases hw.memo read.slot with hkept | ⟨-, m, hm, hstale⟩
    · exact h.absent label key hsource (hkept.symm.trans hmemo)
    · exact Nat.lt_of_le_of_lt (h.verified m hm) (Nat.lt_of_lt_of_le hstale hbefore)
  inFlight := h.inFlight

theorem writes (h : w.Watched p use same F r read) (ht : Tidy p use w.toSystem)
    (ht' : Tidy p use w'.toSystem) {i : SlotId} {v : Value} (hw : Writes w i v w')
    (hr : r ≤ w.revision) : w'.Watched p use same F r read where
  toSeen := h.toSeen.writes ht ht' hw hr
  absent _ _ _ _ := by
    rw [hw.revision]
    exact Nat.lt_succ_of_le hr
  inFlight := h.inFlight

end Watched

/-! ## Steady worlds are sound -/

theorem Made.justified {i : SlotId} {m : Memo} {reads : List Read}
    (h : w.Made p use same F i m reads) (hchanged : m.changedAt ≤ m.verifiedAt)
    (hverified : m.verifiedAt ≤ w.revision) : w.Justified p use same i m := by
  obtain ⟨label, key, hi, htype, hfollows⟩ := h.run
  exact ⟨hchanged, hverified, label, key, reads, hi, htype, hfollows, h.deps,
    fun read hmem => (h.watched read hmem).toSeen⟩

theorem Steady.sound (h : w.Steady p use same F) : w.Sound p use same where
  tidy := h.tidy
  memoize := h.memoize
  justified i m hm := by
    obtain ⟨reads, hmade⟩ := h.made i m hm
    exact hmade.justified (h.changed_le i m hm) (h.verified_le i m hm)

/-- What is seen of a memo is watched, if the slot is not in flight any more. -/
theorem Seen.watched {r : Revision} {read : Read} (hseen : w.Seen p use same r read) {i : SlotId}
    (hslot : read.slot = i) {m : Memo} (hm : w.memo? i = some m)
    (hgrounded : ∀ f ∈ F, f.slot ≠ i) : w.Watched p use same F r read where
  toSeen := hseen
  absent _ _ _ hmemo := by
    rw [hslot, hm] at hmemo
    cases hmemo
  inFlight f hf hflight := absurd (hflight.trans hslot) (hgrounded f hf)

/-! ## The passing of time -/

namespace Passes

theorem refl (w : World) (F : List Flight) (kept : List SlotId) :
    Passes p use same w F w F kept :=
  ⟨Nat.le_refl _, fun _ => rfl, fun _ h => h, fun _ _ h => h, fun _ _ => .inl rfl,
    fun _ _ _ h => h⟩

theorem trans (h : Passes p use same w F w' F' kept) (h' : Passes p use same w' F' w'' F'' kept) :
    Passes p use same w F w'' F'' kept where
  revision := Nat.le_trans h.revision h'.revision
  inputs hrevision := by
    have hfirst : w'.revision = w.revision :=
      Nat.le_antisymm (hrevision ▸ h'.revision) h.revision
    rw [h'.inputs (hrevision.trans hfirst.symm), h.inputs hfirst]
  cancelled t ht := h'.cancelled t (h.cancelled t ht)
  node i n hi := h'.node i n (h.node i n hi)
  memo i hi := by
    rcases h'.memo i hi with hsame | hgone
    · rw [hsame]
      exact h.memo i hi
    · exact .inr hgone
  watched r read hr hread :=
    h'.watched r read (Nat.le_trans hr h.revision) (h.watched r read hr hread)

theorem subset {kept' : List SlotId} (h : Passes p use same w F w' F' kept)
    (hsub : kept' ⊆ kept) : Passes p use same w F w' F' kept' :=
  ⟨h.revision, h.inputs, h.cancelled, h.node, fun i hi => h.memo i (hsub hi), h.watched⟩

end Passes

/-! ## What operations do to a steady world -/

theorem Passes.of_extends (hw : Extends w w') (ht : Tidy p use w.toSystem)
    (ht' : Tidy p use w'.toSystem)
    (hmemo : ∀ i ∈ kept, w'.memo? i = w.memo? i ∨ w'.memo? i = none)
    (hwatched : ∀ r read, r ≤ w.revision → w.Watched p use same F r read →
      w'.Watched p use same F' r read) : Passes p use same w F w' F' kept where
  revision := Nat.le_of_eq hw.revision.symm
  inputs _ := hw.inputs ht ht'
  cancelled t ht := by rwa [hw.cancelled]
  node := hw.node
  memo := hmemo
  watched := hwatched

theorem Made.passes {i : SlotId} {m : Memo} {reads : List Read} (h : w.Made p use same F i m reads)
    (hverified : m.verifiedAt ≤ w.revision) (hpasses : Passes p use same w F w' F' kept) :
    w'.Made p use same F' i m reads := by
  obtain ⟨label, key, hi, htype, hfollows⟩ := h.run
  exact ⟨⟨label, key, hpasses.node i _ hi, htype, hfollows⟩, h.deps,
    fun read hmem => hpasses.watched _ read hverified (h.watched read hmem)⟩

/-- A world stays steady if what was watched is watched, if the memos that are there were there, and
    if the flights go on. -/
theorem Steady.of_passes (h : w.Steady p use same F) (ht' : Tidy p use w'.toSystem)
    (hmemoize : w'.memoize = w.memoize) (hpasses : Passes p use same w F w' F' kept)
    (hmemo : ∀ i m, w'.memo? i = some m → w.memo? i = some m) (hsub : F' ⊆ F)
    (hdistinct : (F'.map Flight.slot).Nodup) (hactive : ∀ f ∈ F', f.slot ∈ w'.active) :
    w'.Steady p use same F' where
  tidy := ht'
  memoize := hmemoize.trans h.memoize
  flies f hf := by
    have hflies := h.flies f (hsub hf)
    obtain ⟨label, key, hi⟩ := hflies.node
    exact ⟨⟨label, key, hpasses.node _ _ hi⟩, hactive f hf,
      Nat.le_trans hflies.revision hpasses.revision, fun m hm => hflies.stale m (hmemo _ m hm)⟩
  distinct := hdistinct
  changed_le i m hm := h.changed_le i m (hmemo i m hm)
  verified_le i m hm := Nat.le_trans (h.verified_le i m (hmemo i m hm)) hpasses.revision
  made i m hm := by
    obtain ⟨reads, hmade⟩ := h.made i m (hmemo i m hm)
    exact ⟨reads, hmade.passes (h.verified_le i m (hmemo i m hm)) hpasses⟩

/-- Flights may be forgotten. -/
theorem Steady.mono (h : w.Steady p use same F) (hsub : F' ⊆ F)
    (hdistinct : (F'.map Flight.slot).Nodup) (kept : List SlotId) :
    w.Steady p use same F' ∧ Passes p use same w F w F' kept := by
  have hpasses : Passes p use same w F w F' kept :=
    .of_extends (.refl w) h.tidy h.tidy (fun _ _ => .inl rfl) fun _ _ _ hread => hread.mono hsub
  exact ⟨h.of_passes h.tidy rfl hpasses (fun _ _ hm => hm) hsub hdistinct
    fun f hf => (h.flies f (hsub hf)).active, hpasses⟩

theorem Steady.grows (h : w.Steady p use same F) (ht' : Tidy p use w'.toSystem) (hw : Grows w w')
    (hactive : w'.active = w.active) (kept : List SlotId) :
    w'.Steady p use same F ∧ Passes p use same w F w' F kept := by
  have hpasses : Passes p use same w F w' F kept :=
    .of_extends hw.toExtends h.tidy ht' (fun i _ => .inl (hw.memo i))
      fun _ _ _ hread => hread.grows h.tidy ht' hw
  refine ⟨h.of_passes ht' hw.memoize hpasses (fun i m hm => (hw.memo i).symm.trans hm)
    (List.Subset.refl F) h.distinct fun f hf => ?_, hpasses⟩
  rw [hactive]
  exact (h.flies f hf).active

theorem Steady.quiet (h : w.Steady p use same F) (hw : Quiet w w') (hactive : w'.active = w.active)
    (kept : List SlotId) : w'.Steady p use same F ∧ Passes p use same w F w' F kept :=
  h.grows (hw.tidy h.tidy) hw.grows hactive kept

/-- A slot takes off, at the present revision. -/
theorem Steady.enter (hp : p.Pure use same yields) (h : w.Steady p use same F) {i : SlotId}
    {label : Label} {key : Key} (hi : w.node? i = some (p.node label key))
    (hstale : ∀ m, w.memo? i = some m → m.verifiedAt ≠ w.revision) (hout : i ∉ w.active)
    (hw : Quiet w w') (hactive : w'.active = w.active ++ [i]) (kept : List SlotId) :
    w'.Steady p use same (⟨i, w.revision⟩ :: F) ∧
      Passes p use same w F w' (⟨i, w.revision⟩ :: F) kept := by
  have hbefore (m : Memo) (hm : w.memo? i = some m) : m.verifiedAt < w.revision :=
    Nat.lt_of_le_of_ne (h.verified_le i m hm) (hstale m hm)
  have ht' := hw.tidy h.tidy
  have hwatched (r : Revision) (read : Read) (hread : w.Watched p use same F r read) :
      w'.Watched p use same (⟨i, w.revision⟩ :: F) r read :=
    (hread.enter hp hi hbefore).grows h.tidy ht' hw.grows
  have hpasses : Passes p use same w F w' (⟨i, w.revision⟩ :: F) kept :=
    .of_extends hw.grows.toExtends h.tidy ht' (fun j _ => .inl (hw.grows.memo j))
      fun r read _ => hwatched r read
  refine ⟨⟨ht', hw.memoize.trans h.memoize, ?_, ?_, ?_, ?_, ?_⟩, hpasses⟩
  · intro f hf
    rcases List.mem_cons.1 hf with rfl | hf
    · refine ⟨⟨label, key, hw.grows.node _ _ hi⟩, ?_, Nat.le_of_eq hw.revision.symm, ?_⟩
      · rw [hactive]
        exact List.mem_append_right _ (List.mem_singleton_self i)
      · exact fun m hm => hbefore m ((hw.grows.memo i).symm.trans hm)
    · obtain ⟨⟨l, k, hnode⟩, hin, hrevision, hstale'⟩ := h.flies f hf
      refine ⟨⟨l, k, hw.grows.node _ _ hnode⟩, ?_, Nat.le_trans hrevision hpasses.revision, ?_⟩
      · rw [hactive]
        exact List.mem_append_left _ hin
      · exact fun m hm => hstale' m ((hw.grows.memo _).symm.trans hm)
  · refine List.nodup_cons.2 ⟨fun hmem => ?_, h.distinct⟩
    obtain ⟨f, hf, hslot⟩ := List.mem_map.1 hmem
    obtain rfl : f.slot = i := hslot
    exact hout (h.flies f hf).active
  · exact fun j m hm => h.changed_le j m ((hw.grows.memo j).symm.trans hm)
  · intro j m hm
    exact Nat.le_trans (h.verified_le j m ((hw.grows.memo j).symm.trans hm)) hpasses.revision
  · intro j m hm
    have hm := (hw.grows.memo j).symm.trans hm
    obtain ⟨reads, hmade⟩ := h.made j m hm
    exact ⟨reads, hmade.passes (h.verified_le j m hm) hpasses⟩

/-- The slots of the other flights are other slots. -/
theorem Steady.ne_of_mem {f f' : Flight} (h : w.Steady p use same (f :: F)) (hf' : f' ∈ F) :
    f'.slot ≠ f.slot := by
  intro hslot
  exact (List.nodup_cons.1 h.distinct).1 (hslot ▸ List.mem_map_of_mem hf')

/-- A flight ends without a result. -/
theorem Steady.leave {f : Flight} (h : w.Steady p use same (f :: F)) (hw : Quiet w w')
    (hactive : w'.active = dropInnermost w.active f.slot) (kept : List SlotId) :
    w'.Steady p use same F ∧ Passes p use same w (f :: F) w' F kept := by
  have ht' := hw.tidy h.tidy
  have hsub : F ⊆ f :: F := List.subset_cons_self f F
  have hpasses : Passes p use same w (f :: F) w' F kept :=
    .of_extends hw.grows.toExtends h.tidy ht' (fun j _ => .inl (hw.grows.memo j))
      fun r read _ hread => (hread.mono hsub).grows h.tidy ht' hw.grows
  refine ⟨h.of_passes ht' hw.memoize hpasses (fun j m hm => (hw.grows.memo j).symm.trans hm) hsub
    (List.nodup_cons.1 h.distinct).2 fun f' hf' => ?_, hpasses⟩
  rw [hactive]
  exact mem_dropInnermost (h.flies f' (hsub hf')).active (h.ne_of_mem hf')

/-- A flight lands: a memo of the revision at which it began is kept, and its reads are watched. -/
theorem Steady.land (hp : p.Pure use same yields) {f : Flight} (h : w.Steady p use same (f :: F))
    {m : Memo} {label : Label} {key : Key} (hi : w.node? f.slot = some (p.node label key))
    (hw : Commits p use (same (p label).id) w f.slot m w') (hverified : m.verifiedAt = f.revision)
    (htype : m.value.type = (p label).valueType) {reads : List Read}
    (hfollows : Follows ((p label).body key) reads (.done (.ok m.value)))
    (hdeps : m.deps = dependencies reads)
    (hreads : ∀ read ∈ reads, w.Watched p use same (f :: F) f.revision read)
    (hkept : f.slot ∉ kept) :
    w'.Steady p use same F ∧ Passes p use same w (f :: F) w' F kept := by
  have hsub : F ⊆ f :: F := List.subset_cons_self f F
  have hself := h.flies f List.mem_cons_self
  have hpasses : Passes p use same w (f :: F) w' F kept := by
    refine .of_extends hw.toExtends h.tidy hw.tidy (fun j hj => .inl ?_) ?_
    · exact hw.memo_other j fun heq => hkept (heq ▸ hj)
    · exact fun r read _ hread =>
        hread.renews hp h.tidy List.mem_cons_self hi hverified hw hsub
  -- a memo is the new one, or it was there before
  have hmemo (j : SlotId) (o : Memo) (ho : w'.memo? j = some o) :
      j = f.slot ∧ o = m ∨ w.memo? j = some o := by
    by_cases hj : j = f.slot
    · subst hj
      exact .inl ⟨rfl, Option.some.inj (ho.symm.trans hw.memo_self)⟩
    · exact .inr ((hw.memo_other j hj).symm.trans ho)
  refine ⟨⟨hw.tidy, hw.memoize.trans h.memoize, ?_, (List.nodup_cons.1 h.distinct).2, ?_, ?_, ?_⟩,
    hpasses⟩
  · intro f' hf'
    obtain ⟨⟨l, k, hnode⟩, hin, hrevision, hstale⟩ := h.flies f' (hsub hf')
    have hne := h.ne_of_mem hf'
    refine ⟨⟨l, k, hw.node _ _ hnode⟩, ?_, Nat.le_trans hrevision hpasses.revision, ?_⟩
    · rw [hw.active]
      exact mem_dropInnermost hin hne
    · exact fun o ho => hstale o ((hw.memo_other _ hne).symm.trans ho)
  · intro j o ho
    rcases hmemo j o ho with ⟨rfl, rfl⟩ | ho
    · refine hw.supersedes.changed_le fun old hold => Nat.le_trans (h.changed_le _ old hold) ?_
      rw [hverified]
      exact Nat.le_of_lt (hself.stale old hold)
    · exact h.changed_le j o ho
  · intro j o ho
    refine Nat.le_trans ?_ hpasses.revision
    rcases hmemo j o ho with ⟨rfl, rfl⟩ | ho
    · exact hverified ▸ hself.revision
    · exact h.verified_le j o ho
  · intro j o ho
    rcases hmemo j o ho with ⟨rfl, rfl⟩ | ho
    · refine ⟨reads, ⟨label, key, hw.node _ _ hi, htype, hfollows⟩, hdeps, fun read hmem => ?_⟩
      rw [hverified]
      exact hpasses.watched _ read hself.revision (hreads read hmem)
    · obtain ⟨reads', hmade⟩ := h.made j o ho
      exact ⟨reads', hmade.passes (h.verified_le j o ho) hpasses⟩

/-- A clear of memos that are not valid as of now. -/
theorem Steady.clears (h : w.Steady p use same F) (ht' : Tidy p use w'.toSystem)
    {before : Revision} (hbefore : before ≤ w.revision) (hw : Clears w before w')
    (hactive : w'.active = w.active) (kept : List SlotId) :
    w'.Steady p use same F ∧ Passes p use same w F w' F kept := by
  have hpasses : Passes p use same w F w' F kept :=
    .of_extends hw.toExtends h.tidy ht' (fun i _ => (hw.memo i).imp_right And.left)
      fun _ _ _ hread => hread.clears h.tidy ht' hbefore hw
  refine ⟨h.of_passes ht' hw.memoize hpasses ?_ (List.Subset.refl F) h.distinct fun f hf => ?_,
    hpasses⟩
  · intro i m hm
    rcases hw.memo i with hsame | ⟨hgone, -⟩
    · exact hsame.symm.trans hm
    · rw [hgone] at hm
      cases hm
  · rw [hactive]
    exact (h.flies f hf).active

/-- A write issues a revision that is later than the stamps of all memos and of all flights. -/
theorem Steady.writes (h : w.Steady p use same F) (ht' : Tidy p use w'.toSystem) {i : SlotId}
    {v : Value} (hw : Writes w i v w') (hactive : w'.active = w.active) (kept : List SlotId) :
    w'.Steady p use same F ∧ Passes p use same w F w' F kept := by
  have hpasses : Passes p use same w F w' F kept := by
    refine ⟨?_, fun hrevision => ?_, fun t ht => hw.cancelled ▸ ht, ?_, fun j _ => .inl (hw.memo j),
      fun r read hr hread => hread.writes h.tidy ht' hw hr⟩
    · rw [hw.revision]
      exact Nat.le_succ _
    · rw [hw.revision] at hrevision
      exact absurd hrevision (Nat.succ_ne_self w.revision)
    · exact fun j n hj => (hw.node j).trans hj
  refine ⟨h.of_passes ht' hw.memoize hpasses (fun j m hm => (hw.memo j).symm.trans hm)
    (List.Subset.refl F) h.distinct fun f hf => ?_, hpasses⟩
  rw [hactive]
  exact (h.flies f hf).active

/-- A cancellation touches no slot. -/
theorem Steady.cancel (h : w.Steady p use same F) (t : Token) (kept : List SlotId) :
    (w.cancel t).Steady p use same F ∧ Passes p use same w F (w.cancel t) F kept := by
  have hpasses : Passes p use same w F (w.cancel t) F kept :=
    ⟨Nat.le_refl _, fun _ => rfl, fun t' ht' => List.mem_cons_of_mem t ht', fun _ _ hi => hi,
      fun _ _ => .inl rfl, fun _ _ _ hread => ⟨⟨⟨hread.node, hread.typed⟩, hread.current,
        hread.unwritten, hread.verified, hread.unchanged⟩, hread.absent, hread.inFlight⟩⟩
  exact ⟨h.of_passes h.tidy rfl hpasses (fun _ _ hm => hm) (List.Subset.refl F) h.distinct
    fun f hf => (h.flies f hf).active, hpasses⟩

end World

end RedGreen
