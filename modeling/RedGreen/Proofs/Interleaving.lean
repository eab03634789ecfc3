import RedGreen.Evaluation.Run
import RedGreen.Proofs.InFlight

set_option autoImplicit false

/-! # Evaluations that other evaluations overlap

An evaluation that is under way waits in several places at once: its control stands for the
innermost slot, and each frame for a slot further out. What each of them knows (`Walking`, `Calling`,
`Running`) is told by watched reads, so it survives whatever happens between two steps, as long as
the memos of its own slots are not renewed (`UnderWay.passes`). One step keeps the world steady and
the evaluation under way, and keeps what other evaluations know (`step_fine`). -/

namespace RedGreen

open Evaluation

variable {p : Program} {use : Usages} {same : Indistinct} {t : Token}

/-! ## What an evaluation knows -/

/-- A derived value that is asked for, and the revision since when. -/
structure Demand where
  label : Label
  key : Key
  since : Revision

namespace World

/-- A revalidation has brought some of the recorded dependencies up to date. As far as they go, the
    run that left the memo would do the same at the revision of the revalidation. If the memo was
    dropped meanwhile, there is nothing to know. -/
def Walking (p : Program) (use : Usages) (same : Indistinct) (w : World) (F : List Flight)
    (walk : Walk) (done todo : List SlotId) : Prop :=
  ∀ m, w.memo? walk.slot = some m → m.verifiedAt = walk.verifiedAt ∧ m.deps = done ++ todo ∧
    ∃ reads, w.Made p use same F walk.slot m reads ∧
      ∀ read ∈ reads, read.slot ∈ done → w.Watched p use same F walk.revision read

/-- A running body has come to what is left of it by watched reads, unless its result will not be
    kept anyway: the request was cancelled, or the body hands on an error. -/
structure Running (p : Program) (use : Usages) (same : Indistinct) (t : Token) (w : World)
    (F : List Flight) (a : Activation) (b : Body) (label : Label) (key : Key) : Prop where
  node : w.node? a.slot = some (p.node label key)
  lawful : Lawful p use same True (p label).valueType b b
  transparent : Transparent b
  reads : t ∈ w.cancelled ∨ (∃ e, b = .done (.error e)) ∨
    ∃ reads, Follows ((p label).body key) reads b ∧ a.deps = dependencies reads ∧
      ∀ read ∈ reads, w.Watched p use same F a.revision read

/-- A running body waits for a query it has called. -/
structure Calling (p : Program) (use : Usages) (same : Indistinct) (t : Token) (w : World)
    (F : List Flight) (caller : Caller) (label : Label) (key : Key) (label' : Label) (key' : Key) :
    Prop where
  node : w.node? caller.activation.slot = some (p.node label key)
  callee : w.node? caller.callee = some (p.node label' key')
  waits : caller.mode = .awaited
  lawful : ∀ r r', Agree (same (p label').id) r r' →
    Lawful p use same True (p label).valueType (caller.next r) (caller.next r')
  error : ∀ e, caller.next (.error e) = .done (.error e)
  ok : ∀ v, Transparent (caller.next (.ok v))
  reads : t ∈ w.cancelled ∨
    ∃ reads, Follows ((p label).body key) reads (.call caller.mode label' key' caller.next) ∧
      caller.activation.deps = recordOnce caller.callee (dependencies reads) ∧
      ∀ read ∈ reads, w.Watched p use same F caller.activation.revision read

/-- Frames wait for a slot that was requested at some revision or later. -/
def Waits (p : Program) (use : Usages) (same : Indistinct) (t : Token) (w : World)
    (F : List Flight) (demand : Demand) : List Frame → SlotId → Revision → Prop
  | [], i, r => w.node? i = some (p.node demand.label demand.key) ∧ demand.since ≤ r
  | .touching walk dep :: frames, i, r =>
    i = dep ∧ walk.revision ≤ r ∧ (∃ done, w.Walking p use same F walk done (dep :: walk.rest)) ∧
      Waits p use same t w F demand frames walk.slot walk.revision
  | .calling caller :: frames, i, r =>
    i = caller.callee ∧ caller.activation.revision ≤ r ∧
      (∃ label key label' key', w.Calling p use same t F caller label key label' key') ∧
      Waits p use same t w F demand frames caller.activation.slot caller.activation.revision

/-- What the innermost frame knows of a value that it is given. -/
def Delivers (p : Program) (use : Usages) (same : Indistinct) (w : World) (F : List Flight)
    (demand : Demand) (stamped : Stamped) : List Frame → Prop
  | [] => demand.since = w.revision →
    YieldsAlike p w.inputs demand.label demand.key stamped.value
  | .touching walk dep :: _ => stamped.changedAt ≤ walk.verifiedAt →
    ∃ done, w.Walking p use same F walk (done ++ [dep]) walk.rest
  | .calling caller :: _ => ∀ label key, w.node? caller.callee = some (p.node label key) →
    stamped.value.type = (p label).valueType ∧
      w.Watched p use same F caller.activation.revision
        ⟨caller.callee, .derived label key, .ok stamped.value⟩

/-- What the control of an evaluation knows. -/
def UnderWay (p : Program) (use : Usages) (same : Indistinct) (t : Token) (w : World)
    (F : List Flight) (demand : Demand) (e : Evaluation) : Prop :=
  match e.control with
  | .fetch i => (∃ label key, w.node? i = some (p.node label key)) ∧
    w.Waits p use same t F demand e.frames i w.revision
  | .walk walk => (∃ done, w.Walking p use same F walk done walk.rest) ∧
    w.Waits p use same t F demand e.frames walk.slot walk.revision
  | .compute i r => w.Waits p use same t F demand e.frames i r
  | .body a b => (∃ label key, w.Running p use same t F a b label key) ∧
    w.Waits p use same t F demand e.frames a.slot a.revision
  | .answer (.error _) => ∃ i r, r ≤ w.revision ∧ w.Waits p use same t F demand e.frames i r
  | .answer (.ok stamped) =>
    (∃ i r, r ≤ w.revision ∧ w.Waits p use same t F demand e.frames i r) ∧
      w.Delivers p use same F demand stamped e.frames

/-! ## What passing time leaves -/

variable {w w' : World} {F F' : List Flight} {kept : List SlotId} {demand : Demand}

/-- Whoever asked before a revision asked before any later one. -/
theorem Waits.le {frames : List Frame} {i : SlotId} {r r' : Revision}
    (h : w.Waits p use same t F demand frames i r) (hle : r ≤ r') :
    w.Waits p use same t F demand frames i r' := by
  cases frames with
  | nil => exact ⟨h.1, Nat.le_trans h.2 hle⟩
  | cons frame frames =>
    cases frame with
    | touching walk dep => exact ⟨h.1, Nat.le_trans h.2.1 hle, h.2.2⟩
    | calling caller => exact ⟨h.1, Nat.le_trans h.2.1 hle, h.2.2⟩

theorem Waits.since_le {frames : List Frame} {i : SlotId} {r : Revision}
    (h : w.Waits p use same t F demand frames i r) : demand.since ≤ r := by
  induction frames generalizing i r with
  | nil => exact h.2
  | cons frame frames ih =>
    cases frame with
    | touching walk dep => exact Nat.le_trans (ih h.2.2.2) h.2.1
    | calling caller => exact Nat.le_trans (ih h.2.2.2) h.2.1

theorem Walking.passes {walk : Walk} {done todo : List SlotId}
    (h : w.Walking p use same F walk done todo) (hs : w.Steady p use same F)
    (hpasses : Passes p use same w F w' F' kept) (hrevision : walk.revision ≤ w.revision)
    (hkept : walk.slot ∈ kept) : w'.Walking p use same F' walk done todo := by
  intro m hm
  rcases hpasses.memo walk.slot hkept with hsame | hgone
  · rw [hsame] at hm
    obtain ⟨hverified, hdeps, reads, hmade, hwatched⟩ := h m hm
    exact ⟨hverified, hdeps, reads, hmade.passes (hs.verified_le _ m hm) hpasses,
      fun read hmem hdone => hpasses.watched _ read hrevision (hwatched read hmem hdone)⟩
  · rw [hgone] at hm
    cases hm

theorem Running.passes {a : Activation} {b : Body} {label : Label} {key : Key}
    (h : w.Running p use same t F a b label key) (hpasses : Passes p use same w F w' F' kept)
    (hrevision : a.revision ≤ w.revision) : w'.Running p use same t F' a b label key where
  node := hpasses.node _ _ h.node
  lawful := h.lawful
  transparent := h.transparent
  reads := by
    rcases h.reads with hcancelled | herror | ⟨reads, hfollows, hdeps, hwatched⟩
    · exact .inl (hpasses.cancelled t hcancelled)
    · exact .inr (.inl herror)
    · exact .inr (.inr ⟨reads, hfollows, hdeps,
        fun read hmem => hpasses.watched _ read hrevision (hwatched read hmem)⟩)

theorem Calling.passes {caller : Caller} {label label' : Label} {key key' : Key}
    (h : w.Calling p use same t F caller label key label' key')
    (hpasses : Passes p use same w F w' F' kept)
    (hrevision : caller.activation.revision ≤ w.revision) :
    w'.Calling p use same t F' caller label key label' key' where
  node := hpasses.node _ _ h.node
  callee := hpasses.node _ _ h.callee
  waits := h.waits
  lawful := h.lawful
  error := h.error
  ok := h.ok
  reads := by
    rcases h.reads with hcancelled | ⟨reads, hfollows, hdeps, hwatched⟩
    · exact .inl (hpasses.cancelled t hcancelled)
    · exact .inr ⟨reads, hfollows, hdeps,
        fun read hmem => hpasses.watched _ read hrevision (hwatched read hmem)⟩

/-- Frames whose slots are left alone go on waiting. -/
theorem Waits.passes {frames : List Frame} {i : SlotId} {r : Revision}
    (h : w.Waits p use same t F demand frames i r) (hs : w.Steady p use same F)
    (hpasses : Passes p use same w F w' F' kept) (hsub : frames.map Frame.flight ⊆ F)
    (hkept : ∀ f ∈ frames.map Frame.flight, f.slot ∈ kept) :
    w'.Waits p use same t F' demand frames i r := by
  induction frames generalizing i r with
  | nil => exact ⟨hpasses.node _ _ h.1, h.2⟩
  | cons frame frames ih =>
    simp only [List.map_cons, List.cons_subset] at hsub
    simp only [List.map_cons, List.forall_mem_cons] at hkept
    have hrevision := (hs.flies _ hsub.1).revision
    cases frame with
    | touching walk dep =>
      obtain ⟨hslot, hle, ⟨done, hwalking⟩, hwaits⟩ := h
      exact ⟨hslot, hle, ⟨done, hwalking.passes hs hpasses hrevision hkept.1⟩,
        ih hwaits hsub.2 hkept.2⟩
    | calling caller =>
      obtain ⟨hslot, hle, ⟨label, key, label', key', hcalling⟩, hwaits⟩ := h
      exact ⟨hslot, hle, ⟨label, key, label', key', hcalling.passes hpasses hrevision⟩,
        ih hwaits hsub.2 hkept.2⟩

theorem Delivers.passes {frames : List Frame} {i : SlotId} {r : Revision} {stamped : Stamped}
    (h : w.Delivers p use same F demand stamped frames)
    (hwaits : w.Waits p use same t F demand frames i r) (hr : r ≤ w.revision)
    (hs : w.Steady p use same F) (hpasses : Passes p use same w F w' F' kept)
    (hsub : frames.map Frame.flight ⊆ F) (hkept : ∀ f ∈ frames.map Frame.flight, f.slot ∈ kept) :
    w'.Delivers p use same F' demand stamped frames := by
  cases frames with
  | nil =>
    intro hsince
    have hle : w'.revision ≤ w.revision := hsince ▸ Nat.le_trans hwaits.2 hr
    have hrevision : w'.revision = w.revision := Nat.le_antisymm hle hpasses.revision
    rw [hpasses.inputs hrevision]
    exact h (hsince.trans hrevision)
  | cons frame frames =>
    simp only [List.map_cons, List.cons_subset] at hsub
    simp only [List.map_cons, List.forall_mem_cons] at hkept
    have hrevision := (hs.flies _ hsub.1).revision
    cases frame with
    | touching walk dep =>
      intro hchanged
      obtain ⟨done, hwalking⟩ := h hchanged
      exact ⟨done, hwalking.passes hs hpasses hrevision hkept.1⟩
    | calling caller =>
      intro label key hi
      obtain ⟨-, -, ⟨_, _, label', key', hcalling⟩, -⟩ := hwaits
      have hnode := hpasses.node _ _ hcalling.callee
      obtain ⟨htype, hwatched⟩ := h label key (hcalling.callee.trans (hnode.symm.trans hi))
      exact ⟨htype, hpasses.watched _ _ hrevision hwatched⟩

/-- An evaluation that has its slots to itself stays under way. -/
theorem UnderWay.passes {e : Evaluation} (h : w.UnderWay p use same t F demand e)
    (hs : w.Steady p use same F) (hpasses : Passes p use same w F w' F' kept)
    (hsub : e.flights ⊆ F) (hkept : ∀ f ∈ e.flights, f.slot ∈ kept) :
    w'.UnderWay p use same t F' demand e := by
  obtain ⟨control, frames⟩ := e
  have hsubFrames : frames.map Frame.flight ⊆ F :=
    fun f hf => hsub (List.mem_append_right _ hf)
  have hkeptFrames : ∀ f ∈ frames.map Frame.flight, f.slot ∈ kept :=
    fun f hf => hkept f (List.mem_append_right _ hf)
  cases control with
  | fetch i =>
    obtain ⟨⟨label, key, hi⟩, hwaits⟩ := h
    exact ⟨⟨label, key, hpasses.node _ _ hi⟩,
      (hwaits.passes hs hpasses hsubFrames hkeptFrames).le hpasses.revision⟩
  | walk walk =>
    obtain ⟨⟨done, hwalking⟩, hwaits⟩ := h
    have hf : (⟨walk.slot, walk.revision⟩ : Flight) ∈ flights ⟨.walk walk, frames⟩ :=
      List.mem_append_left _ (List.mem_singleton_self _)
    exact ⟨⟨done, hwalking.passes hs hpasses (hs.flies _ (hsub hf)).revision (hkept _ hf)⟩,
      hwaits.passes hs hpasses hsubFrames hkeptFrames⟩
  | compute i r => exact Waits.passes h hs hpasses hsubFrames hkeptFrames
  | body a b =>
    obtain ⟨⟨label, key, hrunning⟩, hwaits⟩ := h
    have hf : (⟨a.slot, a.revision⟩ : Flight) ∈ flights ⟨.body a b, frames⟩ :=
      List.mem_append_left _ (List.mem_singleton_self _)
    exact ⟨⟨label, key, hrunning.passes hpasses (hs.flies _ (hsub hf)).revision⟩,
      hwaits.passes hs hpasses hsubFrames hkeptFrames⟩
  | answer result =>
    cases result with
    | error e =>
      obtain ⟨i, r, hr, hwaits⟩ := h
      exact ⟨i, r, Nat.le_trans hr hpasses.revision,
        hwaits.passes hs hpasses hsubFrames hkeptFrames⟩
    | ok stamped =>
      obtain ⟨⟨i, r, hr, hwaits⟩, hdelivers⟩ := h
      exact ⟨⟨i, r, Nat.le_trans hr hpasses.revision,
        hwaits.passes hs hpasses hsubFrames hkeptFrames⟩,
        hdelivers.passes hwaits hr hs hpasses hsubFrames hkeptFrames⟩

/-- What is under way was asked for before now. -/
theorem UnderWay.since_le {e : Evaluation} (h : w.UnderWay p use same t F demand e)
    (hs : w.Steady p use same F) (hsub : e.flights ⊆ F) : demand.since ≤ w.revision := by
  obtain ⟨control, frames⟩ := e
  have hflight {f : Flight} (hf : control.flight? = some f) : f.revision ≤ w.revision := by
    refine (hs.flies f (hsub (List.mem_append_left _ ?_))).revision
    simp only [hf]
    exact List.mem_singleton_self f
  cases control with
  | fetch i => exact h.2.since_le
  | walk walk => exact Nat.le_trans h.2.since_le (hflight rfl)
  | compute i r => exact Nat.le_trans (Waits.since_le h) (hflight rfl)
  | body a b => exact Nat.le_trans h.2.since_le (hflight rfl)
  | answer result =>
    cases result with
    | error e =>
      obtain ⟨i, r, hr, hwaits⟩ := h
      exact Nat.le_trans hwaits.since_le hr
    | ok stamped =>
      obtain ⟨⟨i, r, hr, hwaits⟩, -⟩ := h
      exact Nat.le_trans hwaits.since_le hr

/-! ## Answers -/

/-- A memo that is made valid while frames wait for its slot answers them. -/
theorem Steady.delivers (hp : p.Pure use same True)
    (htr : ∀ label key, Transparent ((p label).body key)) (hs : w.Steady p use same F) {i : SlotId}
    {label : Label} {key : Key} (hi : w.node? i = some (p.node label key)) {m : Memo}
    (hm : w.memo? i = some m) (hgrounded : ∀ f ∈ F, f.slot ≠ i) {r : Revision}
    (hr : r ≤ m.verifiedAt) {frames : List Frame}
    (hwaits : w.Waits p use same t F demand frames i r) :
    w.Delivers p use same F demand m.toStamped frames := by
  cases frames with
  | nil =>
    intro hsince
    have hverified : m.verifiedAt = w.revision :=
      Nat.le_antisymm (hs.verified_le i m hm) (hsince ▸ Nat.le_trans hwaits.2 hr)
    exact hs.sound.right hp hwaits.1 (hs.tidy.keyType hwaits.1) hm hverified
  | cons frame frames =>
    cases frame with
    | touching walk dep =>
      intro hchanged
      obtain ⟨rfl, hle, ⟨done, hwalking⟩, -⟩ := hwaits
      refine ⟨done, fun old hold => ?_⟩
      obtain ⟨hverified, hdeps, reads, hmade, hwatched⟩ := hwalking old hold
      refine ⟨hverified, by simpa using hdeps, reads, hmade, fun read hmem hdone => ?_⟩
      rcases List.mem_append.1 hdone with hdone | hdone
      · exact hwatched read hmem hdone
      · -- the dependency has not changed since the old run read it, so its value is as good
        have hslot := List.mem_singleton.1 hdone
        obtain ⟨_, _, -, -, hfollows⟩ := hmade.run
        have hreply (label' : Label) (key' : Key) (hsource : read.source = .derived label' key') :
            ∃ v, read.reply = .ok v := hfollows.replies_ok (htr _ _) hmem hsource
        have hseen := (hmade.watched read hmem).toSeen.of_kept hp hs.tidy (hslot ▸ hi) hreply
          (hslot ▸ hm) (hs.sound.trusted hp (hslot ▸ hm)) (hverified ▸ hchanged)
          (Nat.le_trans hle hr)
        exact hseen.watched hslot hm hgrounded
    | calling caller =>
      intro label' key' hi'
      obtain ⟨rfl, hle, -, -⟩ := hwaits
      have htype := (hs.sound.justified _ m hm).type hp hi'
      have hseen := Seen.of_memo hp hs.tidy hi' hm (hs.sound.trusted hp hm) (Nat.le_trans hle hr)
        fun _ => hp.alike _ _ _ (Value.alikeOf_refl (htype.trans (hp.valueType label').symm))
      exact ⟨htype, hseen.watched rfl hm hgrounded⟩

/-! ## Steps and the flights around them -/

/-- What frames know survives what the innermost slot does. -/
theorem Waits.around (head : List Flight) {frames : List Frame} {others : List Flight} {i : SlotId}
    {r : Revision}
    (h : w.Waits p use same t (head ++ (frames.map Frame.flight ++ others)) demand frames i r)
    (hs : w.Steady p use same (head ++ (frames.map Frame.flight ++ others)))
    (hpasses : Passes p use same w (head ++ (frames.map Frame.flight ++ others)) w' F'
      ((frames.map Frame.flight ++ others).map Flight.slot)) :
    w'.Waits p use same t F' demand frames i r := by
  refine h.passes hs hpasses (fun f hf => ?_) fun f hf => ?_
  · exact List.mem_append_right _ (List.mem_append_left _ hf)
  · exact List.mem_map_of_mem (List.mem_append_left _ hf)

end World

/-- Where a step has led, the world is steady, the evaluation is under way or right, and what others
    know they still know. -/
def Progress.Fine (p : Program) (use : Usages) (same : Indistinct) (t : Token) (w : World)
    (F others : List Flight) (demand : Demand) : Progress → Prop
  | .running e w' | .parked e w' =>
    w'.Steady p use same (e.flights ++ others) ∧
      w'.UnderWay p use same t (e.flights ++ others) demand e ∧
      w.Passes p use same F w' (e.flights ++ others) (others.map Flight.slot)
  | .finished result w' =>
    w'.Steady p use same others ∧ w.Passes p use same F w' others (others.map Flight.slot) ∧
      ∀ stamped, result = .ok stamped → demand.since = w'.revision →
        YieldsAlike p w'.inputs demand.label demand.key stamped.value

variable {w w' : World} {F others : List Flight} {demand : Demand} {frames : List Frame}

/-- The frames stay and the control is another one. -/
theorem fine_of_control {control : Control}
    (hs : w'.Steady p use same (control.flight?.toList ++ (frames.map Frame.flight ++ others)))
    (hpasses : w.Passes p use same F w'
      (control.flight?.toList ++ (frames.map Frame.flight ++ others))
      ((frames.map Frame.flight ++ others).map Flight.slot))
    (hunder : w'.UnderWay p use same t
      (control.flight?.toList ++ (frames.map Frame.flight ++ others)) demand ⟨control, frames⟩) :
    Progress.Fine p use same t w F others demand (.running ⟨control, frames⟩ w') := by
  have hflights : flights ⟨control, frames⟩ ++ others =
      control.flight?.toList ++ (frames.map Frame.flight ++ others) := List.append_assoc ..
  rw [Progress.Fine, hflights]
  refine ⟨hs, hunder, hpasses.subset fun i hi => ?_⟩
  rw [List.map_append]
  exact List.mem_append_right _ hi

section Innermost

variable {f : Flight} (hs : w.Steady p use same (f :: (frames.map Frame.flight ++ others)))
  (hwaits : w.Waits p use same t (f :: (frames.map Frame.flight ++ others)) demand frames f.slot
    f.revision)
include hs hwaits

/-- The innermost slot gives up. -/
theorem fine_of_error (hw : w.Quiet w') (hactive : w'.active = dropInnermost w.active f.slot)
    (e : QueryError) :
    Progress.Fine p use same t w (f :: (frames.map Frame.flight ++ others)) others demand
      (.running ⟨.answer (.error e), frames⟩ w') := by
  obtain ⟨hs', hpasses⟩ := hs.leave hw hactive ((frames.map Frame.flight ++ others).map Flight.slot)
  have hrevision := (hs.flies f List.mem_cons_self).revision
  refine fine_of_control hs' hpasses ⟨f.slot, f.revision, ?_, ?_⟩
  · exact Nat.le_trans hrevision hpasses.revision
  · exact World.Waits.around [f] hwaits hs hpasses

/-- The innermost slot has to be computed. -/
theorem fine_of_compute (hw : w.Quiet w') (hactive : w'.active = w.active) :
    Progress.Fine p use same t w (f :: (frames.map Frame.flight ++ others)) others demand
      (.running ⟨.compute f.slot f.revision, frames⟩ w') := by
  obtain ⟨hs', hpasses⟩ := hs.quiet hw hactive ((frames.map Frame.flight ++ others).map Flight.slot)
  exact fine_of_control hs' hpasses (World.Waits.around [f] hwaits hs hpasses)

/-- The innermost slot lands and answers. -/
theorem fine_of_landing (hp : p.Pure use same True)
    (htr : ∀ label key, Transparent ((p label).body key)) {m : Memo} {label : Label} {key : Key}
    (hi : w.node? f.slot = some (p.node label key))
    (hw : World.Commits p use (same (p label).id) w f.slot m w')
    (hverified : m.verifiedAt = f.revision) (htype : m.value.type = (p label).valueType)
    {reads : List Read} (hfollows : Follows ((p label).body key) reads (.done (.ok m.value)))
    (hdeps : m.deps = dependencies reads)
    (hreads : ∀ read ∈ reads,
      w.Watched p use same (f :: (frames.map Frame.flight ++ others)) f.revision read) :
    Progress.Fine p use same t w (f :: (frames.map Frame.flight ++ others)) others demand
      (.running ⟨.answer (.ok m.toStamped), frames⟩ w') := by
  obtain ⟨hs', hpasses⟩ := hs.land hp hi hw hverified htype hfollows hdeps hreads
    (List.nodup_cons.1 hs.distinct).1
  have hwaits' := World.Waits.around [f] hwaits hs hpasses
  have hrevision := (hs.flies f List.mem_cons_self).revision
  refine fine_of_control hs' hpasses ⟨⟨f.slot, f.revision, ?_, hwaits'⟩, ?_⟩
  · exact Nat.le_trans hrevision hpasses.revision
  · exact hs'.delivers hp htr (hw.node _ _ hi) hw.memo_self (fun f' hf' => hs.ne_of_mem hf')
      (Nat.le_of_eq hverified.symm) hwaits'

end Innermost

/-! ## One step -/

variable (hp : p.Pure use same True) (htr : ∀ label key, Transparent ((p label).body key))
include hp htr

theorem fetch_fine {i : SlotId}
    (hs : w.Steady p use same (frames.map Frame.flight ++ others))
    (h : w.UnderWay p use same t (frames.map Frame.flight ++ others) demand ⟨.fetch i, frames⟩) :
    Progress.Fine p use same t w (frames.map Frame.flight ++ others) others demand
      (resume frames (w.fetch p t i)) := by
  obtain ⟨⟨label, key, hi⟩, hwaits⟩ := h
  have hfetch := World.fetch_spec (p := p) hs.memoize t i
  generalize w.fetch p t i = out at hfetch
  cases hfetch with
  | @hit m w₁ memo verified quiet hactive =>
    obtain ⟨hs', hpasses⟩ := hs.quiet quiet hactive
      ((frames.map Frame.flight ++ others).map Flight.slot)
    have hwaits' := World.Waits.around [] hwaits hs hpasses
    -- whatever is in flight is not valid now
    have hgrounded : ∀ f ∈ frames.map Frame.flight ++ others, f.slot ≠ i := by
      rintro f hf rfl
      have hflies := hs.flies f hf
      exact absurd (verified ▸ hflies.stale m memo) (Nat.not_lt.2 hflies.revision)
    refine fine_of_control hs' hpasses
      ⟨⟨i, w.revision, hpasses.revision, hwaits'⟩, ?_⟩
    exact hs'.delivers hp htr (quiet.grows.node _ _ hi) ((quiet.grows.memo i).trans memo) hgrounded
      (Nat.le_of_eq verified.symm) hwaits'
  | cycle stale inside quiet hactive =>
    obtain ⟨hs', hpasses⟩ := hs.quiet quiet hactive
      ((frames.map Frame.flight ++ others).map Flight.slot)
    exact fine_of_control hs' hpasses
      ⟨i, w.revision, hpasses.revision, World.Waits.around [] hwaits hs hpasses⟩
  | @walk m w₁ memo stale outside quiet hactive =>
    have hstale : ∀ m, w.memo? i = some m → m.verifiedAt ≠ w.revision := by
      intro m' hm'
      obtain rfl := Option.some.inj (memo.symm.trans hm')
      exact stale
    obtain ⟨hs', hpasses⟩ := hs.enter hp hi hstale outside quiet hactive
      ((frames.map Frame.flight ++ others).map Flight.slot)
    refine fine_of_control hs' hpasses
      ⟨⟨[], fun m' hm' => ?_⟩, World.Waits.around [] hwaits hs hpasses⟩
    obtain rfl := Option.some.inj (memo.symm.trans ((quiet.grows.memo i).symm.trans hm'))
    obtain ⟨reads, hmade⟩ := hs'.made i m hm'
    exact ⟨rfl, rfl, reads, hmade, fun read _ hnone => absurd hnone List.not_mem_nil⟩
  | compute memo outside quiet hactive =>
    obtain ⟨hs', hpasses⟩ := hs.enter hp hi (fun m hm => nomatch memo.symm.trans hm) outside quiet
      hactive ((frames.map Frame.flight ++ others).map Flight.slot)
    exact fine_of_control hs' hpasses (World.Waits.around [] hwaits hs hpasses)

omit hp htr in
/-- A dependency was brought up to date. -/
theorem touched_fine {walk : Walk} {dep : SlotId} {changedAt : Revision}
    (hs : w.Steady p use same (⟨walk.slot, walk.revision⟩ :: (frames.map Frame.flight ++ others)))
    (hwaits : w.Waits p use same t
      (⟨walk.slot, walk.revision⟩ :: (frames.map Frame.flight ++ others)) demand frames walk.slot
      walk.revision)
    (hwalking : changedAt ≤ walk.verifiedAt → ∃ done, w.Walking p use same
      (⟨walk.slot, walk.revision⟩ :: (frames.map Frame.flight ++ others)) walk done walk.rest) :
    Progress.Fine p use same t w
      (⟨walk.slot, walk.revision⟩ :: (frames.map Frame.flight ++ others)) others demand
      (resume frames (w.touched t walk dep changedAt)) := by
  have htouched := w.touched_spec t walk dep changedAt
  generalize w.touched t walk dep changedAt = out at htouched
  cases htouched with
  | cancelled _ quiet hactive => exact fine_of_error hs hwaits quiet hactive .cancelled
  | changed _ quiet hactive => exact fine_of_compute hs hwaits quiet hactive
  | unchanged hle =>
    exact fine_of_control hs (.refl _ _ _) ⟨hwalking hle, hwaits⟩

theorem walk_fine {walk : Walk}
    (hs : w.Steady p use same (⟨walk.slot, walk.revision⟩ :: (frames.map Frame.flight ++ others)))
    (h : w.UnderWay p use same t
      (⟨walk.slot, walk.revision⟩ :: (frames.map Frame.flight ++ others)) demand
      ⟨.walk walk, frames⟩) :
    Progress.Fine p use same t w
      (⟨walk.slot, walk.revision⟩ :: (frames.map Frame.flight ++ others)) others demand
      (stepWalk t walk frames w) := by
  obtain ⟨⟨done, hwalking⟩, hwaits⟩ := h
  have hflies := hs.flies _ List.mem_cons_self
  obtain ⟨slot, revision, verifiedAt, rest⟩ := walk
  cases rest with
  | nil =>
    obtain ⟨label, key, hi⟩ := hflies.node
    have hverify := World.verify_spec hp hs.tidy ⟨slot, revision, verifiedAt, []⟩ hi
      fun o ho => (hs.sound.justified _ o ho).type hp hi
    simp only [stepWalk]
    generalize w.verify ⟨slot, revision, verifiedAt, []⟩ = out at hverify
    cases hverify with
    | @kept m w₁ memo commits =>
      obtain ⟨-, hdeps, reads, hmade, hwatched⟩ := hwalking m memo
      have htype := (hs.sound.justified _ m memo).type hp hi
      obtain ⟨label', key', hi', -, hfollows⟩ := hmade.run
      rw [hp.body_eq (Option.some.inj (hi'.symm.trans hi))] at hfollows
      refine fine_of_landing (m := { m with verifiedAt := revision }) hs hwaits hp htr hi commits rfl
        htype hfollows hmade.deps ?_
      -- all reads of the run are up to date
      intro read hmem
      refine hwatched read hmem ?_
      rw [List.append_nil] at hdeps
      rw [← hdeps, hmade.deps]
      exact mem_dependencies.2 ⟨read, hmem, rfl⟩
    | dropped memo => exact fine_of_compute hs hwaits (.refl w) rfl
  | cons dep rest =>
    by_cases hderived : w.kind? dep = some .derived
    · simp only [stepWalk, if_pos hderived]
      refine fine_of_control hs (.refl _ _ _) ⟨hs.tidy.node?_of_derived hderived, rfl, ?_, ?_⟩
      · exact hflies.revision
      · exact ⟨⟨done, hwalking⟩, hwaits⟩
    · simp only [stepWalk, if_neg hderived]
      refine touched_fine hs hwaits fun hle => ⟨done ++ [dep], fun m hm => ?_⟩
      obtain ⟨hverified, hdeps, reads, hmade, hwatched⟩ := hwalking m hm
      refine ⟨hverified, by simpa using hdeps, reads, hmade, fun read hmem hdone => ?_⟩
      rcases List.mem_append.1 hdone with hdone | hdone
      · exact hwatched read hmem hdone
      · -- the input was not written since the memo was valid
        obtain rfl := List.mem_singleton.1 hdone
        have hread := hmade.watched read hmem
        have hkind : (use (read.source.node p).query).kind = .input := by
          cases hkind : (use (read.source.node p).query).kind with
          | input => rfl
          | derived => exact absurd ((hs.tidy.kind? hread.node).trans (by rw [hkind])) hderived
        refine ⟨hread.toSeen.of_unwritten hp hs.tidy hread.node hkind (hverified ▸ hle) _, ?_, ?_⟩
        · intro label key hsource
          rw [hsource] at hkind
          exact nomatch (hp.derived label).symm.trans hkind
        · intro f hf hslot
          obtain ⟨label, key, hi⟩ := (hs.flies f hf).node
          obtain ⟨label', key', hsource, -⟩ := hread.toPlaced.derived hp (hslot ▸ hi)
          rw [hsource] at hkind
          exact nomatch (hp.derived label').symm.trans hkind

theorem compute_fine {f : Flight}
    (hs : w.Steady p use same (f :: (frames.map Frame.flight ++ others)))
    (hwaits : w.Waits p use same t (f :: (frames.map Frame.flight ++ others)) demand frames f.slot
      f.revision) :
    Progress.Fine p use same t w (f :: (frames.map Frame.flight ++ others)) others demand
      (resume frames (w.compute p t f.slot f.revision)) := by
  obtain ⟨label, key, hi⟩ := (hs.flies f List.mem_cons_self).node
  have hcompute := World.compute_spec hp.consistent hs.tidy t hi f.revision
  generalize w.compute p t f.slot f.revision = out at hcompute
  cases hcompute with
  | cancelled _ quiet hactive => exact fine_of_error hs hwaits quiet hactive .cancelled
  | run quiet hactive =>
    obtain ⟨hs', hpasses⟩ := hs.quiet quiet hactive
      ((frames.map Frame.flight ++ others).map Flight.slot)
    refine fine_of_control hs' hpasses ⟨⟨label, key, ?_⟩, World.Waits.around [f] hwaits hs hpasses⟩
    refine ⟨quiet.grows.node _ _ hi, hp.lawful label key (hs.tidy.keyType hi), htr label key, ?_⟩
    exact .inr (.inr ⟨[], .refl _, rfl, fun _ hnone => absurd hnone List.not_mem_nil⟩)

/-! ## Steps of a body -/

section Body

variable {a : Activation} {label : Label} {key : Key}
  (hs : w.Steady p use same (⟨a.slot, a.revision⟩ :: (frames.map Frame.flight ++ others)))
  (hwaits : w.Waits p use same t (⟨a.slot, a.revision⟩ :: (frames.map Frame.flight ++ others)) demand
    frames a.slot a.revision)
include hs hwaits

omit hp htr in
/-- The body goes on, with what it knew before and with what it has just learned. -/
theorem fine_of_next (deps : List SlotId) {b : Body} (ht' : Tidy p use w'.toSystem)
    (hw : w.Grows w') (hactive : w'.active = w.active)
    (hnext : w'.Steady p use same (⟨a.slot, a.revision⟩ :: (frames.map Frame.flight ++ others)) →
      w.Passes p use same (⟨a.slot, a.revision⟩ :: (frames.map Frame.flight ++ others)) w'
        (⟨a.slot, a.revision⟩ :: (frames.map Frame.flight ++ others))
        ((frames.map Frame.flight ++ others).map Flight.slot) →
      ∃ label key, w'.Running p use same t
        (⟨a.slot, a.revision⟩ :: (frames.map Frame.flight ++ others)) { a with deps } b label key) :
    Progress.Fine p use same t w (⟨a.slot, a.revision⟩ :: (frames.map Frame.flight ++ others)) others
      demand (.running ⟨.body { a with deps } b, frames⟩ w') := by
  obtain ⟨hs', hpasses⟩ := hs.grows ht' hw hactive
    ((frames.map Frame.flight ++ others).map Flight.slot)
  exact fine_of_control hs' hpasses ⟨hnext hs' hpasses,
    World.Waits.around [⟨a.slot, a.revision⟩] hwaits hs hpasses⟩

theorem done_fine {r : Except QueryError Value}
    (h : w.Running p use same t (⟨a.slot, a.revision⟩ :: (frames.map Frame.flight ++ others)) a
      (.done r) label key) :
    Progress.Fine p use same t w (⟨a.slot, a.revision⟩ :: (frames.map Frame.flight ++ others)) others
      demand (resume frames (w.finish t a r)) := by
  have htype : ∀ v, r = .ok v → v.type = (p label).valueType := by
    rintro v rfl
    cases h.lawful with
    | done hagree => exact (Agree.ok_ok.1 hagree).1
  have hfinish := World.finish_spec hp hs.tidy hs.memoize t h.node
    (fun o ho => (hs.sound.justified _ o ho).type hp h.node) r htype
  generalize w.finish t a r = out at hfinish
  cases hfinish with
  | failed quiet hactive => exact fine_of_error hs hwaits quiet hactive _
  | cancelled _ quiet hactive => exact fine_of_error hs hwaits quiet hactive .cancelled
  | @kept v m w₁ uncancelled value verifiedAt deps commits =>
    subst value
    -- a run whose result is kept has read what it has read
    rcases h.reads with hcancelled | ⟨e, herror⟩ | ⟨reads, hfollows, hdeps, hwatched⟩
    · exact absurd hcancelled uncancelled
    · cases herror
    · exact fine_of_landing hs hwaits hp htr h.node commits verifiedAt (htype _ rfl) hfollows
        (deps.trans hdeps) hwatched

omit htr in
theorem read_fine {query : QueryId} {valueType : ValueType} {key' : Key}
    {next : Except QueryError Value → Body} (typed : use query = ⟨.input, key'.type, valueType⟩)
    (hnext : ∀ r r', Agree (Value.AlikeOf valueType) r r' →
      Lawful p use same True (p label).valueType (next r) (next r'))
    (h : w.Running p use same t (⟨a.slot, a.revision⟩ :: (frames.map Frame.flight ++ others)) a
      (.perform (.read query valueType key') next) label key) :
    Progress.Fine p use same t w (⟨a.slot, a.revision⟩ :: (frames.map Frame.flight ++ others)) others
      demand (stepBody p t a (.perform (.read query valueType key') next) frames w) := by
  obtain ⟨i, w', reply, hread, hfinds, hreply⟩ := World.read_spec hs.tidy t a typed
  simp only [stepBody, World.perform, hread, Activation.reading]
  refine fine_of_next hs hwaits _ hfinds.tidy hfinds.toGrows hfinds.active fun hs' hpasses => ?_
  have hself : Agree (Value.AlikeOf valueType) reply reply := by
    rcases hreply with hagree | ⟨-, rfl⟩
    · cases reply with
      | error e => exact .error e
      | ok v =>
        obtain ⟨v', -, hv, -⟩ := hagree.of_ok_left
        exact .ok (Value.alikeOf_refl hv)
    · exact .error _
  have htransparent : Transparent (next reply) := by
    cases h.transparent with
    | perform h => exact h reply
  refine ⟨label, key, hpasses.node _ _ h.node, hnext _ _ hself, htransparent, ?_⟩
  rcases h.reads with hcancelled | ⟨e, herror⟩ | ⟨reads, hfollows, hdeps, hwatched⟩
  · exact .inl (hpasses.cancelled t hcancelled)
  · cases herror
  · rcases hreply with hagree | ⟨hcancelled, -⟩
    · refine .inr (.inr ⟨reads ++ [⟨i, .input query key', reply⟩],
        hfollows.trans (.read i reply (.refl _)), ?_, ?_⟩)
      · rw [dependencies_concat, ← hdeps]
      · have hrevision := (hs.flies _ List.mem_cons_self).revision
        have hkind : (use query).kind = .input := congrArg Usage.kind typed
        intro read hmem
        rcases List.mem_append.1 hmem with hmem | hmem
        · exact hpasses.watched _ read hrevision (hwatched read hmem)
        · obtain rfl := List.mem_singleton.1 hmem
          refine ⟨.of_input hfinds typed hagree _, nofun, ?_⟩
          -- what is in flight is a derived value
          intro f hf hslot
          obtain ⟨l, k, hi⟩ := (hs'.flies f hf).node
          have hnode := Option.some.inj (hfinds.found.symm.trans (hslot ▸ hi))
          have hquery : query = (p l).id := congrArg Node.query hnode
          rw [hquery, hp.derived] at hkind
          cases hkind
    · exact .inl (hpasses.cancelled t hcancelled)

omit htr in
theorem call_fine {mode : CallMode} {label' : Label} {key' : Key}
    {next : Except QueryError Value → Body} (typed : key'.type = (use (p label').id).keyType)
    (hmode : mode = .awaited)
    (hnext : ∀ r r', Agree (same (p label').id) r r' →
      Lawful p use same True (p label).valueType (next r) (next r'))
    (h : w.Running p use same t (⟨a.slot, a.revision⟩ :: (frames.map Frame.flight ++ others)) a
      (.call mode label' key' next) label key) :
    Progress.Fine p use same t w (⟨a.slot, a.revision⟩ :: (frames.map Frame.flight ++ others)) others
      demand (stepCall p a mode label' key' next frames w) := by
  obtain ⟨i, w', hcall, hfinds⟩ := stepCall_spec hp.consistent hs.tidy a mode typed next frames
  obtain ⟨hs', hpasses⟩ := hs.grows hfinds.tidy hfinds.toGrows hfinds.active
    (a.slot :: (frames.map Frame.flight ++ others).map Flight.slot)
  have hrevision := (hs.flies _ List.mem_cons_self).revision
  have htransparent := h.transparent
  rw [hcall]
  cases htransparent with
  | call herror hok =>
    have hcalling : w'.Calling p use same t
        (⟨a.slot, a.revision⟩ :: (frames.map Frame.flight ++ others)) ⟨a.reading i, mode, i, next⟩
        label key label' key' := by
      refine ⟨hpasses.node _ _ h.node, hfinds.found, hmode, hnext, herror, hok, ?_⟩
      rcases h.reads with hcancelled | ⟨e, hdone⟩ | ⟨reads, hfollows, hdeps, hwatched⟩
      · exact .inl (hpasses.cancelled t hcancelled)
      · cases hdone
      · refine .inr ⟨reads, hfollows, ?_, fun read hmem => ?_⟩
        · rw [← hdeps]
          rfl
        · exact hpasses.watched _ read hrevision (hwatched read hmem)
    have hwaits' := World.Waits.around [⟨a.slot, a.revision⟩] hwaits hs
      (hpasses.subset (List.subset_cons_self _ _))
    exact fine_of_control hs' hpasses ⟨⟨label', key', hfinds.found⟩, rfl,
      Nat.le_trans hrevision hpasses.revision, ⟨label, key, label', key', hcalling⟩, hwaits'⟩

omit hp htr in
/-- The reads stay what they were. -/
theorem step_fine_of_quiet {b b' : Body}
    (h : w.Running p use same t (⟨a.slot, a.revision⟩ :: (frames.map Frame.flight ++ others)) a b
      label key)
    (hundone : ∀ e, b ≠ .done (.error e)) (hw : w.Quiet w') (hactive : w'.active = w.active)
    (hlawful : Lawful p use same True (p label).valueType b' b') (htransparent : Transparent b')
    (hfollows : t ∉ w.cancelled → Follows b [] b') :
    Progress.Fine p use same t w (⟨a.slot, a.revision⟩ :: (frames.map Frame.flight ++ others)) others
      demand (.running ⟨.body a b', frames⟩ w') := by
  refine fine_of_next hs hwaits a.deps (hw.tidy hs.tidy) hw.grows hactive fun hs' hpasses => ?_
  have hrevision := (hs.flies _ List.mem_cons_self).revision
  refine ⟨label, key, hpasses.node _ _ h.node, hlawful, htransparent, ?_⟩
  by_cases hcancelled : t ∈ w.cancelled
  · exact .inl (hpasses.cancelled t hcancelled)
  · rcases h.reads with hin | ⟨e, herror⟩ | ⟨reads, hreads, hdeps, hwatched⟩
    · exact absurd hin hcancelled
    · exact absurd herror (hundone e)
    · refine .inr (.inr ⟨reads, ?_, hdeps,
        fun read hmem => hpasses.watched _ read hrevision (hwatched read hmem)⟩)
      simpa using hreads.trans (hfollows hcancelled)

end Body

omit hp htr in
/-- Bodies that wait for their calls can be parked. -/
theorem World.Waits.splitAtImmediate {i : SlotId} {r : Revision}
    (h : w.Waits p use same t F demand frames i r) : splitAtImmediate frames = none := by
  induction frames generalizing i r with
  | nil => rfl
  | cons frame frames ih =>
    cases frame with
    | touching walk dep => exact splitAtImmediate_touching (ih h.2.2.2)
    | calling caller =>
      obtain ⟨-, -, ⟨_, _, _, _, hcalling⟩, hwaits⟩ := h
      exact splitAtImmediate_calling hcalling.waits (ih hwaits)

/-- Each way in which a body goes on. -/
theorem body_fine {a : Activation} {b : Body}
    (hs : w.Steady p use same (⟨a.slot, a.revision⟩ :: (frames.map Frame.flight ++ others)))
    (h : w.UnderWay p use same t (⟨a.slot, a.revision⟩ :: (frames.map Frame.flight ++ others)) demand
      ⟨.body a b, frames⟩) :
    Progress.Fine p use same t w (⟨a.slot, a.revision⟩ :: (frames.map Frame.flight ++ others)) others
      demand (stepBody p t a b frames w) := by
  obtain ⟨⟨label, key, hrunning⟩, hwaits⟩ := h
  have hlawful := hrunning.lawful
  have htransparent := hrunning.transparent
  cases b with
  | done r => exact done_fine hp htr hs hwaits hrunning
  | perform op next =>
    cases hlawful with
    | read typed hnext => exact read_fine hp hs hwaits typed hnext hrunning
    | check hnext =>
      cases htransparent with
      | perform htransparent =>
        refine step_fine_of_quiet hs hwaits hrunning nofun (.refl w) rfl (hnext _) (htransparent _)
          fun hcancelled => ?_
        have hcheck : w.check t = .ok () := World.check_of_not_mem hcancelled
        simp only [hcheck]
        exact .check (.refl _)
    | allocate hnext =>
      cases htransparent with
      | perform htransparent =>
        exact step_fine_of_quiet hs hwaits hrunning nofun w.quiet_allocate rfl (hnext _ _)
          (htransparent _) fun _ => .allocate _ (.refl _)
  | call mode label' key' next =>
    cases hlawful with
    | call typed waits hnext => exact call_fine hp hs hwaits typed (waits trivial) hnext hrunning
  | yield next =>
    cases hlawful with
    | yield _ hnext =>
      cases htransparent with
      | yield htransparent =>
        simp only [stepBody, stepYield, hwaits.splitAtImmediate]
        exact step_fine_of_quiet hs hwaits hrunning nofun (.refl w) rfl hnext htransparent
          fun _ => .yield (.refl _)

omit htr in
theorem answer_fine {result : Except QueryError Stamped}
    (hs : w.Steady p use same (frames.map Frame.flight ++ others))
    (h : w.UnderWay p use same t (frames.map Frame.flight ++ others) demand ⟨.answer result, frames⟩) :
    Progress.Fine p use same t w (frames.map Frame.flight ++ others) others demand
      (stepAnswer t result frames w) := by
  cases frames with
  | nil =>
    refine ⟨hs, .refl _ _ _, fun stamped hresult hsince => ?_⟩
    subst hresult
    exact h.2 hsince
  | cons frame frames =>
    cases frame with
    | touching walk dep =>
      cases result with
      | error e =>
        obtain ⟨i, r, hr, -, -, -, hwaits⟩ := h
        obtain ⟨w', hfail, hquiet, hactive⟩ := w.fail_spec walk.slot e
        simp only [stepAnswer, resume, hfail]
        exact fine_of_error hs hwaits hquiet hactive e
      | ok stamped =>
        obtain ⟨⟨i, r, hr, -, -, -, hwaits⟩, hdelivers⟩ := h
        refine touched_fine hs hwaits fun hle => ?_
        obtain ⟨done, hwalking⟩ := hdelivers hle
        exact ⟨_, hwalking⟩
    | calling caller =>
      -- the caller goes on with a value, or hands on an error
      have herror {e : QueryError} (h : ∃ i r, r ≤ w.revision ∧ w.Waits p use same t
          ((Frame.calling caller :: frames).map Frame.flight ++ others) demand
          (.calling caller :: frames) i r) :
          Progress.Fine p use same t w
            ((Frame.calling caller :: frames).map Frame.flight ++ others) others demand
            (.running ⟨.body caller.activation (caller.next (.error e)), frames⟩ w) := by
        obtain ⟨i, r, -, -, -, ⟨label, key, label', key', hcalling⟩, hwaits⟩ := h
        refine fine_of_control hs (.refl _ _ _) ⟨⟨label, key, hcalling.node, ?_, ?_, ?_⟩, hwaits⟩
        · exact hcalling.lawful _ _ (.error e)
        · rw [hcalling.error]
          exact .done _
        · exact .inr (.inl ⟨e, hcalling.error e⟩)
      cases result with
      | error e => exact herror h
      | ok stamped =>
        by_cases hcancelled : t ∈ w.cancelled
        · simp only [stepAnswer, World.check_of_mem hcancelled]
          exact herror h.1
        · simp only [stepAnswer, World.check_of_not_mem hcancelled]
          obtain ⟨⟨i, r, -, -, -, ⟨label, key, label', key', hcalling⟩, hwaits⟩, hdelivers⟩ := h
          obtain ⟨htype, hwatched⟩ := hdelivers label' key' hcalling.callee
          refine fine_of_control hs (.refl _ _ _) ⟨⟨label, key, hcalling.node, ?_, hcalling.ok _, ?_⟩,
            hwaits⟩
          · refine hcalling.lawful _ _ (.ok (hp.alike _ _ _ (Value.alikeOf_refl ?_)))
            exact htype.trans (hp.valueType label').symm
          · rcases hcalling.reads with hin | ⟨reads, hfollows, hdeps, hreads⟩
            · exact .inl hin
            · refine .inr (.inr ⟨_, hfollows.trans (.call caller.callee (.ok stamped.value) (.refl _)),
                ?_, fun read hmem => ?_⟩)
              · rw [dependencies_concat, hdeps]
              · rcases List.mem_append.1 hmem with hmem | hmem
                · exact hreads read hmem
                · obtain rfl := List.mem_singleton.1 hmem
                  exact hwatched

/-- One step of an evaluation, whatever else is in flight. -/
theorem step_fine {e : Evaluation} (hs : w.Steady p use same (e.flights ++ others))
    (h : w.UnderWay p use same t (e.flights ++ others) demand e) :
    Progress.Fine p use same t w (e.flights ++ others) others demand (e.step p t w) := by
  obtain ⟨control, frames⟩ := e
  have hflights : flights ⟨control, frames⟩ ++ others =
      control.flight?.toList ++ (frames.map Frame.flight ++ others) := List.append_assoc ..
  rw [hflights] at hs h ⊢
  cases control with
  | fetch i => exact fetch_fine hp htr hs h
  | walk walk => exact walk_fine hp htr hs h
  | compute i r => exact compute_fine (f := ⟨i, r⟩) hp htr hs h
  | body a b => exact body_fine hp htr hs h
  | answer result => exact answer_fine hp hs h

/-! ## Runs -/

omit hp htr in
theorem Progress.Fine.trans {F' : List Flight} {progress : Progress}
    (hpasses : w.Passes p use same F w' F' (others.map Flight.slot))
    (h : Progress.Fine p use same t w' F' others demand progress) :
    Progress.Fine p use same t w F others demand progress := by
  cases progress with
  | running e w'' => exact ⟨h.1, h.2.1, hpasses.trans h.2.2⟩
  | parked e w'' => exact ⟨h.1, h.2.1, hpasses.trans h.2.2⟩
  | finished result w'' => exact ⟨h.1, hpasses.trans h.2.1, h.2.2⟩

/-- An evaluation that is advanced stays under way until it is right. -/
theorem advance_fine (budget : Nat) {e : Evaluation}
    (hs : w.Steady p use same (e.flights ++ others))
    (h : w.UnderWay p use same t (e.flights ++ others) demand e) :
    Progress.Fine p use same t w (e.flights ++ others) others demand (e.advance p t budget w) := by
  induction budget generalizing e w with
  | zero => exact ⟨hs, h, .refl _ _ _⟩
  | succ budget ih =>
    have hstep := step_fine hp htr hs h
    rw [advance]
    cases hprogress : e.step p t w with
    | running e₁ w₁ =>
      rw [hprogress] at hstep
      exact (ih hstep.1 hstep.2.1).trans hstep.2.2
    | parked e₁ w₁ => rwa [hprogress] at hstep
    | finished result w₁ => rwa [hprogress] at hstep

/-- So does one that is driven on whenever it is parked. -/
theorem drive_fine (budget : Nat) {e : Evaluation}
    (hs : w.Steady p use same (e.flights ++ others))
    (h : w.UnderWay p use same t (e.flights ++ others) demand e) :
    Progress.Fine p use same t w (e.flights ++ others) others demand (e.drive p t budget w) := by
  induction budget generalizing e w with
  | zero => exact ⟨hs, h, .refl _ _ _⟩
  | succ budget ih =>
    have hstep := step_fine hp htr hs h
    rw [drive]
    cases hprogress : e.step p t w with
    | running e₁ w₁ =>
      rw [hprogress] at hstep
      exact (ih hstep.1 hstep.2.1).trans hstep.2.2
    | parked e₁ w₁ =>
      rw [hprogress] at hstep
      exact (ih hstep.1 hstep.2.1).trans hstep.2.2
    | finished result w₁ => rwa [hprogress] at hstep

omit hp htr in
/-- A request for a derived value, at its beginning. -/
theorem underWay_request {i : SlotId} {label : Label} {key : Key} {since : Revision}
    (hi : w.node? i = some (p.node label key)) (hsince : since ≤ w.revision) :
    w.UnderWay p use same t F ⟨label, key, since⟩ (.request i) :=
  ⟨⟨label, key, hi⟩, hi, hsince⟩

/-! ## Dropped evaluations -/

omit hp htr in
/-- Flights that are given up leave the others alone. -/
theorem World.Steady.leaveAll {flights : List Flight} (hs : w.Steady p use same (flights ++ others))
    (kept : List SlotId) :
    (w.leaveAll (flights.map Flight.slot)).Steady p use same others ∧
      w.Passes p use same (flights ++ others) (w.leaveAll (flights.map Flight.slot)) others kept := by
  induction flights generalizing w with
  | nil => exact ⟨hs, .refl _ _ _⟩
  | cons f flights ih =>
    obtain ⟨hs', hpasses⟩ := World.Steady.leave hs (w.quiet_leave f.slot) (w.active_leave f.slot) kept
    obtain ⟨hs'', hpasses'⟩ := ih hs'
    exact ⟨hs'', hpasses.trans hpasses'⟩

end RedGreen
