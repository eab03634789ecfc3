import RedGreen.Evaluation.Run
import RedGreen.Proofs.Alone
import RedGreen.Proofs.Running

set_option autoImplicit false

/-! # The shortcuts of revalidations

A revalidation answers without running the body in two cases. If no recorded dependency has changed,
it *confirms* the memo; and if a recorded dependency fails, it *fails early*, by the same error. The
first is right if no call of the run that left the memo has failed, and the second is right if the
body would hand on the error. Where these cannot be told, a shortcut may be wrong
(`ConfirmsRightly`, `FailsRightly`); but nothing else can: as long as all shortcuts are right, a
fair world stays fair, and all that is answered is right (`step_stands`). -/

namespace RedGreen

open Evaluation

variable {p : Program} {use : Usages} {same : Indistinct} {t : Token}

/-! ## Right shortcuts -/

namespace Evaluation

/-- If the next step confirms a memo that may be that of a run that has gone on after a failed call,
    then the memo is right. -/
def ConfirmsRightly (p : Program) (w : World) (e : Evaluation) : Prop :=
  ∀ walk m, e.control = .walk walk → walk.rest = [] → w.memo? walk.slot = some m →
    w.Recovered p walk.slot m → ∀ label key, w.node? walk.slot = some (p.node label key) →
      YieldsAlike p w.inputs label key m.value

/-- If the next step ends a revalidation by the error of a dependency, although the body may go on
    after errors, then the body yields this error. -/
def FailsRightly (p : Program) (w : World) (e : Evaluation) : Prop :=
  ∀ walk dep frames error, e = ⟨.answer (.error error), .touching walk dep :: frames⟩ →
    ∀ label key, w.node? walk.slot = some (p.node label key) → ¬Transparent ((p label).body key) →
      ∃ n, Yields p w.inputs n ((p label).body key) (.error error)

end Evaluation

/-- Where a step has led, the world is fair, and the evaluation stands as it did. -/
def Progress.Stands (p : Program) (use : Usages) (same : Indistinct) (w : World) (root : SlotId) :
    Progress → Prop
  | .running e w' =>
    w'.Fair p use same ∧ w'.Stands p use same root e ∧ w.Spares p use same [] w'
  | .parked _ _ => False
  | .finished result w' => w' = w ∧ w.Stands p use same root ⟨.answer result, []⟩

variable {w w' : World} {root : SlotId} {frames : List Frame} {label : Label} {key : Key}

/-! ## The innermost slot -/

/-- The frames stay and the control is another one. -/
theorem stands_of_control {control : Control} (hfair : w.Fair p use same)
    (hawaits : w.Awaits p use same root frames)
    (hi : w.node? (asked root frames) = some (p.node label key)) (hfair' : w'.Fair p use same)
    (hw : w.Spares p use same (frames.map Frame.slot) w')
    (hactive : w'.active = (control.slot?.toList ++ frames.map Frame.slot).reverse)
    (hknows : w'.Knows p use same (asked root frames) control) :
    Progress.Stands p use same w root (.running ⟨control, frames⟩ w') := by
  refine ⟨hfair', ⟨hactive, ⟨label, key, hw.node _ _ hi⟩, hknows, ?_⟩, hw.subset nofun⟩
  exact hawaits.spares hfair hfair'.tidy hw (List.Subset.refl _)

section Innermost

variable (hp : p.Pure use same False) (hfair : w.Fair p use same)
  (hawaits : w.Awaits p use same root frames)
  (hi : w.node? (asked root frames) = some (p.node label key))
  (hactive : w.active = (asked root frames :: frames.map Frame.slot).reverse)
include hfair hawaits hi hactive

omit hfair hawaits hi in
theorem dropInnermost_asked :
    dropInnermost w.active (asked root frames) = (frames.map Frame.slot).reverse := by
  rw [hactive, List.reverse_cons, dropInnermost_concat]

include hp in
/-- The slot that was asked for is answered by the error of its body. -/
theorem stands_of_error {e : QueryError}
    (herror : ∃ n, Yields p w.inputs n ((p label).body key) (.error e)) (hw : w.Quiet w')
    (hactive' : w'.active = dropInnermost w.active (asked root frames)) :
    Progress.Stands p use same w root (.running ⟨.answer (.error e), frames⟩ w') := by
  have hfair' := hfair.quiet hw
  refine stands_of_control hfair hawaits hi hfair' (hw.spares hfair.tidy _) ?_ ?_
  · rw [hactive', dropInnermost_asked hactive]
    rfl
  · refine World.Errs.intro hp (hw.grows.node _ _ hi) ?_
    rwa [hw.grows.inputs hfair.tidy hfair'.tidy]

/-- The slot that was asked for has to be computed. -/
theorem stands_of_compute (hw : w.Quiet w') (hactive' : w'.active = w.active) :
    Progress.Stands p use same w root
      (.running ⟨.compute (asked root frames) w.revision, frames⟩ w') := by
  refine stands_of_control hfair hawaits hi (hfair.quiet hw) (hw.spares hfair.tidy _) ?_ ?_
  · rw [hactive', hactive]
    rfl
  · exact ⟨rfl, hw.revision.symm⟩

include hp in
/-- The slot that was asked for is answered by a memo that is made valid now and is right. -/
theorem stands_of_commit (hout : asked root frames ∉ frames.map Frame.slot) {m : Memo}
    (hcommits : World.Commits p use (same (p label).id) w (asked root frames) m w')
    (hverified : m.verifiedAt = w.revision) (hright : YieldsAlike p w.inputs label key m.value)
    {reads : List Read} (hfollows : Follows ((p label).body key) reads (.done (.ok m.value)))
    (hdeps : m.deps = dependencies reads) (hknown : w.Known p use same w.revision reads) :
    Progress.Stands p use same w root (.running ⟨.answer (.ok m.toStamped), frames⟩ w') := by
  obtain ⟨hfair', hw⟩ := hfair.commits hp hi hcommits hverified hright hfollows hdeps hknown hout
  refine stands_of_control hfair hawaits hi hfair' hw ?_ ?_
  · rw [hcommits.active, dropInnermost_asked hactive]
    rfl
  · exact ⟨m, hcommits.memo_self, rfl, hverified.trans hcommits.revision.symm⟩

/-- A dependency was brought up to date. -/
theorem touched_stands (huncancelled : t ∉ w.cancelled) {walk : Walk} {dep : SlotId}
    {changedAt : Revision} (hslot : walk.slot = asked root frames)
    (hrevision : walk.revision = w.revision)
    (hnext : changedAt ≤ walk.verifiedAt →
      ∃ done, w.Rechecks p use same (asked root frames) walk.verifiedAt done walk.rest) :
    Progress.Stands p use same w root (resume frames (w.touched t walk dep changedAt)) := by
  have htouched := w.touched_spec t walk dep changedAt
  generalize w.touched t walk dep changedAt = out at htouched
  cases htouched with
  | cancelled cancelled => exact absurd cancelled huncancelled
  | @changed w₁ _ quiet hactive₁ =>
    have hstands := stands_of_compute hfair hawaits hi hactive quiet hactive₁
    rwa [← hslot, ← hrevision] at hstands
  | unchanged hle =>
    refine stands_of_control hfair hawaits hi hfair (.refl w _) ?_ ⟨hslot, hrevision, hnext hle⟩
    rw [hactive, ← hslot]
    rfl

end Innermost

/-! ## One step -/

section Step

variable (hp : p.Pure use same False) (hfair : w.Fair p use same) (huncancelled : t ∉ w.cancelled)
  (hout : asked root frames ∉ frames.map Frame.slot)
include hp hfair

omit hp in
include hout in
theorem fetch_stands {i : SlotId} (h : w.Stands p use same root ⟨.fetch i, frames⟩) :
    Progress.Stands p use same w root (resume frames (w.fetch p t i)) := by
  obtain ⟨hactive, ⟨label, key, hi⟩, hslot, hawaits⟩ := h
  obtain rfl : i = asked root frames := hslot
  have hactive : w.active = (frames.map Frame.slot).reverse := hactive
  have hout : asked root frames ∉ w.active := by
    rwa [hactive, List.mem_reverse]
  have hfetch := World.fetch_spec (p := p) hfair.memoize t (asked root frames)
  generalize w.fetch p t (asked root frames) = out at hfetch
  cases hfetch with
  | @hit m w₁ memo verified quiet hactive₁ =>
    refine stands_of_control hfair hawaits hi (hfair.quiet quiet) (quiet.spares hfair.tidy _)
      (hactive₁.trans hactive) ?_
    exact ⟨m, (quiet.grows.memo _).trans memo, rfl, verified.trans quiet.revision.symm⟩
  | cycle _ inside => exact absurd inside hout
  | @walk m w₁ memo _ _ quiet hactive₁ =>
    have hfair₁ := hfair.quiet quiet
    refine stands_of_control hfair hawaits hi hfair₁ (quiet.spares hfair.tidy _) ?_ ?_
    · rw [hactive₁, hactive]
      exact List.reverse_cons.symm
    · have hmemo₁ := (quiet.grows.memo _).trans memo
      exact ⟨rfl, quiet.revision.symm, [], (hfair₁.reliable _ m hmemo₁).rechecks hmemo₁⟩
  | compute _ _ quiet hactive₁ =>
    refine stands_of_control hfair hawaits hi (hfair.quiet quiet) (quiet.spares hfair.tidy _) ?_
      ⟨rfl, quiet.revision.symm⟩
    rw [hactive₁, hactive]
    exact List.reverse_cons.symm

include huncancelled hout in
theorem walk_stands {walk : Walk} (h : w.Stands p use same root ⟨.walk walk, frames⟩)
    (hconfirms : ConfirmsRightly p w ⟨.walk walk, frames⟩) :
    Progress.Stands p use same w root (stepWalk t walk frames w) := by
  obtain ⟨hactive, ⟨label, key, hi⟩, ⟨hslot, hrevision, done, hrechecks⟩, hawaits⟩ := h
  have hactive : w.active = (asked root frames :: frames.map Frame.slot).reverse := hslot ▸ hactive
  obtain ⟨slot, revision, verifiedAt, rest⟩ := walk
  obtain rfl : slot = asked root frames := hslot
  obtain rfl : revision = w.revision := hrevision
  cases rest with
  | nil =>
    obtain ⟨m, label', key', reads, hrechecked, -⟩ := hrechecks
    have hreliable := hfair.reliable _ m hrechecked.memo
    have hverify := World.verify_spec hp hfair.tidy ⟨asked root frames, w.revision, verifiedAt, []⟩ hi
      fun o ho => (hfair.reliable _ o ho).type hp hi
    simp only [stepWalk]
    generalize w.verify ⟨asked root frames, w.revision, verifiedAt, []⟩ = out at hverify
    cases hverify with
    | dropped memo => exact nomatch hrechecked.memo.symm.trans memo
    | @kept m' w₁ memo commits =>
      obtain rfl := Option.some.inj (hrechecked.memo.symm.trans memo)
      have hfollows := hrechecked.follows
      rw [hp.body_eq (Option.some.inj (hrechecked.node.symm.trans hi))] at hfollows
      -- a memo without a failed call is right, since its reads are as they were
      have hright : YieldsAlike p w.inputs label key m.value := by
        rcases hrechecked.known.seen with hfailed | hseen
        · exact hconfirms _ m rfl rfl memo
            ⟨label, key, reads, hi, hfollows, hrechecked.deps, hfailed⟩ label key hi
        · obtain ⟨n, r, hyields, hagree⟩ := hfollows.result
            (hp.lawful label key (hfair.tidy.keyType hi))
            fun read hmem => (hseen read hmem).current rfl
          obtain ⟨v, rfl, halike⟩ := hagree.of_ok_left
          exact ⟨n, v, hyields, halike⟩
      exact stands_of_commit (m := { m with verifiedAt := w.revision }) hp hfair hawaits hi hactive
        hout commits rfl hright hfollows hrechecked.deps hrechecked.known
  | cons dep rest =>
    by_cases hderived : w.kind? dep = some .derived
    · simp only [stepWalk, if_pos hderived]
      refine ⟨hfair, ⟨hactive, hfair.tidy.node?_of_derived hderived, rfl, ?_⟩, .refl w _⟩
      exact ⟨rfl, rfl, ⟨done, hrechecks⟩, hawaits⟩
    · simp only [stepWalk, if_neg hderived]
      refine touched_stands hfair hawaits hi hactive huncancelled rfl rfl fun hle => ?_
      refine ⟨done ++ [dep], hrechecks.next fun read _ hslot hseen => ?_⟩
      -- an input that was not written since the memo was valid
      have hkind : (use (read.source.node p).query).kind = .input := by
        cases hkind : (use (read.source.node p).query).kind with
        | input => rfl
        | derived =>
          rw [← hslot, hfair.tidy.kind? hseen.node, hkind] at hderived
          exact absurd rfl hderived
      exact hseen.of_unwritten hp hfair.tidy hseen.node hkind (hslot ▸ hle) _

include huncancelled in
theorem compute_stands {i : SlotId} {r : Revision}
    (h : w.Stands p use same root ⟨.compute i r, frames⟩) :
    Progress.Stands p use same w root (resume frames (w.compute p t i r)) := by
  obtain ⟨hactive, ⟨label, key, hi⟩, ⟨hslot, rfl⟩, hawaits⟩ := h
  obtain rfl : i = asked root frames := hslot
  have hcompute := World.compute_spec hp.consistent hfair.tidy t hi w.revision
  generalize w.compute p t (asked root frames) w.revision = out at hcompute
  cases hcompute with
  | cancelled cancelled => exact absurd cancelled huncancelled
  | run quiet hactive₁ =>
    refine stands_of_control hfair hawaits hi (hfair.quiet quiet) (quiet.spares hfair.tidy _) ?_ ?_
    · exact hactive₁.trans hactive
    · have hlawful := hp.lawful label key (hfair.tidy.keyType hi)
      exact ⟨rfl, quiet.revision.symm, label, key, [], ⟨quiet.grows.node _ _ hi, hlawful, .refl _,
        fun _ hnone => absurd hnone List.not_mem_nil⟩, rfl⟩

/-! ## Steps of a body -/

section Body

variable {a : Activation} {b : Body} {reads : List Read}
  (h : w.Stands p use same root ⟨.body a b, frames⟩)
  (htracks : w.Tracks p use same a.slot b label key reads) (hdeps : a.deps = dependencies reads)
include h

omit hp in
/-- The body goes on, with what it knew before and with what it has just learned. -/
theorem stands_of_next {deps : List SlotId} {b' : Body} {reads' : List Read} (hw : w.Grows w')
    (ht' : Tidy p use w'.toSystem) (hactive : w'.active = w.active)
    (hlocked : w'.entryLocked = w.entryLocked)
    (htracks' : w'.Tracks p use same a.slot b' label key reads') (hdeps' : deps = dependencies reads') :
    Progress.Stands p use same w root (.running ⟨.body { a with deps } b', frames⟩ w') := by
  obtain ⟨hactive₀, ⟨label₀, key₀, hi⟩, ⟨hslot, hrevision, -⟩, hawaits⟩ := h
  refine stands_of_control hfair hawaits hi (hfair.grows ht' hw)
    (hw.spares hfair.tidy ht' hlocked _) (hactive.trans hactive₀) ⟨hslot, ?_⟩
  exact ⟨hrevision.trans hw.revision.symm, label, key, reads', htracks', hdeps'⟩

include htracks hdeps

include huncancelled hout in
theorem done_stands {r : Except QueryError Value} (hb : b = .done r) :
    Progress.Stands p use same w root (resume frames (w.finish t a r)) := by
  subst hb
  obtain ⟨hactive₀, -, ⟨hslot, hrevision, -⟩, hawaits⟩ := h
  have hi : w.node? (asked root frames) = some (p.node label key) := hslot ▸ htracks.node
  have hactive : w.active = (asked root frames :: frames.map Frame.slot).reverse :=
    hslot ▸ hactive₀
  obtain ⟨n, r', hyields, hagree⟩ := htracks.result hp hfair.tidy
  have htype : ∀ v, r = .ok v → v.type = (p label).valueType := by
    rintro v rfl
    obtain ⟨_, _, halike⟩ := hagree.of_ok_left
    exact halike.1
  have hfinish := World.finish_spec hp hfair.tidy hfair.memoize t htracks.node
    (fun o ho => (hfair.reliable _ o ho).type hp htracks.node) r htype
  generalize w.finish t a r = out at hfinish
  cases hfinish with
  | failed quiet hactive₁ =>
    obtain rfl := hagree.of_error_left
    exact stands_of_error hp hfair hawaits hi hactive ⟨n, hyields⟩ quiet (hslot ▸ hactive₁)
  | cancelled cancelled => exact absurd cancelled huncancelled
  | @kept v m w₁ _ value verifiedAt deps commits =>
    subst value
    obtain ⟨v', rfl, halike⟩ := hagree.of_ok_left
    exact stands_of_commit hp hfair hawaits hi hactive hout (hslot ▸ commits)
      (verifiedAt.trans hrevision) ⟨n, v', hyields, halike⟩ htracks.follows (deps.trans hdeps)
      htracks.known

omit hp in
include huncancelled in
theorem read_stands {query : QueryId} {valueType : ValueType} {key' : Key}
    {next : Except QueryError Value → Body} (hb : b = .perform (.read query valueType key') next)
    (typed : use query = ⟨.input, key'.type, valueType⟩)
    (hnext : ∀ r r', Agree (Value.AlikeOf valueType) r r' →
      Lawful p use same False (p label).valueType (next r) (next r')) :
    Progress.Stands p use same w root (stepBody p t a b frames w) := by
  subst hb
  obtain ⟨i, w', reply, hread, hfinds, hreply⟩ := World.read_spec hfair.tidy t a typed
  have hagree := hreply.resolve_right fun hcancelled => huncancelled hcancelled.1
  have hself : Agree (Value.AlikeOf valueType) reply reply :=
    hagree.trans (hagree.symm fun _ _ h => h.symm) fun _ _ _ h h' => ⟨h.1, h.2.trans h'.2⟩
  have hw : w.Spares p use same [] w' :=
    hfinds.toGrows.spares hfair.tidy hfinds.tidy hfinds.entryLocked []
  have htracks' := (htracks.spares hfair.tidy hfinds.tidy hw).next (.read i reply (.refl _))
    (hnext _ _ hself) fun read hmem => ?_
  · simp only [stepBody, World.perform, hread, Activation.reading]
    refine stands_of_next hfair h hfinds.toGrows hfinds.tidy hfinds.active hfinds.entryLocked
      htracks' ?_
    rw [dependencies_concat, ← hdeps]
  · rw [List.mem_singleton.1 hmem]
    exact .inl (.of_input hfinds typed hagree _)

theorem call_stands {mode : CallMode} {label' : Label} {key' : Key}
    {next : Except QueryError Value → Body} (hb : b = .call mode label' key' next)
    (typed : key'.type = (use (p label').id).keyType) :
    Progress.Stands p use same w root (stepBody p t a b frames w) := by
  subst hb
  obtain ⟨hactive, -, ⟨hslot, hrevision, -⟩, hawaits⟩ := h
  obtain ⟨i, w', hcall, hfinds⟩ := stepCall_spec hp.consistent hfair.tidy a mode typed next frames
  have hw : w.Spares p use same (frames.map Frame.slot) w' :=
    hfinds.toGrows.spares hfair.tidy hfinds.tidy hfinds.entryLocked _
  simp only [stepBody, hcall]
  refine ⟨hfair.grows hfinds.tidy hfinds.toGrows, ⟨?_, ⟨label', key', hfinds.found⟩, rfl, hslot, ?_,
    hawaits.spares hfair hfinds.tidy hw (List.Subset.refl _)⟩, hw.subset (List.nil_subset _)⟩
  · exact hfinds.active.trans hactive
  · refine ⟨hrevision.trans hfinds.revision.symm, label, key, reads, label', key',
      htracks.spares hfair.tidy hfinds.tidy hw, hfinds.found, ?_⟩
    rw [← hdeps]
    rfl

omit hp in
/-- The reads stay what they were. -/
theorem stands_of_quiet {b' : Body} (hw : w.Quiet w') (hactive : w'.active = w.active)
    (hfollows : Follows b [] b') (hlawful : Lawful p use same False (p label).valueType b' b') :
    Progress.Stands p use same w root (.running ⟨.body a b', frames⟩ w') := by
  have ht' := hw.tidy hfair.tidy
  have hspares : w.Spares p use same [] w' := hw.spares hfair.tidy []
  have htracks' := (htracks.spares hfair.tidy ht' hspares).next hfollows hlawful
    fun _ hnone => absurd hnone List.not_mem_nil
  rw [List.append_nil] at htracks'
  exact stands_of_next hfair h hw.grows ht' hactive hw.entryLocked htracks' hdeps

end Body

include huncancelled hout in
/-- Each way in which a body goes on. -/
theorem body_stands {a : Activation} {b : Body} (h : w.Stands p use same root ⟨.body a b, frames⟩) :
    Progress.Stands p use same w root (stepBody p t a b frames w) := by
  obtain ⟨-, -, label, key, reads, htracks, hdeps⟩ := h.control
  have hlawful := htracks.lawful
  cases b with
  | done r => exact done_stands hp hfair huncancelled hout h htracks hdeps rfl
  | perform op next =>
    cases hlawful with
    | read typed hnext => exact read_stands hfair huncancelled h htracks hdeps rfl typed hnext
    | check hnext =>
      refine stands_of_quiet hfair h htracks hdeps (.refl w) rfl ?_ (hnext _)
      have hcheck : w.check t = .ok () := World.check_of_not_mem huncancelled
      simp only [hcheck]
      exact .check (.refl _)
    | allocate hnext =>
      exact stands_of_quiet hfair h htracks hdeps w.quiet_allocate rfl (.allocate _ (.refl _))
        (hnext _ _)
  | call mode label' key' next =>
    cases hlawful with
    | call typed waits hnext => exact call_stands hp hfair h htracks hdeps rfl typed
  | yield next =>
    cases hlawful with
    | yield allowed => exact allowed.elim

/-! ## Steps of an answer -/

include huncancelled in
theorem touching_stands {walk : Walk} {dep : SlotId} {result : Except QueryError Stamped}
    (h : w.Stands p use same root ⟨.answer result, .touching walk dep :: frames⟩)
    (hfails : FailsRightly p w ⟨.answer result, .touching walk dep :: frames⟩) :
    Progress.Stands p use same w root
      (stepAnswer t result (.touching walk dep :: frames) w) := by
  obtain ⟨hactive₀, ⟨label', key', hdep⟩, hknows,
    hrevision, hslot, ⟨done, hrechecks⟩, hawaits⟩ := h
  have hrechecks₀ := hrechecks
  obtain ⟨m, label, key, reads, hrechecked, hverified⟩ := hrechecks₀
  have hi : w.node? (asked root frames) = some (p.node label key) := hslot ▸ hrechecked.node
  have hactive : w.active = (asked root frames :: frames.map Frame.slot).reverse :=
    hslot ▸ hactive₀
  cases result with
  | error e =>
    have herror : ∃ n, Yields p w.inputs n ((p label).body key) (.error e) := by
      by_cases htransparent : Transparent ((p label).body key)
      · exact hrechecked.fails hp hfair.tidy htransparent hdep (hknows label' key' hdep)
      · exact hfails walk dep frames e rfl label key hrechecked.node htransparent
    obtain ⟨w', hfail, hquiet, hactive'⟩ := w.fail_spec walk.slot e
    simp only [stepAnswer, resume, hfail]
    exact stands_of_error hp hfair hawaits hi hactive herror hquiet (hslot ▸ hactive')
  | ok stamped =>
    obtain ⟨m', hm', rfl, hverified'⟩ := hknows
    simp only [stepAnswer]
    refine touched_stands hfair hawaits hi hactive huncancelled hslot hrevision fun hle => ?_
    rw [← hslot]
    refine ⟨done ++ [dep], hrechecks.next fun read hok hread hseen => ?_⟩
    -- the dependency has not changed since the old run read it
    obtain rfl : read.slot = dep := hread
    exact hseen.of_kept hp hfair.tidy hdep (fun _ _ hsource => read.reply_ok hok hsource) hm'
      (hfair.reliable _ m' hm').toTrusted hle (Nat.le_of_eq hverified'.symm)

include huncancelled in
theorem calling_stands {caller : Caller} {result : Except QueryError Stamped}
    (h : w.Stands p use same root ⟨.answer result, .calling caller :: frames⟩) :
    Progress.Stands p use same w root (stepAnswer t result (.calling caller :: frames) w) := by
  obtain ⟨hactive, -, hknows, hslot, ⟨hrevision, label, key, reads, label', key', htracks, hcallee,
    hdeps⟩, hawaits⟩ := h
  have hi : w.node? (asked root frames) = some (p.node label key) := hslot ▸ htracks.node
  have hlawful := htracks.lawful
  cases hlawful with
  | call typed waits hnext =>
    -- the body goes on with a reply that is as good as any it would get
    have hreply {reply : Except QueryError Value} (hself : Agree (same (p label').id) reply reply)
        (hnoted : w.Noted p use same ⟨caller.callee, .derived label' key', reply⟩) :
        Progress.Stands p use same w root
          (.running ⟨.body caller.activation (caller.next reply), frames⟩ w) := by
      have htracks' := htracks.next (.call caller.callee reply (.refl _)) (hnext _ _ hself)
        fun read hmem => List.mem_singleton.1 hmem ▸ hnoted
      refine stands_of_control hfair hawaits hi hfair (.refl w _) hactive ⟨hslot, hrevision, label,
        key, _, htracks', ?_⟩
      rw [dependencies_concat, hdeps]
    cases result with
    | error e =>
      obtain ⟨n, hyields⟩ := hknows label' key' hcallee
      have hplaced : w.Placed p use ⟨caller.callee, .derived label' key', .error e⟩ :=
        ⟨hcallee, typed⟩
      exact hreply (.error e) (.inr ⟨⟨label', key', e, rfl, rfl⟩, hplaced, n, _, hyields, .error e⟩)
    | ok stamped =>
      obtain ⟨m, hm, rfl, hverified⟩ := hknows
      have hreliable := hfair.reliable _ m hm
      have hsame : same (p label').id m.value m.value :=
        hp.alike _ _ _ (Value.alikeOf_refl ((hreliable.type hp hcallee).trans
          (hp.valueType label').symm))
      simp only [stepAnswer, World.check_of_not_mem huncancelled]
      exact hreply (.ok hsame) (.inl (.of_memo hp hfair.tidy hcallee hm hreliable.toTrusted
        (Nat.le_of_eq hverified.symm) fun _ => hsame))

include huncancelled in
/-- One step of an evaluation on its own, if the slot that was asked for is none of those that wait
    and if the step takes no wrong shortcut. -/
theorem step_stands {e : Evaluation} (hout : asked root e.frames ∉ e.frames.map Frame.slot)
    (h : w.Stands p use same root e) (hconfirms : ConfirmsRightly p w e)
    (hfails : FailsRightly p w e) :
    Progress.Stands p use same w root (e.step p t w) := by
  obtain ⟨control, frames⟩ := e
  cases control with
  | fetch i => exact fetch_stands hfair hout h
  | walk walk => exact walk_stands hp hfair huncancelled hout h hconfirms
  | compute i r => exact compute_stands hp hfair huncancelled h
  | body a b => exact body_stands hp hfair huncancelled hout h
  | answer result =>
    cases frames with
    | nil => exact ⟨rfl, h⟩
    | cons frame frames =>
      cases frame with
      | touching walk dep => exact touching_stands hp hfair huncancelled h hfails
      | calling caller => exact calling_stands hp hfair huncancelled h

end Step

/-! ## Runs -/

/-- An evaluation that takes no wrong shortcut on its way goes on as it should. -/
theorem stands_of_reaches (hp : p.Pure use same False) (hacyclic : p.Acyclic)
    (hfair : w.Fair p use same) (huncancelled : t ∉ w.cancelled) {e e' : Evaluation}
    (h : w.Stands p use same root e)
    (hright : ∀ e₁ w₁, Reaches p t e w e₁ w₁ → w₁.Fair p use same → w₁.Stands p use same root e₁ →
      ConfirmsRightly p w₁ e₁ ∧ FailsRightly p w₁ e₁)
    (hreach : Reaches p t e w e' w') :
    w'.Fair p use same ∧ w'.Stands p use same root e' ∧ w.Spares p use same [] w' := by
  obtain ⟨n, hn⟩ := hreach
  induction n generalizing e w with
  | zero =>
    cases hn
    exact ⟨hfair, h, .refl _ []⟩
  | succ n ih =>
    obtain ⟨hconfirms, hfails⟩ := hright e w (.refl e w) hfair h
    obtain ⟨label, key, hi⟩ := h.node
    have hstep := step_stands hp hfair huncancelled (h.frames.not_mem hp hacyclic hi) h hconfirms
      hfails
    rw [drive] at hn
    cases hprogress : e.step p t w with
    | running e₁ w₁ =>
      rw [hprogress] at hstep hn
      obtain ⟨hfair₁, h₁, hw₁⟩ := hstep
      obtain ⟨hfair', h', hw'⟩ := ih hfair₁ (hw₁.cancelled ▸ huncancelled) h₁
        (fun e₂ w₂ hreach => hright e₂ w₂ (.head hprogress hreach)) hn
      exact ⟨hfair', h', hw₁.trans hw'⟩
    | parked e₁ w₁ =>
      rw [hprogress] at hstep
      exact hstep.elim
    | finished result w₁ =>
      rw [hprogress] at hn
      cases hn

/-! ## Straight evaluations -/

/-- No shortcut on the way of an evaluation is wrong. -/
def Evaluation.Straight (p : Program) (t : Token) (e : Evaluation) (w : World) : Prop :=
  ∀ e₁ w₁, Reaches p t e w e₁ w₁ → ConfirmsRightly p w₁ e₁ ∧ FailsRightly p w₁ e₁

/-- What a straight request is answered in a fair and idle world is what the body yields. -/
theorem World.Fair.request_finishes (hp : p.Pure use same False) (hacyclic : p.Acyclic)
    (hfair : w.Fair p use same) (huncancelled : t ∉ w.cancelled) (hidle : w.active = []) {i : SlotId}
    (hi : w.node? i = some (p.node label key)) (hstraight : (Evaluation.request i).Straight p t w)
    {result : Except QueryError Stamped} (hfinishes : Evaluation.Finishes p t (.request i) w result w') :
    w'.Fair p use same ∧ w.Spares p use same [] w' ∧ w'.active = [] ∧
      ∃ n r, Yields p w.inputs n ((p label).body key) r ∧
        Agree (fun (stamped : Stamped) v => stamped.value.Alike v) result r := by
  have hbegun : w.Stands p use same i (.request i) := ⟨hidle, ⟨label, key, hi⟩, rfl, trivial⟩
  obtain ⟨hfair', hended, hw⟩ := stands_of_reaches hp hacyclic hfair huncancelled hbegun
    (fun e₁ w₁ hreach _ _ => hstraight e₁ w₁ hreach) hfinishes.reaches
  have hinputs := hw.inputs hfair.tidy hfair'.tidy
  refine ⟨hfair', hw, hended.active, ?_⟩
  have hi' := hw.node i _ hi
  have hknows := hended.control
  cases result with
  | error e =>
    obtain ⟨n, hn⟩ := hknows label key hi'
    exact ⟨n, .error e, hinputs ▸ hn, .error e⟩
  | ok stamped =>
    obtain ⟨m, hm, rfl, hverified⟩ := hknows
    obtain ⟨n, v, hn, halike⟩ := (hfair'.reliable i m hm).right hverified label key hi'
    exact ⟨n, .ok v, hinputs ▸ hn, .ok halike.2⟩

end RedGreen
