import RedGreen.Proofs.Soundness
import RedGreen.Proofs.Twins

set_option autoImplicit false

/-! # Memos of runs that recover from failures

A body may go on after a call has failed. The failure is a read of its run like any other, but the
stamps of the slot that failed say nothing of it: they are those of the last value, if there was one.
So a memo of such a run cannot be known to be right from the stamps of its dependencies.

A memo is *reliable* if it is right whenever it is valid now, and if, unless a call of its run has
failed, the reads of its run are still known. A world is *fair* if all its memos are reliable. It
stays fair if the memos that are made in it are right. -/

namespace RedGreen

variable {p : Program} {use : Usages} {same : Indistinct} {yields : Prop}

/-! ## Runs and their calls -/

/-- What is left of a body calls nothing that the body does not call. -/
theorem Follows.calls {b b' : Body} {reads : List Read} (h : Follows b reads b') {label : Label}
    {key : Key} (hcalls : Calls b' label key) : Calls b label key := by
  induction h with
  | refl => exact hcalls
  | read slot reply _ ih => exact .perform reply (ih hcalls)
  | check _ ih => exact .perform (.ok ()) (ih hcalls)
  | allocate n _ ih => exact Calls.perform n (ih hcalls)
  | yield _ ih => exact .yield (ih hcalls)
  | call slot reply _ ih => exact .call reply (ih hcalls)

/-- A derived value that a run has read was called by the body. -/
theorem Follows.calls_of_mem {b b' : Body} {reads : List Read} (h : Follows b reads b')
    {read : Read} (hmem : read ∈ reads) {label : Label} {key : Key}
    (hsource : read.source = .derived label key) : Calls b label key := by
  induction h with
  | refl => exact absurd hmem List.not_mem_nil
  | read slot reply _ ih =>
    rcases List.mem_cons.1 hmem with rfl | hmem
    · cases hsource
    · exact .perform reply (ih hmem)
  | check _ ih => exact .perform (.ok ()) (ih hmem)
  | allocate n _ ih => exact Calls.perform n (ih hmem)
  | yield _ ih => exact .yield (ih hmem)
  | call slot reply _ ih =>
    rcases List.mem_cons.1 hmem with rfl | hmem
    · cases hsource
      exact .here
    · exact .call reply (ih hmem)

/-- A call that was answered by an error. -/
def Read.Failed (read : Read) : Prop :=
  ∃ label key e, read.source = .derived label key ∧ read.reply = .error e

theorem Read.reply_ok {read : Read} (h : ¬read.Failed) {label : Label} {key : Key}
    (hsource : read.source = .derived label key) : ∃ v, read.reply = .ok v := by
  cases hreply : read.reply with
  | ok v => exact ⟨v, rfl⟩
  | error e => exact absurd ⟨label, key, e, hsource, hreply⟩ h

/-- The calls of a transparent run that ends with a value did not fail. -/
theorem Follows.not_failed {b : Body} {reads : List Read} {v : Value}
    (h : Follows b reads (.done (.ok v))) (hb : Transparent b) {read : Read} (hmem : read ∈ reads) :
    ¬read.Failed := by
  rintro ⟨label, key, e, hsource, hreply⟩
  obtain ⟨u, hu⟩ := h.replies_ok hb hmem hsource
  exact nomatch hreply.symm.trans hu

/-! ## Failures that are handed on -/

/-- At some read the callee yields an error now, and all reads before it match. -/
inductive FailsAt (p : Program) (use : Usages) (same : Indistinct) (inputs : Inputs)
    (e : QueryError) : List Read → Prop
  | here {read : Read} {reads : List Read} {label : Label} {key : Key}
    (source : read.source = .derived label key)
    (fails : ∃ n, Yields p inputs n ((p label).body key) (.error e)) :
    FailsAt p use same inputs e (read :: reads)
  | later {read : Read} {reads : List Read} (current : read.Matches p use same inputs)
    (h : FailsAt p use same inputs e reads) : FailsAt p use same inputs e (read :: reads)

/-- A transparent body that comes to a call that fails now yields its error. -/
theorem Follows.fails {inputs : Inputs} {e : QueryError} {τ : ValueType} {b b' c : Body}
    {reads : List Read} (h : Follows b reads b') (hb : Transparent b)
    (hlawful : Lawful p use same yields τ b c) (hfails : FailsAt p use same inputs e reads) :
    ∃ n, Yields p inputs n c (.error e) := by
  induction h generalizing c with
  | refl => cases hfails
  | read slot reply _ ih =>
    cases hb with
    | perform hb =>
      cases hlawful with
      | read typed hnext =>
        cases hfails with
        | here source => cases source
        | later current hfails =>
          simp only [Read.Matches, typed] at current
          obtain ⟨n, hn⟩ := ih (hb _) (hnext _ _ current) hfails
          exact ⟨_, .read hn⟩
  | check _ ih =>
    cases hb with
    | perform hb =>
      cases hlawful with
      | check hnext =>
        obtain ⟨n, hn⟩ := ih (hb _) (hnext _) hfails
        exact ⟨_, .check hn⟩
  | allocate k _ ih =>
    cases hb with
    | perform hb =>
      cases hlawful with
      | allocate hnext =>
        obtain ⟨n, hn⟩ := ih (hb _) (hnext k 0) hfails
        exact ⟨_, .allocate hn⟩
  | yield _ ih =>
    cases hb with
    | yield hb =>
      cases hlawful with
      | yield allowed hnext =>
        obtain ⟨n, hn⟩ := ih hb hnext hfails
        exact ⟨_, .yield hn⟩
  | @call mode label key next b reads slot reply hfollows ih =>
    cases hb with
    | call error ok =>
      cases hlawful with
      | @call _ _ _ _ next' typed waits hnext =>
        cases hfails with
        | here source fails =>
          cases source
          obtain ⟨n, hn⟩ := fails
          -- the error is handed on at once
          have herror := hnext _ _ (.error e)
          rw [error] at herror
          generalize hc : next' (.error e) = c at herror
          cases herror with
          | done hagree =>
            rw [hagree.of_error_left] at hc
            have hend : Yields p inputs 0 (next' (.error e)) (.error e) := by
              rw [hc]
              exact .done _
            exact ⟨_, .call hn hend⟩
        | later current hfails =>
          obtain ⟨n, r, hcallee, hagree⟩ := current
          cases reply with
          | ok v =>
            obtain ⟨m, hm⟩ := ih (ok v) (hnext _ _ hagree) hfails
            exact ⟨_, .call hcallee hm⟩
          | error e' =>
            -- the run would have ended here
            rw [error] at hfollows
            cases hfollows
            cases hfails

/-- The dependencies of a run tell at which read it fails: all that were brought up to date match. -/
theorem failsAt_of_dependencies {inputs : Inputs} {e : QueryError} {reads : List Read}
    {done todo : List SlotId} {dep : SlotId} (hdeps : dependencies reads = done ++ dep :: todo)
    (hdone : ∀ read ∈ reads, read.slot ∈ done → read.Matches p use same inputs)
    (hdep : ∀ read ∈ reads, read.slot = dep → ∃ label key, read.source = .derived label key ∧
      ∃ n, Yields p inputs n ((p label).body key) (.error e)) :
    FailsAt p use same inputs e reads := by
  obtain ⟨before, read, after, rfl, hslot, hbefore⟩ := exists_read_of_dependencies hdeps
  obtain ⟨label, key, hsource, hfails⟩ := hdep read (by simp) hslot
  have hcurrent : ∀ r ∈ before, r.Matches p use same inputs :=
    fun r hr => hdone r (by simp [hr]) (hbefore r hr)
  clear hdeps hdone hdep hbefore
  induction before with
  | nil => exact .here hsource hfails
  | cons first before ih =>
    exact .later (hcurrent first List.mem_cons_self)
      (ih fun r hr => hcurrent r (List.mem_cons_of_mem _ hr))

namespace World

/-! ## Reliable memos -/

/-- A memo may be that of a run that has gone on after a failed call. -/
def Recovered (p : Program) (w : World) (i : SlotId) (m : Memo) : Prop :=
  ∃ label key reads, w.node? i = some (p.node label key) ∧
    Follows ((p label).body key) reads (.done (.ok m.value)) ∧ m.deps = dependencies reads ∧
    ∃ read ∈ reads, read.Failed

/-- The reads of a run are known up to `r`, unless a call has failed. -/
structure Known (p : Program) (use : Usages) (same : Indistinct) (w : World) (r : Revision)
    (reads : List Read) : Prop where
  placed : ∀ read ∈ reads, w.Placed p use read
  seen : (∃ read ∈ reads, read.Failed) ∨ ∀ read ∈ reads, w.Seen p use same r read

/-- A memo is right if it is valid now, and unless a call of its run has failed, the reads of the run
    are still known. -/
structure Reliable (p : Program) (use : Usages) (same : Indistinct) (w : World) (i : SlotId)
    (m : Memo) : Prop extends Trusted p w i m where
  run : ∃ label key reads, w.node? i = some (p.node label key) ∧
    m.value.type = (p label).valueType ∧
    Follows ((p label).body key) reads (.done (.ok m.value)) ∧ m.deps = dependencies reads ∧
    w.Known p use same m.verifiedAt reads

/-- Every memo is reliable. -/
structure Fair (p : Program) (use : Usages) (same : Indistinct) (w : World) : Prop where
  tidy : Tidy p use w.toSystem
  memoize : w.memoize = true
  reliable : ∀ i m, w.memo? i = some m → w.Reliable p use same i m

/-- A new system holds nothing, so it is fair. -/
theorem fair_new (memoize : Bool) (h : memoize = true) :
    ({ memoize } : World).Fair p use same where
  tidy := .new memoize
  memoize := h
  reliable := nofun

section Fair

variable {w w' : World} {i : SlotId} {m : Memo}

theorem Placed.of_node {read : Read} (h : w.Placed p use read)
    (hnode : ∀ i n, w.node? i = some n → w'.node? i = some n) : w'.Placed p use read :=
  ⟨hnode _ _ h.node, h.typed⟩

/-- The value of a memo has the type of its query. -/
theorem Reliable.type (hp : p.Pure use same yields) (h : w.Reliable p use same i m) {label : Label}
    {key : Key} (hi : w.node? i = some (p.node label key)) : m.value.type = (p label).valueType := by
  obtain ⟨label', key', reads, hi', htype, -⟩ := h.run
  have hid : (p label').id = (p label).id :=
    congrArg Node.query (Option.some.inj (hi'.symm.trans hi))
  rw [htype, ← hp.valueType, ← hp.valueType, hid]

/-- A memo that is left alone stays reliable, if what is known of reads stays known. -/
theorem Reliable.carries (h : w.Reliable p use same i m)
    (hnode : ∀ i n, w.node? i = some n → w'.node? i = some n) (hle : w.revision ≤ w'.revision)
    (hinputs : w'.revision = w.revision → w'.inputs = w.inputs)
    (hseen : ∀ read, w.Seen p use same m.verifiedAt read → w'.Seen p use same m.verifiedAt read) :
    w'.Reliable p use same i m where
  changed_le := h.changed_le
  verified_le := Nat.le_trans h.verified_le hle
  right hverified label key hi := by
    have hrevision : w'.revision = w.revision :=
      Nat.le_antisymm (hverified ▸ h.verified_le) hle
    obtain ⟨label', key', reads, hi', -⟩ := h.run
    rw [hinputs hrevision]
    exact h.right (hverified.trans hrevision) label key (hi'.trans ((hnode _ _ hi').symm.trans hi))
  run := by
    obtain ⟨label, key, reads, hi, htype, hfollows, hdeps, hknown⟩ := h.run
    refine ⟨label, key, reads, hnode _ _ hi, htype, hfollows, hdeps,
      fun read hmem => (hknown.placed read hmem).of_node hnode, ?_⟩
    exact hknown.seen.imp_right fun hreads read hmem => hseen read (hreads read hmem)

/-- A world stays fair if what is known of reads stays known, and if new memos are reliable. -/
theorem Fair.carries (h : w.Fair p use same) (ht' : Tidy p use w'.toSystem)
    (hmemoize : w'.memoize = w.memoize) (hnode : ∀ i n, w.node? i = some n → w'.node? i = some n)
    (hle : w.revision ≤ w'.revision) (hinputs : w'.revision = w.revision → w'.inputs = w.inputs)
    (hseen : ∀ r read, r ≤ w.revision → w.Seen p use same r read → w'.Seen p use same r read)
    (hmemo : ∀ i m, w'.memo? i = some m → w.memo? i = some m ∨ w'.Reliable p use same i m) :
    w'.Fair p use same where
  tidy := ht'
  memoize := hmemoize.trans h.memoize
  reliable i m hm := by
    rcases hmemo i m hm with hold | hnew
    · have hreliable := h.reliable i m hold
      exact hreliable.carries hnode hle hinputs fun read => hseen _ read hreliable.verified_le
    · exact hnew

/-- The same for what happens at one revision. -/
theorem Fair.spares (h : w.Fair p use same) (ht' : Tidy p use w'.toSystem) {kept : List SlotId}
    (hw : w.Spares p use same kept w')
    (hmemo : ∀ i m, w'.memo? i = some m → w.memo? i = some m ∨ w'.Reliable p use same i m) :
    w'.Fair p use same :=
  h.carries ht' hw.memoize hw.node (Nat.le_of_eq hw.revision.symm)
    (fun _ => hw.inputs h.tidy ht') hw.seen hmemo

theorem Fair.grows (h : w.Fair p use same) (ht' : Tidy p use w'.toSystem) (hw : Grows w w') :
    w'.Fair p use same :=
  h.carries ht' hw.memoize hw.node (Nat.le_of_eq hw.revision.symm) (fun _ => hw.inputs h.tidy ht')
    (fun _ _ _ hread => hread.grows h.tidy ht' hw) fun i _ hm => .inl ((hw.memo i).symm.trans hm)

theorem Fair.quiet (h : w.Fair p use same) (hw : Quiet w w') : w'.Fair p use same :=
  h.grows (hw.tidy h.tidy) hw.grows

/-- Requests that are answered at once leave a world fair. -/
theorem Fair.turns (h : w.Fair p use same) (hw : w.Turns p use w') : w'.Fair p use same := by
  induction hw with
  | grows tidy grows => exact h.grows tidy grows
  | @writes w w' i v tidy writes =>
    have hle : w.revision ≤ w'.revision := writes.revision ▸ Nat.le_succ _
    refine h.carries tidy writes.memoize (fun j n hj => (writes.node j).trans hj) hle ?_
      (fun _ _ hr hread => hread.writes h.tidy tidy writes hr)
      fun j _ hm => .inl ((writes.memo j).symm.trans hm)
    exact fun hrevision => absurd (writes.revision.symm.trans hrevision) (Nat.succ_ne_self _)
  | @clears w w' before tidy clears =>
    refine h.carries tidy clears.memoize clears.node (Nat.le_of_eq clears.revision.symm)
      (fun _ => clears.inputs h.tidy tidy) (fun _ _ _ hread => hread.clears h.tidy tidy clears)
      fun j m hm => ?_
    rcases clears.memo j with hkept | ⟨hgone, -⟩
    · exact .inl (hkept.symm.trans hm)
    · rw [hgone] at hm
      cases hm
  | trans _ _ ih ih' => exact ih' (ih h)

/-- A memo that is made now by a run whose reads are known now, and that is right, leaves a world
    fair. -/
theorem Fair.commits (hp : p.Pure use same yields) (h : w.Fair p use same) {label : Label}
    {key : Key} (hi : w.node? i = some (p.node label key))
    (hcommits : Commits p use (same (p label).id) w i m w') (hverified : m.verifiedAt = w.revision)
    (hright : YieldsAlike p w.inputs label key m.value) {reads : List Read}
    (hfollows : Follows ((p label).body key) reads (.done (.ok m.value)))
    (hdeps : m.deps = dependencies reads) (hknown : w.Known p use same w.revision reads)
    {kept : List SlotId} (hout : i ∉ kept) : w'.Fair p use same ∧ w.Spares p use same kept w' := by
  have hspares := hcommits.spares hp h.tidy hi hverified hright hout
  refine ⟨h.spares hcommits.tidy hspares fun j o ho => ?_, hspares⟩
  by_cases hj : j = i
  · subst hj
    obtain rfl := Option.some.inj (hcommits.memo_self.symm.trans ho)
    have hi' := hcommits.node _ _ hi
    refine .inr ⟨⟨?_, ?_, ?_⟩, label, key, reads, hi', ?_, hfollows, hdeps, ?_, ?_⟩
    · refine hcommits.supersedes.changed_le fun o ho => ?_
      rw [hverified]
      exact Nat.le_trans (h.reliable j o ho).changed_le (h.reliable j o ho).verified_le
    · exact Nat.le_of_eq (hverified.trans hcommits.revision.symm)
    · intro _ label' key' hj'
      rw [hcommits.inputs h.tidy hcommits.tidy]
      exact hright.of_node hp (Option.some.inj (hi'.symm.trans hj'))
    · exact hright.elim fun _ h => h.elim fun _ h => h.2.1
    · exact fun read hmem => (hknown.placed read hmem).of_node hcommits.node
    · rw [hverified]
      exact hknown.seen.imp_right fun hreads read hmem =>
        hspares.seen _ read (Nat.le_refl _) (hreads read hmem)
  · exact .inl ((hcommits.memo_other j hj).symm.trans ho)

end Fair

end World

end RedGreen
