import RedGreen.Proofs.Provenance

set_option autoImplicit false

/-! # Sound worlds

A memo is *justified* if it is the result of a run whose reads are still known, up to the revision
at which the memo is valid. A world is *sound* if all its memos are justified. In a sound world a
memo that is valid now is right: its body yields its value on the present inputs
(`Sound.right`). What operations do to the slots keeps a world sound; for the renewal of a memo this
is the only place where the new value matters: if it is right, what is known of reads stays known
(`Seen.renews_now`). -/

namespace RedGreen

variable {p : Program} {use : Usages} {same : Indistinct} {yields : Prop}

/-- The body of a query yields a value that is alike a given one. -/
def YieldsAlike (p : Program) (inputs : Inputs) (label : Label) (key : Key) (v : Value) : Prop :=
  ∃ n v', Yields p inputs n ((p label).body key) (.ok v') ∧ v.AlikeOf (p label).valueType v'

/-- Labels of one node yield the same. -/
theorem YieldsAlike.of_node (hp : p.Pure use same yields) {inputs : Inputs} {label label' : Label}
    {key key' : Key} {v : Value} (h : YieldsAlike p inputs label key v)
    (hnode : p.node label key = p.node label' key') : YieldsAlike p inputs label' key' v := by
  obtain ⟨n, v', hyields, halike⟩ := h
  have hid : (p label).id = (p label').id := congrArg Node.query hnode
  refine ⟨n, v', hp.body_eq hnode ▸ hyields, ?_⟩
  rwa [← hp.valueType, ← hid, hp.valueType]

namespace World

/-! ## Trusted memos -/

/-- The stamps of a memo are in order, and if it is valid now, it is right. -/
structure Trusted (p : Program) (w : World) (i : SlotId) (m : Memo) : Prop where
  changed_le : m.changedAt ≤ m.verifiedAt
  verified_le : m.verifiedAt ≤ w.revision
  right : m.verifiedAt = w.revision → ∀ label key, w.node? i = some (p.node label key) →
    YieldsAlike p w.inputs label key m.value

section Trusted

variable {w w' : World} {r : Revision} {i : SlotId} {m : Memo} {label : Label} {key : Key}

/-- What is read from a memo is known for as long as the memo is valid. -/
theorem Seen.of_memo (hp : p.Pure use same yields) (ht : Tidy p use w.toSystem)
    (hi : w.node? i = some (p.node label key)) (hm : w.memo? i = some m) (h : w.Trusted p i m)
    (hr : r ≤ m.verifiedAt) {v : Value} (hsame : m.changedAt ≤ r → same (p label).id v m.value) :
    w.Seen p use same r ⟨i, .derived label key, .ok v⟩ where
  node := hi
  typed := ht.keyType hi
  current hcurrent := by
    -- the memo is valid now as well, hence right
    have hverified : m.verifiedAt = w.revision := Nat.le_antisymm h.verified_le (hcurrent ▸ hr)
    obtain ⟨n, v', hyields, halike⟩ := h.right hverified label key hi
    refine ⟨n, .ok v', hyields, .ok (hp.trans _ _ _ _ (hsame ?_) (hp.alike _ _ _ ?_))⟩
    · exact Nat.le_trans h.changed_le (Nat.le_of_eq (hverified.trans hcurrent.symm))
    · rwa [hp.valueType]
  unwritten _ _ hsource := nomatch hsource
  verified m' hm' := by
    obtain rfl := Option.some.inj (hm.symm.trans hm')
    exact hr
  unchanged label' key' m' v' hsource hm' hle hreply := by
    cases hsource
    cases hreply
    obtain rfl := Option.some.inj (hm.symm.trans hm')
    exact hsame hle

/-- A read that was answered by a value is known for as long as the slot's memo is valid, if the
    value of the slot has not changed since. -/
theorem Seen.of_kept (hp : p.Pure use same yields) (ht : Tidy p use w.toSystem) {read : Read}
    (hread : w.Seen p use same r read) (hi : w.node? read.slot = some (p.node label key))
    (hreply : ∀ label key, read.source = .derived label key → ∃ v, read.reply = .ok v)
    (hm : w.memo? read.slot = some m) (h : w.Trusted p read.slot m) (hle : m.changedAt ≤ r)
    {r' : Revision} (hr' : r' ≤ m.verifiedAt) : w.Seen p use same r' read := by
  obtain ⟨label', key', hsource, -⟩ := hread.toPlaced.derived hp hi
  obtain ⟨v, hv⟩ := hreply label' key' hsource
  have hsame := hread.unchanged label' key' m v hsource hm hle hv
  have hnode := hread.node
  obtain ⟨slot, source, reply⟩ := read
  obtain rfl : source = .derived label' key' := hsource
  obtain rfl : reply = .ok v := hv
  exact Seen.of_memo hp ht hnode hm h hr' fun _ => hsame

/-- A memo is renewed as of now by what the body yields now. What is known of reads stays known. -/
theorem Seen.renews_now (hp : p.Pure use same yields) (ht : Tidy p use w.toSystem) {read : Read}
    (hread : w.Seen p use same r read) (hr : r ≤ w.revision)
    (hi : w.node? i = some (p.node label key))
    (hcommits : Commits p use (same (p label).id) w i m w') (hverified : m.verifiedAt = w.revision)
    (hright : YieldsAlike p w.inputs label key m.value) : w'.Seen p use same r read := by
  refine hread.renews hp ht hcommits.tidy hi hcommits.toRenews hcommits.supersedes
    (fun _ => hverified ▸ hr) fun hslot => ?_
  rcases Nat.lt_or_eq_of_le hr with hlt | heq
  · exact .inl (hverified ▸ hlt)
  · -- a reader that is valid now has seen what the body yields now
    refine .inr fun v hv => ?_
    obtain ⟨label', key', hsource, hnode⟩ := hread.toPlaced.derived hp (hslot ▸ hi)
    have hcurrent := hread.current heq
    rw [Read.Matches, hsource, hv] at hcurrent
    obtain ⟨n, r', hyields, hagree⟩ := hcurrent
    obtain ⟨n', v', hyields', halike⟩ := hright
    have hid : (p label').id = (p label).id := congrArg Node.query hnode
    rw [hp.body_eq hnode] at hyields
    obtain ⟨-, rfl⟩ := hyields.unique hyields'
    rw [← hp.valueType] at halike
    rw [hid] at hagree
    exact hp.trans _ _ _ _ (Agree.ok_ok.1 hagree) (hp.alike _ _ _ halike.symm)

end Trusted

/-! ## What happens at one revision -/

/-- At one revision, what is known of reads stays known, and the memos of some slots are left
    alone. -/
structure Spares (p : Program) (use : Usages) (same : Indistinct) (w : World) (kept : List SlotId)
    (w' : World) : Prop extends Extends w w' where
  seen : ∀ r read, r ≤ w.revision → w.Seen p use same r read → w'.Seen p use same r read
  memo : ∀ i ∈ kept, w'.memo? i = w.memo? i
  entryLocked : w'.entryLocked = w.entryLocked

section Spares

variable {w w' w'' : World} {kept kept' : List SlotId}

theorem Spares.refl (w : World) (kept : List SlotId) : Spares p use same w kept w :=
  ⟨.refl w, fun _ _ _ hread => hread, fun _ _ => rfl, rfl⟩

theorem Spares.trans (h : Spares p use same w kept w') (h' : Spares p use same w' kept w'') :
    Spares p use same w kept w'' :=
  ⟨h.toExtends.trans h'.toExtends,
    fun r read hr hread => h'.seen r read (h.revision ▸ hr) (h.seen r read hr hread),
    fun i hi => (h'.memo i hi).trans (h.memo i hi), h'.entryLocked.trans h.entryLocked⟩

theorem Spares.subset (h : Spares p use same w kept w') (hsub : kept' ⊆ kept) :
    Spares p use same w kept' w' :=
  ⟨h.toExtends, h.seen, fun i hi => h.memo i (hsub hi), h.entryLocked⟩

theorem Grows.spares (h : Grows w w') (ht : Tidy p use w.toSystem) (ht' : Tidy p use w'.toSystem)
    (hlocked : w'.entryLocked = w.entryLocked) (kept : List SlotId) :
    Spares p use same w kept w' :=
  ⟨h.toExtends, fun _ _ _ hread => hread.grows ht ht' h, fun i _ => h.memo i, hlocked⟩

theorem Quiet.spares (h : Quiet w w') (ht : Tidy p use w.toSystem) (kept : List SlotId) :
    Spares p use same w kept w' := h.grows.spares ht (h.tidy ht) h.entryLocked kept

theorem Commits.spares (hp : p.Pure use same yields) (ht : Tidy p use w.toSystem) {i : SlotId}
    {m : Memo} {label : Label} {key : Key} (hi : w.node? i = some (p.node label key))
    (hcommits : Commits p use (same (p label).id) w i m w') (hverified : m.verifiedAt = w.revision)
    (hright : YieldsAlike p w.inputs label key m.value) (hout : i ∉ kept) :
    Spares p use same w kept w' where
  toExtends := hcommits.toExtends
  seen _ _ hr hread := hread.renews_now hp ht hr hi hcommits hverified hright
  memo j hj := hcommits.memo_other j fun heq => hout (heq ▸ hj)
  entryLocked := hcommits.entryLocked

end Spares

/-! ## Justified memos -/

/-- A memo is the result of a run whose reads are still known. -/
structure Justified (p : Program) (use : Usages) (same : Indistinct) (w : World) (i : SlotId)
    (m : Memo) : Prop where
  changed_le : m.changedAt ≤ m.verifiedAt
  verified_le : m.verifiedAt ≤ w.revision
  run : ∃ label key reads, w.node? i = some (p.node label key) ∧
    m.value.type = (p label).valueType ∧
    Follows ((p label).body key) reads (.done (.ok m.value)) ∧ m.deps = dependencies reads ∧
    ∀ read ∈ reads, w.Seen p use same m.verifiedAt read

/-- The reads of the run, for the body of a known node. -/
theorem Justified.run_of (hp : p.Pure use same yields) {w : World} {i : SlotId} {m : Memo}
    (h : w.Justified p use same i m) {label : Label} {key : Key}
    (hi : w.node? i = some (p.node label key)) :
    ∃ reads, Follows ((p label).body key) reads (.done (.ok m.value)) ∧
      m.deps = dependencies reads ∧ ∀ read ∈ reads, w.Seen p use same m.verifiedAt read := by
  obtain ⟨label', key', reads, hi', -, hfollows, hdeps, hseen⟩ := h.run
  rw [hp.body_eq (Option.some.inj (hi'.symm.trans hi))] at hfollows
  exact ⟨reads, hfollows, hdeps, hseen⟩

/-- The value of a memo has the type of its query. -/
theorem Justified.type (hp : p.Pure use same yields) {w : World} {i : SlotId} {m : Memo}
    (h : w.Justified p use same i m) {label : Label} {key : Key}
    (hi : w.node? i = some (p.node label key)) : m.value.type = (p label).valueType := by
  obtain ⟨label', key', reads, hi', htype, -⟩ := h.run
  have hid : (p label').id = (p label).id := congrArg Node.query (Option.some.inj (hi'.symm.trans hi))
  rw [htype, ← hp.valueType, ← hp.valueType, hid]

/-- Every memo is justified. -/
structure Sound (p : Program) (use : Usages) (same : Indistinct) (w : World) : Prop where
  tidy : Tidy p use w.toSystem
  memoize : w.memoize = true
  justified : ∀ i m, w.memo? i = some m → w.Justified p use same i m

namespace Sound

variable {w w' : World}

/-- A memo that is valid now is right. -/
theorem right (hp : p.Pure use same yields) (h : w.Sound p use same) {i : SlotId} {m : Memo}
    {label : Label} {key : Key} (hi : w.node? i = some (p.node label key))
    (typed : key.type = (use (p label).id).keyType) (hmemo : w.memo? i = some m)
    (hverified : m.verifiedAt = w.revision) :
    YieldsAlike p w.inputs label key m.value := by
  obtain ⟨reads, hfollows, -, hseen⟩ := (h.justified i m hmemo).run_of hp hi
  obtain ⟨n, r, hyields, hagree⟩ := hfollows.result (hp.lawful label key typed)
    fun read hmem => (hseen read hmem).current hverified
  obtain ⟨v, rfl, halike⟩ := hagree.of_ok_left
  exact ⟨n, v, hyields, halike⟩

theorem trusted (hp : p.Pure use same yields) (h : w.Sound p use same) {i : SlotId} {m : Memo}
    (hmemo : w.memo? i = some m) : w.Trusted p i m where
  changed_le := (h.justified i m hmemo).changed_le
  verified_le := (h.justified i m hmemo).verified_le
  right hverified _ _ hi := h.right hp hi (h.tidy.keyType hi) hmemo hverified

/-- A world stays sound if what is known of the reads stays known, and if new memos are
    justified. -/
theorem of_extends (h : w.Sound p use same) (ht' : Tidy p use w'.toSystem) (hw : Extends w w')
    (hseen : ∀ i m read, w.memo? i = some m → read.slot ∈ m.deps →
      w.Seen p use same m.verifiedAt read → w'.Seen p use same m.verifiedAt read)
    (hmemo : ∀ i m, w'.memo? i = some m → w.memo? i = some m ∨ w'.Justified p use same i m) :
    w'.Sound p use same where
  tidy := ht'
  memoize := hw.memoize.trans h.memoize
  justified i m hm := by
    rcases hmemo i m hm with hold | hnew
    · have hjustified := h.justified i m hold
      obtain ⟨label, key, reads, hi, htype, hfollows, hdeps, hreads⟩ := hjustified.run
      refine ⟨hjustified.changed_le, hw.revision ▸ hjustified.verified_le, label, key, reads,
        hw.node i _ hi, htype, hfollows, hdeps, fun read hmem => ?_⟩
      refine hseen i m read hold ?_ (hreads read hmem)
      rw [hdeps]
      exact mem_dependencies.2 ⟨read, hmem, rfl⟩
    · exact hnew

theorem grows (h : w.Sound p use same) (ht' : Tidy p use w'.toSystem) (hw : Grows w w') :
    w'.Sound p use same :=
  h.of_extends ht' hw.toExtends (fun _ _ _ _ _ hread => hread.grows h.tidy ht' hw)
    fun i _ hm => .inl ((hw.memo i).symm.trans hm)

theorem quiet (h : w.Sound p use same) (hw : Quiet w w') : w'.Sound p use same :=
  h.grows (hw.tidy h.tidy) hw.grows

theorem clears (h : w.Sound p use same) (ht' : Tidy p use w'.toSystem) {before : Revision}
    (hw : Clears w before w') : w'.Sound p use same := by
  refine h.of_extends ht' hw.toExtends (fun _ _ _ _ _ hread => hread.clears h.tidy ht' hw) ?_
  intro i m hm
  rcases hw.memo i with hkept | ⟨hgone, -⟩
  · exact .inl (hkept.symm.trans hm)
  · rw [hgone] at hm
    cases hm

theorem writes (h : w.Sound p use same) (ht' : Tidy p use w'.toSystem) {i : SlotId} {v : Value}
    (hw : Writes w i v w') : w'.Sound p use same where
  tidy := ht'
  memoize := hw.memoize.trans h.memoize
  justified j m hm := by
    have hjustified := h.justified j m ((hw.memo j).symm.trans hm)
    obtain ⟨label, key, reads, hj, htype, hfollows, hdeps, hreads⟩ := hjustified.run
    refine ⟨hjustified.changed_le, ?_, label, key, reads, (hw.node j).trans hj, htype, hfollows, hdeps,
      fun read hmem => (hreads read hmem).writes h.tidy ht' hw hjustified.verified_le⟩
    rw [hw.revision]
    exact Nat.le_succ_of_le hjustified.verified_le

end Sound

end World

end RedGreen
