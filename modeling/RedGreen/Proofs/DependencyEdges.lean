import RedGreen.Proofs.Edits
import RedGreen.Proofs.Lineage

set_option autoImplicit false

/-! # Validity along dependency edges

What a memo depends on is valid at least as long as the memo (`World.Linked`), if the bodies fail when
one of their calls fails. A step of an evaluation keeps it so, provided that no write and no clear
comes between (`Next.tends`).

The evaluation that is under way knows about its own slots. A body has read inputs and values that are
valid now, a revalidation has still to look at the dependencies that are not known to be valid now, and
what is asked for is valid now when it is answered (`World.Tends`). When a memo is made or confirmed,
all that it depends on is therefore valid now. -/

namespace RedGreen

open Evaluation

variable {p : Program} {t : Token}

/-! ## Bodies that fail with their calls -/

/-- A body that comes to an error, whatever it is told. -/
inductive Fails : Body → Prop
  | done (e : QueryError) : Fails (.done (.error e))
  | perform {op : Operation} {next : op.Reply → Body} (h : ∀ r, Fails (next r)) :
    Fails (.perform op next)
  | call {mode : CallMode} {label : Label} {key : Key} {next : Except QueryError Value → Body}
    (h : ∀ r, Fails (next r)) : Fails (.call mode label key next)
  | yield {next : Body} (h : Fails next) : Fails (.yield next)

/-- A body that comes to an error once a call has failed; one that returns the error of the call
    unchanged, say, at once or later. It may recover from the error of an input read. -/
inductive Strict : Body → Prop
  | done (r : Except QueryError Value) : Strict (.done r)
  | perform {op : Operation} {next : op.Reply → Body} (h : ∀ r, Strict (next r)) :
    Strict (.perform op next)
  | call {mode : CallMode} {label : Label} {key : Key} {next : Except QueryError Value → Body}
    (error : ∀ e, Fails (next (.error e))) (ok : ∀ v, Strict (next (.ok v))) :
    Strict (.call mode label key next)
  | yield {next : Body} (h : Strict next) : Strict (.yield next)

/-- A body that hands on the errors of its calls fails with them. -/
theorem Transparent.strict {b : Body} (h : Transparent b) : Strict b := by
  induction h with
  | done r => exact .done r
  | perform _ ih => exact .perform ih
  | call error _ ih => exact .call (fun e => error e ▸ .done e) ih
  | yield _ ih => exact .yield ih

/-! ## Where an evaluation stands -/

namespace World

variable {w w' w'' : World} {i : SlotId}

/-- What a memo depends on is valid at least as long as the memo. -/
structure Linked (w : World) : Prop where
  bound : ∀ i m, w.memo? i = some m → m.verifiedAt ≤ w.revision
  lasts : ∀ i m, w.memo? i = some m → ∀ j ∈ m.deps, w.Lasts m.verifiedAt j

/-- No memo is another one, and slots stay of their kind. -/
structure Calm (w w' : World) : Prop where
  revision : w'.revision = w.revision
  memo : ∀ i, w'.memo? i = w.memo? i
  kind : ∀ i k, w.kind? i = some k → w'.kind? i = some k

/-- Slots are what they were, and valid at least as long. -/
structure Upholds (w w' : World) : Prop where
  kind : ∀ i k, w.kind? i = some k → w'.kind? i = some k
  lasts : ∀ r i, w.Lasts r i → w'.Lasts r i

/-- What the memo of a slot under revalidation depends on is valid now, but for what is left to look
    at. -/
structure Looks (w : World) (walk : Walk) (left : List SlotId) : Prop where
  revision : walk.revision = w.revision
  deps : ∀ m, w.memo? walk.slot = some m → ∀ j ∈ m.deps, j ∈ left ∨ w.Lasts w.revision j

/-- What a running body has read is valid now, but for what it waits for. -/
structure Reads (w : World) (a : Activation) (left : List SlotId) : Prop where
  revision : a.revision = w.revision
  derived : w.kind? a.slot = some .derived
  deps : ∀ j ∈ a.deps, j ∈ left ∨ w.Lasts w.revision j

/-- A running body fails with its calls and has read what is valid now, or it comes to an error. -/
def Heeds (w : World) (a : Activation) (b : Body) : Prop := Strict b ∧ w.Reads a [] ∨ Fails b

/-- Frames that wait for a slot. -/
inductive Expects (w : World) : SlotId → List Frame → Prop
  | nobody {i : SlotId} : Expects w i []
  | touching {walk : Walk} {dep : SlotId} {frames : List Frame}
    (looks : w.Looks walk (dep :: walk.rest)) (outer : Expects w walk.slot frames) :
    Expects w dep (.touching walk dep :: frames)
  | calling {a : Activation} {mode : CallMode} {callee : SlotId}
    {next : Except QueryError Value → Body} {frames : List Frame}
    (error : ∀ e, Fails (next (.error e)))
    (ok : (∀ v, Strict (next (.ok v))) ∧ w.Reads a [callee] ∨ ∀ v, Fails (next (.ok v)))
    (outer : Expects w a.slot frames) :
    Expects w callee (.calling ⟨a, mode, callee, next⟩ :: frames)

/-- Where an evaluation stands, and what it knows. -/
inductive Tends (w : World) : Evaluation → Prop
  | requested {i : SlotId} {frames : List Frame} (expects : w.Expects i frames) :
    Tends w ⟨.fetch i, frames⟩
  | walking {walk : Walk} {frames : List Frame} (looks : w.Looks walk walk.rest)
    (expects : w.Expects walk.slot frames) : Tends w ⟨.walk walk, frames⟩
  | computing {i : SlotId} {r : Revision} {frames : List Frame} (revision : r = w.revision)
    (expects : w.Expects i frames) : Tends w ⟨.compute i r, frames⟩
  | running {a : Activation} {b : Body} {frames : List Frame} (heeds : w.Heeds a b)
    (expects : w.Expects a.slot frames) : Tends w ⟨.body a b, frames⟩
  | failed {i : SlotId} {e : QueryError} {frames : List Frame} (expects : w.Expects i frames) :
    Tends w ⟨.answer (.error e), frames⟩
  | answered {i : SlotId} {x : Stamped} {frames : List Frame} (valid : w.Lasts w.revision i)
    (expects : w.Expects i frames) : Tends w ⟨.answer (.ok x), frames⟩

/-! ## Worlds that uphold what is valid -/

theorem Edits.calm (h : w.Edits p w') (hrevision : w'.revision = w.revision)
    (hmemo : ∀ i, w'.memo? i = w.memo? i) : w.Calm w' :=
  ⟨hrevision, hmemo, fun _ _ hk => h.kind? hk⟩

theorem Lasts.of_memo {r : Revision} (h : w.Lasts r i)
    (hkind : ∀ i k, w.kind? i = some k → w'.kind? i = some k) (hmemo : w'.memo? i = w.memo? i) :
    w'.Lasts r i := by
  rcases h with hinput | ⟨m, hm, hr⟩
  · exact .inl (hkind i _ hinput)
  · exact .inr ⟨m, hmemo.trans hm, hr⟩

theorem Calm.upholds (h : w.Calm w') : w.Upholds w' :=
  ⟨h.kind, fun _ i hr => hr.of_memo h.kind (h.memo i)⟩

/-- Memos stay linked when time goes on. -/
theorem Linked.of_memo (h : w.Linked) (hkind : ∀ i k, w.kind? i = some k → w'.kind? i = some k)
    (hmemo : ∀ i, w'.memo? i = w.memo? i) (hrevision : w.revision ≤ w'.revision) : w'.Linked where
  bound i m hm := Nat.le_trans (h.bound i m ((hmemo i).symm.trans hm)) hrevision
  lasts i m hm j hj := (h.lasts i m ((hmemo i).symm.trans hm) j hj).of_memo hkind (hmemo j)

theorem Linked.calm (h : w.Linked) (hcalm : w.Calm w') : w'.Linked :=
  h.of_memo hcalm.kind hcalm.memo (Nat.le_of_eq hcalm.revision.symm)

/-- A slot gets a memo that is valid now, and all that the memo depends on is valid now. -/
theorem Linked.land {m' : Memo} (h : w.Linked)
    (hkind : ∀ i k, w.kind? i = some k → w'.kind? i = some k) (hrevision : w'.revision = w.revision)
    (hself : w'.memo? i = some m') (hothers : ∀ j, j ≠ i → w'.memo? j = w.memo? j)
    (hverified : m'.verifiedAt = w.revision) (hdeps : ∀ j ∈ m'.deps, w.Lasts w.revision j) :
    w'.Linked ∧ w.Upholds w' := by
  have hlasts (r : Revision) (j : SlotId) (hr : w.Lasts r j) : w'.Lasts r j := by
    by_cases hj : j = i
    · subst hj
      rcases hr with hinput | ⟨m, hm, hr⟩
      · exact .inl (hkind j _ hinput)
      · refine .inr ⟨m', hself, ?_⟩
        rw [hverified]
        exact Nat.le_trans hr (h.bound j m hm)
    · exact hr.of_memo hkind (hothers j hj)
  refine ⟨⟨fun j m hm => ?_, fun j m hm k hk => ?_⟩, hkind, hlasts⟩
  · rw [hrevision]
    by_cases hj : j = i
    · subst hj
      obtain rfl := Option.some.inj (hself.symm.trans hm)
      exact Nat.le_of_eq hverified
    · exact h.bound j m ((hothers j hj).symm.trans hm)
  · by_cases hj : j = i
    · subst hj
      obtain rfl := Option.some.inj (hself.symm.trans hm)
      rw [hverified]
      exact hlasts _ k (hdeps k hk)
    · exact hlasts _ k (h.lasts j m ((hothers j hj).symm.trans hm) k hk)

theorem Looks.upheld {walk : Walk} {left : List SlotId} (h : w.Looks walk left)
    (hupholds : w.Upholds w') (hrevision : w'.revision = w.revision)
    (hmemo : w'.memo? walk.slot = w.memo? walk.slot) : w'.Looks walk left where
  revision := h.revision.trans hrevision.symm
  deps m hm j hj := by
    rw [hrevision]
    exact (h.deps m (hmemo.symm.trans hm) j hj).imp_right (hupholds.lasts _ j)

theorem Reads.upheld {a : Activation} {left : List SlotId} (h : w.Reads a left)
    (hupholds : w.Upholds w') (hrevision : w'.revision = w.revision) : w'.Reads a left where
  revision := h.revision.trans hrevision.symm
  derived := hupholds.kind _ _ h.derived
  deps j hj := by
    rw [hrevision]
    exact (h.deps j hj).imp_right (hupholds.lasts _ j)

theorem Expects.upheld {frames : List Frame} (h : w.Expects i frames) (hupholds : w.Upholds w')
    (hrevision : w'.revision = w.revision)
    (hmemo : ∀ frame ∈ frames, w'.memo? frame.slot = w.memo? frame.slot) : w'.Expects i frames := by
  induction h with
  | nobody => exact .nobody
  | @touching walk dep frames looks outer ih =>
    have hwalk := hmemo (.touching walk dep) List.mem_cons_self
    exact .touching (looks.upheld hupholds hrevision hwalk)
      (ih fun frame hframe => hmemo frame (List.mem_cons_of_mem _ hframe))
  | calling error ok outer ih =>
    refine .calling error ?_ (ih fun frame hframe => hmemo frame (List.mem_cons_of_mem _ hframe))
    exact ok.imp_left fun ⟨hok, hreads⟩ => ⟨hok, hreads.upheld hupholds hrevision⟩

/-- A caller further out among the frames. -/
theorem Expects.outer {inside outside : List Frame} {caller : Caller}
    (h : w.Expects i (inside ++ .calling caller :: outside)) :
    (∀ e, Fails (caller.next (.error e))) ∧ w.Expects caller.activation.slot outside := by
  induction inside generalizing i with
  | nil =>
    cases h with
    | calling error _ outer => exact ⟨error, outer⟩
  | cons frame inside ih =>
    cases h with
    | touching _ outer | calling _ _ outer => exact ih outer

/-- What an evaluation knows stays right as long as no memo is another one. -/
theorem Tends.calm {e : Evaluation} (h : w.Tends e) (hcalm : w.Calm w') : w'.Tends e := by
  have hupholds := hcalm.upholds
  have hexpects {i : SlotId} {frames : List Frame} (hexpects : w.Expects i frames) :
      w'.Expects i frames :=
    hexpects.upheld hupholds hcalm.revision fun frame _ => hcalm.memo frame.slot
  cases h with
  | requested expects => exact .requested (hexpects expects)
  | walking looks expects =>
    exact .walking (looks.upheld hupholds hcalm.revision (hcalm.memo _)) (hexpects expects)
  | computing revision expects =>
    exact .computing (revision.trans hcalm.revision.symm) (hexpects expects)
  | running heeds expects =>
    exact .running (heeds.imp_left fun ⟨hstrict, hreads⟩ =>
      ⟨hstrict, hreads.upheld hupholds hcalm.revision⟩) (hexpects expects)
  | failed expects => exact .failed (hexpects expects)
  | answered valid expects =>
    refine .answered ?_ (hexpects expects)
    rw [hcalm.revision]
    exact hupholds.lasts _ _ valid

/-- One dependency less is left to look at, if it is valid now. -/
theorem Looks.brought {walk : Walk} {dep : SlotId} {left : List SlotId}
    (h : w.Looks walk (dep :: left))
    (hdep : ∀ m, w.memo? walk.slot = some m → dep ∈ m.deps → w.Lasts w.revision dep) :
    w.Looks walk left where
  revision := h.revision
  deps m hm j hj := by
    rcases h.deps m hm j hj with hleft | hvalid
    · rcases List.mem_cons.1 hleft with rfl | hleft
      · exact .inr (hdep m hm hj)
      · exact .inl hleft
    · exact .inr hvalid

/-! ## Operations -/

/-- A body that has read one more slot, which is valid now. -/
theorem Reads.record {a : Activation} (h : w.Reads a []) (dep : SlotId) :
    w.Reads { a with deps := recordOnce dep a.deps } [dep] where
  revision := h.revision
  derived := h.derived
  deps j hj := by
    rcases mem_recordOnce.1 hj with hj | rfl
    · exact .inr ((h.deps j hj).resolve_left List.not_mem_nil)
    · exact .inl List.mem_cons_self

theorem Reads.brought {a : Activation} {dep : SlotId} (h : w.Reads a [dep])
    (hdep : w.Lasts w.revision dep) : w.Reads a [] where
  revision := h.revision
  derived := h.derived
  deps j hj := .inr ((h.deps j hj).elim (fun heq => List.mem_singleton.1 heq ▸ hdep) id)

/-- What a body has read stays right when it performs an operation. -/
theorem Reads.perform (p : Program) {a : Activation} (h : w.Reads a []) (t : Token)
    (op : Operation) :
    (w.perform t a op).2.2.Reads (w.perform t a op).2.1 [] := by
  have hupheld {w' : World} (hrests : w.Rests w') (hedits : w.Edits p w') : w'.Reads a [] :=
    h.upheld (hedits.calm hrests.revision hrests.memo).upholds hrests.revision
  cases op with
  | read query valueType key =>
    have hrests := w.rests_inputSlot query valueType key
    have hedits : w.Edits p (w.inputSlot query valueType key).2 :=
      w.edits_inputSlot query valueType key
    simp only [World.perform, read]
    generalize hfound : w.inputSlot query valueType key = found at hrests hedits
    obtain ⟨found, w₁⟩ := found
    cases found with
    | error e => exact hupheld hrests hedits
    | ok dep =>
      have hkind : w₁.kind? dep = some .input := kind?_of_slotFor hfound
      have hrecord := (w₁.record_footprint a dep).2
      have hreads : (w₁.record a dep).2.Reads (w₁.record a dep).1 [] := by
        have hbefore := hupheld (hrests.trans hrecord) (hedits.trans (w₁.edits_record a dep))
        exact (hbefore.record dep).brought (.inl ((w₁.edits_record (p := p) a dep).kind? hkind))
      simp only
      split <;> exact hreads
  | check | revision | slot => exact hupheld (.refl w) (.refl w)
  | cancel => exact hupheld (w.rests_cancel t) (w.edits_cancel t)
  | allocate => exact hupheld w.rests_allocate Edit.allocates.edits

theorem Heeds.perform (p : Program) {a : Activation} {op : Operation} {next : op.Reply → Body}
    (h : w.Heeds a (.perform op next)) (t : Token) :
    (w.perform t a op).2.2.Heeds (w.perform t a op).2.1 (next (w.perform t a op).1) := by
  rcases h with ⟨hstrict, hreads⟩ | hfails
  · cases hstrict with
    | perform hnext => exact .inl ⟨hnext _, hreads.perform p t op⟩
  · cases hfails with
    | perform hnext => exact .inr (hnext _)

theorem Heeds.yield {a : Activation} {next : Body} (h : w.Heeds a (.yield next)) :
    w.Heeds a next := by
  rcases h with ⟨hstrict, hreads⟩ | hfails
  · cases hstrict with
    | yield hnext => exact .inl ⟨hnext, hreads⟩
  · cases hfails with
    | yield hnext => exact .inr hnext

/-- Whatever a call comes to, a body that goes on from a value has read what is valid now. -/
theorem Heeds.call {a : Activation} {mode : CallMode} {label : Label} {key : Key}
    {next : Except QueryError Value → Body} (h : w.Heeds a (.call mode label key next)) :
    (∀ e, Fails (next (.error e))) ∧
      ((∀ v, Strict (next (.ok v))) ∧ w.Reads a [] ∨ ∀ v, Fails (next (.ok v))) := by
  rcases h with ⟨hstrict, hreads⟩ | hfails
  · cases hstrict with
    | call herror hok => exact ⟨herror, .inl ⟨hok, hreads⟩⟩
  · cases hfails with
    | call hnext => exact ⟨fun e => hnext _, .inr fun v => hnext _⟩

end World

/-! ## Steps -/

namespace Evaluation

variable {w w' : World} {e e' : Evaluation} {others : List SlotId}

/-- A step keeps what memos depend on valid, and what the evaluation knows of its frames. -/
theorem Next.linked (h : e.Next p t w e' w') (hstacked : w.Stacked (e.held ++ others))
    (hlinked : w.Linked) (htends : w.Tends e) :
    w'.Linked ∧ w.Upholds w' ∧ ∀ i, w.Expects i e.frames → w'.Expects i e.frames := by
  have hkind (i : SlotId) (k : SlotKind) (hk : w.kind? i = some k) : w'.kind? i = some k :=
    h.edits.kind? hk
  have hrevision := h.moves.persists.revision
  -- a slot in progress is none that a frame stands for
  have hapart {c : Control} {frames : List Frame} {i : SlotId} (hc : c.slot? = some i)
      (hnodup : (held ⟨c, frames⟩ ++ others).Nodup) : ∀ frame ∈ frames, frame.slot ≠ i := by
    rw [held, hc] at hnodup
    intro frame hframe heq
    refine (List.nodup_cons.1 hnodup).1 (List.mem_append_left _ ?_)
    exact heq ▸ List.mem_map_of_mem hframe
  cases h.remembers with
  | keeps memo =>
    have hcalm : w.Calm w' := ⟨hrevision, memo, hkind⟩
    exact ⟨hlinked.calm hcalm, hcalm.upholds, fun i hexpects =>
      hexpects.upheld hcalm.upholds hrevision fun frame _ => memo frame.slot⟩
  | @confirms walk m frames w w' rest memo self others' =>
    cases htends with
    | walking looks expects =>
      have hdeps : ∀ j ∈ m.deps, w.Lasts w.revision j := fun j hj =>
        (looks.deps m memo j hj).resolve_left (rest ▸ List.not_mem_nil)
      obtain ⟨hlinked', hupholds⟩ :=
        hlinked.land hkind hrevision self others' looks.revision hdeps
      exact ⟨hlinked', hupholds, fun i hexpects => hexpects.upheld hupholds hrevision
        fun frame hframe => others' _ (hapart rfl hstacked.nodup frame hframe)⟩
  | @renews a value d frames w w' uncancelled memoize memo self others' =>
    cases htends with
    | running heeds expects =>
      rcases heeds with ⟨-, hreads⟩ | hfails
      · have hdeps : ∀ j ∈ a.deps, w.Lasts w.revision j := fun j hj =>
          (hreads.deps j hj).resolve_left List.not_mem_nil
        obtain ⟨hlinked', hupholds⟩ :=
          hlinked.land hkind hrevision self others' hreads.revision hdeps
        exact ⟨hlinked', hupholds, fun i hexpects => hexpects.upheld hupholds hrevision
          fun frame hframe => others' _ (hapart rfl hstacked.nodup frame hframe)⟩
      · cases hfails

/-- A body that starts has read nothing yet. -/
theorem tends_startBody (hp : ∀ label key, Strict ((p label).body key)) {i : SlotId} {r : Revision}
    {frames : List Frame} (hrevision : r = w.revision) (hexpects : w.Expects i frames) :
    (w.startBody p i r).2.Tends ⟨(w.startBody p i r).1, frames⟩ := by
  have hupheld : w.Tends ⟨(w.startBody p i r).1, frames⟩ := by
    unfold World.startBody
    split
    · rename_i query key d hslot
      refine .running (.inl ⟨hp _ _, hrevision, ?_, nofun⟩) hexpects
      show w.slots[i]?.map Slot.kind = some .derived
      rw [hslot]
      rfl
    · exact .running (.inr (.done _)) hexpects
  obtain ⟨body, w', hstart, hrests⟩ := w.startBody_footprint p i r
  have hedits := w.edits_startBody p i r
  rw [hstart] at hupheld hedits ⊢
  exact hupheld.calm (hedits.calm hrests.revision hrests.memo)

theorem tends_touched {walk : Walk} {dep : SlotId} {frames : List Frame} (changedAt : Revision)
    (hlooks : w.Looks walk walk.rest) (hexpects : w.Expects walk.slot frames)
    (h : (w.touched t walk dep changedAt).2.Expects walk.slot frames)
    (hrevision : (w.touched t walk dep changedAt).2.revision = w.revision) :
    (w.touched t walk dep changedAt).2.Tends ⟨(w.touched t walk dep changedAt).1, frames⟩ := by
  have htouched := w.touched_spec t walk dep changedAt
  generalize w.touched t walk dep changedAt = out at h htouched hrevision
  cases htouched with
  | cancelled => exact .failed h
  | changed => exact .computing (hlooks.revision.trans hrevision.symm) h
  | unchanged => exact .walking hlooks hexpects

theorem tends_of_stepBody (hmemoize : w.memoize = true) {a : Activation} {b : Body}
    {frames : List Frame}
    (h : stepBody p t a b frames w = .running e' w' ∨ stepBody p t a b frames w = .parked e' w')
    (hupholds : w.Upholds w') (hrevision : w'.revision = w.revision)
    (hexpects : ∀ i, w.Expects i frames → w'.Expects i frames) (hheeds : w.Heeds a b)
    (hslot : w.Expects a.slot frames) : w'.Tends e' := by
  cases b with
  | done result =>
    obtain ⟨rfl, rfl⟩ := eq_of_resume h
    cases result with
    | error error => exact .failed (hexpects _ hslot)
    | ok value =>
      obtain ⟨-, hreads⟩ := hheeds.resolve_right nofun
      simp only [World.finish, hmemoize, if_true] at hexpects hrevision ⊢
      cases hcheck : w.check t with
      | error error =>
        simp only [hcheck] at hexpects ⊢
        exact .failed (hexpects _ hslot)
      | ok u =>
        simp only [hcheck] at hexpects hrevision ⊢
        rcases w.memo_commit a value with ⟨hkind, -⟩ | ⟨d, -, hcontrol, hself, -⟩
        · exact absurd hreads.derived hkind
        · rw [hcontrol]
          have hnow := Nat.le_of_eq (hrevision.trans hreads.revision.symm)
          exact .answered (.inr ⟨_, hself, hnow⟩) (hexpects _ hslot)
  | perform op next =>
    simp only [stepBody, Progress.running.injEq, reduceCtorEq, or_false] at h
    obtain ⟨rfl, rfl⟩ := h
    have hsame := (w.perform_footprint t a op).1
    exact .running (hheeds.perform p t) (hsame.symm ▸ hexpects _ hslot)
  | call mode label key next =>
    obtain ⟨herror, hok⟩ := hheeds.call
    simp only [stepBody, stepCall] at h
    split at h
    · rename_i error w₁ hfound
      simp only [Progress.running.injEq, reduceCtorEq, or_false] at h
      obtain ⟨rfl, rfl⟩ := h
      exact .running (.inr (herror error)) (hexpects _ hslot)
    · rename_i callee w₁ hfound
      simp only [Progress.running.injEq, reduceCtorEq, or_false] at h
      obtain ⟨rfl, rfl⟩ := h
      refine .requested (.calling herror (hok.imp_left ?_) (hexpects _ hslot))
      rintro ⟨hstrict, hreads⟩
      exact ⟨hstrict, (hreads.upheld hupholds hrevision).record callee⟩
  | yield next =>
    simp only [stepBody, stepYield] at h
    split at h
    · simp only [Progress.parked.injEq, reduceCtorEq, false_or] at h
      obtain ⟨rfl, rfl⟩ := h
      exact .running hheeds.yield hslot
    · rename_i inside caller outside hsplit
      simp only [Progress.running.injEq, reduceCtorEq, or_false] at h
      obtain ⟨rfl, rfl⟩ := h
      have hframes := hexpects _ hslot
      rw [(eq_append_of_splitAtImmediate hsplit).1] at hframes
      exact .running (.inr (hframes.outer.1 _)) hframes.outer.2

theorem tends_fetch (hmemoize : w.memoize = true) {i : SlotId} {frames : List Frame}
    (hmemo : ∀ j, (w.fetch p t i).2.memo? j = w.memo? j)
    (hrevision : (w.fetch p t i).2.revision = w.revision)
    (hexpects : (w.fetch p t i).2.Expects i frames) :
    (w.fetch p t i).2.Tends ⟨(w.fetch p t i).1, frames⟩ := by
  have hfetch := World.fetch_spec (p := p) hmemoize t i
  generalize w.fetch p t i = out at hfetch hmemo hexpects hrevision
  cases hfetch with
  | @hit m w' memo verified =>
    have hnow := Nat.le_of_eq (hrevision.trans verified.symm)
    exact .answered (.inr ⟨m, (hmemo i).trans memo, hnow⟩) hexpects
  | cycle => exact .failed hexpects
  | @walk m w' memo =>
    refine .walking ⟨hrevision.symm, fun m' hm' j hj => .inl ?_⟩ hexpects
    rwa [Option.some.inj (memo.symm.trans ((hmemo i).symm.trans hm'))]
  | compute => exact .computing hrevision.symm hexpects

theorem tends_of_stepWalk {walk : Walk} {frames : List Frame}
    (h : stepWalk t walk frames w = .running e' w' ∨ stepWalk t walk frames w = .parked e' w')
    (hlinked : w.Linked) (hlooks : w.Looks walk walk.rest) (hrevision : w'.revision = w.revision)
    (hexpects : w.Expects walk.slot frames) (hexpects' : w'.Expects walk.slot frames) :
    w'.Tends e' := by
  unfold stepWalk at h
  split at h
  · obtain ⟨rfl, rfl⟩ := eq_of_resume h
    cases hm : w.memo? walk.slot with
    | none =>
      simp only [World.verify, hm]
      exact .computing hlooks.revision hexpects
    | some m =>
      obtain ⟨hcontrol, hself⟩ := World.memo_verify hm
      rw [hcontrol]
      have hnow := Nat.le_of_eq (hrevision.trans hlooks.revision.symm)
      exact .answered (.inr ⟨_, hself, hnow⟩) hexpects'
  · rename_i dep rest hrest
    have hleft : w.Looks { walk with rest } (dep :: rest) := ⟨hlooks.revision, hrest ▸ hlooks.deps⟩
    simp only at h
    split at h
    · simp only [Progress.running.injEq, reduceCtorEq, or_false] at h
      obtain ⟨rfl, rfl⟩ := h
      exact .requested (.touching hleft hexpects)
    · rename_i hderived
      obtain ⟨rfl, rfl⟩ := eq_of_resume h
      refine tends_touched _ (hleft.brought fun m hm hdep => ?_) hexpects hexpects' hrevision
      -- what a memo depends on and is not derived is an input
      rcases hlinked.lasts _ m hm dep hdep with hinput | ⟨m', hm', -⟩
      · exact .inl hinput
      · exact absurd (System.kind?_of_memo hm') hderived

theorem tends_compute (hp : ∀ label key, Strict ((p label).body key)) {i : SlotId} {r : Revision}
    {frames : List Frame} (hrevision : r = w.revision) (hexpects : w.Expects i frames)
    (hexpects' : (w.compute p t i r).2.Expects i frames) :
    (w.compute p t i r).2.Tends ⟨(w.compute p t i r).1, frames⟩ := by
  unfold World.compute at hexpects' ⊢
  split at hexpects'
  · exact .failed hexpects'
  · have hlog := w.rests_log (.recompute (w.info i) r)
    have hedits := w.edits_log (p := p) (e := .recompute (w.info i) r) rfl
    have hbefore : (w.log (.recompute (w.info i) r)).Expects i frames :=
      hexpects.upheld (hedits.calm rfl hlog.memo).upholds rfl fun frame _ => hlog.memo frame.slot
    exact tends_startBody hp hrevision hbefore

/-- What an evaluation knows of what is valid stays right, and what memos depend on stays valid. -/
theorem Next.tends (hp : ∀ label key, Strict ((p label).body key)) (hmemoize : w.memoize = true)
    (h : e.Next p t w e' w') (hstacked : w.Stacked (e.held ++ others)) (hlinked : w.Linked)
    (htends : w.Tends e) : w'.Linked ∧ w'.Tends e' := by
  obtain ⟨hlinked', hupholds, hexpects⟩ := h.linked hstacked hlinked htends
  refine ⟨hlinked', ?_⟩
  have hrevision := h.moves.persists.revision
  have hremembers := h.remembers
  cases htends with
  | requested expects =>
    obtain ⟨rfl, rfl⟩ := eq_of_resume h
    cases hremembers with
    | keeps memo => exact tends_fetch hmemoize memo hrevision (hexpects _ expects)
  | walking looks expects =>
    exact tends_of_stepWalk h hlinked looks hrevision expects (hexpects _ expects)
  | computing revision expects =>
    obtain ⟨rfl, rfl⟩ := eq_of_resume h
    exact tends_compute hp revision expects (hexpects _ expects)
  | running heeds expects =>
    exact tends_of_stepBody hmemoize h hupholds hrevision hexpects heeds expects
  | @failed i error frames expects =>
    cases expects with
    | nobody => rcases h with h | h <;> cases h
    | touching looks outer =>
      have hframes := hexpects _ (.touching looks outer)
      obtain ⟨rfl, rfl⟩ := eq_of_resume h
      cases hframes with
      | touching looks' outer' => exact .failed outer'
    | calling herror hok outer =>
      rcases h with h | h <;> cases h
      exact .running (.inr (herror error)) outer
  | @answered i x frames valid expects =>
    cases expects with
    | nobody => rcases h with h | h <;> cases h
    | @touching walk dep frames looks outer =>
      have hframes := hexpects _ (.touching looks outer)
      obtain ⟨rfl, rfl⟩ := eq_of_resume h
      cases hframes with
      | touching looks' outer' =>
        exact tends_touched _ (looks.brought fun _ _ _ => valid) outer outer' hrevision
    | calling herror hok outer =>
      rcases h with h | h <;> cases h
      refine .running ?_ outer
      cases hcheck : w.check t with
      | error error => exact .inr (herror error)
      | ok u =>
        rcases hok with ⟨hstrict, hreads⟩ | hfails
        · exact .inl ⟨hstrict x.value, hreads.brought valid⟩
        · exact .inr (hfails x.value)

/-- A run keeps what memos depend on valid. -/
theorem Reaches.tends (hp : ∀ label key, Strict ((p label).body key)) (hmemoize : w.memoize = true)
    (h : Reaches p t e w e' w') (hstacked : w.Stacked (e.held ++ others)) (hlinked : w.Linked)
    (htends : w.Tends e) : w'.Linked ∧ w'.Tends e' := by
  have hrun := h.preserves (motive := fun e' w' =>
    w'.memoize = true ∧ w'.Stacked (e'.held ++ others) ∧ w'.Linked ∧ w'.Tends e')
    (fun e₁ w₁ e₂ w₂ hnext ⟨hmemoize₁, hstacked₁, hlinked₁, htends₁⟩ =>
      ⟨hnext.moves.persists.memoize.trans hmemoize₁, hnext.moves.stacked hstacked₁,
        hnext.tends hp hmemoize₁ hstacked₁ hlinked₁ htends₁⟩)
    ⟨hmemoize, hstacked, hlinked, htends⟩
  exact hrun.2.2

end Evaluation

end RedGreen
