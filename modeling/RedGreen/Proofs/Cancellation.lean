import RedGreen.Proofs.Edits
import RedGreen.Proofs.Parking

set_option autoImplicit false

/-! # Cancelled requests are contained

Once a token is cancelled, what runs under it comes to nothing (`cancelled_requests_are_contained`). No
body is started, a body that runs still is told errors only, and of what is kept nothing changes but
the stamp of validity of memos that depend on nothing. A call that was in progress when its token was
cancelled ends with an error, whatever its body makes of the errors that it is told.

The checks are spread over the step: before a body starts and after it has ended, after each
dependency of a revalidation, at each read and at each answer to a body. What an evaluation can still
do between them is listed once (`Halts`), and everything is read off this list.

A revalidation that has looked at all its dependencies is confirmed without another check. Between the
last check and that point nothing else can happen in the system: tasks are parked in bodies, and
bodies are what cancels. Only a limit on the steps of a poll could stop an evaluation just there
(`Confirms`). Where no poll is cut short by it, no evaluation stands there when a token is cancelled. -/

namespace RedGreen

open Evaluation

variable {p : Program} {t : Token}

/-! ## Checks -/

namespace World

variable {w : World}

theorem touched_of_cancelled (h : t ∈ w.cancelled) (walk : Walk) (dep : SlotId) (changedAt : Revision) :
    w.touched t walk dep changedAt = w.fail walk.slot .cancelled := by
  simp only [touched, check_of_mem h]

theorem compute_of_cancelled (h : t ∈ w.cancelled) (p : Program) (i : SlotId) (r : Revision) :
    w.compute p t i r = w.fail i .cancelled := by
  simp only [compute, check_of_mem h]

/-- A body that ends under a cancelled token has failed, also if it ends with a value. -/
theorem finish_of_cancelled (h : t ∈ w.cancelled) (a : Activation) (result : Except QueryError Value) :
    ∃ e, (w.finish t a result).1 = .answer (.error e) := by
  cases result with
  | error e => exact ⟨e, rfl⟩
  | ok value =>
    refine ⟨.cancelled, ?_⟩
    simp only [finish, check_of_mem h]
    split <;> rfl

theorem read_of_cancelled (p : Program) (h : t ∈ w.cancelled) (a : Activation) (query : QueryId)
    (valueType : ValueType) (key : Key) : ∃ e, (w.read t a query valueType key).1 = .error e := by
  have hslot : w.Edits p (w.inputSlot query valueType key).2 :=
    w.edits_inputSlot query valueType key
  unfold read
  generalize w.inputSlot query valueType key = found at hslot
  obtain ⟨found, w₁⟩ := found
  cases found with
  | error e => exact ⟨e, rfl⟩
  | ok dep =>
    have hcancelled := (hslot.trans (w₁.edits_record a dep)).cancelled h
    simp only
    split
    · exact ⟨_, rfl⟩
    · exact ⟨.cancelled, by rw [check_of_mem hcancelled]; rfl⟩

/-- A request under a cancelled token is answered at once, or goes about what is kept. -/
theorem fetch_of_cancelled (h : t ∈ w.cancelled) (p : Program) (i : SlotId) :
    (∃ r, (w.fetch p t i).1 = .answer r) ∨ (w.fetch p t i).1 = .compute i w.revision ∨
      ∃ m, w.memo? i = some m ∧
        (w.fetch p t i).1 = .walk ⟨i, w.revision, m.verifiedAt, m.deps⟩ := by
  have hstart (c : Control) : (∃ e, (w.start i c).1 = .answer (.error e)) ∨ (w.start i c).1 = c := by
    unfold start
    split
    · exact .inl ⟨_, rfl⟩
    · exact .inr rfl
  unfold fetch
  split
  · unfold beginMemoized
    split
    · rename_i m hm
      split
      · exact .inl ⟨_, rfl⟩
      · rcases hstart (.walk ⟨i, w.revision, m.verifiedAt, m.deps⟩) with ⟨e, he⟩ | hwalk
        · exact .inl ⟨_, he⟩
        · exact .inr (.inr ⟨m, hm, hwalk⟩)
    · rcases hstart (.compute i w.revision) with ⟨e, he⟩ | hcompute
      · exact .inl ⟨_, he⟩
      · exact .inr (.inl hcompute)
  · have henter := w.edits_enter (p := p) i
    unfold beginUncached
    split
    · exact .inl ⟨_, rfl⟩
    · rename_i w₁ heq
      rw [heq] at henter
      simp only [check_of_mem (henter.cancelled h)]
      exact .inl ⟨_, rfl⟩

end World

/-! ## What an evaluation can still do -/

/-- What can only come to an error under a cancelled token, of the call that is innermost. -/
def Control.Doomed : Control → Prop
  | .fetch _ => False
  | .walk ⟨_, _, _, rest⟩ => rest ≠ []
  | .compute _ _ => True
  | .body _ _ => True
  | .answer r => ∃ error, r = .error error

namespace Evaluation

variable {w w' : World} {e e' : Evaluation}

/-- All that an evaluation can still do in a step when its token is cancelled. No body starts, and
    whatever a body reads or calls, it is told an error. -/
inductive Halts (w : World) : Evaluation → Evaluation → Prop
  | answers {i : SlotId} {r : Except QueryError Stamped} {frames : List Frame} :
    Halts w ⟨.fetch i, frames⟩ ⟨.answer r, frames⟩
  | walks {i : SlotId} {m : Memo} {frames : List Frame} (memo : w.memo? i = some m) :
    Halts w ⟨.fetch i, frames⟩ ⟨.walk ⟨i, w.revision, m.verifiedAt, m.deps⟩, frames⟩
  /-- The body is about to start, and then fails. -/
  | computes {i : SlotId} {frames : List Frame} :
    Halts w ⟨.fetch i, frames⟩ ⟨.compute i w.revision, frames⟩
  | touches {walk : Walk} {dep : SlotId} {rest : List SlotId} {frames : List Frame}
    (next : walk.rest = dep :: rest) :
    Halts w ⟨.walk walk, frames⟩ ⟨.fetch dep, .touching { walk with rest } dep :: frames⟩
  | confirms {walk : Walk} {c : Control} {frames : List Frame} (rest : walk.rest = [])
    (control : c = (w.verify walk).1) : Halts w ⟨.walk walk, frames⟩ ⟨c, frames⟩
  | fails {c : Control} {error : QueryError} {frames : List Frame} :
    Halts w ⟨c, frames⟩ ⟨.answer (.error error), frames⟩
  | performs {a a' : Activation} {op : Operation} {next : op.Reply → Body} {reply : op.Reply}
    {frames : List Frame} (op_ne : ∀ query valueType key, op ≠ .read query valueType key) :
    Halts w ⟨.body a (.perform op next), frames⟩ ⟨.body a' (next reply), frames⟩
  /-- What a body reads, it is told an error. -/
  | reads {a a' : Activation} {query : QueryId} {valueType : ValueType} {key : Key}
    {next : Except QueryError Value → Body} {error : QueryError} {frames : List Frame} :
    Halts w ⟨.body a (.perform (.read query valueType key) next), frames⟩
      ⟨.body a' (next (.error error)), frames⟩
  | calls {a a' : Activation} {mode : CallMode} {label : Label} {key : Key} {callee : SlotId}
    {next : Except QueryError Value → Body} {frames : List Frame} :
    Halts w ⟨.body a (.call mode label key next), frames⟩
      ⟨.fetch callee, .calling ⟨a', mode, callee, next⟩ :: frames⟩
  /-- A body calls a query that it cannot call. -/
  | denies {a : Activation} {mode : CallMode} {label : Label} {key : Key}
    {next : Except QueryError Value → Body} {error : QueryError} {frames : List Frame} :
    Halts w ⟨.body a (.call mode label key next), frames⟩ ⟨.body a (next (.error error)), frames⟩
  /-- Whatever a callee is answered, the caller is told an error. -/
  | tells {r : Except QueryError Stamped} {caller : Caller} {error : QueryError}
    {frames : List Frame} :
    Halts w ⟨.answer r, .calling caller :: frames⟩
      ⟨.body caller.activation (caller.next (.error error)), frames⟩
  /-- Whatever a dependency is answered, its revalidation fails. -/
  | propagates {r : Except QueryError Stamped} {walk : Walk} {dep : SlotId} {error : QueryError}
    {frames : List Frame} :
    Halts w ⟨.answer r, .touching walk dep :: frames⟩ ⟨.answer (.error error), frames⟩
  | parks {a : Activation} {next : Body} {frames : List Frame} :
    Halts w ⟨.body a (.yield next), frames⟩ ⟨.body a next, frames⟩
  /-- A caller that does not wait is told an error in place of its callee. -/
  | givesUp {a : Activation} {next : Body} {inside outside : List Frame} {caller : Caller}
    {error : QueryError} :
    Halts w ⟨.body a (.yield next), inside ++ .calling caller :: outside⟩
      ⟨.body caller.activation (caller.next (.error error)), outside⟩

theorem halts_of_stepBody {a : Activation} {body : Body} {frames : List Frame}
    (h : stepBody p t a body frames w = .running e' w' ∨
      stepBody p t a body frames w = .parked e' w') (hcancelled : t ∈ w.cancelled) :
    Halts w ⟨.body a body, frames⟩ e' := by
  cases body with
  | done result =>
    obtain ⟨error, herror⟩ := World.finish_of_cancelled hcancelled a result
    obtain ⟨rfl, -⟩ := eq_of_resume h
    rw [herror]
    exact .fails
  | perform op next =>
    simp only [stepBody, Progress.running.injEq, reduceCtorEq, or_false] at h
    obtain ⟨rfl, -⟩ := h
    cases op with
    | read query valueType key =>
      obtain ⟨error, herror⟩ := World.read_of_cancelled p hcancelled a query valueType key
      simp only [World.perform, herror]
      exact .reads
    | check | cancel | revision | slot | allocate => exact .performs fun _ _ _ h => by cases h
  | call mode label key next =>
    simp only [stepBody, stepCall] at h
    split at h
    · simp only [Progress.running.injEq, reduceCtorEq, or_false] at h
      exact h.1 ▸ .denies
    · simp only [Progress.running.injEq, reduceCtorEq, or_false] at h
      exact h.1 ▸ .calls
  | yield next =>
    simp only [stepBody, stepYield] at h
    split at h
    · simp only [Progress.parked.injEq, reduceCtorEq, false_or] at h
      exact h.1 ▸ .parks
    · rename_i inside caller outside hsplit
      simp only [Progress.running.injEq, reduceCtorEq, or_false] at h
      rw [(eq_append_of_splitAtImmediate hsplit).1]
      exact h.1 ▸ .givesUp

/-- Under a cancelled token every step is one of those. -/
theorem Next.halts (h : e.Next p t w e' w') (hcancelled : t ∈ w.cancelled) : Halts w e e' := by
  obtain ⟨control, frames⟩ := e
  cases control with
  | fetch i =>
    obtain ⟨rfl, -⟩ := eq_of_resume h
    rcases World.fetch_of_cancelled hcancelled p i with ⟨r, hr⟩ | hcompute | ⟨m, hm, hwalk⟩
    · exact hr ▸ .answers
    · exact hcompute ▸ .computes
    · exact hwalk ▸ .walks hm
  | compute i r =>
    obtain ⟨rfl, -⟩ := eq_of_resume h
    rw [World.compute_of_cancelled hcancelled]
    exact .fails
  | walk walk =>
    have h : stepWalk t walk frames w = .running e' w' ∨ stepWalk t walk frames w = .parked e' w' := h
    unfold stepWalk at h
    split at h
    · obtain ⟨rfl, -⟩ := eq_of_resume h
      exact .confirms ‹_› rfl
    · rename_i dep rest hrest
      simp only at h
      split at h
      · simp only [Progress.running.injEq, reduceCtorEq, or_false] at h
        exact h.1 ▸ .touches hrest
      · obtain ⟨rfl, -⟩ := eq_of_resume h
        rw [World.touched_of_cancelled hcancelled]
        exact .fails
  | body a body => exact halts_of_stepBody h hcancelled
  | answer result =>
    have h : stepAnswer t result frames w = .running e' w' ∨
        stepAnswer t result frames w = .parked e' w' := h
    cases frames with
    | nil => simp [stepAnswer] at h
    | cons frame frames =>
      cases frame with
      | calling caller =>
        simp only [stepAnswer, Progress.running.injEq, reduceCtorEq, or_false] at h
        obtain ⟨rfl, -⟩ := h
        cases result with
        | error error => exact .tells
        | ok stamped =>
          simp only [World.check_of_mem hcancelled]
          exact .tells
      | touching walk dep =>
        cases result with
        | error error =>
          obtain ⟨rfl, -⟩ := eq_of_resume h
          exact .propagates
        | ok stamped =>
          obtain ⟨rfl, -⟩ := eq_of_resume h
          rw [World.touched_of_cancelled hcancelled]
          exact .propagates

/-! ## Steps that change next to nothing -/

/-- A revalidation has looked at all its dependencies, of which there are some, and is about to be
    confirmed. -/
def Confirms (e : Evaluation) (w : World) : Prop :=
  ∃ walk m, e.control = .walk walk ∧ walk.rest = [] ∧ w.memo? walk.slot = some m ∧ m.deps ≠ []

/-- What a step under a cancelled token comes to: of the memos it leaves everything but the stamp of
    validity of one that depends on nothing, it writes no input and starts no body, and bodies are told
    errors. -/
structure Contained (e : Evaluation) (w : World) (e' : Evaluation) (w' : World) : Prop where
  halts : Halts w e e'
  runs : w'.runs = w.runs
  written : ∀ i, w'.written? i = w.written? i
  memo : ∀ i, w'.memo? i = w.memo? i ∨
    ∃ m r, w.memo? i = some m ∧ m.deps = [] ∧ w'.memo? i = some { m with verifiedAt := r }

theorem Halts.runs (hhalts : Halts w e e') (h : e.Next p t w e' w') : w'.runs = w.runs := by
  have hstarted : started w e e' = [] := by
    unfold started
    cases hhalts with
    | fails => split <;> rfl
    | answers | walks | computes => rfl
    | touches | confirms | performs | reads | calls | denies | tells | propagates | parks
    | givesUp => rfl
  rw [h.runs, hstarted, List.append_nil]

theorem Next.contained (h : e.Next p t w e' w') (hcancelled : t ∈ w.cancelled)
    (hconfirms : ¬ e.Confirms w) : Contained e w e' w' where
  halts := h.halts hcancelled
  runs := (h.halts hcancelled).runs h
  written := h.moves.persists.written
  memo i := by
    cases h.remembers with
    | keeps memo => exact .inl (memo i)
    | @confirms walk m frames w w' rest memo self others =>
      by_cases hi : i = walk.slot
      · subst hi
        refine .inr ⟨m, walk.revision, memo, ?_, self⟩
        by_contra hdeps
        exact hconfirms ⟨walk, m, rfl, rest, memo, hdeps⟩
      · exact .inl (others i hi)
    | renews uncancelled => exact absurd hcancelled uncancelled

/-- A revalidation that begins under a cancelled token looks at all its dependencies. -/
theorem Next.not_confirms (h : e.Next p t w e' w') (hcancelled : t ∈ w.cancelled) :
    ¬ e'.Confirms w' := by
  rintro ⟨walk', m', hcontrol, hrest, hmemo, hdeps⟩
  have hremembers := h.remembers
  cases h.halts hcancelled with
  | @walks i m frames memo =>
    cases hcontrol
    cases hremembers with
    | keeps hkeeps =>
      obtain rfl := Option.some.inj (memo.symm.trans ((hkeeps i).symm.trans hmemo))
      exact hdeps hrest
  | confirms rest control =>
    cases hcontrol
    unfold World.verify at control
    split at control <;> cases control
  | answers | computes | touches | fails | performs | reads | calls | denies | tells | propagates
  | parks | givesUp => cases hcontrol

/-- So it is for all the steps after the token was cancelled. -/
theorem Reaches.not_confirms (h : Reaches p t e w e' w') (hcancelled : t ∈ w.cancelled)
    (hconfirms : ¬ e.Confirms w) : t ∈ w'.cancelled ∧ ¬ e'.Confirms w' := by
  refine h.preserves (motive := fun e' w' => t ∈ w'.cancelled ∧ ¬ e'.Confirms w') ?_
    ⟨hcancelled, hconfirms⟩
  rintro e₁ w₁ e₂ w₂ hnext ⟨hcancelled₁, -⟩
  exact ⟨hnext.edits.cancelled hcancelled₁, hnext.not_confirms hcancelled₁⟩

/-- A token is cancelled by a body, or while evaluations are parked: neither leaves an evaluation at a
    confirmation. -/
theorem not_confirms_of_body {a : Activation} {body : Body} (hcontrol : e.control = .body a body) :
    ¬ e.Confirms w := by
  rintro ⟨walk, m, hwalk, -⟩
  cases hcontrol.symm.trans hwalk

theorem not_confirms_of_parked (h : e.step p t w = .parked e' w') (later : World) :
    ¬ e'.Confirms later := by
  obtain ⟨a, body, hcontrol⟩ := atBody_of_parked h
  exact not_confirms_of_body hcontrol

theorem not_confirms_of_cancel {a : Activation} {next : Unit → Body} {frames : List Frame}
    (h : Next p t ⟨.body a (.perform .cancel next), frames⟩ w e' w') (later : World) :
    ¬ e'.Confirms later := by
  rcases h with h | h
  · cases h
    exact not_confirms_of_body rfl
  · cases h

/-! ## Calls in progress -/

/-- A call of a slot, with some frames around it, whose token was cancelled while the slot was in
    progress. Since then its evaluation has taken some steps, and others have done as they like. -/
inductive Interrupted (p : Program) (t : Token) (i : SlotId) (outer : List Frame) :
    Evaluation → World → Prop
  | cancelled {e : Evaluation} {w : World} (inProgress : e.InProgress i outer)
    (confirms : ∀ walk, e = ⟨.walk walk, outer⟩ → walk.rest ≠ []) (cancelled : t ∈ w.cancelled) :
    Interrupted p t i outer e w
  | step {e e' : Evaluation} {w w' : World} (interrupted : Interrupted p t i outer e w)
    (within : e.Within outer) (next : e.Next p t w e' w') : Interrupted p t i outer e' w'
  | meanwhile {e : Evaluation} {w w' : World} (interrupted : Interrupted p t i outer e w)
    (cancelled : t ∈ w'.cancelled) : Interrupted p t i outer e w'

theorem interrupted_of_body {i : SlotId} {a : Activation} {body : Body}
    (hcontrol : e.control = .body a body) {outer : List Frame} (hprogress : e.InProgress i outer)
    (hcancelled : t ∈ w.cancelled) : Interrupted p t i outer e w := by
  refine .cancelled hprogress (fun walk heq => ?_) hcancelled
  subst heq
  cases hcontrol

/-- A call can only fail: its slot waits for another one, is about to fail, or was given up. -/
def Doomed (outer : List Frame) (e : Evaluation) : Prop :=
  (∃ frame, frame :: outer <:+ e.frames) ∨ (e.control.Doomed ∧ e.frames = outer) ∨
    ¬ outer <:+ e.frames

variable {i : SlotId} {outer : List Frame}

theorem InProgress.doomed (h : e.InProgress i outer)
    (hconfirms : ∀ walk, e = ⟨.walk walk, outer⟩ → walk.rest ≠ []) : e.Doomed outer := by
  obtain ⟨control, frames⟩ := e
  rcases h with ⟨r, hflight, rfl⟩ | ⟨frame, -, hsuffix⟩
  · refine .inr (.inl ⟨?_, rfl⟩)
    cases control with
    | fetch | answer => cases hflight
    | walk walk => exact hconfirms walk rfl
    | compute | body => trivial
  · exact .inl ⟨frame, hsuffix⟩

/-- Some frames are gone, and what is innermost now can only fail. -/
theorem doomed_of_suffix {c : Control} {frame : Frame} {frames outside : List Frame}
    (hc : c.Doomed) (h : frame :: outer <:+ frames) (houtside : outside <:+ frames) :
    Doomed outer ⟨c, outside⟩ := by
  by_cases heq : outside = outer
  · exact .inr (.inl ⟨hc, heq⟩)
  rcases List.suffix_or_suffix_of_suffix h houtside with hin | hout
  · exact .inl ⟨frame, hin⟩
  · rcases List.suffix_cons_iff.1 hout with rfl | hout
    · exact .inl ⟨frame, List.suffix_refl _⟩
    · exact .inr (.inr fun hsuffix => heq (hout.eq_of_length_le hsuffix.length_le))

theorem Halts.doomed (h : Halts w e e') (hwithin : e.Within outer) (hdoomed : e.Doomed outer) :
    e'.Doomed outer := by
  rcases hdoomed with ⟨frame, hsuffix⟩ | ⟨hends, rfl⟩ | hgone
  · -- the call waits for another one, which may come back to it
    cases h with
    | answers | walks | computes | confirms | fails | performs | reads | denies | parks =>
      exact .inl ⟨frame, hsuffix⟩
    | touches | calls => exact .inl ⟨frame, hsuffix.trans (List.suffix_cons _ _)⟩
    | tells => exact doomed_of_suffix trivial hsuffix (List.suffix_cons _ _)
    | propagates => exact doomed_of_suffix ⟨_, rfl⟩ hsuffix (List.suffix_cons _ _)
    | givesUp =>
      exact doomed_of_suffix trivial hsuffix
        ((List.suffix_cons _ _).trans (List.suffix_append _ _))
  · cases h with
    | answers | walks | computes => exact hends.elim
    | confirms rest => exact absurd rest hends
    | touches | calls => exact .inl ⟨_, List.suffix_refl _⟩
    | fails => exact .inr (.inl ⟨⟨_, rfl⟩, rfl⟩)
    | performs | reads | denies | parks => exact .inr (.inl ⟨trivial, rfl⟩)
    | tells | propagates => exact absurd rfl (hwithin.2 _)
    | givesUp =>
      refine .inr (.inr fun hsuffix => ?_)
      have := hsuffix.length_le
      simp at this
      omega
  · exact absurd hwithin.1 hgone

theorem Interrupted.doomed (h : Interrupted p t i outer e w) :
    t ∈ w.cancelled ∧ e.Doomed outer := by
  induction h with
  | cancelled inProgress confirms cancelled => exact ⟨cancelled, inProgress.doomed confirms⟩
  | step _ within next ih =>
    exact ⟨next.edits.cancelled ih.1, (next.halts ih.1).doomed within ih.2⟩
  | meanwhile _ cancelled ih => exact ⟨cancelled, ih.2⟩

/-- A call that was cancelled while its slot was in progress is answered with an error. -/
theorem Interrupted.fails {r : Except QueryError Stamped}
    (h : Interrupted p t i outer ⟨.answer r, outer⟩ w) : ∃ error, r = .error error := by
  rcases h.doomed.2 with ⟨frame, hsuffix⟩ | ⟨hends, -⟩ | hgone
  · exact absurd hsuffix.length_le (Nat.not_succ_le_self _)
  · exact hends
  · exact absurd (List.suffix_refl _) hgone

end Evaluation

/-! ## What others leave alone -/

/-- The memos of some slots are as they were, or are dropped. -/
def World.Spared (w : World) (ids : List SlotId) (w' : World) : Prop :=
  ∀ i ∈ ids, w'.memo? i = w.memo? i ∨ w'.memo? i = none

section

variable {w w' w'' : World} {e e' : Evaluation} {ids ids' others : List SlotId}

theorem World.spared_of_memo (h : ∀ i, w'.memo? i = w.memo? i) : w.Spared ids w' :=
  fun i _ => .inl (h i)

theorem World.Spared.trans (h : w.Spared ids w') (h' : w'.Spared ids w'') : w.Spared ids w'' := by
  intro i hi
  rcases h' i hi with hsame | hgone
  · exact hsame ▸ h i hi
  · exact .inr hgone

theorem World.Spared.mono (h : w.Spared ids w') (hsub : ids' ⊆ ids) : w.Spared ids' w' :=
  fun i hi => h i (hsub hi)

/-- An evaluation is not brought to confirm a memo by what others do. -/
theorem Evaluation.not_confirms_of_spared (h : ¬ e.Confirms w) (hspared : w.Spared e.held w') :
    ¬ e.Confirms w' := by
  rintro ⟨walk, m, hcontrol, hrest, hmemo, hdeps⟩
  have hheld : walk.slot ∈ e.held := by
    rw [held, hcontrol]
    exact List.mem_append_left _ (List.mem_singleton_self _)
  rcases hspared walk.slot hheld with hsame | hgone
  · exact h ⟨walk, m, hcontrol, hrest, hsame ▸ hmemo, hdeps⟩
  · cases hgone.symm.trans hmemo

/-- An evaluation leaves the memos of slots alone that others hold. -/
theorem Evaluation.Reaches.spares (h : Reaches p t e w e' w')
    (hstacked : w.Stacked (e.held ++ others)) : ∀ i ∈ others, w'.memo? i = w.memo? i := by
  refine (h.preserves (motive := fun e' w' => w'.Stacked (e'.held ++ others) ∧
    ∀ i ∈ others, w'.memo? i = w.memo? i) ?_ ⟨hstacked, fun _ _ => rfl⟩).2
  rintro e₁ w₁ e₂ w₂ hnext ⟨hstacked₁, hmemo⟩
  refine ⟨hnext.moves.stacked hstacked₁, fun i hi => Eq.trans ?_ (hmemo i hi)⟩
  have hne {f : Flight} {c : Control} {frames : List Frame} (hf : c.flight? = some f)
      (hnodup : (held ⟨c, frames⟩ ++ others).Nodup) : i ≠ f.slot := fun heq =>
    (List.nodup_append.1 hnodup).2.2 f.slot (mem_held_of_flight? hf) i hi heq.symm
  cases hnext.moves with
  | bounces rests | goesOn _ _ rests | requests _ rests | returns _ rests => exact rests.memo i
  | enters _ _ _ retains => exact retains.memo i
  | fails _ vacates | propagates vacates | givesUp _ _ vacates => exact vacates.memo i
  | succeeds flight _ retains => exact retains.memo i (hne flight hstacked₁.nodup)

theorem Request.Changes.spared {request : Request} (h : request.Changes w w') : w.Spared ids w' := by
  cases h with
  | rests rests => exact World.spared_of_memo rests.memo
  | writes rests kind =>
    exact World.spared_of_memo fun i => ((World.put_changes kind _).2.2 i).trans (rests.memo i)
  | clears access before =>
    intro i _
    rw [World.memo?_clear]
    cases w.memo? i with
    | none => exact .inl rfl
    | some m =>
      simp only [Option.filter]
      split
      · exact .inl rfl
      · exact .inr rfl

/-- So does a task. -/
theorem Task.Course.spares {task : Task} {out : Poll × World} (h : Course p task w out)
    (hstacked : w.Stacked (task.held ++ others)) : w.Spared others out.2 := by
  have hrelease (w : World) : ∀ i, (task.request.access.release w).memo? i = w.memo? i :=
    (task.request.access.alters_release w).grows.memo
  have hreaches {e e' : Evaluation} {w₁ w' : World} (begins : task.Begins p w e w₁)
      (reaches : Reaches p task.token e w₁ e' w') : w.Spared others w' := fun i hi =>
    .inl ((reaches.spares (begins.stacked hstacked) i hi).trans (begins.still.memo i))
  cases h with
  | waits => exact World.spared_of_memo fun _ => rfl
  | refused unbegun entry => exact World.spared_of_memo (Access.alters_of_entry entry).grows.memo
  | @answered w₁ w₂ result unbegun entry opens =>
    have hentry : w.Spared others w₁ :=
      World.spared_of_memo (Access.alters_of_entry entry).grows.memo
    have hbegin : w₁.Spared others w₂ := by
      have hchanges := task.request.begin_changes p w₁
      rw [opens] at hchanges
      exact hchanges.spared
    exact (hentry.trans hbegin).trans (World.spared_of_memo (hrelease w₂))
  | parks begins reaches => exact hreaches begins reaches
  | ends begins finishes =>
    exact (hreaches begins finishes.reaches).trans (World.spared_of_memo (hrelease _))

end

/-! ## Tasks -/

/-- What is left of a task whose request was cancelled while its slot was in progress: an error, or
    the task with such a request. -/
def Poll.Interrupted (p : Program) (t : Token) (root : SlotId) : Poll × World → Prop
  | (.ready r, _) => ∃ error, r = .error error
  | (.pending _ task, w) => ∃ e, task.suspended = some e ∧ e.Interrupted p t root [] w

namespace Task

variable {task : Task} {w w' : World} {e : Evaluation}

/-- A request that begins has not confirmed anything yet. -/
theorem Begins.not_confirms (h : task.Begins p w e w')
    (hsuspended : ∀ e, task.suspended = some e → ¬ e.Confirms w) : ¬ e.Confirms w' := by
  rcases h with ⟨hparked, rfl⟩ | ⟨-, w₁, -, hbegin⟩
  · exact hsuspended e hparked
  · have hopens := Request.opens_begin p task.request w₁
    rw [hbegin] at hopens
    cases hopens with
    | evaluates rests =>
      rintro ⟨walk, m, hcontrol, -⟩
      cases hcontrol

/-- A task that is polled under a cancelled token and is kept does not stand at a confirmation. -/
theorem Course.not_confirms {task' : Task} {woken : Bool}
    (h : Course p task w (.pending woken task', w')) (hcancelled : task.token ∈ w.cancelled)
    (hsuspended : ∀ e, task.suspended = some e → ¬ e.Confirms w) :
    ∀ e, task'.suspended = some e → ¬ e.Confirms w' := by
  cases h with
  | waits => exact hsuspended
  | parks begins reaches =>
    intro e he
    obtain rfl := Option.some.inj he
    exact (reaches.not_confirms (begins.edits.cancelled hcancelled)
      (begins.not_confirms hsuspended)).2

theorem Course.token_eq {task' : Task} {woken : Bool}
    (h : Course p task w (.pending woken task', w')) : task'.token = task.token := by
  cases h <;> rfl

/-- A task whose request was cancelled while its slot was in progress is answered with an error, or it
    goes on with such a request. -/
theorem Course.interrupted {root : SlotId} {out : Poll × World} (h : Course p task w out)
    (hsuspended : task.suspended = some e) (hinterrupted : e.Interrupted p task.token root [] w) :
    Poll.Interrupted p task.token root out := by
  have hreaches {e₁ e' : Evaluation} {w₁ w' : World} (begins : task.Begins p w e₁ w₁)
      (reaches : Reaches p task.token e₁ w₁ e' w') : e'.Interrupted p task.token root [] w' := by
    rcases begins with ⟨hparked, rfl⟩ | ⟨hunbegun, -⟩
    · obtain rfl := Option.some.inj (hsuspended.symm.trans hparked)
      refine reaches.preserves (motive := fun e w => e.Interrupted p task.token root [] w) ?_
        hinterrupted
      intro e₁ w₁ e₂ w₂ hnext hbefore
      refine hbefore.step ⟨List.nil_suffix, fun r heq => ?_⟩ hnext
      -- an answer that nobody waits for is the end
      subst heq
      rcases hnext with hnext | hnext <;> cases hnext
    · cases hunbegun.symm.trans hsuspended
  cases h with
  | waits unbegun | refused unbegun | answered unbegun => cases unbegun.symm.trans hsuspended
  | parks begins reaches => exact ⟨_, rfl, hreaches begins reaches⟩
  | ends begins finishes =>
    obtain ⟨error, rfl⟩ := (hreaches begins finishes.reaches).fails
    exact ⟨error, rfl⟩

end Task

/-! ## Sessions -/

namespace Session

variable {s : Session} {limits : Limits}

/-- A token is cancelled, and no evaluation under it stands at a confirmation. -/
structure Quelled (p : Program) (t : Token) (s : Session) : Prop where
  accounted : s.Accounted p
  cancelled : t ∈ s.world.cancelled
  tasks : ∀ entry ∈ s.tasks.entries, entry.2.token = t →
    ∀ e, entry.2.suspended = some e → ¬ e.Confirms s.world

/-- All requests under a token are contained. -/
structure Contains (p : Program) (t : Token) (s : Session) : Prop where
  cancelled : t ∈ s.world.cancelled
  /-- A request that begins starts no body and changes nothing that is kept. -/
  begins : ∀ task e₀ w₀, task.token = t → Task.Begins p task s.world e₀ w₀ →
    w₀.runs = s.world.runs ∧ (∀ i, w₀.memo? i = s.world.memo? i) ∧
      ∀ i, w₀.written? i = s.world.written? i
  /-- No step of an evaluation comes to anything. -/
  steps : ∀ task others e₀ w₀ e w e' w', task.token = t → s.Beside task others →
    Task.Begins p task s.world e₀ w₀ → Reaches p t e₀ w₀ e w → e.Next p t w e' w' →
      e.Contained w e' w'

theorem held_subset_inProgress {entry : String × Task} (h : entry ∈ s.tasks.entries) :
    entry.2.held ⊆ s.inProgress := fun _ hi =>
  List.mem_append_left _ (List.mem_flatMap.2 ⟨entry, h, hi⟩)

theorem held_subset_heldBeside {name : String} {entry : String × Task}
    (h : entry ∈ (s.tasks.erase name).entries) : entry.2.held ⊆ s.heldBeside name := fun _ hi =>
  List.mem_append_left _ (List.mem_flatMap.2 ⟨entry, h, hi⟩)

theorem Quelled.contains (h : s.Quelled p t) : s.Contains p t where
  cancelled := h.cancelled
  begins task e₀ w₀ _ hbegins := ⟨hbegins.hushed.runs, hbegins.still.memo, hbegins.still.written⟩
  steps task others e₀ w₀ e w e' w' htoken htask hbegins hreaches hnext := by
    have hsuspended : ∀ e, task.suspended = some e → ¬ e.Confirms s.world := by
      intro e he
      rcases htask with ⟨hunbegun, -⟩ | ⟨name, hfound, -⟩
      · cases hunbegun.symm.trans he
      · obtain ⟨entry, hentry, rfl⟩ := mem_entries_of_get? hfound
        exact h.tasks entry hentry htoken e he
    obtain ⟨hcancelled, hconfirms⟩ := hreaches.not_confirms (hbegins.edits.cancelled h.cancelled)
      (hbegins.not_confirms hsuspended)
    exact hnext.contained hcancelled hconfirms

/-- No step of a client changes it that the requests under a token are contained. -/
theorem Quelled.report (h : s.Quelled p t) (limits : Limits) (step : Step) :
    (s.report p limits step).2.Quelled p t := by
  refine ⟨h.accounted.report limits step, (edits_step p limits s step).cancelled h.cancelled, ?_⟩
  show ∀ entry ∈ (s.step p limits step).2.tasks.entries, entry.2.token = t →
    ∀ e, entry.2.suspended = some e → ¬ e.Confirms (s.step p limits step).2.world
  have heffects := effects_step (p := p) limits s step
  generalize (s.step p limits step).2.world = w, (s.step p limits step).2.tasks = tasks at heffects
  -- a task that is not polled is spared
  have hspared {entry : String × Task} {ids : List SlotId} (hentry : entry ∈ s.tasks.entries)
      (hsub : entry.2.held ⊆ ids) (hspared : s.world.Spared ids w) (htoken : entry.2.token = t)
      (e : Evaluation) (he : entry.2.suspended = some e) : ¬ e.Confirms w := by
    refine not_confirms_of_spared (h.tasks entry hentry htoken e he) (hspared.mono ?_)
    rwa [Task.held, he] at hsub
  rcases heffects.aside with hpolls | ⟨hdrops, -, htasks⟩
  · cases hpolls with
    | @performs request name out course =>
      intro entry hentry htoken e he
      have hstacked : s.world.Stacked
          (Task.held { request, token := (s.tokenFor name).1 } ++ s.inProgress) :=
        h.accounted.stacked
      refine hspared hentry (held_subset_inProgress hentry) ?_ htoken e he
      obtain ⟨poll, w'⟩ := out
      cases poll with
      | ready result => exact course.spares hstacked
      | pending woken task =>
        exact (course.spares hstacked).trans (World.spared_of_memo (task.still_drop w').memo)
    | ends carries found course =>
      intro entry hentry htoken e he
      exact hspared (List.mem_filter.1 hentry).1 (held_subset_heldBeside hentry)
        (course.spares (h.accounted.of_get? found).stacked) htoken e he
    | @waits _ name task task' woken _ carries found course =>
      intro entry hentry htoken e he
      rcases List.mem_cons.1 hentry with rfl | hentry
      · obtain ⟨old, hold, rfl⟩ := mem_entries_of_get? found
        have hsame := course.token_eq.symm.trans htoken
        exact course.not_confirms (hsame ▸ h.cancelled) (h.tasks old hold hsame) e he
      · exact hspared (List.mem_filter.1 hentry).1 (held_subset_heldBeside hentry)
          (course.spares (h.accounted.of_get? found).stacked) htoken e he
  · intro entry hentry htoken e he
    rcases htasks entry hentry with hbefore | ⟨hunbegun, -⟩
    · exact hspared hbefore (held_subset_inProgress hbefore) (fun i _ => hdrops.memo i) htoken e he
    · cases hunbegun.symm.trans he

theorem Quelled.after (h : s.Quelled p t) (limits : Limits) (steps : List Step) :
    (s.after p limits steps).Quelled p t := by
  induction steps generalizing s with
  | nil => exact h
  | cons step steps ih => exact ih (h.report limits step)

end Session

/-- Cancelled requests are contained. Take any program, and any steps of a client of a memoizing
    system.

    Once the token of an evaluation is cancelled, no step of the evaluation starts a body, tells a
    body anything but an error of what it reads or calls, or changes what is kept, but for the stamp of
    validity of a memo that depends on nothing. Once a token is cancelled, this goes for all requests
    under it, whatever steps follow: for those under way and for those that begin later. And a call
    whose token is cancelled while its slot is in progress ends with an error, whatever happens
    meanwhile; a task with such a request is answered with an error.

    An evaluation that has looked at all dependencies of a memo and is about to confirm it is past all
    checks. When a token is cancelled, by a body or while others are parked, no evaluation stands
    there, and what is parked does not come to stand there by what others do meanwhile. So in a session
    whose polls are not cut short by the limit on their steps, all requests under a cancelled token are
    contained. -/
theorem cancelled_requests_are_contained (p : Program) (limits : Session.Limits) (traced : Bool)
    (steps : List Step) (t : Token) :
    (∀ (e : Evaluation) w e' w', e.step p t w = .parked e' w' ∨ (∃ a next frames,
      e = ⟨.body a (.perform .cancel next), frames⟩ ∧ e.Next p t w e' w') →
        ∀ later, ¬ e'.Confirms later) ∧
    (∀ e w e₁ w₁ e₂ w₂, t ∈ w.cancelled → ¬ e.Confirms w → Reaches p t e w e₁ w₁ →
      e₁.Next p t w₁ e₂ w₂ → e₁.Contained w₁ e₂ w₂) ∧
    (t ∈ ((Session.fresh true traced).after p limits steps).world.cancelled →
      (∀ entry ∈ ((Session.fresh true traced).after p limits steps).tasks.entries,
        entry.2.token = t → ∀ e, entry.2.suspended = some e →
          ¬ e.Confirms ((Session.fresh true traced).after p limits steps).world) →
      ∀ more, (((Session.fresh true traced).after p limits steps).after p limits more).Contains p t) ∧
    ((Session.fresh true traced).Uncut p limits steps →
      t ∈ ((Session.fresh true traced).after p limits steps).world.cancelled →
      ∀ more, (((Session.fresh true traced).after p limits steps).after p limits more).Contains p t) ∧
    (∀ i outer r w, Evaluation.Interrupted p t i outer ⟨.answer r, outer⟩ w →
      ∃ error, r = .error error) ∧
    ∀ (task : Task) e w root out, task.token = t → task.suspended = some e →
      e.Interrupted p t root [] w → task.Course p w out → Poll.Interrupted p t root out := by
  have haccounted := (Session.accounted_fresh p true traced).after limits steps
  refine ⟨?_, ?_, ?_, ?_, ?_, ?_⟩
  · rintro e w e' w' (hparked | ⟨a, next, frames, rfl, hnext⟩)
    · exact not_confirms_of_parked hparked
    · exact not_confirms_of_cancel hnext
  · intro e w e₁ w₁ e₂ w₂ hcancelled hconfirms hreaches hnext
    obtain ⟨hcancelled₁, hconfirms₁⟩ := hreaches.not_confirms hcancelled hconfirms
    exact hnext.contained hcancelled₁ hconfirms₁
  · intro hcancelled htasks more
    exact (Session.Quelled.after ⟨haccounted, hcancelled, htasks⟩ limits more).contains
  · intro huncut hcancelled more
    have hparked : ((Session.fresh true traced).after p limits steps).Parked :=
      Session.Parked.after (fun _ hentry => absurd hentry List.not_mem_nil) huncut
    refine (Session.Quelled.after ⟨haccounted, hcancelled, ?_⟩ limits more).contains
    intro entry hentry _ e he
    obtain ⟨a, body, hcontrol⟩ := hparked entry hentry e he
    exact not_confirms_of_body hcontrol
  · exact fun i outer r w hinterrupted => hinterrupted.fails
  · rintro task e w root out rfl hsuspended hinterrupted hcourse
    exact hcourse.interrupted hsuspended hinterrupted

/-- A request is parked in the middle of its body when its token is cancelled. -/
def cancelledSteps : List Step :=
  [.perform (.write .blocking ⟨"x"⟩ .unit (.int 5)) none,
    .spawn "early" (.query .free "thrice" .unit) (some "token"),
    .poll "early" 1,
    .cancel "token"]

/-- The limits let every poll come to where the body yields. -/
theorem cancelledSteps_uncut :
    (Session.fresh true true).Uncut thrice ⟨40, 3⟩ cancelledSteps := by
  have hnone {s : Session} {step : Step} (htask : step.task? s = none) :
      step.Uncut thrice ⟨40, 3⟩ s := fun task htaken => by cases htask.symm.trans htaken
  refine ⟨?_, hnone rfl, ?_, hnone rfl, trivial⟩
  · rintro task ⟨⟩
    refine ⟨?_, fun woken task' w' _ hpoll => by cases hpoll⟩
    -- a write is answered when it begins
    rintro e w₁ (⟨hsuspended, -⟩ | ⟨-, w₂, hentry, hbegin⟩)
    · cases hsuspended
    · cases hentry
      cases hbegin
  · rintro task ⟨⟩
    refine ⟨?_, fun woken task' w' _ _ => trivial⟩
    rintro e w₁ (⟨hsuspended, -⟩ | ⟨-, w₂, hentry, hbegin⟩)
    · cases hsuspended
    · cases hentry
      cases hbegin
      intro e' w' hrunning
      cases hrunning

theorem cancelled_requests_are_contained_thrice :
    (((Session.fresh true true).after thrice ⟨40, 3⟩ cancelledSteps).after thrice ⟨40, 3⟩
      [.perform (.write .waiting ⟨"x"⟩ .unit (.int 7)) none]).Contains thrice 1 ∧
    ∃ task e, ((Session.fresh true true).after thrice ⟨40, 3⟩ cancelledSteps).tasks.get? "early" =
        some task ∧ task.suspended = some e ∧
      e.Interrupted thrice 1 1 []
        ((Session.fresh true true).after thrice ⟨40, 3⟩ cancelledSteps).world ∧
      Poll.Interrupted thrice 1 1 (task.pollTimes thrice 40 1
        ((Session.fresh true true).after thrice ⟨40, 3⟩ cancelledSteps).world) ∧
      (((Session.fresh true true).after thrice ⟨40, 3⟩ cancelledSteps).report thrice ⟨40, 3⟩
        (.poll "early" 1)).1.answer = .failed .cancelled := by
  obtain ⟨-, -, -, hcontains, -, hcourse⟩ :=
    cancelled_requests_are_contained thrice ⟨40, 3⟩ true cancelledSteps 1
  have hcancelled : 1 ∈ ((Session.fresh true true).after thrice ⟨40, 3⟩ cancelledSteps).world.cancelled :=
    List.mem_singleton_self 1
  refine ⟨hcontains cancelledSteps_uncut hcancelled _, _, _, rfl, rfl, ?_, ?_, rfl⟩
  · exact interrupted_of_body rfl (.inl ⟨2, rfl, rfl⟩) hcancelled
  · exact hcourse _ _ _ _ _ rfl rfl
      (interrupted_of_body rfl (.inl ⟨2, rfl, rfl⟩) hcancelled) (Task.course_pollTimes _ _ _ _)

end RedGreen
