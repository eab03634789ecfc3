import RedGreen.Proofs.CallChain
import RedGreen.Proofs.Surroundings

set_option autoImplicit false

/-! # A call that does not wait is the awaited one, or is refused

A body can await the query that it calls, or insist on an answer at once. The two forms take the same
steps as long as the nested request is not parked. If it comes to its end, the caller is told the
same in the same world. If it would be parked, the caller that does not wait drops it and is told so:
the slots that the request had in progress leave the active stack and hold what they held before.

They do, although the request may have kept values on its way: all that it kept is valid as of now,
and a slot with such a value is answered at once and does not enter again (`Nested.spares`). -/

namespace RedGreen

open Evaluation

variable {p : Program} {t : Token} {w w' : World} {i : SlotId}

/-! ## Nested requests -/

namespace Evaluation

variable {e e' : Evaluation} {F : List Flight} {others : List SlotId}

/-- What a request that began in a world has come to, undisturbed by others. -/
structure Nested (before : World) (e : Evaluation) (w : World) : Prop where
  persists : before.Persists w
  /-- What it has in progress lies on top of what was in progress before. -/
  active : w.active = (e.held ++ before.active.reverse).reverse
  flights : ∀ f ∈ e.flights, f.revision = w.revision
  /-- A memo is the one that was there, or is valid as of now. -/
  memo : ∀ i, w.memo? i = before.memo? i ∨ ∃ m, w.memo? i = some m ∧ m.verifiedAt = w.revision

theorem Nested.request (w : World) (i : SlotId) : (request i).Nested w w where
  persists := (World.Retains.refl w).toPersists
  active := by simp [Evaluation.request, held, Control.slot?]
  flights _ hf := absurd hf List.not_mem_nil
  memo _ := .inl rfl

theorem Nested.next {before : World} (h : e.Nested before w) (hnext : e.Next p t w e' w') :
    e'.Nested before w' := by
  have hpersists := hnext.moves.persists
  -- the memo of a slot in flight is made valid as of the flight
  have hmade {f : Flight} {m : Memo} (hf : f ∈ e.flights) (hself : w'.memo? f.slot = some m)
      (hverified : m.verifiedAt = f.revision)
      (hothers : ∀ j, j ≠ f.slot → w'.memo? j = w.memo? j) (j : SlotId) :
      w'.memo? j = before.memo? j ∨ ∃ m, w'.memo? j = some m ∧ m.verifiedAt = w'.revision := by
    by_cases hj : j = f.slot
    · subst hj
      exact .inr ⟨m, hself, by rw [hverified, h.flights f hf, hpersists.revision]⟩
    · rw [hothers j hj, hpersists.revision]
      exact h.memo j
  refine
    { persists := h.persists.trans hpersists
      active := hnext.moves.ordered h.active
      flights := fun f hf => ?_
      memo := ?_ }
  · rw [hpersists.revision]
    exact (hnext.moves.flights hf).elim (h.flights f) id
  · cases hnext.remembers with
    | keeps memo =>
      intro j
      rw [memo j, hpersists.revision]
      exact h.memo j
    | @confirms walk m frames _ _ _ _ self others =>
      exact hmade (f := ⟨walk.slot, walk.revision⟩) List.mem_cons_self self rfl others
    | @renews a value d frames _ _ _ _ _ self others =>
      exact hmade (f := ⟨a.slot, a.revision⟩) List.mem_cons_self self rfl others

theorem Nested.reaches {before : World} (h : e.Nested before w) (hreaches : Reaches p t e w e' w') :
    e'.Nested before w' :=
  hreaches.preserves (motive := fun e w => e.Nested before w) (fun _ _ _ _ hnext h => h.next hnext) h

/-- What a request has in progress holds what it held before the request began. -/
theorem Nested.spares {before : World} (h : e.Nested before w) (ht : w.Timely (e.flights ++ F)) :
    ∀ j ∈ e.held, w.memo? j = before.memo? j := by
  intro j hj
  refine (h.memo j).resolve_right fun ⟨m, hm, hverified⟩ => ?_
  exact stale_of_timely ht hj m hm hverified

/-- A request that is given up leaves the active stack as it was. -/
theorem Nested.active_abandon {before : World} (h : e.Nested before w) :
    (e.abandon w).active = before.active := by
  rw [abandon, (w.vacates_leaveAll e.held).active, h.active, foldl_dropInnermost_reverse,
    List.reverse_reverse]

/-- A request that is answered has left the active stack as it was. -/
theorem Nested.active_answer {before : World} {result : Except QueryError Stamped}
    (h : Nested before ⟨.answer result, []⟩ w) : w.active = before.active := by
  rw [h.active]
  exact List.reverse_reverse _

end Evaluation

namespace World

/-- A slot on the way from a root is the root, or the root waits for it. -/
theorem DescendsTo.root_mem {root : SlotId} {frames : List Frame}
    (h : w.DescendsTo p root i frames) : root ∈ i :: frames.map Frame.slot := by
  induction h with
  | root => exact List.mem_cons_self
  | touching _ _ ih | calling _ _ _ ih => exact List.mem_cons_of_mem _ ih

/-- The text of a slot is the identity and the key that it belongs to. -/
theorem text_info {n : Node} (h : w.node? i = some n) :
    (w.info i).text = n.query.name ++ "(" ++ n.key.text ++ ")" := by
  obtain ⟨slot, hslot, rfl⟩ := Option.map_eq_some_iff.1 h
  rw [System.info, System.describe?, hslot]
  rfl

/-- A request for one of finitely many nodes that refer to no others comes to its end, whatever is in
    progress. -/
theorem exists_finishes_of_closed {F : Finset Node} {others : List SlotId} (hF : p.Closed F)
    (hstacked : w.Stacked others) (hdir : w.InDirectory p) (hrecorded : w.Recorded p)
    (hi : w.Within F i) (t : Token) : ∃ result w', Evaluation.Finishes p t (request i) w result w' := by
  have hdepth : ∀ e' w', Reaches p t (request i) w e' w' → e'.frames.length ≤ F.card := by
    intro e' w' hreaches
    have hstacked' : w'.Stacked (e'.held ++ others) := hreaches.stacked hstacked
    obtain ⟨hdir', -, hdescends⟩ := hreaches.descends hdir hrecorded (.requested .root)
    obtain ⟨n, hn, hnode⟩ := hi
    have hwithin := hdescends.within hF ⟨n, hn, hreaches.edits.continues.node? hnode⟩
    exact Nat.le_trans e'.length_frames_le_held
      (hdir'.length_le_card (List.nodup_append.1 hstacked'.nodup).1 hwithin)
  exact exists_finishes hdepth

end World

/-! ## Calls -/

/-- A running body that calls a query, in either form. -/
structure CallSite where
  activation : Activation
  label : Label
  key : Key
  next : Except QueryError Value → Body
  /-- What waits for the body. -/
  frames : List Frame

namespace CallSite

variable {site : CallSite} {root : SlotId}

/-- The body calls the query in one of the two forms. -/
def inMode (site : CallSite) (mode : CallMode) : Evaluation :=
  ⟨.body site.activation (.call mode site.label site.key site.next), site.frames⟩

/-- The body goes on with the reply. -/
def resume (site : CallSite) (activation : Activation) (reply : Except QueryError Value) :
    Evaluation :=
  ⟨.body activation (site.next reply), site.frames⟩

/-- The frames that wait for the slot that is called. -/
def around (site : CallSite) (i : SlotId) (mode : CallMode) : List Frame :=
  .calling ⟨site.activation.reading i, mode, i, site.next⟩ :: site.frames

/-- Finds or makes the slot that is called. -/
def find (p : Program) (site : CallSite) (w : World) : Except QueryError SlotId × World :=
  w.derivedSlot (p site.label).id (p site.label).valueType site.key site.label
    (p site.label).equality

theorem step_of_misfit {e : QueryError} (h : site.find p w = (.error e, w')) (mode : CallMode) :
    step p t (site.inMode mode) w = .running (site.resume site.activation (.error e)) w' := by
  show stepCall p _ mode _ _ _ _ w = _
  rw [find] at h
  simp only [stepCall, h]
  rfl

/-- In either form the slot is recorded, and then requested. -/
theorem step_of_found (h : site.find p w = (.ok i, w')) (mode : CallMode) :
    step p t (site.inMode mode) w =
      .running ((request i).inside (site.around i mode)) (w'.record site.activation i).2 := by
  show stepCall p _ mode _ _ _ _ w = _
  rw [find] at h
  simp only [stepCall, h]
  rfl

/-- The form of the call has no part in where the evaluation came from. -/
theorem descends_inMode {mode : CallMode} (h : w.Descends p root (site.inMode mode))
    (mode' : CallMode) : w.Descends p root (site.inMode mode') := by
  cases h with
  | running minds awaits =>
    refine .running ⟨minds.deps, fun n hn => minds.mentions n ?_⟩ awaits
    cases hn with
    | call => exact .call
    | called r h => exact .called r h

/-- What a call of slot `i` comes to in its two forms. The call is made in the world `w`; in `v` the
    slot has been found and recorded, and its request begins. -/
structure Compares (p : Program) (t : Token) (site : CallSite) (w : World) (i : SlotId) (v : World) :
    Prop where
  /-- The request comes to its end, is parked, or goes on for ever, whatever the form. -/
  decided : (∃ result w', Completes p t (request i) v result w') ∨
    (∃ e' w', Parks p t (request i) v e' w') ∨
    ∀ n, ∃ e' w', advance p t n (request i) v = .running e' w' ∧ ∀ mode,
      advance p t (n + 1) (site.inMode mode) w = .running (e'.inside (site.around i mode)) w'
  /-- The last does not happen if finitely many nodes can be asked for. -/
  ends : ∀ F : Finset Node, p.Closed F → p.node site.label site.key ∈ F →
    (∃ result w', Completes p t (request i) v result w') ∨
      ∃ e' w', Parks p t (request i) v e' w'
  /-- If the request comes to its end, both forms go on with the same reply in the same world. -/
  completes : ∀ result w', Completes p t (request i) v result w' →
    (∀ mode, RunsTo p t (site.inMode mode) w
      (site.resume (site.activation.reading i) (told t w' result)) w') ∧
    w'.active = w.active ∧ w.Persists w'
  /-- If it is parked, so is the body that awaits it, unless somebody further out does not wait. -/
  parks : ∀ e' w', Parks p t (request i) v e' w' → splitAtImmediate site.frames = none →
    Parks p t (site.inMode .awaited) w (e'.inside (site.around i .awaited)) w'
  /-- And the body that does not await it is told the text of the slot, while the active stack is as it
      was before the call, and the slot and all that was in progress for it hold what they held. -/
  refuses : ∀ e' w', Parks p t (request i) v e' w' →
    RunsTo p t (site.inMode .immediate) w
      (site.resume (site.activation.reading i) (.error (.suspended
        ((p site.label).id.name ++ "(" ++ site.key.text ++ ")")))) (e'.abandon w') ∧
    (e'.abandon w').active = w.active ∧ w.Persists (e'.abandon w') ∧
    i ∈ e'.held ∧ ∀ j ∈ e'.held, (e'.abandon w').memo? j = w.memo? j
  recorded : i ∈ (site.activation.reading i).deps
  /-- Wherever either form leads from there, a request for the slot ends, and it does not end with a
      cycle at once unless the slot is in progress then. -/
  later : ∀ mode e' w', Reaches p t ((request i).inside (site.around i mode)) v e' w' →
    (∀ F : Finset Node, p.Closed F → p.node site.label site.key ∈ F →
      ∀ t', ∃ result w'', Finishes p t' (request i) w' result w'') ∧
    ∀ t' path, (w'.fetch p t' i).1 = .answer (.error (.cycle path)) → i ∈ w'.active

/-- Nothing needs to be known of the world but what holds at every point of every session. -/
theorem compares_of_found {mode₀ : CallMode} {others : List SlotId} {F : List Flight} {w₁ : World}
    (hstacked : w.Stacked ((site.inMode mode₀).held ++ others))
    (hF : ∀ f ∈ F, f.slot ∈ others) (ht : w.Timely ((site.inMode mode₀).flights ++ F))
    (hdir : w.InDirectory p) (hrecorded : w.Recorded p)
    (hdescends : w.Descends p root (site.inMode mode₀)) (hfound : site.find p w = (.ok i, w₁)) :
    site.Compares p t w i (w₁.record site.activation i).2 := by
  have hstep := step_of_found (t := t) hfound
  have hedits : w.Edits p (w₁.record site.activation i).2 := by
    have hslot : w.Edits p (site.find p w).2 := w.edits_derivedSlot _ _ _
    rw [hfound] at hslot
    exact hslot.trans (w₁.edits_record _ _)
  have hrests : w.Rests (w₁.record site.activation i).2 := by
    have hslot : w.Rests (site.find p w).2 := w.rests_derivedSlot _ _ _ _ _
    rw [hfound] at hslot
    exact hslot.trans (w₁.record_footprint _ _).2
  have hnode : (w₁.record site.activation i).2.node? i = some (p.node site.label site.key) :=
    (w₁.edits_record (p := p) _ _).continues.node? (World.node?_of_slotFor hfound)
  generalize (w₁.record site.activation i).2 = v at hstep hedits hrests hnode
  -- a nested request for the slot begins on top of what is in progress
  have hdir' := hedits.inDirectory hdir
  have hrecorded' : v.Recorded p := hrecorded.of_memo hedits.continues fun i => .inl (hrests.memo i)
  have hstacked' : v.Stacked ((request i).held ++ ((site.inMode mode₀).held ++ others)) :=
    hstacked.of_active hrests.active
  have ht' : v.Timely ((request i).flights ++ ((site.inMode mode₀).flights ++ F)) :=
    ht.still hrests.still
  have hF' : ∀ f ∈ (site.inMode mode₀).flights ++ F, f.slot ∈ (site.inMode mode₀).held ++ others := by
    intro f hf
    rw [held_eq]
    exact (List.mem_append.1 hf).elim (fun hf => List.mem_append_left _ (List.mem_map_of_mem hf))
      fun hf => List.mem_append_right _ (hF f hf)
  have hnested {e' : Evaluation} {w' : World} (hreaches : Reaches p t (request i) v e' w') :
      e'.Nested v w' := (Nested.request v i).reaches hreaches
  have hends (F : Finset Node) (hF : p.Closed F) (hmem : p.node site.label site.key ∈ F) :
      (∃ result w', Completes p t (request i) v result w') ∨
        ∃ e' w', Parks p t (request i) v e' w' := by
    obtain ⟨result, w', hfinishes⟩ :=
      World.exists_finishes_of_closed hF hstacked' hdir' hrecorded' ⟨_, hmem, hnode⟩ t
    exact hfinishes.completes_or_parks.imp_left fun h => ⟨result, w', h⟩
  refine
    { decided := ?_
      ends := hends
      completes := fun result w' hcompletes => ?_
      parks := fun e' w' hparks hwaits => ?_
      refuses := fun e' w' hparks => ?_
      recorded := mem_recordOnce.2 (.inr rfl)
      later := fun mode e' w' hreaches => ⟨fun F hF hmem t' => ?_, fun t' path hcycle => ?_⟩ }
  · by_cases hdone : ∃ result w', Completes p t (request i) v result w'
    · exact .inl hdone
    by_cases hparks : ∃ e' w', Parks p t (request i) v e' w'
    · exact .inr (.inl hparks)
    refine .inr (.inr fun n => ?_)
    cases hadvance : advance p t n (request i) v with
    | running e' w' =>
      refine ⟨e', w', rfl, fun mode => ?_⟩
      rw [advance, hstep mode]
      exact advance_inside hadvance _
    | parked e' w' => exact absurd ⟨e', w', n, hadvance⟩ hparks
    | finished result w' => exact absurd ⟨result, w', n, hadvance⟩ hdone
  · have hdone := hnested hcompletes.runsTo.reaches
    exact ⟨fun mode => (RunsTo.of_step (hstep mode)).trans (hcompletes.returns _ _),
      hdone.active_answer.trans hrests.active, hrests.toPersists.trans hdone.persists⟩
  · exact (RunsTo.of_step (hstep _)).parks (hparks.inside (splitAtImmediate_calling rfl hwaits))
  · have hreaches := hparks.reaches
    have hnow := hnested hreaches
    have hvacates := w'.vacates_leaveAll e'.held
    obtain ⟨-, ht'', -⟩ := hreaches.timely hstacked' hF' ht'
    have hedits' : v.Edits p (e'.abandon w') := hreaches.edits.trans (w'.edits_leaveAll e'.held)
    have hroot : i ∈ e'.held := by
      obtain ⟨a, next, frames, rfl, -⟩ := hparks.runsTo
      obtain ⟨-, -, hdescends'⟩ := hreaches.descends hdir' hrecorded' (.requested .root)
      cases hdescends' with
      | running _ awaits => exact awaits.root_mem
    refine ⟨(RunsTo.of_step (hstep _)).trans ?_, hnow.active_abandon.trans hrests.active,
      hrests.toPersists.trans (hnow.persists.trans hvacates.toPersists), hroot, fun j hj => ?_⟩
    · have hrefused := hparks.refused (site.activation.reading i) i site.next site.frames
      rw [World.text_info (hedits'.continues.node? hnode)] at hrefused
      exact hrefused
    · rw [Evaluation.abandon, hvacates.memo, hnow.spares ht'' j hj, hrests.memo]
  · have hfull := (Reaches.of_step (hstep mode)).trans hreaches
    obtain ⟨hdir'', hrecorded'', -⟩ := hfull.descends hdir hrecorded (descends_inMode hdescends mode)
    exact World.exists_finishes_of_closed hF (hfull.stacked hstacked) hdir'' hrecorded''
      ⟨_, hmem, hreaches.edits.continues.node? hnode⟩ t'
  · exact (World.active_of_fetch hcycle).1

end CallSite

/-- A call that does not wait is the awaited one, or it is refused and leaves nothing behind. Take any
    program, with memoization or without, any steps of a client, and a task, a new one or one that is
    kept. Wherever its evaluation comes to a body that calls a query, in either form, the two forms
    compare as follows.
    If the identity is used with other types, both are told so in the same step. Otherwise the slot is
    recorded, and then requested. If the request comes to its end without being parked, both forms go
    on with the same reply in the same world, with all that was reported on the way. If the request is
    parked, the body that does not wait is told that its query has to be awaited, with the text of the
    slot; the active stack is as it was, and the slot and every slot that was in progress for it hold
    the values, stamps and dependencies that they held. A request that does neither goes on for ever in
    both forms, which takes infinitely many nodes. The slot is a dependency of the caller in any case,
    and at no later point of the evaluation is a request for it kept from its end. -/
theorem immediate_call_is_awaited_or_refused (p : Program) (limits : Session.Limits)
    (memoize traced : Bool) (steps : List Step) {task : Task}
    (htask : task.suspended = none ∨
      ∃ name, ((Session.fresh memoize traced).after p limits steps).tasks.get? name = some task)
    {e₀ : Evaluation} {w₀ w : World} {site : CallSite} {mode₀ : CallMode}
    (hbegins : task.Begins p ((Session.fresh memoize traced).after p limits steps).world e₀ w₀)
    (hreaches : Reaches p task.token e₀ w₀ (site.inMode mode₀) w) :
    (∀ e w', site.find p w = (.error e, w') → ∀ mode,
      step p task.token (site.inMode mode) w =
        .running (site.resume site.activation (.error e)) w' ∧ w'.active = w.active) ∧
    ∀ i w', site.find p w = (.ok i, w') →
      site.Compares p task.token w i (w'.record site.activation i).2 := by
  have htimed := (Session.timed_fresh p memoize traced).after limits steps
  have hdescends := (Session.descends_fresh p memoize traced).after limits steps
  generalize (Session.fresh memoize traced).after p limits steps = s at htimed hdescends htask hbegins
  obtain ⟨others, F, hstacked, hF, ht⟩ := htimed.reaches htask hbegins hreaches
  have htaskDescends : task.Descends p s.world := by
    rcases htask with hunbegun | ⟨name, hfound⟩
    · exact Task.descends_of_unbegun hunbegun
    · exact hdescends.of_get? hfound
  obtain ⟨hdir₀, hrecorded₀, root, n, -, -, hdescends₀⟩ :=
    hbegins.descends hdescends.directory hdescends.recorded htaskDescends
  obtain ⟨hdir, hrecorded, hdescends'⟩ := hreaches.descends hdir₀ hrecorded₀ hdescends₀
  refine ⟨fun e w' hmisfit mode => ⟨CallSite.step_of_misfit hmisfit mode, ?_⟩,
    fun i w' hfound => CallSite.compares_of_found hstacked hF ht hdir hrecorded hdescends' hfound⟩
  have hrests : w.Rests (site.find p w).2 := w.rests_derivedSlot _ _ _ _ _
  rw [hmisfit] at hrests
  exact hrests.active

/-! ## A query that has to wait -/

/-- Reads an input, and yields before it tells the value. -/
def tardyQuery : Query where
  id := ⟨"tardy"⟩
  valueType := .int
  equality := Equality.content.same
  body := fun _ => .perform (.read ⟨"x"⟩ .int .unit) fun reply => .yield (.done reply)

/-- Calls it, and does not wait. -/
def impatientQuery : Query where
  id := ⟨"impatient"⟩
  valueType := .int
  equality := Equality.content.same
  body := fun _ => .call .immediate "tardy" .unit .done

/-- A program of the two. -/
def impatient : Program := either "tardy" tardyQuery impatientQuery

/-- The first query holds a value; then the input that it depends on is written. -/
def impatientSteps : List Step :=
  [.perform (.write .waiting ⟨"x"⟩ .unit (.int 1)) none,
    .perform (.query .waiting "tardy" .unit) none,
    .perform (.write .waiting ⟨"x"⟩ .unit (.int 2)) none]

/-- A request for the second query. -/
def impatientTask : Task := { request := .query .waiting "impatient" .unit, token := 9 }

/-- Before the input is written again the call is answered. Afterwards it is refused, and the first query
    holds what it held. -/
theorem immediate_call_is_awaited_or_refused_impatient :
    (∃ e₀ w₀ site w w', impatientTask.Begins impatient
        ((Session.fresh true true).after impatient ⟨40, 3⟩ (impatientSteps.take 2)).world e₀ w₀ ∧
      Reaches impatient 9 e₀ w₀ (CallSite.inMode site .immediate) w ∧
      (∀ mode, RunsTo impatient 9 (site.inMode mode) w
        (site.resume (site.activation.reading 1) (.ok (.int 1))) w') ∧ w'.active = w.active) ∧
    ∃ e₀ w₀ site w w', impatientTask.Begins impatient
        ((Session.fresh true true).after impatient ⟨40, 3⟩ impatientSteps).world e₀ w₀ ∧
      Reaches impatient 9 e₀ w₀ (CallSite.inMode site .immediate) w ∧
      RunsTo impatient 9 (site.inMode .immediate) w
        (site.resume (site.activation.reading 1) (.error (.suspended "tardy(())"))) w' ∧
      w'.active = [2] ∧ w'.memo? 1 = some ⟨⟨.int 1, 2⟩, 2, [0]⟩ := by
  constructor
  · obtain ⟨e₀, w₀, site, w, hbegins, hdrive, w₁, hfound, w', hdone, htold⟩ :
        ∃ e₀ w₀ site w, impatientTask.Begins impatient
            ((Session.fresh true true).after impatient ⟨40, 3⟩ (impatientSteps.take 2)).world e₀ w₀ ∧
          drive impatient 9 2 e₀ w₀ = .running (CallSite.inMode site .immediate) w ∧
          ∃ w₁, site.find impatient w = (.ok 1, w₁) ∧
            ∃ w', advance impatient 9 2 (request 1) (w₁.record site.activation 1).2 =
                .finished (.ok ⟨.int 1, 2⟩) w' ∧
              told impatientTask.token w' (.ok ⟨.int 1, 2⟩) = .ok (.int 1) :=
      ⟨_, _, ⟨_, _, _, _, _⟩, _, .inr ⟨rfl, _, rfl, rfl⟩, rfl, _, rfl, _, rfl, rfl⟩
    obtain ⟨-, hcompares⟩ := immediate_call_is_awaited_or_refused impatient ⟨40, 3⟩ true true
      (impatientSteps.take 2) (.inl rfl) hbegins ⟨2, hdrive⟩
    obtain ⟨hruns, hactive, -⟩ := (hcompares 1 w₁ hfound).completes _ w' ⟨2, hdone⟩
    rw [htold] at hruns
    exact ⟨e₀, w₀, site, w, w', hbegins, ⟨2, hdrive⟩, hruns, hactive⟩
  · obtain ⟨e₀, w₀, site, w, hbegins, hdrive, htext, w₁, hfound, e', w', hparked, hactive, hmemo⟩ :
        ∃ e₀ w₀ site w, impatientTask.Begins impatient
            ((Session.fresh true true).after impatient ⟨40, 3⟩ impatientSteps).world e₀ w₀ ∧
          drive impatient 9 2 e₀ w₀ = .running (CallSite.inMode site .immediate) w ∧
          (impatient site.label).id.name ++ "(" ++ site.key.text ++ ")" = "tardy(())" ∧
          ∃ w₁, site.find impatient w = (.ok 1, w₁) ∧
            ∃ e' w', advance impatient 9 5 (request 1) (w₁.record site.activation 1).2 =
                .parked e' w' ∧
              w.active = [2] ∧ w.memo? 1 = some ⟨⟨.int 1, 2⟩, 2, [0]⟩ :=
      ⟨_, _, ⟨_, _, _, _, _⟩, _, .inr ⟨rfl, _, rfl, rfl⟩, rfl, rfl, _, rfl, _, _, rfl,
        by decide +kernel⟩
    obtain ⟨-, hcompares⟩ := immediate_call_is_awaited_or_refused impatient ⟨40, 3⟩ true true
      impatientSteps (.inl rfl) hbegins ⟨2, hdrive⟩
    obtain ⟨hruns, hactive', -, hroot, hspared⟩ := (hcompares 1 w₁ hfound).refuses e' w' ⟨5, hparked⟩
    rw [htext] at hruns
    exact ⟨e₀, w₀, site, w, _, hbegins, ⟨2, hdrive⟩, hruns, hactive'.trans hactive,
      (hspared 1 hroot).trans hmemo⟩

end RedGreen
