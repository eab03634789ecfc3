import RedGreen.Proofs.Lineage
import RedGreen.Proofs.Sequences

set_option autoImplicit false

/-! # Evaluations leave worlds traced

A body with an older memo runs again only because something that the older run has read has changed
since; and all that the older run has read before it is unchanged (`Due`). The new run meets with the
same replies, so it comes to the same read (`Follows.meets`), and the new memo records it, too. With
that, each step of an evaluation on its own leaves a traced world traced (`Traced.next`). -/

namespace RedGreen

open Evaluation

variable {p : Program} {use : Usages} {same : Indistinct} {t : Token} {w w' : World} {root : SlotId}
  {e e' : Evaluation}

/-! ## What an evaluation is aware of -/

/-- If there is an older memo, something that it has recorded has changed since, and is valid now;
    and what it has recorded before is unchanged. -/
def World.Due (p : Program) (use : Usages) (same : Indistinct) (w : World) (i : SlotId) : Prop :=
  ∀ o, w.memo? i = some o → ∃ done j todo,
    w.Rechecks p use same i o.verifiedAt done (j :: todo) ∧ w.Current j ∧
      o.verifiedAt < w.changedAt j

/-- The bodies that run are due, and what they have read is valid now. -/
structure Evaluation.Aware (p : Program) (use : Usages) (same : Indistinct) (w : World)
    (e : Evaluation) : Prop where
  due : ∀ i ∈ e.running, w.Due p use same i
  computes : ∀ i r, e.control = .compute i r → w.Due p use same i
  reads : ∀ a b, e.control = .body a b → ∀ j ∈ a.deps, w.Current j
  waits : ∀ caller, .calling caller ∈ e.frames → ∀ j ∈ caller.activation.deps,
    j = caller.callee ∨ w.Current j

/-- Nothing runs yet. -/
theorem Evaluation.aware_request (w : World) (i : SlotId) :
    (Evaluation.request i).Aware p use same w where
  due _ h := by cases h
  computes _ _ h := by cases h
  reads _ _ h := by cases h
  waits _ h := by cases h

section Onward

variable (h : w.Proceeds p use same t root e) (honward : Onward p use same w e e' w')
include h honward

/-- What is in progress after a step has the memo that it had. -/
theorem World.Proceeds.memo_held {i : SlotId} (hi : i ∈ e'.held) : w'.memo? i = w.memo? i := by
  rcases honward.effect h.fair.tidy with ⟨-, hquiet⟩ | ⟨hgrows, -⟩ |
    ⟨j, m, label, key, hheld, -, hcommits, -⟩
  · exact hquiet.grows.memo i
  · exact hgrows.memo i
  · have hnodup := h.nodup
    rw [hheld] at hnodup
    exact hcommits.memo_other i fun hij => (List.nodup_cons.1 hnodup).1 (hij ▸ hi)

/-- What is valid now does not change. -/
theorem World.Proceeds.changedAt_current (hp : p.Pure use same False) {i : SlotId}
    (hi : w.Current i) : w'.changedAt i = w.changedAt i := by
  have ht := h.fair.tidy
  rcases honward.effect ht with ⟨-, hquiet⟩ | ⟨hgrows, -⟩ |
    ⟨j, m, label, key, hheld, hj, hcommits, -⟩
  · exact System.changedAt_congr (hquiet.grows.memo i) (hquiet.grows.written i)
  · exact System.changedAt_congr (hgrows.memo i) (hgrows.written i)
  · refine System.changedAt_congr (hcommits.memo_other i ?_) (hcommits.written i)
    rintro rfl
    exact h.not_current hp (hheld ▸ List.mem_cons_self) hj hi

end Onward

/-- What is due stays so while it is in progress. -/
theorem World.Due.next (hp : p.Pure use same False) {i : SlotId} (hdue : w.Due p use same i)
    (h : w.Proceeds p use same t root e) (honward : Onward p use same w e e' w')
    (hspares : w.Spares p use same [] w') (hi : i ∈ e'.held) : w'.Due p use same i := by
  have hmemo := h.memo_held honward hi
  have hspares' : w.Spares p use same [i] w' :=
    ⟨hspares.toExtends, hspares.seen, fun j hj => List.mem_singleton.1 hj ▸ hmemo,
      hspares.entryLocked⟩
  intro o ho
  rw [hmemo] at ho
  obtain ⟨done, j, todo, hrechecks, hcurrent, hlt⟩ := hdue o ho
  refine ⟨done, j, todo, hrechecks.spares h.fair hspares' (List.mem_singleton_self i),
    honward.current h.fair.tidy hcurrent, ?_⟩
  rwa [h.changedAt_current honward hp hcurrent]

/-- A revalidation that finds a change makes the body due. -/
theorem World.Proceeds.due_of_brought {walk : Walk} {dep : SlotId} {frames : List Frame}
    (h : w.Proceeds p use same t root e) (hbrought : Brought w walk dep frames e)
    (hchanged : walk.verifiedAt < w.changedAt dep) : w.Due p use same walk.slot := by
  have hrechecks : ∃ done, w.Rechecks p use same walk.slot walk.verifiedAt done (dep :: walk.rest) := by
    cases hbrought with
    | input =>
      obtain ⟨hslot, -, hrechecks⟩ := h.stands.control
      exact hslot ▸ hrechecks
    | derived =>
      obtain ⟨-, -, hrechecks, -⟩ := h.stands.frames
      exact hrechecks
  have hcurrent : w.Current dep := by
    cases hbrought with
    | input kind => exact .inl kind
    | derived memo verified => exact .inr ⟨_, memo, verified⟩
  intro o ho
  obtain ⟨done, m, label, key, reads, hrechecked, hverified⟩ := hrechecks
  obtain rfl := Option.some.inj (hrechecked.memo.symm.trans ho)
  rw [hverified]
  exact ⟨done, dep, walk.rest, ⟨m, label, key, reads, hrechecked, hverified⟩, hcurrent, hchanged⟩

/-- One step of an evaluation stays aware of what it runs, unless a call fails. -/
theorem Evaluation.Aware.next (hp : p.Pure use same False) (haware : e.Aware p use same w)
    (h : w.Proceeds p use same t root e) (honward : Onward p use same w e e' w')
    (hspares : w.Spares p use same [] w') : e'.Failing ∨ e'.Aware p use same w' := by
  have hdue (i : SlotId) (hi : w.Due p use same i) (hheld : i ∈ e'.held) : w'.Due p use same i :=
    hi.next hp h honward hspares hheld
  have hcurrent (i : SlotId) (hi : w.Current i) : w'.Current i := honward.current h.fair.tidy hi
  have hwaits (caller : Caller) (hmem : .calling caller ∈ e.frames) :
      ∀ j ∈ caller.activation.deps, j = caller.callee ∨ w'.Current j :=
    fun j hj => (haware.waits caller hmem j hj).imp_right (hcurrent j)
  have hkept (i : SlotId) (hi : i ∈ e.running) (hi' : i ∈ e'.running) : w'.Due p use same i :=
    hdue i (haware.due i hi) (e'.running_subset hi')
  cases honward with
  | fails failing => exact .inl failing
  | hits | walks | confirms =>
    exact .inr ⟨fun i hi => hkept i hi hi, nofun, nofun, hwaits⟩
  | computes memo _ quiet =>
    refine .inr ⟨fun i hi => hkept i hi hi, ?_, nofun, hwaits⟩
    rintro i r heq o ho
    cases heq
    rw [quiet.grows.memo, memo] at ho
    cases ho
  | visits =>
    refine .inr ⟨fun i hi => hkept i hi hi, nofun, nofun, ?_⟩
    intro caller hmem
    exact hwaits caller ((List.mem_cons.1 hmem).resolve_left nofun)
  | passes brought =>
    cases brought with
    | input =>
      exact .inr ⟨fun i hi => hkept i hi hi, nofun, nofun, hwaits⟩
    | derived =>
      exact .inr ⟨fun i hi => hkept i hi hi, nofun, nofun,
        fun caller hmem => hwaits caller (List.mem_cons_of_mem _ hmem)⟩
  | @finds _ walk dep frames w' brought changed quiet =>
    have hchanged : w'.Due p use same walk.slot :=
      hdue _ (h.due_of_brought brought changed) List.mem_cons_self
    have hcompute (i : SlotId) (r : Revision)
        (heq : Control.compute walk.slot walk.revision = .compute i r) : w'.Due p use same i := by
      cases heq
      exact hchanged
    cases brought with
    | input =>
      exact .inr ⟨fun i hi => hkept i hi hi, hcompute, nofun, hwaits⟩
    | derived =>
      exact .inr ⟨fun i hi => hkept i hi hi, hcompute, nofun,
        fun caller hmem => hwaits caller (List.mem_cons_of_mem _ hmem)⟩
  | @starts i r label key frames w' node quiet =>
    refine .inr ⟨fun j hj => ?_, nofun, ?_, hwaits⟩
    · rcases List.mem_cons.1 hj with rfl | hj'
      · exact hdue _ (haware.computes _ r rfl) List.mem_cons_self
      · exact hkept j hj' hj
    · rintro a b heq j hj
      cases heq
      cases hj
  | @goesOn a b b' deps frames w' grows tidy reads =>
    refine .inr ⟨fun i hi => hkept i hi hi, nofun, ?_, hwaits⟩
    rintro a' b'' heq j hj
    cases heq
    exact (reads j hj).elim (fun hmem => hcurrent j (haware.reads a b rfl j hmem)) .inl
  | @calls a mode label key next i frames w' found =>
    refine .inr ⟨fun i hi => hkept i hi hi, nofun, nofun, ?_⟩
    intro caller hmem
    rcases List.mem_cons.1 hmem with heq | hmem
    · cases heq
      intro j hj
      exact (mem_recordOnce.1 hj).symm.imp_right fun hj => hcurrent j (haware.reads a _ rfl j hj)
    · exact hwaits caller hmem
  | @returns caller m frames memo verified =>
    refine .inr ⟨fun i hi => hkept i hi hi, nofun, ?_,
      fun caller hmem => hwaits caller (List.mem_cons_of_mem _ hmem)⟩
    rintro a b heq j hj
    cases heq
    exact (haware.waits caller List.mem_cons_self j hj).elim
      (fun heq => heq ▸ .inr ⟨m, memo, verified⟩) id
  | keeps =>
    exact .inr ⟨fun i hi => hkept i (List.mem_cons_of_mem _ hi) hi, nofun,
      nofun, hwaits⟩

/-! ## What is made valid -/

/-- The new run has read again what makes it due. -/
theorem World.Due.again (hp : p.Pure use same False)
    (htr : ∀ label key, Transparent ((p label).body key)) {i : SlotId} (hdue : w.Due p use same i)
    (ht : Tidy p use w.toSystem) {label : Label} {key : Key} {reads : List Read}
    {r : Except QueryError Value} (htracks : w.Tracks p use same i (.done r) label key reads)
    {o : Memo} (ho : w.memo? i = some o) :
    ∃ j ∈ dependencies reads, j ∈ o.deps ∧ o.verifiedAt < w.changedAt j := by
  obtain ⟨done, j, todo, ⟨m, label', key', reads', hrechecked, -⟩, -, hlt⟩ := hdue o ho
  obtain rfl := Option.some.inj (hrechecked.memo.symm.trans ho)
  have hbody := hp.body_eq (Option.some.inj (hrechecked.node.symm.trans htracks.node))
  have hdeps := hrechecked.deps.symm.trans hrechecked.split
  obtain ⟨before, read, after, rfl, rfl, hbefore⟩ := exists_read_of_dependencies hdeps
  have hfollows := hrechecked.follows
  have hseen := hrechecked.seen.resolve_left fun ⟨r, hmem, hfailed⟩ =>
    hfollows.not_failed (htr label' key') hmem hfailed
  obtain ⟨b, hprefix, hwants⟩ := hfollows.wants
  -- what the older run has read before it is unchanged
  have hmatch : ∀ r ∈ before, r.Matches p use same w.inputs := fun r hr =>
    ((hseen r (by simp [hr])).2 (hbefore r hr)).current rfl
  obtain ⟨read', hmem, hsource⟩ := hprefix.meets hp hwants (hbody ▸ htracks.follows)
    (hp.lawful label' key' (ht.keyType hrechecked.node)) hmatch
    fun read hmem => (htracks.noted read hmem).current
  have hnode := (htracks.noted read' hmem).placed.node
  rw [hsource] at hnode
  have hslot := ht.distinct _ _ _ hnode (hrechecked.placed read (by simp)).node
  exact ⟨read.slot, mem_dependencies.2 ⟨read', hmem, hslot⟩, hrechecked.split ▸ by simp, hlt⟩

/-- One step of an evaluation leaves a traced world traced. -/
theorem World.Traced.next (hp : p.Pure use same False)
    (htr : ∀ label key, Transparent ((p label).body key)) (htraced : w.Traced)
    (h : w.Proceeds p use same t root e) (haware : e.Aware p use same w)
    (honward : Onward p use same w e e' w') (hordered' : w'.Ordered) : w'.Traced := by
  have ht := h.fair.tidy
  have hordered := h.fair.ordered
  have hquiet (hq : w.Quiet w') : w'.Traced := htraced.grows ht (hq.tidy ht) hq.grows
  cases honward with
  | hits _ _ quiet | walks _ _ _ quiet | computes _ _ quiet | finds _ _ quiet | starts _ quiet
  | fails _ quiet => exact hquiet quiet
  | visits | passes | returns => exact htraced
  | goesOn grows tidy => exact htraced.grows ht tidy grows
  | calls found => exact htraced.grows ht found.tidy found.toGrows
  | @confirms walk m label key frames w' rest memo node commits =>
    -- every dependency was found unchanged
    obtain ⟨-, -, done, o, label', key', reads, hrechecked, -⟩ := h.stands.control
    rw [rest] at hrechecked
    obtain rfl := Option.some.inj (hrechecked.memo.symm.trans (h.stands.control.1 ▸ memo))
    have hseen := hrechecked.known.seen.resolve_left fun ⟨r, hmem, hfailed⟩ =>
      hrechecked.follows.not_failed (htr label' key') hmem hfailed
    refine htraced.confirms ⟨commits.toRenews, ht, commits.tidy, hordered, hordered', rfl, ?_⟩ memo rfl
      rfl
    intro j hj
    obtain ⟨read, hmem, rfl⟩ := mem_dependencies.1 (hrechecked.deps ▸ hj)
    exact (htraced.kept _ _ memo _ hj).imp_right fun ⟨n, hn, _⟩ =>
      ⟨n, hn, (hseen read hmem).verified n hn⟩
  | @keeps a m label key frames w' node verifiedAt deps commits =>
    obtain ⟨-, -, label', key', reads, htracks, hdeps⟩ := h.stands.control
    have hheld : a.slot ∈ Evaluation.held ⟨.body a (.done (.ok m.value)), frames⟩ := List.mem_cons_self
    refine htraced.recomputes ⟨commits.toRenews, ht, commits.tidy, hordered, hordered', verifiedAt, ?_⟩
      (fun hlasts => h.not_current hp hheld node (hlasts.current hordered)) ?_
    · intro j hj
      exact (haware.reads a _ rfl j (deps ▸ hj)).lasts
    · intro o ho
      rw [deps, hdeps]
      exact (haware.due a.slot List.mem_cons_self).again hp htr ht htracks ho

/-! ## Requests one after another -/

/-- The evaluation of a request on its own leaves a traced world traced, as far as it goes. -/
theorem World.Traced.reaches (hp : p.Pure use same False)
    (htr : ∀ label key, Transparent ((p label).body key)) (htraced : w.Traced)
    (hfair : w.Fair p use same) (huncancelled : t ∉ w.cancelled) (hidle : w.active = [])
    {label : Label} {key : Key} (hi : w.node? root = some (p.node label key))
    (hreach : Reaches p t (.request root) w e' w') : w'.Fair p use same ∧ w'.Traced := by
  have hbegin : w.Carries p use same t root (.request root) :=
    .inl (.request hfair huncancelled hidle hi)
  have hend := hreach.preserves
    (motive := fun e₁ w₁ => w₁.Carries p use same t root e₁ ∧ w₁.Traced ∧
      (e₁.Failing ∨ e₁.Aware p use same w₁)) ?_ ⟨hbegin, htraced, .inr (aware_request w root)⟩
  · exact ⟨hend.1.fair, hend.2.1⟩
  · rintro e₁ w₁ e₂ w₂ hnext ⟨hcarries, htraced, haware⟩
    have hcarries' := (hcarries.next hp htr hnext).1
    have hfailing (hfails : e₁.Failing) : w₂.Carries p use same t root e₂ ∧ w₂.Traced ∧
        (e₂.Failing ∨ e₂.Aware p use same w₂) := by
      obtain ⟨hfails', hquiet⟩ := hfails.next hnext
      exact ⟨hcarries', htraced.grows hcarries.fair.tidy hcarries'.fair.tidy hquiet.grows,
        .inl hfails'⟩
    rcases haware with hfails | haware
    · exact hfailing hfails
    rcases hcarries with hproceeds | ⟨hfails, -⟩
    · have honward := hproceeds.onward hp htr hnext
      refine ⟨hcarries', htraced.next hp htr hproceeds haware honward hcarries'.fair.ordered, ?_⟩
      rcases hproceeds.next hp htr hnext with ⟨-, hspares⟩ | ⟨hfails, -⟩
      · exact haware.next hp hproceeds honward hspares
      · exact .inl hfails
    · exact hfailing hfails

/-- A request leaves a traced world traced. Clears are of the whole system. -/
theorem Request.Carried.traced (hp : p.Pure use same False)
    (htr : ∀ label key, Transparent ((p label).body key)) {request : Request}
    (h : request.Carried p t w w') (hconsistent : request.Consistent p use) (hasks : request.Asks)
    (hfair : w.Fair p use same) (hidle : w.active = []) (huncancelled : t ∉ w.cancelled)
    (htraced : w.Traced) : w'.Traced := by
  refine (h.preserves (motive := fun u => u.Fair p use same ∧ u.Traced) hp hconsistent hidle
    huncancelled (fun u hu => hu.1.tidy) ?_ ?_ ?_ ⟨hfair, htraced⟩).2
  · intro u u' ⟨hfair, htraced⟩ ht' hw
    exact ⟨hfair.grows ht' hw, htraced.grows hfair.tidy ht' hw⟩
  · intro u answer u' ⟨hfair, htraced⟩ hopens
    have hbegins := hopens ▸ Request.begin_spec hp.consistent hfair.tidy hconsistent
    refine ⟨hfair.turns hbegins.turns, ?_⟩
    cases hbegins with
    | write _ finds _ tidy writes =>
      have hfair₁ := hfair.grows finds.tidy finds.toGrows
      exact (htraced.grows hfair.tidy finds.tidy finds.toGrows).writes finds.tidy tidy hfair₁.ordered
        writes
    | read _ tidy grows => exact htraced.grows hfair.tidy tidy grows
    | prepare | untouched => exact hasks.elim
    | clear tidy clears =>
      refine htraced.clears hfair.tidy tidy clears fun i m hm => ?_
      cases hopens
      exact World.le_of_clear hm
  · intro u i label key e u' ⟨hfair, htraced⟩ hidle huncancelled hi hreach
    exact htraced.reaches hp htr hfair huncancelled hidle hi hreach

/-- A request that writes or reads an input, asks for a derived value, or clears the whole system. -/
def Step.Requests (p : Program) (use : Usages) : Step → Prop
  | .perform request _ => request.Consistent p use ∧ request.Asks
  | _ => False

theorem Step.Requests.sequential {step : Step} (h : step.Requests p use) : step.Sequential p use := by
  cases step with
  | perform => exact h
  | _ => exact h.elim

/-- Requests one after another leave the world of a session traced. -/
theorem Session.Settled.traced_after (hp : p.Pure use same False)
    (htr : ∀ label key, Transparent ((p label).body key)) (limits : Limits) {s : Session}
    (h : s.Settled p use same) (htraced : s.world.Traced) {steps : List Step}
    (hsteps : ∀ step ∈ steps, step.Requests p use) : (s.after p limits steps).world.Traced := by
  induction steps generalizing s with
  | nil => exact htraced
  | cons step steps ih =>
    have hstep := hsteps step List.mem_cons_self
    refine ih (h.report hp htr limits hstep.sequential) ?_
      fun step' hmem => hsteps step' (List.mem_cons_of_mem _ hmem)
    cases step with
    | perform request token =>
      have hfair := h.report hp htr limits hstep.sequential
      have halters : (s.step p limits (.perform request token)).2.world.Alters
          (s.report p limits (.perform request token)).2.world := ⟨rfl, rfl, rfl, rfl, rfl, rfl⟩
      have htraced' : (s.step p limits (.perform request token)).2.world.Traced := by
        rw [world_perform]
        exact (request.carried h.free _ limits.steps limits.polls).traced hp htr hstep.1 hstep.2
          h.fair h.idle (by simp [h.uncancelled]) htraced
      exact htraced'.grows (hfair.fair.tidy.of_eq rfl rfl) hfair.fair.tidy halters.grows
    | _ => exact hstep.elim

end RedGreen
