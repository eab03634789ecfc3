import RedGreen.Proofs.Demand
import RedGreen.Proofs.History
import RedGreen.Proofs.Sequences

set_option autoImplicit false

/-! # No work is wasted

While a request is evaluated, each body that was started still runs, or the value of its slot is
valid now (`Economical`). A body is started only for a slot that is neither, so none is started twice.
And it is started only for a slot that is demanded, so a system that keeps no values would start it
too. -/

namespace RedGreen

open Evaluation

variable {p : Program} {use : Usages} {same : Indistinct} {t : Token}

/-! ## Running bodies -/

section Onward

variable {w w' : World} {e e' : Evaluation}

/-- A body that runs goes on, or the value of its slot is valid now, or it fails. -/
theorem Evaluation.Onward.running (h : Onward p use same w e e' w') :
    e'.Failing ∨ ∀ i ∈ e.running, i ∈ e'.running ∨ w'.Current i := by
  cases h with
  | fails failing => exact .inl failing
  | passes brought | finds brought =>
    refine .inr fun i hi => .inl ?_
    cases brought <;> exact hi
  | starts => exact .inr fun i hi => .inl (List.mem_cons_of_mem _ hi)
  | @keeps a m _ _ _ _ _ verifiedAt _ commits =>
    refine .inr fun i hi => ?_
    rcases List.mem_cons.1 hi with rfl | hi
    · exact .inr (.inr ⟨m, commits.memo_self, verifiedAt.trans commits.revision.symm⟩)
    · exact .inl hi
  | hits | walks | computes | visits | confirms | goesOn | calls | returns =>
    exact .inr fun i hi => .inl hi

/-- A body is started for a slot that was to be computed. -/
theorem Evaluation.Onward.started_cases (h : Onward p use same w e e' w') :
    started w e e' = [] ∨ ∃ i r label key frames, e = ⟨.compute i r, frames⟩ ∧
      w.node? i = some (p.node label key) ∧ started w e e' = w.bodyOf i ∧ i ∈ e'.running := by
  have hnone {e : Evaluation} {c : Control} {frames : List Frame} (hc : w.startedAt c = []) :
      started w e ⟨c, frames⟩ = [] := by
    unfold started
    split
    · exact hc
    · exact hc
    · rfl
  cases h with
  | starts node => exact .inr ⟨_, _, _, _, _, rfl, node, rfl, List.mem_cons_self⟩
  | _ => first | exact .inl (hnone rfl) | exact .inl rfl

end Onward

/-! ## One request -/

/-- The bodies that were started for a request are demanded by it, each was started once, and unless
    a call has failed, each still runs, or the value of its slot is valid now. -/
structure Evaluation.Economical (p : Program) (w : World) (label : Label) (key : Key)
    (e : Evaluation) : Prop where
  demanded : ∀ run ∈ w.runs, Demanded p w.inputs label key (p.node run.1 run.2)
  once : (w.runs.map fun run => p.node run.1 run.2).Nodup
  kept : e.Failing ∨ ∀ run ∈ w.runs, ∃ i, w.node? i = some (p.node run.1 run.2) ∧
    (i ∈ e.running ∨ w.Current i)

variable {w w' : World} {root : SlotId} {e e' : Evaluation} {label : Label} {key : Key}

namespace World

/-- The slot that is to be computed is demanded, its body does not run yet, and its value is not
    valid now. -/
theorem Proceeds.compute (hp : p.Pure use same False)
    (htr : ∀ label key, Transparent ((p label).body key)) {i : SlotId} {r : Revision}
    {frames : List Frame} (h : w.Proceeds p use same t root ⟨.compute i r, frames⟩)
    (hroot : w.node? root = some (p.node label key)) {label' : Label} {key' : Key}
    (hi : w.node? i = some (p.node label' key')) :
    Demanded p w.inputs label key (p.node label' key') ∧ i ∉ running ⟨.compute i r, frames⟩ ∧
      ¬w.Current i := by
  have hnodup : (i :: frames.map Frame.slot).Nodup := h.nodup
  obtain ⟨hasked, -⟩ := h.stands.control
  refine ⟨?_, fun hmem => ?_, h.not_current hp List.mem_cons_self hi⟩
  · rw [show i = asked root frames from hasked] at hi hnodup
    exact h.stands.frames.demanded hp htr h.fair.tidy hnodup hroot hi
  · exact (List.nodup_cons.1 hnodup).1 (running_frames_subset frames hmem)

end World

/-- An evaluation that has failed starts nothing. -/
theorem Evaluation.Failing.started (h : e.Failing) : started w e e' = [] := by
  cases h <;> rfl

/-- One step of an evaluation wastes no work. -/
theorem Evaluation.Economical.next (hp : p.Pure use same False)
    (htr : ∀ label key, Transparent ((p label).body key)) (h : e.Economical p w label key)
    (hcarries : w.Carries p use same t root e) (hroot : w.node? root = some (p.node label key))
    (hnext : e.Next p t w e' w') : e'.Economical p w' label key := by
  obtain ⟨hcarries', hextends⟩ := hcarries.next hp htr hnext
  have hinputs := hextends.inputs hcarries.fair.tidy hcarries'.fair.tidy
  have hold : ∀ run ∈ w.runs, Demanded p w'.inputs label key (p.node run.1 run.2) :=
    hinputs ▸ h.demanded
  -- nothing is started once a call has failed
  have hfailing (hfails : e.Failing) : e'.Economical p w' label key := by
    have hruns : w'.runs = w.runs := by rw [hnext.runs, hfails.started, List.append_nil]
    exact ⟨hruns ▸ hold, hruns ▸ h.once, .inl (hfails.next hnext).1⟩
  rcases h.kept with hfails | hkept
  · exact hfailing hfails
  rcases hcarries with hproceeds | ⟨hfails, -⟩
  swap
  · exact hfailing hfails
  have honward := hproceeds.onward hp htr hnext
  have ht := hproceeds.fair.tidy
  have hkept' : e'.Failing ∨ ∀ run ∈ w.runs, ∃ i, w'.node? i = some (p.node run.1 run.2) ∧
      (i ∈ e'.running ∨ w'.Current i) := by
    refine honward.running.imp_right fun hrunning run hmem => ?_
    obtain ⟨i, hi, hstill⟩ := hkept run hmem
    exact ⟨i, hextends.node i _ hi, hstill.elim (hrunning i) fun hcurrent =>
      .inr (honward.current ht hcurrent)⟩
  rcases honward.started_cases with hnone | ⟨i, r, label', key', frames, rfl, hi, hstarted, hrunning⟩
  · have hruns : w'.runs = w.runs := by rw [hnext.runs, hnone, List.append_nil]
    exact ⟨hruns ▸ hold, hruns ▸ h.once, hruns ▸ hkept'⟩
  · obtain ⟨label'', hbody, hnode⟩ := ht.bodyOf hp hi
    have hruns : w'.runs = w.runs ++ [(label'', key')] := by rw [hnext.runs, hstarted, hbody]
    obtain ⟨hdemanded, hidle, hstale⟩ := hproceeds.compute hp htr hroot hi
    -- a body of that node that was started before would still run, or be valid now
    have hnew : ∀ run ∈ w.runs, p.node run.1 run.2 ≠ p.node label'' key' := by
      intro run hmem heq
      obtain ⟨j, hj, hstill⟩ := hkept run hmem
      obtain rfl := ht.distinct i j _ hi (hj.trans (congrArg some (heq.trans hnode)))
      exact hstill.elim hidle hstale
    refine ⟨?_, ?_, hkept'.imp_right fun hkept' => ?_⟩
    · rw [hruns, List.forall_mem_append]
      refine ⟨hold, List.forall_mem_singleton.2 ?_⟩
      rw [hnode, hinputs]
      exact hdemanded
    · rw [hruns, List.map_append, List.nodup_append]
      refine ⟨h.once, by simp, ?_⟩
      intro n hn n' hn' heq
      obtain ⟨run, hmem, rfl⟩ := List.mem_map.1 hn
      exact hnew run hmem (heq.trans (List.mem_singleton.1 hn'))
    · rw [hruns, List.forall_mem_append]
      refine ⟨hkept', List.forall_mem_singleton.2 ⟨i, ?_, .inl hrunning⟩⟩
      exact (hextends.node i _ hi).trans (congrArg some hnode.symm)

/-- The bodies that are started for a request to a fair and idle world are demanded by it, and each is
    started once. -/
theorem World.Fair.request_runs (hp : p.Pure use same False)
    (htr : ∀ label key, Transparent ((p label).body key)) (hfair : w.Fair p use same)
    (huncancelled : t ∉ w.cancelled) (hidle : w.active = []) (hruns : w.runs = [])
    (hi : w.node? root = some (p.node label key)) (hreach : Reaches p t (.request root) w e' w') :
    (∀ run ∈ w'.runs, Demanded p w.inputs label key (p.node run.1 run.2)) ∧
      (w'.runs.map fun run => p.node run.1 run.2).Nodup := by
  have hbegin : w.Carries p use same t root (.request root) :=
    .inl (.request hfair huncancelled hidle hi)
  have hnone : (Evaluation.request root).Economical p w label key :=
    ⟨by simp [hruns], by simp [hruns], .inr (by simp [hruns])⟩
  obtain ⟨hcarries, hextends, heconomical⟩ := hreach.preserves
    (motive := fun e₁ w₁ => w₁.Carries p use same t root e₁ ∧ w.Extends w₁ ∧
      e₁.Economical p w₁ label key)
    (fun e₁ w₁ e₂ w₂ hnext ⟨hcarries, hextends, heconomical⟩ =>
      have h := hcarries.next hp htr hnext
      ⟨h.1, hextends.trans h.2,
        heconomical.next hp htr hcarries (hextends.node _ _ hi) hnext⟩)
    ⟨hbegin, .refl w, hnone⟩
  rw [← hextends.inputs hfair.tidy hcarries.fair.tidy]
  exact ⟨heconomical.demanded, heconomical.once⟩

/-! ## The same request without a memory -/

/-- A request without a memory starts a body that is demanded, under large enough limits. -/
theorem Demanded.run_plainly (hp : p.Pure use same False) (hw : w.Plain p use t w.inputs)
    (hidle : w.active = []) {i : SlotId} (hi : w.node? i = some (p.node label key)) {n : Node}
    (h : Demanded p w.inputs label key n) (request : Request) :
    ∃ bound, ∀ budget polls, bound ≤ budget → bound ≤ polls →
      ∃ run ∈ (Poll.left (Task.run p budget polls
        { request, token := t, suspended := some (.request i) } w)).runs, p.node run.1 run.2 = n := by
  obtain ⟨e', w', ⟨k, hk⟩, run, hmem, hrun⟩ := h.request_reaches_plainly hp hw hidle hi
  refine ⟨k + 1, fun budget polls hbudget hpolls => ⟨run, ?_, hrun⟩⟩
  have hcourse := Task.course_of_drive { request, token := t } hk (show k ≤ budget by omega)
    (show k < polls by omega)
  exact hcourse.runs_prefix.mem hmem

/-- Bounds for the members of a list have a bound for all of them. -/
theorem exists_bound_of_forall_mem {α : Type} {P : α → Nat → Prop}
    (hmono : ∀ a m n, m ≤ n → P a m → P a n) {l : List α} (h : ∀ a ∈ l, ∃ n, P a n) :
    ∃ n, ∀ a ∈ l, P a n := by
  induction l with
  | nil => exact ⟨0, nofun⟩
  | cons a l ih =>
    obtain ⟨m, hm⟩ := h a List.mem_cons_self
    obtain ⟨n, hn⟩ := ih fun a hmem => h a (List.mem_cons_of_mem _ hmem)
    refine ⟨max m n, List.forall_mem_cons.2 ⟨hmono a _ _ (by omega) hm, fun b hmem => ?_⟩⟩
    exact hmono b _ _ (by omega) (hn b hmem)

/-- The bodies that a request starts, as far as it is carried, it starts without a memory, too, under
    large enough limits; and none of them it starts twice. -/
theorem Request.runs_plainly (hp : p.Pure use same False)
    (htr : ∀ label key, Transparent ((p label).body key)) {request : Request}
    (hconsistent : request.Consistent p use) (hasks : request.Asks) {u : World}
    (h : w.Twins p use u) (hfair : w.Fair p use same) (hfree : u.entryLocked = false)
    (hruns : w.runs = []) (t' : Token) (hcarried : request.Carried p t w w') :
    (w'.runs.map fun run => p.node run.1 run.2).Nodup ∧
      ∃ bound, ∀ budget polls, bound ≤ budget → bound ≤ polls → ∀ run ∈ w'.runs,
        ∃ run' ∈ (Poll.left (Task.run p budget polls { request, token := t' } u)).runs,
          p.node run'.1 run'.2 = p.node run.1 run.2 := by
  cases hcarried with
  | unpolled => exact ⟨by simp [hruns], 0, by simp [hruns]⟩
  | answered _ _ _ runs => exact ⟨by simp [runs, hruns], 0, by simp [runs, hruns]⟩
  | @evaluated e e' w₁ w₂ w₃ w₄ w' entry opens reaches gone leaves runs₂ runs =>
    obtain ⟨u₁, hentry, halters, -⟩ := request.access.admission_of_unlocked false hfree
    have hbegins := Request.begin_twins hp hconsistent hasks (h.alters entry halters)
    rw [opens] at hbegins
    generalize hopens : request.begin p u₁ = out at hbegins
    cases hbegins with
    | @evaluating label key i i' _ u₂ value finds finds' twins =>
      have hfair₂ := (hfair.grows (entry.tidy h.tidy) entry.grows).grows finds.tidy finds.toGrows
      obtain ⟨hdemanded, honce⟩ := hfair₂.request_runs hp htr (by simp [twins.uncancelled])
        twins.idle (runs₂.trans hruns) finds.found reaches
      rw [runs]
      refine ⟨honce, ?_⟩
      obtain ⟨bound, hbound⟩ := exists_bound_of_forall_mem
        (P := fun (run : Label × Key) bound => ∀ budget polls, bound ≤ budget → bound ≤ polls →
          ∃ run' ∈ (Poll.left (Task.run p budget polls
            { request, token := t', suspended := some (.request i') } u₂)).runs,
              p.node run'.1 run'.2 = p.node run.1 run.2)
        (fun run m n hle hm budget polls hbudget hpolls => hm budget polls (by omega) (by omega))
        (fun run hmem => Demanded.run_plainly hp (twins.inputs ▸ twins.plain t') twins.idle'
          finds'.found (twins.inputs ▸ hdemanded run hmem) request)
      refine ⟨bound + 1, fun budget polls hbudget hpolls run hmem => ?_⟩
      obtain ⟨polls, rfl⟩ : ∃ k, polls = k + 1 := ⟨polls - 1, by omega⟩
      rw [Task.run_of_begin rfl hentry hopens]
      exact hbound run hmem budget (polls + 1) (by omega) (by omega)

/-- Keeping values wastes no work. Take a program whose identities have one use each, whose bodies
    depend only on what they read and hand on the errors of their calls, and whose equalities for
    early cutoff hold of values only that no body can tell apart. After any writes, queries and
    clears, made one after the other, the next step starts the body of no node twice, and each body
    that it starts is also started if the same step is taken by a system that keeps no values and
    holds the same inputs, as soon as the limits of that system are large enough. So a revalidation
    never has a recorded dependency recomputed that the body would not read now. -/
theorem no_work_is_wasted (hp : p.Pure use same False)
    (htr : ∀ label key, Transparent ((p label).body key)) (limits : Session.Limits) (traced : Bool)
    {before : List Step} (hbefore : ∀ step ∈ before, step.Sequential p use) {step : Step}
    (hstep : step.Sequential p use) {s : Session}
    (hs : s = (Session.fresh true traced).after p limits before) :
    ((s.report p limits step).1.runs.map fun run => p.node run.1 run.2).Nodup ∧
      ∃ bound, ∀ limits' : Session.Limits, bound ≤ limits'.steps → bound ≤ limits'.polls →
        ∀ run ∈ (s.report p limits step).1.runs,
          ∃ run' ∈ (s.plainly.report p limits' step).1.runs,
            p.node run'.1 run'.2 = p.node run.1 run.2 := by
  have hsettled : s.Settled p use same := hs ▸ (Session.settled_fresh traced).after hp htr limits hbefore
  have hreport (s : Session) (limits : Session.Limits) :
      (s.report p limits step).1.runs = (s.step p limits step).2.world.runs := rfl
  simp only [hreport]
  by_cases hperform : ∃ request token, step = .perform request token
  · obtain ⟨request, token, rfl⟩ := hperform
    have htwins := hsettled.twins
    obtain ⟨honce, bound, hbound⟩ := Request.runs_plainly hp htr hstep.1 hstep.2 htwins.worlds
      hsettled.fair htwins.free' hsettled.runs (s.plainly.tokenFor token).1
      (request.carried hsettled.free (s.tokenFor token).1 limits.steps limits.polls)
    simp only [Session.world_perform]
    exact ⟨honce, bound, fun limits' hsteps hpolls => hbound _ _ hsteps hpolls⟩
  · have hruns : (s.step p limits step).2.world.runs = s.world.runs :=
      Session.runs_clear hstep fun request token heq => hperform ⟨request, token, heq⟩
    rw [hruns, hsettled.runs]
    exact ⟨List.nodup_nil, 0, fun _ _ _ _ hnone => absurd hnone List.not_mem_nil⟩

/-! ## A dependency that is no longer read -/

/-- Asks for twice a positive input, and for nothing else otherwise. -/
def gate : Except QueryError Value → Body
  | .ok (.int n) =>
    if 0 < n then .call .awaited "twice" .unit (thenInteger fun m => m) else .done (.ok (.int 0))
  | .ok _ => .done (.ok (.int 0))
  | .error e => .done (.error e)

/-- Twice the input, if the input is positive. -/
def gatedQuery : Query where
  id := ⟨"gated"⟩
  valueType := .int
  equality := Equality.content.same
  body := fun _ => .perform (.read ⟨"x"⟩ .int .unit) gate

/-- A program in which the input tells whether a query is called. -/
def gated : Program := either "twice" twiceQuery gatedQuery

theorem gated_pure : gated.Pure integerUses sameInteger False := by
  refine either_pure "twice" ⟨rfl, rfl, by simp [twiceQuery]⟩ ⟨rfl, rfl, by simp [gatedQuery]⟩
    (by simp [twiceQuery, gatedQuery]) (fun key => ?_) fun key => ?_
  · exact .read rfl fun r r' h => lawful_thenInteger _ (h.mono fun _ _ => sameInteger_of_alikeOf)
  · refine .read rfl fun r r' h => ?_
    cases h with
    | ok h =>
      obtain ⟨hv, rfl⟩ := sameInteger_of_alikeOf h
      rename_i v
      cases v <;> cases hv
      simp only [gate]
      split
      · exact .call rfl False.elim fun r r' h => lawful_thenInteger _ h
      · exact .done (.ok (Value.alikeOf_refl rfl))
    | error e => exact .done (.error e)

theorem gated_transparent (label : Label) (key : Key) :
    Transparent ((gated label).body key) := by
  refine either_cases "twice" (fun query => Transparent (query.body key)) ?_ ?_ label
  · exact .perform (transparent_thenInteger _)
  · refine .perform fun r => ?_
    show Transparent (gate r)
    unfold gate
    split
    · split
      · exact .call (fun e => rfl) fun v => transparent_thenInteger _ _
      · exact .done _
    · exact .done _
    · exact .done _

/-- The value of the gated query is kept while the input is positive; then the input is written. -/
def gatedSteps : List Step :=
  [.perform (.write .blocking ⟨"x"⟩ .unit (.int 5)) none,
    .perform (.query .blocking "gated" .unit) none,
    .perform (.write .waiting ⟨"x"⟩ .unit (.int (-1))) none]

theorem no_work_is_wasted_gated :
    (((Session.fresh true true).after gated ⟨40, 3⟩ gatedSteps).report gated ⟨40, 3⟩
        (.perform (.query .free "gated" .unit) none)).1.runs = [("gated", .unit)] ∧
      ∃ bound, ∀ limits' : Session.Limits, bound ≤ limits'.steps → bound ≤ limits'.polls →
        ∃ run' ∈ (((Session.fresh true true).after gated ⟨40, 3⟩ gatedSteps).plainly.report gated
            limits' (.perform (.query .free "gated" .unit) none)).1.runs,
          gated.node run'.1 run'.2 = gated.node "gated" .unit := by
  have hwrite (access : Access) (n : Int) :
      Step.Sequential gated integerUses (.perform (.write access ⟨"x"⟩ .unit (.int n)) none) :=
    ⟨by simp [Request.Consistent, integerUses, Key.type, Value.type], trivial⟩
  have hquery (access : Access) :
      Step.Sequential gated integerUses (.perform (.query access "gated" .unit) none) :=
    ⟨rfl, trivial⟩
  have hruns : (((Session.fresh true true).after gated ⟨40, 3⟩ gatedSteps).report gated ⟨40, 3⟩
      (.perform (.query .free "gated" .unit) none)).1.runs = [("gated", .unit)] := by
    decide +kernel
  have hbefore : ∀ step ∈ gatedSteps, step.Sequential gated integerUses := by
    rw [gatedSteps]
    refine List.forall_mem_cons.2 ⟨hwrite _ _, List.forall_mem_cons.2 ⟨hquery _, ?_⟩⟩
    exact List.forall_mem_cons.2 ⟨hwrite _ _, fun step h => absurd h List.not_mem_nil⟩
  obtain ⟨-, bound, hbound⟩ := no_work_is_wasted gated_pure gated_transparent ⟨40, 3⟩ true hbefore
    (hquery .free) rfl
  exact ⟨hruns, bound, fun limits' hsteps hpolls =>
    hbound limits' hsteps hpolls ("gated", .unit) (hruns ▸ List.mem_singleton_self _)⟩

end RedGreen
