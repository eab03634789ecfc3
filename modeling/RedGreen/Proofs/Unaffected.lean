import Mathlib.Order.WellFounded
import RedGreen.Proofs.Confirmation
import RedGreen.Proofs.Tracing

set_option autoImplicit false

/-! # Unaffected values are never recomputed

Say that no input that a kept value comes from was written since the value was last known to be valid.
In a traced world nothing that the value has recorded has changed since then, so its slot is firm, and a
request for it runs nothing (`World.Traced.confirms_of_unwritten`). -/

namespace RedGreen

open Evaluation Relation

variable {p : Program} {use : Usages} {same : Indistinct} {t : Token} {w w' w'' : World}
  {i : SlotId} {m : Memo}

namespace World

/-! ## Values that come from inputs that were not written -/

/-- No input that a slot comes from was written after a revision. -/
def Unwritten (w : World) (i : SlotId) (r : Revision) : Prop :=
  ∀ x, ReflTransGen w.Records i x → w.kind? x = some .input → w.changedAt x ≤ r

/-- No input that is recorded anywhere was written after a revision. -/
theorem unwritten_of_recorded {r : Revision} (hi : w.kind? i = some .derived)
    (h : ∀ slot ∈ w.slots, ∀ n ∈ slot.memo?, ∀ x ∈ n.deps, w.kind? x = some .input →
      w.changedAt x ≤ r) : w.Unwritten i r := by
  intro x hpath hkind
  cases hpath with
  | refl => cases hi.symm.trans hkind
  | tail _ hlast =>
    obtain ⟨n, hn, hx⟩ := hlast
    obtain ⟨slot, hslot, hmemo⟩ := Option.bind_eq_some_iff.1 hn
    exact h slot (List.mem_of_getElem? hslot) n hmemo x hx hkind

/-- What a value has recorded has not changed after it was last known to be valid. -/
theorem Traced.unchanged (h : w.Traced) (hm : w.memo? i = some m)
    (hunwritten : w.Unwritten i m.verifiedAt) {j : SlotId} (hj : j ∈ m.deps) :
    w.changedAt j ≤ m.verifiedAt := by
  by_contra hlt
  obtain ⟨x, hpath, hinput, hx⟩ := h.traced i m hm j hj (Nat.lt_of_not_le hlt)
  exact absurd (hunwritten x (.head ⟨m, hm, hj⟩ hpath) hinput) (Nat.not_le_of_lt hx)

/-- Every value that comes from no input written since it was last known to be valid is firm. -/
theorem Traced.firm_of_unwritten (h : w.Traced) (hm : w.memo? i = some m)
    (hunwritten : w.Unwritten i m.verifiedAt) : w.Firm i := by
  -- by induction on what is recorded: no slot comes back to itself
  induction i using h.grounded.induction generalizing m with
  | _ i ih =>
    refine .intro hm (fun j hj => h.unchanged hm hunwritten hj) fun j hj hinput => ?_
    rcases h.kept i m hm j hj with hkind | ⟨n, hn, hle⟩
    · exact absurd hkind hinput
    · exact ih j ⟨m, hm, hj⟩ hn fun x hpath hkind =>
        Nat.le_trans (hunwritten x (.head ⟨m, hm, hj⟩ hpath) hkind) hle

/-- So a request for it is answered with what it holds. -/
theorem Traced.confirms_of_unwritten (hp : p.Pure use same False) (hfair : w.Fair p use same)
    (htraced : w.Traced) (huncancelled : t ∉ w.cancelled) (hm : w.memo? i = some m)
    (hunwritten : w.Unwritten i m.verifiedAt) : w.Confirms p use t i :=
  (htraced.firm_of_unwritten hm hunwritten).confirms hp.consistent hfair.tidy hfair.memoize huncancelled

/-! ## Requests -/

/-- What a slot holds if it is not asked when that was last known to be valid. -/
theorem Refreshes.kept (h : w.Refreshes p use w') (i : SlotId) :
    w'.written? i = w.written? i ∧ (w'.memo? i).map (fun m => (m.toStamped, m.deps)) =
      (w.memo? i).map fun m => (m.toStamped, m.deps) := by
  refine ⟨h.written i, ?_⟩
  rcases h.memo i with hi | ⟨-, m, hm, hi⟩
  · rw [hi]
  · rw [hi, hm]
    rfl

/-- A request whose slot confirms is answered with what the slot holds. -/
theorem Confirms.run (hconfirms : w.Confirms p use t i) (hm : w.memo? i = some m) {request : Request}
    {w₁ w₂ : World} (hentry : request.access.admission false w = (.admitted, w₁))
    (hopens : request.begin p w₁ = (.evaluating (.request i), w₂)) (hw₂ : w.Refreshes p use w₂)
    (hidle : w₂.active = []) :
    ∃ bound w', (∀ budget polls, bound ≤ budget → bound ≤ polls →
        Task.run p budget polls { request, token := t } w =
          (.ready (.ok (request.replyOf m.toStamped)), w')) ∧ w.Refreshes p use w' := by
  obtain ⟨w₃, hreach, hw₃, -, -⟩ := hconfirms m hm w₂ [] hw₂ fun k _ => hidle ▸ List.not_mem_nil
  obtain ⟨n, hn⟩ := hreach.finishes (.of_answer _ w₃)
  have hgone := request.access.alters_release w₃
  refine ⟨n + 1, request.access.release w₃, fun budget polls hbudget hpolls => ?_,
    hw₃.grows hgone.grows (hgone.tidy hw₃.tidy) (Access.hushed_release _ w₃).runs⟩
  obtain ⟨polls, rfl⟩ : ∃ k, polls = k + 1 := ⟨polls - 1, by omega⟩
  rw [Task.run_of_begin rfl hentry hopens]
  exact Task.run_of_finishes { request, token := t } hn (by omega) (by omega)

/-- A query that confirms is answered with what its slot holds. -/
theorem Confirms.query (hp : p.Pure use same False) (hconfirms : w.Confirms p use t i)
    (ht : Tidy p use w.toSystem) (hidle : w.active = []) (hfree : w.entryLocked = false)
    {label : Label} {key : Key} (hi : w.node? i = some (p.node label key)) (hm : w.memo? i = some m)
    (access : Access) :
    ∃ bound w', (∀ budget polls, bound ≤ budget → bound ≤ polls →
        Task.run p budget polls { request := .query access label key, token := t } w =
          (.ready (.ok (.value m.value)), w')) ∧ w.Refreshes p use w' := by
  obtain ⟨w₁, hentry, halters, -⟩ := access.admission_of_unlocked false hfree
  have hruns₁ : w₁.runs = w.runs := by
    have hruns := (access.hushed_admission false w).runs
    rwa [hentry] at hruns
  have hw₁ := (Refreshes.refl ht).grows halters.grows (halters.tidy ht) hruns₁
  have hbegins := Request.begin_spec hp.consistent hw₁.tidy
    (show (Request.query access label key).Consistent p use from ht.keyType hi)
  have hruns₂ := ((Request.query access label key).hushed_begin p w₁).runs
  generalize hopens : (Request.query access label key).begin p w₁ = out at hbegins hruns₂
  cases hbegins with
  | @query _ _ _ j w₂ finds =>
    obtain rfl := finds.tidy.distinct j i _ finds.found (finds.node i _ (hw₁.node i _ hi))
    exact hconfirms.run hm hentry hopens (hw₁.grows finds.toGrows finds.tidy hruns₂)
      (finds.active.trans (halters.active.trans hidle))

end World

/-- Unaffected values are never recomputed. Take a program whose identities have one use each, whose
    bodies depend only on what they read and hand on the errors of their calls, and whose equalities
    for early cutoff hold of values only that no body can tell apart. After any writes, queries and
    clears of the system, made one after the other, take a slot that holds a value. If no input that
    the value comes from, by what was recorded, was written after the value was last known to be
    valid, then a query for the slot starts no body, is answered with the value, and leaves what
    each slot holds, when it last changed and what it has recorded, as soon as the limits are large
    enough. -/
theorem unaffected_values_are_kept (hp : p.Pure use same False)
    (htr : ∀ label key, Transparent ((p label).body key)) (limits : Session.Limits) (traced : Bool)
    {before : List Step} (hbefore : ∀ step ∈ before, step.Requests p use) {s : Session}
    (hs : s = (Session.fresh true traced).after p limits before) {label : Label} {key : Key}
    (hi : s.world.node? i = some (p.node label key)) (hm : s.world.memo? i = some m)
    (hunwritten : s.world.Unwritten i m.verifiedAt) (access : Access) (token : Option String) :
    ∃ bound, ∀ limits' : Session.Limits, bound ≤ limits'.steps → bound ≤ limits'.polls →
      ∃ report s', s.report p limits' (.perform (.query access label key) token) = (report, s') ∧
        report.answer = .reply (.value m.value) ∧ report.runs = [] ∧
          ∀ j, s'.world.written? j = s.world.written? j ∧
            (s'.world.memo? j).map (fun n => (n.toStamped, n.deps)) =
              (s.world.memo? j).map fun n => (n.toStamped, n.deps) := by
  have hsettled : s.Settled p use same := hs ▸ (Session.settled_fresh traced).after hp htr limits
    fun step hmem => (hbefore step hmem).sequential
  have htraced : s.world.Traced := hs ▸ (Session.settled_fresh traced).traced_after hp htr limits
    (World.traced_new true) hbefore
  have huncancelled : (s.tokenFor token).1 ∉ s.world.cancelled := by simp [hsettled.uncancelled]
  have hconfirms := htraced.confirms_of_unwritten hp hsettled.fair huncancelled hm hunwritten
  obtain ⟨bound, w', hrun, hrefreshes⟩ := hconfirms.query hp hsettled.fair.tidy hsettled.idle
    hsettled.free hi hm access
  refine ⟨bound, fun limits' hsteps hpolls => ?_⟩
  have hstep := Session.step_of_ready (hrun _ _ hsteps hpolls)
  rw [Session.report, hstep]
  exact ⟨_, _, rfl, rfl, hrefreshes.runs.trans hsettled.runs, hrefreshes.kept⟩

/-! ## An input that is read at times -/

/-- An input that steers. Its equality for early cutoff is left open. -/
def steeringQuery (equality : Equality) : Query where
  id := ⟨"steering"⟩
  valueType := .int
  equality := equality.same
  body := fun _ => .perform (.read ⟨"x"⟩ .int .unit) .done

/-- Goes on to another input if it was steered there. -/
def steer : Except QueryError Value → Body
  | .ok (.int 1) => .perform (.read ⟨"y"⟩ .int .unit) .done
  | r => .done r

/-- The other input, or what steers in its place. -/
def steeredQuery : Query where
  id := ⟨"steered"⟩
  valueType := .int
  equality := Equality.content.same
  body := fun _ => .call .awaited "steering" .unit steer

/-- What was steered. -/
def outerQuery : Query where
  id := ⟨"outer"⟩
  valueType := .int
  equality := Equality.content.same
  body := fun _ => .call .awaited "steered" .unit .done

/-- A program that reads the one input always and the other one at times. -/
def steering (equality : Equality) : Program := fun label =>
  if label = "steering" then steeringQuery equality
  else either "steered" steeredQuery outerQuery label

/-- Two inputs and derived values, all of them integers without an argument. -/
def steeringUses : Usages := fun query =>
  ⟨if query = ⟨"x"⟩ ∨ query = ⟨"y"⟩ then .input else .derived, .unit, .int⟩

theorem steering_cases (equality : Equality) (holds : Query → Prop)
    (hsteering : holds (steeringQuery equality)) (hsteered : holds steeredQuery)
    (houter : holds outerQuery) (label : Label) : holds (steering equality label) := by
  unfold steering
  split
  · exact hsteering
  · exact either_cases "steered" holds hsteered houter label

theorem steering_lawful (equality : Equality) (label : Label) (key : Key) :
    Lawful (steering equality) steeringUses sameInteger False .int
      ((steering equality label).body key) ((steering equality label).body key) := by
  refine steering_cases equality (fun query => Lawful (steering equality) steeringUses sameInteger
    False .int (query.body key) (query.body key)) ?_ ?_ ?_ label
  · exact .read rfl fun r r' h => .done h
  · refine .call rfl False.elim fun r r' h => ?_
    cases h with
    | error e => exact .done (.error e)
    | ok h =>
      obtain ⟨hv, rfl⟩ := h
      unfold steer
      split
      · exact .read rfl fun r r' h => .done h
      · exact .done (.ok (Value.alikeOf_refl hv))
  · refine .call rfl False.elim fun r r' h => .done (h.mono ?_)
    rintro v w ⟨hv, rfl⟩
    exact Value.alikeOf_refl hv

theorem steering_transparent (equality : Equality) (label : Label) (key : Key) :
    Transparent ((steering equality label).body key) := by
  refine steering_cases equality (fun query => Transparent (query.body key)) ?_ ?_ ?_ label
  · exact .perform fun r => .done r
  · refine .call (fun e => rfl) fun v => ?_
    unfold steer
    split
    · exact .perform fun r => .done r
    · exact .done _
  · exact .call (fun e => rfl) fun v => .done _

theorem steering_pure : (steering .content).Pure steeringUses sameInteger False := by
  refine pure_of_integers (steering_cases _ (fun query => query.valueType = .int ∧
      query.equality = Equality.content.same) ⟨rfl, rfl⟩ ⟨rfl, rfl⟩ ⟨rfl, rfl⟩)
    (steering_cases _ (fun query => (steeringUses query.id).kind = .derived) ?_ ?_ ?_)
    (fun _ => rfl) ?_ (steering_lawful .content)
  · simp [steeringUses, steeringQuery]
  · simp [steeringUses, steeredQuery]
  · simp [steeringUses, outerQuery]
  · intro label label' hid
    have hids : steeredQuery.id ≠ outerQuery.id ∧
        ∀ query ∈ [steeredQuery, outerQuery], query.id ≠ (steeringQuery .content).id := by
      simp [steeringQuery, steeredQuery, outerQuery]
    unfold steering either at hid ⊢
    grind

/-- Writes an input. -/
def put (query : QueryId) (n : Int) : Step := .perform (.write .blocking query .unit (.int n)) none

/-- Asks for a value. -/
def ask (label : Label) : Step := .perform (.query .free label .unit) none

/-- The outer value comes from the one input only, and then the other input is written. -/
def steeredElsewhere : Session :=
  (Session.fresh true true).after (steering .content) ⟨60, 3⟩
    [put ⟨"y"⟩ 5, put ⟨"x"⟩ 2, ask "outer", put ⟨"y"⟩ 6]

theorem unaffected_values_are_kept_outer :
    ∃ bound, ∀ limits' : Session.Limits, bound ≤ limits'.steps → bound ≤ limits'.polls →
      ∃ report s', steeredElsewhere.report (steering .content) limits'
          (.perform (.query .free "outer" .unit) none) = (report, s') ∧
        report.answer = .reply (.value (.int 2)) ∧ report.runs = [] ∧
          ∀ j, s'.world.written? j = steeredElsewhere.world.written? j ∧
            (s'.world.memo? j).map (fun n => (n.toStamped, n.deps)) =
              (steeredElsewhere.world.memo? j).map fun n => (n.toStamped, n.deps) := by
  have hput (query : QueryId) (n : Int) (hquery : query = ⟨"x"⟩ ∨ query = ⟨"y"⟩) :
      (put query n).Requests (steering .content) steeringUses :=
    ⟨by simp [Request.Consistent, steeringUses, Key.type, Value.type, hquery], trivial⟩
  have hask : (ask "outer").Requests (steering .content) steeringUses := ⟨rfl, trivial⟩
  have hm : steeredElsewhere.world.memo? 2 = some ⟨⟨.int 2, 3⟩, 3, [3]⟩ := by decide +kernel
  refine unaffected_values_are_kept steering_pure (steering_transparent .content) ⟨60, 3⟩ true ?_ rfl
    (by decide +kernel) hm (World.unwritten_of_recorded (by decide +kernel) (by decide +kernel)) .free
    none
  refine List.forall_mem_cons.2 ⟨hput _ _ (.inr rfl), List.forall_mem_cons.2 ⟨hput _ _ (.inl rfl), ?_⟩⟩
  refine List.forall_mem_cons.2 ⟨hask, List.forall_mem_cons.2 ⟨hput _ _ (.inr rfl), ?_⟩⟩
  exact fun step h => absurd h List.not_mem_nil

/-- The steering value is another one that counts as unchanged when the outer value was last known to
    be valid; after that, the other input is written, and the steered value is asked for. -/
def coarselySteered : Session :=
  (Session.fresh true true).after (steering .parity) ⟨60, 3⟩
    [put ⟨"x"⟩ 1, put ⟨"y"⟩ 5, ask "outer", put ⟨"x"⟩ 3, ask "outer", put ⟨"y"⟩ 6, ask "steered"]

/-- The steering value alone is dropped. -/
def steeringDropped : Session :=
  (Session.fresh true true).after (steering .content) ⟨60, 3⟩
    [put ⟨"x"⟩ 2, ask "outer", put ⟨"y"⟩ 5, .clearSlot ⟨"steering"⟩ .int .unit 9]

/-- Otherwise unaffected values may be recomputed: if the equality for early cutoff holds of values
    that a body tells apart, or if a value is dropped and not all that are as old. -/
theorem unaffected_value_recomputed :
    (∀ equality label key, Lawful (steering equality) steeringUses sameInteger False .int
        ((steering equality label).body key) ((steering equality label).body key) ∧
      Transparent ((steering equality label).body key)) ∧
    (coarselySteered.world.node? 2 = some ((steering .parity).node "outer" .unit) ∧
      coarselySteered.world.memo? 2 = some ⟨⟨.int 5, 3⟩, 4, [3]⟩ ∧
      coarselySteered.world.Unwritten 2 4 ∧
      (coarselySteered.report (steering .parity) ⟨60, 3⟩ (ask "outer")).1.runs = [("outer", .unit)] ∧
      (coarselySteered.report (steering .parity) ⟨60, 3⟩ (ask "outer")).1.answer =
        .reply (.value (.int 3))) ∧
    steeringDropped.world.node? 1 = some ((steering .content).node "outer" .unit) ∧
      steeringDropped.world.memo? 1 = some ⟨⟨.int 2, 2⟩, 2, [2]⟩ ∧
      steeringDropped.world.Unwritten 1 2 ∧
      (steeringDropped.report (steering .content) ⟨60, 3⟩ (ask "outer")).1.runs =
        [("steering", .unit), ("steered", .unit)] := by
  refine ⟨fun equality label key => ⟨steering_lawful equality label key,
    steering_transparent equality label key⟩, ⟨by decide +kernel, by decide +kernel, ?_,
    by decide +kernel, by rfl⟩, by decide +kernel, by decide +kernel, ?_, by decide +kernel⟩
  · exact World.unwritten_of_recorded (by decide +kernel) (by decide +kernel)
  · exact World.unwritten_of_recorded (by decide +kernel) (by decide +kernel)

end RedGreen
