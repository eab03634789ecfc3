import RedGreen.Proofs.InputStore
import RedGreen.Proofs.Serving
import RedGreen.Proofs.Transfer

set_option autoImplicit false

/-! # Clients that share a system

Several clients share a system. Each of them writes inputs of its own, and asks for what depends on no
others; a request is made as a whole, and the requests of the clients come in any order. To every
client it is as if it had the system for itself (`clients_are_independent`).

What a client's own system would be is carried along for each of them: it is joined to the shared one
(`Session.Shares`). A request goes on in the shared system and in that of its client, side by side, and
all other clients stand by. -/

namespace RedGreen

open Evaluation

variable {p : Program} {use : Usages}

/-! ## Handing out the journal -/

namespace World

variable {N F : Node → Prop} {ρ : Renaming} {births births₁ : Nat → Option SlotId} {v w w₁ : World}

/-- The journal was handed out. -/
def handOut (w : World) : World := { w with journal := [] }

theorem alters_handOut (w : World) : w.Alters w.handOut := ⟨rfl, rfl, rfl, rfl, rfl, rfl⟩

theorem Joined.handOut (h : Joined p use N F ρ births [] v w) (hv : v.handOut.Linked)
    (hw : w.handOut.Linked) : Joined p use N F ρ births [] v.handOut w.handOut :=
  have hlinked {u : World} (hu : u.handOut.Linked) : u.Linked :=
    hu.calm ⟨rfl, fun _ => rfl, fun _ _ hk => hk⟩
  h.grows v.alters_handOut.grows w.alters_handOut.grows (hlinked hv) (hlinked hw)
    (v.alters_handOut.tidy h.rooted.tidy) (w.alters_handOut.tidy h.rooted'.tidy) (Nat.le_refl _)
    (Nat.le_refl _)

theorem Serves.handOut (h : w.Serves p use N F births births₁ w₁) :
    w.Serves p use N F births births₁ w₁.handOut where
  sustains N' hrealm hcommon := (h.sustains N' hrealm hcommon).trans w₁.alters_handOut.grows.sustains
  allocations := h.allocations
  births := h.births

end World

/-! ## Sessions at rest -/

namespace Session

variable {s : Session} {limits : Limits}

/-- Nothing is in progress, no token was cancelled, and what has come before has left everything in
    order. -/
structure Resting (p : Program) (s : Session) : Prop where
  timed : s.Timed p
  linked : s.Linked p
  descends : s.Descends p
  tasks : s.tasks.entries = []
  guards : s.guards.entries = []
  untroubled : s.world.cancelled = []

theorem resting_fresh (p : Program) (traced : Bool) : (Session.fresh true traced).Resting p :=
  ⟨timed_fresh p true traced, linked_fresh p traced, descends_fresh p true traced, rfl, rfl, rfl⟩

/-- The world of a session at rest is at rest. -/
theorem Resting.world (h : s.Resting p) : s.world.Resting p where
  memoize := h.linked.memoize
  unlocked := h.timed.accounted.free h.tasks
  idle := h.timed.accounted.idle h.tasks h.guards
  untroubled := h.untroubled
  timely := by
    have htimely := h.timed.timely
    rwa [flights, h.tasks] at htimely
  linked := h.linked.linked
  directory := h.descends.directory
  recorded := h.descends.recorded

/-- What is reported of a request that is answered. -/
theorem report_of_ready {request : Request} {token : Option String}
    {answer : Except QueryError Reply} {w : World}
    (h : Task.run p limits.steps limits.polls { request, token := (s.tokenFor token).1 } s.world =
      (.ready answer, w)) :
    s.report p limits (.perform request token) =
      (⟨.ofResult answer, w.revision, w.journal.runs, w.journal.events, w.journal.logs⟩,
        { (s.tokenFor token).2 with
          world := { w with journal := [] }
          collector := (s.tokenFor token).2.collector.recordAll w.journal.events }) := by
  simp only [report, step_of_ready h]

/-- A session is at rest again after a request that is answered. -/
theorem Resting.report (hp : ∀ label key, Strict ((p label).body key)) (h : s.Resting p)
    {request : Request} (hrequest : request.TakesTurns) {token : Option String}
    {answer : Except QueryError Reply} {w : World}
    (hrun : Task.run p limits.steps limits.polls { request, token := (s.tokenFor token).1 } s.world =
      (.ready answer, w)) (huntroubled : w.cancelled = []) :
    (s.report p limits (.perform request token)).2.Resting p where
  timed := (h.timed.report limits _).1
  linked := h.linked.report hp limits hrequest
  descends := h.descends.report limits _
  tasks := by
    rw [report_of_ready hrun]
    exact (congrArg Named.entries (s.tasks_tokenFor token)).trans h.tasks
  guards := by
    rw [report_of_ready hrun]
    exact (congrArg Named.entries (s.guards_tokenFor token)).trans h.guards
  untroubled := by
    rw [report_of_ready hrun]
    exact huntroubled

end Session

/-! ## Clients -/

/-- A request of a client. -/
structure Visit (C : Type) where
  client : C
  request : Request
  token : Option String

/-- The request is made, and carried as far as the limits go. -/
def Visit.step {C : Type} (visit : Visit C) : Step := .perform visit.request visit.token

/-- What an answer is under other numbers of allocations. -/
def Answer.rename (π : Equiv.Perm Nat) : Answer → Answer
  | .reply r => .reply (r.rename π)
  | answer => answer

theorem Answer.ofResult_rename (π : Equiv.Perm Nat) (answer : Except QueryError Reply) :
    Answer.ofResult (answer.map (Reply.rename π)) = (Answer.ofResult answer).rename π := by
  cases answer <;> rfl

/-! ## What a client would have alone -/

section Clients

variable {C : Type}

/-- A session that clients share and the session that each of them would have alone, all at rest. Each
    of these is joined to the shared one, under its own renaming of allocations; which evaluations have
    made the allocations is known of what the shared one keeps. -/
structure Session.Shares (p : Program) (use : Usages) (own : C → Node → Prop) (alone : C → Session)
    (ρ : C → Renaming) (births : Nat → Option SlotId) (s : Session) : Prop where
  joined : ∀ c, World.Joined p use (p.ReadsOnly use (own c)) (p.Constant use) (ρ c) births []
    (alone c).world s.world
  kept : ∀ n i, births n = some i → ∃ m, s.world.memo? i = some m
  resting : ∀ c, (alone c).Resting p
  shared : s.Resting p

theorem Session.shares_fresh (p : Program) (use : Usages) (own : C → Node → Prop) (traced : Bool) :
    Shares p use own (fun _ => Session.fresh true traced) (fun _ => []) (fun _ => none)
      (Session.fresh true traced) where
  joined c :=
    { rooted := ⟨.new true, fun i n m _ hm => (by cases hm)⟩
      rooted' := ⟨.new true, fun i n m _ hm => (by cases hm)⟩
      echoes := World.echoes_new true
      consistent := Renaming.consistent_nil
      bounded := fun ab hab => absurd hab List.not_mem_nil
      explains := World.explains_new true
      fresh := fun ab hab => absurd hab List.not_mem_nil }
  kept n i hborn := by cases hborn
  resting _ := resting_fresh p traced
  shared := resting_fresh p traced

variable [DecidableEq C]

/-- The requests of one of the clients, in their order. -/
def visitsOf (c : C) (visits : List (Visit C)) : List (Visit C) :=
  visits.filter fun visit => visit.client = c

theorem visitsOf_cons_self (visit : Visit C) (visits : List (Visit C)) :
    visitsOf visit.client (visit :: visits) = visit :: visitsOf visit.client visits :=
  List.filter_cons_of_pos (decide_eq_true rfl)

theorem visitsOf_cons_other {c : C} {visit : Visit C} (h : visit.client ≠ c) (visits : List (Visit C)) :
    visitsOf c (visit :: visits) = visitsOf c visits :=
  List.filter_cons_of_neg (by simpa using h)

namespace Session

/-- What one of the clients is answered to its queries while requests are made one after the other. -/
def answersTo (p : Program) (limits : Limits) (c : C) : Session → List (Visit C) → List Answer
  | _, [] => []
  | s, visit :: visits =>
    if visit.client = c ∧ visit.request.asks = true then
      (s.report p limits visit.step).1.answer ::
        answersTo p limits c (s.report p limits visit.step).2 visits
    else answersTo p limits c (s.report p limits visit.step).2 visits

variable {own : C → Node → Prop} {alone : C → Session} {ρ : C → Renaming} {ρ₁ : Renaming}
  {births births₁ : Nat → Option SlotId} {s s₁ alone₁ : Session} {visit : Visit C}

/-- A request of one client in its own session and in the shared one leaves the sessions shared: the
    other clients stand by. -/
theorem Shares.served (h : Shares p use own alone ρ births s)
    (hown : ∀ c d n, own c n → own d n → c = d) {c : C} (hrest : alone₁.Resting p)
    (hrest' : s₁.Resting p) (hjoined : World.Joined p use (p.ReadsOnly use (own c)) (p.Constant use)
      ρ₁ births₁ [] alone₁.world s₁.world)
    (hserves : s.world.Serves p use (p.ReadsOnly use (own c)) (p.Constant use) births births₁
      s₁.world) :
    Shares p use own (Function.update alone c alone₁) (Function.update ρ c ρ₁)
      (World.settled births₁ s₁.world) s₁ where
  joined d := by
    by_cases hd : d = c
    · subst hd
      rw [Function.update_self, Function.update_self]
      exact hjoined.settle
    · rw [Function.update_of_ne hd, Function.update_of_ne hd]
      have hsustains := hserves.sustains _ (p.realm_readsOnly use (own d)) fun n hn hn' =>
        hn.constant hn' fun m hm hm' => hd (hown d c m hm' hm)
      refine (h.joined d).standsBy hsustains hjoined.rooted' hjoined.settle.explains
        hserves.allocations fun n i hlt hborn => ?_
      have hbefore := (hserves.births n hlt).symm.trans (World.settled_eq_some.1 hborn).1
      exact ⟨hbefore, h.kept n i hbefore⟩
  kept n i hborn := (World.settled_eq_some.1 hborn).2
  resting := (Function.forall_update_iff alone fun _ s => s.Resting p).2 ⟨hrest, fun d _ => h.resting d⟩
  shared := hrest'

/-- A request that is answered to a client alone is answered in the shared session. -/
theorem Shares.answers (hp : p.Anonymous use)
    (htr : ∀ label key, Transparent ((p label).body key))
    (hown : ∀ c d n, own c n → own d n → c = d) (h : Shares p use own alone ρ births s)
    (hvisit : visit.request.KeepsTo p use (own visit.client)) {limits : Limits}
    (hanswered : ((alone visit.client).report p limits visit.step).1.answer ≠ .pending) :
    ∃ bound report s₁ ρ₁ births₁, (∀ limits' : Limits, bound ≤ limits'.steps → bound ≤ limits'.polls →
        s.report p limits' visit.step = (report, s₁)) ∧
      ρ visit.client ⊆ ρ₁ ∧
      (visit.request.asks = true → ∀ π, ρ₁.Admits π →
        report.answer = ((alone visit.client).report p limits visit.step).1.answer.rename π) ∧
      Shares p use own
        (Function.update alone visit.client ((alone visit.client).report p limits visit.step).2)
        (Function.update ρ visit.client ρ₁) births₁ s₁ := by
  have hstrict : ∀ label key, Strict ((p label).body key) := fun label key => (htr label key).strict
  obtain ⟨answer, v₁, hrun⟩ := ready_of_step hanswered
  obtain ⟨bound, answer', ρ₁, births₁, w₁, hruns, hρ, hanswers, hjoined, ⟨hv₁, hw₁⟩, hserves⟩ :=
    (h.joined visit.client).serves hp htr (h.resting visit.client).world h.shared.world hvisit
      (s.tokenFor visit.token).1 hrun
  have hruns' := hruns bound bound (Nat.le_refl _) (Nat.le_refl _)
  have hreport : (alone visit.client).report p limits visit.step = _ := report_of_ready hrun
  have hreport' : s.report p ⟨bound, bound⟩ visit.step = _ := report_of_ready hruns'
  have hrest : ((alone visit.client).report p limits visit.step).2.Resting p :=
    (h.resting visit.client).report hstrict hvisit.takesTurns hrun hv₁
  have hrest' : (s.report p ⟨bound, bound⟩ visit.step).2.Resting p :=
    h.shared.report hstrict hvisit.takesTurns hruns' hw₁
  have hv₂ : ((alone visit.client).report p limits visit.step).2.world = v₁.handOut := by
    rw [hreport]
    rfl
  have hw₂ : (s.report p ⟨bound, bound⟩ visit.step).2.world = w₁.handOut := by
    rw [hreport']
    rfl
  refine ⟨bound, (s.report p ⟨bound, bound⟩ visit.step).1, (s.report p ⟨bound, bound⟩ visit.step).2, ρ₁,
    World.settled births₁ (s.report p ⟨bound, bound⟩ visit.step).2.world,
    fun limits' hsteps hpolls => ?_, hρ, fun hasks π hπ => ?_, h.served hown hrest hrest' ?_ ?_⟩
  · exact (report_of_ready (hruns _ _ hsteps hpolls)).trans hreport'.symm
  · rw [hreport, hreport', hanswers hasks π hπ]
    exact Answer.ofResult_rename π answer
  · have hlinked := hv₂ ▸ hrest.world.linked
    have hlinked' := hw₂ ▸ hrest'.world.linked
    rw [hv₂, hw₂]
    exact hjoined.handOut hlinked hlinked'
  · rw [hw₂]
    exact hserves.handOut

/-- The requests of all clients are answered in the shared session, the queries of each client as they
    are to the client alone. -/
theorem Shares.runs (hp : p.Anonymous use) (htr : ∀ label key, Transparent ((p label).body key))
    (hown : ∀ c d n, own c n → own d n → c = d) (h : Shares p use own alone ρ births s)
    {visits : List (Visit C)} (hvisits : ∀ visit ∈ visits, visit.request.KeepsTo p use (own visit.client))
    {limits : Limits} (hanswered : ∀ c, ∀ report ∈ (alone c).reports p limits
      ((visitsOf c visits).map Visit.step), report.answer ≠ .pending) :
    ∃ bound, ∃ ρ' : C → Renaming, (∀ c, ρ c ⊆ ρ' c ∧ (ρ' c).Consistent) ∧ ∀ limits' : Limits,
      bound ≤ limits'.steps → bound ≤ limits'.polls → ∀ c π, (ρ' c).Admits π →
        s.answersTo p limits' c visits =
          ((alone c).answersTo p limits c (visitsOf c visits)).map (Answer.rename π) := by
  induction visits generalizing alone ρ births s with
  | nil =>
    exact ⟨0, ρ, fun c => ⟨List.Subset.refl _, (h.joined c).consistent⟩, fun _ _ _ _ _ _ => rfl⟩
  | cons visit visits ih =>
    obtain ⟨hvisit, hvisits⟩ := List.forall_mem_cons.1 hvisits
    have hself := hanswered visit.client
    rw [visitsOf_cons_self] at hself
    obtain ⟨hfirst, hrest⟩ := List.forall_mem_cons.1 hself
    obtain ⟨bound, report, s₁, ρ₁, births₁, hreport, hρ₁, halike, hshares⟩ :=
      h.answers hp htr hown hvisit hfirst
    -- the client has this request behind it, and the others have all of theirs still before them
    obtain ⟨bound', ρ', hρ', hruns⟩ := ih hshares hvisits fun c => by
      by_cases hc : c = visit.client
      · subst hc
        rw [Function.update_self]
        exact hrest
      · rw [Function.update_of_ne hc, ← visitsOf_cons_other (Ne.symm hc)]
        exact hanswered c
    refine ⟨max bound bound', ρ', fun c => ⟨?_, (hρ' c).2⟩, fun limits' hsteps hpolls c π hπ => ?_⟩
    · have hsub := (hρ' c).1
      by_cases hc : c = visit.client
      · subst hc
        rw [Function.update_self] at hsub
        exact List.Subset.trans hρ₁ hsub
      · rwa [Function.update_of_ne hc] at hsub
    · have hlater := hruns limits' (by omega) (by omega) c π hπ
      have hnow := hreport limits' (by omega) (by omega)
      by_cases hc : c = visit.client
      · subst hc
        -- renamings only grow, so the last one is good for this answer, too
        have hadmits : ρ₁.Admits π := hπ.mono (Function.update_self visit.client ρ₁ ρ ▸ (hρ' _).1)
        rw [Function.update_self] at hlater
        rw [visitsOf_cons_self, answersTo, answersTo, hnow]
        split
        · rename_i hasks
          rw [hlater, halike hasks.2 π hadmits, List.map_cons]
        · exact hlater
      · rw [Function.update_of_ne hc] at hlater
        rw [visitsOf_cons_other (Ne.symm hc), answersTo, hnow, if_neg fun hasks => hc hasks.1.symm]
        exact hlater

end Session

/-- Independent clients do not influence each other. Take a program whose identities have one use each,
    whose bodies are pure and hand on the errors of their calls, and wait for what may be parked. Some
    clients share a system that keeps values. Each of them writes only inputs of its own, and asks only
    for what depends on no others. Whatever requests they make one after the other, in any order: if to
    each client alone, on a system of its own, all of its requests are answered, then in the shared
    system the queries of each client have the very same answers, up to the numbers of allocations. At
    the end the revision is the first one plus the number of the writes that were made. -/
theorem clients_are_independent (hp : p.Anonymous use)
    (htr : ∀ label key, Transparent ((p label).body key)) {own : C → Node → Prop}
    (hown : ∀ c d n, own c n → own d n → c = d) {visits : List (Visit C)}
    (hvisits : ∀ visit ∈ visits, visit.request.KeepsTo p use (own visit.client)) (traced : Bool)
    {limits : Session.Limits} (hanswered : ∀ c, ∀ report ∈ (Session.fresh true traced).reports p limits
      ((visitsOf c visits).map Visit.step), report.answer ≠ .pending) :
    ∃ bound, ∃ π : C → Equiv.Perm Nat, ∀ limits' : Session.Limits,
      bound ≤ limits'.steps → bound ≤ limits'.polls →
        (∀ c, (Session.fresh true traced).answersTo p limits' c visits =
          ((Session.fresh true traced).answersTo p limits c (visitsOf c visits)).map
            (Answer.rename (π c))) ∧
        ((Session.fresh true traced).after p limits' (visits.map Visit.step)).world.revision =
          .start + ((Session.fresh true traced).commits p limits' (visits.map Visit.step)).length := by
  obtain ⟨bound, ρ, hρ, hruns⟩ :=
    (Session.shares_fresh p use own traced).runs hp htr hown hvisits hanswered
  choose π hπ using fun c => (hρ c).2
  refine ⟨bound, π, fun limits' hsteps hpolls => ⟨fun c => hruns limits' hsteps hpolls c (π c) (hπ c), ?_⟩⟩
  have hstored := (Session.stored_fresh p true traced).after limits' (visits.map Visit.step)
  exact hstored.revision

end Clients

/-! ## Two clients -/

/-- A rate that is the same for all. -/
def rateQuery : Query where
  id := ⟨"rate"⟩
  valueType := .int
  equality := Equality.content.same
  body := fun _ => .done (.ok (.int 3))

/-- An amount at that rate. -/
def dueQuery : Query where
  id := ⟨"due"⟩
  valueType := .int
  equality := Equality.content.same
  body := fun key => .perform (.read ⟨"amount"⟩ .int key) fun
    | .ok (.int n) => .call .awaited "rate" .unit (thenInteger fun rate => n * rate)
    | .ok _ => .done (.ok (.int 0))
    | .error e => .done (.error e)

/-- What is due for the amount of each client. -/
def billing : Program := either "rate" rateQuery dueQuery

def billingUses : Usages := fun query =>
  if query = ⟨"amount"⟩ then ⟨.input, .int, .int⟩
  else if query = ⟨"rate"⟩ then ⟨.derived, .unit, .int⟩
  else ⟨.derived, .int, .int⟩

theorem renamed_thenInteger {π : Equiv.Perm Nat} {yields : Prop} (f : Int → Int)
    {r : Except QueryError Value} (hr : ∀ v, r = .ok v → v.type = .int) :
    Renamed p use π yields .int (thenInteger f r) (thenInteger f (r.map (Value.rename π))) := by
  cases r with
  | error e => exact .done nofun
  | ok v =>
    have hv := hr v rfl
    cases v <;> cases hv
    exact .done fun w hw => by cases hw; rfl

theorem billing_anonymous : billing.Anonymous billingUses where
  derived := either_cases "rate" (fun query => (billingUses query.id).kind = .derived) rfl rfl
  valueType := either_cases "rate" (fun query => (billingUses query.id).valueType = query.valueType) rfl rfl
  shared label label' hid := by
    unfold billing either at hid ⊢
    split at hid <;> split at hid <;> simp_all [rateQuery, dueQuery]
  equality π label v w _ _ := by
    have hequality : (billing label).equality = Equality.content.same :=
      either_cases "rate" (fun query => query.equality = Equality.content.same) rfl rfl label
    rw [hequality]
    exact Equality.content.same_rename π v w
  body π label key hkey := by
    by_cases hlabel : label = "rate"
    · subst hlabel
      exact .done fun v hv => by cases hv; rfl
    · have hdue : billing label = dueQuery := if_neg hlabel
      rw [hdue] at hkey ⊢
      have htyped : billingUses ⟨"amount"⟩ = ⟨.input, key.type, .int⟩ := by
        rw [hkey]
        rfl
      refine .read htyped fun r hr => ?_
      cases r with
      | error e => exact .done nofun
      | ok v =>
        have hv := hr v rfl
        cases v <;> cases hv
        exact .call rfl (fun _ => rfl) fun r hr => renamed_thenInteger _ hr

theorem billing_transparent (label : Label) (key : Key) : Transparent ((billing label).body key) := by
  refine either_cases "rate" (fun query => Transparent (query.body key)) (.done _) ?_ label
  refine .perform fun r => ?_
  rcases r with e | v
  · exact .done _
  · cases v with
    | int n => exact .call (fun e => rfl) fun v => transparent_thenInteger _ _
    | _ => exact .done _

/-- What is due refers to the amount, and to the rate. -/
theorem billing_refers {m n : Node} (h : billing.Refers m n) :
    m.query = ⟨"due"⟩ ∧ (n = ⟨⟨"amount"⟩, m.key⟩ ∨ n = ⟨⟨"rate"⟩, .unit⟩) := by
  obtain ⟨label, hid, hmentions⟩ := h
  by_cases hlabel : label = "rate"
  · subst hlabel
    cases hmentions
  · have hdue : billing label = dueQuery := if_neg hlabel
    rw [hdue] at hid hmentions
    refine ⟨hid.symm, ?_⟩
    cases hmentions with
    | read => exact .inl rfl
    | performed r h =>
      rcases r with e | v
      · cases h
      · cases v with
        | int k =>
          cases h with
          | call => exact .inr rfl
          | called r h =>
            rcases r with e | v
            · cases h
            · cases v <;> cases h
        | _ => cases h

/-- Each client has an amount. -/
def ownAmount (c : Int) (n : Node) : Prop := n = ⟨⟨"amount"⟩, .int c⟩

theorem billing_readsOnly (c : Int) : billing.ReadsOnly billingUses (ownAmount c) ⟨⟨"due"⟩, .int c⟩ := by
  intro m hpath hinput
  rcases hpath.cases_head with rfl | ⟨k, hrefers, hrest⟩
  · cases hinput
  · obtain ⟨-, hk⟩ := billing_refers hrefers
    rcases hrest.cases_head with rfl | ⟨l, hrefers', -⟩
    · rcases hk with rfl | rfl
      · rfl
      · cases hinput
    · obtain ⟨hdue, -⟩ := billing_refers hrefers'
      rcases hk with rfl | rfl <;> simp at hdue

/-- A client writes its amount. -/
def settles (c amount : Int) : Visit Int :=
  ⟨c, .write .blocking ⟨"amount"⟩ (.int c) (.int amount), none⟩

/-- A client asks what is due. -/
def asksDue (c : Int) : Visit Int := ⟨c, .query .blocking "due" (.int c), none⟩

/-- Two clients, in turns. -/
def twoClients : List (Visit Int) :=
  [settles 1 5, asksDue 1, settles 2 8, asksDue 2, asksDue 1, settles 2 9, asksDue 2, asksDue 1]

theorem settles_keepsTo (c amount : Int) :
    (settles c amount).request.KeepsTo billing billingUses (ownAmount c) :=
  .write nofun rfl rfl

theorem asksDue_keepsTo (c : Int) : (asksDue c).request.KeepsTo billing billingUses (ownAmount c) :=
  .query nofun rfl (billing_readsOnly c)

/-- A request is not answered yet. -/
def Answer.isPending : Answer → Bool
  | .pending => true
  | _ => false

theorem twoClients_answered (c : Int) : ∀ report ∈ (Session.fresh true true).reports billing ⟨40, 3⟩
    ((visitsOf c twoClients).map Visit.step), report.answer ≠ .pending := by
  have hall : ((Session.fresh true true).reports billing ⟨40, 3⟩
      ((visitsOf c twoClients).map Visit.step)).all (fun report => !report.answer.isPending) = true := by
    by_cases hfirst : c = 1
    · subst hfirst
      decide +kernel
    · by_cases hsecond : c = 2
      · subst hsecond
        decide +kernel
      · have hnone : visitsOf c twoClients = [] := by
          simp [visitsOf, twoClients, settles, asksDue, Ne.symm hfirst, Ne.symm hsecond]
        rw [hnone]
        rfl
  intro report hreport hpending
  have hone := List.all_eq_true.1 hall report hreport
  rw [hpending] at hone
  cases hone

/-- The integer in an answer. -/
def Answer.integer? : Answer → Option Int
  | .reply (.value (.int n)) => some n
  | _ => none

/-- The integers that a client is answered to its queries. -/
def integersTo (p : Program) (c : Int) (visits : List (Visit Int)) : List (Option Int) :=
  ((Session.fresh true true).answersTo p ⟨40, 3⟩ c visits).map Answer.integer?

example : integersTo billing 1 twoClients = [some 15, some 15, some 15] ∧
    integersTo billing 2 twoClients = [some 24, some 27] := by decide +kernel

/-- Both clients are answered what is due for their own amounts. -/
theorem twoClients_independent :
    (∀ c d n, ownAmount c n → ownAmount d n → c = d) ∧
    (∀ visit ∈ twoClients, visit.request.KeepsTo billing billingUses (ownAmount visit.client)) ∧
    ∃ bound, ∃ π : Int → Equiv.Perm Nat, ∀ limits' : Session.Limits,
      bound ≤ limits'.steps → bound ≤ limits'.polls →
        (∀ c, (Session.fresh true true).answersTo billing limits' c twoClients =
          ((Session.fresh true true).answersTo billing ⟨40, 3⟩ c (visitsOf c twoClients)).map
            (Answer.rename (π c))) ∧
        ((Session.fresh true true).after billing limits' (twoClients.map Visit.step)).world.revision =
          .start + ((Session.fresh true true).commits billing limits'
            (twoClients.map Visit.step)).length := by
  have hown : ∀ c d n, ownAmount c n → ownAmount d n → c = d := by
    rintro c d n rfl h
    simpa [ownAmount] using h
  have hvisits : ∀ visit ∈ twoClients,
      visit.request.KeepsTo billing billingUses (ownAmount visit.client) := by
    rw [twoClients]
    simp only [List.forall_mem_cons]
    exact ⟨settles_keepsTo 1 5, asksDue_keepsTo 1, settles_keepsTo 2 8, asksDue_keepsTo 2,
      asksDue_keepsTo 1, settles_keepsTo 2 9, asksDue_keepsTo 2, asksDue_keepsTo 1,
      fun _ h => absurd h List.not_mem_nil⟩
  refine ⟨hown, hvisits, clients_are_independent billing_anonymous billing_transparent hown hvisits true
    twoClients_answered⟩

/-! ## Clients that are not independent -/

/-- A client asks for a value without an argument. -/
def asks (c : Int) (label : Label) : Visit Int := ⟨c, .query .blocking label .unit, none⟩

/-- Two constants that have one identity. -/
def homonyms : Program := fun label =>
  { id := ⟨"constant"⟩
    valueType := .int
    equality := Equality.content.same
    body := fun _ => .done (.ok (.int (if label = "one" then 1 else 2))) }

/-- The length of a text. -/
def measuring : Program := fun _ =>
  { id := ⟨"length"⟩
    valueType := .int
    equality := Equality.content.same
    body := fun key => .perform (.read ⟨"text"⟩ .str key) fun
      | .ok (.str text) => .done (.ok (.int text.length))
      | .ok _ => .done (.ok (.int 0))
      | .error e => .done (.error e) }

/-- A constant that takes a while. -/
def slowQuery : Query where
  id := ⟨"slow"⟩
  valueType := .int
  equality := Equality.content.same
  body := fun _ => .yield (.done (.ok (.int 5)))

/-- The same for those who cannot wait. -/
def hastyQuery : Query where
  id := ⟨"hasty"⟩
  valueType := .int
  equality := Equality.content.same
  body := fun _ => .call .immediate "slow" .unit .done

def hurried : Program := either "slow" slowQuery hastyQuery

theorem homonyms_refers {m n : Node} : ¬homonyms.Refers m n := by
  rintro ⟨label, -, hmentions⟩
  cases hmentions

theorem measuring_refers {m n : Node} (h : measuring.Refers m n) : n = ⟨⟨"text"⟩, m.key⟩ := by
  obtain ⟨label, -, hmentions⟩ := h
  cases hmentions with
  | read => rfl
  | performed r h =>
    rcases r with e | v
    · cases h
    · cases v <;> cases h

theorem hurried_refers {m n : Node} (h : hurried.Refers m n) : n = ⟨⟨"slow"⟩, .unit⟩ := by
  obtain ⟨label, -, hmentions⟩ := h
  have hboth : ∀ {n}, Mentions hurried ((hurried label).body m.key) n → n = ⟨⟨"slow"⟩, .unit⟩ := by
    refine either_cases "slow" (fun query => ∀ {n}, Mentions hurried (query.body m.key) n →
      n = ⟨⟨"slow"⟩, .unit⟩) (fun hslow => ?_) (fun hhasty => ?_) label
    · cases hslow with
      | yielded h => cases h
    · cases hhasty with
      | call => rfl
      | called r h => cases h
  exact hboth hmentions

theorem measuring_transparent (label : Label) (key : Key) :
    Transparent ((measuring label).body key) := by
  refine .perform fun r => ?_
  rcases r with e | v
  · exact .done _
  · cases v <;> exact .done _

theorem hurried_transparent (label : Label) (key : Key) : Transparent ((hurried label).body key) :=
  either_cases "slow" (fun query => Transparent (query.body key)) (.yield (.done _))
    (.call (fun _ => rfl) fun _ => .done _) label

/-- The first client asks for the one constant, the second one for the other. -/
def bothConstants : List (Visit Int) := [asks 1 "one", asks 2 "two"]

/-- The text of the first client is a number, and the second one asks for the length of its own. -/
def bothTexts : List (Visit Int) :=
  [⟨1, .write .blocking ⟨"text"⟩ (.int 1) (.int 7), none⟩,
    ⟨2, .write .blocking ⟨"text"⟩ (.int 2) (.str "abc"), none⟩,
    ⟨2, .query .blocking "length" (.int 2), none⟩]

/-- The first client waits for the constant. -/
def bothSpeeds : List (Visit Int) := [asks 1 "slow", asks 2 "hasty"]

/-- Clients may influence each other if an identity has two uses: the query that comes first is the one
    whose body is run, and the type that comes first is the only one that is accepted. They may also if
    a call cannot wait for what may be parked: it succeeds if somebody else has waited before. -/
theorem clients_interfere :
    ((∀ m n, ¬homonyms.Refers m n) ∧
      integersTo homonyms 2 (visitsOf 2 bothConstants) = [some 2] ∧
      integersTo homonyms 2 bothConstants = [some 1]) ∧
    ((∀ label key, Transparent ((measuring label).body key)) ∧
      (∀ m n, measuring.Refers m n → n = ⟨⟨"text"⟩, m.key⟩) ∧
      integersTo measuring 2 (visitsOf 2 bothTexts) = [some 3] ∧
      integersTo measuring 2 bothTexts = [none]) ∧
    (∀ label key, Transparent ((hurried label).body key)) ∧
      (∀ m n, hurried.Refers m n → n = ⟨⟨"slow"⟩, .unit⟩) ∧
      integersTo hurried 2 (visitsOf 2 bothSpeeds) = [none] ∧
      integersTo hurried 2 bothSpeeds = [some 5] := by
  refine ⟨⟨fun m n => homonyms_refers, ?_⟩, ⟨measuring_transparent, fun m n => measuring_refers, ?_⟩,
    hurried_transparent, fun m n => hurried_refers, ?_⟩ <;> decide +kernel

end RedGreen
