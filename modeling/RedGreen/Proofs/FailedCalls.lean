import RedGreen.Proofs.CheckedShortcuts

set_option autoImplicit false

/-! # Calls that fail

What a failed call does to a system that keeps values, as long as no shortcut is wrong: where a body goes
on after the failure, what it ends with is not kept for too long (`recovered_values_are_plain`), and a
dependency that fails while it is brought up to date has the effect that the body would give it
(`failing_dependency_is_plain`). The two histories in which shortcuts are wrong show that neither holds
otherwise. -/

namespace RedGreen

variable {p : Program} {use : Usages} {same : Indistinct}

/-! ## Failures in the middle -/

/-- An input that must not be negative. -/
def guardedQuery : Query where
  id := ⟨"guarded"⟩
  valueType := .int
  equality := Equality.content.same
  body := fun _ => .perform (.read ⟨"x"⟩ .int .unit) fun
    | .ok (.int n) => .done (if n < 0 then .error (.failed "negative") else .ok (.int n))
    | .ok _ => .done (.ok (.int 0))
    | .error e => .done (.error e)

/-- The guarded value. If it is a failure, an integer may be put in its place. -/
def relayQuery (name : String) (instead : Option Int) : Query where
  id := ⟨name⟩
  valueType := .int
  equality := Equality.content.same
  body := fun _ => .call .awaited "guarded" .unit fun
    | .error (.computationFailed failure) =>
      .done (match instead with
        | some n => .ok (.int n)
        | none => .error (.computationFailed failure))
    | r => .done r

/-- The guarded query, one that hands its failure on, and others that recover from it. -/
def fallbackQuery (name : String) : Query :=
  if name = "guarded" then guardedQuery
  else relayQuery name (if name = "relayed" then none else if name = "settled" then some 5 else some (-1))

/-- Labels without a query of their own have one in common. -/
def fallbackName (label : Label) : String :=
  if label ∈ ["guarded", "relayed", "settled"] then label else "fallback"

/-- A program of a query that can fail and of queries that call it. -/
def fallback : Program := fun label => fallbackQuery (fallbackName label)

theorem id_fallback (label : Label) : (fallback label).id = ⟨fallbackName label⟩ := by
  unfold fallback fallbackQuery
  split
  · rename_i hname
    rw [hname]
    rfl
  · rfl

theorem fallbackName_ne (label : Label) : fallbackName label ≠ "x" := by
  unfold fallbackName
  split
  · rintro rfl
    exact absurd ‹_› (by decide)
  · decide

theorem fallback_cases (label : Label) : fallback label = guardedQuery ∨
    ∃ name instead, fallback label = relayQuery name instead ∧ name ≠ "guarded" := by
  unfold fallback fallbackQuery
  split
  · exact .inl rfl
  · exact .inr ⟨_, _, rfl, ‹_›⟩

theorem lawful_guarded (key : Key) :
    Lawful fallback integerUses sameInteger False .int (guardedQuery.body key)
      (guardedQuery.body key) := by
  refine .read rfl fun r r' h => ?_
  have hself {n : Int} : Agree (Value.AlikeOf .int)
      (if n < 0 then .error (.failed "negative") else .ok (.int n))
      (if n < 0 then .error (.failed "negative") else .ok (.int n)) := by
    split
    · exact .error _
    · exact .ok (Value.alikeOf_refl rfl)
  cases h with
  | error e => exact .done (.error e)
  | ok h =>
    obtain ⟨hv, rfl⟩ := sameInteger_of_alikeOf h
    rename_i v
    cases v <;> cases hv
    exact .done hself

theorem lawful_relay (name : String) (instead : Option Int) (key : Key) :
    Lawful fallback integerUses sameInteger False .int ((relayQuery name instead).body key)
      ((relayQuery name instead).body key) := by
  refine .call rfl (fun _ => rfl) fun r r' h => ?_
  cases h with
  | error e =>
    cases e with
    | computationFailed failure =>
      cases instead with
      | some n => exact .done (.ok (Value.alikeOf_refl rfl))
      | none => exact .done (.error _)
    | _ => exact .done (.error _)
  | ok h =>
    obtain ⟨hv, rfl⟩ := h
    exact .done (.ok (Value.alikeOf_refl hv))

theorem fallback_pure : fallback.Pure integerUses sameInteger False := by
  refine pure_of_integers (fun label => ?_) (fun label => ?_) (fun _ => rfl)
    (fun label label' hid => ?_) fun label key => ?_
  · rcases fallback_cases label with h | ⟨name, instead, h, -⟩ <;> rw [h] <;> exact ⟨rfl, rfl⟩
  · simp [id_fallback, integerUses, fallbackName_ne]
  · rw [id_fallback, id_fallback] at hid
    rw [fallback, fallback, QueryId.mk.inj hid]
  · rcases fallback_cases label with h | ⟨name, instead, h, -⟩ <;> rw [h]
    · exact lawful_guarded key
    · exact lawful_relay name instead key

theorem calls_guarded {label label' : Label} {key key' : Key}
    (h : Calls ((fallback label).body key) label' key') :
    (fallback label).id ≠ ⟨"guarded"⟩ ∧ (fallback label').id = ⟨"guarded"⟩ := by
  rcases fallback_cases label with hquery | ⟨name, instead, hquery, hname⟩
  · rw [hquery] at h
    cases h with
    | perform r h =>
      rcases r with e | v
      · cases h
      · cases v <;> cases h
  · rw [hquery] at h ⊢
    cases h with
    | here => exact ⟨fun hid => hname (QueryId.mk.inj hid), rfl⟩
    | call r h =>
      rcases r with e | v
      · cases e <;> cases h
      · cases h

theorem fallback_acyclic : fallback.Acyclic := by
  have hdepends {m n : Node} (h : fallback.Depends m n) :
      m.query ≠ ⟨"guarded"⟩ ∧ n.query = ⟨"guarded"⟩ := by
    obtain ⟨label, key, label', key', rfl, hcalls, rfl⟩ := h
    exact calls_guarded hcalls
  have hpath {m n : Node} (h : Relation.TransGen fallback.Depends m n) :
      m.query ≠ ⟨"guarded"⟩ ∧ n.query = ⟨"guarded"⟩ := by
    induction h with
    | single h => exact hdepends h
    | tail _ h ih => exact ⟨ih.1, (hdepends h).2⟩
  intro n h
  obtain ⟨hm, hn⟩ := hpath h
  exact hm hn

/-- Write the input. -/
def writeX (n : Int) : Step := .perform (.write .blocking ⟨"x"⟩ .unit (.int n)) none

/-- Ask for the value of a query. -/
def askFor (label : Label) : Step := .perform (.query .blocking label .unit) none

theorem writeX_sequential (n : Int) : (writeX n).Sequential fallback integerUses :=
  ⟨by simp [Request.Consistent, integerUses, Key.type, Value.type], trivial⟩

theorem askFor_sequential (label : Label) : (askFor label).Sequential fallback integerUses :=
  ⟨rfl, trivial⟩

/-- The integer in an answer. -/
def Session.Report.integer? (report : Session.Report) : Option Int :=
  match report.answer with
  | .reply (.value (.int n)) => some n
  | _ => none

/-- The input is negative for a while. Meanwhile one query recovers, by the value that is right again later,
    and one that has a value fails. -/
def failsMeanwhile : List Step :=
  [writeX 5, askFor "guarded", askFor "relayed", writeX (-1), askFor "settled", askFor "relayed",
    writeX 5, askFor "settled"]

theorem failsMeanwhile_sequential :
    ∀ step ∈ failsMeanwhile, step.Sequential fallback integerUses := by
  intro step hstep
  have hkind : (∃ n, step = writeX n) ∨ ∃ label, step = askFor label := by
    simp only [failsMeanwhile, List.mem_cons, List.not_mem_nil, or_false] at hstep
    rcases hstep with rfl | rfl | rfl | rfl | rfl | rfl | rfl | rfl <;>
      first | exact .inl ⟨_, rfl⟩ | exact .inr ⟨_, rfl⟩
  rcases hkind with ⟨n, rfl⟩ | ⟨label, rfl⟩
  · exact writeX_sequential n
  · exact askFor_sequential label

/-- The second revalidation fails early, and the last one confirms the value that was put in the place of
    the failure: only the guarded query is run. -/
theorem failsMeanwhile_shortens :
    ((Session.fresh true true).reports fallback ⟨40, 3⟩ failsMeanwhile).map
        (fun report => (report.integer?, report.runs.map Prod.fst)) =
      [(none, []), (some 5, ["guarded"]), (some 5, ["relayed"]), (none, []),
        (some 5, ["settled", "guarded"]), (none, ["guarded"]), (none, []), (some 5, ["guarded"])] := by
  decide +kernel

theorem failsMeanwhile_straight :
    (Session.fresh true true).Straight fallback ⟨40, 3⟩ failsMeanwhile :=
  Session.straight_of_staysRight fallback_pure (by decide +kernel)

theorem failsMeanwhile_answered :
    ∀ report ∈ (Session.fresh true true).reports fallback ⟨40, 3⟩ failsMeanwhile,
      report.answer ≠ .pending := by
  intro report hreport hpending
  have hall : ((Session.fresh true true).reports fallback ⟨40, 3⟩ failsMeanwhile).all
      (fun report => match report.answer with | .pending => false | _ => true) = true := by
    decide +kernel
  have hone := List.all_eq_true.1 hall report hreport
  rw [hpending] at hone
  cases hone

/-! ## Values that were recovered -/

/-- Recovering from a failed call freezes no stale answer, as long as no shortcut is wrong. Take a
    program without cycles whose identities have one use each, whose bodies depend only on what they
    read and may go on after errors, and whose equalities for early cutoff hold of values only that
    no body can tell apart. Whatever writes, queries and clears are made one after the other: if a
    system that keeps values answers all of them and is straight, then a system that keeps none
    answers the same value wherever a value was answered. -/
theorem recovered_values_are_plain (hp : p.Pure use same False) (hacyclic : p.Acyclic)
    {steps : List Step} (hsteps : ∀ step ∈ steps, step.Sequential p use) (traced : Bool)
    {limits : Session.Limits} (hstraight : (Session.fresh true traced).Straight p limits steps)
    (hanswered : ∀ report ∈ (Session.fresh true traced).reports p limits steps,
      report.answer ≠ .pending) :
    ∃ bound, ∀ limits' : Session.Limits, bound ≤ limits'.steps → bound ≤ limits'.polls →
      List.Forall₂ (fun report report' => ∀ v, report.answer = .reply (.value v) →
          ∃ v', report'.answer = .reply (.value v') ∧ v.Alike v')
        ((Session.fresh true traced).reports p limits steps)
        ((Session.fresh false traced).reports p limits' steps) := by
  obtain ⟨bound, hreports⟩ := Session.Twins.reports_of_straight hp hacyclic hsteps
    (Session.twins_fresh traced) (World.fair_new true rfl) hstraight hanswered
  refine ⟨bound, fun limits' hbudget hpolls => (hreports limits' hbudget hpolls).imp ?_⟩
  intro report report' halike v hv
  rw [hv] at halike
  generalize report'.answer = answer' at halike
  cases halike with
  | reply h =>
    cases h with
    | value h => exact ⟨_, rfl, h⟩

theorem recovered_values_are_plain_meanwhile :
    (∃ bound, ∀ limits' : Session.Limits, bound ≤ limits'.steps → bound ≤ limits'.polls →
      List.Forall₂ (fun report report' => ∀ v, report.answer = .reply (.value v) →
          ∃ v', report'.answer = .reply (.value v') ∧ v.Alike v')
        ((Session.fresh true true).reports fallback ⟨40, 3⟩ failsMeanwhile)
        ((Session.fresh false true).reports fallback limits' failsMeanwhile)) ∧
    ((Session.fresh true true).reports fallback ⟨40, 3⟩ failsMeanwhile).map
        (fun report => (report.integer?, report.runs.map Prod.fst)) =
      [(none, []), (some 5, ["guarded"]), (some 5, ["relayed"]), (none, []),
        (some 5, ["settled", "guarded"]), (none, ["guarded"]), (none, []), (some 5, ["guarded"])] :=
  ⟨recovered_values_are_plain fallback_pure fallback_acyclic failsMeanwhile_sequential true
    failsMeanwhile_straight failsMeanwhile_answered, failsMeanwhile_shortens⟩

/-- Otherwise it may. The guarded value is kept from before the failure and does not count as changed
    after it, so the value that was put in its place is confirmed. -/
theorem recovered_value_frozen :
    ((Session.fresh true true).reports fallback ⟨40, 3⟩ [writeX 5, askFor "guarded", writeX (-1),
        askFor "fallback", writeX 5, askFor "fallback"]).map Session.Report.integer? =
      [none, some 5, none, some (-1), none, some (-1)] ∧
    ((Session.fresh false true).reports fallback ⟨40, 3⟩ [writeX 5, askFor "guarded", writeX (-1),
        askFor "fallback", writeX 5, askFor "fallback"]).map Session.Report.integer? =
      [none, some 5, none, some (-1), none, some 5] := by
  decide +kernel

/-! ## Dependencies that fail -/

/-- A dependency that fails while it is brought up to date has the effect that the body would give
    it, as long as no shortcut is wrong. Under the same conditions as above: where a system that
    keeps no values answers a value, the one that keeps them does not fail; and where the former
    fails with an error, the latter fails with no other. -/
theorem failing_dependency_is_plain (hp : p.Pure use same False) (hacyclic : p.Acyclic)
    {steps : List Step} (hsteps : ∀ step ∈ steps, step.Sequential p use) (traced : Bool)
    {limits : Session.Limits} (hstraight : (Session.fresh true traced).Straight p limits steps)
    (hanswered : ∀ report ∈ (Session.fresh true traced).reports p limits steps,
      report.answer ≠ .pending) :
    ∃ bound, ∀ limits' : Session.Limits, bound ≤ limits'.steps → bound ≤ limits'.polls →
      List.Forall₂ (fun report report' =>
          (∀ v', report'.answer = .reply (.value v') → ∀ e, report.answer ≠ .failed e) ∧
          ∀ e' e, report'.answer = .failed e' → report.answer = .failed e → e = e')
        ((Session.fresh true traced).reports p limits steps)
        ((Session.fresh false traced).reports p limits' steps) := by
  obtain ⟨bound, hreports⟩ := Session.Twins.reports_of_straight hp hacyclic hsteps
    (Session.twins_fresh traced) (World.fair_new true rfl) hstraight hanswered
  refine ⟨bound, fun limits' hbudget hpolls => (hreports limits' hbudget hpolls).imp ?_⟩
  intro report report' halike
  refine ⟨fun v' hv' e he => ?_, fun e' e he' he => ?_⟩
  · rw [hv', he] at halike
    cases halike
  · rw [he', he] at halike
    cases halike
    rfl

theorem failing_dependency_is_plain_meanwhile :
    (∃ bound, ∀ limits' : Session.Limits, bound ≤ limits'.steps → bound ≤ limits'.polls →
      List.Forall₂ (fun report report' =>
          (∀ v', report'.answer = .reply (.value v') → ∀ e, report.answer ≠ .failed e) ∧
          ∀ e' e, report'.answer = .failed e' → report.answer = .failed e → e = e')
        ((Session.fresh true true).reports fallback ⟨40, 3⟩ failsMeanwhile)
        ((Session.fresh false true).reports fallback limits' failsMeanwhile)) ∧
    ((Session.fresh true true).reports fallback ⟨40, 3⟩ failsMeanwhile).map
        (fun report => (report.integer?, report.runs.map Prod.fst)) =
      [(none, []), (some 5, ["guarded"]), (some 5, ["relayed"]), (none, []),
        (some 5, ["settled", "guarded"]), (none, ["guarded"]), (none, []), (some 5, ["guarded"])] :=
  ⟨failing_dependency_is_plain fallback_pure fallback_acyclic failsMeanwhile_sequential true
    failsMeanwhile_straight failsMeanwhile_answered, failsMeanwhile_shortens⟩

/-- Otherwise it may not. The failure of the guarded value ends the revalidation, and the body that
    would go on after it is not asked. -/
theorem failing_dependency_not_recovered :
    ((Session.fresh true true).reports fallback ⟨40, 3⟩ [writeX 5, askFor "fallback", writeX (-1),
        askFor "fallback"]).map Session.Report.integer? = [none, some 5, none, none] ∧
    ((Session.fresh false true).reports fallback ⟨40, 3⟩ [writeX 5, askFor "fallback", writeX (-1),
        askFor "fallback"]).map Session.Report.integer? = [none, some 5, none, some (-1)] := by
  decide +kernel

end RedGreen
