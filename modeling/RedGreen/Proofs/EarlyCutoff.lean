import RedGreen.Proofs.History
import RedGreen.Proofs.QuotientRequests

set_option autoImplicit false

/-! # Early cutoff is sound up to the equality

A query may count values as unchanged that are not the same: integers of one parity, say. Then a memo
may be kept although what it was computed from has been replaced, many times over, by values that count
as unchanged. If the equalities are symmetric and transitive and the bodies respect them, then whatever
a session with memoization is answered is related by the equality of its query to what a session
without is answered (`memoization_respects_equalities`).

The chain argument through all these replacements is made once, for classes: the quotient of the program
is pure, so memoization is invisible there, and with and without memoization a session of the program is
answered what the session of the quotient is answered, up to codes (`Session.reports_quotient`). -/

namespace RedGreen

variable {p : Program} {use : Usages} {label : Label}

theorem Answer.Alike.answered {answer answer' : Answer} (h : answer.Alike answer') :
    answer ≠ .pending := by
  cases h <;> exact nofun

/-! ## Steps -/

namespace Step

/-- A step for the quotient: it has the same requests, and computed values are lists. -/
noncomputable def quotient (p : Program) (use : Usages) : Step → Step
  | .perform request token => .perform (request.quotient p) token
  | .clearCache query keyType _ before =>
    .clearCache query keyType (use.quotient query).valueType before
  | .clearSlot query _ key before => .clearSlot query (use.quotient query).valueType key before
  | step => step

/-- The label whose value a step asks for. -/
def asked? : Step → Option Label
  | .perform request _ => request.asked?
  | _ => none

/-- What a step is answered, and what it is answered in the quotient. -/
inductive Codes (p : Program) (step : Step) : Answer → Answer → Prop
  | value {label : Label} {v : Value} (asked : step.asked? = some label)
    (typed : v.type = (p label).valueType) :
    Codes p step (.reply (.value v)) (.reply (.value ((p label).encode v)))
  | failed (e : QueryError) : Codes p step (.failed e) (.failed e)
  | same {answer : Answer} (asked : step.asked? = none) : Codes p step answer answer

/-- Answers that are equal or related: values of a query by its equality, up to the identity of lists;
    errors and the answers to other steps are the same, except for how much a clear has dropped. -/
inductive Related (p : Program) (step : Step) : Answer → Answer → Prop
  | value {label : Label} {v v' : Value} (asked : step.asked? = some label)
    (relates : (p label).equality.Relates v v') :
    Related p step (.reply (.value v)) (.reply (.value v'))
  | failed (e : QueryError) : Related p step (.failed e) (.failed e)
  | alike {answer answer' : Answer} (asked : step.asked? = none) (h : answer.Alike answer') :
    Related p step answer answer'

variable {step : Step}

theorem codes_ofResult {request : Request} {token : Option String} {r r' : Except QueryError Reply}
    (h : Agree (request.Codes p) r r') :
    (perform request token).Codes p (.ofResult r) (.ofResult r') := by
  cases h with
  | error e => exact .failed e
  | ok h =>
    cases hasked : request.asked? with
    | none =>
      rw [Request.Codes, hasked] at h
      obtain rfl := h
      exact .same hasked
    | some label =>
      rw [Request.Codes, hasked] at h
      obtain ⟨v, typed, rfl, rfl⟩ := h
      exact .value hasked typed

/-- Steps of the quotient use their identities as they are meant to be used there. -/
theorem sequential_quotient (h : step.Sequential p use) :
    (step.quotient p use).Sequential p.quotient use.quotient := by
  cases step with
  | perform request token =>
    obtain ⟨hconsistent, hasks⟩ := h
    cases request with
    | write access query key value => exact ⟨Usages.quotient_of_input hconsistent, trivial⟩
    | read query valueType key => exact ⟨Usages.quotient_of_input hconsistent, trivial⟩
    | query access label key => exact ⟨hconsistent.trans Usages.keyType_quotient.symm, trivial⟩
    | derive label key equality =>
      exact ⟨⟨hconsistent.1.trans Usages.keyType_quotient.symm, rfl⟩, trivial⟩
    | clear access before => exact ⟨trivial, trivial⟩
    | prepare | touch => exact hasks.elim
  | clearCache query keyType valueType before => exact ⟨h.1.trans Usages.keyType_quotient.symm, rfl⟩
  | clearSlot query valueType key before => exact ⟨h.1.trans Usages.keyType_quotient.symm, rfl⟩
  | spawn | poll | run | drop | cancel | lookAtToken | enter | leave | stack | slots | describe
  | stamps | debug | resultsFor | takeEvents | cache | makeInput | inspect | gatherDeps => exact h.elim

theorem Codes.answered {answer coded : Answer} (h : step.Codes p answer coded)
    (hanswered : answer ≠ .pending) : coded ≠ .pending := by
  cases h with
  | same => exact hanswered
  | value | failed => exact nofun

/-- What is alike for the quotient is related for the program. -/
theorem Codes.related (hp : p.Respectful use) {answer answer' coded coded' : Answer}
    (h : step.Codes p answer coded) (h' : step.Codes p answer' coded') (halike : coded.Alike coded') :
    step.Related p answer answer' := by
  cases h with
  | same asked =>
    cases h' with
    | value asked' => cases asked.symm.trans asked'
    | failed e => exact .alike asked halike
    | same => exact .alike asked halike
  | failed e =>
    cases halike
    cases h' with
    | failed => exact .failed e
    | same => exact .failed e
  | @value label v asked typed =>
    generalize hcoded : Answer.reply (.value ((p label).encode v)) = coded at halike
    cases h' with
    | @value label' v' asked' typed' =>
      obtain rfl := Option.some.inj (asked.symm.trans asked')
      subst hcoded
      cases halike with
      | reply halike =>
        cases halike with
        | value halike =>
          exact .value asked ((Query.alike_encode (hp.regular label) typed typed').1 halike)
    | failed e =>
      subst hcoded
      cases halike
    | same asked' => cases asked.symm.trans asked'

end Step

/-! ## Sessions -/

namespace Session

/-- The session of the quotient. -/
noncomputable def quotient (p : Program) (use : Usages) (s : Session) : Session :=
  { s with world := s.world.quotient p use }

theorem tokenFor_quotient (s : Session) (name : Option String) : (s.quotient p use).tokenFor name =
    ((s.tokenFor name).1, (s.tokenFor name).2.quotient p use) := by
  cases name with
  | none => rfl
  | some name =>
    simp only [tokenFor, quotient]
    cases s.tokens.get? name <;> rfl

/-- Between two steps: the entry lock is free, and the values that are kept have codes. -/
structure Codable (p : Program) (use : Usages) (s : Session) : Prop where
  world : s.world.Codable p use
  free : s.world.entryLocked = false

/-- Where a step leads, and the step of the quotient: both are pending, or both are answered. -/
inductive StepCodes (p : Program) (use : Usages) (step : Step) :
    Answer × Session → Answer × Session → Prop
  | answered {answer answer' : Answer} {s : Session} (codes : step.Codes p answer answer')
    (codable : s.Codable p use) : StepCodes p use step (answer, s) (answer', s.quotient p use)
  | pending {s s' : Session} : StepCodes p use step (.pending, s) (.pending, s')

variable (hp : p.Respectful use) (hhonest : p.Honest) {s : Session}
include hp hhonest

theorem step_quotient (h : s.Codable p use) (limits : Limits) {step : Step}
    (hstep : step.Sequential p use) :
    StepCodes p use step (s.step p limits step)
      ((s.quotient p use).step p.quotient limits (step.quotient p use)) := by
  cases step with
  | perform request token =>
    have hrun := Task.run_quotient hp hhonest (t := (s.tokenFor token).1) h.world h.free hstep.1 hstep.2
      limits.steps limits.polls
    have hworld : ((s.tokenFor token).2.quotient p use).world = s.world.quotient p use := by
      rw [← s.world_tokenFor token]
      rfl
    simp only [step, Step.quotient, tokenFor_quotient, world_tokenFor, hworld]
    generalize Task.run p limits.steps limits.polls _ s.world = out at hrun ⊢
    generalize Task.run p.quotient limits.steps limits.polls _ (s.world.quotient p use) = out' at hrun ⊢
    cases hrun with
    | ready agree codable free => exact .answered (Step.codes_ofResult agree) ⟨codable, free⟩
    | pending => exact .pending
  | clearCache query keyType valueType before =>
    obtain ⟨hkey, rfl⟩ := hstep
    obtain ⟨w₁, hopen, ht, hgrows, -, -, hlocked⟩ := World.openCache_spec h.world.typed.tidy hkey rfl
    have hopen' := World.openCache_quotient h.world.typed.tidy hkey
    rw [hopen] at hopen'
    have hedits := World.edits_openCache (p := p) s.world query keyType (use query).valueType
    obtain ⟨ht₂, hclears⟩ := World.clearCache_spec ht query before
    rw [hopen] at hedits
    have hcoherent := h.world.coherent.drops (fun i m hm => (hgrows.memo i).symm.trans hm) hgrows.written
      (World.allocations_le_of_edits hedits)
    simp only [step, Step.quotient, quotient, hopen, hopen', World.clearCache_quotient]
    exact .answered (.same rfl) ⟨⟨(h.world.typed.grows ht hgrows).clears ht₂ hclears,
      hclears.coherent hcoherent (Nat.le_refl _)⟩, hlocked.trans h.free⟩
  | clearSlot query valueType key before =>
    obtain ⟨hkey, rfl⟩ := hstep
    obtain ⟨w₁, hopen, ht, hgrows, -, -, hlocked⟩ := World.openCache_spec h.world.typed.tidy hkey rfl
    have hopen' := World.openCache_quotient h.world.typed.tidy hkey
    rw [hopen] at hopen'
    have hedits := World.edits_openCache (p := p) s.world query key.type (use query).valueType
    obtain ⟨ht₂, hclears, -, hlocked₂⟩ := World.clearSlot_spec ht query key before
    rw [hopen] at hedits
    have hcoherent := h.world.coherent.drops (fun i m hm => (hgrows.memo i).symm.trans hm) hgrows.written
      (World.allocations_le_of_edits hedits)
    simp only [step, Step.quotient, quotient, hopen, hopen', World.clearSlot_quotient]
    exact .answered (.same rfl) ⟨⟨(h.world.typed.grows ht hgrows).clears ht₂ hclears,
      hclears.coherent hcoherent (World.allocations_le_of_edits
        (World.edits_clearSlot (p := p) w₁ query key before))⟩, hlocked₂.trans (hlocked.trans h.free)⟩
  | spawn | poll | run | drop | cancel | lookAtToken | enter | leave | stack | slots | describe
  | stamps | debug | resultsFor | takeEvents | cache | makeInput | inspect | gatherDeps =>
    exact hstep.elim

/-- What a session is asked, the session of the quotient is answered, coded. -/
theorem reports_quotient (h : s.Codable p use) (limits : Limits) {steps : List Step}
    (hsteps : ∀ step ∈ steps, step.Sequential p use)
    (hanswered : (∀ report ∈ s.reports p limits steps, report.answer ≠ .pending) ∨
      ∀ report ∈ (s.quotient p use).reports p.quotient limits (steps.map (Step.quotient p use)),
        report.answer ≠ .pending) :
    List.Forall₂ (fun (asked : Step × Report) coded => asked.1.Codes p asked.2.answer coded.answer)
      (steps.zip (s.reports p limits steps))
      ((s.quotient p use).reports p.quotient limits (steps.map (Step.quotient p use))) := by
  induction steps generalizing s with
  | nil => exact .nil
  | cons step steps ih =>
    have hstep := step_quotient hp hhonest h limits (hsteps step List.mem_cons_self)
    simp only [List.map_cons, reports, report, List.zip_cons_cons, List.mem_cons, forall_eq_or_imp]
      at hanswered ⊢
    generalize s.step p limits step = out at hstep hanswered ⊢
    generalize (s.quotient p use).step p.quotient limits (step.quotient p use) = out' at hstep hanswered ⊢
    cases hstep with
    | pending => exact absurd rfl (hanswered.elim And.left And.left)
    | @answered answer answer' s₁ codes codable =>
      refine .cons codes ?_
      have hcodable : Codable p use { s₁ with
          world := { s₁.world with journal := [] }
          collector := s₁.collector.recordAll s₁.world.journal.events } :=
        ⟨codable.world.alters ⟨rfl, rfl, rfl, rfl, rfl, rfl⟩ (Nat.le_refl _), codable.free⟩
      exact ih hcodable (fun st hst => hsteps st (List.mem_cons_of_mem _ hst))
        (hanswered.imp And.right And.right)

omit hhonest in
/-- If two quotients answer alike, then what they are quotients of answers related. -/
theorem related_of_codes {steps : List Step} {reports reports' coded coded' : List Report}
    (hlength : reports'.length = steps.length)
    (hcodes : List.Forall₂ (fun (asked : Step × Report) coded =>
      asked.1.Codes p asked.2.answer coded.answer) (steps.zip reports) coded)
    (hcodes' : List.Forall₂ (fun (asked : Step × Report) coded =>
      asked.1.Codes p asked.2.answer coded.answer) (steps.zip reports') coded')
    (halike : List.Forall₂ (fun report report' => report.answer.Alike report'.answer) coded coded') :
    List.Forall₂ (fun (asked : Step × Report) report' =>
      asked.1.Related p asked.2.answer report'.answer) (steps.zip reports) reports' := by
  induction steps generalizing reports reports' coded coded' with
  | nil =>
    rw [List.eq_nil_of_length_eq_zero hlength]
    exact .nil
  | cons step steps ih =>
    cases reports' with
    | nil => cases hlength
    | cons report' reports' =>
      cases hcodes' with
      | cons code' hcodes' =>
        cases halike with
        | cons alike halike =>
          cases reports with
          | nil => cases hcodes
          | cons report reports =>
            cases hcodes with
            | cons code hcodes =>
              exact .cons (code.related hp code' alike)
                (ih (Nat.succ.inj hlength) hcodes hcodes' halike)

omit hp hhonest in
theorem answered_of_codes {steps : List Step} {reports coded : List Report}
    (hcodes : List.Forall₂ (fun (asked : Step × Report) coded =>
      asked.1.Codes p asked.2.answer coded.answer) (steps.zip reports) coded)
    (hanswered : ∀ report ∈ reports, report.answer ≠ .pending) :
    ∀ report ∈ coded, report.answer ≠ .pending := by
  have hboth := (List.forall₂_and_left _ _).2 ⟨fun asked hasked =>
    hanswered asked.2 (List.of_mem_zip hasked).2, hcodes⟩
  have hright : List.Forall₂ (fun (coded : Report) (_ : Step × Report) => coded.answer ≠ .pending ∧ True)
      coded (steps.zip reports) :=
    List.Forall₂.flip (hboth.imp fun _ _ h => ⟨h.2.answered h.1, trivial⟩)
  exact ((List.forall₂_and_left _ _).1 hright).1

omit hp hhonest in
theorem length_reports (limits : Limits) (s : Session) (steps : List Step) :
    (s.reports p limits steps).length = steps.length := by
  induction steps generalizing s with
  | nil => rfl
  | cons step steps ih => exact congrArg Nat.succ (ih _)

omit hp hhonest in
/-- A new session keeps nothing. -/
theorem codable_fresh (memoize traced : Bool) : (Session.fresh memoize traced).Codable p use :=
  ⟨⟨⟨.new memoize, nofun⟩, ⟨nofun, .cons nofun .nil, fun g hg n items hn => by
    obtain rfl := List.mem_singleton.1 hg
    obtain ⟨i, ⟨m, hm, -⟩ | ⟨x, hx, -⟩⟩ := hn
    · cases hm
    · cases hx⟩⟩, rfl⟩

end Session

/-- Early cutoff is sound up to the equality of each query. Take a program whose identities have one use
    each and whose bodies hand on the errors of their calls. Let every equality for early cutoff be
    symmetric and transitive, but not necessarily reflexive, and let the bodies respect them: answered
    with equal inputs and with values of their callees that are equal or related, a body asks for the
    same in the same order and ends with the same error or with values that are equal or related by its
    own equality. Whatever writes, queries and clears are made one after the other: if a system that
    keeps no values answers all of them, then a system that keeps values answers each query with a value
    that is equal to that answer or related to it by the equality of the query, or with the same error,
    as soon as the limits of its polls are large enough. -/
theorem memoization_respects_equalities (hp : p.Respectful use) (hhonest : p.Honest)
    (htr : ∀ label key, Transparent ((p label).body key)) {steps : List Step}
    (hsteps : ∀ step ∈ steps, step.Sequential p use) (traced : Bool) {limits' : Session.Limits}
    (hanswered : ∀ report ∈ (Session.fresh false traced).reports p limits' steps,
      report.answer ≠ .pending) :
    ∃ bound, ∀ limits : Session.Limits, bound ≤ limits.steps → bound ≤ limits.polls →
      List.Forall₂ (fun (asked : Step × Session.Report) report' =>
          asked.1.Related p asked.2.answer report'.answer)
        (steps.zip ((Session.fresh true traced).reports p limits steps))
        ((Session.fresh false traced).reports p limits' steps) := by
  have hfresh (memoize : Bool) :
      (Session.fresh memoize traced).quotient p use = Session.fresh memoize traced := rfl
  have hplain := Session.reports_quotient hp hhonest (Session.codable_fresh false traced) limits' hsteps
    (.inl hanswered)
  rw [hfresh] at hplain
  have hsteps' : ∀ step ∈ steps.map (Step.quotient p use),
      step.Sequential p.quotient use.quotient := by
    rw [List.forall_mem_map]
    exact fun step hmem => Step.sequential_quotient (hsteps step hmem)
  obtain ⟨bound, hbound⟩ := Session.Twins.reports hp.pure_quotient
    (fun label key => p.transparent_encodeBody (p label) (htr label key)) hsteps'
    (Session.twins_fresh traced) (World.sound_new true rfl) (Session.answered_of_codes hplain hanswered)
  refine ⟨bound, fun limits hbudget hpolls => ?_⟩
  have halike := hbound limits hbudget hpolls
  have hcoded := ((List.forall₂_and_left _ _).1 (halike.imp fun _ _ h => ⟨h.answered, h⟩)).1
  have hmemo := Session.reports_quotient hp hhonest (Session.codable_fresh true traced) limits hsteps
    (.inr hcoded)
  exact Session.related_of_codes hp (Session.length_reports limits' _ steps) hmemo hplain halike

/-! ## A query that is compared by parity -/

/-- An input, of which only the parity counts. -/
def readingQuery : Query where
  id := ⟨"reading"⟩
  valueType := .int
  equality := Equality.parity.same
  body := fun _ => .perform (.read ⟨"x"⟩ .int .unit) (thenInteger id)

/-- What is left of it when it is divided by two. -/
def remainderQuery : Query where
  id := ⟨"remainder"⟩
  valueType := .int
  equality := Equality.content.same
  body := fun _ => .call .awaited "reading" .unit (thenInteger (· % 2))

/-- A program of the two. -/
def parities : Program := either "reading" readingQuery remainderQuery

theorem honest_thenInteger (g : Lists) (f : Int → Int) (r : Except QueryError Value) :
    Honest g (thenInteger f r) := by
  unfold thenInteger
  split
  · exact .done fun v hv => by cases hv; exact nofun
  · exact .done fun v hv => by cases hv; exact nofun
  · exact .done nofun

theorem parities_honest : parities.Honest := fun label key =>
  either_cases "reading" (fun query => Honest .none (query.body key))
    (.perform fun _ => honest_thenInteger _ _ _)
    (.call (fun _ => honest_thenInteger _ _ _) fun _ => honest_thenInteger _ _ _) label

theorem parities_transparent (label : Label) (key : Key) : Transparent ((parities label).body key) := by
  refine either_cases "reading" (fun query => Transparent (query.body key)) ?_ ?_ label
  · exact .perform (transparent_thenInteger _)
  · exact .call (fun _ => rfl) fun _ => transparent_thenInteger _ _

/-- Integers that are related by parity leave the same when they are divided by two. -/
theorem emod_two_of_relates {m n : Int}
    (h : Equivalence.Relates Equality.parity.same (.int m) (.int n)) : m % 2 = n % 2 := by
  rcases (Equivalence.relates_iff_of_content fun _ _ _ _ => Equality.same_congr (by decide)).1 h with h | h
  · cases h
    rfl
  · simp only [Equality.same, beq_iff_eq] at h
    omega

/-- Bodies that compute an integer from one that they are answered respect equalities, if the integers
    are the same. -/
theorem respects_thenInteger {q : Query} (hq : q.valueType = .int) (f : Int → Int)
    {answers : Value → Value → Prop}
    (hanswers : ∀ v w, answers v w → ∃ m n, v = .int m ∧ w = .int n ∧ f m = f n)
    {r r' : Except QueryError Value} (h : Agree answers r r') :
    Respects parities integerUses q.Same (thenInteger f r) (thenInteger f r') := by
  cases h with
  | error e => exact .done (.error e)
  | ok h =>
    obtain ⟨m, n, rfl, rfl, hsame⟩ := hanswers _ _ h
    refine .done (.ok ⟨hq.symm, hq.symm, .alike ?_⟩)
    rw [hsame]
    exact Value.alike_refl _

theorem parities_respectful : parities.Respectful integerUses where
  derived label := either_cases "reading" (fun query => (integerUses query.id).kind = .derived)
    (by decide) (by decide) label
  valueType label := either_cases "reading" (fun query => (integerUses query.id).valueType =
    query.valueType) rfl rfl label
  shared label label' hid := by
    unfold parities either at hid ⊢
    split at hid <;> split at hid <;> simp_all [readingQuery, remainderQuery]
  regular label := either_cases "reading" (fun query => query.equality.Regular query.valueType)
    (Equality.parity.regular_same _) (Equality.content.regular_same _) label
  respects label key _ := by
    refine either_cases "reading" (fun query => Respects parities integerUses query.Same
      (query.body key) (query.body key)) ?_ ?_ label
    · refine .read rfl fun r r' h => respects_thenInteger rfl _ (fun v w halike => ?_) h
      obtain ⟨hv, rfl⟩ := sameInteger_of_alikeOf halike
      cases v <;> cases hv
      exact ⟨_, _, rfl, rfl, rfl⟩
    · refine .call rfl fun r r' h => respects_thenInteger rfl _ (fun v w hsame => ?_) h
      obtain ⟨hv, hw, hrelates⟩ := hsame
      cases v <;> cases hv
      cases w <;> cases hw
      exact ⟨_, _, rfl, rfl, emod_two_of_relates hrelates⟩

/-- The input is replaced by one of its parity, which leaves the remainder as it is kept, and then by
    another one. -/
def paritySteps : List Step :=
  [.perform (.write .blocking ⟨"x"⟩ .unit (.int 5)) none,
    .perform (.query .waiting "remainder" .unit) none,
    .perform (.write .blocking ⟨"x"⟩ .unit (.int 7)) none,
    .perform (.query .blocking "remainder" .unit) none,
    .perform (.clear .blocking 7) none,
    .perform (.write .waiting ⟨"x"⟩ .unit (.int 8)) none,
    .perform (.query .free "remainder" .unit) none]

theorem memoization_respects_equalities_parity :
    ∃ bound, ∀ limits : Session.Limits, bound ≤ limits.steps → bound ≤ limits.polls →
      List.Forall₂ (fun (asked : Step × Session.Report) report' =>
          asked.1.Related parities asked.2.answer report'.answer)
        (paritySteps.zip ((Session.fresh true true).reports parities limits paritySteps))
        ((Session.fresh false true).reports parities ⟨20, 3⟩ paritySteps) := by
  have hall : ((Session.fresh false true).reports parities ⟨20, 3⟩ paritySteps).all
      (fun report => match report.answer with | .pending => false | _ => true) = true := by
    decide +kernel
  refine memoization_respects_equalities parities_respectful parities_honest parities_transparent ?_ true
    ?_
  · have hquery (access : Access) :
        Step.Sequential parities integerUses (.perform (.query access "remainder" .unit) none) :=
      ⟨rfl, trivial⟩
    have hwrite (access : Access) (n : Int) :
        Step.Sequential parities integerUses (.perform (.write access ⟨"x"⟩ .unit (.int n)) none) :=
      ⟨by simp [Request.Consistent, integerUses, Key.type, Value.type], trivial⟩
    have hclear (before : Revision) :
        Step.Sequential parities integerUses (.perform (.clear .blocking before) none) :=
      ⟨trivial, trivial⟩
    rw [paritySteps]
    refine List.forall_mem_cons.2 ⟨hwrite _ _, List.forall_mem_cons.2 ⟨hquery _, ?_⟩⟩
    refine List.forall_mem_cons.2 ⟨hwrite _ _, List.forall_mem_cons.2 ⟨hquery _, ?_⟩⟩
    refine List.forall_mem_cons.2 ⟨hclear _, List.forall_mem_cons.2 ⟨hwrite _ _, ?_⟩⟩
    exact List.forall_mem_cons.2 ⟨hquery _, fun step h => absurd h List.not_mem_nil⟩
  · intro report hreport hpending
    have hone := List.all_eq_true.1 hall report hreport
    rw [hpending] at hone
    cases hone

end RedGreen
