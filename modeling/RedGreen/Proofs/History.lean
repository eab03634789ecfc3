import RedGreen.Proofs.Transparency
import RedGreen.Proofs.Twins

set_option autoImplicit false

/-! # Memoization is invisible

Where all bodies hand on the errors of their calls, a world that is sound stays so, and what it
answers is what its twin without a memory answers. Every step takes twins to twins and gives them the
same answer (`Session.Twins.step`); so whole sessions give the same answers, as far as the plain one
gives any (`memoization_invisible`). -/

namespace RedGreen

open Evaluation

variable {p : Program} {use : Usages} {same : Indistinct}

/-! ## Sound worlds between two evaluations -/

theorem World.Sound.turns {w w' : World} (h : w.Sound p use same) (hw : w.Turns p use w') :
    w'.Sound p use same := by
  induction hw with
  | grows tidy grows => exact h.grows tidy grows
  | writes tidy writes => exact h.writes tidy writes
  | clears tidy clears => exact h.clears tidy clears
  | trans _ _ ih ih' => exact ih' (ih h)

/-- A new system holds nothing, so it is sound. -/
theorem World.sound_new (memoize : Bool) (h : memoize = true) :
    ({ memoize } : World).Sound p use same where
  tidy := .new memoize
  memoize := h
  justified := nofun

/-! ## Requests -/

/-- If the evaluation of a request finishes without a memory, then it finishes with one, with the
    same result. -/
theorem World.Twins.request (hp : p.Pure use same False)
    (htr : ∀ label key, Transparent ((p label).body key)) {w w' w₁' : World}
    (h : w.Twins p use w') (hs : w.Sound p use same) {i i' : SlotId} {label : Label} {key : Key}
    {t t' : Token} {result' : Except QueryError Stamped} (hi : w.node? i = some (p.node label key))
    (hi' : w'.node? i' = some (p.node label key))
    (hfinishes : Evaluation.Finishes p t' (.request i') w' result' w₁') :
    ∃ result w₁, Evaluation.Finishes p t (.request i) w result w₁ ∧
      Agree (fun s s' : Stamped => s.value.Alike s'.value) result result' ∧
      w₁.Sound p use same ∧ w₁.Twins p use w₁' ∧ w₁.entryLocked = w.entryLocked ∧
      w₁'.entryLocked = w'.entryLocked := by
  have typed := h.tidy.keyType hi
  obtain ⟨r, heval⟩ := evaluates_of_finishes_plainly hp (h.plain t') h.idle' typed hi' hfinishes
  obtain ⟨result₂, w₂, hfinishes₂, hanswer⟩ :=
    heval.request_finishes_plainly hp (h.plain t') h.idle' typed hi'
  obtain ⟨rfl, rfl⟩ := hfinishes.unique hfinishes₂
  obtain ⟨result, w₁, hfinishes₁, hcompletes⟩ :=
    heval.request_finishes (t := t) hp htr hs (by simp [h.uncancelled]) h.idle hi typed
  refine ⟨result, w₁, hfinishes₁, ?_, hcompletes.sound, ?_, hcompletes.entryLocked,
    hanswer.entryLocked⟩
  · refine hcompletes.agree.trans (hanswer.agree.symm fun _ _ hab => hab.2.symm) ?_
    exact fun _ _ _ hab hbc => hab.trans hbc
  · refine h.of_extends hcompletes.toExtends hcompletes.sound.tidy
      (hcompletes.active_eq.trans h.idle.symm) hanswer.toExtends hanswer.tidy ?_
    rw [hanswer.active, h.idle']
    rfl

/-- What twins begin, the one that keeps values ends if the other one does, alike. -/
theorem Request.transfers_twins (hp : p.Pure use same False)
    (htr : ∀ label key, Transparent ((p label).body key)) {request : Request}
    (hconsistent : request.Consistent p use) (hasks : request.Asks) {w w' : World}
    (h : w.Twins p use w') (hs : w.Sound p use same) (t t' : Token) :
    request.Transfers p t' t (fun r' r => r.Alike r')
      (fun w' w => w.Twins p use w' ∧ w.Sound p use same) w' w (request.begin p w')
      (request.begin p w) := by
  have hbegins := Request.begin_twins hp hconsistent hasks h
  generalize request.begin p w = out at hbegins
  generalize request.begin p w' = out' at hbegins
  cases hbegins with
  | answered hagree hturns htwins hlocked hlocked' =>
    exact .answered (hagree.symm fun _ _ h => h) ⟨htwins, hs.turns hturns⟩ hlocked' hlocked
  | evaluating hvalue hfinds hfinds' htwins =>
    refine .evaluating fun result' w₁' hfinishes' => ?_
    obtain ⟨result, w₁, hfinishes, hagree, hs₁, htwins₁, hlocked, hlocked'⟩ :=
      htwins.request (t := t) hp htr (hs.grows hfinds.tidy hfinds.toGrows) hfinds.found hfinds'.found
        hfinishes'
    exact ⟨result, w₁, hfinishes, (request.alike_replyOf hvalue hagree).symm fun _ _ h => h,
      ⟨htwins₁, hs₁⟩, hlocked'.trans hfinds'.entryLocked, hlocked.trans hfinds.entryLocked⟩

/-! ## Sessions -/

namespace Session

/-- A step of a session without a memory that is answered takes twins to twins, and both give the
    same answer, under large enough limits. -/
theorem Twins.step (hp : p.Pure use same False)
    (htr : ∀ label key, Transparent ((p label).body key)) {step : Step}
    (hstep : step.Sequential p use) {s s' : Session} (h : s.Twins p use s')
    (hs : s.world.Sound p use same) {limits' : Limits}
    (hanswered : (s'.step p limits' step).1 ≠ .pending) :
    ∃ bound answer s₁, (∀ limits : Limits, bound ≤ limits.steps → bound ≤ limits.polls →
        s.step p limits step = (answer, s₁)) ∧
      answer.Alike (s'.step p limits' step).1 ∧ s₁.world.Sound p use same ∧
      s₁.Twins p use (s'.step p limits' step).2 := by
  by_cases hperform : ∃ request token, step = .perform request token
  · obtain ⟨request, token, rfl⟩ := hperform
    obtain ⟨answer', w₁', hrun⟩ := ready_of_step hanswered
    obtain ⟨bound, answer, w₁, hrun₁, hagree, ⟨htwins, hsound⟩, hfree', hfree⟩ :=
      Request.run_transfers h.free' h.free
        (fun w' w w₁' w₁ hw halters' halters =>
          ⟨hw.1.alters halters halters', hw.2.turns (halters.turns hw.2.tidy)⟩)
        (fun w₁' w₁ _ halters' halters => Request.transfers_twins hp htr hstep.1 hstep.2
          (h.worlds.alters halters halters') (hs.turns (halters.turns hs.tidy))
          (s.tokenFor token).1 _) hrun
    rw [step_of_ready hrun]
    exact ⟨bound, _, _, fun limits hsteps hpolls => step_of_ready (hrun₁ _ _ hsteps hpolls),
      Answer.alike_ofResult (hagree.symm fun _ _ h => h), hsound, htwins, hfree, hfree'⟩
  · obtain ⟨answer, answer', s₁, s₁', hstep₁, hstep₁', halike, hturns, htwins⟩ :=
      h.clear hstep fun request token heq => hperform ⟨request, token, heq⟩
    rw [hstep₁']
    exact ⟨0, answer, s₁, fun limits _ _ => hstep₁ limits, halike, hs.turns hturns, htwins⟩

/-- What twins are asked, one request after the other, they answer alike. -/
theorem Twins.reports (hp : p.Pure use same False)
    (htr : ∀ label key, Transparent ((p label).body key)) {limits' : Limits} {steps : List Step}
    (hsteps : ∀ step ∈ steps, step.Sequential p use) {s s' : Session} (h : s.Twins p use s')
    (hs : s.world.Sound p use same)
    (hanswered : ∀ report ∈ s'.reports p limits' steps, report.answer ≠ .pending) :
    ∃ bound, ∀ limits : Limits, bound ≤ limits.steps → bound ≤ limits.polls →
      List.Forall₂ (fun report report' => report.answer.Alike report'.answer)
        (s.reports p limits steps) (s'.reports p limits' steps) := by
  obtain ⟨bound, hreports⟩ := reports_transfer (fun answer' answer => answer.Alike answer')
    (fun steps s' s => (∀ step ∈ steps, step.Sequential p use) ∧ s.Twins p use s' ∧
      s.world.Sound p use same)
    (fun step steps s' s ⟨hsteps, h, hs⟩ hanswered => by
      obtain ⟨bound, answer, s₁, hstep, halike, hsound, htwins⟩ :=
        h.step hp htr (hsteps step List.mem_cons_self) hs hanswered
      have halters : s₁.world.Alters { s₁.world with journal := [] } :=
        ⟨rfl, rfl, rfl, rfl, rfl, rfl⟩
      exact ⟨bound, answer, s₁, hstep, halike, fun collector =>
        ⟨fun st hst => hsteps st (List.mem_cons_of_mem _ hst), htwins.reported _ _,
          hsound.turns (halters.turns hsound.tidy)⟩⟩)
    ⟨hsteps, h, hs⟩ hanswered
  exact ⟨bound, fun limits hbudget hpolls => List.Forall₂.flip (hreports limits hbudget hpolls)⟩

end Session

/-- Memoization is invisible. Take a program whose identities have one use each, whose bodies depend
    only on what they read and hand on the errors of their calls, and whose equalities for early
    cutoff hold of values only that no body can tell apart. Whatever writes, queries and clears are
    made one after the other: if a system that keeps no values answers all of them, then a system
    that keeps values gives the same answers, as soon as the limits of its polls are large enough. -/
theorem memoization_invisible (hp : p.Pure use same False)
    (htr : ∀ label key, Transparent ((p label).body key)) {steps : List Step}
    (hsteps : ∀ step ∈ steps, step.Sequential p use) (traced : Bool) {limits' : Session.Limits}
    (hanswered : ∀ report ∈ (Session.fresh false traced).reports p limits' steps,
      report.answer ≠ .pending) :
    ∃ bound, ∀ limits : Session.Limits, bound ≤ limits.steps → bound ≤ limits.polls →
      List.Forall₂ (fun report report' => report.answer.Alike report'.answer)
        ((Session.fresh true traced).reports p limits steps)
        ((Session.fresh false traced).reports p limits' steps) := by
  exact Session.Twins.reports hp htr hsteps (Session.twins_fresh traced) (World.sound_new true rfl)
    hanswered

/-! ## A program for it -/

/-- Twice an input. -/
def twiceQuery : Query where
  id := ⟨"twice"⟩
  valueType := .int
  equality := Equality.content.same
  body := fun _ => .perform (.read ⟨"x"⟩ .int .unit) (thenInteger fun n => 2 * n)

/-- One more than that. -/
def successorQuery : Query where
  id := ⟨"successor"⟩
  valueType := .int
  equality := Equality.content.same
  body := fun _ => .call .awaited "twice" .unit (thenInteger fun n => n + 1)

/-- A program of the two. -/
def twice : Program := either "twice" twiceQuery successorQuery

theorem twice_pure (yields : Prop) : twice.Pure integerUses sameInteger yields := by
  refine either_pure "twice" ⟨rfl, rfl, by simp [twiceQuery]⟩ ⟨rfl, rfl, by simp [successorQuery]⟩
    (by simp [twiceQuery, successorQuery]) (fun key => ?_) fun key => ?_
  · exact .read rfl fun r r' h => lawful_thenInteger _ (h.mono fun _ _ => sameInteger_of_alikeOf)
  · exact .call rfl (fun _ => rfl) fun r r' h => lawful_thenInteger _ h

theorem twice_transparent (label : Label) (key : Key) : Transparent ((twice label).body key) := by
  refine either_cases "twice" (fun query => Transparent (query.body key)) ?_ ?_ label
  · exact .perform (transparent_thenInteger _)
  · exact .call (fun e => rfl) fun v => transparent_thenInteger _ _

/-- A write, two queries, another write, a clear, and a query. -/
def twiceSteps : List Step :=
  [.perform (.query .waiting "successor" .unit) none,
    .perform (.write .blocking ⟨"x"⟩ .unit (.int 5)) none,
    .perform (.query .blocking "successor" .unit) none,
    .perform (.query .free "twice" .unit) none,
    .perform (.write .waiting ⟨"x"⟩ .unit (.int 7)) none,
    .clearSlot ⟨"twice"⟩ .int .unit 9,
    .perform (.query .free "successor" .unit) none]

theorem memoization_invisible_twice :
    ∃ bound, ∀ limits : Session.Limits, bound ≤ limits.steps → bound ≤ limits.polls →
      List.Forall₂ (fun report report' => report.answer.Alike report'.answer)
        ((Session.fresh true true).reports twice limits twiceSteps)
        ((Session.fresh false true).reports twice ⟨20, 3⟩ twiceSteps) := by
  have hall : ((Session.fresh false true).reports twice ⟨20, 3⟩ twiceSteps).all
      (fun report => match report.answer with | .pending => false | _ => true) = true := by
    decide +kernel
  refine memoization_invisible (twice_pure False) twice_transparent ?_ true ?_
  · have hquery (access : Access) (label : Label) :
        Step.Sequential twice integerUses (.perform (.query access label .unit) none) := ⟨rfl, trivial⟩
    have hwrite (access : Access) (n : Int) :
        Step.Sequential twice integerUses (.perform (.write access ⟨"x"⟩ .unit (.int n)) none) :=
      ⟨by simp [Request.Consistent, integerUses, Key.type, Value.type], trivial⟩
    have hclear (query : QueryId) (before : Revision) :
        Step.Sequential twice integerUses (.clearSlot query .int .unit before) := ⟨rfl, rfl⟩
    rw [twiceSteps]
    refine List.forall_mem_cons.2 ⟨hquery _ _, List.forall_mem_cons.2 ⟨hwrite _ _, ?_⟩⟩
    refine List.forall_mem_cons.2 ⟨hquery _ _, List.forall_mem_cons.2 ⟨hquery _ _, ?_⟩⟩
    refine List.forall_mem_cons.2 ⟨hwrite _ _, List.forall_mem_cons.2 ⟨hclear _ _, ?_⟩⟩
    exact List.forall_mem_cons.2 ⟨hquery _ _, fun step h => absurd h List.not_mem_nil⟩
  · intro report hreport hpending
    have hone := List.all_eq_true.1 hall report hreport
    rw [hpending] at hone
    cases hone

end RedGreen
