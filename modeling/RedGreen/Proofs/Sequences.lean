import RedGreen.Proofs.Abandonment
import RedGreen.Proofs.Progression
import RedGreen.Proofs.SessionSteps

set_option autoImplicit false

/-! # One request after another

A session that makes one request after another has nothing in progress between two of them. A request
is carried as far as the limits go and dropped if it is not done then, so all that it does to the
world is listed by `Request.Carried`. If all bodies hand on the errors of their calls, the world is
fair between two requests (`Session.Settled.report`). -/

namespace RedGreen

open Evaluation

variable {p : Program} {use : Usages} {same : Indistinct} {yields : Prop}

theorem World.Turns.cancelled {w w' : World} (h : w.Turns p use w') : w'.cancelled = w.cancelled := by
  induction h with
  | grows _ grows => exact grows.cancelled
  | writes _ writes => exact writes.cancelled
  | clears _ clears => exact clears.cancelled
  | trans _ _ ih ih' => exact ih'.trans ih

/-! ## Requests -/

/-- A request that is answered at once takes a turn. -/
theorem Begins.turns {request : Request} {answer : Except QueryError Reply} {w w' : World}
    (h : Begins p use w request (.answered answer, w')) : w.Turns p use w' := by
  cases h with
  | write _ finds _ tidy writes => exact .trans (.grows finds.tidy finds.toGrows) (.writes tidy writes)
  | read _ tidy grows => exact .grows tidy grows
  | prepare finds => exact .grows finds.tidy finds.toGrows
  | untouched tidy grows => exact .grows tidy grows
  | clear tidy clears => exact .clears tidy clears

/-- A request that is not answered at once asks for a node. -/
theorem Begins.finds {request : Request} {e : Evaluation} {w w' : World}
    (h : Begins p use w request (.evaluating e, w')) :
    ∃ label key i, e = .request i ∧ w.Finds p use (p.node label key) i w' := by
  cases h with
  | query finds | derive finds => exact ⟨_, _, _, rfl, finds⟩
  | touch _ finds => exact ⟨_, _, _, rfl, finds⟩

/-- What a request does to a free world if it is carried as far as some limits go and dropped
    then. -/
inductive Request.Carried (p : Program) (t : Token) (request : Request) (w : World) : World → Prop
  | unpolled : Carried p t request w w
  | answered {answer : Except QueryError Reply} {w₁ w₂ w' : World} (entry : w.Alters w₁)
    (opens : request.begin p w₁ = (.answered answer, w₂)) (leaves : w₂.Alters w')
    (runs : w'.runs = w.runs) : Carried p t request w w'
  | evaluated {e e' : Evaluation} {w₁ w₂ w₃ w₄ w' : World} (entry : w.Alters w₁)
    (opens : request.begin p w₁ = (.evaluating e, w₂)) (reaches : Reaches p t e w₂ e' w₃)
    (gone : w₃.Quiet w₄) (leaves : w₄.Alters w') (runs₂ : w₂.runs = w.runs)
    (runs : w'.runs = w₃.runs) : Carried p t request w w'

theorem Request.carried (request : Request) {w : World} (hfree : w.entryLocked = false) (t : Token)
    (budget polls : Nat) :
    request.Carried p t w (Poll.left (Task.run p budget polls { request, token := t } w)) := by
  obtain ⟨w₁, hentry, halters, -⟩ := request.access.admission_of_unlocked false hfree
  have hruns₁ : w₁.runs = w.runs := by
    have hruns := (request.access.hushed_admission false w).runs
    rwa [hentry] at hruns
  have hbegins {e : Evaluation} {w₂ : World} (h : Task.Begins p { request, token := t } w e w₂) :
      request.begin p w₁ = (.evaluating e, w₂) := by
    rcases h with ⟨hnone, -⟩ | ⟨-, w₁', hentry', hbegin⟩
    · cases hnone
    · cases hentry.symm.trans hentry'
      exact hbegin
  have hcourse := Task.course_run (p := p) budget polls { request, token := t } w
  generalize Task.run p budget polls { request, token := t } w = out at hcourse
  cases hcourse with
  | waits => exact .unpolled
  | refused _ entry => cases hentry.symm.trans entry
  | @answered _ w₂ answer _ entry opens =>
    cases hentry.symm.trans entry
    have hruns₂ : w₂.runs = w₁.runs := by
      have hruns := (request.hushed_begin p w₁).runs
      rwa [show request.begin p w₁ = (.answered answer, w₂) from opens] at hruns
    exact .answered halters opens (request.access.alters_release w₂)
      ((Access.hushed_release _ _).runs.trans (hruns₂.trans hruns₁))
  | @parks _ _ e e' w₂ w₃ begins reaches =>
    exact .evaluated halters (hbegins begins) reaches (w₃.quiet_leaveAll e'.held)
      (request.access.alters_release _) begins.hushed.runs (Task.hushed_drop _ w₃).runs
  | @ends e w₂ w₃ _ begins finishes =>
    exact .evaluated halters (hbegins begins) finishes.reaches (.refl w₃)
      (request.access.alters_release w₃) begins.hushed.runs (Access.hushed_release _ w₃).runs

/-- What a request preserves that is carried as far as some limits go. -/
theorem Request.Carried.preserves (hp : p.Pure use same yields) {t : Token} {request : Request}
    {motive : World → Prop} {w w' : World} (h : request.Carried p t w w')
    (hconsistent : request.Consistent p use) (hidle : w.active = []) (huncancelled : t ∉ w.cancelled)
    (htidy : ∀ w, motive w → Tidy p use w.toSystem)
    (hgrows : ∀ w w', motive w → Tidy p use w'.toSystem → w.Grows w' → motive w')
    (hanswers : ∀ w answer w', motive w → request.begin p w = (.answered answer, w') → motive w')
    (hreaches : ∀ w i label key e w', motive w → w.active = [] → t ∉ w.cancelled →
      w.node? i = some (p.node label key) → Reaches p t (.request i) w e w' → motive w')
    (hmotive : motive w) : motive w' := by
  have halters (w w' : World) (hw : w.Alters w') (hmotive : motive w) : motive w' :=
    hgrows w w' hmotive (hw.tidy (htidy w hmotive)) hw.grows
  cases h with
  | unpolled => exact hmotive
  | @answered answer w₁ w₂ w' entry opens leaves _ =>
    exact halters _ _ leaves (hanswers _ _ _ (halters _ _ entry hmotive) opens)
  | @evaluated e e' w₁ w₂ w₃ w₄ w' entry opens reaches gone leaves _ _ =>
    have hmotive₁ := halters _ _ entry hmotive
    obtain ⟨label, key, i, rfl, hfinds⟩ :=
      (opens ▸ Request.begin_spec hp.consistent (htidy _ hmotive₁) hconsistent).finds
    have hcancelled₂ : w₂.cancelled = w.cancelled := hfinds.cancelled.trans entry.cancelled
    have hmotive₃ := hreaches _ _ _ _ _ _ (hgrows _ _ hmotive₁ hfinds.tidy hfinds.toGrows)
      (hfinds.active.trans (entry.active.trans hidle)) (hcancelled₂ ▸ huncancelled) hfinds.found
      reaches
    exact halters _ _ leaves (hgrows _ _ hmotive₃ (gone.tidy (htidy _ hmotive₃)) gone.grows)

/-- A request leaves an idle and fair world fair. -/
theorem Request.Carried.fair (hp : p.Pure use same False)
    (htr : ∀ label key, Transparent ((p label).body key)) {t : Token} {request : Request}
    {w w' : World} (h : request.Carried p t w w') (hconsistent : request.Consistent p use)
    (hfair : w.Fair p use same) (hidle : w.active = []) (huncancelled : t ∉ w.cancelled) :
    w'.Fair p use same ∧ w'.cancelled = w.cancelled := by
  refine h.preserves (motive := fun u => u.Fair p use same ∧ u.cancelled = w.cancelled) hp
    hconsistent hidle huncancelled (fun u hu => hu.1.tidy) ?_ ?_ ?_ ⟨hfair, rfl⟩
  · intro u u' ⟨hfair, hcancelled⟩ ht' hw
    exact ⟨hfair.grows ht' hw, hw.cancelled.trans hcancelled⟩
  · intro u answer u' ⟨hfair, hcancelled⟩ hopens
    have hturns := (hopens ▸ Request.begin_spec hp.consistent hfair.tidy hconsistent).turns
    exact ⟨hfair.turns hturns, hturns.cancelled.trans hcancelled⟩
  · intro u i label key e u' ⟨hfair, hcancelled⟩ hidle huncancelled hi hreach
    have hcarries : u.Carries p use same t i (.request i) := .inl (.request hfair huncancelled hidle hi)
    obtain ⟨hcarries', hcancelled'⟩ := hreach.preserves
      (motive := fun e v => v.Carries p use same t i e ∧ v.cancelled = u.cancelled)
      (fun _ _ _ _ hnext h =>
        ⟨(h.1.next hp htr hnext).1, (h.1.next hp htr hnext).2.cancelled.trans h.2⟩) ⟨hcarries, rfl⟩
    exact ⟨hcarries'.fair, hcancelled'.trans hcancelled⟩

/-! ## Sessions -/

namespace Session

variable {s : Session} {limits : Limits} {step : Step}

/-- Nothing is in progress, no token was cancelled, the journal was handed out, and the world is
    fair. -/
structure Settled (p : Program) (use : Usages) (same : Indistinct) (s : Session) : Prop where
  accounted : s.Accounted p
  tasks : s.tasks.entries = []
  guards : s.guards.entries = []
  uncancelled : s.world.cancelled = []
  runs : s.world.runs = []
  fair : s.world.Fair p use same

theorem settled_fresh (traced : Bool) : (Session.fresh true traced).Settled p use same where
  accounted := accounted_fresh p true traced
  tasks := rfl
  guards := rfl
  uncancelled := rfl
  runs := rfl
  fair := World.fair_new true rfl

theorem Settled.idle (h : s.Settled p use same) : s.world.active = [] :=
  h.accounted.idle h.tasks h.guards

theorem Settled.free (h : s.Settled p use same) : s.world.entryLocked = false :=
  h.accounted.free h.tasks

/-- A session is the twin of one that keeps no values. -/
theorem Settled.twins (h : s.Settled p use same) : s.Twins p use s.plainly where
  worlds := ⟨h.fair.tidy, h.fair.tidy.of_eq rfl rfl, h.fair.memoize, rfl, h.idle, rfl, h.uncancelled,
    rfl, rfl, rfl⟩
  free := h.free
  free' := rfl

theorem runs_clear (hstep : step.Sequential p use)
    (hclear : ∀ request token, step ≠ .perform request token) :
    (s.step p limits step).2.world.runs = s.world.runs := by
  cases step with
  | perform request token => exact absurd rfl (hclear request token)
  | clearCache query keyType valueType before =>
    have hopen := (s.world.hushed_openCache query keyType valueType).runs
    simp only [Session.step]
    generalize s.world.openCache query keyType valueType = opened at hopen
    obtain ⟨opened, w⟩ := opened
    cases opened <;> exact hopen
  | clearSlot query valueType key before =>
    have hopen := (s.world.hushed_openCache query key.type valueType).runs
    simp only [Session.step]
    generalize s.world.openCache query key.type valueType = opened at hopen
    obtain ⟨opened, w⟩ := opened
    cases opened with
    | error e => exact hopen
    | ok u => exact (w.hushed_clearSlot query key before).runs.trans hopen
  | spawn | poll | run | drop | cancel | lookAtToken | enter | leave | stack | slots | describe
  | stamps | debug | resultsFor | takeEvents | cache | makeInput | inspect | gatherDeps =>
    exact hstep.elim

/-- Nothing is kept under a name. -/
theorem named_of_sequential (hstep : step.Sequential p use) :
    (s.step p limits step).2.tasks = s.tasks ∧ (s.step p limits step).2.guards = s.guards := by
  cases step with
  | perform request token =>
    have htasks := s.tasks_tokenFor token
    have hguards := s.guards_tokenFor token
    simp only [Session.step]
    generalize Task.run p limits.steps limits.polls _ _ = out
    obtain ⟨poll, w⟩ := out
    cases poll <;> exact ⟨htasks, hguards⟩
  | clearCache query keyType valueType before =>
    simp only [Session.step]
    generalize s.world.openCache query keyType valueType = opened
    obtain ⟨opened, w⟩ := opened
    cases opened <;> exact ⟨rfl, rfl⟩
  | clearSlot query valueType key before =>
    simp only [Session.step]
    generalize s.world.openCache query key.type valueType = opened
    obtain ⟨opened, w⟩ := opened
    cases opened <;> exact ⟨rfl, rfl⟩
  | spawn | poll | run | drop | cancel | lookAtToken | enter | leave | stack | slots | describe
  | stamps | debug | resultsFor | takeEvents | cache | makeInput | inspect | gatherDeps =>
    exact hstep.elim

/-- Between two requests a session is settled. -/
theorem Settled.report (hp : p.Pure use same False)
    (htr : ∀ label key, Transparent ((p label).body key)) (limits : Limits)
    (h : s.Settled p use same) (hstep : step.Sequential p use) :
    (s.report p limits step).2.Settled p use same := by
  obtain ⟨htasks, hguards⟩ : (s.step p limits step).2.tasks = s.tasks ∧
      (s.step p limits step).2.guards = s.guards := named_of_sequential hstep
  have hfair : (s.step p limits step).2.world.Fair p use same ∧
      (s.step p limits step).2.world.cancelled = s.world.cancelled := by
    by_cases hperform : ∃ request token, step = .perform request token
    · obtain ⟨request, token, rfl⟩ := hperform
      rw [world_perform]
      exact (request.carried h.free _ limits.steps limits.polls).fair hp htr hstep.1 h.fair h.idle
        (by simp [h.uncancelled])
    · obtain ⟨answer, -, s₁, -, hs₁, -, -, hturns, -⟩ :=
        h.twins.clear hstep fun request token heq => hperform ⟨request, token, heq⟩
      rw [hs₁ limits]
      exact ⟨h.fair.turns hturns, hturns.cancelled⟩
  have halters : (s.step p limits step).2.world.Alters (s.report p limits step).2.world :=
    ⟨rfl, rfl, rfl, rfl, rfl, rfl⟩
  exact ⟨h.accounted.report limits step, htasks ▸ h.tasks, hguards ▸ h.guards,
    hfair.2.trans h.uncancelled, rfl, hfair.1.grows (halters.tidy hfair.1.tidy) halters.grows⟩

theorem Settled.after (hp : p.Pure use same False)
    (htr : ∀ label key, Transparent ((p label).body key)) (limits : Limits)
    (h : s.Settled p use same) {steps : List Step}
    (hsteps : ∀ step ∈ steps, step.Sequential p use) : (s.after p limits steps).Settled p use same := by
  induction steps generalizing s with
  | nil => exact h
  | cons step steps ih =>
    exact ih (h.report hp htr limits (hsteps step List.mem_cons_self))
      fun step' hmem => hsteps step' (List.mem_cons_of_mem _ hmem)

end Session

end RedGreen
