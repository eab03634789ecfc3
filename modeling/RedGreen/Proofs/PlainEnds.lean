import RedGreen.Proofs.Calls
import RedGreen.Proofs.Trails

set_option autoImplicit false

/-! # What a system without a memory tells of the ends of its calls

A system that keeps no values tells its tracer of a call only when it ends. A call that gets onto the
active stack and is answered tells so once, with the right outcome (`Call.Stage.tells`), unless one of its
own checks has found its token cancelled: the one before its body starts, and the one after its body has
ended with a value. Then it is answered as cancelled and nothing is told
(`ends_told_unless_found_cancelled`). A system that keeps values tells of these ends too. -/

namespace RedGreen

open Evaluation

variable {p : Program} {t : Token} {w w' : World} {e e' : Evaluation} {i : SlotId} {outer : List Frame}

/-- The outcome of a call of a system that keeps nothing. -/
def Outcome.ofAnswer : Except QueryError Stamped → Outcome
  | .ok _ => .changed
  | .error e => .ofError e

namespace Transition

variable {x : Transition} {r : Except QueryError Stamped}

/-- The step is one that a call with some frames around it takes itself: it does not wait, or it takes up an
    answer. -/
def OfCall (outer : List Frame) (x : Transition) : Prop :=
  x.source.frames = outer ∨ ∃ r frame, x.source = ⟨.answer r, frame :: outer⟩

/-- A check of the token, before a body starts or after it has ended with a value, ends the call. -/
def FindsCancelled (x : Transition) : Prop := x.target.control = .answer (.error .cancelled) ∧
  ((∃ i, x.source.control = .fetch i) ∨ ∃ a value, x.source.control = .body a (.done (.ok value)))

/-- What the step that answers a call tells. -/
inductive TellsEnd (t : Token) (slot : SlotInfo) (r : Except QueryError Stamped) (x : Transition) : Prop
  | told (unchecked : ¬x.FindsCancelled) (told : x.events = [.queryEnd slot (.ofAnswer r)])
  | untold (checked : x.FindsCancelled) (answer : r = .error .cancelled)
    (cancelled : t ∈ x.before.cancelled) (told : x.events = [])

end Transition

/-! ## Steps of a call -/

/-- What ends a call of a system that keeps nothing. -/
theorem World.Concludes.tellsEnd {f : Flight} {c : Control} {r : Except QueryError Stamped}
    {ending : Option Outcome} {x : Transition} (h : x.before.Concludes t f c r w' ending)
    (hunkept : x.before.memoize = false) (hnone : ∀ j, x.before.memo? j = none)
    (hsource : x.source.control = c) (hfetch : ∀ j, c ≠ .fetch j) (htarget : x.target.control = .answer r)
    (htold : x.events = x.before.endOf f.slot ending) : x.TellsEnd t (x.before.info f.slot) r := by
  cases h with
  | @fails c e w' memo made =>
    refine .told ?_ htold
    rintro ⟨-, ⟨j, hj⟩ | ⟨a, value, hbody⟩⟩
    · exact hfetch j (hsource.symm.trans hj)
    · exact Bool.false_ne_true (hunkept.symm.trans (made a value (hsource.symm.trans hbody)))
  | confirms memo => cases (hnone _).symm.trans memo
  | commits kept => cases hunkept.symm.trans kept
  | passes =>
    refine .told ?_ htold
    rintro ⟨hcancelled, -⟩
    cases htarget.symm.trans hcancelled
  | lapses unkept cancelled =>
    exact .untold ⟨htarget, .inr ⟨_, _, hsource⟩⟩ rfl cancelled htold

/-- A step of a call on its way, in a system that keeps nothing: it tells nothing if the call takes it and
    is not answered by it, and if it answers the call it tells how the call ended. -/
structure Call.StepTells (t : Token) (i : SlotId) (outer : List Frame) (x : Transition) : Prop where
  quiet : (∀ r, x.target ≠ ⟨.answer r, outer⟩) → x.OfCall outer → x.events = []
  ends : ∀ r, x.target = ⟨.answer r, outer⟩ → x.OfCall outer ∧ x.TellsEnd t (x.before.info i) r
  unasked : x.target ≠ ⟨.fetch i, outer⟩

theorem Call.stepTells_of_quiet {x : Transition} (hquiet : x.events = [])
    (hanswer : ∀ r, x.target.control ≠ .answer r) (hfetch : x.target ≠ ⟨.fetch i, outer⟩) :
    StepTells t i outer x :=
  ⟨fun _ _ => hquiet, fun r hr => absurd (congrArg Evaluation.control hr) (hanswer r), hfetch⟩

/-- The step is one of a call that the call waits for. -/
theorem Call.stepTells_of_length {x : Transition} (hsource : ¬x.OfCall outer)
    (htarget : outer.length < x.target.frames.length) : StepTells t i outer x := by
  have hne {c : Control} (h : x.target = ⟨c, outer⟩) : False := by
    rw [h] at htarget
    exact Nat.lt_irrefl _ htarget
  exact ⟨fun _ h => absurd h hsource, fun r hr => (hne hr).elim, hne⟩

theorem Call.stepTells_of_concludes {x : Transition} {f : Flight} {c : Control}
    {r : Except QueryError Stamped} {ending : Option Outcome} (hslot : f.slot = i) (hown : x.OfCall outer)
    (hsource : x.source.control = c) (hfetch : ∀ j, c ≠ .fetch j) (htarget : x.target = ⟨.answer r, outer⟩)
    (hunkept : x.before.memoize = false) (hnone : ∀ j, x.before.memo? j = none)
    (h : x.before.Concludes t f c r w' ending) (htold : x.events = x.before.endOf f.slot ending) :
    StepTells t i outer x := by
  subst hslot
  refine ⟨fun hanswer => absurd htarget (hanswer r), fun r' hr' => ⟨hown, ?_⟩, ?_⟩
  · cases htarget.symm.trans hr'
    exact h.tellsEnd hunkept hnone hsource hfetch (congrArg Evaluation.control htarget) htold
  · rw [htarget]
    nofun

theorem Control.ne_answer_of_flight? {c : Control} {f : Flight} (h : c.flight? = some f)
    (r : Except QueryError Stamped) : c ≠ .answer r := by
  rintro rfl
  cases h

theorem Control.ne_fetch_of_flight? {c : Control} {f : Flight} (h : c.flight? = some f) (j : SlotId) :
    c ≠ .fetch j := by
  rintro rfl
  cases h

theorem Evaluation.ne_fetch_of_flight? {c : Control} {f : Flight} (h : c.flight? = some f)
    {frames frames' : List Frame} (j : SlotId) : (⟨c, frames⟩ : Evaluation) ≠ ⟨.fetch j, frames'⟩ :=
  fun heq => Control.ne_fetch_of_flight? h j (congrArg Evaluation.control heq)

/-- A call that waits takes a step only to take up an answer. -/
theorem Call.stepTells_of_waiting {c : Control} {inner frames : List Frame} {frame : Frame}
    {told : List TraceEvent} (hslot : frame.slot = i) (hframes : frames = inner ++ frame :: outer)
    (h : Reports t ⟨c, frames⟩ w e' w' told)
    (htold : Transition.events ⟨⟨c, frames⟩, w, e', w'⟩ = told) (hunkept : w.memoize = false)
    (hnone : ∀ j, w.memo? j = none) : StepTells t i outer ⟨⟨c, frames⟩, w, e', w'⟩ := by
  have hlonger : outer.length < frames.length := by
    rw [hframes]
    simp
    omega
  have hother {c : Control} {e' : Evaluation} {w w' : World} (hc : ∀ r, c ≠ .answer r) :
      ¬Transition.OfCall outer ⟨⟨c, frames⟩, w, e', w'⟩ := by
    rintro (heq | ⟨r, frame', heq⟩)
    · exact absurd (congrArg List.length heq) (Nat.ne_of_gt hlonger)
    · exact hc r (congrArg Evaluation.control heq)
  cases h with
  | hits | meets | stops | opens => exact stepTells_of_length (hother nofun) hlonger
  | closes flight | goesOn flight =>
    exact stepTells_of_length (hother (Control.ne_answer_of_flight? flight)) hlonger
  | requests flight =>
    exact stepTells_of_length (hother (Control.ne_answer_of_flight? flight)) (Nat.lt_succ_of_lt hlonger)
  | returns flight =>
    exact stepTells_of_quiet htold (Control.ne_answer_of_flight? flight)
      (Evaluation.ne_fetch_of_flight? flight i)
  | @propagates r r' ending frame' rest _ _ concludes =>
    cases inner with
    | nil =>
      obtain ⟨rfl, rfl⟩ := List.cons.inj hframes
      have hflight : frame'.flight.slot = i := (frame'.slot_eq).symm.trans hslot
      exact stepTells_of_concludes hflight (.inr ⟨r, frame', rfl⟩) rfl nofun rfl hunkept hnone concludes
        htold
    | cons frame'' inner =>
      obtain ⟨rfl, rfl⟩ := List.cons.inj hframes
      have hrest : outer.length < (inner ++ frame :: outer).length := by simp; omega
      refine stepTells_of_length ?_ hrest
      rintro (heq | ⟨r'', frame₁, heq⟩)
      · exact absurd (congrArg List.length heq) (Nat.ne_of_gt hlonger)
      · have hlength := congrArg (fun e => e.frames.length) heq
        simp at hlength
        omega
  | givesUp => exact stepTells_of_quiet htold nofun nofun

theorem Call.Stage.tells (hstage : Stage i outer e w) (hwithin : e.Within outer)
    (hnext : e.Next p t w e' w') (hderived : e.OnDerived w) (hunkept : w.memoize = false)
    (hnone : ∀ j, w.memo? j = none) (houtside : e = ⟨.fetch i, outer⟩ → i ∉ w.active) :
    Call.StepTells t i outer ⟨e, w, e', w'⟩ := by
  obtain ⟨told, hreports, htold⟩ := hnext.reports hderived
  replace htold : Transition.events ⟨e, w, e', w'⟩ = told := Transition.events_eq htold
  cases hstage with
  | requested =>
    cases hreports with
    | hits memo => cases (hnone _).symm.trans memo
    | meets active => exact absurd active (houtside rfl)
    | stops unkept outside cancelled =>
      refine ⟨fun hanswer => absurd rfl (hanswer _), fun r hr => ⟨.inl rfl, ?_⟩, nofun⟩
      cases hr
      exact .untold ⟨rfl, .inl ⟨_, rfl⟩⟩ rfl cancelled htold
    | opens outside flight =>
      rw [if_neg (Bool.eq_false_iff.1 hunkept)] at htold
      exact stepTells_of_quiet htold (Control.ne_answer_of_flight? flight)
        (Evaluation.ne_fetch_of_flight? flight i)
    | closes flight | goesOn flight | requests flight => cases flight
  | innermost hflight =>
    cases hreports with
    | hits | meets | stops | opens | returns | propagates => cases hflight
    | closes flight concludes =>
      have hslot := congrArg Flight.slot (Option.some.inj (flight.symm.trans hflight))
      exact stepTells_of_concludes hslot (.inl rfl) rfl (Control.ne_fetch_of_flight? flight) rfl hunkept
        hnone concludes htold
    | goesOn flight flight' =>
      exact stepTells_of_quiet htold (Control.ne_answer_of_flight? flight')
        (Evaluation.ne_fetch_of_flight? flight' i)
    | requests flight => exact stepTells_of_quiet htold nofun fun heq => by simp at heq
    | givesUp => exact stepTells_of_quiet htold nofun nofun
  | waiting inner slot => exact stepTells_of_waiting slot rfl hreports htold hunkept hnone
  | answered => exact absurd rfl (hwithin.2 _)
  | gone hgone => exact absurd hwithin.1 hgone

/-! ## Whole calls -/

/-- Some steps in a row are those of a call from its request to its answer: the call gets onto the active
    stack, and it is on its way until it is answered. -/
structure Call.Serves (i : SlotId) (outer : List Frame) (steps : List Transition) (last : Transition)
    (r : Except QueryError Stamped) : Prop where
  requested : ∀ x ∈ (steps ++ [last]).head?, x.source = ⟨.fetch i, outer⟩ ∧ i ∉ x.before.active
  within : ∀ x ∈ steps ++ [last], x.source.Within outer
  answered : last.target = ⟨.answer r, outer⟩

/-- What the steps of a call tell, if they are its own: the last one tells how the call ended, and the
    others tell nothing. -/
structure Call.TellsOnce (t : Token) (i : SlotId) (outer : List Frame) (steps : List Transition)
    (last : Transition) (r : Except QueryError Stamped) : Prop where
  quiet : ∀ x ∈ steps, x.OfCall outer → x.events = []
  ends : last.OfCall outer ∧ ∃ slot, last.before.describe? i = some slot ∧ last.TellsEnd t slot r

/-- Whatever the call has come to, its steps tell how it ends and nothing else. -/
theorem Call.tellsOnce_of_chain {steps : List Transition} {last : Transition} {slot : SlotInfo}
    {r : Except QueryError Stamped} (hchain : (steps ++ [last]).IsChain Transition.Precedes)
    (hgenuine : ∀ x ∈ steps ++ [last], x.Genuine p t ∧ x.before.memoize = false)
    (hwithin : ∀ x ∈ steps ++ [last], x.source.Within outer)
    (hfirst : ∀ x ∈ (steps ++ [last]).head?, Stage i outer x.source x.before ∧
      x.before.describe? i = some slot ∧ (x.source = ⟨.fetch i, outer⟩ → i ∉ x.before.active))
    (hlast : last.target = ⟨.answer r, outer⟩) : TellsOnce t i outer steps last r := by
  have htells {x : Transition} (hx : x.Genuine p t ∧ x.before.memoize = false)
      (hwithin : x.source.Within outer) (hstage : Stage i outer x.source x.before)
      (houtside : x.source = ⟨.fetch i, outer⟩ → i ∉ x.before.active) : StepTells t i outer x := by
    obtain ⟨⟨hnext, hderived, hhosts⟩, hunkept⟩ := hx
    obtain ⟨-, F, -, -, ht⟩ := hhosts.among
    exact hstage.tells hwithin hnext hderived hunkept (ht.unkept hunkept) houtside
  induction steps with
  | nil =>
    obtain ⟨hstage, hslot, houtside⟩ := hfirst last rfl
    have hlastTells := htells (hgenuine last (.head _)) (hwithin last (.head _)) hstage houtside
    obtain ⟨hown, hend⟩ := hlastTells.ends r hlast
    rw [World.info_of_describe? hslot] at hend
    exact ⟨fun x hx => absurd hx List.not_mem_nil, hown, slot, hslot, hend⟩
  | cons x steps ih =>
    obtain ⟨hstage, hslot, houtside⟩ := hfirst x rfl
    obtain ⟨hx, hgenuine⟩ := List.forall_mem_cons.1 hgenuine
    obtain ⟨hxwithin, hwithin⟩ := List.forall_mem_cons.1 hwithin
    obtain ⟨hprecedes, hchain⟩ := List.isChain_cons.1 hchain
    have hxtells := htells hx hxwithin hstage houtside
    obtain ⟨y, hy⟩ : ∃ y, (steps ++ [last]).head? = some y := by cases steps <;> exact ⟨_, rfl⟩
    have hmem : y ∈ steps ++ [last] := List.mem_of_head? hy
    obtain ⟨hsource, hcontinues⟩ := hprecedes y hy
    have hfirst' : Stage i outer y.source y.before ∧ y.before.describe? i = some slot ∧
        (y.source = ⟨.fetch i, outer⟩ → i ∉ y.before.active) := by
      refine ⟨?_, (hx.1.next.edits.continues.trans hcontinues).describe? hslot, fun hfetch => ?_⟩
      · obtain ⟨others, -, hstacked, -⟩ := (hgenuine y hmem).1.hosts.among
        rw [hsource] at hstacked ⊢
        exact (hstage.moves hxwithin hx.1.next.moves).1.meanwhile fun j hj =>
          hstacked.mem_iff.2 (List.mem_append_left _ hj)
      · exact absurd (hsource.symm.trans hfetch) hxtells.unasked
    obtain ⟨hquiet, hends⟩ := ih hchain hgenuine hwithin (fun z hz => by
      cases hy.symm.trans hz
      exact hfirst')
    refine ⟨List.forall_mem_cons.2 ⟨hxtells.quiet fun r hr => ?_, hquiet⟩, hends⟩
    exact (hwithin y hmem).2 r (hsource.trans hr)

theorem Call.Serves.tellsOnce {own before steps after : List Transition} {last : Transition}
    {r : Except QueryError Stamped} (h : Serves i outer steps last r) (hthread : Thread p t own e w)
    (hown : own = before ++ (steps ++ [last]) ++ after) (hunkept : w.memoize = false) :
    TellsOnce t i outer steps last r := by
  obtain ⟨hchain, -⟩ := hthread.chain
  have hmem {x : Transition} (hx : x ∈ steps ++ [last]) : x ∈ own := by
    rw [hown]
    exact List.mem_append_left _ (List.mem_append_right _ hx)
  have hgenuine (x : Transition) (hx : x ∈ steps ++ [last]) :
      x.Genuine p t ∧ x.before.memoize = false := by
    obtain ⟨hgenuine, hkept⟩ := hthread.genuine x (hmem hx)
    exact ⟨hgenuine, hkept.trans hunkept⟩
  rw [hown] at hchain
  have hsegment := hchain.left_of_append.right_of_append
  obtain ⟨x, hx⟩ : ∃ x, (steps ++ [last]).head? = some x := by cases steps <;> exact ⟨_, rfl⟩
  obtain ⟨hsource, houtside⟩ := h.requested x hx
  have hderived := (hgenuine x (List.mem_of_head? hx)).1.derived.requested i
    (congrArg Evaluation.control hsource)
  obtain ⟨slot, hslot, -⟩ := World.exists_describe? hderived
  have hfirst (y : Transition) (hy : y ∈ (steps ++ [last]).head?) : Stage i outer y.source y.before ∧
      y.before.describe? i = some slot ∧ (y.source = ⟨.fetch i, outer⟩ → i ∉ y.before.active) := by
    cases hx.symm.trans hy
    rw [hsource]
    exact ⟨.requested, hslot, fun _ => houtside⟩
  exact tellsOnce_of_chain hsegment hgenuine h.within hfirst h.answered

/-- A system without a memory tells of the end of each call, unless a check of the call has found its token
    cancelled. Take any program, and any steps of a client of such a system, of which the last one polls a
    request: tokens are cancelled before the request is made, between its polls or by its bodies. What the
    tracer is told of the request is what the steps of its evaluation tell. Of these take any that are in a
    row those of a call for a slot, at any depth, which gets onto the active stack and is answered in the
    end. The steps that the call takes itself tell nothing before the last one, and that one tells the end
    of the call: that the slot has changed if the answer is a value, and otherwise the outcome of the error.
    There are two exceptions, where nothing is told: the token is found cancelled before the body starts, or
    after it has ended with a value. Then the call is answered as cancelled. -/
theorem ends_told_unless_found_cancelled (p : Program) (limits : Session.Limits) (traced : Bool)
    {steps : List Step} {own : List Transition} {told : List TraceEvent} {poll : Poll}
    (h : (Session.fresh false traced).Conducts p limits steps own told poll) :
    told = own.flatMap Transition.events ∧ ∃ t, ∀ before call last after i outer r,
      own = before ++ (call ++ [last]) ++ after → Call.Serves i outer call last r →
        Call.TellsOnce t i outer call last r := by
  obtain ⟨htold, t, w, hpolled, hmemoize⟩ := h.polled (Session.orderly_fresh p false traced)
  refine ⟨htold, t, fun before call last after i outer r hown hserves => ?_⟩
  have hsome : own ≠ [] := by
    rintro rfl
    simpa using congrArg List.length hown
  cases hpolled with
  | answered none => exact absurd none hsome
  | waits token threaded =>
    cases threaded with
    | unbegun => exact absurd rfl hsome
    | underway suspended thread =>
      rw [token] at thread
      exact hserves.tellsOnce thread hown hmemoize
  | ends thread edits => exact hserves.tellsOnce thread hown (edits.memoize.symm.trans hmemoize)

/-! ## A call that is answered, and one that is cancelled -/

/-- The evaluation is at its end. -/
def Evaluation.isAnswered (e : Evaluation) : Bool :=
  match e with
  | ⟨.answer _, []⟩ => true
  | _ => false

/-- A request that is made with a token of its own. -/
def plainTask : Task := { request := .query .waiting "successor" .unit, token := 1 }

/-- A session without a memory, in which the request is made. -/
def plainSession : Session :=
  (Session.fresh false true).after twice ⟨40, 3⟩ [.perform (.write .blocking ⟨"x"⟩ .unit (.int 5)) none]

theorem ends_told_unless_found_cancelled_twice : ∃ own call last,
    (Session.fresh false true).Conducts twice ⟨40, 3⟩
      [.perform (.write .blocking ⟨"x"⟩ .unit (.int 5)) none, .perform plainTask.request none] own
      [.queryEnd ⟨⟨"twice"⟩, "()", .derived⟩ .changed,
        .queryEnd ⟨⟨"successor"⟩, "()", .derived⟩ .changed] (.ready (.ok (.value (.int 11)))) ∧
    own = call ++ [last] ∧ Call.Serves 1 [] call last (.ok ⟨.int 11, 2⟩) ∧
    (∀ x ∈ call, x.OfCall [] → x.events = []) ∧
    ∃ slot, last.before.describe? 1 = some slot ∧ last.events = [.queryEnd slot .changed] := by
  obtain ⟨w₀, w, hbegins, hdrive, ⟨call, last, hown, hrequested, hanswered⟩, hwithin, hrun, htold⟩ :
      ∃ w₀ w, plainTask.Begins twice plainSession.world (Evaluation.request 1) w₀ ∧
      drive twice 1 7 (Evaluation.request 1) w₀ = .running ⟨.answer (.ok ⟨.int 11, 2⟩), []⟩ w ∧
      (∃ call last, trail twice 1 7 (Evaluation.request 1) w₀ = call ++ [last] ∧
        (∀ x ∈ (call ++ [last]).head?, x.source = Evaluation.request 1 ∧ 1 ∉ x.before.active) ∧
        last.target = ⟨.answer (.ok ⟨.int 11, 2⟩), []⟩) ∧
      (trail twice 1 7 (Evaluation.request 1) w₀).all (fun x => !x.source.isAnswered) = true ∧
      plainTask.run twice 40 3 plainSession.world =
        (.ready (.ok (.value (.int 11))), plainTask.request.access.release w) ∧
      (plainSession.report twice ⟨40, 3⟩ (.perform plainTask.request none)).1.queryEvents =
        [.queryEnd ⟨⟨"twice"⟩, "()", .derived⟩ .changed,
          .queryEnd ⟨⟨"successor"⟩, "()", .derived⟩ .changed] :=
    ⟨_, _, .inr ⟨rfl, _, rfl, rfl⟩, rfl,
      ⟨[_, _, _, _, _, _], _, rfl, by rintro x ⟨⟩; exact ⟨rfl, List.not_mem_nil⟩, rfl⟩,
      by decide +kernel, rfl, by decide +kernel⟩
  have htrail := trail_of_drive hdrive
  generalize trail twice 1 7 (Evaluation.request 1) w₀ = own at htrail hwithin hown
  have hserves : Call.Serves 1 [] call last (.ok ⟨.int 11, 2⟩) := by
    refine ⟨hrequested, fun x hx => ⟨List.nil_suffix, fun r heq => ?_⟩, hanswered⟩
    have hnone := List.all_eq_true.1 hwithin x (hown ▸ hx)
    rw [heq] at hnone
    cases hnone
  have hconducts := @Session.Conducts.performs twice ⟨40, 3⟩ (Session.fresh false true)
    [.perform (.write .blocking ⟨"x"⟩ .unit (.int 5)) none] plainTask.request none own _
    (.ends hbegins htrail) hrun
  obtain ⟨-, t, hends⟩ := ends_told_unless_found_cancelled twice ⟨40, 3⟩ true hconducts
  obtain ⟨hquiet, -, slot, hslot, hend⟩ := hends [] call last [] 1 [] _ (by simpa using hown) hserves
  refine ⟨own, call, last, htold ▸ hconducts, hown, hserves, hquiet, slot, hslot, ?_⟩
  cases hend with
  | told _ told => exact told
  | untold _ answer => cases answer

/-- A request whose token is cancelled. -/
def hopelessTask : Task := { request := .query .waiting "twice" .unit, token := 0 }

/-- A session without a memory, in which the request is made. -/
def hopelessSession : Session := (Session.fresh false true).after twice ⟨40, 3⟩ [.cancel "t"]

theorem cancelled_call_tells_no_end : ∃ own last,
    (Session.fresh false true).Conducts twice ⟨40, 3⟩
      [.cancel "t", .perform hopelessTask.request (some "t")] own [] (.ready (.error .cancelled)) ∧
    own = [] ++ ([] ++ [last]) ++ [] ∧ Call.Serves 0 [] [] last (.error .cancelled) ∧
    own.flatMap Transition.events = [] := by
  obtain ⟨w₀, w, hbegins, hdrive, ⟨last, hown, hrequested, hanswered⟩, hrun, htold, hevents⟩ :
      ∃ w₀ w, hopelessTask.Begins twice hopelessSession.world (Evaluation.request 0) w₀ ∧
      drive twice 0 1 (Evaluation.request 0) w₀ = .running ⟨.answer (.error .cancelled), []⟩ w ∧
      (∃ last, trail twice 0 1 (Evaluation.request 0) w₀ = [last] ∧
        (last.source = Evaluation.request 0 ∧ 0 ∉ last.before.active) ∧
        last.target = ⟨.answer (.error .cancelled), []⟩) ∧
      hopelessTask.run twice 40 3 hopelessSession.world =
        (.ready (.error .cancelled), hopelessTask.request.access.release w) ∧
      (hopelessSession.report twice ⟨40, 3⟩ (.perform hopelessTask.request (some "t"))).1.queryEvents =
        [] ∧ (trail twice 0 1 (Evaluation.request 0) w₀).flatMap Transition.events = [] :=
    ⟨_, _, .inr ⟨rfl, _, rfl, rfl⟩, rfl, ⟨_, rfl, ⟨rfl, List.not_mem_nil⟩, rfl⟩, rfl, by decide +kernel,
      by decide +kernel⟩
  have htrail := trail_of_drive hdrive
  generalize trail twice 0 1 (Evaluation.request 0) w₀ = own at htrail hown hevents
  have hconducts := @Session.Conducts.performs twice ⟨40, 3⟩ (Session.fresh false true)
    [.cancel "t"] hopelessTask.request (some "t") own _ (.ends hbegins htrail) hrun
  refine ⟨own, last, htold ▸ hconducts, by simpa using hown, ⟨?_, ?_, hanswered⟩, hevents⟩
  · rintro x ⟨⟩
    exact hrequested
  · intro x hx
    obtain rfl := List.mem_singleton.1 hx
    rw [hrequested.1]
    exact ⟨List.nil_suffix, nofun⟩

end RedGreen
