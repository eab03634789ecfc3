import RedGreen.Proofs.Trails

set_option autoImplicit false

/-! # What is told of a request is well bracketed

What a system with a memory tells its tracer of a request is a tree (`Span`): a request that gets onto
the active stack starts and ends, and in between are the trees of the requests that it has waited for; any
other one is a hit or a cycle, told by one event. The tree follows the steps of the evaluation
(`Brackets`): each request for a slot is one tree, and the tree of a request that is waited for is inside
the tree of the one that waits. The outcome that the end tells is the true one (`Transition.Tells`).

While the evaluation is on its way, each frame has a tree that is still open (`Opened`); a step opens one,
goes on with the innermost one or closes it (`Bracketed.next`). -/

namespace RedGreen

open Evaluation

variable {p : Program} {t : Token} {w w' : World}

/-! ## Trees of requests -/

/-- What is told of a request for a derived value. -/
inductive Span where
  | hit (slot : SlotInfo)
  | cycle (path : List String)
  | run (slot : SlotInfo) (revision : Revision) (inner : List Span) (outcome : Outcome)

mutual

/-- The events that tell of a request. -/
def Span.events : Span → List TraceEvent
  | .hit slot => [.queryEnd slot .cacheHit]
  | .cycle path => [.cycleDetected path]
  | .run slot revision inner outcome =>
    .queryStart slot revision :: (Span.eventsOf inner ++ [.queryEnd slot outcome])

/-- The events that tell of several requests, one after the other. -/
def Span.eventsOf : List Span → List TraceEvent
  | [] => []
  | span :: spans => span.events ++ Span.eventsOf spans

end

mutual

/-- How many requests a tree tells of. -/
def Span.count : Span → Nat
  | .hit _ | .cycle _ => 1
  | .run _ _ inner _ => Span.countOf inner + 1

/-- How many requests several trees tell of. -/
def Span.countOf : List Span → Nat
  | [] => 0
  | span :: spans => span.count + Span.countOf spans

end

theorem Span.eventsOf_append (spans spans' : List Span) :
    Span.eventsOf (spans ++ spans') = Span.eventsOf spans ++ Span.eventsOf spans' := by
  induction spans with
  | nil => rfl
  | cons span spans ih => simp [Span.eventsOf, ih]

theorem Span.countOf_append (spans spans' : List Span) :
    Span.countOf (spans ++ spans') = Span.countOf spans + Span.countOf spans' := by
  induction spans with
  | nil => simp [Span.countOf]
  | cons span spans ih => simp [Span.countOf, ih, Nat.add_assoc]

/-! ## Steps and what they tell -/

namespace Transition

variable {x : Transition} {f : Flight} {frames : List Frame}

/-- The step is one of the flight with these frames around it: it works on the slot in flight, or it takes
    up the answer of a request that the flight has waited for. -/
inductive Of (f : Flight) (frames : List Frame) (x : Transition) : Prop
  | works {c : Control} (source : x.source = ⟨c, frames⟩) (flight : c.flight? = some f)
  | takesUp {r : Except QueryError Stamped} {frame : Frame}
    (source : x.source = ⟨.answer r, frame :: frames⟩) (flight : frame.flight = f)

theorem Of.begins_eq (h : x.Of f frames) : x.begins = false := by
  rcases h with ⟨source, flight⟩ | ⟨source, -⟩
  · rw [begins, source]
    split
    · subst_vars
      cases flight
    · rfl
  · rw [begins, source]

/-- A run of the slot in flight has ended with a value that is kept. -/
structure Commits (x : Transition) (f : Flight) (m : Memo) : Prop where
  ran : ∃ a, x.source.control = .body a (.done (.ok m.value)) ∧ m.deps = a.deps
  answer : x.target.control = .answer (.ok m.toStamped)
  kept : x.after.memo? f.slot = some m
  verifiedAt : m.verifiedAt = f.revision

/-- A revalidation of the slot in flight has ended, and the revision up to which its value is known to be
    valid has moved on. -/
structure Confirms (x : Transition) (f : Flight) (m : Memo) : Prop where
  walked : ∃ walk, x.source.control = .walk walk
  answer : x.target.control = .answer (.ok m.toStamped)
  memo : x.before.memo? f.slot = some m
  kept : x.after.memo? f.slot = some { m with verifiedAt := f.revision }
  later : m.verifiedAt < f.revision

/-- The outcome tells how the step ends the request for the slot in flight. -/
structure Tells (x : Transition) (f : Flight) (outcome : Outcome) : Prop where
  changed : outcome = .changed ↔ ∃ m, x.Commits f m ∧ m.changedAt = f.revision
  unchanged : outcome = .unchanged ↔ ∃ m old, x.Commits f m ∧ x.before.memo? f.slot = some old ∧
    m.changedAt = old.changedAt
  revalidated : outcome = .revalidated ↔ ∃ m, x.Confirms f m
  /-- Otherwise the request fails, and nothing is kept. -/
  fails : (¬∃ m, x.Commits f m) → (¬∃ m, x.Confirms f m) → ∃ e,
    x.target.control = .answer (.error e) ∧ outcome = .ofError e ∧
      x.after.memo? f.slot = x.before.memo? f.slot

end Transition

/-- A run whose value counts as unchanged keeps the stamp of the last change, and any other one renews
    it. -/
theorem Derived.changedAt_renewed (d : Derived) (value : Value) (r : Revision) (deps : List SlotId) :
    if d.isUnchanged value then
      ∃ old, d.memo = some old ∧ (d.renewed value r deps).changedAt = old.changedAt
    else (d.renewed value r deps).changedAt = r := by
  cases hold : d.memo with
  | none => simp [isUnchanged, renewed, hold]
  | some old =>
    by_cases hequal : d.equality old.value value = true
    · simp [isUnchanged, renewed, hold, hequal]
    · simp [isUnchanged, renewed, hold, hequal]

/-- No error is told as one of the outcomes of a success. -/
theorem Outcome.ofError_ne (e : QueryError) : Outcome.ofError e ≠ .changed ∧
    Outcome.ofError e ≠ .unchanged ∧ Outcome.ofError e ≠ .revalidated := by
  cases e <;> simp [Outcome.ofError]

namespace Transition

variable {x : Transition} {f : Flight} {m m' : Memo}

theorem Commits.not_confirms (h : x.Commits f m) : ¬x.Confirms f m' := by
  obtain ⟨a, ha, -⟩ := h.ran
  rintro ⟨⟨walk, hwalk⟩, -⟩
  cases ha.symm.trans hwalk

theorem Commits.unique (h : x.Commits f m) (h' : x.Commits f m') : m' = m :=
  Option.some.inj (h'.kept.symm.trans h.kept)

/-- An error is told as such. -/
theorem tells_ofError {e : QueryError} (htarget : x.target.control = .answer (.error e))
    (hmemo : x.after.memo? f.slot = x.before.memo? f.slot) : x.Tells f (.ofError e) := by
  obtain ⟨hchanged, hunchanged, hrevalidated⟩ := Outcome.ofError_ne e
  have hfailed {x' : Stamped} (h : x.target.control = .answer (.ok x')) : False := by
    cases htarget.symm.trans h
  refine ⟨⟨fun h => absurd h hchanged, ?_⟩, ⟨fun h => absurd h hunchanged, ?_⟩,
    ⟨fun h => absurd h hrevalidated, ?_⟩, fun _ _ => ⟨e, htarget, rfl, hmemo⟩⟩
  · rintro ⟨m, hcommits, -⟩
    exact (hfailed hcommits.answer).elim
  · rintro ⟨m, old, hcommits, -⟩
    exact (hfailed hcommits.answer).elim
  · rintro ⟨m, hconfirms⟩
    exact (hfailed hconfirms.answer).elim

/-- The end of a revalidation is told as such. -/
theorem Confirms.tells (h : x.Confirms f m) : x.Tells f .revalidated where
  changed := ⟨nofun, fun ⟨_, hcommits, _⟩ => absurd h hcommits.not_confirms⟩
  unchanged := ⟨nofun, fun ⟨_, _, hcommits, _⟩ => absurd h hcommits.not_confirms⟩
  revalidated := ⟨fun _ => ⟨m, h⟩, fun _ => rfl⟩
  fails _ hnot := absurd ⟨m, h⟩ hnot

/-- A value that is kept as a changed one, where the last change of the old one is further back. -/
theorem Commits.tells_changed (h : x.Commits f m) (hchanged : m.changedAt = f.revision)
    (hback : ∀ old, x.before.memo? f.slot = some old → old.changedAt ≠ f.revision) :
    x.Tells f .changed := by
  refine ⟨⟨fun _ => ⟨m, h, hchanged⟩, fun _ => rfl⟩, ⟨nofun, ?_⟩,
    ⟨nofun, fun ⟨_, hconfirms⟩ => absurd hconfirms h.not_confirms⟩, fun hnot => absurd ⟨m, h⟩ hnot⟩
  rintro ⟨m', old, h', hold, hkeeps⟩
  rw [h.unique h', hchanged] at hkeeps
  exact absurd hkeeps.symm (hback old hold)

/-- A value that is kept as an unchanged one, likewise. -/
theorem Commits.tells_unchanged (h : x.Commits f m) {old : Memo}
    (hold : x.before.memo? f.slot = some old) (hkeeps : m.changedAt = old.changedAt)
    (hback : old.changedAt ≠ f.revision) : x.Tells f .unchanged := by
  refine ⟨⟨nofun, ?_⟩, ⟨fun _ => ⟨m, old, h, hold, hkeeps⟩, fun _ => rfl⟩,
    ⟨nofun, fun ⟨_, hconfirms⟩ => absurd hconfirms h.not_confirms⟩, fun hnot => absurd ⟨m, h⟩ hnot⟩
  rintro ⟨m', h', hchanged⟩
  rw [h.unique h', hkeeps] at hchanged
  exact absurd hchanged hback

end Transition

/-- What ends a request tells the truth. -/
theorem World.Concludes.tells {f : Flight} {c : Control} {r : Except QueryError Stamped}
    {ending : Option Outcome} {source target : Evaluation} (h : w.Concludes t f c r w' ending)
    (hmemoize : w.memoize = true) (hsource : source.control = c) (htarget : target.control = .answer r)
    (haloft : w.Aloft f) (hordered : ∀ m, w.memo? f.slot = some m → m.changedAt ≤ m.verifiedAt) :
    ∃ outcome, ending = some outcome ∧ Transition.Tells ⟨source, w, target, w'⟩ f outcome := by
  cases h with
  | @fails c e w' memo made => exact ⟨_, rfl, Transition.tells_ofError htarget (memo _)⟩
  | @confirms walk m w' memo self =>
    have hconfirms : Transition.Confirms ⟨source, w, target, w'⟩ f m :=
      ⟨⟨walk, hsource⟩, htarget, memo, self, haloft.stale m memo⟩
    exact ⟨_, rfl, hconfirms.tells⟩
  | @commits a value d w' kept memo self =>
    have hcommits : Transition.Commits ⟨source, w, target, w'⟩ f (d.renewed value f.revision a.deps) :=
      ⟨⟨a, hsource, rfl⟩, htarget, self, rfl⟩
    -- the last change of the old value is further back than the flight
    have hback (old : Memo) (hold : w.memo? f.slot = some old) : old.changedAt ≠ f.revision :=
      Nat.ne_of_lt (Nat.lt_of_le_of_lt (hordered old hold) (haloft.stale old hold))
    have hchanged := d.changedAt_renewed value f.revision a.deps
    split
    · rename_i hunchanged
      rw [if_pos hunchanged] at hchanged
      obtain ⟨old, hold, hkeeps⟩ := hchanged
      have hold := memo.trans hold
      exact ⟨_, rfl, hcommits.tells_unchanged hold hkeeps (hback old hold)⟩
    · rename_i hunchanged
      rw [if_neg hunchanged] at hchanged
      exact ⟨_, rfl, hcommits.tells_changed hchanged hback⟩
  | passes unkept | lapses unkept => cases hmemoize.symm.trans unkept

/-! ## Trees that are still open -/

/-- What the steps of a request come to: a tree that is still open, with the trees inside it so far, or a
    whole one. -/
inductive Part where
  | under (f : Flight) (slot : SlotInfo) (inner : List Span)
  | whole (span : Span)

/-- The events that tell of a part. -/
def Part.events : Part → List TraceEvent
  | .under f slot inner => .queryStart slot f.revision :: Span.eventsOf inner
  | .whole span => span.events

/-- How many requests a part tells of. -/
def Part.count : Part → Nat
  | .under _ _ inner => Span.countOf inner + 1
  | .whole span => span.count

/-- The steps of a request with some frames around it, and what they tell. -/
inductive Brackets : List Frame → Part → List Transition → Prop
  | hits {x : Transition} {i : SlotId} {m : Memo} {slot : SlotInfo} {frames : List Frame}
    (source : x.source = ⟨.fetch i, frames⟩) (target : x.target = ⟨.answer (.ok m.toStamped), frames⟩)
    (named : x.before.describe? i = some slot) (memo : x.before.memo? i = some m)
    (valid : m.verifiedAt = x.before.revision) (told : x.events = [.queryEnd slot .cacheHit]) :
    Brackets frames (.whole (.hit slot)) [x]
  | meets {x : Transition} {i : SlotId} {path : List String} {frames : List Frame}
    (source : x.source = ⟨.fetch i, frames⟩)
    (target : x.target = ⟨.answer (.error (.cycle path)), frames⟩) (active : i ∈ x.before.active)
    (told : x.events = [.cycleDetected path]) : Brackets frames (.whole (.cycle path)) [x]
  | opens {x : Transition} {i : SlotId} {c : Control} {slot : SlotInfo} {frames : List Frame}
    (source : x.source = ⟨.fetch i, frames⟩) (target : x.target = ⟨c, frames⟩)
    (named : x.before.describe? i = some slot) (outside : i ∉ x.before.active)
    (flight : c.flight? = some ⟨i, x.before.revision⟩)
    (told : x.events = [.queryStart slot x.before.revision]) :
    Brackets frames (.under ⟨i, x.before.revision⟩ slot []) [x]
  | goesOn {x : Transition} {f : Flight} {slot : SlotInfo} {inner : List Span} {frames : List Frame}
    {steps : List Transition} (run : Brackets frames (.under f slot inner) steps) (own : x.Of f frames)
    (told : x.events = []) : Brackets frames (.under f slot inner) (steps ++ [x])
  /-- A request that the flight waits for. -/
  | includes {frame : Frame} {slot : SlotInfo} {inner : List Span} {span : Span} {frames : List Frame}
    {steps nested : List Transition} (run : Brackets frames (.under frame.flight slot inner) steps)
    (whole : Brackets (frame :: frames) (.whole span) nested) :
    Brackets frames (.under frame.flight slot (inner ++ [span])) (steps ++ nested)
  | closes {x : Transition} {f : Flight} {slot : SlotInfo} {inner : List Span}
    {r : Except QueryError Stamped} {outcome : Outcome} {frames : List Frame} {steps : List Transition}
    (run : Brackets frames (.under f slot inner) steps) (own : x.Of f frames)
    (target : x.target = ⟨.answer r, frames⟩) (tells : x.Tells f outcome)
    (told : x.events = [.queryEnd slot outcome]) :
    Brackets frames (.whole (.run slot f.revision inner outcome)) (steps ++ [x])

/-- The steps tell what the part tells, in this order. -/
theorem Brackets.events {frames : List Frame} {part : Part} {steps : List Transition}
    (h : Brackets frames part steps) : steps.flatMap Transition.events = part.events := by
  induction h with
  | hits _ _ _ _ _ told | meets _ _ _ told | opens _ _ _ _ _ told =>
    simp [told, Part.events, Span.events, Span.eventsOf]
  | goesOn run own told ih => simpa [told] using ih
  | includes run whole ih ih' =>
    rw [List.flatMap_append, ih, ih']
    simp [Part.events, Span.eventsOf_append, Span.eventsOf]
  | closes run own target tells told ih =>
    rw [List.flatMap_append, ih]
    simp [told, Part.events, Span.events]

/-- As many of the steps begin a request as the part tells of requests. -/
theorem Brackets.count {frames : List Frame} {part : Part} {steps : List Transition}
    (h : Brackets frames part steps) : steps.countP Transition.begins = part.count := by
  induction h with
  | hits source | meets source | opens source =>
    simp [Transition.begins, source, Part.count, Span.count, Span.countOf]
  | goesOn run own told ih => simpa [own.begins_eq] using ih
  | includes run whole ih ih' =>
    rw [List.countP_append, ih, ih']
    simp only [Part.count, Span.countOf_append, Span.countOf]
    omega
  | closes run own target tells told ih =>
    rw [List.countP_append, ih]
    simp [own.begins_eq, Part.count, Span.count]

/-- Each of the frames is a request that is still open. -/
inductive Opened (w : World) : List Frame → List Transition → Prop
  | nobody : Opened w [] []
  | waits {frame : Frame} {slot : SlotInfo} {inner : List Span} {frames : List Frame}
    {own steps : List Transition} (outer : Opened w frames own)
    (named : w.describe? frame.flight.slot = some slot)
    (run : Brackets frames (.under frame.flight slot inner) steps) :
    Opened w (frame :: frames) (own ++ steps)

/-- Where an evaluation stands in the trees that its steps so far have told. -/
inductive Bracketed (w : World) : Evaluation → List Transition → Prop
  | requested {i : SlotId} {frames : List Frame} {own : List Transition} (outer : Opened w frames own) :
    Bracketed w ⟨.fetch i, frames⟩ own
  | underway {c : Control} {f : Flight} {slot : SlotInfo} {inner : List Span} {frames : List Frame}
    {own steps : List Transition} (outer : Opened w frames own) (flight : c.flight? = some f)
    (named : w.describe? f.slot = some slot) (run : Brackets frames (.under f slot inner) steps) :
    Bracketed w ⟨c, frames⟩ (own ++ steps)
  | answered {r : Except QueryError Stamped} {span : Span} {frames : List Frame}
    {own steps : List Transition} (outer : Opened w frames own)
    (whole : Brackets frames (.whole span) steps) : Bracketed w ⟨.answer r, frames⟩ (own ++ steps)

theorem Opened.continues {frames : List Frame} {own : List Transition} (h : Opened w frames own)
    (hw : w.Continues w') : Opened w' frames own := by
  induction h with
  | nobody => exact .nobody
  | waits outer named run ih => exact .waits ih (hw.describe? named) run

theorem Bracketed.continues {e : Evaluation} {own : List Transition} (h : Bracketed w e own)
    (hw : w.Continues w') : Bracketed w' e own := by
  cases h with
  | requested outer => exact .requested (outer.continues hw)
  | underway outer flight named run => exact .underway (outer.continues hw) flight (hw.describe? named) run
  | answered outer whole => exact .answered (outer.continues hw) whole

/-- A step opens a tree, goes on with the innermost one that is open, or closes it. -/
theorem Bracketed.next {e e' : Evaluation} {own : List Transition} {F : List Flight}
    (h : Bracketed w e own) (hnext : e.Next p t w e' w') (hmemoize : w.memoize = true)
    (hderived : e.OnDerived w) (ht : w.Timely (e.flights ++ F))
    (hwaits : ¬Transition.GivesUp ⟨e, w, e', w'⟩) : Bracketed w' e' (own ++ [⟨e, w, e', w'⟩]) := by
  have hcontinues := hnext.edits.continues
  obtain ⟨told, hreports, htold⟩ := hnext.reports hderived
  have htold : Transition.events ⟨e, w, e', w'⟩ = told := Transition.events_eq htold
  have htells {f : Flight} {c : Control} {r : Except QueryError Stamped} {ending : Option Outcome}
      (hf : f ∈ e.flights) (hconcludes : w.Concludes t f c r w' ending) (hc : e.control = c)
      (hr : e'.control = .answer r) :
      ∃ outcome, ending = some outcome ∧ Transition.Tells ⟨e, w, e', w'⟩ f outcome :=
    hconcludes.tells hmemoize hc hr (ht.aloft f (List.mem_append_left _ hf)) fun m hm =>
      (ht.memo _ m hm).2.1
  have hnamed {i : SlotId} (hi : w.kind? i = some .derived) :
      w.describe? i = some (w.info i) := by
    obtain ⟨info, hinfo, -⟩ := World.exists_describe? hi
    rw [World.info_of_describe? hinfo, hinfo]
  cases hreports with
  | @hits i m frames _ _ memo valid =>
    cases h with
    | requested outer =>
      exact .answered (outer.continues hcontinues)
        (.hits rfl rfl (hnamed (hderived.requested i rfl)) memo valid htold)
    | underway _ flight => cases flight
  | meets active path =>
    cases h with
    | requested outer => exact .answered (outer.continues hcontinues) (.meets rfl rfl active htold)
    | underway _ flight => cases flight
  | stops unkept => cases hmemoize.symm.trans unkept
  | @opens i c frames _ _ outside flight =>
    rw [if_pos hmemoize] at htold
    have hi := hnamed (hderived.requested i rfl)
    cases h with
    | requested outer =>
      exact .underway (outer.continues hcontinues) flight (hcontinues.describe? hi)
        (.opens rfl rfl hi outside flight htold)
    | underway _ flight' => cases flight'
  | @goesOn f c c' frames _ _ flight flight' =>
    cases h with
    | requested | answered => cases flight
    | underway outer flight₀ named run =>
      cases flight₀.symm.trans flight
      rw [List.append_assoc]
      exact .underway (outer.continues hcontinues) flight' (hcontinues.describe? named)
        (run.goesOn (.works rfl flight) htold)
  | @requests c frame i frames _ _ flight derived =>
    cases h with
    | requested | answered => cases flight
    | underway outer flight₀ named run =>
      cases flight₀.symm.trans flight
      rw [List.append_assoc]
      exact .requested (.waits (outer.continues hcontinues) (hcontinues.describe? named)
        (run.goesOn (.works rfl flight) htold))
  | @closes f c r ending frames _ _ flight concludes =>
    cases h with
    | requested | answered => cases flight
    | underway outer flight₀ named run =>
      cases flight₀.symm.trans flight
      obtain ⟨outcome, rfl, htells⟩ := htells (by simp [Evaluation.flights, flight]) concludes rfl rfl
      rw [List.append_assoc]
      refine .answered (outer.continues hcontinues) (run.closes (.works rfl flight) rfl htells ?_)
      rw [htold, World.endOf, World.info_of_describe? named]
      rfl
  | @returns r c frame frames _ _ flight =>
    cases h with
    | underway _ flight => cases flight
    | answered outer whole =>
      cases outer with
      | waits outer named run =>
        rw [List.append_assoc, List.append_assoc, ← List.append_assoc _ _ [_]]
        exact .underway (outer.continues hcontinues) flight (hcontinues.describe? named)
          ((run.includes whole).goesOn (.takesUp rfl rfl) htold)
  | @propagates r r' ending frame frames _ _ concludes =>
    cases h with
    | underway _ flight => cases flight
    | answered outer whole =>
      cases outer with
      | waits outer named run =>
        obtain ⟨outcome, rfl, htells⟩ := htells (by simp [Evaluation.flights]) concludes rfl rfl
        rw [List.append_assoc, List.append_assoc, ← List.append_assoc _ _ [_]]
        refine .answered (outer.continues hcontinues)
          ((run.includes whole).closes (.takesUp rfl rfl) rfl htells ?_)
        rw [htold, World.endOf, World.info_of_describe? named]
        rfl
  | givesUp immediate =>
    exact absurd ⟨_, _, _, rfl, List.mem_append_right _ List.mem_cons_self, immediate⟩ hwaits

/-- The steps of a request that is answered tell one whole tree. -/
theorem Bracketed.whole {r : Except QueryError Stamped} {own : List Transition}
    (h : Bracketed w ⟨.answer r, []⟩ own) : ∃ span, Brackets [] (.whole span) own := by
  cases h with
  | underway _ flight => cases flight
  | answered outer whole =>
    cases outer with
    | nobody => exact ⟨_, whole⟩

/-! ## Requests -/

/-- As long as no caller gives up its callee, the steps of an evaluation are those of the trees that are
    open. -/
theorem Evaluation.Thread.bracketed {e : Evaluation} {own : List Transition} (h : Thread p t own e w)
    (hmemoize : w.memoize = true) (hwaits : ∀ x ∈ own, ¬x.GivesUp) : Bracketed w e own := by
  induction h with
  | begins => exact .requested .nobody
  | step thread hosts next ih =>
    obtain ⟨hbefore, hlast⟩ := List.forall_mem_append.1 hwaits
    rw [next.edits.memoize] at hmemoize
    obtain ⟨-, F, -, -, ht⟩ := hosts.among
    exact (ih hmemoize hbefore).next next hmemoize thread.onDerived ht
      (hlast _ (List.mem_singleton_self _))
  | rests thread continues memoize ih => exact (ih (memoize ▸ hmemoize) hwaits).continues continues

/-- What the tracer is told of a request by the polls of its task. -/
structure Session.ToldAsTree (own : List Transition) (told : List TraceEvent) (poll : Poll) : Prop where
  /-- It is told what the steps of the evaluation tell. -/
  steps : told = own.flatMap Transition.events
  /-- When the request is answered and no caller has given up its callee, these are the steps of one tree,
      and the tree is told; or there are none, if the request needs no evaluation. -/
  tree : ∀ result, poll = .ready result → (∀ x ∈ own, ¬x.GivesUp) → own = [] ∨
    ∃ span, Brackets [] (.whole span) own ∧ told = span.events ∧
      own.countP Transition.begins = span.count

/-- What a tracer is told of a request is well bracketed and true. Take any program, and any steps of a
    client of a system with a memory: the client makes requests, polls, drops and cancels them in any
    order, and writes and clears in between. Whenever a step takes up a request, there are the steps that
    its evaluation has taken since the request was made, and what the reports of its polls have told of
    requests for derived values is what these steps tell. If the request is answered and no caller has
    given up its callee, what is told is a tree: a request for a slot is told as a hit or as a cycle, or it
    starts and ends, with the trees of the requests in between that it has waited for. There is one tree for
    each request for a slot, and the trees are nested as the requests are (`Brackets`). A slot is said to
    have changed exactly if a value was kept that is stamped as new, to be unchanged exactly if a value was
    kept with the stamp of the one before, and to be revalidated exactly if just the revision up to which
    its value is valid has moved on; otherwise the request has failed, nothing was kept, and the outcome is
    that of the error with which the request was answered (`Transition.Tells`). -/
theorem requests_told_as_trees (p : Program) (limits : Session.Limits) (traced : Bool) :
    (∀ steps step task, step.task? ((Session.fresh true traced).after p limits steps) = some task →
      ∃ own told poll, (Session.fresh true traced).Conducts p limits (steps ++ [step]) own told poll ∧
        (((Session.fresh true traced).after p limits steps).step p limits step).1 = poll.answer) ∧
    ∀ steps own told poll, (Session.fresh true traced).Conducts p limits steps own told poll →
      Session.ToldAsTree own told poll := by
  refine ⟨fun steps step task htask => Session.exists_conducts limits rfl steps htask,
    fun steps own told poll hconducts => ?_⟩
  obtain ⟨htold, t, w, hpolled, hmemoize⟩ := hconducts.polled (Session.orderly_fresh p true traced)
  refine ⟨htold, fun result hready hwaits => ?_⟩
  subst hready
  cases hpolled with
  | answered none => exact .inl none
  | ends thread edits =>
    obtain ⟨span, hspan⟩ := (thread.bracketed (edits.memoize ▸ hmemoize) hwaits).whole
    exact .inr ⟨span, hspan, htold.trans hspan.events, hspan.count⟩

/-! ## A query that calls another one -/

/-- A task for such a query. -/
def nestedTask : Task := { request := .query .waiting "successor" .unit, token := 1 }

/-- The session in which the query is requested. -/
def nestedSession : Session :=
  (Session.fresh true true).after twice ⟨40, 3⟩ [.perform (.write .blocking ⟨"x"⟩ .unit (.int 5)) none]

/-- What is told of the request. -/
def nestedEvents : List TraceEvent :=
  [.queryStart ⟨⟨"successor"⟩, "()", .derived⟩ 2, .queryStart ⟨⟨"twice"⟩, "()", .derived⟩ 2,
    .queryEnd ⟨⟨"twice"⟩, "()", .derived⟩ .changed, .queryEnd ⟨⟨"successor"⟩, "()", .derived⟩ .changed]

theorem requests_told_as_trees_twice : ∃ own span,
    (Session.fresh true true).Conducts twice ⟨40, 3⟩
      [.perform (.write .blocking ⟨"x"⟩ .unit (.int 5)) none, .perform nestedTask.request none] own
      nestedEvents (.ready (.ok (.value (.int 11)))) ∧
    (∀ x ∈ own, ¬x.GivesUp) ∧ Brackets [] (.whole span) own ∧ span.events = nestedEvents ∧
      span.count = 2 := by
  obtain ⟨w₀, w, result, hbegins, hdrive, hyields, hresult, hcount, hrun, htold⟩ : ∃ w₀ w result,
      nestedTask.Begins twice nestedSession.world (Evaluation.request 1) w₀ ∧
      drive twice 1 9 (Evaluation.request 1) w₀ = .running ⟨.answer result, []⟩ w ∧
      (trail twice 1 9 (Evaluation.request 1) w₀).all (fun x => !x.yields) = true ∧
      result.map nestedTask.request.replyOf = .ok (.value (.int 11)) ∧
      (trail twice 1 9 (Evaluation.request 1) w₀).countP Transition.begins = 2 ∧
      nestedTask.run twice 40 3 nestedSession.world =
        (.ready (result.map nestedTask.request.replyOf), nestedTask.request.access.release w) ∧
      (nestedSession.report twice ⟨40, 3⟩ (.perform nestedTask.request none)).1.queryEvents =
        nestedEvents :=
    ⟨_, _, _, .inr ⟨rfl, _, rfl, rfl⟩, rfl, by decide +kernel, rfl, by decide +kernel, rfl,
      by decide +kernel⟩
  have htrail := trail_of_drive hdrive
  generalize trail twice 1 9 (Evaluation.request 1) w₀ = own at htrail hyields hcount
  have hwaits (x : Transition) (hx : x ∈ own) : ¬x.GivesUp := by
    rintro ⟨a, next, caller, hyield, -⟩
    have hnone := List.all_eq_true.1 hyields x hx
    rw [Transition.yields, hyield] at hnone
    cases hnone
  have htakes : Task.Takes twice nestedTask nestedSession.world own _ := .ends hbegins htrail
  have hconducts := @Session.Conducts.performs twice ⟨40, 3⟩ (Session.fresh true true)
    [.perform (.write .blocking ⟨"x"⟩ .unit (.int 5)) none] nestedTask.request none own _ htakes hrun
  replace hconducts : (Session.fresh true true).Conducts twice ⟨40, 3⟩
      [.perform (.write .blocking ⟨"x"⟩ .unit (.int 5)) none, .perform nestedTask.request none] own
      nestedEvents (.ready (.ok (.value (.int 11)))) := by
    rw [← htold, ← hresult]
    exact hconducts
  obtain ⟨-, htree⟩ := (requests_told_as_trees twice ⟨40, 3⟩ true).2 _ _ _ _ hconducts
  rcases htree _ rfl hwaits with rfl | ⟨span, hspan, hevents, hspans⟩
  · cases hcount
  · exact ⟨own, span, hconducts, hwaits, hspan, hevents.symm, hspans.symm.trans hcount⟩

end RedGreen
