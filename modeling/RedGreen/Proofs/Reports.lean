import RedGreen.Proofs.Directory
import RedGreen.Proofs.Edits

set_option autoImplicit false

/-! # What a step tells the tracer

A step of an evaluation tells the tracer of at most one event (`Next.reports`): that a request for a
derived value starts or ends, or meets a cycle. A request that gets onto the active stack ends in one
of five ways (`Concludes`), and the tracer is told which, except that a system which keeps nothing says
nothing of a request that was found cancelled before its body started or after it ended with a value. -/

namespace RedGreen

open Evaluation

variable {p : Program} {t : Token} {w w' : World}

/-- The event tells of a request for a derived value. -/
@[simp] def TraceEvent.ofQuery : TraceEvent → Bool
  | .inputSet _ _ => false
  | .queryStart _ _ | .queryEnd _ _ | .cycleDetected _ => true

/-! ## Descriptions -/

namespace World

theorem describe?_eq_blank (w : World) (i : SlotId) :
    w.describe? i = (w.slots.map Slot.blank)[i]?.map Slot.info := by
  rw [System.describe?, List.getElem?_map, Option.map_map]
  refine Option.map_congr fun slot _ => ?_
  obtain ⟨query, key, content⟩ := slot
  cases content <;> rfl

/-- A slot goes by its name for good. -/
theorem Continues.describe? (h : w.Continues w') {i : SlotId} {info : SlotInfo}
    (hi : w.describe? i = some info) : w'.describe? i = some info := by
  rw [describe?_eq_blank, Option.map_eq_some_iff] at hi ⊢
  obtain ⟨slot, hslot, rfl⟩ := hi
  obtain ⟨more, hmore⟩ := h.slots
  refine ⟨slot, ?_, rfl⟩
  rw [← hmore, List.getElem?_append_left (List.getElem?_eq_some_iff.1 hslot).1]
  exact hslot

theorem info_of_describe? {i : SlotId} {info : SlotInfo} (h : w.describe? i = some info) :
    w.info i = info := by
  rw [System.info, h]
  rfl

/-- A slot that is written or computed has a name. -/
theorem exists_describe? {i : SlotId} {k : SlotKind} (h : w.kind? i = some k) :
    ∃ info, w.describe? i = some info ∧ info.kind = k := by
  obtain ⟨slot, hslot, rfl⟩ := Option.map_eq_some_iff.1 h
  exact ⟨slot.info, by rw [System.describe?, hslot]; rfl, rfl⟩

theorem kind?_of_describe? {i : SlotId} {info : SlotInfo} (h : w.describe? i = some info) :
    w.kind? i = some info.kind := by
  obtain ⟨slot, hslot, rfl⟩ := Option.map_eq_some_iff.1 h
  rw [System.kind?, hslot]
  rfl

theorem info_setMemo (w : World) (i j : SlotId) (memo : Option Memo) :
    (w.setMemo i memo).info j = w.info j := by
  have hblank : (w.setMemo i memo).slots.map Slot.blank = w.slots.map Slot.blank := by
    refine List.ext_getElem? fun k => ?_
    rw [List.getElem?_map, List.getElem?_map, slots_setMemo]
    split
    · cases w.slots[k]? <;> simp
    · rfl
  rw [System.info, System.info, describe?_eq_blank, describe?_eq_blank, hblank]

/-! ## The events of an operation -/

/-- What the tracer was told of requests for derived values. -/
def queryEvents (w : World) : List TraceEvent := w.journal.events.filter TraceEvent.ofQuery

theorem Hushed.queryEvents (h : w.Hushed w') : w'.queryEvents = w.queryEvents := by
  obtain ⟨told, htold, hhushed⟩ := h
  have hnone : told.events.filter TraceEvent.ofQuery = [] := by
    refine List.filter_eq_nil_iff.2 fun e he => ?_
    obtain ⟨entry, hentry, heq⟩ := List.mem_filterMap.1 he
    have hhushed := hhushed entry hentry
    cases entry with
    | log => cases heq
    | run => cases heq
    | event e' =>
      cases heq
      cases e with
      | inputSet => simp
      | queryStart | queryEnd | cycleDetected => exact hhushed.elim
  rw [World.queryEvents, World.queryEvents, htold, Journal.events_append, List.filter_append, hnone,
    List.append_nil]

variable (w)

@[simp] theorem queryEvents_log (e : LogEvent) : (w.log e).queryEvents = w.queryEvents :=
  (w.hushed_log e).queryEvents

@[simp] theorem queryEvents_leave (i : SlotId) : (w.leave i).queryEvents = w.queryEvents :=
  (w.hushed_leave i).queryEvents

@[simp] theorem queryEvents_event (e : TraceEvent) :
    (w.event e).queryEvents = w.queryEvents ++ [e].filter TraceEvent.ofQuery := by
  simp [queryEvents, event, note, Journal.events]

@[simp] theorem queryEvents_setMemo (i : SlotId) (memo : Option Memo) :
    (w.setMemo i memo).queryEvents = w.queryEvents := rfl

theorem queryEvents_startBody (p : Program) (i : SlotId) (r : Revision) :
    (w.startBody p i r).2.queryEvents = w.queryEvents := by
  unfold startBody
  split
  · simp [queryEvents, note, Journal.events]
  · rfl

@[simp] theorem queryEvents_fail (i : SlotId) (e : QueryError) :
    (w.fail i e).2.queryEvents = w.queryEvents ++ [.queryEnd (w.info i) (.ofError e)] := by
  simp [fail]

@[simp] theorem queryEvents_succeed (i : SlotId) (result : Stamped) (outcome : Outcome) :
    (w.succeed i result outcome).2.queryEvents = w.queryEvents ++ [.queryEnd (w.info i) outcome] := by
  simp [succeed]

/-! ## Ends of requests -/

/-- How a request for a slot in progress comes to its end: from which control, with what answer, and
    which outcome the tracer is told, if any. -/
inductive Concludes (t : Token) (w : World) (f : Flight) :
    Control → Except QueryError Stamped → World → Option Outcome → Prop
  /-- Without a memory this is not how a body ends that has made a value. -/
  | fails {c : Control} {e : QueryError} {w' : World} (memo : ∀ i, w'.memo? i = w.memo? i)
    (made : ∀ a value, c = .body a (.done (.ok value)) → w.memoize = true) :
    Concludes t w f c (.error e) w' (some (.ofError e))
  /-- A revalidation has found no change. -/
  | confirms {walk : Walk} {m : Memo} {w' : World} (memo : w.memo? f.slot = some m)
    (self : w'.memo? f.slot = some { m with verifiedAt := f.revision }) :
    Concludes t w f (.walk walk) (.ok m.toStamped) w' (some .revalidated)
  /-- A run has ended with a value, which is kept. -/
  | commits {a : Activation} {value : Value} {d : Derived} {w' : World} (kept : w.memoize = true)
    (memo : w.memo? f.slot = d.memo)
    (self : w'.memo? f.slot = some (d.renewed value f.revision a.deps)) :
    Concludes t w f (.body a (.done (.ok value))) (.ok (d.renewed value f.revision a.deps).toStamped)
      w' (some (if d.isUnchanged value then .unchanged else .changed))
  /-- A run has ended with a value, and nothing is kept. -/
  | passes {a : Activation} {value : Value} {w' : World} (unkept : w.memoize = false) :
    Concludes t w f (.body a (.done (.ok value))) (.ok ⟨value, f.revision⟩) w' (some .changed)
  /-- The value of a run that was cancelled is not used, and nothing is told. -/
  | lapses {a : Activation} {value : Value} {w' : World} (unkept : w.memoize = false)
    (cancelled : t ∈ w.cancelled) :
    Concludes t w f (.body a (.done (.ok value))) (.error .cancelled) w' none

/-- The event that tells of an end, if there is one. -/
def endOf (w : World) (i : SlotId) (ending : Option Outcome) : List TraceEvent :=
  (ending.map (TraceEvent.queryEnd (w.info i))).toList

/-- What ends a request for a slot in progress, and tells so. -/
def Resolves (t : Token) (w : World) (f : Flight) (c : Control) (out : Control × World) : Prop :=
  ∃ r ending, out.1 = .answer r ∧ Concludes t w f c r out.2 ending ∧
    out.2.queryEvents = w.queryEvents ++ w.endOf f.slot ending

theorem resolves_fail (t : Token) (w : World) (f : Flight) {c : Control} (e : QueryError)
    (hmade : ∀ a value, c = .body a (.done (.ok value)) → w.memoize = true) :
    Resolves t w f c (w.fail f.slot e) :=
  ⟨_, _, rfl, .fails (((w.rests_log _).trans (rests_event _ _)).vacates (vacates_leave _ _)).memo hmade,
    w.queryEvents_fail f.slot e⟩

theorem resolves_commit {a : Activation} (hkept : w.memoize = true)
    (hkind : w.kind? a.slot = some .derived) (value : Value) :
    Resolves t w ⟨a.slot, a.revision⟩ (.body a (.done (.ok value))) (w.commit a value) := by
  obtain ⟨⟨query, key, content⟩, hslot, hderived⟩ := Option.map_eq_some_iff.1 hkind
  cases content with
  | input written => cases hderived
  | derived d =>
    have hmemo : w.memo? a.slot = d.memo := by rw [System.memo?, hslot]; rfl
    have hself := memo?_setMemo_self hslot (d.renewed value a.revision a.deps)
    have hcommits (x : Stamped) (outcome : Outcome) (w₁ : World)
        (hw₁ : ∀ j, w₁.memo? j = (w.setMemo a.slot (some (d.renewed value a.revision a.deps))).memo? j) :
        Concludes t w ⟨a.slot, a.revision⟩ (.body a (.done (.ok value)))
          (.ok (d.renewed value a.revision a.deps).toStamped) (w₁.succeed a.slot x outcome).2
          (some (if d.isUnchanged value then .unchanged else .changed)) :=
      .commits hkept hmemo (((memo_succeed _ _ _ _ _).trans (hw₁ _)).trans hself)
    unfold commit
    simp only [hslot]
    split
    · rename_i hunchanged
      simp only [hunchanged, if_true] at hcommits
      exact ⟨_, _, rfl, hcommits _ _ _ fun _ => rfl, by simp [endOf, info_setMemo]⟩
    · rename_i hchanged
      simp only [hchanged] at hcommits
      exact ⟨_, _, rfl, hcommits _ _ _ fun _ => rfl, by simp [endOf, info_setMemo]⟩

theorem check_eq_error_iff {e : QueryError} : w.check t = .error e ↔ t ∈ w.cancelled ∧ e = .cancelled := by
  unfold check
  split <;> simp_all [eq_comm]

/-- A run that ends is the end of its request. -/
theorem resolves_finish {a : Activation} (hkind : w.kind? a.slot = some .derived)
    (result : Except QueryError Value) :
    Resolves t w ⟨a.slot, a.revision⟩ (.body a (.done result)) (w.finish t a result) := by
  unfold finish
  split
  · exact resolves_fail t w ⟨a.slot, a.revision⟩ _ nofun
  · split
    · rename_i hcheck
      obtain ⟨hcancelled, rfl⟩ := (check_eq_error_iff w).1 hcheck
      split
      · rename_i hkept
        exact resolves_fail t w ⟨a.slot, a.revision⟩ _ fun _ _ _ => hkept
      · rename_i hunkept
        exact ⟨_, _, rfl, .lapses (by simpa using hunkept) hcancelled, by simp [endOf]⟩
    · split
      · exact resolves_commit w ‹_› hkind _
      · rename_i hunkept
        exact ⟨_, _, rfl, .passes (by simpa using hunkept), w.queryEvents_succeed a.slot _ _⟩

/-! ## Steps for a slot in progress -/

/-- A step for a slot in progress ends its request and tells so, or goes on and tells nothing. -/
def Handles (t : Token) (w : World) (f : Flight) (c : Control) (out : Control × World) : Prop :=
  Resolves t w f c out ∨ out.1.flight? = some f ∧ out.2.queryEvents = w.queryEvents

theorem handles_compute (p : Program) (t : Token) (w : World) (f : Flight) :
    Handles t w f (.compute f.slot f.revision) (w.compute p t f.slot f.revision) := by
  unfold compute
  split
  · exact .inl (resolves_fail t w f _ nofun)
  · refine .inr ⟨?_, ?_⟩
    · obtain ⟨body, w', hstart, -⟩ :=
        (w.log (.recompute (w.info f.slot) f.revision)).startBody_footprint p f.slot f.revision
      rw [hstart]
      rfl
    · exact (queryEvents_startBody _ _ _ _).trans (w.queryEvents_log _)

theorem handles_verify (t : Token) (w : World) (walk : Walk) :
    Handles t w ⟨walk.slot, walk.revision⟩ (.walk walk) (w.verify walk) := by
  cases hm : w.memo? walk.slot with
  | none =>
    simp only [verify, hm]
    exact .inr ⟨rfl, rfl⟩
  | some m =>
    obtain ⟨hanswer, hself⟩ := memo_verify hm
    refine .inl ⟨_, _, hanswer, .confirms hm hself, ?_⟩
    simp [verify, hm, endOf, info_setMemo]

theorem handles_touched (t : Token) (w : World) (walk : Walk) (dep : SlotId) (changedAt : Revision)
    {c : Control} (hmade : ∀ a value, c = .body a (.done (.ok value)) → w.memoize = true) :
    Handles t w ⟨walk.slot, walk.revision⟩ c (w.touched t walk dep changedAt) := by
  unfold touched
  split
  · exact .inl (resolves_fail t w ⟨walk.slot, walk.revision⟩ _ hmade)
  · split
    · exact .inr ⟨rfl, w.queryEvents_log _⟩
    · exact .inr ⟨rfl, rfl⟩

end World

/-! ## Steps -/

namespace Evaluation

/-- What a step of an evaluation tells the tracer. -/
inductive Reports (t : Token) : Evaluation → World → Evaluation → World → List TraceEvent → Prop
  /-- The value of a requested slot is valid as of now. -/
  | hits {i : SlotId} {m : Memo} {frames : List Frame} {w w' : World} (memo : w.memo? i = some m)
    (valid : m.verifiedAt = w.revision) :
    Reports t ⟨.fetch i, frames⟩ w ⟨.answer (.ok m.toStamped), frames⟩ w'
      [.queryEnd (w.info i) .cacheHit]
  /-- A requested slot is in progress. -/
  | meets {i : SlotId} {frames : List Frame} {w w' : World} (active : i ∈ w.active) (path : List String) :
    Reports t ⟨.fetch i, frames⟩ w ⟨.answer (.error (.cycle path)), frames⟩ w' [.cycleDetected path]
  /-- A request for a slot whose value is not kept was cancelled before its body started. -/
  | stops {i : SlotId} {frames : List Frame} {w w' : World} (unkept : w.memoize = false)
    (outside : i ∉ w.active) (cancelled : t ∈ w.cancelled) :
    Reports t ⟨.fetch i, frames⟩ w ⟨.answer (.error .cancelled), frames⟩ w' []
  | opens {i : SlotId} {c : Control} {frames : List Frame} {w w' : World} (outside : i ∉ w.active)
    (flight : c.flight? = some ⟨i, w.revision⟩) :
    Reports t ⟨.fetch i, frames⟩ w ⟨c, frames⟩ w'
      (if w.memoize then [.queryStart (w.info i) w.revision] else [])
  | closes {f : Flight} {c : Control} {r : Except QueryError Stamped} {ending : Option Outcome}
    {frames : List Frame} {w w' : World} (flight : c.flight? = some f)
    (concludes : w.Concludes t f c r w' ending) :
    Reports t ⟨c, frames⟩ w ⟨.answer r, frames⟩ w' (w.endOf f.slot ending)
  | goesOn {f : Flight} {c c' : Control} {frames : List Frame} {w w' : World}
    (flight : c.flight? = some f) (flight' : c'.flight? = some f) :
    Reports t ⟨c, frames⟩ w ⟨c', frames⟩ w' []
  | requests {c : Control} {frame : Frame} {i : SlotId} {frames : List Frame} {w w' : World}
    (flight : c.flight? = some frame.flight) (derived : w'.kind? i = some .derived) :
    Reports t ⟨c, frames⟩ w ⟨.fetch i, frame :: frames⟩ w' []
  | returns {r : Except QueryError Stamped} {c : Control} {frame : Frame} {frames : List Frame}
    {w w' : World} (flight : c.flight? = some frame.flight) :
    Reports t ⟨.answer r, frame :: frames⟩ w ⟨c, frames⟩ w' []
  /-- A revalidation ends with the answer for its dependency. -/
  | propagates {r r' : Except QueryError Stamped} {ending : Option Outcome} {frame : Frame}
    {frames : List Frame} {w w' : World}
    (concludes : w.Concludes t frame.flight (.answer r) r' w' ending) :
    Reports t ⟨.answer r, frame :: frames⟩ w ⟨.answer r', frames⟩ w' (w.endOf frame.flight.slot ending)
  /-- A caller that does not wait gives up its callee. -/
  | givesUp {a : Activation} {next b : Body} {inside outside : List Frame} {caller : Caller}
    {w w' : World} (immediate : caller.mode = .immediate) :
    Reports t ⟨.body a (.yield next), inside ++ .calling caller :: outside⟩ w
      ⟨.body caller.activation b, outside⟩ w' []

/-- What is in progress, and what is requested, are derived slots. -/
structure OnDerived (w : World) (e : Evaluation) : Prop where
  flights : ∀ f ∈ e.flights, w.kind? f.slot = some .derived
  requested : ∀ i, e.control = .fetch i → w.kind? i = some .derived

theorem OnDerived.mono {e : Evaluation} (h : e.OnDerived w)
    (hkind : ∀ i, w.kind? i = some .derived → w'.kind? i = some .derived) : e.OnDerived w' :=
  ⟨fun f hf => hkind _ (h.flights f hf), fun i hi => hkind _ (h.requested i hi)⟩

variable {e e' : Evaluation} {frames : List Frame} {c : Control}

/-- A step tells some events, and no others. -/
def Next.Reported (t : Token) (e : Evaluation) (w : World) (e' : Evaluation) (w' : World) : Prop :=
  ∃ told, Reports t e w e' w' told ∧ w'.queryEvents = w.queryEvents ++ told

theorem reported_of_handles {f : Flight} {out : Control × World} (hc : c.flight? = some f)
    (h : w.Handles t f c out) : Next.Reported t ⟨c, frames⟩ w ⟨out.1, frames⟩ out.2 := by
  obtain ⟨c', w'⟩ := out
  rcases h with ⟨r, ending, rfl, hconcludes, htold⟩ | ⟨hflight, htold⟩
  · exact ⟨_, .closes hc hconcludes, htold⟩
  · exact ⟨_, .goesOn hc hflight, by simpa using htold⟩

theorem reported_of_handles_answer {r : Except QueryError Stamped} {frame : Frame}
    {out : Control × World} (h : w.Handles t frame.flight (.answer r) out) :
    Next.Reported t ⟨.answer r, frame :: frames⟩ w ⟨out.1, frames⟩ out.2 := by
  obtain ⟨c', w'⟩ := out
  rcases h with ⟨r, ending, rfl, hconcludes, htold⟩ | ⟨hflight, htold⟩
  · exact ⟨_, .propagates hconcludes, htold⟩
  · exact ⟨_, .returns hflight, by simpa using htold⟩

theorem reported_fetch (p : Program) (t : Token) (w : World) (i : SlotId) (frames : List Frame) :
    Next.Reported t ⟨.fetch i, frames⟩ w ⟨(w.fetch p t i).1, frames⟩ (w.fetch p t i).2 := by
  have hstart {c : Control} (hmemoize : w.memoize = true) (hc : c.flight? = some ⟨i, w.revision⟩) :
      Next.Reported t ⟨.fetch i, frames⟩ w ⟨(w.start i c).1, frames⟩ (w.start i c).2 := by
    by_cases hi : i ∈ w.active
    · rw [World.start, World.enter, if_pos hi]
      exact ⟨_, .meets hi _, by simp⟩
    · rw [World.start, World.enter, if_neg hi]
      refine ⟨_, .opens hi hc, ?_⟩
      rw [if_pos hmemoize, World.queryEvents_event, World.queryEvents_log]
      rfl
  unfold World.fetch
  split
  · rename_i hmemoize
    unfold World.beginMemoized
    split
    · split
      · exact ⟨_, .hits ‹_› ‹_›, by simp⟩
      · exact hstart hmemoize rfl
    · exact hstart hmemoize rfl
  · rename_i hunkept
    have hunkept : w.memoize = false := by simpa using hunkept
    unfold World.beginUncached
    by_cases hi : i ∈ w.active
    · rw [World.enter, if_pos hi]
      exact ⟨_, .meets hi _, by simp⟩
    · rw [World.enter, if_neg hi]
      simp only
      split
      · rename_i hcheck
        obtain ⟨hcancelled, rfl⟩ := (World.check_eq_error_iff _).1 hcheck
        refine ⟨_, .stops hunkept hi hcancelled, ?_⟩
        rw [World.queryEvents_leave, World.queryEvents_log, List.append_nil]
        rfl
      · generalize hstarted : ((w.setActive (w.active ++ [i])).log (.entered i (w.active.length + 1))) = w₁
        obtain ⟨body, w₂, hbody, -⟩ :=
          (w₁.log (.computeUncached (w₁.info i) w₁.revision)).startBody_footprint p i w₁.revision
        have htold := World.queryEvents_startBody (w₁.log (.computeUncached (w₁.info i) w₁.revision)) p i
          w₁.revision
        subst hstarted
        refine ⟨_, .opens hi ?_, ?_⟩
        · rw [hbody]
          rfl
        · rw [htold, World.queryEvents_log, World.queryEvents_log, hunkept]
          exact (List.append_nil _).symm

theorem reported_stepBody {a : Activation} {body : Body} (hderived : w.kind? a.slot = some .derived)
    (h : stepBody p t a body frames w = .running e' w' ∨
      stepBody p t a body frames w = .parked e' w') :
    Next.Reported t ⟨.body a body, frames⟩ w e' w' := by
  cases body with
  | done result =>
    obtain ⟨rfl, rfl⟩ := eq_of_resume h
    exact reported_of_handles (f := ⟨a.slot, a.revision⟩) rfl (.inl (w.resolves_finish hderived result))
  | perform op next =>
    obtain ⟨hslot, hrevision, -⟩ := w.perform_footprint t a op
    have htold := (w.hushed_perform t a op).queryEvents
    simp only [stepBody] at h
    generalize w.perform t a op = out at h hslot hrevision htold
    rcases h with h | h <;> cases h
    refine ⟨[], .goesOn (f := ⟨a.slot, a.revision⟩) rfl ?_, by simpa using htold⟩
    rw [Control.flight?, hslot, hrevision]
  | call mode label key next =>
    have htold : (w.derivedSlot (p label).id (p label).valueType key label
        (p label).equality).2.queryEvents = w.queryEvents := (w.hushed_slotFor _ _).queryEvents
    simp only [stepBody, stepCall] at h
    generalize hfound : w.derivedSlot (p label).id (p label).valueType key label (p label).equality = found
      at h htold
    obtain ⟨found, w₁⟩ := found
    cases found with
    | error e =>
      rcases h with h | h <;> cases h
      exact ⟨[], .goesOn rfl rfl, by simpa using htold⟩
    | ok callee =>
      rcases h with h | h <;> cases h
      have hkind : w₁.kind? callee = some .derived := World.kind?_of_slotFor hfound
      refine ⟨[], .requests rfl ((w₁.edits_record (p := p) a callee).kind? hkind), ?_⟩
      rw [(w₁.hushed_record a callee).queryEvents, List.append_nil]
      exact htold
  | yield next =>
    simp only [stepBody, stepYield] at h
    cases hsplit : splitAtImmediate frames with
    | none =>
      rw [hsplit] at h
      rcases h with h | h <;> cases h
      exact ⟨[], .goesOn rfl rfl, by simp⟩
    | some split =>
      obtain ⟨inside, caller, outside⟩ := split
      obtain ⟨rfl, himmediate⟩ := eq_append_of_splitAtImmediate hsplit
      rw [hsplit] at h
      rcases h with h | h <;> cases h
      exact ⟨[], .givesUp himmediate, by simpa using (w.hushed_leaveAll _).queryEvents⟩

/-- Every step reports as described. -/
theorem Next.reports (h : e.Next p t w e' w') (hderived : e.OnDerived w) :
    Next.Reported t e w e' w' := by
  obtain ⟨control, frames⟩ := e
  cases control with
  | fetch i =>
    obtain ⟨rfl, rfl⟩ := eq_of_resume h
    exact reported_fetch p t w i frames
  | walk walk =>
    simp only [Next, step, stepWalk] at h
    split at h
    · obtain ⟨rfl, rfl⟩ := eq_of_resume h
      exact reported_of_handles rfl (World.handles_verify t w walk)
    · split at h
      · rename_i hkind
        rcases h with h | h <;> cases h
        exact ⟨[], .requests rfl hkind, by simp⟩
      · obtain ⟨rfl, rfl⟩ := eq_of_resume h
        exact reported_of_handles rfl
          (World.handles_touched t w { walk with rest := _ } _ _ fun _ _ h => by cases h)
  | compute i r =>
    obtain ⟨rfl, rfl⟩ := eq_of_resume h
    exact reported_of_handles rfl (World.handles_compute p t w ⟨i, r⟩)
  | body a body =>
    exact reported_stepBody (hderived.flights ⟨a.slot, a.revision⟩ List.mem_cons_self) h
  | answer r =>
    cases frames with
    | nil => rcases h with h | h <;> cases h
    | cons frame frames =>
      cases frame with
      | touching walk dep =>
        cases r with
        | error e =>
          obtain ⟨rfl, rfl⟩ := eq_of_resume h
          exact @reported_of_handles_answer _ _ _ _ (.touching walk dep) _
            (.inl (World.resolves_fail t w ⟨walk.slot, walk.revision⟩ e fun _ _ h => by cases h))
        | ok stamped =>
          obtain ⟨rfl, rfl⟩ := eq_of_resume h
          exact @reported_of_handles_answer _ _ _ _ (.touching walk dep) _
            (World.handles_touched t w walk dep stamped.changedAt fun _ _ h => by cases h)
      | calling caller =>
        rcases h with h | h <;> cases h
        exact ⟨[], .returns rfl, by simp⟩

theorem OnDerived.next (h : e.OnDerived w) (hnext : e.Next p t w e' w') : e'.OnDerived w' := by
  obtain ⟨told, hreports, -⟩ := hnext.reports h
  obtain ⟨hflights, hrequested⟩ := h.mono fun i => hnext.edits.kind? (i := i)
  -- what is in progress is not requested
  have hunrequested {f : Flight} {c : Control} (hc : c.flight? = some f) (i : SlotId)
      (hi : c = .fetch i) : w'.kind? i = some .derived := by
    subst hi
    cases hc
  simp only [Evaluation.flights] at hflights
  cases hreports with
  | hits | meets | stops => exact ⟨hflights, fun i hi => by cases hi⟩
  | opens outside flight =>
    refine ⟨fun f hf => ?_, hunrequested flight⟩
    rw [Evaluation.flights, flight] at hf
    rcases List.mem_cons.1 hf with rfl | hf
    · exact hrequested _ rfl
    · exact hflights f hf
  | closes flight => exact ⟨fun f hf => hflights f (List.mem_append_right _ hf), fun i hi => by cases hi⟩
  | goesOn flight flight' =>
    rw [flight, ← flight'] at hflights
    exact ⟨hflights, hunrequested flight'⟩
  | requests flight derived =>
    rw [flight] at hflights
    refine ⟨hflights, fun i hi => ?_⟩
    cases hi
    exact derived
  | returns flight =>
    refine ⟨fun f hf => hflights f ?_, hunrequested flight⟩
    rwa [Evaluation.flights, flight] at hf
  | propagates =>
    exact ⟨fun f hf => hflights f (List.mem_cons_of_mem _ hf), fun i hi => by cases hi⟩
  | givesUp =>
    refine ⟨fun f hf => hflights f ?_, fun i hi => by cases hi⟩
    rw [List.map_append]
    exact List.mem_append_right _ (List.mem_append_right _ hf)

end Evaluation

end RedGreen
