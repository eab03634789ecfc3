import RedGreen.Proofs.Conflicts
import RedGreen.Proofs.SlotTexts
import RedGreen.Proofs.Tellings

set_option autoImplicit false

/-! # What a name denotes

An observer knows slots by their names: an event is about a text, the path of a cycle is a list of texts, and
a collector of events is asked for the outcomes of a text. Since slots have different texts, all of this can
be read without doubt (`World.Legible`): an event is about one slot, a path leads along one list of slots, and
the outcomes of a text are those of one slot. Nor can a name come to denote something else
(`slot_texts_identify_slots`). -/

namespace RedGreen

open Evaluation

variable {p : Program} {w w' : World} {strays : SlotId → Prop}

/-- The description of the slot that an event is about. A cycle is not about a single slot. -/
def TraceEvent.slot? : TraceEvent → Option SlotInfo
  | .inputSet slot _ | .queryStart slot _ | .queryEnd slot _ => some slot
  | .cycleDetected _ => none

/-- How a request for the value of a slot ended, if an event tells this. -/
def World.outcome? (w : World) (i : SlotId) : TraceEvent → Option Outcome
  | .queryEnd info outcome => if w.describe? i = some info then some outcome else none
  | _ => none

/-! ## Names in a world -/

namespace World

/-- Whatever an observer is told can be read. -/
structure Legible (w : World) (strays : SlotId → Prop) (c : Collector) : Prop where
  /-- Two slots have different texts. -/
  distinct : ∀ (i j : SlotId) (a b : Slot), w.slots[i]? = some a → w.slots[j]? = some b → i ≠ j →
    a.query.name ++ "(" ++ a.key.text ++ ")" ≠ b.query.name ++ "(" ++ b.key.text ++ ")"
  /-- What an event is about is a slot, and its text denotes nothing else. -/
  events : ∀ e ∈ c.events, ∀ info, e.slot? = some info →
    ∃ i, w.describe? i = some info ∧ ∀ j, w.Denotes strays info.text j → j = i
  /-- A name in the path of a cycle denotes one slot, or one stray position. -/
  paths : ∀ path, .cycleDetected path ∈ c.events → ∀ name ∈ path, ∃! i, w.Denotes strays name i
  /-- The path of a cycle tells which slots are in progress, and which one would be once more. -/
  cycles : ∀ i path w', w.enter i = (.error (.cycle path), w') →
    ∀ slots, slots.map w.nameOf = path ↔ slots = w.active ++ [i]
  /-- The outcomes for the text of a slot are those of the slot. -/
  results : ∀ i info, w.describe? i = some info → c.resultsFor info.text = c.events.filterMap (w.outcome? i)
  /-- There are no outcomes for other texts. -/
  unknown : ∀ name, (∀ i info, w.describe? i = some info → info.text ≠ name) → c.resultsFor name = []

theorem nameOf_of_describe? {i : SlotId} {info : SlotInfo} (h : w.describe? i = some info) :
    w.nameOf i = info.text := by
  rw [System.nameOf, h]

namespace InDirectory

variable (h : w.InDirectory p)
include h

theorem eq_of_text_eq {i j : SlotId} {info other : SlotInfo} (hi : w.describe? i = some info)
    (hj : w.describe? j = some other) (htext : info.text = other.text) : i = j :=
  h.nameOf_injective (by rw [nameOf_of_describe? hi, nameOf_of_describe? hj, htext])

/-- A name denotes one thing at most. -/
theorem denotes_unique {name : String} {i j : SlotId} (hi : w.Denotes strays name i)
    (hj : w.Denotes strays name j) : i = j := by
  have hdiffer {i j : SlotId} {info : SlotInfo} (hi : w.describe? i = some info) :
      info.text ≠ "#" ++ Nat.repr j := by
    obtain ⟨slot, -, rfl⟩ := Option.map_eq_some_iff.1 hi
    exact Node.text_ne_position ⟨slot.query, slot.key⟩ j
  cases hi with
  | slot hi htext =>
    cases hj with
    | slot hj htext' => exact h.eq_of_text_eq hi hj (htext.trans htext'.symm)
    | position _ hnumber => exact absurd (htext.trans hnumber.symm) (hdiffer hi)
  | position _ hnumber =>
    cases hj with
    | slot hj htext => exact absurd (htext.trans hnumber.symm) (hdiffer hj)
    | position _ hnumber' =>
      exact Nat.repr_injective (String.append_right_inj "#" |>.1 (hnumber.trans hnumber'.symm))

/-- What a collector has been told of slots can be read. -/
theorem legible {c : Collector} (hshows : ∀ e ∈ c.events, w.Shows strays e) : w.Legible strays c where
  distinct i j a b ha hb hne htext := by
    have hi : w.describe? i = some a.info := by rw [System.describe?, ha]; rfl
    have hj : w.describe? j = some b.info := by rw [System.describe?, hb]; rfl
    exact hne (h.eq_of_text_eq hi hj htext)
  events e he info hinfo := by
    have hshown : ∃ i, w.describe? i = some info := by
      cases e with
      | inputSet | queryStart | queryEnd =>
        cases hinfo
        exact hshows _ he
      | cycleDetected path => cases hinfo
    obtain ⟨i, hi⟩ := hshown
    exact ⟨i, hi, fun j hj => h.denotes_unique hj (.slot hi rfl)⟩
  paths path hpath name hname := by
    obtain ⟨i, hi⟩ := hshows _ hpath name hname
    exact ⟨i, hi, fun j hj => h.denotes_unique hj hi⟩
  cycles i path w' hrefused slots := by
    rw [enter, if_pos (enter_eq_error hrefused).1] at hrefused
    cases hrefused
    exact (List.map_injective_iff.2 h.nameOf_injective).eq_iff
  results i info hi := by
    refine List.filterMap_congr fun e he => ?_
    cases e with
    | inputSet | queryStart | cycleDetected => rfl
    | queryEnd other outcome =>
      obtain ⟨j, hj⟩ := hshows _ he
      refine if_congr ⟨fun htext => ?_, fun hother => ?_⟩ rfl rfl
      · rw [h.eq_of_text_eq hi hj htext.symm, hj]
      · rw [Option.some.inj (hi.symm.trans hother)]
  unknown name hname := by
    refine List.filterMap_eq_nil_iff.2 fun e he => ?_
    cases e with
    | inputSet | queryStart | cycleDetected => rfl
    | queryEnd info outcome =>
      obtain ⟨i, hi⟩ := hshows _ he
      exact if_neg (hname i info hi)

end InDirectory

end World

/-! ## What a collector holds -/

namespace Session

variable {s : Session}

theorem collector_tokenFor (s : Session) (name : Option String) :
    (s.tokenFor name).2.collector = s.collector := by
  unfold tokenFor
  split
  · rfl
  · split <;> rfl

theorem collector_dropTask (s : Session) (name : String) : (s.dropTask name).collector = s.collector := by
  unfold dropTask
  split <;> rfl

theorem collector_dropGuard (s : Session) (name : String) : (s.dropGuard name).collector = s.collector := by
  unfold dropGuard
  split <;> rfl

theorem collector_afterPoll (s : Session) (name : String) (out : Poll × World) :
    (s.afterPoll name out).2.collector = s.collector := by
  obtain ⟨poll, w⟩ := out
  cases poll <;> rfl

/-- A step leaves what the collector holds, or empties it. -/
theorem collector_step (s : Session) (limits : Limits) (step : Step) :
    (s.step p limits step).2.collector = s.collector ∨ (s.step p limits step).2.collector = {} := by
  cases step with
  | perform request name =>
    left
    have hmade := s.collector_tokenFor name
    simp only [Session.step]
    split <;> exact hmade
  | spawn name request tokenName =>
    exact .inl (((s.dropTask name).collector_tokenFor tokenName).trans (s.collector_dropTask name))
  | poll name times | run name =>
    left
    simp only [Session.step]
    split
    · exact s.collector_afterPoll name _
    · rfl
  | drop name => exact .inl (s.collector_dropTask name)
  | cancel name | lookAtToken name => exact .inl (s.collector_tokenFor (some name))
  | enter name slot =>
    left
    simp only [Session.step]
    split
    · rfl
    · exact collector_dropGuard _ name
  | leave name => exact .inl (s.collector_dropGuard name)
  | takeEvents =>
    simp only [Session.step]
    split
    · exact .inr rfl
    · exact .inl rfl
  | clearCache | clearSlot =>
    left
    simp only [Session.step]
    split <;> rfl
  | _ => exact .inl rfl

/-- A collector holds what the tracer was told of slots. -/
theorem Unused.shows_of_collected (hs : s.Unused p) (limits : Limits) (steps : List Step) :
    ∀ e ∈ (s.after p limits steps).collector.events,
      (s.after p limits steps).world.Shows (s.Strays p limits steps) e := by
  induction steps using List.reverseRecOn with
  | nil =>
    intro e he
    have hnone : s.collector.events = [] := by rw [hs.collector]
    exact absurd (hnone ▸ he) List.not_mem_nil
  | append_singleton steps step ih =>
    have hstep := hs.attests_step limits steps step
    have hcontinues := continues_report (p := p) limits (s.after p limits steps) step
    rw [after_concat]
    intro e he
    have he : e ∈ ((s.after p limits steps).step p limits step).2.collector.events ++
        ((s.after p limits steps).step p limits step).2.world.events := by
      rwa [← Collector.events_recordAll]
    rcases List.mem_append.1 he with he | he
    · have hkept : e ∈ (s.after p limits steps).collector.events := by
        rcases (s.after p limits steps).collector_step (p := p) limits step with hcollector | hcollector
        · rwa [hcollector] at he
        · rw [hcollector] at he
          exact absurd he List.not_mem_nil
      exact ((ih e hkept).continues hcontinues).mono fun i hstray => hstray.append [step]
    · exact (hstep e he).continues ⟨List.prefix_refl _, List.prefix_refl _⟩

theorem Unused.attests_of_meets (hs : s.Unused p) (limits : Limits) (steps : List Step)
    (h : (s.after p limits steps).Meets p w) : w.Attests (s.Strays p limits steps) := by
  cases h with
  | between => exact .of_nil (hs.events_after limits steps)
  | amidst carried begins reaches => exact (hs.attests_of_reaches limits steps carried begins reaches).1

end Session

/-- Texts identify slots. Take any program, any steps of a client, and any world that the session then meets,
    also in the midst of an evaluation, with all that the tracer was told until then and a collector has kept.
    No two slots have the same text, whatever the identities and keys are. So an event is about one slot, a
    name in the path of a cycle denotes one slot, and the outcomes for a text are those of one slot; where a
    client has entered a position at which there is no slot, a path names this position by its number, which
    denotes nothing else. And this is so for good: what has a name in a world has the same name in all worlds
    that follow, and nothing else ever has it. -/
theorem slot_texts_identify_slots (p : Program) (limits : Session.Limits) (memoize traced : Bool)
    (steps : List Step) :
    (∀ w, ((Session.fresh memoize traced).after p limits steps).Meets p w →
      w.Legible ((Session.fresh memoize traced).Strays p limits steps)
        (((Session.fresh memoize traced).after p limits steps).collector.recordAll w.events)) ∧
    (∀ w t e e' w', ((Session.fresh memoize traced).after p limits steps).Meets p w →
      Reaches p t e w e' w' → ∀ i j, w.nameOf i = w'.nameOf j → i = j) ∧
    ∀ more w, (((Session.fresh memoize traced).after p limits steps).after p limits more).Meets p w →
      ∀ i j, ((Session.fresh memoize traced).after p limits steps).world.nameOf i = w.nameOf j → i = j := by
  have hs := Session.unused_fresh p memoize traced
  have hdir := Session.inDirectory_after (p := p) limits steps hs.orderly.directory
  refine ⟨fun w hmeets => ?_, fun w t e e' w' hmeets hreaches i j hname => ?_,
    fun more w hmeets i j hname => ?_⟩
  · refine (hmeets.edits.inDirectory hdir).legible fun e he => ?_
    rw [Collector.events_recordAll, List.mem_append] at he
    rcases he with he | he
    · exact (hs.shows_of_collected limits steps e he).continues hmeets.edits.continues
    · exact hs.attests_of_meets limits steps hmeets e he
  · exact (hreaches.edits.inDirectory (hmeets.edits.inDirectory hdir)).eq_of_nameOf_eq
      hreaches.edits.continues hname
  · exact (hmeets.edits.inDirectory (Session.inDirectory_after limits more hdir)).eq_of_nameOf_eq
      ((Session.continues_after limits _ more).trans hmeets.edits.continues) hname

/-- A query that calls itself. Its identity has a parenthesis and a quote. -/
def knotQuery : Query where
  id := ⟨"f(\""⟩
  valueType := .int
  equality := Equality.content.same
  body := fun key => .call .awaited "knot" key .done

/-- A program of this query alone. -/
def knot : Program := fun _ => knotQuery

/-- An input whose text differs from that of the query in the place of one backslash, a request for the
    query, and a guard for a position at which there is no slot. -/
def knotSteps : List Step :=
  [.makeInput ⟨"f"⟩ .int (.str "(\")"),
    .perform (.query .waiting "knot" (.str "\")")) none,
    .enter "outside" 7]

/-- The session after these steps. -/
def knotSession : Session := (Session.fresh true true).after knot ⟨20, 3⟩ knotSteps

/-- The path of the cycle that one more request for the query closes. -/
def knotPath : List String := ["#7", "f(\"(\"\\\")\")", "f(\"(\"\\\")\")"]

theorem slot_texts_identify_slots_knot :
    ∃ w, knotSession.Meets knot w ∧
      (w.slots.map fun slot => slot.info.text) = ["f(\"(\\\")\")", "f(\"(\"\\\")\")"] ∧
      (∀ slots, slots.map w.nameOf = knotPath ↔ slots = [7, 1, 1]) ∧
      (∀ name ∈ knotPath, ∃! i,
        w.Denotes ((Session.fresh true true).Strays knot ⟨20, 3⟩ knotSteps) name i) ∧
      (knotSession.collector.recordAll w.events).events.filterMap (w.outcome? 1) = [.cycleDetected] ∧
      ∀ i j, knotSession.world.nameOf i = w.nameOf j → i = j := by
  obtain ⟨e₀, w₀, e, w, hbegins, hdrive, hslots, hactive, hpath, htold, hinfo, hresults⟩ : ∃ e₀ w₀ e w,
      Task.Begins knot { request := .query .waiting "knot" (.str "\")"), token := 1 } knotSession.world
        e₀ w₀ ∧
      drive knot 1 4 e₀ w₀ = .running e w ∧
      (w.slots.map fun slot => slot.info.text) = ["f(\"(\\\")\")", "f(\"(\"\\\")\")"] ∧
      w.active = [7, 1] ∧ (w.active ++ [1]).map w.nameOf = knotPath ∧
      .cycleDetected knotPath ∈ w.events ∧ w.describe? 1 = some ⟨⟨"f(\""⟩, "\"\\\")\"", .derived⟩ ∧
      (knotSession.collector.recordAll w.events).resultsFor "f(\"(\"\\\")\")" = [.cycleDetected] :=
    ⟨_, _, _, _, .inr ⟨rfl, _, rfl, rfl⟩, rfl, by decide +kernel, rfl, by decide +kernel, by decide +kernel,
      rfl, by decide +kernel⟩
  have hmeets : knotSession.Meets knot w := .amidst (.inl rfl) hbegins ⟨4, hdrive⟩
  obtain ⟨hlegible, -, hlater⟩ := slot_texts_identify_slots knot ⟨20, 3⟩ true true knotSteps
  have hlegible := hlegible w hmeets
  refine ⟨w, hmeets, hslots, fun slots => ?_, hlegible.paths knotPath ?_, ?_, hlater [] w hmeets⟩
  · have hcycles := hlegible.cycles 1 _ _ (by rw [World.enter, if_pos (hactive ▸ by decide)]) slots
    rwa [hpath, hactive] at hcycles
  · rw [Collector.events_recordAll]
    exact List.mem_append_right _ htold
  · exact (hlegible.results 1 _ hinfo).symm.trans hresults

end RedGreen
