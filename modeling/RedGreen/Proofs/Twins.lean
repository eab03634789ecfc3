import RedGreen.Proofs.PlainEvaluation
import RedGreen.Proofs.Transfer

set_option autoImplicit false

/-! # One session with a memory and one without

A session makes its requests one after the other: writes, reads and queries from any entry point,
and clears. A system that keeps values and one that keeps none are *twins* if both are idle and hold
the same inputs. Asked for the same, twins either answer alike at once or begin the evaluations of
one node (`Request.begin_twins`), and they stay twins. Whether the two evaluations end alike is
another matter, which depends on what the one system has kept. -/

namespace RedGreen

variable {p : Program} {use : Usages} {same : Indistinct} {yields : Prop}

/-! ## Answers -/

/-- Equal answers to a request, up to the identity of lists. How many memos a clear has dropped may
    differ. -/
inductive Reply.Alike : Reply → Reply → Prop
  | value {v v' : Value} (h : v.Alike v') : Alike (.value v) (.value v')
  | revision (r : Revision) : Alike (.revision r) (.revision r)
  | count (m n : Nat) : Alike (.count m) (.count n)

/-- Equal answers to a step: the same value up to the identity of lists, or the same error. Whether a
    clear has dropped anything may differ. -/
inductive Answer.Alike : Answer → Answer → Prop
  | reply {r r' : Reply} (h : r.Alike r') : Alike (.reply r) (.reply r')
  | failed (e : QueryError) : Alike (.failed e) (.failed e)
  | cleared (dropped dropped' : Option Bool) : Alike (.cleared dropped) (.cleared dropped')

theorem Answer.alike_ofResult {r r' : Except QueryError Reply} (h : Agree Reply.Alike r r') :
    (Answer.ofResult r).Alike (Answer.ofResult r') := by
  cases h with
  | ok h => exact .reply h
  | error e => exact .failed e

/-- A request that asks for a value is answered alike if its evaluations end alike. -/
theorem Request.alike_replyOf {request : Request}
    (hvalue : ∀ stamped, request.replyOf stamped = .value stamped.value)
    {result result' : Except QueryError Stamped}
    (h : Agree (fun s s' : Stamped => s.value.Alike s'.value) result result') :
    Agree Reply.Alike (result.map request.replyOf) (result'.map request.replyOf) := by
  cases h with
  | ok halike =>
    refine .ok ?_
    rw [hvalue, hvalue]
    exact .value halike
  | error e => exact .error e

/-! ## Steps made one after the other -/

/-- A request that writes or reads an input, asks for a derived value, or clears. -/
def Request.Asks : Request → Prop
  | .touch _ _ _ => False
  | .prepare _ _ _ => False
  | _ => True

/-- A request that is carried to its end, or a clear of a cache or of a slot; it uses its identity as
    every other step does. -/
def Step.Sequential (p : Program) (use : Usages) : Step → Prop
  | .perform request _ => request.Consistent p use ∧ request.Asks
  | .clearCache query keyType valueType _ =>
    keyType = (use query).keyType ∧ valueType = (use query).valueType
  | .clearSlot query valueType key _ =>
    key.type = (use query).keyType ∧ valueType = (use query).valueType
  | _ => False

namespace World

/-! ## What happens between two evaluations -/

/-- What requests that are answered at once do to a world, one after the other. -/
inductive Turns (p : Program) (use : Usages) : World → World → Prop
  | grows {w w' : World} (tidy : Tidy p use w'.toSystem) (grows : w.Grows w') : Turns p use w w'
  | writes {w w' : World} {i : SlotId} {v : Value} (tidy : Tidy p use w'.toSystem)
    (writes : w.Writes i v w') : Turns p use w w'
  | clears {w w' : World} {before : Revision} (tidy : Tidy p use w'.toSystem)
    (clears : w.Clears before w') : Turns p use w w'
  | trans {w w' w'' : World} (h : Turns p use w w') (h' : Turns p use w' w'') : Turns p use w w''

theorem Alters.turns {w w' : World} (h : w.Alters w') (ht : Tidy p use w.toSystem) :
    w.Turns p use w' := .grows (h.tidy ht) h.grows

/-! ## Twins -/

/-- A world that keeps values and one that keeps none. Both are idle and hold the same inputs. -/
structure Twins (p : Program) (use : Usages) (w w' : World) : Prop where
  tidy : Tidy p use w.toSystem
  tidy' : Tidy p use w'.toSystem
  memoize : w.memoize = true
  memoize' : w'.memoize = false
  idle : w.active = []
  idle' : w'.active = []
  uncancelled : w.cancelled = []
  uncancelled' : w'.cancelled = []
  inputs : w'.inputs = w.inputs
  revision : w'.revision = w.revision

namespace Twins

variable {w w' w₁ w₁' : World}

theorem of_extends (h : w.Twins p use w') (hw : Extends w w₁) (ht : Tidy p use w₁.toSystem)
    (hactive : w₁.active = w.active) (hw' : Extends w' w₁') (ht' : Tidy p use w₁'.toSystem)
    (hactive' : w₁'.active = w'.active) : w₁.Twins p use w₁' where
  tidy := ht
  tidy' := ht'
  memoize := hw.memoize.trans h.memoize
  memoize' := hw'.memoize.trans h.memoize'
  idle := hactive.trans h.idle
  idle' := hactive'.trans h.idle'
  uncancelled := hw.cancelled.trans h.uncancelled
  uncancelled' := hw'.cancelled.trans h.uncancelled'
  inputs := by rw [hw'.inputs h.tidy' ht', hw.inputs h.tidy ht, h.inputs]
  revision := by rw [hw'.revision, hw.revision, h.revision]

theorem alters (h : w.Twins p use w') (hw : w.Alters w₁) (hw' : w'.Alters w₁') :
    w₁.Twins p use w₁' :=
  h.of_extends hw.grows.toExtends (hw.tidy h.tidy) hw.active hw'.grows.toExtends (hw'.tidy h.tidy')
    hw'.active

theorem plain (h : w.Twins p use w') (t : Token) : w'.Plain p use t w.inputs :=
  ⟨h.tidy', h.memoize', by simp [h.uncancelled'], h.inputs⟩

/-- Writes of alike values to the slots of one input. -/
theorem writes (h : w.Twins p use w') {i i' : SlotId} {n : Node} {v v' : Value}
    (hi : w.node? i = some n) (hi' : w'.node? i' = some n) (hvalue : v'.Alike v)
    (hw : w.Writes i v w₁) (ht : Tidy p use w₁.toSystem) (hactive : w₁.active = w.active)
    (hw' : w'.Writes i' v' w₁') (ht' : Tidy p use w₁'.toSystem) (hactive' : w₁'.active = w'.active) :
    w₁.Twins p use w₁' where
  tidy := ht
  tidy' := ht'
  memoize := hw.memoize.trans h.memoize
  memoize' := hw'.memoize.trans h.memoize'
  idle := hactive.trans h.idle
  idle' := hactive'.trans h.idle'
  uncancelled := hw.cancelled.trans h.uncancelled
  uncancelled' := hw'.cancelled.trans h.uncancelled'
  inputs := by
    funext query key
    rw [hw'.inputs h.tidy' ht' hi', hw.inputs h.tidy ht hi, h.inputs, hvalue]
  revision := by rw [hw'.revision, hw.revision, h.revision]

end Twins

end World

/-! ## Requests -/

/-- What twins begin when they are asked for the same: both answer at once, or both evaluate a
    node. -/
inductive Request.BeginsAlike (p : Program) (use : Usages) (request : Request) (w w' : World) :
    Begun × World → Begun × World → Prop
  | answered {answer answer' : Except QueryError Reply} {w₁ w₁' : World}
    (agree : Agree Reply.Alike answer answer') (turns : w.Turns p use w₁)
    (twins : w₁.Twins p use w₁') (entryLocked : w₁.entryLocked = w.entryLocked)
    (entryLocked' : w₁'.entryLocked = w'.entryLocked) :
    BeginsAlike p use request w w' (.answered answer, w₁) (.answered answer', w₁')
  | evaluating {label : Label} {key : Key} {i i' : SlotId} {w₁ w₁' : World}
    (value : ∀ stamped, request.replyOf stamped = .value stamped.value)
    (finds : w.Finds p use (p.node label key) i w₁)
    (finds' : w'.Finds p use (p.node label key) i' w₁') (twins : w₁.Twins p use w₁') :
    BeginsAlike p use request w w' (.evaluating (.request i), w₁) (.evaluating (.request i'), w₁')

theorem Request.begin_twins (hp : p.Pure use same yields) {request : Request}
    (hconsistent : request.Consistent p use) (hasks : request.Asks) {w w' : World}
    (h : w.Twins p use w') :
    request.BeginsAlike p use w w' (request.begin p w) (request.begin p w') := by
  have hbegins := Request.begin_spec hp.consistent h.tidy hconsistent
  have hbegins' := Request.begin_spec hp.consistent h.tidy' hconsistent
  generalize request.begin p w = out at hbegins
  generalize request.begin p w' = out' at hbegins'
  -- a request for a node, in both
  have hevaluates {label : Label} {key : Key} {i i' : SlotId} {w₁ w₁' : World}
      (hvalue : ∀ stamped, request.replyOf stamped = .value stamped.value)
      (hfinds : w.Finds p use (p.node label key) i w₁)
      (hfinds' : w'.Finds p use (p.node label key) i' w₁') :
      request.BeginsAlike p use w w' (.evaluating (.request i), w₁)
        (.evaluating (.request i'), w₁') := by
    refine .evaluating hvalue hfinds hfinds' ?_
    exact h.of_extends hfinds.toExtends hfinds.tidy hfinds.active hfinds'.toExtends hfinds'.tidy
      hfinds'.active
  cases hbegins with
  | @write access query key v₀ v i w₁ w₂ alike finds kind tidy writes active entryLocked =>
    cases hbegins' with
    | @write _ _ _ _ v' i' w₁' w₂' alike' finds' kind' tidy' writes' active' entryLocked' =>
      have h₁ := h.of_extends finds.toExtends finds.tidy finds.active finds'.toExtends finds'.tidy
        finds'.active
      have h₂ := h₁.writes finds.found finds'.found (alike'.trans alike.symm) writes tidy
        (active.trans finds.active.symm) writes' tidy' (active'.trans finds'.active.symm)
      rw [h.revision]
      exact .answered (.ok (.revision _)) (.trans (.grows finds.tidy finds.toGrows)
        (.writes tidy writes)) h₂ entryLocked entryLocked'
  | @read query valueType key reply w₁ agree tidy grows active entryLocked =>
    cases hbegins' with
    | @read _ _ _ reply' w₁' agree' tidy' grows' active' entryLocked' =>
      have h₁ := h.of_extends grows.toExtends tidy active grows'.toExtends tidy' active'
      refine .answered ?_ (.grows tidy grows) h₁ entryLocked entryLocked'
      rw [h.inputs] at agree'
      have hagree := agree.trans (agree'.symm fun _ _ => Value.Alike.symm)
        fun _ _ _ => Value.Alike.trans
      cases hagree with
      | ok halike => exact .ok (.value halike)
      | error e => exact .error e
  | query finds =>
    cases hbegins' with
    | query finds' => exact hevaluates (fun _ => rfl) finds finds'
  | derive finds =>
    cases hbegins' with
    | derive finds' => exact hevaluates (fun _ => rfl) finds finds'
  | prepare => exact hasks.elim
  | touch => exact hasks.elim
  | untouched => exact hasks.elim
  | clear tidy clears active entryLocked =>
    cases hbegins' with
    | clear tidy' clears' active' entryLocked' =>
      have h₁ := h.of_extends clears.toExtends tidy active clears'.toExtends tidy' active'
      exact .answered (.ok (.count _ _)) (.clears tidy clears) h₁ entryLocked entryLocked'

/-! ## Sessions -/

namespace Session

/-- Two sessions whose systems are twins and free. -/
structure Twins (p : Program) (use : Usages) (s s' : Session) : Prop where
  worlds : s.world.Twins p use s'.world
  free : s.world.entryLocked = false
  free' : s'.world.entryLocked = false

/-- New sessions are twins. -/
theorem twins_fresh (traced : Bool) :
    (Session.fresh true traced).Twins p use (Session.fresh false traced) :=
  ⟨⟨.new true, .new false, rfl, rfl, rfl, rfl, rfl, rfl, rfl, rfl⟩, rfl, rfl⟩

/-- Clears of a cache or of a slot are answered at once, and they take twins to twins. -/
theorem Twins.clear {step : Step} (hstep : step.Sequential p use)
    (hclear : ∀ request token, step ≠ .perform request token) {s s' : Session}
    (h : s.Twins p use s') :
    ∃ answer answer' s₁ s₁', (∀ limits, s.step p limits step = (answer, s₁)) ∧
      (∀ limits, s'.step p limits step = (answer', s₁')) ∧ answer.Alike answer' ∧
      s.world.Turns p use s₁.world ∧ s₁.Twins p use s₁' := by
  cases step with
  | perform request token => exact absurd rfl (hclear request token)
  | clearCache query keyType valueType before =>
    obtain ⟨w₁, hopen, ht, hgrows, -, hactive, hlocked⟩ :=
      World.openCache_spec h.worlds.tidy hstep.1 hstep.2
    obtain ⟨w₁', hopen', ht', hgrows', -, hactive', hlocked'⟩ :=
      World.openCache_spec h.worlds.tidy' hstep.1 hstep.2
    have h₁ := h.worlds.of_extends hgrows.toExtends ht hactive hgrows'.toExtends ht' hactive'
    obtain ⟨ht₂, hclears⟩ := World.clearCache_spec ht query before
    obtain ⟨ht₂', hclears'⟩ := World.clearCache_spec ht' query before
    have h₂ := h₁.of_extends hclears.toExtends ht₂ rfl hclears'.toExtends ht₂' rfl
    simp only [Session.step, hopen, hopen']
    exact ⟨_, _, _, _, fun _ => rfl, fun _ => rfl, .reply (.count _ _),
      .trans (.grows ht hgrows) (.clears ht₂ hclears), h₂, hlocked.trans h.free,
      hlocked'.trans h.free'⟩
  | clearSlot query valueType key before =>
    obtain ⟨w₁, hopen, ht, hgrows, -, hactive, hlocked⟩ :=
      World.openCache_spec h.worlds.tidy hstep.1 hstep.2
    obtain ⟨w₁', hopen', ht', hgrows', -, hactive', hlocked'⟩ :=
      World.openCache_spec h.worlds.tidy' hstep.1 hstep.2
    have h₁ := h.worlds.of_extends hgrows.toExtends ht hactive hgrows'.toExtends ht' hactive'
    obtain ⟨ht₂, hclears, hactive₂, hlocked₂⟩ := World.clearSlot_spec ht query key before
    obtain ⟨ht₂', hclears', hactive₂', hlocked₂'⟩ := World.clearSlot_spec ht' query key before
    have h₂ := h₁.of_extends hclears.toExtends ht₂ hactive₂ hclears'.toExtends ht₂' hactive₂'
    simp only [Session.step, hopen, hopen']
    exact ⟨_, _, _, _, fun _ => rfl, fun _ => rfl, .cleared _ _,
      .trans (.grows ht hgrows) (.clears ht₂ hclears), h₂, hlocked₂.trans (hlocked.trans h.free),
      hlocked₂'.trans (hlocked'.trans h.free')⟩
  | spawn | poll | run | drop | cancel | lookAtToken | enter | leave | stack | slots | describe
  | stamps | debug | resultsFor | takeEvents | cache | makeInput | inspect | gatherDeps =>
    exact hstep.elim

/-- A report hands the journal out and changes nothing else of the system. -/
theorem Twins.reported {s s' : Session} (h : s.Twins p use s') (c c' : Collector) :
    Twins p use { s with world := { s.world with journal := [] }, collector := c }
      { s' with world := { s'.world with journal := [] }, collector := c' } where
  worlds := h.worlds.alters ⟨rfl, rfl, rfl, rfl, rfl, rfl⟩ ⟨rfl, rfl, rfl, rfl, rfl, rfl⟩
  free := h.free
  free' := h.free'

end Session

end RedGreen
