import RedGreen.Proofs.Running
import RedGreen.Proofs.Steps

set_option autoImplicit false

/-! # Evaluation without a memory

A system that keeps nothing runs every body that is asked for. Driving it is then the same as
evaluating the body: if the body evaluates to a result, driving reaches an answer that agrees
(`Evaluates.reaches_plainly`), and if driving finishes, the body has evaluated to something
(`evaluates_of_drive_plainly`). -/

namespace RedGreen

open Evaluation

variable {p : Program} {use : Usages} {same : Indistinct} {yields : Prop} {inputs : Inputs}
  {t : Token}

/-! ## The nodes in progress -/

/-- The slots on the active stack are those of the given nodes, in order. -/
def World.InProgress (w : World) (stack : List Node) : Prop :=
  w.active.map w.node? = stack.map some

namespace World.InProgress

variable {w w' : World} {stack : List Node} {i : SlotId} {n : Node}

theorem of_idle (hidle : w.active = []) : w.InProgress [] := by
  simp [InProgress, hidle]

theorem of_extends (h : w.InProgress stack) (hw : Extends w w') (hactive : w'.active = w.active) :
    w'.InProgress stack := by
  unfold InProgress at *
  rw [hactive, ← h]
  refine List.map_congr_left fun i hi => ?_
  have hmem : w.node? i ∈ stack.map some := h ▸ List.mem_map_of_mem hi
  obtain ⟨n, -, hn⟩ := List.mem_map.1 hmem
  rw [← hn, hw.node i n hn.symm]

theorem enter (h : w.InProgress stack) (hi : w.node? i = some n) (hw : Extends w w')
    (hactive : w'.active = w.active ++ [i]) : w'.InProgress (stack ++ [n]) := by
  have hsame : (w'.setActive w.active).InProgress stack :=
    h.of_extends ⟨hw.revision, hw.memoize, hw.cancelled, hw.node, hw.written⟩ rfl
  unfold InProgress at *
  rw [hactive, List.map_append, List.map_append]
  exact congrArg₂ _ hsame (by simp [hw.node i n hi])

theorem mem_iff (h : w.InProgress stack) (ht : Tidy p use w.toSystem) (hi : w.node? i = some n) :
    i ∈ w.active ↔ n ∈ stack := by
  constructor
  · intro hmem
    have hmem' : w.node? i ∈ stack.map some := h ▸ List.mem_map_of_mem hmem
    rw [hi] at hmem'
    simpa using hmem'
  · intro hmem
    have hmem' : some n ∈ w.active.map w.node? := h ▸ List.mem_map_of_mem hmem
    obtain ⟨j, hj, hnode⟩ := List.mem_map.1 hmem'
    rwa [ht.distinct i j n hi hnode]

/-- The path that the error of a cycle names. -/
theorem path_eq (h : w.InProgress stack) (hi : w.node? i = some n) :
    QueryError.cycle ((w.active ++ [i]).map w.nameOf) = cycleError stack n := by
  have hnames : w.active.map w.nameOf = stack.map Node.text := by
    have hlength : w.active.length = stack.length := by
      simpa using congrArg List.length h
    refine List.ext_getElem (by simpa using hlength) fun k hk hk' => ?_
    have hget := List.getElem_of_eq h (i := k) (by simpa using hk)
    simp only [List.getElem_map] at hget ⊢
    exact System.nameOf_eq hget
  rw [cycleError, List.map_append, List.map_append, hnames]
  simp [System.nameOf_eq hi]

end World.InProgress

/-! ## Plain worlds -/

/-- A tidy world without a memory, in which a token was not cancelled. -/
structure World.Plain (p : Program) (use : Usages) (t : Token) (inputs : Inputs) (w : World) :
    Prop where
  tidy : Tidy p use w.toSystem
  memoize : w.memoize = false
  uncancelled : t ∉ w.cancelled
  inputs : w.inputs = inputs

theorem World.Plain.of_extends {w w' : World} (h : w.Plain p use t inputs) (hw : Extends w w')
    (ht : Tidy p use w'.toSystem) : w'.Plain p use t inputs where
  tidy := ht
  memoize := hw.memoize.trans h.memoize
  uncancelled := hw.cancelled ▸ h.uncancelled
  inputs := (hw.inputs h.tidy ht).trans h.inputs

theorem World.Plain.quiet {w w' : World} (h : w.Plain p use t inputs) (hw : Quiet w w') :
    w'.Plain p use t inputs := h.of_extends hw.grows.toExtends (hw.tidy h.tidy)

/-- A world at the same point as another one: slots may be new, but the same ones are in progress. -/
structure World.Abides (w w' : World) : Prop extends Extends w w' where
  active : w'.active = w.active
  entryLocked : w'.entryLocked = w.entryLocked

theorem World.Finds.abides {w w' : World} {n : Node} {i : SlotId} (h : Finds p use w n i w') :
    w.Abides w' := ⟨h.toExtends, h.active, h.entryLocked⟩

theorem World.Quiet.abides {w w' : World} (h : w.Quiet w') (hactive : w'.active = w.active) :
    w.Abides w' := ⟨h.grows.toExtends, hactive, h.entryLocked⟩

theorem World.Abides.trans {w w' w'' : World} (h : w.Abides w') (h' : w'.Abides w'') :
    w.Abides w'' :=
  ⟨h.toExtends.trans h'.toExtends, h'.active.trans h.active, h'.entryLocked.trans h.entryLocked⟩

theorem World.InProgress.abides {w w' : World} {stack : List Node} (h : w.InProgress stack)
    (hw : w.Abides w') : w'.InProgress stack := h.of_extends hw.toExtends hw.active

/-- Where a plain run has come to an answer of a type. -/
structure World.Answered (p : Program) (use : Usages) (τ : ValueType) (w : World) (i : SlotId)
    (result : Except QueryError Stamped) (r : Except QueryError Value) (w' : World) : Prop
    extends Extends w w' where
  agree : Agree (fun (stamped : Stamped) v => stamped.value.AlikeOf τ v) result r
  tidy : Tidy p use w'.toSystem
  active : w'.active = dropInnermost w.active i
  entryLocked : w'.entryLocked = w.entryLocked

/-- What happens before an answer does not matter, as long as it leaves the active stack alone. -/
theorem World.Answered.of_abides {τ : ValueType} {w w₁ w' : World} {i : SlotId}
    {result : Except QueryError Stamped} {r : Except QueryError Value}
    (h : w₁.Answered p use τ i result r w') (hw : w.Abides w₁) : w.Answered p use τ i result r w' :=
  ⟨hw.toExtends.trans h.toExtends, h.agree, h.tidy, h.active.trans (by rw [hw.active]),
    h.entryLocked.trans hw.entryLocked⟩

/-- The answer to a call, as the caller gets it. -/
theorem World.Answered.reply (hp : p.Pure use same yields) {w w' : World} {i : SlotId}
    {result : Except QueryError Stamped} {r : Except QueryError Value} {label : Label}
    (h : w.Answered p use (p label).valueType i result r w') :
    Agree (same (p label).id) (result.map Stamped.value) r := by
  cases h.agree with
  | ok halike => exact .ok (hp.alike _ _ _ (hp.valueType label ▸ halike))
  | error e => exact .error e

/-! ## Steps of a body -/

/-- A caller that waits goes on with the answer. -/
theorem step_answer {w : World} (huncancelled : t ∉ w.cancelled)
    (result : Except QueryError Stamped) (caller : Caller) (frames : List Frame) :
    Evaluation.step p t ⟨.answer result, .calling caller :: frames⟩ w =
      .running ⟨.body caller.activation (caller.next (result.map Stamped.value)), frames⟩ w := by
  cases result with
  | error e => rfl
  | ok stamped =>
    simp only [Evaluation.step, stepAnswer, World.check_of_not_mem huncancelled]
    rfl

section Steps

variable {w : World} {stack : List Node} {i : SlotId} {label : Label} {key : Key}
  (hw : w.Plain p use t inputs)
include hw

/-- A body that reads an input is told what the inputs answer. -/
theorem step_read_plainly (a : Activation) {query : QueryId} {valueType : ValueType}
    (typed : use query = ⟨.input, key.type, valueType⟩) (next : Except QueryError Value → Body)
    (frames : List Frame) :
    ∃ i w' reply,
      Evaluation.step p t ⟨.body a (.perform (.read query valueType key) next), frames⟩ w =
        .running ⟨.body (a.reading i) (next reply), frames⟩ w' ∧
      w.Abides w' ∧ w'.Plain p use t inputs ∧
      Agree (Value.AlikeOf valueType) reply (inputs.answer query key) := by
  obtain ⟨i, w', reply, hread, hfinds, hreply⟩ := World.read_spec hw.tidy t a typed
  have hw' := hw.of_extends hfinds.toExtends hfinds.tidy
  rw [hw'.inputs] at hreply
  refine ⟨i, w', reply, ?_, hfinds.abides, hw', hreply.resolve_right fun h => hw.uncancelled h.1⟩
  simp only [Evaluation.step, stepBody, World.perform, hread]

/-- A check finds that the token was not cancelled. -/
theorem step_check_plainly (a : Activation) (next : Except QueryError Unit → Body)
    (frames : List Frame) :
    Evaluation.step p t ⟨.body a (.perform .check next), frames⟩ w =
      .running ⟨.body a (next (.ok ())), frames⟩ w := by
  simp only [Evaluation.step, stepBody, World.perform, World.check_of_not_mem hw.uncancelled]

/-- A call asks for the slot of its node, which is in progress if the node is. -/
theorem step_call_plainly (hp : p.Pure use same yields) (hstack : w.InProgress stack)
    (a : Activation) (mode : CallMode) (typed : key.type = (use (p label).id).keyType)
    (next : Except QueryError Value → Body) (frames : List Frame) :
    ∃ i w', Evaluation.step p t ⟨.body a (.call mode label key next), frames⟩ w =
        .running ⟨.fetch i, .calling ⟨a.reading i, mode, i, next⟩ :: frames⟩ w' ∧
      w.Abides w' ∧ w'.Plain p use t inputs ∧ w'.node? i = some (p.node label key) ∧
      (i ∈ w'.active ↔ p.node label key ∈ stack) := by
  obtain ⟨i, w', hcall, hfinds⟩ := stepCall_spec hp.consistent hw.tidy a mode typed next frames
  have hw' := hw.of_extends hfinds.toExtends hfinds.tidy
  exact ⟨i, w', hcall, hfinds.abides, hw', hfinds.found,
    (hstack.abides hfinds.abides).mem_iff hw'.tidy hfinds.found⟩

/-- A request for a slot in progress is answered with the cycle. -/
theorem step_cycle_plainly (hp : p.Pure use same yields) (hstack : w.InProgress stack)
    (hi : w.node? i = some (p.node label key)) (inside : i ∈ w.active) (frames : List Frame) :
    ∃ w', Evaluation.step p t ⟨.fetch i, frames⟩ w =
        .running ⟨.answer (.error (cycleError stack (p.node label key))), frames⟩ w' ∧
      w.Abides w' ∧ w'.Plain p use t inputs := by
  have hfetch := World.fetch_spec_afresh hp.consistent hw.tidy hw.memoize t hi
  generalize hfetched : w.fetch p t i = out at hfetch
  cases hfetch with
  | cancelled outside => exact absurd inside outside
  | run outside => exact absurd inside outside
  | @cycle w' _ quiet active =>
    refine ⟨w', ?_, quiet.abides active, hw.quiet quiet⟩
    rw [hstack.path_eq hi] at hfetched
    simp only [Evaluation.step, hfetched]
    rfl

/-- A request for another slot starts the body of its node. -/
theorem step_fetch_plainly (hp : p.Pure use same yields)
    (hi : w.node? i = some (p.node label key)) (outside : i ∉ w.active) (frames : List Frame) :
    ∃ w', Evaluation.step p t ⟨.fetch i, frames⟩ w =
        .running ⟨.body ⟨i, w.revision, []⟩ ((p label).body key), frames⟩ w' ∧
      w.Quiet w' ∧ w'.active = w.active ++ [i] := by
  have hfetch := World.fetch_spec_afresh hp.consistent hw.tidy hw.memoize t hi
  generalize hfetched : w.fetch p t i = out at hfetch
  cases hfetch with
  | cycle inside => exact absurd inside outside
  | cancelled _ cancelled => exact absurd cancelled hw.uncancelled
  | @run w' _ quiet active =>
    refine ⟨w', ?_, quiet, active⟩
    simp only [Evaluation.step, hfetched]
    rfl

end Steps

/-! ## Calls -/

/-- What a call comes to without a memory: if its node is in progress, the caller goes on with the
    error of the cycle; otherwise the body of the node starts, and the caller goes on with its answer. -/
inductive CallsPlainly (p : Program) (use : Usages) (inputs : Inputs) (t : Token) (stack : List Node)
    (w : World) (a : Activation) (mode : CallMode) (label : Label) (key : Key)
    (next : Except QueryError Value → Body) (frames : List Frame) : Prop
  | cycle {i : SlotId} {w' : World} (inside : p.node label key ∈ stack)
    (way : drive p t 3 ⟨.body a (.call mode label key next), frames⟩ w =
      .running ⟨.body (a.reading i) (next (.error (cycleError stack (p.node label key)))), frames⟩ w')
    (abides : w.Abides w') (plain : w'.Plain p use t inputs)
  | starts {i : SlotId} {r : Revision} {w₁ w' : World} (outside : p.node label key ∉ stack)
    (found : w₁.node? i = some (p.node label key)) (tidy : Tidy p use w₁.toSystem)
    (asks : Evaluation.step p t ⟨.body a (.call mode label key next), frames⟩ w =
      .running ⟨.fetch i, .calling ⟨a.reading i, mode, i, next⟩ :: frames⟩ w₁)
    (starts : Evaluation.step p t ⟨.fetch i, .calling ⟨a.reading i, mode, i, next⟩ :: frames⟩ w₁ =
      .running ⟨.body ⟨i, r, []⟩ ((p label).body key),
        .calling ⟨a.reading i, mode, i, next⟩ :: frames⟩ w')
    (plain : w'.Plain p use t inputs) (inProgress : w'.InProgress (stack ++ [p.node label key]))
    (returns : ∀ (result : Except QueryError Stamped) (reply : Except QueryError Value) (w'' : World),
      w'.Answered p use (p label).valueType i result reply w'' →
        Evaluation.step p t ⟨.answer result, .calling ⟨a.reading i, mode, i, next⟩ :: frames⟩ w'' =
            .running ⟨.body (a.reading i) (next (result.map Stamped.value)), frames⟩ w'' ∧
          w.Abides w'' ∧ w''.Plain p use t inputs)

theorem World.Plain.calls (hp : p.Pure use same yields) {stack : List Node} {w : World}
    (hw : w.Plain p use t inputs) (hstack : w.InProgress stack) (a : Activation) (mode : CallMode)
    {label : Label} {key : Key} (typed : key.type = (use (p label).id).keyType)
    (next : Except QueryError Value → Body) (frames : List Frame) :
    CallsPlainly p use inputs t stack w a mode label key next frames := by
  obtain ⟨i, w₁, hcall, habides, hw₁, hi, hactive⟩ :=
    step_call_plainly hw hp hstack a mode typed next frames
  have hstack₁ := hstack.abides habides
  by_cases inside : p.node label key ∈ stack
  · obtain ⟨w₂, hcycle, habides₂, hw₂⟩ := step_cycle_plainly hw₁ hp hstack₁ hi (hactive.2 inside)
      (.calling ⟨a.reading i, mode, i, next⟩ :: frames)
    refine .cycle (i := i) inside ?_ (habides.trans habides₂) hw₂
    rw [drive_succ_of_running hcall, drive_succ_of_running hcycle,
      drive_succ_of_running (step_answer hw₂.uncancelled _ _ _)]
    rfl
  · obtain ⟨w₂, hstart, hquiet, hactive₂⟩ := step_fetch_plainly hw₁ hp hi (mt hactive.1 inside)
      (.calling ⟨a.reading i, mode, i, next⟩ :: frames)
    have hw₂ := hw₁.quiet hquiet
    refine .starts inside hi hw₁.tidy hcall hstart hw₂
      (hstack₁.enter hi hquiet.grows.toExtends hactive₂) fun result reply w₃ hanswer => ?_
    have hw₃ := hw₂.of_extends hanswer.toExtends hanswer.tidy
    refine ⟨step_answer hw₃.uncancelled _ _ _, habides.trans ⟨?_, ?_, ?_⟩, hw₃⟩
    · exact hquiet.grows.toExtends.trans hanswer.toExtends
    · rw [hanswer.active, hactive₂, dropInnermost_concat]
    · exact hanswer.entryLocked.trans hquiet.entryLocked

/-! ## From evaluations to runs -/

/-- Driving a system without a memory follows the evaluation of a body. -/
theorem Evaluates.reaches_plainly (hp : p.Pure use same yields) {stack : List Node} {c : Body}
    {τ : ValueType}
    {r : Except QueryError Value} (h : Evaluates p inputs stack c r) (a : Activation) {b : Body}
    (frames : List Frame) {w : World} (hlawful : Lawful p use same yields τ b c)
    (hw : w.Plain p use t inputs) (hstack : w.InProgress stack)
    (hframes : yields → splitAtImmediate frames = none) :
    ∃ result w', Reaches p t ⟨.body a b, frames⟩ w ⟨.answer result, frames⟩ w' ∧
      w.Answered p use τ a.slot result r w' := by
  induction h generalizing τ a b frames w with
  | done stack r =>
    cases hlawful with
    | @done r' _ hagree =>
      obtain ⟨w', hfinish, hquiet, hactive⟩ :=
        World.finish_spec_afresh hw.memoize hw.uncancelled a r'
      refine ⟨r'.map fun v => ⟨v, a.revision⟩, w', .of_step ?_, hquiet.grows.toExtends, ?_,
        hquiet.tidy hw.tidy, hactive, hquiet.entryLocked⟩
      · simp only [Evaluation.step, stepBody, hfinish]
        rfl
      · cases hagree with
        | ok halike => exact .ok halike
        | error e => exact .error e
  | read _ ih =>
    cases hlawful with
    | read typed hnext =>
      obtain ⟨i, w₁, reply, hread, habides, hw₁, hagree⟩ := step_read_plainly hw a typed _ frames
      obtain ⟨result, w', hreach, hanswer⟩ :=
        ih (a.reading i) frames (hnext _ _ hagree) hw₁ (hstack.abides habides) hframes
      exact ⟨result, w', .head hread hreach, hanswer.of_abides habides⟩
  | check _ ih =>
    cases hlawful with
    | check hnext =>
      obtain ⟨result, w', hreach, hanswer⟩ := ih a frames (hnext _) hw hstack hframes
      exact ⟨result, w', .head (step_check_plainly hw a _ frames) hreach, hanswer⟩
  | allocate _ ih =>
    cases hlawful with
    | allocate hnext =>
      have hq := w.quiet_allocate
      have habides : w.Abides w.allocate.2 := hq.abides rfl
      obtain ⟨result, w', hreach, hanswer⟩ :=
        ih a frames (hnext w.allocate.1 0) (hw.quiet hq) (hstack.abides habides) hframes
      exact ⟨result, w', .head rfl hreach, hanswer.of_abides habides⟩
  | yield _ ih =>
    cases hlawful with
    | yield allowed hnext =>
      obtain ⟨result, w', hreach, hanswer⟩ := ih a frames hnext hw hstack hframes
      refine ⟨result, w', (Reaches.of_parked ?_).trans hreach, hanswer⟩
      simp only [Evaluation.step, stepBody, stepYield, hframes allowed]
  | @cycle stack mode label key next r active _ ih =>
    cases hlawful with
    | @call _ _ _ next' _ typed waits hnext =>
      cases hw.calls hp hstack a mode typed next' frames with
      | starts outside => exact absurd active outside
      | @cycle i _ _ way abides plain =>
        obtain ⟨result, w', hreach, hanswer⟩ :=
          ih (a.reading i) frames (hnext _ _ (.error _)) plain (hstack.abides abides) hframes
        exact ⟨result, w', .trans ⟨3, way⟩ hreach, hanswer.of_abides abides⟩
  | @call stack mode label key next r reply inactive _ _ ihCallee ih =>
    cases hlawful with
    | @call _ _ _ next' _ typed waits hnext =>
      cases hw.calls hp hstack a mode typed next' frames with
      | cycle inside => exact absurd inside inactive
      | @starts i _ _ _ _ _ _ asks starts plain inProgress returns =>
        obtain ⟨result, w₁, hreach, hanswer⟩ := ihCallee ⟨i, _, []⟩
          (.calling ⟨a.reading i, mode, i, next'⟩ :: frames) (hp.lawful label key typed) plain
          inProgress fun hyields => splitAtImmediate_calling (waits hyields) (hframes hyields)
        obtain ⟨hback, habides, hw₁⟩ := returns result reply w₁ hanswer
        obtain ⟨result', w', hreach', hanswer'⟩ := ih (a.reading i) frames
          (hnext _ _ (hanswer.reply hp)) hw₁ (hstack.abides habides) hframes
        exact ⟨result', w', .head asks (.head starts (hreach.trans (.head hback hreach'))),
          hanswer'.of_abides habides⟩

/-! ## From runs to evaluations -/

/-- A body whose run finishes without a memory has evaluated to something. The induction is on the
    steps: what a callee evaluates to is known from its own, shorter run. -/
theorem evaluates_of_drive_plainly (hp : p.Pure use same yields) {τ : ValueType} {n : Nat}
    {stack : List Node}
    {a : Activation} {b c : Body} {frames : List Frame} {w w' : World}
    {result : Except QueryError Stamped} (hlawful : Lawful p use same yields τ b c)
    (hw : w.Plain p use t inputs) (hstack : w.InProgress stack)
    (hframes : yields → splitAtImmediate frames = none)
    (h : Evaluation.drive p t n ⟨.body a b, frames⟩ w = .finished result w') :
    ∃ r, Evaluates p inputs stack c r := by
  induction n using Nat.strongRecOn generalizing τ stack a b c frames w with
  | _ n ih =>
    -- from a point on the way, the rest of the run is shorter
    have hrest {m : Nat} {e : Evaluation} {w₁ : World} (hm : 0 < m)
        (hway : drive p t m ⟨.body a b, frames⟩ w = .running e w₁) :
        ∃ k < n, e.drive p t k w₁ = .finished result w' := by
      obtain ⟨k, rfl, hk⟩ := drive_of_finished_of_running h hway
      exact ⟨k, by omega, hk⟩
    cases hlawful with
    | @done r r' hagree => exact ⟨r', .done stack r'⟩
    | @read query valueType key next next' typed hnext =>
      obtain ⟨i, w₁, reply, hread, habides, hw₁, hagree⟩ := step_read_plainly hw a typed next frames
      obtain ⟨k, hk, hrun⟩ := hrest Nat.one_pos (drive_succ_of_running hread)
      obtain ⟨r, hr⟩ := ih k hk (hnext _ _ hagree) hw₁ (hstack.abides habides) hframes hrun
      exact ⟨r, .read hr⟩
    | @check next next' hnext =>
      obtain ⟨k, hk, hrun⟩ :=
        hrest Nat.one_pos (drive_succ_of_running (step_check_plainly hw a next frames))
      obtain ⟨r, hr⟩ := ih k hk (hnext _) hw hstack hframes hrun
      exact ⟨r, .check hr⟩
    | allocate hnext =>
      have hq := w.quiet_allocate
      obtain ⟨k, hk, hrun⟩ := hrest Nat.one_pos (drive_succ_of_running rfl)
      obtain ⟨r, hr⟩ := ih k hk (hnext w.allocate.1 0) (hw.quiet hq)
        (hstack.abides (hq.abides rfl)) hframes hrun
      exact ⟨r, .allocate hr⟩
    | @yield next next' allowed hnext =>
      have hstep : Evaluation.step p t ⟨.body a (.yield next), frames⟩ w =
          .parked ⟨.body a next, frames⟩ w := by
        simp only [Evaluation.step, stepBody, stepYield, hframes allowed]
      obtain ⟨k, hk, hrun⟩ := hrest Nat.one_pos (drive_succ_of_parked hstep)
      obtain ⟨r, hr⟩ := ih k hk hnext hw hstack hframes hrun
      exact ⟨r, .yield hr⟩
    | @call mode label key next next' typed waits hnext =>
      cases hw.calls hp hstack a mode typed next frames with
      | cycle inside way abides plain =>
        obtain ⟨k, hk, hrun⟩ := hrest (by omega) way
        obtain ⟨r, hr⟩ := ih k hk (hnext _ _ (.error _)) plain (hstack.abides abides) hframes hrun
        exact ⟨r, .cycle inside hr⟩
      | @starts i r _ w₂ outside _ _ asks starts plain inProgress returns =>
        have hcallee := hp.lawful label key typed
        have hframes₂ : yields →
            splitAtImmediate (.calling ⟨a.reading i, mode, i, next⟩ :: frames) = none :=
          fun hyields => splitAtImmediate_calling (waits hyields) (hframes hyields)
        obtain ⟨k, hk, hrun⟩ := hrest Nat.two_pos
          ((drive_succ_of_running asks).trans (drive_succ_of_running starts))
        obtain ⟨reply, hreply⟩ := ih k hk hcallee plain inProgress hframes₂ hrun
        -- the run goes through the answer of the callee
        obtain ⟨result₂, w₃, ⟨m, hm⟩, hanswer⟩ :=
          hreply.reaches_plainly hp ⟨i, r, []⟩ _ hcallee plain inProgress hframes₂
        obtain ⟨hback, habides, hw₃⟩ := returns result₂ reply w₃ hanswer
        obtain ⟨k₁, rfl, hrun₁⟩ := drive_of_finished_of_running hrun hm
        obtain ⟨k₂, rfl, hrun₂⟩ :=
          drive_of_finished_of_running hrun₁ (drive_succ_of_running (n := 0) hback)
        obtain ⟨reply', hr⟩ := ih k₂ (by omega) (hnext _ _ (hanswer.reply hp)) hw₃
          (hstack.abides habides) hframes hrun₂
        exact ⟨reply', .call outside hreply hr⟩

/-! ## Requests -/

section Requests

variable {label : Label} {key : Key} {i : SlotId} {w : World}

/-- What a body evaluates to is answered to a request. -/
theorem Evaluates.request_finishes_plainly (hp : p.Pure use same yields)
    (hw : w.Plain p use t inputs) (hidle : w.active = [])
    (typed : key.type = (use (p label).id).keyType)
    (hi : w.node? i = some (p.node label key)) {r : Except QueryError Value}
    (h : Evaluates p inputs [p.node label key] ((p label).body key) r) :
    ∃ result w', Finishes p t (.request i) w result w' ∧
      w.Answered p use (p label).valueType i result r w' := by
  obtain ⟨w₁, hstep, hquiet, hactive⟩ := step_fetch_plainly hw hp hi (by simp [hidle]) []
  have hstack := (World.InProgress.of_idle hidle).enter hi hquiet.grows.toExtends hactive
  obtain ⟨result, w', hreach, hanswer⟩ := h.reaches_plainly hp ⟨i, w.revision, []⟩
    [] (hp.lawful label key typed) (hw.quiet hquiet) hstack fun _ => rfl
  refine ⟨result, w', (Reaches.head hstep hreach).finishes (.of_answer result w'),
    hquiet.grows.toExtends.trans hanswer.toExtends, hanswer.agree, hanswer.tidy, ?_,
    hanswer.entryLocked.trans hquiet.entryLocked⟩
  rw [hanswer.active, hactive, hidle]
  simp [dropInnermost]

/-- A request that is answered has evaluated the body. -/
theorem evaluates_of_finishes_plainly (hp : p.Pure use same yields)
    (hw : w.Plain p use t inputs) (hidle : w.active = [])
    (typed : key.type = (use (p label).id).keyType)
    (hi : w.node? i = some (p.node label key)) {result : Except QueryError Stamped} {w' : World}
    (h : Finishes p t (.request i) w result w') :
    ∃ r, Evaluates p inputs [p.node label key] ((p label).body key) r := by
  obtain ⟨n, hn⟩ := h
  obtain ⟨w₁, hstep, hquiet, hactive⟩ := step_fetch_plainly hw hp hi (by simp [hidle]) []
  have hstack := (World.InProgress.of_idle hidle).enter hi hquiet.grows.toExtends hactive
  obtain ⟨k, -, hrun⟩ := drive_of_finished_of_running hn (drive_succ_of_running (n := 0) hstep)
  exact evaluates_of_drive_plainly hp (hp.lawful label key typed) (hw.quiet hquiet) hstack
    (fun _ => rfl) hrun

end Requests

end RedGreen
