import RedGreen.Proofs.PlainEvaluation
import RedGreen.Proofs.Soundness

set_option autoImplicit false

/-! # Evaluation with a memory

In a sound world, a request for a node ends as the evaluation of the node's body ends. The proof is
an induction on the evaluation, for two statements at once: a run of the body ends well
(`RunsWell`), and so does a revalidation that walks along the reads of an earlier run of it
(`WalksWell`), as long as starting the body again would end well too. A revalidation visits what the
body would read now, in the same order, until a reply differs; so the evaluation of the body tells
how each of its requests ends.

A request may be answered from a memo that does not know the nodes in progress, while the evaluation
does. The two agree because the node yields a value in fewer steps than the nodes in progress, if
these yield anything (`Shorter`). -/

namespace RedGreen

open Evaluation

variable {p : Program} {use : Usages} {same : Indistinct} {inputs : Inputs} {t : Token}

/-! ## Nodes in progress yield later -/

/-- If a node in progress yields anything, so does the body, in no more steps. -/
def Shorter (p : Program) (inputs : Inputs) (stack : List Node) (c : Body) : Prop :=
  ∀ label key m r, p.node label key ∈ stack → Yields p inputs m ((p label).body key) r →
    ∃ n r', n ≤ m ∧ Yields p inputs n c r'

/-- The same for the body of a node that is called: it takes fewer steps. -/
theorem Shorter.callee {stack : List Node} {mode : CallMode} {label : Label} {key : Key}
    {next : Except QueryError Value → Body}
    (h : Shorter p inputs stack (.call mode label key next)) {label' : Label} {key' : Key} {m : Nat}
    {r : Except QueryError Value} (hmem : p.node label' key' ∈ stack)
    (hm : Yields p inputs m ((p label').body key') r) :
    ∃ n r', n < m ∧ Yields p inputs n ((p label).body key) r' := by
  obtain ⟨n, r', hn, hyields⟩ := h label' key' m r hmem hm
  cases hyields with
  | call callee _ => exact ⟨_, _, by omega, callee⟩

theorem Shorter.enter (hp : p.Pure use same False) {stack : List Node} {mode : CallMode}
    {label : Label} {key : Key} {next : Except QueryError Value → Body}
    (h : Shorter p inputs stack (.call mode label key next)) :
    Shorter p inputs (stack ++ [p.node label key]) ((p label).body key) := by
  intro label' key' m r hmem hm
  rcases List.mem_append.1 hmem with hmem | hmem
  · obtain ⟨n, r', hn, hyields⟩ := h.callee hmem hm
    exact ⟨n, r', by omega, hyields⟩
  · rw [hp.body_eq (List.mem_singleton.1 hmem)] at hm
    exact ⟨m, r, Nat.le_refl m, hm⟩

/-- What the body yields it evaluates to. -/
theorem Shorter.evaluates (hp : p.Pure use same False) {stack : List Node} {c : Body}
    (h : Shorter p inputs stack c) {n : Nat} {r : Except QueryError Value}
    (hn : Yields p inputs n c r) : Evaluates p inputs stack c r := by
  refine hn.evaluates hp ?_
  intro label key m r' hmem hm
  obtain ⟨n', r'', hle, hn'⟩ := h label key m r' hmem hm
  obtain ⟨rfl, -⟩ := hn.unique hn'
  exact hle

/-- A node that yields anything is not in progress when it is called. -/
theorem Shorter.not_mem {stack : List Node} {mode : CallMode} {label : Label} {key : Key}
    {next : Except QueryError Value → Body}
    (h : Shorter p inputs stack (.call mode label key next)) {n : Nat} {r : Except QueryError Value}
    (hn : Yields p inputs n ((p label).body key) r) : p.node label key ∉ stack := by
  intro hmem
  obtain ⟨n', r', hlt, hn'⟩ := h.callee hmem hn
  obtain ⟨rfl, -⟩ := hn.unique hn'
  exact Nat.lt_irrefl _ hlt

theorem Shorter.read {stack : List Node} {query : QueryId} {valueType : ValueType} {key : Key}
    {next : Except QueryError Value → Body}
    (h : Shorter p inputs stack (.perform (.read query valueType key) next)) :
    Shorter p inputs stack (next (inputs.answer query key)) := by
  intro label' key' m r hmem hm
  obtain ⟨n, r', hn, hyields⟩ := h label' key' m r hmem hm
  cases hyields with
  | read hnext => exact ⟨_, _, by omega, hnext⟩

theorem Shorter.check {stack : List Node} {next : Except QueryError Unit → Body}
    (h : Shorter p inputs stack (.perform .check next)) :
    Shorter p inputs stack (next (.ok ())) := by
  intro label' key' m r hmem hm
  obtain ⟨n, r', hn, hyields⟩ := h label' key' m r hmem hm
  cases hyields with
  | check hnext => exact ⟨_, _, by omega, hnext⟩

theorem Shorter.allocate {stack : List Node} {next : Nat → Body}
    (h : Shorter p inputs stack (.perform .allocate next)) : Shorter p inputs stack (next 0) := by
  intro label' key' m r hmem hm
  obtain ⟨n, r', hn, hyields⟩ := h label' key' m r hmem hm
  cases hyields with
  | allocate hnext => exact ⟨_, _, by omega, hnext⟩

/-- After a call, with the reply that the callee evaluates to. -/
theorem Shorter.next (hp : p.Pure use same False) {stack : List Node} {mode : CallMode}
    {label : Label} {key : Key} {next : Except QueryError Value → Body}
    (h : Shorter p inputs stack (.call mode label key next)) {reply : Except QueryError Value}
    (hreply : Evaluates p inputs (stack ++ [p.node label key]) ((p label).body key) reply) :
    Shorter p inputs stack (next reply) := by
  intro label' key' m r hmem hm
  obtain ⟨n, r', hn, hyields⟩ := h label' key' m r hmem hm
  cases hyields with
  | call callee hnext =>
    rw [hreply.unique ((h.enter hp).evaluates hp callee)]
    exact ⟨_, _, by omega, hnext⟩

/-! ## What a request does to the world -/

namespace World

/-- What the evaluation of a node keeps: the inputs, what is known of reads, and the memos of the
    slots that were in progress before. -/
structure Keeps (p : Program) (use : Usages) (same : Indistinct) (w : World)
    (active : List SlotId) (w' : World) : Prop extends Spares p use same w active w' where
  sound : w'.Sound p use same

theorem Keeps.refl {w : World} (h : w.Sound p use same) (active : List SlotId) :
    Keeps p use same w active w := ⟨.refl w active, h⟩

theorem Keeps.trans {w w' w'' : World} {active : List SlotId} (h : Keeps p use same w active w')
    (h' : Keeps p use same w' active w'') : Keeps p use same w active w'' :=
  ⟨h.toSpares.trans h'.toSpares, h'.sound⟩

theorem Keeps.subset {w w' : World} {active active' : List SlotId}
    (h : Keeps p use same w active w') (hsub : active' ⊆ active) : Keeps p use same w active' w' :=
  ⟨h.toSpares.subset hsub, h.sound⟩

theorem Grows.keeps {w w' : World} (h : Grows w w') (hs : w.Sound p use same)
    (ht' : Tidy p use w'.toSystem) (hlocked : w'.entryLocked = w.entryLocked)
    (active : List SlotId) : Keeps p use same w active w' :=
  ⟨h.spares hs.tidy ht' hlocked active, hs.grows ht' h⟩

theorem Quiet.keeps {w w' : World} (h : Quiet w w') (hs : w.Sound p use same)
    (active : List SlotId) : Keeps p use same w active w' :=
  h.grows.keeps hs (h.tidy hs.tidy) h.entryLocked active

theorem Finds.keeps {w w' : World} {n : Node} {i : SlotId} (h : Finds p use w n i w')
    (hs : w.Sound p use same) (active : List SlotId) : Keeps p use same w active w' :=
  h.toGrows.keeps hs h.tidy h.entryLocked active

/-- Where a request for a slot has come to an answer. -/
structure Completes (p : Program) (use : Usages) (same : Indistinct) (w : World)
    (active : List SlotId) (i : SlotId) (result : Except QueryError Stamped)
    (r : Except QueryError Value) (w' : World) : Prop extends Keeps p use same w active w' where
  agree : Agree (fun (stamped : Stamped) v => stamped.value.Alike v) result r
  active_eq : w'.active = active
  /-- A value that is answered is kept. -/
  kept : ∀ stamped, result = .ok stamped →
    ∃ m, w'.memo? i = some m ∧ m.toStamped = stamped ∧ m.verifiedAt = w'.revision

/-- The memo of a slot in progress is renewed as of now by what the body yields now. The world stays
    sound, and what is known of reads stays known. -/
theorem Commits.keeps (hp : p.Pure use same False) {w w' : World} (hs : w.Sound p use same)
    {i : SlotId} {m : Memo} {label : Label} {key : Key}
    (hi : w.node? i = some (p.node label key)) (typed : key.type = (use (p label).id).keyType)
    (hcommits : Commits p use (same (p label).id) w i m w') (hverified : m.verifiedAt = w.revision)
    {reads : List Read} (hfollows : Follows ((p label).body key) reads (.done (.ok m.value)))
    (hdeps : m.deps = dependencies reads)
    (hseen : ∀ read ∈ reads, w.Seen p use same w.revision read) {active : List SlotId}
    (hout : i ∉ active) : Keeps p use same w active w' := by
  have hright : YieldsAlike p w.inputs label key m.value := by
    obtain ⟨n, r, hyields, hagree⟩ := hfollows.result (hp.lawful label key typed)
      fun read hmem => (hseen read hmem).current rfl
    obtain ⟨v, rfl, halike⟩ := hagree.of_ok_left
    exact ⟨n, v, hyields, halike⟩
  have htype : m.value.type = (p label).valueType := hright.elim fun _ h => h.elim fun _ h => h.2.1
  have hspares := hcommits.spares hp hs.tidy hi hverified hright hout
  refine ⟨hspares, hs.of_extends hcommits.tidy hcommits.toExtends ?_ ?_⟩
  · exact fun j o read ho _ hread => hspares.seen _ read (hs.justified j o ho).verified_le hread
  · intro j o ho
    by_cases hj : j = i
    · subst hj
      obtain rfl := Option.some.inj (hcommits.memo_self.symm.trans ho)
      refine .inr ⟨?_, ?_, label, key, reads, hcommits.node _ _ hi, htype, hfollows, hdeps, ?_⟩
      · refine hcommits.supersedes.changed_le fun o ho => ?_
        rw [hverified]
        exact Nat.le_trans (hs.justified j o ho).changed_le (hs.justified j o ho).verified_le
      · exact Nat.le_of_eq (hverified.trans hcommits.revision.symm)
      · intro read hmem
        rw [hverified]
        exact hspares.seen _ read (Nat.le_refl _) (hseen read hmem)
    · exact .inl ((hcommits.memo_other j hj).symm.trans ho)

/-! ## Slots in progress -/

/-- A slot is the innermost in progress, on the way to which the given nodes have been entered. -/
structure Computing (p : Program) (use : Usages) (same : Indistinct) (t : Token) (inputs : Inputs)
    (stack : List Node) (w : World) (active : List SlotId) (i : SlotId) (label : Label) (key : Key) :
    Prop where
  sound : w.Sound p use same
  inputs_eq : w.inputs = inputs
  uncancelled : t ∉ w.cancelled
  inProgress : w.InProgress stack
  active_eq : w.active = active ++ [i]
  outside : i ∉ active
  node : w.node? i = some (p.node label key)
  typed : key.type = (use (p label).id).keyType
  /-- Nothing in progress is valid as of now. -/
  stale : ∀ j ∈ active ++ [i], ∀ m, w.memo? j = some m → m.verifiedAt ≠ w.revision

theorem Computing.keeps {stack : List Node} {w w' : World} {active : List SlotId} {i : SlotId}
    {label : Label} {key : Key} (h : Computing p use same t inputs stack w active i label key)
    (hw : Keeps p use same w (active ++ [i]) w') (hactive : w'.active = w.active) :
    Computing p use same t inputs stack w' active i label key where
  sound := hw.sound
  inputs_eq := (hw.inputs h.sound.tidy hw.sound.tidy).trans h.inputs_eq
  uncancelled := hw.cancelled ▸ h.uncancelled
  inProgress := h.inProgress.of_extends hw.toExtends hactive
  active_eq := hactive.trans h.active_eq
  outside := h.outside
  node := hw.node _ _ h.node
  typed := h.typed
  stale j hj m hm := by
    rw [hw.revision]
    exact h.stale j hj m ((hw.memo j hj).symm.trans hm)

end World

/-! ## Runs that end well -/

/-- A request for a slot, at some point of it, comes to the answer that it ought to have. -/
def Ends (p : Program) (use : Usages) (same : Indistinct) (t : Token) (w : World)
    (active : List SlotId) (i : SlotId) (control : Control) (frames : List Frame)
    (r : Except QueryError Value) : Prop :=
  ∃ result w', Reaches p t ⟨control, frames⟩ w ⟨.answer result, frames⟩ w' ∧
    World.Completes p use same w active i result r w'

theorem Ends.of_reaches {w w₁ : World} {active : List SlotId} {i : SlotId}
    {control control₁ : Control} {frames : List Frame} {r : Except QueryError Value}
    (hreach : Reaches p t ⟨control, frames⟩ w ⟨control₁, frames⟩ w₁)
    (hw : w.Keeps p use same active w₁) (h : Ends p use same t w₁ active i control₁ frames r) :
    Ends p use same t w active i control frames r := by
  obtain ⟨result, w', hreach', hcompletes⟩ := h
  exact ⟨result, w', hreach.trans hreach', hw.trans hcompletes.toKeeps, hcompletes.agree,
    hcompletes.active_eq, hcompletes.kept⟩

theorem Ends.head {w w₁ : World} {active : List SlotId} {i : SlotId}
    {control control₁ : Control} {frames : List Frame} {r : Except QueryError Value}
    (hstep : Evaluation.step p t ⟨control, frames⟩ w = .running ⟨control₁, frames⟩ w₁)
    (hw : w.Keeps p use same active w₁) (h : Ends p use same t w₁ active i control₁ frames r) :
    Ends p use same t w active i control frames r := .of_reaches (.of_step hstep) hw h

/-- A run of a body, at a point where `c` is left of it, ends well. -/
def RunsWell (p : Program) (use : Usages) (same : Indistinct) (t : Token) (inputs : Inputs)
    (stack : List Node) (c : Body) (r : Except QueryError Value) : Prop :=
  ∀ (w : World) (active : List SlotId) (a : Activation) (label : Label) (key : Key) (b : Body)
    (frames : List Frame) (reads : List Read),
    w.Computing p use same t inputs stack active a.slot label key → a.revision = w.revision →
    Follows ((p label).body key) reads b → a.deps = dependencies reads →
    (∀ read ∈ reads, w.Seen p use same w.revision read) →
    Lawful p use same False (p label).valueType b c →
    Transparent b → Shorter p inputs stack c →
    Ends p use same t w active a.slot (.body a b) frames r

/-- A revalidation that has come to the point of an earlier run where `c` would be left of the body
    ends well, if starting the body does. -/
def WalksWell (p : Program) (use : Usages) (same : Indistinct) (t : Token) (inputs : Inputs)
    (stack : List Node) (c : Body) (r : Except QueryError Value) : Prop :=
  ∀ (w : World) (active : List SlotId) (i : SlotId) (label : Label) (key : Key) (m : Memo) (b : Body)
    (frames : List Frame) (before after : List Read) (rest : List SlotId),
    w.Computing p use same t inputs stack active i label key → w.memo? i = some m →
    Follows ((p label).body key) before b → Follows b after (.done (.ok m.value)) →
    m.deps = dependencies (before ++ after) → m.deps = dependencies before ++ rest →
    (∀ read ∈ before ++ after, w.Seen p use same m.verifiedAt read) →
    (∀ read ∈ before ++ after, read.slot ∈ dependencies before →
      w.Seen p use same w.revision read) →
    Lawful p use same False (p label).valueType b c → Transparent b → Shorter p inputs stack c →
    (∀ w₁, w₁.Computing p use same t inputs stack active i label key →
      w₁.revision = w.revision → Ends p use same t w₁ active i (.compute i w.revision) frames r) →
    Ends p use same t w active i (.walk ⟨i, w.revision, m.verifiedAt, rest⟩) frames r

/-- The value that was kept of a slot in progress has the type of its query. -/
theorem World.Computing.type_memo (hp : p.Pure use same False) {stack : List Node} {w : World}
    {active : List SlotId} {i : SlotId} {label : Label} {key : Key}
    (h : w.Computing p use same t inputs stack active i label key) (o : Memo)
    (ho : w.memo? i = some o) : o.value.type = (p label).valueType :=
  (h.sound.justified i o ho).type hp h.node

section Ends

variable {stack : List Node} {w : World} {active : List SlotId} {i : SlotId} {label : Label}
  {key : Key}

/-- A request in progress that fails. -/
theorem World.Computing.completes_error (h : w.Computing p use same t inputs stack active i label key)
    {w' : World} (hquiet : w.Quiet w') (hactive : w'.active = dropInnermost w.active i)
    (e : QueryError) : w.Completes p use same active i (.error e) (.error e) w' :=
  ⟨hquiet.keeps h.sound active, .error e,
    by rw [hactive, h.active_eq, dropInnermost_concat], nofun⟩

theorem ends_of_error {a : Activation}
    (h : w.Computing p use same t inputs stack active a.slot label key) (frames : List Frame)
    (hp : p.Pure use same False) (e : QueryError) :
    Ends p use same t w active a.slot (.body a (.done (.error e))) frames (.error e) := by
  have hfinish := World.finish_spec hp h.sound.tidy h.sound.memoize t h.node (h.type_memo hp)
    (.error e) nofun
  generalize hout : w.finish t a (.error e) = out at hfinish
  cases hfinish with
  | @failed _ w' quiet hactive =>
    refine ⟨.error e, w', .of_step ?_, h.completes_error quiet hactive e⟩
    simp only [Evaluation.step, stepBody, hout]
    rfl

/-- Starting the body ends well, if running it does. -/
theorem RunsWell.compute (hp : p.Pure use same False) {r : Except QueryError Value}
    (hruns : RunsWell p use same t inputs stack ((p label).body key) r)
    (htransparent : Transparent ((p label).body key))
    (hshorter : Shorter p inputs stack ((p label).body key))
    (h : w.Computing p use same t inputs stack active i label key) (frames : List Frame) :
    Ends p use same t w active i (.compute i w.revision) frames r := by
  have hcompute := World.compute_spec hp.consistent h.sound.tidy t h.node w.revision
  generalize hout : w.compute p t i w.revision = out at hcompute
  cases hcompute with
  | cancelled cancelled => exact absurd cancelled h.uncancelled
  | @run w₁ quiet hactive =>
    have hkeeps := quiet.keeps h.sound (active ++ [i])
    refine .head ?_ (hkeeps.subset (List.subset_append_left _ _))
      (hruns w₁ active ⟨i, w.revision, []⟩ label key _ frames [] (h.keeps hkeeps hactive)
        quiet.revision.symm (.refl _) rfl nofun (hp.lawful label key h.typed) htransparent hshorter)
    simp only [Evaluation.step, hout]
    rfl

end Ends

end RedGreen
