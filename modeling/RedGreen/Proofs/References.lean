import Mathlib.Data.Finset.Card
import RedGreen.Proofs.Stamps
import RedGreen.Proofs.Turns

set_option autoImplicit false

/-! # What bodies refer to

A node *refers* to another if a body that computes the one may ask for the other, whatever it is told
(`Program.Refers`). This is a relation of the program alone. Whatever is recorded in a system follows
it: a memo depends on slots whose nodes its node refers to, and an evaluation leads from the requested
slot to the one in progress along such edges (`World.Descends`). So a request for a node comes to no
other nodes than those that can be reached from it (`Descends.within`). -/

namespace RedGreen

open Evaluation

variable {p : Program} {t : Token} {w w' : World}

/-! ## References -/

/-- A body may ask for a node: some answers lead it to a read of the input, or to a call of the
    query. -/
inductive Mentions (p : Program) : Body → Node → Prop
  | read {query : QueryId} {valueType : ValueType} {key : Key}
    {next : Except QueryError Value → Body} :
    Mentions p (.perform (.read query valueType key) next) ⟨query, key⟩
  | call {mode : CallMode} {label : Label} {key : Key} {next : Except QueryError Value → Body} :
    Mentions p (.call mode label key next) (p.node label key)
  | performed {op : Operation} {next : op.Reply → Body} {n : Node} (r : op.Reply)
    (h : Mentions p (next r) n) : Mentions p (.perform op next) n
  | called {mode : CallMode} {label : Label} {key : Key} {next : Except QueryError Value → Body}
    {n : Node} (r : Except QueryError Value) (h : Mentions p (next r) n) :
    Mentions p (.call mode label key next) n
  | yielded {next : Body} {n : Node} (h : Mentions p next n) : Mentions p (.yield next) n

/-- A node refers to another: a body that computes the one may ask for the other. -/
def Program.Refers (p : Program) (m n : Node) : Prop :=
  ∃ label, (p label).id = m.query ∧ Mentions p ((p label).body m.key) n

/-- The node that the evaluation of a request is for. -/
def Request.node? (p : Program) : Request → Option Node
  | .query _ label key | .derive label key _ => some (p.node label key)
  | .touch id _ key => some ⟨id, key⟩
  | _ => none

namespace World

variable {root i : SlotId} {frames : List Frame} {a : Activation} {b : Body}

/-- The node of a slot refers to that of another. -/
def Edge (p : Program) (w : World) (i j : SlotId) : Prop :=
  ∃ m n, w.node? i = some m ∧ w.node? j = some n ∧ p.Refers m n

/-- What a running body has read, and what it may still ask for, its node refers to. -/
structure Minds (p : Program) (w : World) (a : Activation) (b : Body) : Prop where
  deps : ∀ j ∈ a.deps, w.Edge p a.slot j
  mentions : ∀ n, Mentions p b n → ∃ m, w.node? a.slot = some m ∧ p.Refers m n

/-- Frames that wait for a slot, on the way from a root. -/
inductive DescendsTo (p : Program) (w : World) (root : SlotId) : SlotId → List Frame → Prop
  | root : DescendsTo p w root root []
  | touching {walk : Walk} {dep : SlotId} {frames : List Frame}
    (edges : ∀ j ∈ dep :: walk.rest, w.Edge p walk.slot j)
    (outer : DescendsTo p w root walk.slot frames) :
    DescendsTo p w root dep (.touching walk dep :: frames)
  | calling {a : Activation} {mode : CallMode} {callee : SlotId}
    {next : Except QueryError Value → Body} {frames : List Frame}
    (minds : ∀ r, w.Minds p a (next r)) (edge : w.Edge p a.slot callee)
    (outer : DescendsTo p w root a.slot frames) :
    DescendsTo p w root callee (.calling ⟨a, mode, callee, next⟩ :: frames)

/-- An evaluation has come from a root along references. -/
inductive Descends (p : Program) (w : World) (root : SlotId) : Evaluation → Prop
  | requested {i : SlotId} {frames : List Frame} (awaits : w.DescendsTo p root i frames) :
    Descends p w root ⟨.fetch i, frames⟩
  | walking {walk : Walk} {frames : List Frame} (edges : ∀ j ∈ walk.rest, w.Edge p walk.slot j)
    (awaits : w.DescendsTo p root walk.slot frames) : Descends p w root ⟨.walk walk, frames⟩
  | computing {i : SlotId} {r : Revision} {frames : List Frame} (awaits : w.DescendsTo p root i frames) :
    Descends p w root ⟨.compute i r, frames⟩
  | running {a : Activation} {b : Body} {frames : List Frame} (minds : w.Minds p a b)
    (awaits : w.DescendsTo p root a.slot frames) : Descends p w root ⟨.body a b, frames⟩
  | answered {i : SlotId} {r : Except QueryError Stamped} {frames : List Frame}
    (awaits : w.DescendsTo p root i frames) : Descends p w root ⟨.answer r, frames⟩

/-- What is recorded follows references. -/
def Recorded (p : Program) (w : World) : Prop :=
  ∀ i m, w.memo? i = some m → ∀ j ∈ m.deps, w.Edge p i j

/-! ## Worlds that go on -/

theorem Edge.continues {j : SlotId} (h : w.Edge p i j) (hw : w.Continues w') : w'.Edge p i j := by
  obtain ⟨m, n, hm, hn, hrefers⟩ := h
  exact ⟨m, n, hw.node? hm, hw.node? hn, hrefers⟩

theorem Minds.continues (h : w.Minds p a b) (hw : w.Continues w') : w'.Minds p a b where
  deps j hj := (h.deps j hj).continues hw
  mentions n hn := by
    obtain ⟨m, hm, hrefers⟩ := h.mentions n hn
    exact ⟨m, hw.node? hm, hrefers⟩

theorem DescendsTo.continues (h : w.DescendsTo p root i frames) (hw : w.Continues w') :
    w'.DescendsTo p root i frames := by
  induction h with
  | root => exact .root
  | touching edges _ ih => exact .touching (fun j hj => (edges j hj).continues hw) ih
  | calling minds edge _ ih => exact .calling (fun r => (minds r).continues hw) (edge.continues hw) ih

theorem Descends.continues {e : Evaluation} (h : w.Descends p root e) (hw : w.Continues w') :
    w'.Descends p root e := by
  cases h with
  | requested awaits => exact .requested (awaits.continues hw)
  | walking edges awaits =>
    exact .walking (fun j hj => (edges j hj).continues hw) (awaits.continues hw)
  | computing awaits => exact .computing (awaits.continues hw)
  | running minds awaits => exact .running (minds.continues hw) (awaits.continues hw)
  | answered awaits => exact .answered (awaits.continues hw)

/-- Whatever an evaluation does, somebody waits for the slot in progress, or nobody does. -/
theorem Descends.awaits {c : Control} (h : w.Descends p root ⟨c, frames⟩) :
    ∃ i, w.DescendsTo p root i frames := by
  cases h with
  | requested awaits | walking _ awaits | computing awaits | running _ awaits | answered awaits =>
    exact ⟨_, awaits⟩

/-- A caller further out among the frames. -/
theorem DescendsTo.outer {inside outside : List Frame} {caller : Caller}
    (h : w.DescendsTo p root i (inside ++ .calling caller :: outside)) :
    (∀ r, w.Minds p caller.activation (caller.next r)) ∧
      w.DescendsTo p root caller.activation.slot outside := by
  induction inside generalizing i with
  | nil =>
    cases h with
    | calling minds _ outer => exact ⟨minds, outer⟩
  | cons frame inside ih =>
    cases h with
    | touching _ outer | calling _ _ outer => exact ih outer

/-- No memo that is recorded is new. -/
theorem Recorded.of_memo (h : w.Recorded p) (hw : w.Continues w')
    (hmemo : ∀ i, w'.memo? i = w.memo? i ∨ w'.memo? i = none) : w'.Recorded p := by
  intro i m hm j hj
  rcases hmemo i with hsame | hnone
  · exact (h i m (hsame.symm.trans hm) j hj).continues hw
  · cases hnone.symm.trans hm

/-! ## Bodies -/

/-- The body that starts for a slot asks for what the node of the slot refers to. -/
theorem InDirectory.minds (h : w.InDirectory p) {r : Revision} (hstarts : Starts.Body p w i b) :
    w.Minds p ⟨i, r, []⟩ b where
  deps := nofun
  mentions n hn := by
    rcases hstarts with ⟨slot, d, hslot, hcontent, rfl⟩ | ⟨e, rfl⟩
    · obtain ⟨valueType, -, hbound⟩ := h.cached hslot
      exact ⟨slot.node, by rw [System.node?, hslot]; rfl, d.recompute, (hbound d hcontent).1, hn⟩
    · cases hn

/-- A body that has asked for a node has recorded a slot that its own node refers to. -/
theorem Minds.edge (h : w.Minds p a b) (hw : w.Continues w') {n : Node} (hn : Mentions p b n)
    {j : SlotId} (hj : w'.node? j = some n) : w'.Edge p a.slot j := by
  obtain ⟨m, hm, hrefers⟩ := h.mentions n hn
  exact ⟨m, n, hw.node? hm, hj, hrefers⟩

end World

/-! ## Steps -/

namespace Evaluation

variable {e e' : Evaluation} {root : SlotId}

/-- A step leads along references. -/
theorem Next.descends (h : e.Next p t w e' w') (hdir : w.InDirectory p) (hrecorded : w.Recorded p)
    (hdescends : w.Descends p root e) : w'.Descends p root e' := by
  have hw := h.edits.continues
  have hturns := h.turns
  cases hturns with
  | answers =>
    obtain ⟨i, hawaits⟩ := hdescends.awaits
    exact .answered (hawaits.continues hw)
  | revalidates memo =>
    cases hdescends with
    | requested awaits =>
      exact .walking (fun j hj => (hrecorded _ _ memo j hj).continues hw) (awaits.continues hw)
  | misses =>
    cases hdescends with
    | requested awaits => exact .computing (awaits.continues hw)
  | fetches starts =>
    cases hdescends with
    | requested awaits => exact .running ((hdir.minds starts).continues hw) (awaits.continues hw)
  | computes starts =>
    cases hdescends with
    | computing awaits => exact .running ((hdir.minds starts).continues hw) (awaits.continues hw)
  | outdates =>
    cases hdescends with
    | walking edges awaits => exact .computing (awaits.continues hw)
  | passes next =>
    cases hdescends with
    | walking edges awaits =>
      refine .walking (fun j hj => (edges j ?_).continues hw) (awaits.continues hw)
      exact next ▸ List.mem_cons_of_mem _ hj
  | touches next =>
    cases hdescends with
    | walking edges awaits =>
      exact .requested (.touching (fun j hj => (edges j (next ▸ hj)).continues hw)
        (awaits.continues hw))
  | performs reply slot deps =>
    cases hdescends with
    | running minds awaits =>
      refine .running ⟨fun j hj => ?_, fun n hn => ?_⟩ (slot ▸ awaits.continues hw)
      · rw [slot]
        rcases deps j hj with hbefore | ⟨query, valueType, key, rfl, hnode⟩
        · exact (minds.deps j hbefore).continues hw
        · exact minds.edge hw .read hnode
      · rw [slot]
        exact (minds.continues hw).mentions n (.performed reply hn)
  | misfits error =>
    cases hdescends with
    | running minds awaits =>
      have hminds := minds.continues hw
      exact .running ⟨hminds.deps, fun n hn => hminds.mentions n (.called _ hn)⟩
        (awaits.continues hw)
  | @calls a mode label key next callee frames w w' found =>
    cases hdescends with
    | running minds awaits =>
      have hminds := minds.continues hw
      have hedge : w'.Edge p a.slot callee := minds.edge hw .call found
      refine .requested (.calling (fun r => ⟨fun j hj => ?_, fun n hn => ?_⟩) hedge
        (awaits.continues hw))
      · rcases mem_recordOnce.1 hj with hbefore | rfl
        · exact hminds.deps j hbefore
        · exact hedge
      · exact hminds.mentions n (.called r hn)
  | yields =>
    cases hdescends with
    | running minds awaits =>
      have hminds := minds.continues hw
      exact .running ⟨hminds.deps, fun n hn => hminds.mentions n (.yielded hn)⟩
        (awaits.continues hw)
  | givesUp reply =>
    cases hdescends with
    | running _ awaits =>
      obtain ⟨minds, outer⟩ := awaits.outer
      exact .running ((minds reply).continues hw) (outer.continues hw)
  | propagates error =>
    cases hdescends with
    | answered awaits =>
      cases awaits with
      | touching _ outer => exact .answered (outer.continues hw)
  | finds =>
    cases hdescends with
    | answered awaits =>
      cases awaits with
      | touching _ outer => exact .computing (outer.continues hw)
  | goesOn =>
    cases hdescends with
    | answered awaits =>
      cases awaits with
      | touching edges outer =>
        exact .walking (fun j hj => (edges j (List.mem_cons_of_mem _ hj)).continues hw)
          (outer.continues hw)
  | returns reply =>
    cases hdescends with
    | answered awaits =>
      cases awaits with
      | calling minds _ outer => exact .running ((minds reply).continues hw) (outer.continues hw)

/-- A step records what follows references. -/
theorem Next.recorded (h : e.Next p t w e' w') (hrecorded : w.Recorded p)
    (hdescends : w.Descends p root e) : w'.Recorded p := by
  have hw := h.edits.continues
  cases h.remembers with
  | keeps memo => exact hrecorded.of_memo hw fun i => .inl (memo i)
  | @confirms walk m frames w w' rest memo self others =>
    intro i o ho j hj
    by_cases hi : i = walk.slot
    · subst hi
      obtain rfl := Option.some.inj (self.symm.trans ho)
      exact (hrecorded _ m memo j hj).continues hw
    · exact (hrecorded i o ((others i hi).symm.trans ho) j hj).continues hw
  | @renews a value d frames w w' uncancelled memoize memo self others =>
    intro i o ho j hj
    by_cases hi : i = a.slot
    · subst hi
      obtain rfl := Option.some.inj (self.symm.trans ho)
      cases hdescends with
      | running minds => exact (minds.deps j hj).continues hw
    · exact (hrecorded i o ((others i hi).symm.trans ho) j hj).continues hw

theorem Reaches.descends (h : Reaches p t e w e' w') (hdir : w.InDirectory p)
    (hrecorded : w.Recorded p) (hdescends : w.Descends p root e) :
    w'.InDirectory p ∧ w'.Recorded p ∧ w'.Descends p root e' :=
  h.preserves (motive := fun e' w' => w'.InDirectory p ∧ w'.Recorded p ∧ w'.Descends p root e')
    (fun _ _ _ _ hnext ⟨hdir, hrecorded, hdescends⟩ => ⟨hnext.edits.inDirectory hdir,
      hnext.recorded hrecorded hdescends, hnext.descends hdir hrecorded hdescends⟩)
    ⟨hdir, hrecorded, hdescends⟩

end Evaluation

/-! ## Requests and tasks -/

/-- The evaluation of a request is for the slot of its node. -/
theorem Request.node?_of_begin {request : Request} {e : Evaluation}
    (h : request.begin p w = (.evaluating e, w')) :
    ∃ root n, e = .request root ∧ request.node? p = some n ∧ w'.node? root = some n := by
  have hofSlot {label : Label} {key : Key} {equality : Equivalence}
      (h : Begun.ofSlot (w.derivedSlot (p label).id (p label).valueType key label equality) =
        (.evaluating e, w')) :
      ∃ root, e = .request root ∧ w'.node? root = some (p.node label key) := by
    generalize hfound : w.derivedSlot (p label).id (p label).valueType key label equality = found at h
    obtain ⟨found, w₁⟩ := found
    cases found with
    | error e => cases h
    | ok root =>
      cases h
      exact ⟨root, rfl, World.node?_of_slotFor hfound⟩
  cases request with
  | write | read | prepare | clear => cases h
  | query access label key =>
    obtain ⟨root, rfl, hnode⟩ := hofSlot h
    exact ⟨root, _, rfl, rfl, hnode⟩
  | derive label key equality =>
    obtain ⟨root, rfl, hnode⟩ := hofSlot h
    exact ⟨root, _, rfl, rfl, hnode⟩
  | touch query valueType key =>
    simp only [begin] at h
    split at h
    · cases h
    · rename_i w₁ hopen
      split at h
      · cases h
      · rename_i root hfound
        split at h
        · cases h
          exact ⟨root, _, rfl, rfl, System.node?_of_find? hfound⟩
        · cases h

/-- When a request begins, no memo is made. -/
theorem Request.memo_begin (p : Program) (request : Request) (w : World) (i : SlotId) :
    (request.begin p w).2.memo? i = w.memo? i ∨ (request.begin p w).2.memo? i = none := by
  have hchanges := request.begin_changes p w
  generalize (request.begin p w).2 = w' at hchanges
  cases hchanges with
  | rests rests => exact .inl (rests.memo i)
  | writes rests kind =>
    obtain ⟨-, -, hmemo⟩ := World.put_changes kind _
    exact .inl ((hmemo i).trans (rests.memo i))
  | clears access before => exact (w.drops_clear before).memo i

namespace Task

variable {task : Task}

/-- The evaluation of a task has come from the slot that its request asks for. -/
def Descends (p : Program) (w : World) (task : Task) : Prop :=
  ∀ e, task.suspended = some e → ∃ root n, task.request.node? p = some n ∧
    w.node? root = some n ∧ w.Descends p root e

theorem Descends.continues (h : task.Descends p w) (hw : w.Continues w') : task.Descends p w' := by
  intro e he
  obtain ⟨root, n, hn, hroot, hdescends⟩ := h e he
  exact ⟨root, n, hn, hw.node? hroot, hdescends.continues hw⟩

theorem descends_of_unbegun (hunbegun : task.suspended = none) : task.Descends p w :=
  fun _ he => nomatch hunbegun.symm.trans he

/-- An evaluation that begins is at the slot that its request asks for. -/
theorem Begins.descends {e : Evaluation} (h : task.Begins p w e w') (hdir : w.InDirectory p)
    (hrecorded : w.Recorded p) (hdescends : task.Descends p w) :
    w'.InDirectory p ∧ w'.Recorded p ∧ ∃ root n, task.request.node? p = some n ∧
      w'.node? root = some n ∧ w'.Descends p root e := by
  refine ⟨h.edits.inDirectory hdir, hrecorded.of_memo h.edits.continues fun i =>
    .inl (h.still.memo i), ?_⟩
  rcases h with ⟨hsuspended, rfl⟩ | ⟨-, w₁, -, hbegin⟩
  · exact hdescends e hsuspended
  · obtain ⟨root, n, rfl, hn, hroot⟩ := Request.node?_of_begin hbegin
    exact ⟨root, n, hn, hroot, .requested .root⟩

end Task

/-- The task that a poll has left, if any, has come from the slot that its request asks for. -/
def Poll.Descends (p : Program) (w : World) : Poll → Prop
  | .ready _ => True
  | .pending _ task => task.Descends p w

/-- However a task is polled, what is recorded follows references. -/
theorem Task.Course.descends {task : Task} {out : Poll × World} (h : Course p task w out)
    (hdir : w.InDirectory p) (hrecorded : w.Recorded p) (hdescends : task.Descends p w) :
    out.2.Recorded p ∧ out.1.Descends p out.2 := by
  have hcontinues := h.edits.continues
  cases h with
  | waits => exact ⟨hrecorded, hdescends⟩
  | refused _ entry =>
    have hstill := (Access.alters_of_entry entry).still
    exact ⟨hrecorded.of_memo hcontinues fun i => .inl (hstill.memo i), trivial⟩
  | @answered w₁ w₂ result _ entry opens =>
    have hstill := (Access.alters_of_entry entry).still
    have hrelease := (task.request.access.alters_release w₂).still
    refine ⟨hrecorded.of_memo hcontinues fun i => ?_, trivial⟩
    have hbegin := task.request.memo_begin p w₁ i
    rw [opens] at hbegin
    rw [hrelease.memo, ← hstill.memo]
    exact hbegin
  | parks begins reaches =>
    obtain ⟨hdir₁, hrecorded₁, root, n, hn, hroot, hdescends₁⟩ := begins.descends hdir hrecorded hdescends
    obtain ⟨-, hrecorded₂, hdescends₂⟩ := reaches.descends hdir₁ hrecorded₁ hdescends₁
    refine ⟨hrecorded₂, fun e he => ⟨root, n, hn, reaches.edits.continues.node? hroot, ?_⟩⟩
    exact Option.some.inj he ▸ hdescends₂
  | @ends e w₁ w' result begins finishes =>
    obtain ⟨hdir₁, hrecorded₁, root, n, hn, hroot, hdescends₁⟩ := begins.descends hdir hrecorded hdescends
    obtain ⟨-, hrecorded₂, -⟩ := finishes.reaches.descends hdir₁ hrecorded₁ hdescends₁
    have hrelease := task.request.access.alters_release w'
    refine ⟨hrecorded₂.of_memo (Access.edits_release (p := p) _ w').continues fun i => ?_, trivial⟩
    exact .inl (hrelease.still.memo i)

/-! ## Sessions -/

namespace Session

variable {s : Session}

/-- What a session has recorded follows references, and so do the tasks that are kept. -/
structure Descends (p : Program) (s : Session) : Prop where
  directory : s.world.InDirectory p
  recorded : s.world.Recorded p
  tasks : ∀ entry ∈ s.tasks.entries, entry.2.Descends p s.world

theorem Descends.of_get? (h : s.Descends p) {name : String} {task : Task}
    (hfound : s.tasks.get? name = some task) : task.Descends p s.world := by
  obtain ⟨entry, hentry, rfl⟩ := mem_entries_of_get? hfound
  exact h.tasks entry hentry

/-- A poll records what follows references. -/
theorem Polls.descends {step : Step} {w : World} {tasks : Named Task} (h : s.Polls p step w tasks)
    (hs : s.Descends p) (hw : s.world.Continues w) :
    w.Recorded p ∧ ∀ entry ∈ tasks.entries, entry.2.Descends p w := by
  have hothers : ∀ entry ∈ s.tasks.entries, entry.2.Descends p w := fun entry hentry =>
    (hs.tasks entry hentry).continues hw
  cases h with
  | @performs request name out course =>
    obtain ⟨hrecorded, -⟩ := course.descends hs.directory hs.recorded (Task.descends_of_unbegun rfl)
    refine ⟨?_, hothers⟩
    obtain ⟨poll, w⟩ := out
    cases poll with
    | ready result => exact hrecorded
    | pending woken task =>
      exact hrecorded.of_memo (task.edits_drop (p := p) w).continues fun i =>
        .inl ((task.still_drop w).memo i)
  | ends carries found course =>
    obtain ⟨hrecorded, -⟩ := course.descends hs.directory hs.recorded (hs.of_get? found)
    exact ⟨hrecorded, fun entry hentry => hothers entry (List.mem_filter.1 hentry).1⟩
  | waits carries found course =>
    obtain ⟨hrecorded, htask⟩ := course.descends hs.directory hs.recorded (hs.of_get? found)
    exact ⟨hrecorded, List.forall_mem_cons.2 ⟨htask, fun entry hentry =>
      hothers entry (List.mem_filter.1 hentry).1⟩⟩

theorem Descends.report (hs : s.Descends p) (limits : Limits) (step : Step) :
    (s.report p limits step).2.Descends p := by
  have hedits := edits_step p limits s step
  obtain ⟨hrecorded, htasks⟩ : (s.step p limits step).2.world.Recorded p ∧
      ∀ entry ∈ (s.step p limits step).2.tasks.entries,
        entry.2.Descends p (s.step p limits step).2.world := by
    rcases (effects_step (p := p) limits s step).aside with hpolls | ⟨hdrops, -, htasks⟩
    · exact hpolls.descends hs hedits.continues
    · refine ⟨hs.recorded.of_memo hedits.continues hdrops.memo, fun entry hentry => ?_⟩
      rcases htasks entry hentry with hbefore | ⟨hunbegun, -⟩
      · exact (hs.tasks entry hbefore).continues hedits.continues
      · exact Task.descends_of_unbegun hunbegun
  -- handing out the journal makes no slot and no memo
  have hcontinues : (s.step p limits step).2.world.Continues (s.report p limits step).2.world :=
    ⟨List.prefix_refl _, List.prefix_refl _⟩
  exact ⟨inDirectory_report limits step hs.directory,
    hrecorded.of_memo hcontinues fun _ => .inl rfl,
    fun entry hentry => (htasks entry hentry).continues hcontinues⟩

theorem descends_fresh (p : Program) (memoize traced : Bool) :
    (Session.fresh memoize traced).Descends p where
  directory := World.inDirectory_new memoize
  recorded i m hm := by cases hm
  tasks _ hentry := absurd hentry List.not_mem_nil

theorem Descends.after (hs : s.Descends p) (limits : Limits) (steps : List Step) :
    (s.after p limits steps).Descends p := by
  induction steps generalizing s with
  | nil => exact hs
  | cons step steps ih => exact ih (hs.report limits step)

end Session

/-! ## What a request can come to -/

/-- A set of nodes is closed: what refers to a node outside is outside. -/
def Program.Closed (p : Program) (F : Finset Node) : Prop := ∀ m ∈ F, ∀ n, p.Refers m n → n ∈ F

namespace World

variable {F : Finset Node} {root i j : SlotId} {frames : List Frame}

/-- A slot belongs to one of some nodes. -/
def Within (w : World) (F : Finset Node) (i : SlotId) : Prop := ∃ n ∈ F, w.node? i = some n

theorem Edge.within (h : w.Edge p i j) (hF : p.Closed F) (hi : w.Within F i) : w.Within F j := by
  obtain ⟨m, n, hm, hn, hrefers⟩ := h
  obtain ⟨m', hm', hi⟩ := hi
  obtain rfl := Option.some.inj (hm.symm.trans hi)
  exact ⟨n, hF _ hm' n hrefers, hn⟩

/-- What waits on the way from a node of a closed set belongs to nodes of the set. -/
theorem DescendsTo.within (h : w.DescendsTo p root i frames) (hF : p.Closed F) (hroot : w.Within F root) :
    w.Within F i ∧ ∀ frame ∈ frames, w.Within F frame.slot := by
  induction h with
  | root => exact ⟨hroot, nofun⟩
  | touching edges _ ih =>
    exact ⟨(edges _ List.mem_cons_self).within hF ih.1, List.forall_mem_cons.2 ⟨ih.1, ih.2⟩⟩
  | calling _ edge _ ih => exact ⟨edge.within hF ih.1, List.forall_mem_cons.2 ⟨ih.1, ih.2⟩⟩

/-- All slots that an evaluation holds belong to nodes that its root leads to. -/
theorem Descends.within {e : Evaluation} (h : w.Descends p root e) (hF : p.Closed F)
    (hroot : w.Within F root) : ∀ i ∈ e.held, w.Within F i := by
  have hheld {c : Control} {frames : List Frame} (hc : ∀ i, c.slot? = some i → w.Within F i)
      (hframes : ∀ frame ∈ frames, w.Within F frame.slot) :
      ∀ i ∈ Evaluation.held ⟨c, frames⟩, w.Within F i := by
    intro i hi
    rcases List.mem_append.1 hi with hi | hi
    · exact hc i (Option.mem_toList.1 hi)
    · obtain ⟨frame, hframe, rfl⟩ := List.mem_map.1 hi
      exact hframes frame hframe
  cases h with
  | requested awaits | answered awaits => exact hheld nofun (awaits.within hF hroot).2
  | walking _ awaits | computing awaits | running _ awaits =>
    obtain ⟨hi, hframes⟩ := awaits.within hF hroot
    exact hheld (fun i heq => Option.some.inj heq ▸ hi) hframes

/-- Different slots belong to different nodes, so no more slots are held than there are nodes. -/
theorem InDirectory.length_le_card (h : w.InDirectory p) {held : List SlotId} (hnodup : held.Nodup)
    (hheld : ∀ i ∈ held, w.Within F i) : held.length ≤ F.card := by
  have hdistinct : (held.map w.node?).Nodup := by
    refine hnodup.map_on fun i hi j _ heq => ?_
    obtain ⟨n, -, hn⟩ := hheld i hi
    exact h.distinct hn (heq ▸ hn)
  have hsubset : (held.map w.node?).toFinset ⊆ F.image some := by
    intro o ho
    obtain ⟨i, hi, rfl⟩ := List.mem_map.1 (List.mem_toFinset.1 ho)
    obtain ⟨n, hnF, hn⟩ := hheld i hi
    exact hn ▸ Finset.mem_image_of_mem _ hnF
  calc held.length
      = (held.map w.node?).toFinset.card := by
        rw [List.toFinset_card_of_nodup hdistinct, List.length_map]
    _ ≤ (F.image some).card := Finset.card_le_card hsubset
    _ ≤ F.card := Finset.card_image_le

end World

end RedGreen
