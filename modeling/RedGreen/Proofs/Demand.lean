import RedGreen.Proofs.Alone
import RedGreen.Proofs.Memoization
import RedGreen.Proofs.Runs

set_option autoImplicit false

/-! # What is demanded

The evaluation of a body *demands* the nodes whose bodies it starts, also if it does not come to an
end. A system that keeps no values starts the bodies of all of them (`Demands.reaches_plainly`).

In a system that keeps values, an evaluation in progress waits for the slot that was asked for
because the bodies around it would call it now: what a running body has read matches, and so does
what a revalidation has found unchanged. So the slot that was asked for is demanded
(`Awaits.demanded`), however the frames around it are nested. -/

namespace RedGreen

open Evaluation

variable {p : Program} {use : Usages} {same : Indistinct} {inputs : Inputs} {t : Token}

/-- While the nodes of a stack are in progress, the evaluation of a body starts the body of a node.
    Nothing is demanded after a call that fails. -/
inductive Demands (p : Program) (inputs : Inputs) : List Node → Body → Node → Prop
  | read {stack : List Node} {query : QueryId} {valueType : ValueType} {key : Key}
    {next : Except QueryError Value → Body} {n : Node}
    (h : Demands p inputs stack (next (inputs.answer query key)) n) :
    Demands p inputs stack (.perform (.read query valueType key) next) n
  | check {stack : List Node} {next : Except QueryError Unit → Body} {n : Node}
    (h : Demands p inputs stack (next (.ok ())) n) :
    Demands p inputs stack (.perform .check next) n
  | allocate {stack : List Node} {next : Nat → Body} {n : Node}
    (h : Demands p inputs stack (next 0) n) : Demands p inputs stack (.perform .allocate next) n
  | call {stack : List Node} {mode : CallMode} {label : Label} {key : Key}
    {next : Except QueryError Value → Body} (inactive : p.node label key ∉ stack) :
    Demands p inputs stack (.call mode label key next) (p.node label key)
  | inside {stack : List Node} {mode : CallMode} {label : Label} {key : Key}
    {next : Except QueryError Value → Body} {n : Node} (inactive : p.node label key ∉ stack)
    (h : Demands p inputs (stack ++ [p.node label key]) ((p label).body key) n) :
    Demands p inputs stack (.call mode label key next) n
  | after {stack : List Node} {mode : CallMode} {label : Label} {key : Key}
    {next : Except QueryError Value → Body} {n : Node} {m : Nat} {reply : Except QueryError Value}
    (callee : Yields p inputs m ((p label).body key) reply)
    (h : Demands p inputs stack (next reply) n) :
    Demands p inputs stack (.call mode label key next) n

/-- The evaluation of a node starts the body of another one, or it is the same node. -/
def Demanded (p : Program) (inputs : Inputs) (label : Label) (key : Key) (n : Node) : Prop :=
  n = p.node label key ∨ Demands p inputs [p.node label key] ((p label).body key) n

/-- A body demands what it goes on to demand. -/
theorem Leads.demands {b b' : Body} (h : Leads p inputs False b b') {stack : List Node}
    {n : Node} (hn : Demands p inputs stack b' n) : Demands p inputs stack b n := by
  induction h with
  | refl b => exact hn
  | read _ ih => exact .read (ih hn)
  | check _ ih => exact .check (ih hn)
  | allocate _ ih => exact .allocate (ih hn)
  | yield allowed => exact allowed.elim
  | call callee _ ih => exact .after callee (ih hn)

/-- What is called after reads that match, and what it demands, is demanded by the body. -/
theorem Follows.demands_call {τ : ValueType} (hp : p.Pure use same False) {b b' : Body}
    {reads : List Read} (h : Follows b reads b') (hlawful : Lawful p use same False τ b b)
    (hmatch : ∀ read ∈ reads, read.Matches p use same inputs) {label label' : Label}
    {key key' : Key} (hcalls : Wants b' (.derived label' key'))
    (hnode : p.node label' key' = p.node label key) {stack : List Node}
    (inactive : p.node label key ∉ stack) {n : Node}
    (hn : n = p.node label key ∨
      Demands p inputs (stack ++ [p.node label key]) ((p label).body key) n) :
    Demands p inputs stack b n := by
  obtain ⟨c', hleads, hc'⟩ := h.replay hlawful hmatch
  refine hleads.demands ?_
  cases hcalls with
  | call =>
    cases hc' with
    | call =>
      rw [← hnode] at inactive hn
      rw [← hp.body_eq hnode] at hn
      rcases hn with rfl | hn
      · exact .call inactive
      · exact .inside inactive hn

/-! ## What frames wait for -/

namespace World

variable {w : World} {root : SlotId} {frames : List Frame} {label : Label} {key : Key}

/-- A frame waits for a slot that the body of its own slot calls after reads that match. -/
theorem Awaits.calls (hp : p.Pure use same False)
    (htr : ∀ label key, Transparent ((p label).body key)) {frame : Frame}
    (h : w.Awaits p use same root (frame :: frames))
    (hi : w.node? (asked root (frame :: frames)) = some (p.node label key)) :
    w.Awaits p use same root frames ∧ frame.slot = asked root frames ∧
      ∃ label' key' reads b l k, w.node? frame.slot = some (p.node label' key') ∧
        Follows ((p label').body key') reads b ∧
        (∀ read ∈ reads, read.Matches p use same w.inputs) ∧ Wants b (.derived l k) ∧
        p.node l k = p.node label key := by
  cases frame with
  | calling caller =>
    obtain ⟨hslot, ⟨-, label', key', reads, l, k, htracks, hcallee, -⟩, hawaits⟩ := h
    refine ⟨hawaits, hslot, label', key', reads, _, l, k, htracks.node, htracks.follows,
      fun read hmem => (htracks.noted read hmem).current, .call, ?_⟩
    exact Option.some.inj (hcallee.symm.trans hi)
  | touching walk dep =>
    obtain ⟨-, hslot, ⟨done, m, label', key', reads, hrechecked, -⟩, hawaits⟩ := h
    have hdeps := hrechecked.deps.symm.trans hrechecked.split
    obtain ⟨before, read, after, rfl, hread, hbefore⟩ := exists_read_of_dependencies hdeps
    have hfollows := hrechecked.follows
    have hseen := hrechecked.seen.resolve_left fun ⟨r, hmem, hfailed⟩ =>
      hfollows.not_failed (htr label' key') hmem hfailed
    obtain ⟨b, hprefix, hwants⟩ := hfollows.wants
    obtain ⟨l, k, hsource, hnode⟩ := (hrechecked.placed read (by simp)).derived hp (hread ▸ hi)
    refine ⟨hawaits, hslot, label', key', before, b, l, k, hrechecked.node, hprefix,
      fun r hr => ((hseen r (by simp [hr])).2 (hbefore r hr)).current rfl, hsource ▸ hwants, hnode⟩

/-- What the slot that was asked for demands, while the slots that wait are in progress, is demanded by
    the request. -/
theorem Awaits.demanded_of_asked (hp : p.Pure use same False)
    (htr : ∀ label key, Transparent ((p label).body key)) (ht : Tidy p use w.toSystem)
    (h : w.Awaits p use same root frames)
    (hnodup : (asked root frames :: frames.map Frame.slot).Nodup) {label₀ : Label} {key₀ : Key}
    (hroot : w.node? root = some (p.node label₀ key₀))
    (hi : w.node? (asked root frames) = some (p.node label key)) :
    ∃ stack : List Node, (∀ m ∈ stack, ∃ i ∈ frames.map Frame.slot, w.node? i = some m) ∧
      ∀ n, n = p.node label key ∨
          Demands p w.inputs (stack ++ [p.node label key]) ((p label).body key) n →
        Demanded p w.inputs label₀ key₀ n := by
  induction frames generalizing label key with
  | nil =>
    refine ⟨[], fun _ hnone => absurd hnone List.not_mem_nil, fun n hn => ?_⟩
    have hnode : p.node label key = p.node label₀ key₀ := Option.some.inj (hi.symm.trans hroot)
    rwa [hp.body_eq hnode, hnode] at hn
  | cons frame frames ih =>
    obtain ⟨hout, hrest⟩ := List.nodup_cons.1 hnodup
    obtain ⟨hawaits, hslot, l, k, reads, b, l', k', hframe, hfollows, hmatch, hwants, hnode⟩ :=
      h.calls hp htr hi
    obtain ⟨stack, hstack, hdemanded⟩ := ih hawaits (hslot ▸ hrest) (hslot ▸ hframe)
    have hstack' : ∀ m ∈ stack ++ [p.node l k],
        ∃ i ∈ (frame :: frames).map Frame.slot, w.node? i = some m := by
      intro m hm
      rcases List.mem_append.1 hm with hm | hm
      · obtain ⟨j, hj, hm⟩ := hstack m hm
        exact ⟨j, List.mem_cons_of_mem _ hj, hm⟩
      · exact ⟨frame.slot, List.mem_cons_self, List.mem_singleton.1 hm ▸ hframe⟩
    -- no two slots in progress belong to one node
    have hinactive : p.node label key ∉ stack ++ [p.node l k] := by
      intro hm
      obtain ⟨j, hmem, hj⟩ := hstack' _ hm
      exact hout (ht.distinct _ _ _ hi hj ▸ hmem)
    refine ⟨stack ++ [p.node l k], hstack', fun n hn => hdemanded n (.inr ?_)⟩
    exact hfollows.demands_call hp (hp.lawful l k (ht.keyType hframe)) hmatch hwants hnode
      hinactive hn

/-- The slot that was asked for is demanded by the request. -/
theorem Awaits.demanded (hp : p.Pure use same False)
    (htr : ∀ label key, Transparent ((p label).body key)) (ht : Tidy p use w.toSystem)
    (h : w.Awaits p use same root frames)
    (hnodup : (asked root frames :: frames.map Frame.slot).Nodup) {label₀ : Label} {key₀ : Key}
    (hroot : w.node? root = some (p.node label₀ key₀))
    (hi : w.node? (asked root frames) = some (p.node label key)) :
    Demanded p w.inputs label₀ key₀ (p.node label key) := by
  obtain ⟨stack, -, hdemanded⟩ := h.demanded_of_asked hp htr ht hnodup hroot hi
  exact hdemanded _ (.inl rfl)

end World

/-! ## What a system that keeps no values starts -/

/-- The body that a slot is bound to is that of its node. -/
theorem Tidy.bodyOf (hp : p.Pure use same False) {w : World} (ht : Tidy p use w.toSystem)
    {i : SlotId} {label : Label} {key : Key} (hi : w.node? i = some (p.node label key)) :
    ∃ label', w.bodyOf i = [(label', key)] ∧ p.node label' key = p.node label key := by
  obtain ⟨d, hslot, -⟩ := ht.bound hp.consistent hi
  refine ⟨d.recompute, by simp [World.bodyOf, hslot], ?_⟩
  have hid := ((ht.slots i _ hslot).bound d rfl).1
  simp only [Program.node, hid]

/-- The body of a node has been started. -/
def World.HasStarted (p : Program) (w : World) (n : Node) : Prop :=
  ∃ run ∈ w.runs, p.node run.1 run.2 = n

/-- The step of a request that goes on with a body has started the body of the node. -/
theorem hasStarted_of_step (hp : p.Pure use same False) {w w' : World}
    (ht : Tidy p use w.toSystem) {i : SlotId} {label : Label} {key : Key}
    (hi : w.node? i = some (p.node label key)) {r : Revision} {b : Body} {frames : List Frame}
    (hstep : Evaluation.step p t ⟨.fetch i, frames⟩ w = .running ⟨.body ⟨i, r, []⟩ b, frames⟩ w') :
    w'.HasStarted p (p.node label key) := by
  obtain ⟨label', hbody, hnode⟩ := ht.bodyOf hp hi
  refine ⟨(label', key), ?_, hnode⟩
  have hruns := Next.runs (p := p) (t := t) (.inl hstep)
  simp only [started, World.startedAt, hbody] at hruns
  simp [hruns]

/-- A system without a memory starts the bodies that are demanded. -/
theorem Demands.reaches_plainly (hp : p.Pure use same False) {stack : List Node} {c : Body}
    {n : Node} (h : Demands p inputs stack c n) (hshorter : Shorter p inputs stack c)
    {τ : ValueType} (a : Activation) {b : Body} (frames : List Frame) {w : World}
    (hlawful : Lawful p use same False τ b c) (hw : w.Plain p use t inputs)
    (hstack : w.InProgress stack) :
    ∃ e' w', Reaches p t ⟨.body a b, frames⟩ w e' w' ∧ w'.HasStarted p n := by
  induction h generalizing τ a b frames w with
  | read _ ih =>
    cases hlawful with
    | read typed hnext =>
      obtain ⟨i, w₁, reply, hread, habides, hw₁, hagree⟩ := step_read_plainly hw a typed _ frames
      obtain ⟨e', w', hreach, hrun⟩ :=
        ih hshorter.read (a.reading i) frames (hnext _ _ hagree) hw₁ (hstack.abides habides)
      exact ⟨e', w', .head hread hreach, hrun⟩
  | check _ ih =>
    cases hlawful with
    | check hnext =>
      obtain ⟨e', w', hreach, hrun⟩ := ih hshorter.check a frames (hnext _) hw hstack
      exact ⟨e', w', .head (step_check_plainly hw a _ frames) hreach, hrun⟩
  | allocate _ ih =>
    cases hlawful with
    | allocate hnext =>
      have hq := w.quiet_allocate
      obtain ⟨e', w', hreach, hrun⟩ := ih hshorter.allocate a frames (hnext w.allocate.1 0)
        (hw.quiet hq) (hstack.abides (hq.abides rfl))
      exact ⟨e', w', .head rfl hreach, hrun⟩
  | call inactive =>
    cases hlawful with
    | call typed _ _ =>
      cases hw.calls hp hstack a _ typed _ frames with
      | cycle inside => exact absurd inside inactive
      | starts _ found tidy asks starts =>
        exact ⟨_, _, .head asks (.of_step starts), hasStarted_of_step hp tidy found starts⟩
  | inside inactive _ ih =>
    cases hlawful with
    | call typed _ _ =>
      cases hw.calls hp hstack a _ typed _ frames with
      | cycle inside => exact absurd inside inactive
      | starts _ _ _ asks starts plain inProgress =>
        obtain ⟨e', w', hreach, hrun⟩ :=
          ih (hshorter.enter hp) _ _ (hp.lawful _ _ typed) plain inProgress
        exact ⟨e', w', .head asks (.head starts hreach), hrun⟩
  | @after _ mode _ _ _ _ _ _ callee _ ih =>
    have hreply := (hshorter.enter hp).evaluates hp callee
    cases hlawful with
    | call typed _ hnext =>
      cases hw.calls hp hstack a mode typed _ frames with
      | cycle inside => exact absurd inside (hshorter.not_mem callee)
      | @starts i r _ _ _ _ _ asks starts plain inProgress returns =>
        obtain ⟨result, w₂, hreach, hanswer⟩ :=
          hreply.reaches_plainly hp ⟨i, r, []⟩ _ (hp.lawful _ _ typed) plain inProgress False.elim
        obtain ⟨hback, habides, hw₂⟩ := returns result _ w₂ hanswer
        obtain ⟨e', w', hreach', hrun⟩ := ih (hshorter.next hp hreply) (a.reading i) frames
          (hnext _ _ (hanswer.reply hp)) hw₂ (hstack.abides habides)
        exact ⟨e', w', .head asks (.head starts (hreach.trans (.head hback hreach'))), hrun⟩

/-- A request without a memory, from a slot that is not in progress, starts the bodies that are
    demanded. -/
theorem Demanded.request_reaches_plainly (hp : p.Pure use same False) {w : World}
    (hw : w.Plain p use t inputs) (hidle : w.active = []) {i : SlotId} {label : Label} {key : Key}
    (hi : w.node? i = some (p.node label key)) {n : Node} (h : Demanded p inputs label key n) :
    ∃ e' w', Reaches p t (.request i) w e' w' ∧ w'.HasStarted p n := by
  obtain ⟨w₁, hfetch, hquiet, hactive⟩ := step_fetch_plainly hw hp hi (by simp [hidle]) []
  rcases h with rfl | h
  · exact ⟨_, w₁, .of_step hfetch, hasStarted_of_step hp hw.tidy hi hfetch⟩
  · have hstack := (World.InProgress.of_idle hidle).enter hi hquiet.grows.toExtends hactive
    have hshorter : Shorter p inputs [p.node label key] ((p label).body key) := by
      intro label' key' m r hmem hm
      rw [hp.body_eq (List.mem_singleton.1 hmem)] at hm
      exact ⟨m, r, Nat.le_refl m, hm⟩
    obtain ⟨e', w', hreach, hrun⟩ := h.reaches_plainly hp hshorter ⟨i, w.revision, []⟩ []
      (hp.lawful label key (hw.tidy.keyType hi)) (hw.quiet hquiet) hstack
    exact ⟨e', w', .head hfetch hreach, hrun⟩

end RedGreen
