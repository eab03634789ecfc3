import RedGreen.Proofs.Clearing
import RedGreen.Proofs.EntryLock
import RedGreen.Proofs.EveryRequestEnds

set_option autoImplicit false

/-! # A cycle is reported with the chain of calls

While only one request is under way and no client holds a guard, the active stack is the chain of
calls of that request: it lists the slots in progress from the outermost to the innermost
(`Evaluation.Moves.ordered`), and each of them waits for the next one, because its running body has
read it, or because the recorded dependencies of the slot, which are being brought up to date, contain
it (`World.Chain`).

So a request for a derived value meets a cycle exactly if its slot is one of those, and then the path
that is reported is this chain. A memo of a slot in progress cannot answer instead: its flight began
later than the memo was valid. -/

namespace RedGreen

open Evaluation

variable {p : Program} {t : Token} {w w' : World}

/-! ## The order of the active stack -/

theorem foldl_dropInnermost_reverse (ids rest : List SlotId) :
    ids.foldl dropInnermost (ids ++ rest).reverse = rest.reverse := by
  induction ids with
  | nil => rfl
  | cons i ids ih =>
    rw [List.foldl_cons, List.cons_append, List.reverse_cons, dropInnermost_concat]
    exact ih

namespace Evaluation

variable {e e' : Evaluation}

/-- A step puts slots on the active stack, and takes them off, at the inner end; what was there before
    the evaluation began stays below. -/
theorem Moves.ordered (h : Moves e w e' w') {below : List SlotId}
    (hactive : w.active = (e.held ++ below).reverse) : w'.active = (e'.held ++ below).reverse := by
  simp only [held_eq, Evaluation.flights] at hactive ⊢
  -- some slots leave from the inner end
  have hvacates (ids rest : List SlotId) (hbefore : w.active = (ids ++ rest).reverse)
      (hafter : w'.active = ids.foldl dropInnermost w.active) : w'.active = rest.reverse := by
    rw [hafter, hbefore, foldl_dropInnermost_reverse]
  cases h with
  | bounces rests => exact rests.active.trans hactive
  | enters flight outside active retains =>
    rw [active, hactive, flight]
    simp [Control.flight?]
  | goesOn flight flight' rests =>
    simp only [flight, flight'] at hactive ⊢
    exact rests.active.trans hactive
  | requests flight rests =>
    simp only [flight] at hactive
    exact rests.active.trans hactive
  | fails flight vacates =>
    simp only [flight] at hactive
    exact hvacates [_] _ hactive vacates.active
  | succeeds flight active retains =>
    simp only [flight] at hactive
    exact hvacates [_] _ hactive active
  | returns flight rests =>
    simp only [flight]
    exact rests.active.trans hactive
  | @propagates r error frame frames w w' vacates =>
    refine hvacates [frame.slot] _ ?_ vacates.active
    simpa [Control.flight?, Frame.slot_eq] using hactive
  | @givesUp f c c' inside outside frame w w' flight flight' vacates =>
    have hinside : inside.map Frame.slot = inside.map fun frame => frame.flight.slot :=
      List.map_congr_left fun frame _ => frame.slot_eq
    refine hvacates (f.slot :: inside.map Frame.slot) _ ?_ vacates.active
    simpa [flight, flight', hinside, Function.comp_def] using hactive

end Evaluation

/-! ## The chain of calls -/

namespace World

/-- Each of the frames waits for the slot inside it, and why: a revalidation, because the recorded
    dependencies of its slot contain that one, or a running body, because it has read it. -/
inductive Chain (w : World) : SlotId → List Frame → Prop
  | root (i : SlotId) : Chain w i []
  | touching {walk : Walk} {dep : SlotId} {frames : List Frame} {m : Memo}
    (memo : w.memo? walk.slot = some m) (deps : dep :: walk.rest ⊆ m.deps)
    (outer : Chain w walk.slot frames) : Chain w dep (.touching walk dep :: frames)
  | calling {a : Activation} {mode : CallMode} {callee : SlotId}
    {next : Except QueryError Value → Body} {frames : List Frame} (read : callee ∈ a.deps)
    (outer : Chain w a.slot frames) : Chain w callee (.calling ⟨a, mode, callee, next⟩ :: frames)

/-- The frames of an evaluation are a chain that leads to what is in progress. -/
inductive Chained (w : World) : Evaluation → Prop
  | requested {i : SlotId} {frames : List Frame} (chain : w.Chain i frames) :
    Chained w ⟨.fetch i, frames⟩
  | walking {walk : Walk} {frames : List Frame} {m : Memo} (memo : w.memo? walk.slot = some m)
    (deps : walk.rest ⊆ m.deps) (chain : w.Chain walk.slot frames) : Chained w ⟨.walk walk, frames⟩
  | computing {i : SlotId} {r : Revision} {frames : List Frame} (chain : w.Chain i frames) :
    Chained w ⟨.compute i r, frames⟩
  | running {a : Activation} {b : Body} {frames : List Frame} (chain : w.Chain a.slot frames) :
    Chained w ⟨.body a b, frames⟩
  | answered {i : SlotId} {r : Except QueryError Stamped} {frames : List Frame}
    (chain : w.Chain i frames) : Chained w ⟨.answer r, frames⟩

variable {i : SlotId} {frames : List Frame} {e : Evaluation}

/-- A chain depends on no memos but those of its own slots. -/
theorem Chain.of_memo (h : w.Chain i frames)
    (hmemo : ∀ j ∈ frames.map Frame.slot, w'.memo? j = w.memo? j) : w'.Chain i frames := by
  induction h with
  | root i => exact .root i
  | @touching walk dep frames m memo deps outer ih =>
    obtain ⟨hself, hothers⟩ := List.forall_mem_cons.1 hmemo
    exact .touching (hself.trans memo) deps (ih hothers)
  | calling read outer ih => exact .calling read (ih (List.forall_mem_cons.1 hmemo).2)

theorem Chained.of_memo (h : w.Chained e) (hmemo : ∀ j, w'.memo? j = w.memo? j) : w'.Chained e := by
  have hchain {i : SlotId} {frames : List Frame} (h : w.Chain i frames) : w'.Chain i frames :=
    h.of_memo fun j _ => hmemo j
  cases h with
  | requested chain => exact .requested (hchain chain)
  | walking memo deps chain => exact .walking ((hmemo _).trans memo) deps (hchain chain)
  | computing chain => exact .computing (hchain chain)
  | running chain => exact .running (hchain chain)
  | answered chain => exact .answered (hchain chain)

/-- Whatever is in progress, the frames wait for it. -/
theorem Chained.exists_chain (h : w.Chained e) : ∃ i, w.Chain i e.frames := by
  cases h with
  | requested chain | walking _ _ chain | computing chain | running chain | answered chain =>
    exact ⟨_, chain⟩

/-- A frame further out waits for the slot inside it as well. -/
theorem Chain.outer {inside outside : List Frame} {frame : Frame}
    (h : w.Chain i (inside ++ frame :: outside)) : w.Chain frame.slot outside := by
  generalize hframes : inside ++ frame :: outside = frames at h
  induction h generalizing inside with
  | root => simp at hframes
  | touching _ _ outer ih | calling _ outer ih =>
    cases inside with
    | nil =>
      cases hframes
      exact outer
    | cons _ inside =>
      rw [List.cons_append] at hframes
      exact ih (List.cons.inj hframes).2

end World

namespace Evaluation

variable {e e' : Evaluation}

/-- A step goes on with the chain: it prolongs it by a slot that is asked for, or gives up some of
    it. -/
theorem Turns.chained (h : Turns p e w e' w') (hchained : w.Chained e)
    (hmemo : ∀ i, w'.memo? i = w.memo? i) : w'.Chained e' := by
  replace hchained : w'.Chained e := hchained.of_memo hmemo
  cases h with
  | answers =>
    obtain ⟨i, hchain⟩ := hchained.exists_chain
    exact .answered hchain
  | revalidates memo =>
    cases hchained with
    | requested chain =>
      exact .walking ((hmemo _).trans memo) (List.Subset.refl _) chain
  | misses =>
    cases hchained with
    | requested chain => exact .computing chain
  | fetches =>
    cases hchained with
    | requested chain => exact .running chain
  | computes =>
    cases hchained with
    | computing chain => exact .running chain
  | outdates =>
    cases hchained with
    | walking _ _ chain => exact .computing chain
  | passes next =>
    cases hchained with
    | walking memo deps chain =>
      rw [next] at deps
      exact .walking memo (List.subset_of_cons_subset deps) chain
  | touches next =>
    cases hchained with
    | walking memo deps chain => exact .requested (.touching memo (next ▸ deps) chain)
  | performs _ slot =>
    cases hchained with
    | running chain => exact .running (slot ▸ chain)
  | misfits | yields =>
    cases hchained with
    | running chain => exact .running chain
  | calls =>
    cases hchained with
    | running chain => exact .requested (.calling (mem_recordOnce.2 (.inr rfl)) chain)
  | givesUp =>
    cases hchained with
    | running chain => exact .running chain.outer
  | propagates =>
    cases hchained with
    | answered chain =>
      cases chain with
      | touching _ _ outer => exact .answered outer
  | finds =>
    cases hchained with
    | answered chain =>
      cases chain with
      | touching _ _ outer => exact .computing outer
  | goesOn =>
    cases hchained with
    | answered chain =>
      cases chain with
      | touching memo deps outer => exact .walking memo (List.subset_of_cons_subset deps) outer
  | returns =>
    cases hchained with
    | answered chain =>
      cases chain with
      | calling _ outer => exact .running outer

/-- Only the memo of the slot that is answered becomes another one, and that slot is not in the chain
    any more. -/
theorem Next.chained (h : e.Next p t w e' w') (hchained : w.Chained e) (hnodup : e.held.Nodup) :
    w'.Chained e' := by
  have hturns := h.turns
  cases h.remembers with
  | keeps memo => exact hturns.chained hchained memo
  | @confirms walk m frames _ _ rest memo self others =>
    obtain ⟨i, hchain⟩ := hchained.exists_chain
    refine .answered (hchain.of_memo fun j hj => others j ?_)
    rintro rfl
    exact (List.nodup_cons.1 hnodup).1 hj
  | @renews a value d frames _ _ uncancelled memoize memo self others =>
    obtain ⟨i, hchain⟩ := hchained.exists_chain
    refine .answered (hchain.of_memo fun j hj => others j ?_)
    rintro rfl
    exact (List.nodup_cons.1 hnodup).1 hj

end Evaluation

/-! ## Requests that meet the chain -/

namespace World

variable {i : SlotId} {path : List String}

/-- The error of a request for a slot in progress tells the whole active stack, and nothing happens
    but that it is reported. -/
theorem fetch_of_active (hi : i ∈ w.active)
    (hstale : ∀ m, w.memo? i = some m → m.verifiedAt ≠ w.revision) :
    w.fetch p t i = (.answer (.error (.cycle ((w.active ++ [i]).map w.nameOf))),
      (w.log (.cycleDetected ((w.active ++ [i]).map w.nameOf))).event
        (.cycleDetected ((w.active ++ [i]).map w.nameOf))) := by
  unfold fetch
  split
  · unfold beginMemoized
    split
    · rename_i m hm
      rw [if_neg (hstale m hm), start, enter, if_pos hi]
    · rw [start, enter, if_pos hi]
  · rw [beginUncached, enter, if_pos hi]

/-- Only a request for a slot in progress is answered with a cycle. -/
theorem active_of_fetch (h : (w.fetch p t i).1 = .answer (.error (.cycle path))) :
    i ∈ w.active ∧ path = (w.active ++ [i]).map w.nameOf := by
  have henters {e : QueryError} {w' : World} (henter : w.enter i = (.error e, w'))
      (he : e = .cycle path) : i ∈ w.active ∧ path = (w.active ++ [i]).map w.nameOf := by
    unfold enter at henter
    split at henter
    · cases henter
      cases he
      exact ⟨‹_›, rfl⟩
    · cases henter
  have hstart {c : Control} (hc : ∀ r, c ≠ .answer r)
      (h : (w.start i c).1 = .answer (.error (.cycle path))) :
      i ∈ w.active ∧ path = (w.active ++ [i]).map w.nameOf := by
    unfold start at h
    split at h
    · cases h
      exact henters ‹_› rfl
    · exact absurd h (hc _)
  unfold fetch at h
  split at h
  · unfold beginMemoized at h
    split at h
    · split at h
      · cases h
      · exact hstart (by rintro _ ⟨⟩) h
    · exact hstart (by rintro _ ⟨⟩) h
  · unfold beginUncached at h
    split at h
    · cases h
      exact henters ‹_› rfl
    · split at h
      · rename_i hcheck
        cases h
        cases error_of_check hcheck
      · unfold startBody at h
        split at h <;> cases h

/-! ## Where cycles come from -/

/-- Nothing but a run that ends with a cycle makes one of it. -/
theorem eq_error_of_finish {a : Activation} {r : Except QueryError Value}
    (h : (w.finish t a r).1 = .answer (.error (.cycle path))) : r = .error (.cycle path) := by
  cases r with
  | error e =>
    cases h
    rfl
  | ok value =>
    unfold finish at h
    split at h
    · cases ‹Except.ok value = Except.error _›
    · split at h
      · rename_i hcheck
        obtain rfl := error_of_check hcheck
        split at h <;> cases h
      · unfold commit at h
        split at h
        · split at h
          · simp only at h
            split at h <;> cases h
          · cases h
        · cases h

theorem startBody_ne_answer (p : Program) (w : World) (i : SlotId) (revision : Revision)
    (r : Except QueryError Stamped) : (w.startBody p i revision).1 ≠ .answer r := by
  unfold startBody
  split <;> nofun

theorem compute_ne_cycle (p : Program) (w : World) (t : Token) (i : SlotId) (revision : Revision) :
    (w.compute p t i revision).1 ≠ .answer (.error (.cycle path)) := by
  unfold compute
  split
  · rename_i hcheck
    obtain rfl := error_of_check hcheck
    nofun
  · exact startBody_ne_answer p _ i revision _

theorem touched_ne_cycle (w : World) (t : Token) (walk : Walk) (dep : SlotId) (r : Revision) :
    (w.touched t walk dep r).1 ≠ .answer (.error (.cycle path)) := by
  unfold touched
  split
  · rename_i hcheck
    obtain rfl := error_of_check hcheck
    nofun
  · split <;> nofun

theorem verify_ne_cycle (w : World) (walk : Walk) :
    (w.verify walk).1 ≠ .answer (.error (.cycle path)) := by
  unfold verify
  split <;> nofun

end World

namespace Evaluation

variable {e e' : Evaluation} {path : List String}

/-- A cycle that an evaluation comes to is told by a request for a slot in progress, or it was answered
    before and is passed on, or it is what a body has ended with. -/
inductive Meets (w : World) (path : List String) : Control → Prop
  | reentry {i : SlotId} (active : i ∈ w.active) (told : path = (w.active ++ [i]).map w.nameOf) :
    Meets w path (.fetch i)
  | passed : Meets w path (.answer (.error (.cycle path)))
  | returned (a : Activation) : Meets w path (.body a (.done (.error (.cycle path))))

theorem Next.meets (h : e.Next p t w e' w') (hcycle : e'.control = .answer (.error (.cycle path))) :
    Meets w path e.control := by
  obtain ⟨control, frames⟩ := e
  cases control with
  | fetch i =>
    obtain ⟨rfl, -⟩ := eq_of_resume h
    obtain ⟨hactive, htold⟩ := World.active_of_fetch hcycle
    exact .reentry hactive htold
  | walk walk =>
    simp only [Next, step, stepWalk] at h
    split at h
    · obtain ⟨rfl, -⟩ := eq_of_resume h
      exact absurd hcycle (w.verify_ne_cycle walk)
    · split at h
      · rcases h with h | h <;> cases h
        cases hcycle
      · obtain ⟨rfl, -⟩ := eq_of_resume h
        exact absurd hcycle (w.touched_ne_cycle t _ _ _)
  | compute i r =>
    obtain ⟨rfl, -⟩ := eq_of_resume h
    exact absurd hcycle (w.compute_ne_cycle p t i r)
  | body a body =>
    cases body with
    | done result =>
      obtain ⟨rfl, -⟩ := eq_of_resume h
      rw [World.eq_error_of_finish hcycle]
      exact .returned a
    | perform op next =>
      rcases h with h | h <;> cases h
      cases hcycle
    | call mode label key next =>
      simp only [Next, step, stepBody, stepCall] at h
      split at h <;> rcases h with h | h <;> cases h <;> cases hcycle
    | yield next =>
      simp only [Next, step, stepBody, stepYield] at h
      split at h <;> rcases h with h | h <;> cases h <;> cases hcycle
  | answer result =>
    cases frames with
    | nil => rcases h with h | h <;> cases h
    | cons frame frames =>
      cases frame with
      | calling caller =>
        rcases h with h | h <;> cases h
        cases hcycle
      | touching walk dep =>
        cases result with
        | error error =>
          obtain ⟨rfl, -⟩ := eq_of_resume h
          cases hcycle
          exact .passed
        | ok stamped =>
          obtain ⟨rfl, -⟩ := eq_of_resume h
          exact absurd hcycle (w.touched_ne_cycle t _ _ _)

end Evaluation

/-! ## Requests that take turns -/

namespace Evaluation

variable {e e' : Evaluation}

/-- The active stack is the chain of calls of an evaluation, and nothing besides is in progress. -/
structure Nests (w : World) (e : Evaluation) : Prop where
  active : w.active = e.held.reverse
  nodup : e.held.Nodup
  chained : w.Chained e

theorem Nests.rests (h : e.Nests w) (hrests : w.Rests w') : e.Nests w' :=
  ⟨hrests.active.trans h.active, h.nodup, h.chained.of_memo hrests.memo⟩

theorem Nests.request (i : SlotId) (hactive : w.active = []) : (request i).Nests w :=
  ⟨hactive, .nil, .requested (.root i)⟩

/-- A step goes on with the chain of calls. -/
theorem Nests.next (h : e.Nests w) (hnext : e.Next p t w e' w') : e'.Nests w' := by
  have hstacked : w.Stacked (e.held ++ []) := by
    rw [List.append_nil]
    exact ⟨h.nodup, h.active ▸ List.reverse_perm _⟩
  have hstacked' := hnext.moves.stacked hstacked
  have hactive' : w'.active = (e'.held ++ []).reverse :=
    hnext.moves.ordered (by rw [List.append_nil]; exact h.active)
  rw [List.append_nil] at hstacked' hactive'
  exact ⟨hactive', hstacked'.nodup, hnext.chained h.chained h.nodup⟩

theorem Nests.reaches (h : e.Nests w) (hreaches : Reaches p t e w e' w') : e'.Nests w' :=
  hreaches.preserves (motive := fun e w => e.Nests w) (fun _ _ _ _ hnext h => h.next hnext) h

end Evaluation

theorem Access.mem_holds_of_ne_free {access : Access} (h : access ≠ .free) :
    access ∈ access.holds := by
  cases access with
  | free => exact absurd rfl h
  | blocking | waiting => exact List.mem_singleton_self _

/-- A task whose request takes turns, and whose evaluation is all that is in progress if it is under
    way. -/
structure Task.Nests (w : World) (task : Task) : Prop where
  takesTurns : task.request.TakesTurns
  underWay : ∀ e, task.suspended = some e → task.request.access ≠ .free ∧ e.Nests w

/-- A task takes turns with others: all that is in progress belongs to whoever has the entry lock. -/
structure Task.Alternates (w : World) (task : Task) (rest : List (String × Task)) : Prop where
  heldBy : w.HeldBy (task.holds ++ rest.flatMap fun entry => entry.2.holds)
  stacked : w.Stacked (task.held ++ rest.flatMap fun entry => entry.2.held)
  task : task.Nests w
  rest : ∀ entry ∈ rest, entry.2.Nests w

/-- What a poll has left of such a task is such a task. -/
def Poll.Nests (w : World) : Poll → Prop
  | .ready _ => True
  | .pending _ task => task.Nests w

namespace Task

variable {task : Task} {e : Evaluation} {rest : List (String × Task)}

theorem nests_of_unbegun (hturns : task.request.TakesTurns) (hunbegun : task.suspended = none) :
    task.Nests w := ⟨hturns, fun _ he => nomatch hunbegun.symm.trans he⟩

theorem Nests.rests (h : task.Nests w) (hrests : w.Rests w') : task.Nests w' :=
  ⟨h.takesTurns, fun e he => ⟨(h.underWay e he).1, (h.underWay e he).2.rests hrests⟩⟩

/-- Whoever is under way holds the entry lock. -/
theorem Nests.mem_holds (h : task.Nests w) (hbegun : task.suspended ≠ none) :
    task.request.access ∈ task.holds := by
  obtain ⟨e, he⟩ := Option.ne_none_iff_exists'.1 hbegun
  rw [Task.holds_of_suspended he]
  exact Access.mem_holds_of_ne_free (h.underWay e he).1

/-- If nobody holds the lock, none of the tasks is under way. -/
theorem unbegun_of_holds (hrest : ∀ entry ∈ rest, entry.2.Nests w)
    (hnobody : (rest.flatMap fun entry => entry.2.holds) = []) :
    ∀ entry ∈ rest, entry.2.suspended = none := by
  intro entry hentry
  by_contra hbegun
  have hholds := (hrest entry hentry).mem_holds hbegun
  rw [List.flatMap_eq_nil_iff.1 hnobody entry hentry] at hholds
  exact absurd hholds List.not_mem_nil

/-- If a task is under way, the others are not. -/
theorem Nests.others (h : task.Nests w)
    (hheld : w.HeldBy (task.holds ++ rest.flatMap fun entry => entry.2.holds))
    (hrest : ∀ entry ∈ rest, entry.2.Nests w) (hbegun : task.suspended ≠ none) :
    ∀ entry ∈ rest, entry.2.suspended = none :=
  unbegun_of_holds hrest (hheld.others_eq_nil (h.mem_holds hbegun))

/-- When a task is dropped, whatever else is in progress is still a chain of calls. -/
theorem Nests.drop (h : task.Nests w)
    (hheld : w.HeldBy (task.holds ++ rest.flatMap fun entry => entry.2.holds))
    (hrest : ∀ entry ∈ rest, entry.2.Nests w) : ∀ entry ∈ rest, entry.2.Nests (task.drop w) := by
  by_cases hbegun : task.suspended = none
  · simpa only [Task.drop, hbegun] using hrest
  · exact fun entry hentry => nests_of_unbegun (hrest entry hentry).takesTurns
      (h.others hheld hrest hbegun entry hentry)

/-- An evaluation begins with nothing in progress, or goes on with its own chain. -/
theorem Begins.nests (h : task.Begins p w e w') (hturns : task.Alternates w rest) :
    task.request.access ≠ .free ∧ e.Nests w' := by
  have hheld := h.heldBy hturns.heldBy
  rcases h with ⟨hsuspended, rfl⟩ | ⟨hunbegun, w₁, hentry, hbegin⟩
  · exact hturns.task.underWay e hsuspended
  · have haccess := Request.access_of_evaluating hturns.task.takesTurns hbegin
    -- whoever begins has the lock, so no other task is under way
    have hothers := unbegun_of_holds hturns.rest
      (hheld.others_eq_nil (Access.mem_holds_of_ne_free haccess))
    have hnothing : (rest.flatMap fun entry => entry.2.held) = [] :=
      List.flatMap_eq_nil_iff.2 fun entry hentry => by rw [Task.held, hothers entry hentry]; rfl
    have hstacked := hturns.stacked
    rw [Task.held, hunbegun, hnothing] at hstacked
    have hactive := (Access.alters_of_entry hentry).active.trans hstacked.perm.eq_nil
    have hopens := Request.opens_begin p task.request w₁
    rw [hbegin] at hopens
    cases hopens with
    | evaluates rests => exact ⟨haccess, .request _ (rests.active.trans hactive)⟩

/-- However a task that takes turns is polled, an evaluation that is under way is all that is in
    progress. -/
theorem Course.nests {out : Poll × World} (h : Course p task w out)
    (hturns : task.Alternates w rest) :
    out.1.Nests out.2 ∧ ∀ entry ∈ rest, entry.2.Nests out.2 := by
  constructor
  · cases h with
    | waits => exact ⟨hturns.task.takesTurns, hturns.task.underWay⟩
    | refused | answered | ends => trivial
    | parks begins reaches =>
      obtain ⟨haccess, hnests⟩ := begins.nests hturns
      exact ⟨hturns.task.takesTurns, fun e he =>
        ⟨haccess, Option.some.inj he ▸ hnests.reaches reaches⟩⟩
  · by_cases hidle : ∀ entry ∈ rest, entry.2.suspended = none
    · exact fun entry hentry =>
        nests_of_unbegun (hturns.rest entry hentry).takesTurns (hidle entry hentry)
    · -- another task has the lock, so the one that is polled does not begin
      have hunbegun : task.suspended = none := by
        by_contra hbegun
        exact hidle (hturns.task.others hturns.heldBy hturns.rest hbegun)
      have hlocked : w.entryLocked = true := hturns.heldBy.locked.2 fun hnobody =>
        hidle (unbegun_of_holds hturns.rest (List.append_eq_nil_iff.1 hnobody).2)
      have hrests := (h.rests_of_locked hturns.task.takesTurns hunbegun hlocked).1
      exact fun entry hentry => (hturns.rest entry hentry).rests hrests

end Task

/-! ## Sessions of such requests -/

/-- A step in which the client does not put a slot in progress itself. -/
def Step.Unguarded : Step → Prop
  | .enter .. => False
  | _ => True

namespace Session

variable {s : Session} {limits : Limits}

/-- Nothing is in progress but what belongs to the one request that has the entry lock, and this is a
    chain of calls. -/
structure Nests (p : Program) (s : Session) : Prop where
  timed : s.Timed p
  heldBy : s.world.HeldBy s.holders
  unguarded : s.guards.entries = []
  tasks : ∀ entry ∈ s.tasks.entries, entry.2.Nests s.world

theorem Nests.erase (h : s.Nests p) (name : String) :
    ∀ entry ∈ (s.tasks.erase name).entries, entry.2.Nests s.world :=
  fun entry hentry => h.tasks entry (List.mem_filter.1 hentry).1

/-- A new task takes turns with those that are kept. -/
theorem Nests.of_unbegun (h : s.Nests p) {task : Task} (hunbegun : task.suspended = none)
    (hturns : task.request.TakesTurns) : task.Alternates s.world s.tasks.entries where
  heldBy := by
    rw [Task.holds_of_unbegun hunbegun]
    exact h.heldBy
  stacked := by
    have hstacked := h.timed.accounted.stacked
    rw [inProgress, guarded, h.unguarded, List.map_nil, List.append_nil] at hstacked
    rwa [Task.held, hunbegun]
  task := Task.nests_of_unbegun hturns hunbegun
  rest := h.tasks

/-- A task that is kept takes turns with the others. -/
theorem Nests.of_get? (h : s.Nests p) {name : String} {task : Task}
    (hfound : s.tasks.get? name = some task) :
    task.Alternates s.world (s.tasks.erase name).entries where
  heldBy := h.heldBy.of_perm (perm_holders h.timed.accounted.tasks hfound)
  stacked := by
    have hstacked := (h.timed.accounted.of_get? hfound).stacked
    rwa [heldBeside, guarded, h.unguarded, List.map_nil, List.append_nil] at hstacked
  task := by
    obtain ⟨entry, hentry, rfl⟩ := mem_entries_of_get? hfound
    exact h.tasks entry hentry
  rest := h.erase name

theorem Nests.dropTask (h : s.Nests p) (name : String) :
    ∀ entry ∈ (s.tasks.erase name).entries, entry.2.Nests (s.dropTask name).world := by
  unfold Session.dropTask
  cases hfound : s.tasks.get? name with
  | none => exact h.erase name
  | some task =>
    have hturns := h.of_get? hfound
    exact hturns.task.drop hturns.heldBy hturns.rest

/-- A step that polls a task goes on with a chain of calls. -/
theorem Polls.nests {step : Step} {w : World} {tasks : Named Task} (h : s.Polls p step w tasks)
    (hs : s.Nests p) (hstep : step.TakesTurns) : ∀ entry ∈ tasks.entries, entry.2.Nests w := by
  cases h with
  | @performs request name out course =>
    obtain ⟨hpoll, htasks⟩ := course.nests (hs.of_unbegun rfl hstep)
    have hheld : Poll.HeldBy s.holders out := course.heldBy hs.heldBy
    obtain ⟨poll, w⟩ := out
    cases poll with
    | ready result => exact htasks
    | pending woken task => exact hpoll.drop hheld htasks
  | ends carries found course => exact (course.nests (hs.of_get? found)).2
  | waits carries found course =>
    obtain ⟨htask, htasks⟩ := course.nests (hs.of_get? found)
    exact List.forall_mem_cons.2 ⟨htask, htasks⟩

/-- So does every step of a client who puts no slot in progress and whose requests take turns. -/
theorem Nests.report (h : s.Nests p) (limits : Limits) {step : Step} (hstep : step.TakesTurns)
    (hunguarded : step.Unguarded) : (s.report p limits step).2.Nests p := by
  have heffects := effects_step (p := p) limits s step
  have hrests {w : World} (hrests : s.world.Rests w) :
      ∀ entry ∈ s.tasks.entries, entry.2.Nests w :=
    fun entry hentry => (h.tasks entry hentry).rests hrests
  obtain ⟨hguards, htasks⟩ : (s.step p limits step).2.guards.entries = [] ∧
      ∀ entry ∈ (s.step p limits step).2.tasks.entries,
        entry.2.Nests (s.step p limits step).2.world := by
    generalize (s.step p limits step).2.world = w at heffects ⊢
    generalize (s.step p limits step).2.tasks = tasks at heffects ⊢
    generalize (s.step p limits step).2.guards = guards at heffects ⊢
    cases heffects with
    | performs course => exact ⟨h.unguarded, (Polls.performs course).nests h hstep⟩
    | ends carries found course => exact ⟨h.unguarded, (Polls.ends carries found course).nests h hstep⟩
    | waits carries found course =>
      exact ⟨h.unguarded, (Polls.waits carries found course).nests h hstep⟩
    | @spawns name request tokenName token =>
      refine ⟨h.unguarded, List.forall_mem_cons.2 ⟨Task.nests_of_unbegun hstep rfl, ?_⟩⟩
      rw [Named.erase_of_get?_none (Named.get?_erase_self s.tasks name)]
      exact h.dropTask name
    | drops name => exact ⟨h.unguarded, h.dropTask name⟩
    | cancels name => exact ⟨h.unguarded, hrests (s.world.rests_cancel _)⟩
    | enters | refuses => exact hunguarded.elim
    | leaves name =>
      -- no guard is there to be dropped
      have hnone : s.guards.get? name = none := by rw [Named.get?, h.unguarded]; rfl
      rw [Named.erase_of_get?_none hnone, Session.dropGuard, hnone]
      exact ⟨h.unguarded, h.tasks⟩
    | clearsCache | clearsSlot => exact hstep.elim
    | makes query valueType key => exact ⟨h.unguarded, hrests (s.world.rests_inputSlot _ _ _)⟩
    | opens step query keyType valueType =>
      exact ⟨h.unguarded, hrests (s.world.rests_openCache _ _ _)⟩
    | looks => exact ⟨h.unguarded, h.tasks⟩
  -- handing out the journal changes nothing else
  have hreport : (s.step p limits step).2.world.Rests (s.report p limits step).2.world :=
    .of_eq rfl rfl rfl rfl rfl rfl
  exact ⟨(h.timed.report limits step).1, heldBy_report limits h.timed.accounted h.heldBy step, hguards,
    fun entry hentry => (htasks entry hentry).rests hreport⟩

theorem nests_fresh (p : Program) (memoize traced : Bool) : (Session.fresh memoize traced).Nests p where
  timed := timed_fresh p memoize traced
  heldBy := World.HeldBy.nil_iff.2 ⟨rfl, rfl⟩
  unguarded := rfl
  tasks _ hentry := absurd hentry List.not_mem_nil

theorem Nests.after (h : s.Nests p) (limits : Limits) {steps : List Step}
    (hsteps : ∀ step ∈ steps, step.TakesTurns ∧ step.Unguarded) : (s.after p limits steps).Nests p := by
  induction steps generalizing s with
  | nil => exact h
  | cons step steps ih =>
    obtain ⟨⟨hturns, hunguarded⟩, hsteps⟩ := List.forall_mem_cons.1 hsteps
    exact ih (h.report limits hturns hunguarded) hsteps

end Session

/-! ## What a request meets -/

/-- The texts of the slots in progress, from the outermost to the innermost, and of the one that is
    requested. -/
def World.pathTo (w : World) (i : SlotId) (frames : List Frame) : List String :=
  ((frames.map Frame.slot).reverse ++ [i]).map w.nameOf

namespace Evaluation

/-- A request for a derived value meets the chain of calls that has led to it. -/
structure Detects (p : Program) (t : Token) (w : World) (i : SlotId) (frames : List Frame) :
    Prop where
  /-- The active stack lists the slots that enclosing calls revalidate or compute, each once, from the
      outermost to the innermost. -/
  active : w.active = (frames.map Frame.slot).reverse
  nodup : (frames.map Frame.slot).Nodup
  /-- Each of them requests the next one. -/
  chain : w.Chain i frames
  /-- If the slot is one of them, the answer is the error that tells this, whatever the slot holds, and
      nothing happens but that the cycle is reported. -/
  reentry : i ∈ frames.map Frame.slot →
    step p t ⟨.fetch i, frames⟩ w = .running ⟨.answer (.error (.cycle (w.pathTo i frames))), frames⟩
      ((w.log (.cycleDetected (w.pathTo i frames))).event (.cycleDetected (w.pathTo i frames)))
  /-- And a body that has called it is told so. -/
  told : i ∈ frames.map Frame.slot → ∀ caller outside, frames = .calling caller :: outside →
    ∃ w', Reaches p t ⟨.fetch i, frames⟩ w
      ⟨.body caller.activation (caller.next (.error (.cycle (w.pathTo i frames)))), outside⟩ w' ∧
        w'.toSystem = w.toSystem
  /-- If it is none of them, the request does not end with a cycle at once. -/
  otherwise : i ∉ frames.map Frame.slot → ∀ e' w' path, Next p t ⟨.fetch i, frames⟩ w e' w' →
    e'.control ≠ .answer (.error (.cycle path))

/-- What a slot in flight holds was valid up to an earlier revision. -/
theorem stale_of_timely {e : Evaluation} {F : List Flight} (h : w.Timely (e.flights ++ F))
    {i : SlotId} (hi : i ∈ e.held) (m : Memo) (hm : w.memo? i = some m) : m.verifiedAt ≠ w.revision := by
  rw [held_eq] at hi
  obtain ⟨f, hf, rfl⟩ := List.mem_map.1 hi
  have haloft := h.aloft f (List.mem_append_left F hf)
  exact Nat.ne_of_lt (Nat.lt_of_lt_of_le (haloft.stale m hm) haloft.revision)

theorem Nests.detects {i : SlotId} {frames : List Frame} {F : List Flight}
    (h : Nests w ⟨.fetch i, frames⟩) (ht : w.Timely (flights ⟨.fetch i, frames⟩ ++ F)) :
    Detects p t w i frames := by
  have hactive : w.active = (frames.map Frame.slot).reverse := h.active
  have hreentry (hi : i ∈ frames.map Frame.slot) : step p t ⟨.fetch i, frames⟩ w =
      .running ⟨.answer (.error (.cycle (w.pathTo i frames))), frames⟩
        ((w.log (.cycleDetected (w.pathTo i frames))).event (.cycleDetected (w.pathTo i frames))) := by
    have hfetch := World.fetch_of_active (p := p) (t := t) (hactive ▸ List.mem_reverse.2 hi)
      (stale_of_timely ht hi)
    rw [hactive] at hfetch
    show resume frames (w.fetch p t i) = _
    rw [hfetch]
    rfl
  refine
    { active := hactive
      nodup := h.nodup
      chain := match h.chained with | .requested chain => chain
      reentry := hreentry
      told := fun hi caller outside hframes => ?_
      otherwise := fun hi e' w' path hnext hcycle => ?_ }
  · subst hframes
    exact ⟨_, (Reaches.of_step (hreentry hi)).trans (.of_step rfl), rfl⟩
  · cases hnext.meets hcycle with
    | reentry active told => exact hi (List.mem_reverse.1 (hactive ▸ active))

end Evaluation

/-- A cycle is reported exactly for the re-entry of a slot in progress, with the chain of calls. Take
    any program, with bodies that may recover from errors, with memoization or without, and any steps
    of a client whose requests take turns at the entry lock and who puts no slot in progress itself.
    Take a task, a new one or one that is kept, and any request for a derived value that its evaluation
    comes to. The active stack lists the slots of the enclosing calls, from the outermost to the
    innermost, each once; each of them waits for the next one, which its running body has read, or
    which is among the recorded dependencies that it brings up to date. If the requested slot is one of
    them, the answer is a cycle with the texts of these slots and of the requested one, whatever value
    the slot holds; if it is none of them, the request is not answered with a cycle. And wherever a
    cycle is answered, it was such a request, or it was answered or returned before. -/
theorem cycle_reported_for_reentry (p : Program) (limits : Session.Limits) (memoize traced : Bool)
    {steps : List Step} (hsteps : ∀ step ∈ steps, step.TakesTurns ∧ step.Unguarded) {task : Task}
    (htask : task.suspended = none ∧ task.request.TakesTurns ∨
      ∃ name, ((Session.fresh memoize traced).after p limits steps).tasks.get? name = some task)
    {e₀ e : Evaluation} {w₀ w : World}
    (hbegins : task.Begins p ((Session.fresh memoize traced).after p limits steps).world e₀ w₀)
    (hreaches : Reaches p task.token e₀ w₀ e w) :
    (∀ i frames, e = ⟨.fetch i, frames⟩ → Detects p task.token w i frames) ∧
      ∀ e' w' path, e.Next p task.token w e' w' → e'.control = .answer (.error (.cycle path)) →
        Meets w path e.control := by
  have hs := (Session.nests_fresh p memoize traced).after limits hsteps
  generalize (Session.fresh memoize traced).after p limits steps = s at hs htask hbegins
  obtain ⟨others, F, -, -, ht⟩ := hs.timed.reaches (htask.imp_left And.left) hbegins hreaches
  have hnests : e.Nests w := by
    obtain ⟨hunbegun, hturns⟩ | ⟨name, hfound⟩ := htask
    · exact (hbegins.nests (hs.of_unbegun hunbegun hturns)).2.reaches hreaches
    · exact (hbegins.nests (hs.of_get? hfound)).2.reaches hreaches
  refine ⟨?_, fun e' w' path hnext hcycle => hnext.meets hcycle⟩
  rintro i frames rfl
  exact hnests.detects ht

/-! ## A cycle of a recorded dependency and a call -/

theorem pingSteps_takeTurns : ∀ step ∈ pingSteps, step.TakesTurns ∧ step.Unguarded := by
  simp [pingSteps, Step.TakesTurns, Step.Unguarded, Request.TakesTurns, Request.access]

/-- The first query is run because the second one has it among its dependencies, and calls the second,
    which still holds its value. -/
theorem cycle_reported_for_reentry_ping :
    ∃ (task : Task) (e₀ : Evaluation) (w₀ : World) (frames : List Frame) (w w' : World),
      task.Begins ping ((Session.fresh true true).after ping ⟨20, 3⟩ pingSteps).world e₀ w₀ ∧
      Reaches ping task.token e₀ w₀ ⟨.fetch 1, frames⟩ w ∧ (w.memo? 1).isSome ∧ w.Chain 1 frames ∧
      step ping task.token ⟨.fetch 1, frames⟩ w =
        .running ⟨.answer (.error (.cycle ["pong(())", "ping(())", "pong(())"])), frames⟩ w' := by
  obtain ⟨e₀, w₀, frames, w, hbegins, hdrive, hslots, hmemo, hpath⟩ :
      ∃ e₀ w₀ frames w, Task.Begins ping { request := .query .waiting "pong" .unit, token := 5 }
          ((Session.fresh true true).after ping ⟨20, 3⟩ pingSteps).world e₀ w₀ ∧
        drive ping 5 7 e₀ w₀ = .running ⟨.fetch 1, frames⟩ w ∧ frames.map Frame.slot = [2, 1] ∧
        (w.memo? 1).isSome ∧ w.pathTo 1 frames = ["pong(())", "ping(())", "pong(())"] :=
    ⟨_, _, _, _, .inr ⟨rfl, _, rfl, rfl⟩, rfl, rfl, rfl, by decide +kernel⟩
  have hdetects := (cycle_reported_for_reentry ping ⟨20, 3⟩ true true pingSteps_takeTurns
    (.inl ⟨rfl, by simp [Request.TakesTurns, Request.access]⟩) hbegins ⟨7, hdrive⟩).1 1 frames rfl
  have hreentry := hdetects.reentry (hslots ▸ by decide)
  rw [hpath] at hreentry
  exact ⟨_, e₀, w₀, frames, w, _, hbegins, ⟨7, hdrive⟩, hmemo, hdetects.chain, hreentry⟩

end RedGreen
