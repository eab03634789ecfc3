import RedGreen.Proofs.DependencyEdges
import RedGreen.Proofs.Directory
import RedGreen.Proofs.Serial
import RedGreen.Proofs.Stamps

set_option autoImplicit false

/-! # Clears that keep what other values depend on

A client whose requests go through the entry lock finds, after whatever it has done, that what a memo
depends on is valid at least as long as the memo (`validity_follows_dependencies`). The lock is what
the argument rests on. Only one request is under way at a time, so no write and no clear comes between
two steps of its evaluation; what the evaluation knows is not out of date when it goes on, even if it
was parked in the meantime (`Course.linked`).

A clear drops what was last valid before some revision. What is kept was valid up to that revision at
least, so all that it comes from was too, and is kept with it (`Linked.resets`). -/

namespace RedGreen

open Evaluation Relation

variable {p : Program}

/-! ## Writes and clears -/

namespace World

variable {w w' : World} {i : SlotId}

/-- Where only the journal may differ, nothing else does. -/
theorem Agrees.rests (h : w.Agrees w') : w.Rests w' where
  revision := congrArg System.revision h.system
  memoize := congrArg System.memoize h.system
  entryLocked := congrArg System.entryLocked h.system
  asyncEntry := congrArg System.asyncEntry h.system
  memo i := congrArg (·.memo? i) h.system
  written i := congrArg (·.written? i) h.system
  active := congrArg System.active h.system

theorem linked_of_unkept (h : ∀ i, w.memo? i = none) : w.Linked where
  bound i _ hm := nomatch (h i).symm.trans hm
  lasts i _ hm := nomatch (h i).symm.trans hm

/-- The memos that a clear keeps. -/
theorem memo?_clear_eq_some {before : Revision} {m : Memo} :
    (w.clear before).2.memo? i = some m ↔ w.memo? i = some m ∧ before ≤ m.verifiedAt := by
  rw [memo?_clear, Option.filter_eq_some_iff, decide_eq_true_iff]

/-- A clear keeps slots of their kind. -/
theorem kind?_clear (w : World) (before : Revision) (i : SlotId) :
    (w.clear before).2.kind? i = w.kind? i := by
  have hblank : (w.clear before).2.slots.map Slot.blank = w.slots.map Slot.blank := by
    show (w.slots.map (·.clear before)).map Slot.blank = _
    simp [Function.comp_def]
  rw [kind?_eq, kind?_eq, hblank]

/-- What lasts up to the bound of a clear is kept. -/
theorem Lasts.clear {before r : Revision} (h : w.Lasts r i) (hle : before ≤ r) :
    (w.clear before).2.Lasts r i := by
  rcases h with hinput | ⟨m, hm, hr⟩
  · exact .inl ((w.kind?_clear before i).trans hinput)
  · exact .inr ⟨m, memo?_clear_eq_some.2 ⟨hm, Nat.le_trans hle hr⟩, hr⟩

/-- A clear keeps with a memo all that the memo depends on. -/
theorem Linked.clear (h : w.Linked) (before : Revision) : (w.clear before).2.Linked where
  bound i m hm := h.bound i m (memo?_clear_eq_some.1 hm).1
  lasts i m hm j hj :=
    (h.lasts i m (memo?_clear_eq_some.1 hm).1 j hj).clear (memo?_clear_eq_some.1 hm).2

/-- However a request begins, memos stay linked. -/
theorem Linked.changes {request : Request} (h : w.Linked) (hedits : w.Edits p w')
    (hchanges : request.Changes w w') : w'.Linked := by
  cases hchanges with
  | rests rests => exact h.calm (hedits.calm rests.revision rests.memo)
  | @writes access query key value i v w₁ rests kind =>
    refine h.of_memo (fun _ _ hk => hedits.kind? hk)
      (fun j => ((World.put_changes kind v).2.2 j).trans (rests.memo j)) ?_
    show w.revision ≤ w₁.revision.next
    rw [rests.revision]
    exact Nat.le_succ _
  | clears access before => exact h.clear before

end World

/-! ## Requests that take turns -/

/-- A request that goes through the entry lock, or one that computes nothing and drops nothing. -/
def Request.TakesTurns : Request → Prop
  | .read .. | .prepare .. => True
  | request => request.access ≠ .free

/-- A step that makes requests that take turns only, and that drops memos by these only. -/
def Step.TakesTurns : Step → Prop
  | .perform request _ | .spawn _ request _ => request.TakesTurns
  | .clearCache .. | .clearSlot .. => False
  | _ => True

theorem Step.TakesTurns.keeps {step : Step} (h : step.TakesTurns) : ¬step.ClearsDirectly := by
  cases step with
  | clearCache | clearSlot => exact h.elim
  | _ => exact not_false

/-- What alters nothing but the lock and the journal changes no value. -/
theorem World.Alters.calm {w w' : World} (h : w.Alters w') : w.Calm w' where
  revision := h.revision
  memo := h.still.memo
  kind i k hk := by rwa [System.kind?, h.slots]

/-- Trying the entry lock changes no value. -/
theorem Access.calm_of_entry {access : Access} {queued : Bool} {w w' : World} {a : Admission}
    (h : access.admission queued w = (a, w')) : w.Calm w' := (Access.alters_of_entry h).calm

/-- Nor does giving it back. -/
theorem Access.calm_release (access : Access) (w : World) : w.Calm (access.release w) :=
  (access.alters_release w).calm

/-- A request that takes turns has the entry lock while it is evaluated. -/
theorem Request.access_of_evaluating {request : Request} (hturns : request.TakesTurns) {w w' : World}
    {e : Evaluation} (hbegin : request.begin p w = (.evaluating e, w')) : request.access ≠ .free := by
  cases request with
  | read | prepare => cases hbegin
  | write | query | derive | touch | clear => exact hturns

/-- A request that takes turns and does not look at the entry lock leaves everything alone. -/
theorem Request.Changes.rests_of_free {request : Request} {w w' : World} (h : request.Changes w w')
    (hturns : request.TakesTurns) (hfree : request.access = .free) : w.Rests w' := by
  cases h with
  | rests rests => exact rests
  | writes | clears => exact absurd hfree hturns

/-- A task whose request takes turns, and whose evaluation knows what is valid. -/
structure Task.Tends (w : World) (task : Task) : Prop where
  takesTurns : task.request.TakesTurns
  underWay : ∀ e, task.suspended = some e → task.request.access ≠ .free ∧ w.Tends e

/-- What a poll has left of such a task is such a task. -/
def Poll.Tends (w : World) : Poll → Prop
  | .ready _ => True
  | .pending _ task => task.Tends w

namespace Task

variable {task : Task} {w w' : World} {others : List SlotId}

theorem tends_of_unbegun (hturns : task.request.TakesTurns) (hunbegun : task.suspended = none) :
    task.Tends w := ⟨hturns, fun _ he => nomatch hunbegun.symm.trans he⟩

theorem Tends.calm (h : task.Tends w) (hcalm : w.Calm w') : task.Tends w' :=
  ⟨h.takesTurns, fun e he => ⟨(h.underWay e he).1, (h.underWay e he).2.calm hcalm⟩⟩

/-- Whoever is under way has the entry lock. -/
theorem Tends.locks (h : task.Tends w) (hbegun : task.suspended ≠ none) : task.locks = 1 := by
  obtain ⟨e, he⟩ := Option.ne_none_iff_exists'.1 hbegun
  have haccess := (h.underWay e he).1
  rw [Task.locks, he]
  cases hrequest : task.request.access with
  | free => exact absurd hrequest haccess
  | blocking | waiting => rfl

/-- An evaluation that begins knows nothing yet, and need not. -/
theorem Begins.tends {e : Evaluation} (h : task.Begins p w e w') (hlinked : w.Linked)
    (htask : task.Tends w) : task.request.access ≠ .free ∧ w'.Linked ∧ w'.Tends e := by
  have hlinked' : w'.Linked := hlinked.calm (h.edits.calm h.still.revision h.still.memo)
  rcases h with ⟨hsuspended, rfl⟩ | ⟨-, w₁, -, hbegin⟩
  · exact ⟨(htask.underWay e hsuspended).1, hlinked', (htask.underWay e hsuspended).2⟩
  · have haccess := Request.access_of_evaluating htask.takesTurns hbegin
    have hopens := Request.opens_begin p task.request w₁
    rw [hbegin] at hopens
    cases hopens with
    | evaluates => exact ⟨haccess, hlinked', .requested .nobody⟩

/-- While another task has the entry lock, a task that takes turns does not begin. -/
theorem Course.rests_of_locked {out : Poll × World} (h : Course p task w out)
    (hturns : task.request.TakesTurns) (hunbegun : task.suspended = none)
    (hlocked : w.entryLocked = true) :
    w.Rests out.2 ∧ ((∃ woken queued, out.1 = .pending woken { task with queued }) ∨
      ∃ r, out.1 = .ready r) := by
  by_cases haccess : task.request.access = .free
  · have hbegins {e : Evaluation} {w₁ : World} (hbegins : task.Begins p w e w₁) : False := by
      rcases hbegins with ⟨hsuspended, -⟩ | ⟨-, w₁, -, hbegin⟩
      · cases hunbegun.symm.trans hsuspended
      · exact Request.access_of_evaluating hturns hbegin haccess
    cases h with
    | waits => exact ⟨.refl w, .inl ⟨_, _, rfl⟩⟩
    | refused _ entry =>
      rw [haccess] at entry
      cases entry
    | @answered w₁ w₂ result _ entry opens =>
      have hchanges := task.request.begin_changes p w₁
      rw [opens] at hchanges
      have hrests := hchanges.rests_of_free hturns haccess
      rw [haccess] at entry ⊢
      cases entry
      exact ⟨hrests, .inr ⟨_, rfl⟩⟩
    | parks begins | ends begins => exact (hbegins begins).elim
  · obtain ⟨hagrees, hpoll⟩ := h.of_locked haccess hunbegun hlocked
    exact ⟨hagrees.rests, hpoll.imp_right fun hbusy => ⟨_, hbusy⟩⟩

/-- So it learns nothing, and no value becomes another one. -/
theorem Course.idles {out : Poll × World} (h : Course p task w out)
    (hturns : task.request.TakesTurns) (hunbegun : task.suspended = none)
    (hlocked : w.entryLocked = true) : w.Calm out.2 ∧ out.1.Tends out.2 := by
  obtain ⟨hrests, hpoll⟩ := h.rests_of_locked hturns hunbegun hlocked
  refine ⟨h.edits.calm hrests.revision hrests.memo, ?_⟩
  rcases hpoll with ⟨woken, queued, hpending⟩ | ⟨r, hready⟩
  · exact hpending ▸ tends_of_unbegun hturns hunbegun
  · exact hready ▸ trivial

/-- A task that takes its turn knows what is valid, and keeps memos linked. -/
theorem Course.tends (hp : ∀ label key, Strict ((p label).body key)) {out : Poll × World}
    (h : Course p task w out) (hmemoize : w.memoize = true)
    (hstacked : w.Stacked (task.held ++ others)) (hlinked : w.Linked) (htask : task.Tends w) :
    out.2.Linked ∧ out.1.Tends out.2 := by
  have hreaches {e e' : Evaluation} {w₁ w₂ : World} (hbegins : task.Begins p w e w₁)
      (hreaches : Reaches p task.token e w₁ e' w₂) :
      task.request.access ≠ .free ∧ w₂.Linked ∧ w₂.Tends e' := by
    obtain ⟨haccess, hlinked₁, htends₁⟩ := hbegins.tends hlinked htask
    have hmemoize₁ : w₁.memoize = true := hbegins.still.memoize.trans hmemoize
    exact ⟨haccess, hreaches.tends hp hmemoize₁ (hbegins.stacked hstacked) hlinked₁ htends₁⟩
  cases h with
  | waits => exact ⟨hlinked, htask.takesTurns, htask.underWay⟩
  | refused _ entry => exact ⟨hlinked.calm (Access.calm_of_entry entry), trivial⟩
  | @answered w₁ w₂ result _ entry opens =>
    have hchanges := task.request.begin_changes p w₁
    have hbegin := task.request.edits_begin p w₁
    rw [opens] at hchanges hbegin
    have hlinked₂ := (hlinked.calm (Access.calm_of_entry entry)).changes hbegin hchanges
    exact ⟨hlinked₂.calm (Access.calm_release _ w₂), trivial⟩
  | parks begins reaches =>
    obtain ⟨haccess, hlinked', htends'⟩ := hreaches begins reaches
    exact ⟨hlinked', htask.takesTurns, fun e he => ⟨haccess, Option.some.inj he ▸ htends'⟩⟩
  | ends begins finishes =>
    obtain ⟨-, hlinked', -⟩ := hreaches begins finishes.reaches
    exact ⟨hlinked'.calm (Access.calm_release _ _), trivial⟩

/-- However a task that takes turns is polled, memos stay linked, and the tasks that are under way
    still know what is valid. -/
theorem Course.linked (hp : ∀ label key, Strict ((p label).body key)) {out : Poll × World}
    {rest : List (String × Task)} (h : Course p task w out) (hmemoize : w.memoize = true)
    (hstacked : w.Stacked (task.held ++ others))
    (hlocks : w.locks = (rest.map fun entry => entry.2.locks).sum + task.locks)
    (hlinked : w.Linked) (htask : task.Tends w) (hrest : ∀ entry ∈ rest, entry.2.Tends w) :
    out.2.Linked ∧ out.1.Tends out.2 ∧ ∀ entry ∈ rest, entry.2.Tends out.2 := by
  by_cases hbusy : ∃ entry ∈ rest, entry.2.suspended ≠ none
  · obtain ⟨entry, hentry, hbegun⟩ := hbusy
    -- the lock is taken by that task, so the one that is polled does not have it
    have hone := (hrest entry hentry).locks hbegun
    have hle := w.locks_le_one
    obtain ⟨before, after, hsplit⟩ := List.append_of_mem hentry
    rw [hsplit, List.map_append, List.map_cons, List.sum_append, List.sum_cons] at hlocks
    have hunbegun : task.suspended = none := by
      by_contra hbegun'
      have := htask.locks hbegun'
      omega
    have hlocked : w.entryLocked = true := by
      by_contra hunlocked
      simp only [World.locks, if_neg hunlocked] at hlocks
      omega
    obtain ⟨hcalm, hpoll⟩ := h.idles htask.takesTurns hunbegun hlocked
    exact ⟨hlinked.calm hcalm, hpoll, fun entry hentry => (hrest entry hentry).calm hcalm⟩
  · obtain ⟨hlinked', hpoll⟩ := h.tends hp hmemoize hstacked hlinked htask
    refine ⟨hlinked', hpoll, fun entry hentry => ?_⟩
    have hunbegun : entry.2.suspended = none := by
      by_contra hbegun
      exact hbusy ⟨entry, hentry, hbegun⟩
    exact tends_of_unbegun (hrest entry hentry).takesTurns hunbegun

end Task

/-! ## Sessions of such requests -/

namespace Session

variable {s : Session} {limits : Limits}

/-- Memos are linked, and the tasks that are under way know what is valid. -/
structure Linked (p : Program) (s : Session) : Prop where
  accounted : s.Accounted p
  memoize : s.world.memoize = true
  linked : s.world.Linked
  tends : ∀ entry ∈ s.tasks.entries, entry.2.Tends s.world

/-- A poll of a task that takes turns keeps memos linked, whatever else is under way. -/
theorem Polls.linked (hp : ∀ label key, Strict ((p label).body key)) {step : Step} {w : World}
    {tasks : Named Task} (h : s.Polls p step w tasks) (hstep : step.TakesTurns) (hs : s.Linked p) :
    w.Linked ∧ ∀ entry ∈ tasks.entries, entry.2.Tends w := by
  -- a task that is kept, and what is under way besides
  have hkept {name : String} {task : Task} (hfound : s.tasks.get? name = some task)
      {out : Poll × World} (hcourse : task.Course p s.world out) :
      out.2.Linked ∧ out.1.Tends out.2 ∧ ∀ entry ∈ (s.tasks.erase name).entries,
        entry.2.Tends out.2 := by
    obtain ⟨entry, hentry, rfl⟩ := mem_entries_of_get? hfound
    have haccounted := hs.accounted.of_get? hfound
    exact hcourse.linked hp hs.memoize haccounted.stacked haccounted.locks hs.linked
      (hs.tends entry hentry) fun other hother => hs.tends other (List.mem_filter.1 hother).1
  cases h with
  | @performs request name out course =>
    have hstacked : s.world.Stacked
        (Task.held { request, token := (s.tokenFor name).1 } ++ s.inProgress) :=
      hs.accounted.stacked
    obtain ⟨hlinked, -, htends⟩ := course.linked hp hs.memoize hstacked hs.accounted.locks hs.linked
      (Task.tends_of_unbegun hstep rfl) hs.tends
    obtain ⟨poll, w⟩ := out
    cases poll with
    | ready result => exact ⟨hlinked, htends⟩
    | pending woken task =>
      -- what still waits is dropped
      have hstill := task.still_drop w
      have hcalm := (task.edits_drop (p := p) w).calm hstill.revision hstill.memo
      exact ⟨hlinked.calm hcalm, fun entry hentry => (htends entry hentry).calm hcalm⟩
  | ends carries found course =>
    obtain ⟨hlinked, -, htends⟩ := hkept found course
    exact ⟨hlinked, htends⟩
  | waits carries found course =>
    obtain ⟨hlinked, htask, htends⟩ := hkept found course
    exact ⟨hlinked, List.forall_mem_cons.2 ⟨htask, htends⟩⟩

/-- A step of requests that take turns keeps memos linked. -/
theorem Linked.report (hp : ∀ label key, Strict ((p label).body key)) (hs : s.Linked p)
    (limits : Limits) {step : Step} (hstep : step.TakesTurns) :
    (s.report p limits step).2.Linked p := by
  have hedits := edits_step p limits s step
  obtain ⟨hlinked, htends⟩ : (s.step p limits step).2.world.Linked ∧
      ∀ entry ∈ (s.step p limits step).2.tasks.entries,
        entry.2.Tends (s.step p limits step).2.world := by
    rcases (effects_step (p := p) limits s step).aside with hpolls | ⟨-, hstill | hclears, htasks⟩
    · exact hpolls.linked hp hstep hs
    · have hcalm := hedits.calm hstill.revision hstill.memo
      refine ⟨hs.linked.calm hcalm, fun entry hentry => ?_⟩
      rcases htasks entry hentry with hbefore | ⟨hunbegun, name, token, hspawn⟩
      · exact (hs.tends entry hbefore).calm hcalm
      · rw [hspawn] at hstep
        exact Task.tends_of_unbegun hstep hunbegun
    · exact absurd hclears hstep.keeps
  -- handing out the journal changes no value
  have hcalm : (s.step p limits step).2.world.Calm (s.report p limits step).2.world :=
    ⟨rfl, fun _ => rfl, fun _ _ hk => hk⟩
  exact ⟨hs.accounted.report limits step, hedits.memoize.trans hs.memoize, hlinked.calm hcalm,
    fun entry hentry => (htends entry hentry).calm hcalm⟩

theorem linked_fresh (p : Program) (traced : Bool) : (Session.fresh true traced).Linked p where
  accounted := accounted_fresh p true traced
  memoize := rfl
  linked := World.linked_of_unkept fun _ => rfl
  tends _ hentry := absurd hentry List.not_mem_nil

theorem Linked.after (hp : ∀ label key, Strict ((p label).body key)) (hs : s.Linked p)
    (limits : Limits) {steps : List Step} (hsteps : ∀ step ∈ steps, step.TakesTurns) :
    (s.after p limits steps).Linked p := by
  induction steps generalizing s with
  | nil => exact hs
  | cons step steps ih =>
    obtain ⟨hstep, hsteps⟩ := List.forall_mem_cons.1 hsteps
    exact ih (hs.report hp limits hstep) hsteps

end Session

/-! ## What a clear drops -/

/-- A slot is stale if its memo was last valid before the bound of the clear. -/
theorem Slot.isStale_iff {slot : Slot} {before : Revision} :
    slot.isStale before = true ↔ ∃ m, slot.memo? = some m ∧ m.verifiedAt < before := by
  obtain ⟨query, key, content⟩ := slot
  cases content with
  | input written => simp [isStale, memo?]
  | derived d => exact Derived.isStale_iff

/-- Things that are counted in a list are counted by their positions. -/
theorem countP_eq_countP_range {α : Type} (l : List α) (holds : α → Bool) :
    l.countP holds = (List.range l.length).countP fun i => (l[i]?.map holds).getD false := by
  induction l with
  | nil => rfl
  | cons a l ih =>
    rw [List.length_cons, List.range_succ_eq_map, List.countP_cons, List.countP_cons,
      List.countP_map, ih]
    simp [Function.comp_def]

namespace World

variable {w w' : World}

/-- What a clear leaves, of everything last valid before a revision, and what it counts. -/
structure Resets (w : World) (before : Revision) (n : Nat) (w' : World) : Prop where
  /-- A slot loses a memo that was last valid before, and nothing else. -/
  stale : ∀ i m, w.memo? i = some m → m.verifiedAt < before →
    w'.slots[i]? = w.slots[i]?.map (·.setMemo none)
  /-- All other slots, and so all inputs, are as they were. -/
  others : ∀ i, (∀ m, w.memo? i = some m → before ≤ m.verifiedAt) → w'.slots[i]? = w.slots[i]?
  /-- So many slots have lost their memo. -/
  count : n = (List.range w.slots.length).countP fun i => (w.memo? i).isSome && (w'.memo? i).isNone
  /-- With a memo that is kept, all that it comes from is kept: inputs and memos. -/
  closed : ∀ i j, (w'.memo? i).isSome → ReflTransGen w.Records i j → w'.slots[j]? = w.slots[j]? ∧
    (w.kind? j = some .input ∨ (w'.memo? j).isSome)

theorem Linked.resets (h : w.Linked) {before : Revision}
    (hslots : w'.slots = w.slots.map (·.clear before)) :
    w.Resets before (w.slots.countP (·.isStale before)) w' := by
  have hslot (i : SlotId) : w'.slots[i]? = w.slots[i]?.map (·.clear before) := by
    rw [hslots, List.getElem?_map]
  have hmemo (i : SlotId) : w'.memo? i = (w.clear before).2.memo? i := by
    rw [System.memo?, hslots]
    rfl
  have hothers (i : SlotId) (hkept : ∀ m, w.memo? i = some m → before ≤ m.verifiedAt) :
      w'.slots[i]? = w.slots[i]? := by
    rw [hslot]
    cases hfound : w.slots[i]? with
    | none => rfl
    | some slot =>
      rw [Option.map_some, Slot.clear, if_neg]
      rw [Slot.isStale_iff]
      rintro ⟨m, hm, hlt⟩
      refine absurd (hkept m ?_) (Nat.not_le.2 hlt)
      rw [System.memo?, hfound]
      exact hm
  refine ⟨fun i m hm hlt => ?_, hothers, ?_, fun i j hi hpath => ?_⟩
  · rw [hslot]
    cases hfound : w.slots[i]? with
    | none => rfl
    | some slot =>
      rw [System.memo?, hfound] at hm
      rw [Option.map_some, Option.map_some, Slot.clear, if_pos (Slot.isStale_iff.2 ⟨m, hm, hlt⟩)]
  · rw [countP_eq_countP_range]
    congr 1
    funext i
    rw [hmemo, memo?_clear, System.memo?]
    cases w.slots[i]? with
    | none => rfl
    | some slot =>
      show slot.isStale before = _
      rw [Bool.eq_iff_iff, Slot.isStale_iff]
      cases hm : slot.memo? <;> simp [hm]
  · obtain ⟨m, hm⟩ := Option.isSome_iff_exists.1 hi
    obtain ⟨hbefore, hkept⟩ := memo?_clear_eq_some.1 ((hmemo i).symm.trans hm)
    have hlasts : w.Lasts before j := Lasts.path h.lasts (.inr ⟨m, hbefore, hkept⟩) hpath
    refine ⟨hothers j fun n hn => hlasts.le hn, ?_⟩
    rcases hlasts with hinput | ⟨n, hn, hle⟩
    · exact .inl hinput
    · exact .inr (Option.isSome_iff_exists.2
        ⟨n, (hmemo j).trans (memo?_clear_eq_some.2 ⟨hn, hle⟩)⟩)

end World

/-- However a request to clear is polled, if it is answered, it has cleared and tells how much. -/
theorem Task.Course.clears {task : Task} {w : World} {out : Poll × World} (h : task.Course p w out)
    {access : Access} {before : Revision} (hrequest : task.request = .clear access before)
    (hunbegun : task.suspended = none) {r : Reply} (hanswer : out.1 = .ready (.ok r)) :
    r = .count (w.slots.countP (·.isStale before)) ∧ out.2.slots = w.slots.map (·.clear before) := by
  cases h with
  | waits | refused | parks => cases hanswer
  | @answered w₁ w₂ result _ entry opens =>
    obtain rfl := Poll.ready.inj hanswer
    have hslots : w₁.slots = w.slots := (Access.alters_of_entry entry).slots
    rw [hrequest] at opens
    obtain ⟨hreply, rfl⟩ := Prod.mk.inj opens
    cases hreply
    rw [← hslots]
    exact ⟨rfl, (task.request.access.alters_release _).slots⟩
  | ends begins =>
    -- a clear needs no evaluation
    rcases begins with ⟨hsuspended, -⟩ | ⟨-, w₁, -, hbegin⟩
    · cases hunbegun.symm.trans hsuspended
    · rw [hrequest] at hbegin
      cases hbegin

namespace Session

variable {s : Session} {limits : Limits}

/-- After requests that took turns, memos are linked. -/
theorem linked_after (hp : ∀ label key, Strict ((p label).body key)) (limits : Limits)
    (memoize traced : Bool) {steps : List Step} (hsteps : ∀ step ∈ steps, step.TakesTurns) :
    ((Session.fresh memoize traced).after p limits steps).world.Linked := by
  cases memoize with
  | true => exact ((linked_fresh p traced).after hp limits hsteps).linked
  | false =>
    have htimed := (timed_fresh p false traced).after limits steps
    exact World.linked_of_unkept (htimed.timely.unkept (memoize_after p limits _ steps))

/-- A request to clear that finds the entry lock free is answered. -/
theorem report_clear (p : Program) (hunlocked : s.world.entryLocked = false)
    (hpolls : 0 < limits.polls) (access : Access) (before : Revision) (token : Option String) :
    (s.report p limits (.perform (.clear access before) token)).1.answer =
        .reply (.count (s.world.slots.countP (·.isStale before))) ∧
      (s.report p limits (.perform (.clear access before) token)).2.world.slots =
        s.world.slots.map (·.clear before) := by
  obtain ⟨polls, hpolls⟩ := Nat.exists_eq_add_of_le' hpolls
  obtain ⟨w₁, hentry, -⟩ := access.admission_of_unlocked false hunlocked
  have hrun (t : Token) : Task.run p limits.steps (polls + 1)
      { request := .clear access before, token := t } s.world =
      (.ready (.ok (.count (w₁.clear before).1)), access.release (w₁.clear before).2) :=
    Task.run_of_answered rfl hentry rfl
  have hworld := s.world_tokenFor token
  simp only [Session.report, Session.step]
  generalize s.tokenFor token = made at hworld
  obtain ⟨t, s₁⟩ := made
  simp only at hworld ⊢
  have hcourse := Task.course_run (p := p) limits.steps limits.polls
    { request := .clear access before, token := t } s.world
  rw [hworld, hpolls, hrun t]
  rw [hpolls, hrun t] at hcourse
  obtain ⟨hreply, hslots⟩ := hcourse.clears rfl rfl rfl
  rw [hreply]
  exact ⟨rfl, hslots⟩

end Session

/-- What a value depends on is valid at least as long as the value. Take any program whose bodies come
    to an error once a call has failed, and any steps of a client whose requests take turns at the
    entry lock: they may succeed or fail, be cancelled, or be dropped while they are parked. In the
    state that they lead to, a derived slot that a memo has been read from holds a memo itself, which
    is valid up to no earlier revision. So a clear of everything last valid before a revision never
    keeps a memo without all that it comes from. It takes exactly the memos last valid before, leaves
    all other slots and all inputs as they were, and tells how many memos it took; and a request to
    clear is answered, if the lock is free. -/
theorem validity_follows_dependencies (p : Program)
    (hp : ∀ label key, Strict ((p label).body key)) (limits : Session.Limits)
    (memoize traced : Bool) {steps : List Step} (hsteps : ∀ step ∈ steps, step.TakesTurns) :
    (∀ i m, ((Session.fresh memoize traced).after p limits steps).world.memo? i = some m →
      ∀ j ∈ m.deps,
        ((Session.fresh memoize traced).after p limits steps).world.kind? j = some .derived →
        ∃ n, ((Session.fresh memoize traced).after p limits steps).world.memo? j = some n ∧
          m.verifiedAt ≤ n.verifiedAt) ∧
    (∀ (task : Task) access before out r, task.request = .clear access before →
      task.suspended = none →
      task.Course p ((Session.fresh memoize traced).after p limits steps).world out →
      out.1 = .ready (.ok r) → ∃ n, r = .count n ∧
        ((Session.fresh memoize traced).after p limits steps).world.Resets before n out.2) ∧
    ∀ access before token,
      ((Session.fresh memoize traced).after p limits steps).world.entryLocked = false →
      0 < limits.polls → ∃ n,
        (((Session.fresh memoize traced).after p limits steps).report p limits
          (.perform (.clear access before) token)).1.answer = .reply (.count n) ∧
        ((Session.fresh memoize traced).after p limits steps).world.Resets before n
          (((Session.fresh memoize traced).after p limits steps).report p limits
            (.perform (.clear access before) token)).2.world := by
  have hlinked := Session.linked_after hp limits memoize traced hsteps
  generalize (Session.fresh memoize traced).after p limits steps = s at hlinked
  refine ⟨fun i m hm j hj hderived => ?_, ?_, ?_⟩
  · rcases hlinked.lasts i m hm j hj with hinput | hlasts
    · cases hinput.symm.trans hderived
    · exact hlasts
  · intro task access before out r hrequest hunbegun hcourse hanswer
    obtain ⟨hreply, hslots⟩ := hcourse.clears hrequest hunbegun hanswer
    exact ⟨_, hreply, hlinked.resets hslots⟩
  · intro access before token hunlocked hpolls
    obtain ⟨hanswer, hslots⟩ := Session.report_clear p hunlocked hpolls access before token
    exact ⟨_, hanswer, hlinked.resets hslots⟩

/-! ## A value that is older than what it depends on -/

/-- After a write, a query is dropped while it is parked; by then it has computed what it calls, but
    not its own value. -/
def partialSteps : List Step :=
  [.perform (.write .blocking ⟨"x"⟩ .unit (.int 5)) none,
    .perform (.query .waiting "thrice" .unit) none,
    .perform (.write .waiting ⟨"x"⟩ .unit (.int 7)) none,
    .spawn "request" (.query .waiting "thrice" .unit) none,
    .poll "request" 1,
    .drop "request"]

theorem partialSteps_takeTurns : ∀ step ∈ partialSteps, step.TakesTurns := by
  simp [partialSteps, Step.TakesTurns, Request.TakesTurns, Request.access]

theorem validity_follows_dependencies_thrice :
    ∃ m n, ((Session.fresh true true).after thrice ⟨40, 3⟩ partialSteps).world.memo? 1 = some m ∧
      2 ∈ m.deps ∧
      ((Session.fresh true true).after thrice ⟨40, 3⟩ partialSteps).world.memo? 2 = some n ∧
      m.verifiedAt = 2 ∧ n.verifiedAt = 3 ∧ m.verifiedAt ≤ n.verifiedAt ∧
      (((Session.fresh true true).after thrice ⟨40, 3⟩ partialSteps).report thrice ⟨40, 3⟩
        (.perform (.clear .blocking 3) none)).1.answer = .reply (.count 1) ∧
      ((Session.fresh true true).after thrice ⟨40, 3⟩ partialSteps).world.Resets 3 1
        (((Session.fresh true true).after thrice ⟨40, 3⟩ partialSteps).report thrice ⟨40, 3⟩
          (.perform (.clear .blocking 3) none)).2.world := by
  obtain ⟨hlinked, -, hcleared⟩ := validity_follows_dependencies thrice
    (fun label key => (thrice_transparent label key).strict) ⟨40, 3⟩ true true partialSteps_takeTurns
  have hmemo : ∃ m, ((Session.fresh true true).after thrice ⟨40, 3⟩ partialSteps).world.memo? 1 =
      some m ∧ 2 ∈ m.deps ∧ m.verifiedAt = 2 := ⟨_, rfl, by decide, rfl⟩
  obtain ⟨m, hm, hmem, hverified⟩ := hmemo
  obtain ⟨n, hn, hle⟩ := hlinked 1 m hm 2 hmem rfl
  have hverified' : n.verifiedAt = 3 := by
    cases hn
    rfl
  obtain ⟨k, hanswer, hresets⟩ := hcleared .blocking 3 none rfl (by decide)
  obtain rfl : k = 1 := by
    cases hanswer
    rfl
  exact ⟨m, n, hm, hmem, hn, hverified, hverified', hle, hanswer, hresets⟩

end RedGreen
