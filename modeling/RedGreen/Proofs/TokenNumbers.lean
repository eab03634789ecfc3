import RedGreen.Proofs.Veils

set_option autoImplicit false

/-! # Tokens are numbered in order

A session numbers its tokens in the order in which they are made. A poll can cancel the token of its
task and no other one (`Task.Course.cancels`), so a token that is cancelled, kept under a name or carried
by a task has been made: its number is below the count of tokens (`Session.Numbered`), after any steps of
a client. -/

namespace RedGreen

open Evaluation

variable {p : Program} {t : Token}

namespace World

variable {w w' w'' : World}

/-! ## What a token can be cancelled by -/

/-- No other token than the given one is cancelled anew. -/
def Cancels (t : Token) (w w' : World) : Prop := w'.cancelled ⊆ t :: w.cancelled

theorem Cancels.of_eq (h : w'.cancelled = w.cancelled) : w.Cancels t w' := by
  rw [Cancels, h]
  exact List.subset_cons_self t _

theorem Cancels.refl (w : World) : w.Cancels t w := .of_eq rfl

theorem Cancels.trans (h : w.Cancels t w') (h' : w'.Cancels t w'') : w.Cancels t w'' :=
  List.Subset.trans h' (List.cons_subset.2 ⟨List.mem_cons_self, h⟩)

theorem cancelled_leave (w : World) (i : SlotId) : (w.leave i).cancelled = w.cancelled :=
  congrArg (fun w => w.cancelled) (w.leave_veil w.caches w.cancelled [] i)

theorem cancelled_openCache (w : World) (query : QueryId) (keyType : KeyType) (valueType : ValueType) :
    (w.openCache query keyType valueType).2.cancelled = w.cancelled := by
  unfold openCache
  split
  · split <;> rfl
  · rfl

theorem cancelled_slotFor (w : World) (valueType : ValueType) (fresh : Slot) :
    (w.slotFor valueType fresh).2.cancelled = w.cancelled := by
  have hopen := w.cancelled_openCache fresh.query fresh.key.type valueType
  unfold slotFor
  generalize w.openCache fresh.query fresh.key.type valueType = opened at hopen
  obtain ⟨opened, w₁⟩ := opened
  cases opened with
  | error e => exact hopen
  | ok u =>
    have hobtain := cancelled_of_veil (World.obtain · fresh) (fun v cs C J => v.obtain_veil cs C J fresh) w₁
    exact hobtain.trans hopen

theorem cancelled_record (w : World) (a : Activation) (dep : SlotId) :
    (w.record a dep).2.cancelled = w.cancelled :=
  cancelled_of_veil (World.record · a dep) (fun v cs C J => v.record_veil cs C J a dep) w

theorem cancelled_read (w : World) (t : Token) (a : Activation) (query : QueryId)
    (valueType : ValueType) (key : Key) :
    (w.read t a query valueType key).2.2.cancelled = w.cancelled := by
  have hslot := w.cancelled_slotFor valueType ⟨query, key, .input none⟩
  unfold read inputSlot
  generalize w.slotFor valueType ⟨query, key, .input none⟩ = found at hslot
  obtain ⟨found, w₁⟩ := found
  cases found with
  | error e => exact hslot
  | ok dep =>
    have hrecord := (w₁.cancelled_record a dep).trans hslot
    simp only
    split <;> exact hrecord

end World

/-! ## Evaluations -/

namespace Evaluation

theorem cancelled_stepCall (a : Activation) (mode : CallMode) (label : Label) (key : Key)
    (next : Except QueryError Value → Body) (frames : List Frame) (w : World) :
    (stepCall p a mode label key next frames w).world.cancelled = w.cancelled := by
  have hslot := w.cancelled_slotFor (p label).valueType
    ⟨(p label).id, key, .derived (.fresh label (p label).equality)⟩
  unfold stepCall World.derivedSlot
  generalize w.slotFor _ _ = found at hslot
  obtain ⟨found, w₁⟩ := found
  cases found with
  | error e => exact hslot
  | ok callee => exact (w₁.cancelled_record a callee).trans hslot

/-- A step can cancel its token, and no other one. -/
theorem cancels_step (e : Evaluation) (w : World) : w.Cancels t (e.step p t w).world := by
  by_cases he : e.control.Ordinary
  · have hstep := congrArg (fun x => x.world.cancelled)
      (step_veil w w.caches [] p (t := t) (C := w.cancelled) Iff.rfl he)
    refine .of_eq (hstep.trans ?_)
    cases e.step p t w <;> rfl
  · obtain ⟨control, frames⟩ := e
    cases control with
    | fetch | walk | compute | answer => exact absurd trivial he
    | body a body =>
      cases body with
      | done | yield => exact absurd trivial he
      | call mode label key next => exact .of_eq (cancelled_stepCall a mode label key next frames w)
      | perform op next =>
        cases op with
        | check | revision | slot | allocate => exact absurd trivial he
        | cancel => exact List.Subset.refl _
        | read query valueType key => exact .of_eq (w.cancelled_read t a query valueType key)

theorem Next.cancels {e e' : Evaluation} {w w' : World} (h : e.Next p t w e' w') : w.Cancels t w' := by
  have hstep := cancels_step (p := p) (t := t) e w
  rcases h with h | h <;> rwa [h] at hstep

theorem Reaches.cancels {e e' : Evaluation} {w w' : World} (h : Reaches p t e w e' w') :
    w.Cancels t w' :=
  h.preserves (motive := fun _ w' => w.Cancels t w')
    (fun _ _ _ _ hnext hcancels => hcancels.trans hnext.cancels) (.refl w)

end Evaluation

/-! ## Requests and tasks -/

section

variable (w : World)

theorem Access.cancelled_admission (access : Access) (queued : Bool) :
    (access.admission queued w).2.cancelled = w.cancelled :=
  World.cancelled_of_veil (access.admission queued)
    (fun v cs C J => access.admission_veil v cs C J queued) w

theorem Access.cancelled_release (access : Access) : (access.release w).cancelled = w.cancelled := by
  cases access <;> rfl

/-- The beginning of a request cancels nothing. -/
theorem Request.cancelled_begin (p : Program) (request : Request) :
    (request.begin p w).2.cancelled = w.cancelled := by
  cases request with
  | write access query key value =>
    have hown := World.cancelled_of_veil (World.ownCopy · value)
      (fun v cs C J => v.ownCopy_veil cs C J value) w
    simp only [Request.begin, Begun.ofResult, World.write, World.inputSlot]
    have hslot := (w.ownCopy value).2.cancelled_slotFor (w.ownCopy value).1.type
      ⟨query, key, .input none⟩
    generalize (w.ownCopy value).2.slotFor _ _ = found at hslot
    obtain ⟨found, w₁⟩ := found
    cases found with
    | error e => exact hslot.trans hown
    | ok i => exact hslot.trans hown
  | read query valueType key =>
    have hopen := w.cancelled_openCache query key.type valueType
    simp only [Request.begin, Begun.ofResult, World.inputValue]
    generalize w.openCache query key.type valueType = opened at hopen
    obtain ⟨opened, w₁⟩ := opened
    cases opened with
    | error e => exact hopen
    | ok u =>
      simp only
      split <;> exact hopen
  | query access label key | derive label key equality =>
    simp only [Request.begin, Begun.ofSlot_snd]
    exact w.cancelled_slotFor _ _
  | prepare label key equality => exact w.cancelled_slotFor _ _
  | touch query valueType key =>
    have hopen := w.cancelled_openCache query key.type valueType
    simp only [Request.begin]
    generalize w.openCache query key.type valueType = opened at hopen
    obtain ⟨opened, w₁⟩ := opened
    cases opened with
    | error e => exact hopen
    | ok u =>
      simp only
      split
      · exact hopen
      · split <;> exact hopen
  | clear access before => rfl

end

namespace Task

variable {task : Task} {w w' : World}

theorem Begins.cancelled {e : Evaluation} (h : task.Begins p w e w') : w'.cancelled = w.cancelled := by
  rcases h with ⟨-, rfl⟩ | ⟨-, w₁, hentry, hbegin⟩
  · rfl
  · have hadmission := Access.cancelled_admission w task.request.access task.queued
    rw [hentry] at hadmission
    have hbegun := Request.cancelled_begin w₁ p task.request
    rw [hbegin] at hbegun
    exact hbegun.trans hadmission

/-- However a task is polled, it can cancel its token, and no other one. -/
theorem Course.cancels {out : Poll × World} (h : Course p task w out) : w.Cancels task.token out.2 := by
  cases h with
  | waits => exact .refl w
  | refused unbegun entry =>
    have hadmission := Access.cancelled_admission w task.request.access task.queued
    rw [entry] at hadmission
    exact .of_eq hadmission
  | @answered w₁ w₂ result unbegun entry opens =>
    have hadmission := Access.cancelled_admission w task.request.access task.queued
    rw [entry] at hadmission
    have hbegun := Request.cancelled_begin w₁ p task.request
    rw [opens] at hbegun
    exact .of_eq ((Access.cancelled_release _ _).trans (hbegun.trans hadmission))
  | parks begins reaches => exact (World.Cancels.of_eq begins.cancelled).trans reaches.cancels
  | ends begins finishes =>
    exact ((World.Cancels.of_eq begins.cancelled).trans finishes.reaches.cancels).trans
      (.of_eq (Access.cancelled_release _ _))

/-- Whatever becomes of a task, it keeps its token. -/
theorem Course.token {woken : Bool} {task' : Task} (h : Course p task w (.pending woken task', w')) :
    task'.token = task.token := by
  cases h <;> rfl

theorem cancelled_drop (task : Task) (w : World) : (task.drop w).cancelled = w.cancelled :=
  congrArg (fun w => w.cancelled) (task.drop_veil w w.caches w.cancelled [])

end Task

/-! ## Sessions -/

namespace Session

variable {s : Session}

/-- Every token that is cancelled, kept under a name or carried by a task was made. -/
structure Numbered (s : Session) : Prop where
  cancelled : ∀ t ∈ s.world.cancelled, t < s.tokenCount
  tokens : ∀ entry ∈ s.tokens.entries, entry.2 < s.tokenCount
  tasks : ∀ entry ∈ s.tasks.entries, entry.2.token < s.tokenCount

theorem numbered_fresh (memoize traced : Bool) : (fresh memoize traced).Numbered where
  cancelled _ h := by cases h
  tokens _ h := by cases h
  tasks _ h := by cases h

theorem of_get?_of_forall {α : Type} {n : Named α} {name : String} {a : α} {P : α → Prop}
    (h : ∀ entry ∈ n.entries, P entry.2) (hget : n.get? name = some a) : P a := by
  obtain ⟨entry, hentry, rfl⟩ := mem_entries_of_get? hget
  exact h entry hentry

/-- A token that is asked for was made, then or before, and none is forgotten. -/
theorem Numbered.tokenFor (h : s.Numbered) (name : Option String) :
    (s.tokenFor name).1 < (s.tokenFor name).2.tokenCount ∧ (s.tokenFor name).2.Numbered := by
  have hnew : s.newToken.1 < s.newToken.2.tokenCount ∧ s.newToken.2.Numbered :=
    ⟨Nat.lt_succ_self _, fun t ht => Nat.lt_succ_of_lt (h.cancelled t ht),
      fun entry hentry => Nat.lt_succ_of_lt (h.tokens entry hentry),
      fun entry hentry => Nat.lt_succ_of_lt (h.tasks entry hentry)⟩
  cases name with
  | none => exact hnew
  | some name =>
    cases hget : s.tokens.get? name with
    | some token =>
      simp only [Session.tokenFor, hget]
      exact ⟨of_get?_of_forall (P := (· < s.tokenCount)) h.tokens hget, h⟩
    | none =>
      simp only [Session.tokenFor, hget]
      refine ⟨hnew.1, hnew.2.cancelled, fun entry hentry => ?_, hnew.2.tasks⟩
      rcases List.mem_cons.1 hentry with rfl | hentry
      · exact hnew.1
      · exact hnew.2.tokens entry (List.mem_filter.1 hentry).1

/-- A step that cancels nothing. -/
theorem Numbered.of_world (h : s.Numbered) {w : World} (hw : w.cancelled = s.world.cancelled) :
    ({ s with world := w } : Session).Numbered := ⟨hw ▸ h.cancelled, h.tokens, h.tasks⟩

theorem Numbered.dropTask (h : s.Numbered) (name : String) : (s.dropTask name).Numbered := by
  unfold Session.dropTask
  split
  · exact ⟨by rw [Task.cancelled_drop]; exact h.cancelled, h.tokens,
      fun entry hentry => h.tasks entry (List.mem_filter.1 hentry).1⟩
  · exact h

theorem Numbered.dropGuard (h : s.Numbered) (name : String) : (s.dropGuard name).Numbered := by
  unfold Session.dropGuard
  split
  · exact ⟨by rw [World.cancelled_leave]; exact h.cancelled, h.tokens, h.tasks⟩
  · exact h

theorem Numbered.afterPoll (h : s.Numbered) {name : String} {task : Task} {out : Poll × World}
    (hfound : s.tasks.get? name = some task) (hcourse : task.Course p s.world out) :
    (s.afterPoll name out).2.Numbered := by
  have htoken : task.token < s.tokenCount :=
    of_get?_of_forall (P := fun task => task.token < s.tokenCount) h.tasks hfound
  have hcancelled : ∀ t ∈ out.2.cancelled, t < s.tokenCount := by
    intro t ht
    rcases List.mem_cons.1 (hcourse.cancels ht) with rfl | ht
    · exact htoken
    · exact h.cancelled t ht
  obtain ⟨poll, w⟩ := out
  cases poll with
  | ready r =>
    exact ⟨hcancelled, h.tokens, fun entry hentry => h.tasks entry (List.mem_filter.1 hentry).1⟩
  | pending woken task' =>
    refine ⟨hcancelled, h.tokens, fun entry hentry => ?_⟩
    rcases List.mem_cons.1 hentry with rfl | hentry
    · exact hcourse.token ▸ htoken
    · exact h.tasks entry (List.mem_filter.1 hentry).1

theorem Numbered.perform (h : s.Numbered) (limits : Limits) (request : Request) (name : Option String) :
    (s.step p limits (.perform request name)).2.Numbered := by
  obtain ⟨htoken, hnumbered⟩ := h.tokenFor name
  have hworld := s.world_tokenFor name
  simp only [step]
  generalize s.tokenFor name = made at htoken hnumbered hworld
  obtain ⟨token, s₁⟩ := made
  have hcourse := Task.course_run (p := p) limits.steps limits.polls { request, token } s₁.world
  generalize Task.run p limits.steps limits.polls { request, token } s₁.world = out at hcourse
  have hcancelled : ∀ t ∈ out.2.cancelled, t < s₁.tokenCount := by
    intro t ht
    rcases List.mem_cons.1 (hcourse.cancels ht) with rfl | ht
    · exact htoken
    · exact hnumbered.cancelled t ht
  obtain ⟨poll, w⟩ := out
  cases poll with
  | ready r => exact ⟨hcancelled, hnumbered.tokens, hnumbered.tasks⟩
  | pending woken task =>
    exact ⟨by rw [Task.cancelled_drop]; exact hcancelled, hnumbered.tokens, hnumbered.tasks⟩

/-- A step that a client takes keeps the tokens numbered. -/
theorem Numbered.step (h : s.Numbered) (limits : Limits) (step : Step) :
    (s.step p limits step).2.Numbered := by
  have hopened (query : QueryId) (keyType : KeyType) (valueType : ValueType) :
      ({ s with world := (s.world.openCache query keyType valueType).2 } : Session).Numbered :=
    h.of_world (s.world.cancelled_openCache query keyType valueType)
  cases step with
  | perform request name => exact h.perform limits request name
  | spawn name request token =>
    obtain ⟨htoken, hnumbered⟩ := (h.dropTask name).tokenFor token
    refine ⟨hnumbered.cancelled, hnumbered.tokens, fun entry hentry => ?_⟩
    rcases List.mem_cons.1 hentry with rfl | hentry
    · exact htoken
    · exact hnumbered.tasks entry (List.mem_filter.1 hentry).1
  | poll name times =>
    simp only [Session.step]
    cases hfound : s.tasks.get? name with
    | none => exact h
    | some task => exact h.afterPoll hfound (Task.course_pollTimes limits.steps _ task s.world)
  | run name =>
    simp only [Session.step]
    cases hfound : s.tasks.get? name with
    | none => exact h
    | some task => exact h.afterPoll hfound (Task.course_run limits.steps _ task s.world)
  | drop name => exact h.dropTask name
  | cancel name =>
    obtain ⟨htoken, hnumbered⟩ := h.tokenFor (some name)
    exact ⟨List.forall_mem_cons.2 ⟨htoken, hnumbered.cancelled⟩, hnumbered.tokens, hnumbered.tasks⟩
  | lookAtToken name => exact (h.tokenFor (some name)).2
  | enter name slot =>
    have henter := World.cancelled_of_veil (World.enter · slot)
      (fun v cs C J => v.enter_veil cs C J slot) s.world
    simp only [Session.step]
    generalize s.world.enter slot = entered at henter
    obtain ⟨entered, w⟩ := entered
    cases entered with
    | error e => exact h.of_world henter
    | ok u =>
      have hdrop := (h.of_world henter).dropGuard name
      exact ⟨hdrop.cancelled, hdrop.tokens, hdrop.tasks⟩
  | leave name => exact h.dropGuard name
  | stack | slots | describe | stamps | debug | resultsFor => exact h
  | takeEvents =>
    simp only [Session.step]
    split
    · exact ⟨h.cancelled, h.tokens, h.tasks⟩
    · exact h
  | cache query keyType valueType => exact hopened query keyType valueType
  | inspect query valueType key => exact hopened query key.type valueType
  | gatherDeps query keyType valueType keys => exact hopened query keyType valueType
  | makeInput query valueType key => exact h.of_world (s.world.cancelled_slotFor _ _)
  | clearCache query keyType valueType before =>
    have hopened := hopened query keyType valueType
    simp only [Session.step]
    generalize s.world.openCache query keyType valueType = opened at hopened
    obtain ⟨opened, w⟩ := opened
    cases opened <;> exact ⟨hopened.cancelled, h.tokens, h.tasks⟩
  | clearSlot query valueType key before =>
    have hopened := hopened query key.type valueType
    simp only [Session.step]
    generalize s.world.openCache query key.type valueType = opened at hopened
    obtain ⟨opened, w⟩ := opened
    cases opened with
    | error e => exact hopened
    | ok u =>
      refine ⟨?_, h.tokens, h.tasks⟩
      have hclear := World.cancelled_of_veil (World.clearSlot · query key before)
        (fun v cs C J => v.clearSlot_veil cs C J query key before) w
      exact hclear ▸ hopened.cancelled

theorem numbered_after (limits : Limits) {s : Session} (h : s.Numbered) (steps : List Step) :
    (s.after p limits steps).Numbered := by
  induction steps generalizing s with
  | nil => exact h
  | cons step steps ih =>
    have hstep := h.step (p := p) limits step
    exact ih (s := (s.report p limits step).2) ⟨hstep.cancelled, hstep.tokens, hstep.tasks⟩

end Session

end RedGreen
