import RedGreen.Proofs.Stamps

set_option autoImplicit false

/-! # Candid programs

A body can end with any error, also with the one by which a request is refused at the entry lock. It is
*candid* if it does not make this error up: unless it is told of a refusal, it does not end with one. No
evaluation of a program with candid bodies comes to a refusal then, in whatever session
(`Evaluation.Candid.reaches`, `Session.Candid.after`). -/

namespace RedGreen

open Evaluation

variable {p : Program} {t : Token} {w w' : World}

/-! ## Candid bodies -/

/-- A reply does not tell of a refusal. -/
def Operation.Spares : (op : Operation) → op.Reply → Prop
  | .read _ _ _, reply => reply ≠ .error .busy
  | .check, reply => reply ≠ .error .busy
  | _, _ => True

/-- A body does not make up a refusal: unless it is told of one, it does not end with one. -/
inductive Candid : Body → Prop
  | done {result : Except QueryError Value} (h : result ≠ .error .busy) : Candid (.done result)
  | perform {op : Operation} {next : op.Reply → Body} (h : ∀ r, op.Spares r → Candid (next r)) :
    Candid (.perform op next)
  | call {mode : CallMode} {label : Label} {key : Key} {next : Except QueryError Value → Body}
    (h : ∀ r, r ≠ .error .busy → Candid (next r)) : Candid (.call mode label key next)
  | yield {next : Body} (h : Candid next) : Candid (.yield next)

/-- A program whose bodies make up no refusal. -/
def Program.Candid (p : Program) : Prop := ∀ label key, RedGreen.Candid ((p label).body key)

namespace World

theorem check_ne_busy (w : World) (t : Token) {α : Type} (a : α) :
    (w.check t).map (fun _ => a) ≠ .error .busy := by
  unfold check
  split <;> nofun

theorem openCache_ne_busy {query : QueryId} {keyType : KeyType} {valueType : ValueType}
    {e : QueryError} (h : w.openCache query keyType valueType = (.error e, w')) : e ≠ .busy := by
  rintro rfl
  unfold openCache at h
  split at h
  · split at h <;> cases h
  · cases h

theorem slotFor_ne_busy {valueType : ValueType} {fresh : Slot} {e : QueryError}
    (h : w.slotFor valueType fresh = (.error e, w')) : e ≠ .busy := by
  unfold slotFor at h
  split at h
  · rename_i hopen
    cases h
    exact openCache_ne_busy hopen
  · rintro rfl
    unfold obtain at h
    split at h
    · split at h <;> cases h
    · cases h

theorem spares_perform (w : World) (t : Token) (a : Activation) (op : Operation) :
    op.Spares (w.perform t a op).1 := by
  cases op with
  | read query valueType key =>
    simp only [Operation.Spares, perform, read]
    split
    · rename_i heq
      exact fun h => slotFor_ne_busy heq (Except.error.inj h)
    · split
      · exact fun h => by cases h
      · exact World.check_ne_busy _ t _
  | check =>
    simp only [Operation.Spares, perform, check]
    split <;> exact fun h => by cases h
  | cancel | revision | slot | allocate => trivial

end World

/-! ## Candid evaluations -/

/-- The control neither runs a body that makes up a refusal nor answers with one. -/
def Control.Candid : Control → Prop
  | .body _ b => RedGreen.Candid b
  | .answer result => result ≠ .error .busy
  | _ => True

/-- What a caller goes on with is candid. -/
def Frame.Candid : Frame → Prop
  | .touching _ _ => True
  | .calling caller => ∀ r, r ≠ .error .busy → RedGreen.Candid (caller.next r)

/-- No refusal is made up in an evaluation. -/
structure Evaluation.Candid (e : Evaluation) : Prop where
  control : e.control.Candid
  frames : ∀ frame ∈ e.frames, frame.Candid

namespace World

theorem candid_startBody (hp : p.Candid) (w : World) (i : SlotId) (r : Revision) :
    (w.startBody p i r).1.Candid := by
  unfold startBody
  split
  · exact hp _ _
  · exact .done nofun

theorem candid_commit (w : World) (a : Activation) (v : Value) : (w.commit a v).1.Candid := by
  unfold commit
  split
  · split <;> exact nofun
  · exact nofun

theorem error_of_check {e : QueryError} (h : w.check t = .error e) : e = .cancelled := by
  unfold check at h
  split at h <;> cases h
  rfl

theorem candid_finish (w : World) (t : Token) (a : Activation) {r : Except QueryError Value}
    (hr : r ≠ .error .busy) : (w.finish t a r).1.Candid := by
  unfold finish
  split
  · exact fun h => hr (congrArg Except.error (Except.error.inj h))
  · split
    · rename_i hcheck
      obtain rfl := error_of_check hcheck
      split <;> exact nofun
    · split
      · exact w.candid_commit a _
      · exact nofun

theorem candid_start (w : World) (i : SlotId) {c : Control} (hc : c.Candid) :
    (w.start i c).1.Candid := by
  unfold start enter
  split
  · rename_i heq
    split at heq <;> cases heq
    exact nofun
  · exact hc

theorem candid_fetch (hp : p.Candid) (w : World) (t : Token) (i : SlotId) :
    (w.fetch p t i).1.Candid := by
  unfold fetch beginMemoized beginUncached enter
  split
  · split
    · split
      · exact nofun
      · exact w.candid_start i trivial
    · exact w.candid_start i trivial
  · split
    · rename_i heq
      split at heq <;> cases heq
      exact nofun
    · split
      · rename_i hcheck
        obtain rfl := error_of_check hcheck
        exact nofun
      · exact candid_startBody hp _ i _

theorem candid_compute (hp : p.Candid) (w : World) (t : Token) (i : SlotId) (r : Revision) :
    (w.compute p t i r).1.Candid := by
  unfold compute
  split
  · rename_i hcheck
    obtain rfl := error_of_check hcheck
    exact nofun
  · exact candid_startBody hp _ i r

theorem candid_touched (w : World) (t : Token) (walk : Walk) (dep : SlotId) (r : Revision) :
    (w.touched t walk dep r).1.Candid := by
  unfold touched
  split
  · rename_i hcheck
    obtain rfl := error_of_check hcheck
    exact nofun
  · split <;> trivial

theorem candid_verify (w : World) (walk : Walk) : (w.verify walk).1.Candid := by
  unfold verify
  split
  · exact nofun
  · trivial

end World

namespace Evaluation

variable {e e' : Evaluation}

theorem candid_of_resume {frames : List Frame} {out : Control × World}
    (h : resume frames out = .running e' w' ∨ resume frames out = .parked e' w')
    (hcontrol : out.1.Candid) (hframes : ∀ frame ∈ frames, frame.Candid) : e'.Candid := by
  obtain ⟨rfl, rfl⟩ := eq_of_resume h
  exact ⟨hcontrol, hframes⟩

theorem candid_stepBody {a : Activation} {body : Body} {frames : List Frame}
    (hbody : RedGreen.Candid body) (hframes : ∀ frame ∈ frames, frame.Candid)
    (h : stepBody p t a body frames w = .running e' w' ∨
      stepBody p t a body frames w = .parked e' w') : e'.Candid := by
  cases hbody with
  | done hresult => exact candid_of_resume h (w.candid_finish t a hresult) hframes
  | @perform op next hnext =>
    have hreply := hnext _ (w.spares_perform t a op)
    simp only [stepBody] at h
    generalize w.perform t a op = out at h hreply
    rcases h with h | h <;> cases h
    exact ⟨hreply, hframes⟩
  | @call mode label key next hnext =>
    simp only [stepBody, stepCall] at h
    split at h
    · rename_i heq
      rcases h with h | h <;> cases h
      refine ⟨hnext _ fun hbusy => ?_, hframes⟩
      exact World.slotFor_ne_busy heq (Except.error.inj hbusy)
    · rcases h with h | h <;> cases h
      exact ⟨trivial, List.forall_mem_cons.2 ⟨hnext, hframes⟩⟩
  | yield hnext =>
    simp only [stepBody, stepYield] at h
    split at h
    · rcases h with h | h <;> cases h
      exact ⟨hnext, hframes⟩
    · rename_i hsplit
      obtain ⟨rfl, -⟩ := eq_append_of_splitAtImmediate hsplit
      rcases h with h | h <;> cases h
      have hcaller := hframes _ (List.mem_append_right _ List.mem_cons_self)
      exact ⟨hcaller _ (fun h => by cases h),
        fun frame hmem => hframes _ (List.mem_append_right _ (List.mem_cons_of_mem _ hmem))⟩

theorem candid_stepAnswer {result : Except QueryError Stamped} {frames : List Frame}
    (hresult : result ≠ .error .busy) (hframes : ∀ frame ∈ frames, frame.Candid)
    (h : stepAnswer t result frames w = .running e' w' ∨
      stepAnswer t result frames w = .parked e' w') : e'.Candid := by
  cases frames with
  | nil => rcases h with h | h <;> cases h
  | cons frame frames =>
    obtain ⟨hframe, hrest⟩ := List.forall_mem_cons.1 hframes
    cases frame with
    | touching walk dep =>
      cases result with
      | error error =>
        exact candid_of_resume h (fun hbusy => hresult (congrArg _ (Except.error.inj hbusy))) hrest
      | ok stamped => exact candid_of_resume h (w.candid_touched t walk dep _) hrest
    | calling caller =>
      rcases h with h | h <;> cases h
      refine ⟨hframe _ ?_, hrest⟩
      cases result with
      | error error => exact fun hbusy => hresult (congrArg _ (Except.error.inj hbusy))
      | ok stamped => exact w.check_ne_busy t _

/-- A step makes up no refusal. -/
theorem Candid.next (hp : p.Candid) (h : e.Candid) (hnext : e.Next p t w e' w') : e'.Candid := by
  obtain ⟨control, frames⟩ := e
  obtain ⟨hcontrol, hframes⟩ := h
  cases control with
  | fetch i => exact candid_of_resume hnext (World.candid_fetch hp w t i) hframes
  | walk walk =>
    simp only [Next, step, stepWalk] at hnext
    split at hnext
    · exact candid_of_resume hnext (w.candid_verify walk) hframes
    · split at hnext
      · rcases hnext with hnext | hnext <;> cases hnext
        exact ⟨trivial, List.forall_mem_cons.2 ⟨trivial, hframes⟩⟩
      · exact candid_of_resume hnext (w.candid_touched t _ _ _) hframes
  | compute i r => exact candid_of_resume hnext (World.candid_compute hp w t i r) hframes
  | body a body => exact candid_stepBody hcontrol hframes hnext
  | answer result => exact candid_stepAnswer hcontrol hframes hnext

theorem Candid.reaches (hp : p.Candid) (h : e.Candid) (hreaches : Reaches p t e w e' w') :
    e'.Candid :=
  hreaches.preserves (motive := fun e _ => e.Candid)
    (fun _ _ _ _ hnext hcandid => hcandid.next hp hnext) h

theorem candid_request (i : SlotId) : (Evaluation.request i).Candid :=
  ⟨trivial, fun _ hmem => absurd hmem List.not_mem_nil⟩

end Evaluation

/-! ## Sessions of a candid program -/

namespace Task

variable {task task' : Task}

/-- If the task is under way, its evaluation is candid. -/
def Candid (task : Task) : Prop := ∀ e, task.suspended = some e → e.Candid

theorem Begins.candid {e : Evaluation} (h : task.Begins p w e w') (hcandid : task.Candid) :
    e.Candid := by
  rcases h with ⟨hsuspended, -⟩ | ⟨-, w₁, -, hbegin⟩
  · exact hcandid e hsuspended
  · have hopens := Request.opens_begin p task.request w₁
    rw [hbegin] at hopens
    cases hopens
    exact candid_request _

theorem Course.candid (hp : p.Candid) {woken : Bool} (h : Course p task w (.pending woken task', w'))
    (hcandid : task.Candid) : task'.Candid := by
  cases h with
  | waits => exact hcandid
  | parks begins reaches =>
    intro e he
    cases he
    exact (begins.candid hcandid).reaches hp reaches

end Task

namespace Session

variable {s : Session} {limits : Limits}

/-- All evaluations that are under way are candid. -/
def Candid (s : Session) : Prop := ∀ entry ∈ s.tasks.entries, entry.2.Candid

theorem Effects.candid {step : Step} {tasks : Named Task} {guards : Named SlotId} (hp : p.Candid)
    (heffects : s.Effects p step w tasks guards) (h : s.Candid) :
    ∀ entry ∈ tasks.entries, entry.2.Candid := by
  rcases heffects.aside with hpolls | ⟨-, -, htasks⟩
  · cases hpolls with
    | performs => exact h
    | ends => exact fun entry hentry => h entry (List.mem_filter.1 hentry).1
    | waits carries found course =>
      obtain ⟨entry, hentry, rfl⟩ := mem_entries_of_get? found
      intro entry' hentry'
      rcases List.mem_cons.1 hentry' with rfl | hentry'
      · exact course.candid hp (h entry hentry)
      · exact h entry' (List.mem_filter.1 hentry').1
  · intro entry hentry
    rcases htasks entry hentry with hbefore | ⟨hunbegun, -⟩
    · exact h entry hbefore
    · intro e he
      rw [hunbegun] at he
      cases he

theorem Candid.after (hp : p.Candid) (h : s.Candid) (steps : List Step) :
    (s.after p limits steps).Candid := by
  induction steps generalizing s with
  | nil => exact h
  | cons step steps ih => exact ih ((effects_step (p := p) limits s step).candid hp h)

end Session

end RedGreen
