import RedGreen.Proofs.Runs
import RedGreen.Proofs.Shortcuts

set_option autoImplicit false

/-! # Evaluations of transparent bodies, step by step

In a program of transparent bodies a revalidation takes no wrong shortcut, so an evaluation on its
own stands as it should until a call fails. From then on it only hands on the error (`Failing`), also
if the failure is a cycle. `Onward` lists what one step does before that: all that is said later of
the work of an evaluation and of what it leaves behind is read off this list. -/

namespace RedGreen

open Evaluation

variable {p : Program} {use : Usages} {same : Indistinct} {t : Token}

/-- What is left of a transparent body is transparent. -/
theorem Follows.transparent {b b' : Body} {reads : List Read} (h : Follows b reads b')
    (hb : Transparent b) : Transparent b' := by
  induction h with
  | refl b => exact hb
  | read slot reply _ ih =>
    cases hb with
    | perform hb => exact ih (hb _)
  | check _ ih =>
    cases hb with
    | perform hb => exact ih (hb _)
  | allocate n _ ih =>
    cases hb with
    | perform hb => exact ih (hb n)
  | yield _ ih =>
    cases hb with
    | yield hb => exact ih hb
  | call slot reply _ ih =>
    cases hb with
    | call error ok =>
      cases reply with
      | error e =>
        rw [error] at ih
        exact ih (.done _)
      | ok v => exact ih (ok v)

/-- The stamp of the last change of a slot with a memo is that of the memo. -/
theorem System.changedAt_of_memo {s : System} {i : SlotId} {m : Memo} (h : s.memo? i = some m) :
    s.changedAt i = m.changedAt := by
  obtain ⟨⟨query, key, content⟩, hslot, hmemo⟩ := Option.bind_eq_some_iff.1 h
  cases content with
  | input written => cases hmemo
  | derived d =>
    have hmemo : d.memo = some m := hmemo
    simp [System.changedAt, hslot, Slot.changedAt, d.parts_eq.2.1, hmemo]

/-! ## Running bodies -/

/-- The slot whose body runs at the control. -/
def Control.running? : Control → Option SlotId
  | .body a _ => some a.slot
  | _ => none

/-- The slot whose body waits in a frame. -/
def Frame.running? : Frame → Option SlotId
  | .calling caller => some caller.activation.slot
  | .touching _ _ => none

/-- The slots whose bodies run or wait for others, innermost first. -/
def Evaluation.running (e : Evaluation) : List SlotId :=
  e.control.running?.toList ++ e.frames.filterMap Frame.running?

theorem running_frames_subset (frames : List Frame) :
    frames.filterMap Frame.running? ⊆ frames.map Frame.slot := by
  intro i hi
  obtain ⟨frame, hmem, hrunning⟩ := List.mem_filterMap.1 hi
  refine List.mem_map.2 ⟨frame, hmem, ?_⟩
  cases frame with
  | calling caller => exact Option.some.inj hrunning
  | touching walk dep => cases hrunning

theorem Evaluation.running_subset (e : Evaluation) : e.running ⊆ e.held := by
  obtain ⟨control, frames⟩ := e
  refine List.append_subset.2 ⟨fun i hi => List.mem_append_left _ ?_, fun i hi =>
    List.mem_append_right _ (running_frames_subset frames hi)⟩
  cases control with
  | body a b => exact hi
  | fetch | walk | compute | answer => cases hi

/-! ## Failing -/

/-- A call has failed, and the error is handed on. -/
inductive Evaluation.Failing : Evaluation → Prop
  | answer {e : QueryError} {frames : List Frame}
    (callers : ∀ caller, .calling caller ∈ frames → ∀ e, caller.next (.error e) = .done (.error e)) :
    Failing ⟨.answer (.error e), frames⟩
  | body {a : Activation} {e : QueryError} {frames : List Frame}
    (callers : ∀ caller, .calling caller ∈ frames → ∀ e, caller.next (.error e) = .done (.error e)) :
    Failing ⟨.body a (.done (.error e)), frames⟩

/-- A step of an evaluation that fails hands the error on and does nothing else. -/
theorem Evaluation.Failing.next {e e' : Evaluation} {w w' : World} (h : e.Failing)
    (hnext : e.Next p t w e' w') : e'.Failing ∧ w.Quiet w' := by
  cases h with
  | @body a error frames callers =>
    obtain ⟨w₁, hfail, hquiet, -⟩ := w.fail_spec a.slot error
    have hstep : Evaluation.step p t ⟨.body a (.done (.error error)), frames⟩ w =
        .running ⟨.answer (.error error), frames⟩ w₁ := by
      simp only [Evaluation.step, stepBody, World.finish, hfail, resume]
    obtain ⟨rfl, rfl⟩ := hnext.eq_of_running hstep
    exact ⟨.answer callers, hquiet⟩
  | @answer error frames callers =>
    cases frames with
    | nil => simp [Next, Evaluation.step, stepAnswer] at hnext
    | cons frame frames =>
      have hcallers : ∀ caller, .calling caller ∈ frames → ∀ e,
          caller.next (.error e) = .done (.error e) :=
        fun caller hmem => callers caller (List.mem_cons_of_mem _ hmem)
      cases frame with
      | touching walk dep =>
        obtain ⟨w₁, hfail, hquiet, -⟩ := w.fail_spec walk.slot error
        have hstep : Evaluation.step p t ⟨.answer (.error error), .touching walk dep :: frames⟩ w =
            .running ⟨.answer (.error error), frames⟩ w₁ := by
          simp only [Evaluation.step, stepAnswer, hfail, resume]
        obtain ⟨rfl, rfl⟩ := hnext.eq_of_running hstep
        exact ⟨.answer hcallers, hquiet⟩
      | calling caller =>
        have hself := callers caller List.mem_cons_self error
        have hstep : Evaluation.step p t ⟨.answer (.error error), .calling caller :: frames⟩ w =
            .running ⟨.body caller.activation (.done (.error error)), frames⟩ w := by
          simp only [Evaluation.step, stepAnswer, hself]
        obtain ⟨rfl, rfl⟩ := hnext.eq_of_running hstep
        exact ⟨.body hcallers, .refl _⟩

/-! ## Going on -/

/-- A slot holds an input, or it holds a value that is valid now. -/
def World.Current (w : World) (i : SlotId) : Prop :=
  w.kind? i = some .input ∨ ∃ m, w.memo? i = some m ∧ m.verifiedAt = w.revision

theorem World.kind?_of_node {w w' : World} {i : SlotId} (ht : Tidy p use w.toSystem)
    (ht' : Tidy p use w'.toSystem) (hnode : ∀ n, w.node? i = some n → w'.node? i = some n)
    {kind : SlotKind} (h : w.kind? i = some kind) : w'.kind? i = some kind := by
  obtain ⟨slot, hslot, -⟩ := Option.map_eq_some_iff.1 h
  have hi : w.node? i = some ⟨slot.query, slot.key⟩ :=
    System.node?_eq_some.2 ⟨slot, hslot, rfl, rfl⟩
  rw [ht'.kind? (hnode _ hi), ← ht.kind? hi, h]

theorem World.Current.grows {w w' : World} {i : SlotId} (h : w.Current i)
    (ht : Tidy p use w.toSystem) (ht' : Tidy p use w'.toSystem) (hw : w.Grows w') : w'.Current i := by
  rcases h with hinput | ⟨m, hm, hverified⟩
  · exact .inl (kind?_of_node ht ht' (hw.node i) hinput)
  · exact .inr ⟨m, (hw.memo i).trans hm, hverified.trans hw.revision.symm⟩

/-- A memo that is valid now leaves what is valid now so. -/
theorem World.Current.commits {w w' : World} {i j : SlotId} {m : Memo}
    {same : Value → Value → Prop} (h : w.Current i) (ht : Tidy p use w.toSystem)
    (hcommits : w.Commits p use same j m w') (hverified : m.verifiedAt = w.revision) :
    w'.Current i := by
  rcases h with hinput | ⟨m', hm', hverified'⟩
  · exact .inl (kind?_of_node ht hcommits.tidy (hcommits.node i) hinput)
  · by_cases hij : i = j
    · subst hij
      exact .inr ⟨m, hcommits.memo_self, hverified.trans hcommits.revision.symm⟩
    · exact .inr ⟨m', (hcommits.memo_other i hij).trans hm', hverified'.trans hcommits.revision.symm⟩

/-- The next recorded dependency of a revalidation has just been brought up to date. -/
inductive Evaluation.Brought (w : World) (walk : Walk) (dep : SlotId) (frames : List Frame) :
    Evaluation → Prop
  | input (kind : w.kind? dep = some .input) :
    Brought w walk dep frames ⟨.walk { walk with rest := dep :: walk.rest }, frames⟩
  | derived {m : Memo} (memo : w.memo? dep = some m) (verified : m.verifiedAt = w.revision) :
    Brought w walk dep frames ⟨.answer (.ok m.toStamped), .touching walk dep :: frames⟩

/-- What a step does to the control, the frames and the world, as long as no call has failed. -/
inductive Evaluation.Onward (p : Program) (use : Usages) (same : Indistinct) (w : World) :
    Evaluation → Evaluation → World → Prop
  | hits {i : SlotId} {m : Memo} {frames : List Frame} {w' : World} (memo : w.memo? i = some m)
    (verified : m.verifiedAt = w.revision) (quiet : w.Quiet w') :
    Onward p use same w ⟨.fetch i, frames⟩ ⟨.answer (.ok m.toStamped), frames⟩ w'
  | walks {i : SlotId} {m : Memo} {frames : List Frame} {w' : World} (memo : w.memo? i = some m)
    (stale : m.verifiedAt ≠ w.revision) (outside : i ∉ w.active) (quiet : w.Quiet w') :
    Onward p use same w ⟨.fetch i, frames⟩
      ⟨.walk ⟨i, w.revision, m.verifiedAt, m.deps⟩, frames⟩ w'
  | computes {i : SlotId} {frames : List Frame} {w' : World} (memo : w.memo? i = none)
    (outside : i ∉ w.active) (quiet : w.Quiet w') :
    Onward p use same w ⟨.fetch i, frames⟩ ⟨.compute i w.revision, frames⟩ w'
  | visits {walk : Walk} {dep : SlotId} {frames : List Frame} :
    Onward p use same w ⟨.walk { walk with rest := dep :: walk.rest }, frames⟩
      ⟨.fetch dep, .touching walk dep :: frames⟩ w
  | passes {e : Evaluation} {walk : Walk} {dep : SlotId} {frames : List Frame}
    (brought : Brought w walk dep frames e) (unchanged : w.changedAt dep ≤ walk.verifiedAt) :
    Onward p use same w e ⟨.walk walk, frames⟩ w
  | finds {e : Evaluation} {walk : Walk} {dep : SlotId} {frames : List Frame} {w' : World}
    (brought : Brought w walk dep frames e) (changed : walk.verifiedAt < w.changedAt dep)
    (quiet : w.Quiet w') :
    Onward p use same w e ⟨.compute walk.slot walk.revision, frames⟩ w'
  | confirms {walk : Walk} {m : Memo} {label : Label} {key : Key} {frames : List Frame}
    {w' : World} (rest : walk.rest = []) (memo : w.memo? walk.slot = some m)
    (node : w.node? walk.slot = some (p.node label key))
    (commits : w.Commits p use (same (p label).id) walk.slot { m with verifiedAt := w.revision } w') :
    Onward p use same w ⟨.walk walk, frames⟩ ⟨.answer (.ok m.toStamped), frames⟩ w'
  | starts {i : SlotId} {r : Revision} {label : Label} {key : Key} {frames : List Frame}
    {w' : World} (node : w.node? i = some (p.node label key)) (quiet : w.Quiet w') :
    Onward p use same w ⟨.compute i r, frames⟩ ⟨.body ⟨i, r, []⟩ ((p label).body key), frames⟩ w'
  | goesOn {a : Activation} {b b' : Body} {deps : List SlotId} {frames : List Frame} {w' : World}
    (grows : w.Grows w') (tidy : Tidy p use w'.toSystem)
    (reads : ∀ dep ∈ deps, dep ∈ a.deps ∨ w'.kind? dep = some .input) :
    Onward p use same w ⟨.body a b, frames⟩ ⟨.body { a with deps } b', frames⟩ w'
  | calls {a : Activation} {mode : CallMode} {label : Label} {key : Key}
    {next : Except QueryError Value → Body} {i : SlotId} {frames : List Frame} {w' : World}
    (found : w.Finds p use (p.node label key) i w') :
    Onward p use same w ⟨.body a (.call mode label key next), frames⟩
      ⟨.fetch i, .calling ⟨a.reading i, mode, i, next⟩ :: frames⟩ w'
  | returns {caller : Caller} {m : Memo} {frames : List Frame}
    (memo : w.memo? caller.callee = some m) (verified : m.verifiedAt = w.revision) :
    Onward p use same w ⟨.answer (.ok m.toStamped), .calling caller :: frames⟩
      ⟨.body caller.activation (caller.next (.ok m.value)), frames⟩ w
  | keeps {a : Activation} {m : Memo} {label : Label} {key : Key} {frames : List Frame}
    {w' : World} (node : w.node? a.slot = some (p.node label key))
    (verifiedAt : m.verifiedAt = w.revision) (deps : m.deps = a.deps)
    (commits : w.Commits p use (same (p label).id) a.slot m w') :
    Onward p use same w ⟨.body a (.done (.ok m.value)), frames⟩
      ⟨.answer (.ok m.toStamped), frames⟩ w'
  | fails {e : Evaluation} {error : QueryError} {w' : World}
    (failing : Failing ⟨.answer (.error error), e.frames⟩) (quiet : w.Quiet w') :
    Onward p use same w e ⟨.answer (.error error), e.frames⟩ w'

namespace World

/-- An evaluation on its own goes on, and no call of it has failed. -/
structure Proceeds (p : Program) (use : Usages) (same : Indistinct) (t : Token) (w : World)
    (root : SlotId) (e : Evaluation) : Prop where
  fair : w.Fair p use same
  uncancelled : t ∉ w.cancelled
  stands : w.Stands p use same root e
  unfailed : ∀ error, e.control ≠ .answer (.error error)
  nodup : e.held.Nodup
  /-- What is in progress is not valid now. -/
  stale : ∀ i ∈ e.held, ∀ m, w.memo? i = some m → m.verifiedAt ≠ w.revision

variable {w w' : World} {root : SlotId} {e e' : Evaluation} {frames : List Frame}

/-- Callers hand errors on. -/
theorem Awaits.hands_on (htr : ∀ label key, Transparent ((p label).body key))
    (h : w.Awaits p use same root frames) {caller : Caller} (hmem : .calling caller ∈ frames)
    (error : QueryError) : caller.next (.error error) = .done (.error error) := by
  induction frames with
  | nil => exact absurd hmem List.not_mem_nil
  | cons frame frames ih =>
    rcases List.mem_cons.1 hmem with rfl | hrest
    · obtain ⟨-, ⟨-, label, key, reads, label', key', htracks, -⟩, -⟩ := h
      have hb := htracks.follows.transparent (htr label key)
      cases hb with
      | call error _ => exact error _
    · cases frame with
      | touching walk dep => exact ih h.2.2.2 hrest
      | calling caller' => exact ih h.2.2 hrest

namespace Proceeds

/-- The slot that was asked for is none of those that wait. -/
theorem asked_not_mem (h : w.Proceeds p use same t root e) (hfetch : ∀ i ∈ w.active, e.control ≠ .fetch i) :
    asked root e.frames ∉ e.frames.map Frame.slot := by
  obtain ⟨control, frames⟩ := e
  have hnodup := h.nodup
  have hknows := h.stands.control
  have hactive := h.stands.active
  cases control with
  | fetch i =>
    obtain rfl : i = asked root frames := hknows
    intro hmem
    refine hfetch _ ?_ rfl
    rw [hactive]
    simpa [held, Control.slot?] using hmem
  | walk walk =>
    obtain ⟨hslot, -⟩ := hknows
    exact hslot ▸ (List.nodup_cons.1 hnodup).1
  | compute i r =>
    obtain ⟨hslot, -⟩ := hknows
    exact hslot ▸ (List.nodup_cons.1 hnodup).1
  | body a b =>
    obtain ⟨hslot, -⟩ := hknows
    exact hslot ▸ (List.nodup_cons.1 hnodup).1
  | answer r =>
    cases r with
    | error error => exact absurd rfl (h.unfailed error)
    | ok stamped =>
      -- the answer is valid now, and what waits is not
      obtain ⟨m, hm, -, hverified⟩ := hknows
      exact fun hmem => h.stale _ hmem m hm hverified

/-- What is in progress is not valid now. -/
theorem not_current (hp : p.Pure use same False) (h : w.Proceeds p use same t root e) {i : SlotId}
    (hheld : i ∈ e.held) {label : Label} {key : Key} (hi : w.node? i = some (p.node label key)) :
    ¬w.Current i := by
  rintro (hinput | ⟨m, hm, hverified⟩)
  · cases (h.fair.tidy.kind?_node hp.consistent hi).symm.trans hinput
  · exact h.stale i hheld m hm hverified

/-- A call fails that every caller hands on. -/
theorem failing (htr : ∀ label key, Transparent ((p label).body key))
    (h : w.Proceeds p use same t root e) (error : QueryError) :
    Failing ⟨.answer (.error error), e.frames⟩ :=
  .answer fun _ hmem => h.stands.frames.hands_on htr hmem

/-! ## The outcomes of a step -/

section Outcomes

variable (hp : p.Pure use same False) (htr : ∀ label key, Transparent ((p label).body key))

include htr in
theorem onward_fetch {i : SlotId} (h : w.Proceeds p use same t root ⟨.fetch i, frames⟩) :
    ∃ e' w', Evaluation.step p t ⟨.fetch i, frames⟩ w = .running e' w' ∧
      Onward p use same w ⟨.fetch i, frames⟩ e' w' := by
  have hfetch := World.fetch_spec (p := p) h.fair.memoize t i
  refine ⟨⟨(w.fetch p t i).1, frames⟩, (w.fetch p t i).2, rfl, ?_⟩
  generalize w.fetch p t i = out at hfetch
  cases hfetch with
  | hit memo verified quiet _ => exact .hits memo verified quiet
  | cycle _ _ quiet _ => exact .fails (h.failing htr _) quiet
  | walk memo stale outside quiet _ => exact .walks memo stale outside quiet
  | compute memo outside quiet _ => exact .computes memo outside quiet

/-- A dependency was brought up to date. -/
theorem onward_touched (h : w.Proceeds p use same t root e) {walk : Walk} {dep : SlotId}
    (hbrought : Brought w walk dep frames e)
    (hstep : e.step p t w = resume frames (w.touched t walk dep (w.changedAt dep))) :
    ∃ e' w', e.step p t w = .running e' w' ∧ Onward p use same w e e' w' := by
  have htouched := w.touched_spec t walk dep (w.changedAt dep)
  rw [hstep]
  refine ⟨_, _, rfl, ?_⟩
  generalize w.touched t walk dep (w.changedAt dep) = out at htouched
  cases htouched with
  | cancelled cancelled => exact absurd cancelled h.uncancelled
  | changed changed quiet _ => exact .finds hbrought changed quiet
  | unchanged unchanged => exact .passes hbrought unchanged

include hp in
theorem onward_walk {walk : Walk} (h : w.Proceeds p use same t root ⟨.walk walk, frames⟩) :
    ∃ e' w', Evaluation.step p t ⟨.walk walk, frames⟩ w = .running e' w' ∧
      Onward p use same w ⟨.walk walk, frames⟩ e' w' := by
  obtain ⟨hslot, hrevision, done, hrechecks⟩ := h.stands.control
  obtain ⟨slot, revision, verifiedAt, rest⟩ := walk
  obtain rfl : slot = asked root frames := hslot
  obtain rfl : revision = w.revision := hrevision
  cases rest with
  | nil =>
    obtain ⟨label, key, hi⟩ := h.stands.node
    have hverify := World.verify_spec hp h.fair.tidy
      ⟨asked root frames, w.revision, verifiedAt, []⟩ hi
      fun o ho => (h.fair.reliable _ o ho).type hp hi
    refine ⟨_, _, rfl, ?_⟩
    generalize w.verify ⟨asked root frames, w.revision, verifiedAt, []⟩ = out at hverify
    cases hverify with
    | kept memo commits => exact .confirms rfl memo hi commits
    | dropped memo =>
      obtain ⟨m, _, _, _, hrechecked, -⟩ := hrechecks
      exact nomatch hrechecked.memo.symm.trans memo
  | cons dep rest =>
    by_cases hderived : w.kind? dep = some .derived
    · have hstep : Evaluation.step p t ⟨.walk ⟨asked root frames, w.revision, verifiedAt, dep :: rest⟩,
            frames⟩ w =
          .running ⟨.fetch dep, .touching ⟨asked root frames, w.revision, verifiedAt, rest⟩ dep ::
            frames⟩ w := by
        simp only [Evaluation.step, stepWalk, if_pos hderived]
      exact ⟨_, w, hstep, @Onward.visits p use same w ⟨_, _, verifiedAt, rest⟩ dep frames⟩
    · have hinput : w.kind? dep = some .input := by
        obtain ⟨m, label, key, reads, hrechecked, -⟩ := hrechecks
        obtain ⟨read, hmem, rfl⟩ := hrechecked.read_of_mem
          (List.mem_append_right done (List.mem_cons_self : dep ∈ dep :: rest))
        rw [h.fair.tidy.kind? (hrechecked.placed read hmem).node] at hderived ⊢
        cases hkind : (use (read.source.node p).query).kind with
        | input => rfl
        | derived => exact absurd (congrArg some hkind) hderived
      have hbrought : Brought w ⟨asked root frames, w.revision, verifiedAt, rest⟩ dep frames
          ⟨.walk ⟨asked root frames, w.revision, verifiedAt, dep :: rest⟩, frames⟩ := .input hinput
      refine h.onward_touched hbrought ?_
      simp only [Evaluation.step, stepWalk, if_neg hderived]

include hp in
theorem onward_compute {i : SlotId} {r : Revision}
    (h : w.Proceeds p use same t root ⟨.compute i r, frames⟩) :
    ∃ e' w', Evaluation.step p t ⟨.compute i r, frames⟩ w = .running e' w' ∧
      Onward p use same w ⟨.compute i r, frames⟩ e' w' := by
  obtain ⟨label, key, hi⟩ := h.stands.node
  obtain ⟨hslot, -⟩ := h.stands.control
  rw [← hslot] at hi
  have hcompute := World.compute_spec hp.consistent h.fair.tidy t hi r
  refine ⟨_, _, rfl, ?_⟩
  generalize w.compute p t i r = out at hcompute
  cases hcompute with
  | cancelled cancelled => exact absurd cancelled h.uncancelled
  | run quiet _ => exact .starts hi quiet

include hp htr in
theorem onward_body {a : Activation} {b : Body}
    (h : w.Proceeds p use same t root ⟨.body a b, frames⟩) :
    ∃ e' w', Evaluation.step p t ⟨.body a b, frames⟩ w = .running e' w' ∧
      Onward p use same w ⟨.body a b, frames⟩ e' w' := by
  obtain ⟨hslot, hrevision, label, key, reads, htracks, hdeps⟩ := h.stands.control
  have ht := h.fair.tidy
  have hlawful := htracks.lawful
  cases b with
  | done r =>
    obtain ⟨n, r', -, hagree⟩ := htracks.result hp ht
    have hfinish := World.finish_spec hp ht h.fair.memoize t htracks.node
      (fun o ho => (h.fair.reliable _ o ho).type hp htracks.node) r fun v hv => by
        subst hv
        obtain ⟨_, _, halike⟩ := hagree.of_ok_left
        exact halike.1
    refine ⟨_, _, rfl, ?_⟩
    generalize w.finish t a r = out at hfinish
    cases hfinish with
    | failed quiet _ => exact .fails (h.failing htr _) quiet
    | cancelled cancelled => exact absurd cancelled h.uncancelled
    | kept _ value verifiedAt deps commits =>
      subst value
      exact .keeps htracks.node (verifiedAt.trans hrevision) deps commits
  | perform op next =>
    cases hlawful with
    | @read query valueType key' next _ typed _ =>
      obtain ⟨i, w', reply, hread, hfinds, -⟩ := World.read_spec ht t a typed
      have hreads : ∀ dep ∈ recordOnce i a.deps, dep ∈ a.deps ∨ w'.kind? dep = some .input := by
        intro dep hmem
        rcases mem_recordOnce.1 hmem with hmem | rfl
        · exact .inl hmem
        · refine .inr ?_
          rw [hfinds.tidy.kind? hfinds.found]
          exact congrArg some (congrArg Usage.kind typed)
      refine ⟨⟨.body (a.reading i) (next reply), frames⟩, w', ?_,
        .goesOn hfinds.toGrows hfinds.tidy hreads⟩
      simp only [Evaluation.step, stepBody, World.perform, hread]
    | check _ => exact ⟨_, w, rfl, .goesOn (a := a) (.refl w) ht fun _ hmem => .inl hmem⟩
    | allocate _ =>
      exact ⟨_, _, rfl, .goesOn (a := a) w.quiet_allocate.grows (w.quiet_allocate.tidy ht)
        fun _ hmem => .inl hmem⟩
  | call mode label' key' next =>
    cases hlawful with
    | call typed _ _ =>
      obtain ⟨i, w', hcall, hfinds⟩ := stepCall_spec hp.consistent ht a mode typed next frames
      exact ⟨_, w', hcall, .calls hfinds⟩
  | yield next =>
    cases hlawful with
    | yield allowed => exact allowed.elim

/-- Without frames, an answer is the end. -/
theorem onward_answer {result : Except QueryError Stamped} {frame : Frame}
    (h : w.Proceeds p use same t root ⟨.answer result, frame :: frames⟩) :
    ∃ e' w', Evaluation.step p t ⟨.answer result, frame :: frames⟩ w = .running e' w' ∧
      Onward p use same w ⟨.answer result, frame :: frames⟩ e' w' := by
  cases result with
  | error error => exact absurd rfl (h.unfailed error)
  | ok stamped =>
    obtain ⟨m, hm, rfl, hverified⟩ := h.stands.control
    cases frame with
    | touching walk dep =>
      have hm : w.memo? dep = some m := hm
      refine h.onward_touched (.derived hm hverified) ?_
      rw [System.changedAt_of_memo hm]
      rfl
    | calling caller =>
      refine ⟨_, w, ?_, .returns hm hverified⟩
      simp only [Evaluation.step, stepAnswer, World.check_of_not_mem h.uncancelled]
      rfl

end Outcomes

end Proceeds

end World

/-! ## The next point -/

section Next

variable {w w' : World} {root : SlotId} {e e' : Evaluation}

theorem Evaluation.Brought.held_eq {walk : Walk} {dep : SlotId} {frames : List Frame}
    (h : Brought w walk dep frames e) : e.held = walk.slot :: frames.map Frame.slot := by
  cases h <;> rfl

/-- A step that is not the failure of a call keeps what is in progress or enters a slot that is not
    valid now, and leaves all memos alone; or it ends the innermost slot in progress and makes its
    memo valid now. -/
theorem Evaluation.Onward.effect (h : Onward p use same w e e' w') (ht : Tidy p use w.toSystem) :
    e'.Failing ∧ w.Quiet w' ∨
    (w.Grows w' ∧ Tidy p use w'.toSystem ∧ (e'.held = e.held ∨
      ∃ i, e.control = .fetch i ∧ i ∉ w.active ∧ e'.held = i :: e.held ∧
        ∀ m, w.memo? i = some m → m.verifiedAt ≠ w.revision)) ∨
    ∃ i m label key, e.held = i :: e'.held ∧ w.node? i = some (p.node label key) ∧
      w.Commits p use (same (p label).id) i m w' ∧ m.verifiedAt = w.revision := by
  cases h with
  | hits _ _ quiet => exact .inr (.inl ⟨quiet.grows, quiet.tidy ht, .inl rfl⟩)
  | @walks i m _ _ memo stale outside quiet =>
    refine .inr (.inl ⟨quiet.grows, quiet.tidy ht, .inr ⟨i, rfl, outside, rfl, fun m' hm' => ?_⟩⟩)
    rwa [← Option.some.inj (memo.symm.trans hm')]
  | @computes i _ _ memo outside quiet =>
    exact .inr (.inl ⟨quiet.grows, quiet.tidy ht, .inr ⟨i, rfl, outside, rfl, by simp [memo]⟩⟩)
  | visits => exact .inr (.inl ⟨.refl w, ht, .inl rfl⟩)
  | passes brought => exact .inr (.inl ⟨.refl w, ht, .inl brought.held_eq.symm⟩)
  | finds brought _ quiet =>
    exact .inr (.inl ⟨quiet.grows, quiet.tidy ht, .inl brought.held_eq.symm⟩)
  | confirms _ _ node commits => exact .inr (.inr ⟨_, _, _, _, rfl, node, commits, rfl⟩)
  | starts _ quiet => exact .inr (.inl ⟨quiet.grows, quiet.tidy ht, .inl rfl⟩)
  | goesOn grows tidy _ => exact .inr (.inl ⟨grows, tidy, .inl rfl⟩)
  | calls found => exact .inr (.inl ⟨found.toGrows, found.tidy, .inl rfl⟩)
  | returns => exact .inr (.inl ⟨.refl w, ht, .inl rfl⟩)
  | keeps node verifiedAt _ commits =>
    exact .inr (.inr ⟨_, _, _, _, rfl, node, commits, verifiedAt⟩)
  | fails failing quiet => exact .inl ⟨failing, quiet⟩

/-- What is valid now stays so. -/
theorem Evaluation.Onward.current (h : Onward p use same w e e' w') (ht : Tidy p use w.toSystem)
    {i : SlotId} (hi : w.Current i) : w'.Current i := by
  rcases h.effect ht with ⟨-, hquiet⟩ | ⟨hgrows, ht', -⟩ | ⟨j, m, _, _, -, -, hcommits, hverified⟩
  · exact hi.grows ht (hquiet.tidy ht) hquiet.grows
  · exact hi.grows ht ht' hgrows
  · exact hi.commits ht hcommits hverified

/-- What is in progress is not valid after the step either. -/
theorem Evaluation.Onward.stale (h : Onward p use same w e e' w') (ht : Tidy p use w.toSystem)
    (hnodup : e.held.Nodup)
    (hstale : ∀ i ∈ e.held, ∀ m, w.memo? i = some m → m.verifiedAt ≠ w.revision) :
    e'.Failing ∧ w.Quiet w' ∨
      ∀ i ∈ e'.held, ∀ m, w'.memo? i = some m → m.verifiedAt ≠ w'.revision := by
  rcases h.effect ht with hfails | ⟨hgrows, -, hheld⟩ | ⟨i, m, label, key, hheld, -, hcommits, -⟩
  · exact .inl hfails
  · refine .inr fun j hj m hm => ?_
    rw [hgrows.memo] at hm
    rw [hgrows.revision]
    rcases hheld with hheld | ⟨i, -, -, hheld, hi⟩
    · exact hstale j (hheld ▸ hj) m hm
    · rw [hheld] at hj
      rcases List.mem_cons.1 hj with rfl | hj
      · exact hi m hm
      · exact hstale j hj m hm
  · refine .inr fun j hj m' hm' => ?_
    rw [hheld] at hnodup
    have hne : j ≠ i := fun heq => (List.nodup_cons.1 hnodup).1 (heq ▸ hj)
    rw [hcommits.memo_other j hne] at hm'
    rw [hcommits.revision]
    exact hstale j (hheld ▸ List.mem_cons_of_mem i hj) m' hm'

end Next

namespace World

variable {w w' : World} {root : SlotId} {e e' : Evaluation}

namespace Proceeds

/-- Every step before the end goes onward. -/
theorem onward (hp : p.Pure use same False) (htr : ∀ label key, Transparent ((p label).body key))
    (h : w.Proceeds p use same t root e) (hnext : e.Next p t w e' w') :
    Onward p use same w e e' w' := by
  have hsome (hstep : ∃ e₁ w₁, e.step p t w = .running e₁ w₁ ∧ Onward p use same w e e₁ w₁) :
      Onward p use same w e e' w' := by
    obtain ⟨e₁, w₁, hstep, honward⟩ := hstep
    obtain ⟨rfl, rfl⟩ := hnext.eq_of_running hstep
    exact honward
  obtain ⟨control, frames⟩ := e
  cases control with
  | fetch i => exact hsome (h.onward_fetch htr)
  | walk walk => exact hsome (h.onward_walk hp)
  | compute i r => exact hsome (h.onward_compute hp)
  | body a b => exact hsome (h.onward_body hp htr)
  | answer result =>
    cases frames with
    | nil => simp [Next, Evaluation.step, stepAnswer] at hnext
    | cons frame frames => exact hsome h.onward_answer

/-- A revalidation takes no wrong shortcut. -/
theorem straight (htr : ∀ label key, Transparent ((p label).body key)) (w : World)
    (e : Evaluation) : ConfirmsRightly p w e ∧ FailsRightly p w e := by
  refine ⟨?_, fun _ _ _ _ _ _ _ _ hnot => absurd (htr _ _) hnot⟩
  rintro walk m - - - ⟨label, key, reads, -, hfollows, -, read, hmem, hfailed⟩
  exact absurd hfailed (hfollows.not_failed (htr label key) hmem)

/-- An evaluation that goes on goes on as it should, or a call fails. -/
theorem next (hp : p.Pure use same False) (htr : ∀ label key, Transparent ((p label).body key))
    (h : w.Proceeds p use same t root e) (hnext : e.Next p t w e' w') :
    w'.Proceeds p use same t root e' ∧ w.Spares p use same [] w' ∨
      e'.Failing ∧ w.Quiet w' := by
  have honward := h.onward hp htr hnext
  rcases honward.stale h.fair.tidy h.nodup h.stale with hfails | hstale
  · exact .inr hfails
  by_cases hfailing : e'.Failing ∧ w.Quiet w'
  · exact .inr hfailing
  refine .inl ?_
  have hfetch : ∀ i ∈ w.active, e.control ≠ .fetch i := by
    rintro i hi hcontrol
    obtain ⟨control, frames⟩ := e
    obtain rfl : control = .fetch i := hcontrol
    cases honward with
    | hits memo verified _ =>
      rw [h.stands.active, List.mem_reverse] at hi
      exact h.stale i hi _ memo verified
    | walks _ _ outside _ => exact outside hi
    | computes _ outside _ => exact outside hi
    | passes brought => cases brought
    | finds brought => cases brought
    | fails failing quiet => exact hfailing ⟨failing, quiet⟩
  obtain ⟨hconfirms, hright⟩ := straight htr w e
  have hstands := step_stands hp h.fair h.uncancelled (h.asked_not_mem hfetch) h.stands hconfirms
    hright
  have hstacked : w.Stacked (e.held ++ []) := by
    refine ⟨by rw [List.append_nil]; exact h.nodup, ?_⟩
    rw [h.stands.active, List.append_nil]
    exact e.held.reverse_perm
  have hnodup := (hnext.moves.stacked hstacked).nodup
  rw [List.append_nil] at hnodup
  rcases hnext with hstep | hstep
  · rw [hstep] at hstands
    obtain ⟨hfair', hstands', hspares⟩ := hstands
    refine ⟨⟨hfair', hspares.cancelled ▸ h.uncancelled, hstands', ?_, hnodup, hstale⟩, hspares⟩
    intro error herror
    cases honward with
    | fails failing quiet => exact hfailing ⟨failing, quiet⟩
    | _ => cases herror
  · rw [hstep] at hstands
    exact hstands.elim

/-- A request begins in a fair and idle world. -/
theorem request (hfair : w.Fair p use same) (huncancelled : t ∉ w.cancelled) (hidle : w.active = [])
    {label : Label} {key : Key} (hi : w.node? root = some (p.node label key)) :
    w.Proceeds p use same t root (.request root) where
  fair := hfair
  uncancelled := huncancelled
  stands := ⟨hidle, ⟨label, key, hi⟩, rfl, trivial⟩
  unfailed := nofun
  nodup := .nil
  stale := fun _ hnone => absurd hnone List.not_mem_nil

end Proceeds

/-- An evaluation on its own goes on, or a call of it has failed. -/
def Carries (p : Program) (use : Usages) (same : Indistinct) (t : Token) (w : World) (root : SlotId)
    (e : Evaluation) : Prop :=
  w.Proceeds p use same t root e ∨ e.Failing ∧ w.Fair p use same

theorem Carries.fair (h : w.Carries p use same t root e) : w.Fair p use same :=
  h.elim (·.fair) (·.2)

theorem Carries.next (hp : p.Pure use same False)
    (htr : ∀ label key, Transparent ((p label).body key)) (h : w.Carries p use same t root e)
    (hnext : e.Next p t w e' w') : w'.Carries p use same t root e' ∧ w.Extends w' := by
  rcases h with hproceeds | ⟨hfailing, hfair⟩
  · rcases hproceeds.next hp htr hnext with ⟨hproceeds', hspares⟩ | ⟨hfailing, hquiet⟩
    · exact ⟨.inl hproceeds', hspares.toExtends⟩
    · exact ⟨.inr ⟨hfailing, hproceeds.fair.quiet hquiet⟩, hquiet.grows.toExtends⟩
  · obtain ⟨hfailing', hquiet⟩ := hfailing.next hnext
    exact ⟨.inr ⟨hfailing', hfair.quiet hquiet⟩, hquiet.grows.toExtends⟩

end World

end RedGreen
