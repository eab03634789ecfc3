import RedGreen.Proofs.Memoization

set_option autoImplicit false

/-! # Requests in sound worlds end well

The induction on the evaluation of a body: each way in which an evaluation goes on is a lemma for
runs and a lemma for revalidations. -/

namespace RedGreen

open Evaluation

variable {p : Program} {use : Usages} {same : Indistinct} {inputs : Inputs} {t : Token}
  {stack : List Node}

/-- What a transparent body goes on with after an error is that error. -/
theorem Evaluates.error_of_transparent {τ : ValueType} {next next' : Except QueryError Value → Body}
    {e : QueryError} {r : Except QueryError Value} (h : Evaluates p inputs stack (next' (.error e)) r)
    (hlawful : Lawful p use same False τ (next (.error e)) (next' (.error e)))
    (herror : next (.error e) = .done (.error e)) : r = .error e := by
  rw [herror] at hlawful
  generalize next' (.error e) = c at h hlawful
  cases hlawful with
  | done hagree =>
    rw [hagree.of_error_left] at h
    cases h
    rfl

/-! ## Requests -/

section Requests

variable {w : World} {i : SlotId} {label : Label} {key : Key} {r : Except QueryError Value}

/-- A request for a node that is not in progress ends as the evaluation of its body does. -/
theorem ends_fetch (hp : p.Pure use same False) (htransparent : Transparent ((p label).body key))
    (hruns : RunsWell p use same t inputs (stack ++ [p.node label key]) ((p label).body key) r)
    (hwalks : WalksWell p use same t inputs (stack ++ [p.node label key]) ((p label).body key) r)
    (heval : Evaluates p inputs (stack ++ [p.node label key]) ((p label).body key) r)
    (hshorter : Shorter p inputs (stack ++ [p.node label key]) ((p label).body key))
    (hs : w.Sound p use same) (hinputs : w.inputs = inputs) (huncancelled : t ∉ w.cancelled)
    (hstack : w.InProgress stack) (hi : w.node? i = some (p.node label key))
    (typed : key.type = (use (p label).id).keyType) (hnot : p.node label key ∉ stack)
    (hstale : ∀ j ∈ w.active, ∀ m, w.memo? j = some m → m.verifiedAt ≠ w.revision)
    (frames : List Frame) : Ends p use same t w w.active i (.fetch i) frames r := by
  have hout : i ∉ w.active := fun hin => hnot ((hstack.mem_iff hs.tidy hi).1 hin)
  have hcomputing {w₁ : World} (hquiet : w.Quiet w₁) (hactive : w₁.active = w.active ++ [i])
      (hself : ∀ m, w.memo? i = some m → m.verifiedAt ≠ w.revision) :
      w₁.Computing p use same t inputs (stack ++ [p.node label key]) w.active i label key := by
    refine ⟨hs.quiet hquiet, (hquiet.grows.inputs hs.tidy (hquiet.tidy hs.tidy)).trans hinputs,
      hquiet.cancelled ▸ huncancelled, hstack.enter hi hquiet.grows.toExtends hactive, hactive, hout,
      hquiet.grows.node i _ hi, typed, ?_⟩
    intro j hj m hm
    rw [hquiet.grows.memo] at hm
    rw [hquiet.revision]
    rcases List.mem_append.1 hj with hj | hj
    · exact hstale j hj m hm
    · exact hself m (List.mem_singleton.1 hj ▸ hm)
  have hfetch := World.fetch_spec hs.memoize t i (p := p)
  generalize hfetched : w.fetch p t i = out at hfetch
  have hstep : Evaluation.step p t ⟨.fetch i, frames⟩ w = .running ⟨out.1, frames⟩ out.2 := by
    simp only [Evaluation.step, hfetched]
    rfl
  cases hfetch with
  | @hit m w₁ hmemo hverified quiet hactive =>
    obtain ⟨n, v, hn, halike⟩ := hs.right hp hi typed hmemo hverified
    rw [hinputs] at hn
    obtain rfl := heval.unique (hshorter.evaluates hp hn)
    refine ⟨.ok m.toStamped, w₁, .of_step hstep, quiet.keeps hs w.active, .ok halike.2, hactive, ?_⟩
    rintro stamped hstamped
    obtain rfl := Except.ok.inj hstamped
    exact ⟨m, (quiet.grows.memo i).trans hmemo, rfl, hverified.trans quiet.revision.symm⟩
  | cycle _ inside => exact absurd inside hout
  | @walk m w₁ hmemo stale _ quiet hactive =>
    have hcomp := hcomputing quiet hactive fun m' hm' => by
      rwa [← Option.some.inj (hmemo.symm.trans hm')]
    have hmemo₁ := (quiet.grows.memo i).trans hmemo
    obtain ⟨reads, hfollows, hdeps, hseen⟩ :=
      (hcomp.sound.justified i m hmemo₁).run_of hp hcomp.node
    refine .head hstep (quiet.keeps hs w.active) ?_
    rw [← quiet.revision]
    refine hwalks w₁ w.active i label key m _ frames [] reads m.deps hcomp hmemo₁ (.refl _) hfollows
      hdeps rfl hseen (fun _ _ hread => absurd hread List.not_mem_nil) (hp.lawful label key typed)
      htransparent hshorter ?_
    intro w₂ hw₂ hrevision
    rw [← hrevision]
    exact hruns.compute hp htransparent hshorter hw₂ frames
  | @compute w₁ hmemo _ quiet hactive =>
    have hcomp := hcomputing quiet hactive (by simp [hmemo])
    refine .head hstep (quiet.keeps hs w.active) ?_
    rw [← quiet.revision]
    exact hruns.compute hp htransparent hshorter hcomp frames

end Requests

/-! ## Runs -/

theorem runs_done (hp : p.Pure use same False) (r : Except QueryError Value) :
    RunsWell p use same t inputs stack (.done r) r := by
  intro w active a label key b frames reads h hrevision hfollows hdeps hseen hlawful _ _
  cases hlawful with
  | @done r' _ hagree =>
    cases hagree with
    | error e => exact ends_of_error h frames hp e
    | @ok v v' halike =>
      have hfinish := World.finish_spec hp h.sound.tidy h.sound.memoize t h.node (h.type_memo hp)
        (.ok v) fun _ hv => Except.ok.inj hv ▸ halike.1
      generalize hout : w.finish t a (.ok v) = out at hfinish
      cases hfinish with
      | cancelled cancelled => exact absurd cancelled h.uncancelled
      | @kept _ m w' _ value verifiedAt deps commits =>
        have hverified : m.verifiedAt = w.revision := verifiedAt.trans hrevision
        refine ⟨.ok m.toStamped, w', .of_step ?_, commits.keeps hp h.sound h.node h.typed hverified
          (value ▸ hfollows) (deps.trans hdeps) hseen h.outside, .ok ?_, ?_, ?_⟩
        · simp only [Evaluation.step, stepBody, hout]
          rfl
        · show m.value.Alike v'
          rw [value]
          exact halike.2
        · rw [commits.active, h.active_eq, dropInnermost_concat]
        · rintro stamped hstamped
          obtain rfl := Except.ok.inj hstamped
          exact ⟨m, commits.memo_self, rfl, hverified.trans commits.revision.symm⟩

theorem runs_read {query : QueryId} {valueType : ValueType} {key' : Key}
    {next : Except QueryError Value → Body} {r : Except QueryError Value}
    (ih : RunsWell p use same t inputs stack (next (inputs.answer query key')) r) :
    RunsWell p use same t inputs stack (.perform (.read query valueType key') next) r := by
  intro w active a label key b frames reads h hrevision hfollows hdeps hseen hlawful htransparent
    hshorter
  cases hlawful with
  | @read _ _ _ next' _ typed hnext =>
    cases htransparent with
    | perform htransparent =>
      obtain ⟨j, w₁, reply, hread, hfinds, hreply⟩ := World.read_spec h.sound.tidy t a typed
      have hkeeps := hfinds.keeps h.sound (active ++ [a.slot])
      have h₁ := h.keeps hkeeps hfinds.active
      have hagree := hreply.resolve_right fun hc => h.uncancelled hc.1
      have hnew : w₁.Seen p use same w₁.revision ⟨j, .input query key', reply⟩ :=
        .of_input hfinds typed hagree _
      rw [h₁.inputs_eq] at hagree
      refine .head ?_ (hkeeps.subset (List.subset_append_left _ _))
        (ih w₁ active (a.reading j) label key _ frames (reads ++ [⟨j, .input query key', reply⟩]) h₁
          (hrevision.trans hfinds.revision.symm) (hfollows.trans (.read j reply (.refl _))) ?_ ?_
          (hnext _ _ hagree) (htransparent _) hshorter.read)
      · simp only [Evaluation.step, stepBody, World.perform, hread]
      · rw [dependencies_concat, ← hdeps]
        rfl
      · intro read hmem
        rcases List.mem_append.1 hmem with hmem | hmem
        · rw [hfinds.revision]
          exact hkeeps.seen _ read (Nat.le_refl _) (hseen read hmem)
        · exact List.mem_singleton.1 hmem ▸ hnew

theorem runs_check {next : Except QueryError Unit → Body} {r : Except QueryError Value}
    (ih : RunsWell p use same t inputs stack (next (.ok ())) r) :
    RunsWell p use same t inputs stack (.perform .check next) r := by
  intro w active a label key b frames reads h hrevision hfollows hdeps hseen hlawful htransparent
    hshorter
  cases hlawful with
  | check hnext =>
    cases htransparent with
    | perform htransparent =>
      refine .head ?_ (.refl h.sound active) (ih w active a label key _ frames reads h hrevision ?_
        hdeps hseen (hnext _) (htransparent _) hshorter.check)
      · simp only [Evaluation.step, stepBody, World.perform, World.check_of_not_mem h.uncancelled]
      · have hstep := hfollows.trans (.check (.refl _))
        rwa [List.append_nil] at hstep

theorem runs_allocate {next : Nat → Body} {r : Except QueryError Value}
    (ih : RunsWell p use same t inputs stack (next 0) r) :
    RunsWell p use same t inputs stack (.perform .allocate next) r := by
  intro w active a label key b frames reads h hrevision hfollows hdeps hseen hlawful htransparent
    hshorter
  cases hlawful with
  | allocate hnext =>
    cases htransparent with
    | perform htransparent =>
      have hkeeps := w.quiet_allocate.keeps h.sound (active ++ [a.slot])
      refine .head rfl (hkeeps.subset (List.subset_append_left _ _))
        (ih w.allocate.2 active a label key _ frames reads (h.keeps hkeeps rfl) hrevision ?_ hdeps ?_
          (hnext w.allocate.1 0) (htransparent _) hshorter.allocate)
      · have hstep := hfollows.trans (.allocate w.allocate.1 (.refl _))
        rwa [List.append_nil] at hstep
      · exact fun read hmem => hkeeps.seen _ read (Nat.le_refl _) (hseen read hmem)

theorem runs_cycle (hp : p.Pure use same False) {mode : CallMode} {label' : Label} {key' : Key}
    {next : Except QueryError Value → Body} {r : Except QueryError Value}
    (hin : p.node label' key' ∈ stack)
    (heval : Evaluates p inputs stack (next (.error (cycleError stack (p.node label' key')))) r) :
    RunsWell p use same t inputs stack (.call mode label' key' next) r := by
  intro w active a label key b frames reads h hrevision hfollows hdeps hseen hlawful htransparent
    hshorter
  cases hlawful with
  | @call _ _ _ next' _ typed _ hnext =>
    cases htransparent with
    | call error _ =>
      obtain ⟨j, w₁, hcall, hfinds⟩ := stepCall_spec hp.consistent h.sound.tidy a mode typed next' frames
      have hkeeps := hfinds.keeps h.sound (active ++ [a.slot])
      have h₁ := h.keeps hkeeps hfinds.active
      have hactive : j ∈ w₁.active := (h₁.inProgress.mem_iff hfinds.tidy hfinds.found).2 hin
      obtain rfl := heval.error_of_transparent (hnext _ _ (.error _)) (error _)
      have hfetch := World.fetch_spec h₁.sound.memoize t j (p := p)
      generalize hfetched : w₁.fetch p t j = out at hfetch
      cases hfetch with
      | hit memo verified => exact absurd verified (h₁.stale j (h₁.active_eq ▸ hactive) _ memo)
      | walk _ _ outside => exact absurd hactive outside
      | compute _ outside => exact absurd hactive outside
      | @cycle w₂ _ _ quiet hactive₂ =>
        rw [h₁.inProgress.path_eq hfinds.found] at hfetched
        have hkeeps₂ := quiet.keeps h₁.sound (active ++ [a.slot])
        have h₂ := h₁.keeps hkeeps₂ hactive₂
        have hback := step_answer h₂.uncancelled (p := p)
          (.error (cycleError stack (p.node label' key'))) ⟨a.reading j, mode, j, next'⟩ frames
        have hends := ends_of_error (a := a.reading j) h₂ frames hp
          (cycleError stack (p.node label' key'))
        rw [← error] at hends
        refine .of_reaches (.head hcall (.head ?_ (.of_step hback)))
          ((hkeeps.trans hkeeps₂).subset (List.subset_append_left _ _)) hends
        simp only [Evaluation.step, hfetched]
        rfl

theorem runs_call (hp : p.Pure use same False)
    (htr : ∀ label key, Transparent ((p label).body key)) {mode : CallMode} {label' : Label}
    {key' : Key} {next : Except QueryError Value → Body} {r reply : Except QueryError Value}
    (hnot : p.node label' key' ∉ stack)
    (hcallee : Evaluates p inputs (stack ++ [p.node label' key']) ((p label').body key') reply)
    (heval : Evaluates p inputs stack (next reply) r)
    (ihRuns : RunsWell p use same t inputs (stack ++ [p.node label' key']) ((p label').body key')
      reply)
    (ihWalks : WalksWell p use same t inputs (stack ++ [p.node label' key']) ((p label').body key')
      reply)
    (ih : RunsWell p use same t inputs stack (next reply) r) :
    RunsWell p use same t inputs stack (.call mode label' key' next) r := by
  intro w active a label key b frames reads h hrevision hfollows hdeps hseen hlawful htransparent
    hshorter
  cases hlawful with
  | @call _ _ _ next' _ typed _ hnext =>
    cases htransparent with
    | call error ok =>
      obtain ⟨j, w₁, hcall, hfinds⟩ := stepCall_spec hp.consistent h.sound.tidy a mode typed next' frames
      have hkeeps := hfinds.keeps h.sound (active ++ [a.slot])
      have h₁ := h.keeps hkeeps hfinds.active
      obtain ⟨result, w₂, hreach, hcompletes⟩ := ends_fetch hp (htr label' key') ihRuns ihWalks
        hcallee (hshorter.enter hp) h₁.sound h₁.inputs_eq h₁.uncancelled h₁.inProgress hfinds.found
        typed hnot (h₁.active_eq ▸ h₁.stale)
        (.calling ⟨a.reading j, mode, j, next'⟩ :: frames)
      have hkeeps₂ : w₁.Keeps p use same (active ++ [a.slot]) w₂ :=
        h₁.active_eq ▸ hcompletes.toKeeps
      have h₂ := h₁.keeps hkeeps₂ hcompletes.active_eq
      have hthere := hkeeps.trans hkeeps₂
      have hback := step_answer h₂.uncancelled (p := p) result ⟨a.reading j, mode, j, next'⟩ frames
      refine .of_reaches (.head hcall (hreach.trans (.of_step hback)))
        (hthere.subset (List.subset_append_left _ _)) ?_
      have hagree := hcompletes.agree
      have hkept := hcompletes.kept
      cases hagree with
      | error e =>
        have hends := ends_of_error (a := a.reading j) h₂ frames hp e
        rw [← error] at hends
        rwa [heval.error_of_transparent (hnext _ _ (.error e)) (error e)]
      | @ok stamped v halike =>
        obtain ⟨m, hm, rfl, hverified⟩ := hkept stamped rfl
        have htype : m.value.type = (use (p label').id).valueType := by
          rw [hp.valueType]
          exact (hcompletes.sound.justified j m hm).type hp (hcompletes.node _ _ hfinds.found)
        have hsame := hp.alike (p label').id _ _ ⟨htype, halike⟩
        have hnew := World.Seen.of_memo hp h₂.sound.tidy (hcompletes.node _ _ hfinds.found) hm
          (h₂.sound.trusted hp hm) (Nat.le_of_eq hverified.symm)
          fun _ => hp.alike _ _ _ (Value.alikeOf_refl htype)
        refine ih w₂ active (a.reading j) label key _ frames
          (reads ++ [⟨j, .derived label' key', .ok m.value⟩]) h₂ ?_
          (hfollows.trans (.call j (.ok m.value) (.refl _))) ?_ ?_ (hnext _ _ (.ok hsame))
          (ok m.value) (hshorter.next hp hcallee)
        · exact hrevision.trans hthere.revision.symm
        · rw [dependencies_concat, ← hdeps]
          rfl
        · intro read hmem
          rcases List.mem_append.1 hmem with hmem | hmem
          · rw [hthere.revision]
            exact hthere.seen _ read (Nat.le_refl _) (hseen read hmem)
          · exact List.mem_singleton.1 hmem ▸ hnew

/-! ## Revalidations -/

theorem walks_done (hp : p.Pure use same False) (r : Except QueryError Value) :
    WalksWell p use same t inputs stack (.done r) r := by
  intro w active i label key m b frames before after rest h hmemo hbefore hafter hdeps hrest hseen
    hnow hlawful _ _ _
  cases hlawful with
  | @done r' _ hagree =>
    cases hafter
    obtain ⟨v, rfl, halike⟩ := hagree.of_ok_left
    rw [List.append_nil] at hdeps hnow
    obtain rfl : rest = [] := by
      rw [hdeps] at hrest
      exact List.self_eq_append_right.1 hrest
    have hverify := World.verify_spec hp h.sound.tidy ⟨i, w.revision, m.verifiedAt, []⟩
      h.node (h.type_memo hp)
    generalize hout : w.verify ⟨i, w.revision, m.verifiedAt, []⟩ = out at hverify
    cases hverify with
    | dropped memo => cases memo.symm.trans hmemo
    | @kept m' w' memo commits =>
      obtain rfl := Option.some.inj (hmemo.symm.trans memo)
      refine ⟨.ok m.toStamped, w', .of_step ?_, commits.keeps hp h.sound h.node h.typed rfl hbefore
        hdeps (fun read hmem => hnow read hmem (mem_dependencies.2 ⟨read, hmem, rfl⟩)) h.outside,
        .ok halike.2, ?_, ?_⟩
      · simp only [Evaluation.step, stepWalk, hout]
        rfl
      · rw [commits.active, h.active_eq, dropInnermost_concat]
      · rintro stamped hstamped
        obtain rfl := Except.ok.inj hstamped
        exact ⟨_, commits.memo_self, rfl, commits.revision.symm⟩

theorem walks_check {next : Except QueryError Unit → Body} {r : Except QueryError Value}
    (ih : WalksWell p use same t inputs stack (next (.ok ())) r) :
    WalksWell p use same t inputs stack (.perform .check next) r := by
  intro w active i label key m b frames before after rest h hmemo hbefore hafter hdeps hrest hseen
    hnow hlawful htransparent hshorter hcompute
  cases hlawful with
  | check hnext =>
    cases htransparent with
    | perform htransparent =>
      cases hafter with
      | check hafter =>
        have hbefore' := hbefore.trans (.check (.refl _))
        rw [List.append_nil] at hbefore'
        exact ih w active i label key m _ frames before after rest h hmemo hbefore' hafter hdeps hrest
          hseen hnow (hnext _) (htransparent _) hshorter.check hcompute

theorem walks_allocate {next : Nat → Body} {r : Except QueryError Value}
    (ih : WalksWell p use same t inputs stack (next 0) r) :
    WalksWell p use same t inputs stack (.perform .allocate next) r := by
  intro w active i label key m b frames before after rest h hmemo hbefore hafter hdeps hrest hseen
    hnow hlawful htransparent hshorter hcompute
  cases hlawful with
  | allocate hnext =>
    cases htransparent with
    | perform htransparent =>
      cases hafter with
      | allocate n hafter =>
        have hbefore' := hbefore.trans (.allocate n (.refl _))
        rw [List.append_nil] at hbefore'
        exact ih w active i label key m _ frames before after rest h hmemo hbefore' hafter hdeps hrest
          hseen hnow (hnext n 0) (htransparent _) hshorter.allocate hcompute

theorem walks_read (hp : p.Pure use same False) {query : QueryId} {valueType : ValueType}
    {key' : Key} {next : Except QueryError Value → Body} {r : Except QueryError Value}
    (ih : WalksWell p use same t inputs stack (next (inputs.answer query key')) r) :
    WalksWell p use same t inputs stack (.perform (.read query valueType key') next) r := by
  intro w active i label key m b frames before after rest h hmemo hbefore hafter hdeps hrest hseen
    hnow hlawful htransparent hshorter hcompute
  cases hlawful with
  | @read _ _ _ next' _ typed hnext =>
    cases htransparent with
    | perform htransparent =>
      cases hafter with
      | @read _ _ _ _ _ after j reply hafter =>
        have hkind : (use query).kind = .input := congrArg Usage.kind typed
        have hmem : (⟨j, .input query key', reply⟩ : Read) ∈ before ++ ⟨j, .input query key', reply⟩ ::
            after := by simp
        have hnode := (hseen _ hmem).node
        have hbefore' := hbefore.trans (.read j reply (.refl _) :
          Follows (.perform (.read query valueType key') next') _ _)
        have happend : before ++ ⟨j, .input query key', reply⟩ :: after =
            (before ++ [⟨j, .input query key', reply⟩]) ++ after := by simp
        -- once the read is known as of now, the walk is a step further
        have hgo (rest' : List SlotId)
            (hrest' : m.deps = dependencies (before ++ [⟨j, .input query key', reply⟩]) ++ rest')
            (hnow' : ∀ read ∈ before ++ ⟨j, .input query key', reply⟩ :: after,
              read.slot ∈ dependencies (before ++ [⟨j, .input query key', reply⟩]) →
              w.Seen p use same w.revision read) :
            Ends p use same t w active i (.walk ⟨i, w.revision, m.verifiedAt, rest'⟩) frames r := by
          have hmatch : Agree (Value.AlikeOf valueType) reply (inputs.answer query key') := by
            have hcurrent := (hnow' _ hmem (mem_dependencies.2 ⟨_, by simp, rfl⟩)).current rfl
            simp only [Read.Matches, typed] at hcurrent
            rwa [h.inputs_eq] at hcurrent
          exact ih w active i label key m _ frames _ after rest' h hmemo hbefore' hafter
            (happend ▸ hdeps) hrest' (happend ▸ hseen) (happend ▸ hnow') (hnext _ _ hmatch)
            (htransparent _) hshorter.read hcompute
        rcases dependencies_next (hdeps.symm.trans hrest) with ⟨-, hsame⟩ | ⟨rest', rfl, hnew⟩
        · exact hgo rest (hsame ▸ hrest) (hsame ▸ hnow)
        · have hinput : w.kind? j ≠ some .derived := by
            rw [h.sound.tidy.kind? hnode]
            simp [Source.node, hkind]
          have htouched := w.touched_spec t ⟨i, w.revision, m.verifiedAt, rest'⟩ j (w.changedAt j)
          generalize hout : w.touched t ⟨i, w.revision, m.verifiedAt, rest'⟩ j (w.changedAt j) = out
            at htouched
          have hstep : Evaluation.step p t
              ⟨.walk ⟨i, w.revision, m.verifiedAt, j :: rest'⟩, frames⟩ w =
              .running ⟨out.1, frames⟩ out.2 := by
            simp only [Evaluation.step, stepWalk, if_neg hinput, hout]
            rfl
          cases htouched with
          | cancelled cancelled => exact absurd cancelled h.uncancelled
          | @changed w₁ _ quiet hactive =>
            have hkeeps := quiet.keeps h.sound (active ++ [i])
            exact .head hstep (hkeeps.subset (List.subset_append_left _ _))
              (hcompute w₁ (h.keeps hkeeps hactive) quiet.revision)
          | unchanged hle =>
            refine .head hstep (.refl h.sound active) (hgo rest' ?_ ?_)
            · rw [hrest, hnew, List.append_assoc, List.singleton_append]
            · intro read hread hslot
              rw [hnew] at hslot
              rcases List.mem_append.1 hslot with hslot | hslot
              · exact hnow read hread hslot
              · have hslot := List.mem_singleton.1 hslot
                exact (hseen read hread).of_unwritten hp h.sound.tidy (hslot ▸ hnode) hkind
                  (hslot ▸ hle) _

/-- A revalidation asks for a dependency that is a derived value. -/
theorem step_walk_derived {w : World} {i j : SlotId} (hderived : w.kind? j = some .derived)
    (revision verifiedAt : Revision) (rest : List SlotId) (frames : List Frame) :
    Evaluation.step p t ⟨.walk ⟨i, revision, verifiedAt, j :: rest⟩, frames⟩ w =
      .running ⟨.fetch j, .touching ⟨i, revision, verifiedAt, rest⟩ j :: frames⟩ w := by
  simp only [Evaluation.step, stepWalk, if_pos hderived]

/-- A revalidation whose dependency fails ends with the error. -/
theorem ends_of_walk_fails {w w₁ : World} {active : List SlotId} {i j : SlotId} {label : Label}
    {key : Key} {c : Control} {walk : Walk} {frames : List Frame} {e : QueryError}
    (hreach : Reaches p t ⟨c, frames⟩ w ⟨.answer (.error e), .touching walk j :: frames⟩ w₁)
    (h₁ : w₁.Computing p use same t inputs stack active i label key) (hwalk : walk.slot = i)
    (hkeeps : w.Keeps p use same (active ++ [i]) w₁) :
    Ends p use same t w active i c frames (.error e) := by
  obtain ⟨w', hfail, hquiet, hactive⟩ := w₁.fail_spec walk.slot e
  have hcompletes := h₁.completes_error hquiet (hwalk ▸ hactive) e
  refine ⟨.error e, w', hreach.trans (.of_step ?_),
    (hkeeps.subset (List.subset_append_left _ _)).trans hcompletes.toKeeps, hcompletes.agree,
    hcompletes.active_eq, hcompletes.kept⟩
  simp only [Evaluation.step, stepAnswer, hfail]
  rfl

theorem walks_cycle (hp : p.Pure use same False) {mode : CallMode} {label' : Label} {key' : Key}
    {next : Except QueryError Value → Body} {r : Except QueryError Value}
    (hin : p.node label' key' ∈ stack)
    (heval : Evaluates p inputs stack (next (.error (cycleError stack (p.node label' key')))) r) :
    WalksWell p use same t inputs stack (.call mode label' key' next) r := by
  intro w active i label key m b frames before after rest h hmemo hbefore hafter hdeps hrest hseen
    hnow hlawful htransparent hshorter hcompute
  cases hlawful with
  | @call _ _ _ next' _ typed _ hnext =>
    cases htransparent with
    | call error _ =>
      cases hafter with
      | @call _ _ _ _ _ after j reply hafter =>
        have hmem : (⟨j, .derived label' key', reply⟩ : Read) ∈
            before ++ ⟨j, .derived label' key', reply⟩ :: after := by simp
        have hnode := (hseen _ hmem).node
        have hactive : j ∈ w.active := (h.inProgress.mem_iff h.sound.tidy hnode).2 hin
        obtain rfl := heval.error_of_transparent (hnext _ _ (.error _)) (error _)
        rcases dependencies_next (hdeps.symm.trans hrest) with ⟨hbeen, -⟩ | ⟨rest', rfl, -⟩
        · -- the reply would match now, so that the node would yield something
          have hcurrent := (hnow _ hmem hbeen).current rfl
          rw [h.inputs_eq] at hcurrent
          obtain ⟨n, r', hyields, -⟩ := hcurrent
          exact absurd hin (hshorter.not_mem hyields)
        · have hstep := step_walk_derived (p := p) (t := t) (i := i)
            (h.sound.tidy.kind?_node hp.consistent hnode) w.revision m.verifiedAt rest' frames
          have hfetch := World.fetch_spec h.sound.memoize t j (p := p)
          generalize hfetched : w.fetch p t j = out at hfetch
          have hstep₁ : Evaluation.step p t
              ⟨.fetch j, .touching ⟨i, w.revision, m.verifiedAt, rest'⟩ j :: frames⟩ w =
              .running ⟨out.1, .touching ⟨i, w.revision, m.verifiedAt, rest'⟩ j :: frames⟩ out.2 := by
            simp only [Evaluation.step, hfetched]
            rfl
          cases hfetch with
          | hit memo verified => exact absurd verified (h.stale j (h.active_eq ▸ hactive) _ memo)
          | walk _ _ outside => exact absurd hactive outside
          | compute _ outside => exact absurd hactive outside
          | @cycle w₁ _ _ quiet hactive₁ =>
            rw [h.inProgress.path_eq hnode] at hstep₁
            have hkeeps := quiet.keeps h.sound (active ++ [i])
            exact ends_of_walk_fails (.head hstep (.of_step hstep₁)) (h.keeps hkeeps hactive₁) rfl
              hkeeps

/-- What a revalidation comes to when it asks for a dependency: the dependency fails, or it has changed
    and the body is run, or the rest of the dependencies is left to ask for. -/
inductive Touches (p : Program) (use : Usages) (same : Indistinct) (t : Token) (inputs : Inputs)
    (stack : List Node) (w : World) (active : List SlotId) (i : SlotId) (label : Label) (key : Key)
    (verifiedAt : Revision) (j : SlotId) (rest : List SlotId) (frames : List Frame) :
    Except QueryError Value → Prop
  | fails {e : QueryError}
    (ends : Ends p use same t w active i (.walk ⟨i, w.revision, verifiedAt, j :: rest⟩) frames
      (.error e)) :
    Touches p use same t inputs stack w active i label key verifiedAt j rest frames (.error e)
  | changed {v : Value} {w₁ : World}
    (reaches : Reaches p t ⟨.walk ⟨i, w.revision, verifiedAt, j :: rest⟩, frames⟩ w
      ⟨.compute i w.revision, frames⟩ w₁)
    (computing : w₁.Computing p use same t inputs stack active i label key)
    (keeps : w.Keeps p use same (active ++ [i]) w₁) :
    Touches p use same t inputs stack w active i label key verifiedAt j rest frames (.ok v)
  | unchanged {v : Value} {m : Memo} {w₁ : World}
    (reaches : Reaches p t ⟨.walk ⟨i, w.revision, verifiedAt, j :: rest⟩, frames⟩ w
      ⟨.walk ⟨i, w.revision, verifiedAt, rest⟩, frames⟩ w₁)
    (computing : w₁.Computing p use same t inputs stack active i label key)
    (keeps : w.Keeps p use same (active ++ [i]) w₁) (memo : w₁.memo? j = some m)
    (verified : m.verifiedAt = w₁.revision) (le : m.changedAt ≤ verifiedAt) :
    Touches p use same t inputs stack w active i label key verifiedAt j rest frames (.ok v)

/-- A dependency that is not in progress ends as the evaluation of its body does. -/
theorem touches_callee (hp : p.Pure use same False) {w : World} {active : List SlotId} {i j : SlotId}
    {label label' : Label} {key key' : Key} {reply : Except QueryError Value}
    (htransparent : Transparent ((p label').body key'))
    (hruns : RunsWell p use same t inputs (stack ++ [p.node label' key']) ((p label').body key')
      reply)
    (hwalks : WalksWell p use same t inputs (stack ++ [p.node label' key']) ((p label').body key')
      reply)
    (heval : Evaluates p inputs (stack ++ [p.node label' key']) ((p label').body key') reply)
    (hshorter : Shorter p inputs (stack ++ [p.node label' key']) ((p label').body key'))
    (h : w.Computing p use same t inputs stack active i label key)
    (hnode : w.node? j = some (p.node label' key'))
    (typed : key'.type = (use (p label').id).keyType) (hnot : p.node label' key' ∉ stack)
    (verifiedAt : Revision) (rest : List SlotId) (frames : List Frame) :
    Touches p use same t inputs stack w active i label key verifiedAt j rest frames reply := by
  have hstep := step_walk_derived (p := p) (t := t) (i := i)
    (h.sound.tidy.kind?_node hp.consistent hnode) w.revision verifiedAt rest frames
  obtain ⟨result, w₁, hreach, hcompletes⟩ := ends_fetch hp htransparent hruns hwalks heval hshorter
    h.sound h.inputs_eq h.uncancelled h.inProgress hnode typed hnot (h.active_eq ▸ h.stale)
    (.touching ⟨i, w.revision, verifiedAt, rest⟩ j :: frames)
  have hkeeps : w.Keeps p use same (active ++ [i]) w₁ := h.active_eq ▸ hcompletes.toKeeps
  have h₁ := h.keeps hkeeps hcompletes.active_eq
  have hagree := hcompletes.agree
  have hkept := hcompletes.kept
  cases hagree with
  | error e => exact .fails (ends_of_walk_fails (.head hstep hreach) h₁ rfl hkeeps)
  | @ok stamped u halike =>
    obtain ⟨m, hm, rfl, hverified⟩ := hkept stamped rfl
    have htouched := w₁.touched_spec t ⟨i, w.revision, verifiedAt, rest⟩ j m.changedAt
    generalize hout : w₁.touched t ⟨i, w.revision, verifiedAt, rest⟩ j m.changedAt = out at htouched
    have hback : Evaluation.step p t ⟨.answer (.ok m.toStamped),
        .touching ⟨i, w.revision, verifiedAt, rest⟩ j :: frames⟩ w₁ =
        .running ⟨out.1, frames⟩ out.2 := by
      simp only [Evaluation.step, stepAnswer, hout]
      rfl
    have hway := Reaches.head hstep (hreach.trans (.of_step hback))
    cases htouched with
    | cancelled cancelled => exact absurd cancelled h₁.uncancelled
    | @changed w₂ _ quiet hactive =>
      have hkeeps₂ := quiet.keeps h₁.sound (active ++ [i])
      exact .changed hway (h₁.keeps hkeeps₂ hactive) (hkeeps.trans hkeeps₂)
    | unchanged le => exact .unchanged hway h₁ hkeeps hm hverified le

theorem walks_call (hp : p.Pure use same False)
    (htr : ∀ label key, Transparent ((p label).body key)) {mode : CallMode} {label' : Label}
    {key' : Key} {next : Except QueryError Value → Body} {r reply : Except QueryError Value}
    (hnot : p.node label' key' ∉ stack)
    (hcallee : Evaluates p inputs (stack ++ [p.node label' key']) ((p label').body key') reply)
    (heval : Evaluates p inputs stack (next reply) r)
    (ihRuns : RunsWell p use same t inputs (stack ++ [p.node label' key']) ((p label').body key')
      reply)
    (ihWalks : WalksWell p use same t inputs (stack ++ [p.node label' key']) ((p label').body key')
      reply)
    (ih : WalksWell p use same t inputs stack (next reply) r) :
    WalksWell p use same t inputs stack (.call mode label' key' next) r := by
  intro w active i label key m b frames before after rest h hmemo hbefore hafter hdeps hrest hseen
    hnow hlawful htransparent hshorter hcompute
  have hreplies (read : Read) (hmem : read ∈ before ++ after) (label : Label) (key : Key)
      (hsource : read.source = .derived label key) : ∃ u, read.reply = .ok u :=
    (hbefore.trans hafter).replies_ok (htr _ _) hmem hsource
  cases hlawful with
  | @call _ _ _ next' _ typed _ hnext =>
    cases htransparent with
    | call error ok =>
      cases hafter with
      | @call _ _ _ _ _ after j reply' hafter =>
        have hmem : (⟨j, .derived label' key', reply'⟩ : Read) ∈
            before ++ ⟨j, .derived label' key', reply'⟩ :: after := by simp
        obtain ⟨v, rfl⟩ : ∃ v, reply' = .ok v := hreplies _ hmem _ _ rfl
        have hnode := (hseen _ hmem).node
        have hbefore' := hbefore.trans (.call j (.ok v) (.refl _) :
          Follows (.call mode label' key' next') _ _)
        have happend : before ++ ⟨j, .derived label' key', .ok v⟩ :: after =
            (before ++ [⟨j, .derived label' key', .ok v⟩]) ++ after := by simp
        -- once the read is known as of now, the walk is a step further
        have hgo (w₁ : World)
            (h₁ : w₁.Computing p use same t inputs stack active i label key)
            (hkeeps : w.Keeps p use same (active ++ [i]) w₁) (rest' : List SlotId)
            (hrest' : m.deps = dependencies (before ++ [⟨j, .derived label' key', .ok v⟩]) ++ rest')
            (hnow' : ∀ read ∈ before ++ ⟨j, .derived label' key', .ok v⟩ :: after,
              read.slot ∈ dependencies (before ++ [⟨j, .derived label' key', .ok v⟩]) →
              w₁.Seen p use same w₁.revision read) :
            Ends p use same t w₁ active i (.walk ⟨i, w.revision, m.verifiedAt, rest'⟩) frames r := by
          have hcurrent := (hnow' _ hmem (mem_dependencies.2 ⟨_, by simp, rfl⟩)).current rfl
          rw [h₁.inputs_eq] at hcurrent
          obtain ⟨n, reply₁, hyields, hmatch⟩ := hcurrent
          rw [← hcallee.unique ((hshorter.enter hp).evaluates hp hyields)] at hmatch
          have hverified := (h.sound.justified i m hmemo).verified_le
          have hmemo₁ := (hkeeps.memo i (by simp)).trans hmemo
          rw [← hkeeps.revision]
          refine ih w₁ active i label key m _ frames _ after rest' h₁ hmemo₁ hbefore' hafter
            (happend ▸ hdeps) hrest' (happend ▸ fun read hread => ?_) (happend ▸ hnow')
            (hnext _ _ hmatch) (ok v) (hshorter.next hp hcallee) fun w₂ hw₂ hrevision => ?_
          · exact hkeeps.seen _ read hverified (hseen read hread)
          · rw [hkeeps.revision]
            exact hcompute w₂ hw₂ (hrevision.trans hkeeps.revision)
        rcases dependencies_next (hdeps.symm.trans hrest) with ⟨-, hsame⟩ | ⟨rest', rfl, hnew⟩
        · exact hgo w h (.refl h.sound _) rest (hsame ▸ hrest) (hsame ▸ hnow)
        · cases touches_callee hp (htr label' key') ihRuns ihWalks hcallee (hshorter.enter hp) h hnode
            typed hnot m.verifiedAt rest' frames with
          | fails ends => rwa [heval.error_of_transparent (hnext _ _ (.error _)) (error _)]
          | changed reaches computing keeps =>
            exact .of_reaches reaches (keeps.subset (List.subset_append_left _ _))
              (hcompute _ computing keeps.revision)
          | unchanged reaches computing keeps memo verified le =>
            refine .of_reaches reaches (keeps.subset (List.subset_append_left _ _))
              (hgo _ computing keeps rest' ?_ ?_)
            · rw [hrest, hnew, List.append_assoc, List.singleton_append]
            · intro read hread hslot
              rw [hnew] at hslot
              rcases List.mem_append.1 hslot with hslot | hslot
              · rw [keeps.revision]
                exact keeps.seen _ read (Nat.le_refl _) (hnow read hread hslot)
              · -- every read of this slot was answered by a value that is still the same
                obtain rfl := List.mem_singleton.1 hslot
                have hseen' := keeps.seen _ read (h.sound.justified i m hmemo).verified_le
                  (hseen read hread)
                exact hseen'.of_kept hp keeps.sound.tidy (keeps.node _ _ hnode)
                  (hreplies read hread) memo (keeps.sound.trusted hp memo) le
                  (Nat.le_of_eq verified.symm)

/-! ## Evaluations -/

/-- Runs and revalidations end as the evaluation of the body does. -/
theorem Evaluates.ends_well (hp : p.Pure use same False)
    (htr : ∀ label key, Transparent ((p label).body key)) {c : Body}
    {r : Except QueryError Value} (h : Evaluates p inputs stack c r) :
    RunsWell p use same t inputs stack c r ∧ WalksWell p use same t inputs stack c r := by
  induction h with
  | done stack r => exact ⟨runs_done hp r, walks_done hp r⟩
  | read _ ih => exact ⟨runs_read ih.1, walks_read hp ih.2⟩
  | check _ ih => exact ⟨runs_check ih.1, walks_check ih.2⟩
  | allocate _ ih => exact ⟨runs_allocate ih.1, walks_allocate ih.2⟩
  | yield _ _ =>
    refine ⟨?_, ?_⟩
    · intro w active a label key b frames reads _ _ _ _ _ hlawful
      cases hlawful with
      | yield allowed => exact allowed.elim
    · intro w active i label key m b frames before after rest _ _ _ _ _ _ _ _ hlawful
      cases hlawful with
      | yield allowed => exact allowed.elim
  | cycle hin h _ => exact ⟨runs_cycle hp hin h, walks_cycle hp hin h⟩
  | call hnot hcallee h ihCallee ih =>
    exact ⟨runs_call hp htr hnot hcallee h ihCallee.1 ihCallee.2 ih.1,
      walks_call hp htr hnot hcallee h ihCallee.1 ihCallee.2 ih.2⟩

/-- What a body evaluates to is answered to a request, in an idle and sound world. -/
theorem Evaluates.request_finishes (hp : p.Pure use same False)
    (htr : ∀ label key, Transparent ((p label).body key)) {w : World} {i : SlotId} {label : Label}
    {key : Key} {r : Except QueryError Value}
    (h : Evaluates p w.inputs [p.node label key] ((p label).body key) r)
    (hs : w.Sound p use same) (huncancelled : t ∉ w.cancelled) (hidle : w.active = [])
    (hi : w.node? i = some (p.node label key)) (typed : key.type = (use (p label).id).keyType) :
    ∃ result w', Finishes p t (.request i) w result w' ∧
      w.Completes p use same [] i result r w' := by
  have hshorter : Shorter p w.inputs [p.node label key] ((p label).body key) := by
    intro label' key' m r' hmem hm
    rw [hp.body_eq (List.mem_singleton.1 hmem)] at hm
    exact ⟨m, r', Nat.le_refl m, hm⟩
  obtain ⟨hruns, hwalks⟩ := h.ends_well hp htr (t := t)
  have hruns : RunsWell p use same t w.inputs ([] ++ [p.node label key]) _ r := hruns
  obtain ⟨result, w', hreach, hcompletes⟩ := ends_fetch hp (htr label key) hruns hwalks h hshorter hs
    rfl huncancelled (by simp [World.InProgress, hidle]) hi typed (by simp) (by simp [hidle]) []
  rw [hidle] at hcompletes
  exact ⟨result, w', hreach.finishes (.of_answer result w'), hcompletes⟩

end RedGreen
