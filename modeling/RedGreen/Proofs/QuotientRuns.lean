import RedGreen.Proofs.Coherence
import RedGreen.Proofs.QuotientSteps

set_option autoImplicit false

/-! # A program and its quotient in step

Asked for the same, a program and its quotient take the same steps: the control of the one is the code of
the control of the other, their frames match, and so do their worlds (`step_matches`). A body that waits
is answered with a code there, and decodes it. The bodies at work are those that respect the equalities,
and the values that are kept or answered have the types of their queries; this is carried along, since
only such values have codes that can be decoded. -/

namespace RedGreen

open Evaluation

variable {p : Program} {use : Usages} {t : Token} {w w' : World} {root i : SlotId} {label : Label}
  {key : Key}

/-! ## Worlds -/

/-- Identities are used as they are meant to be, and what is kept has the type of its query. -/
structure World.WellTyped (p : Program) (use : Usages) (w : World) : Prop where
  tidy : Tidy p use w.toSystem
  memo : ∀ i label key m, w.node? i = some (p.node label key) → w.memo? i = some m →
    m.value.type = (p label).valueType

namespace World.WellTyped

/-- Nodes are what they were, and each memo is an old one or has the right type. -/
theorem of_nodes (h : w.WellTyped p use) (ht : Tidy p use w'.toSystem)
    (hnodes : ∀ i n, w.node? i = some n → w'.node? i = some n)
    (hmemo : ∀ i m, w'.memo? i = some m → w.memo? i = some m ∨
      ∀ label key, w'.node? i = some (p.node label key) → m.value.type = (p label).valueType) :
    w'.WellTyped p use where
  tidy := ht
  memo i label key m hi hm := by
    rcases hmemo i m hm with hold | hnew
    · -- a slot with a memo is no new one
      obtain ⟨slot, hslot, -⟩ := Option.bind_eq_some_iff.1 hold
      have hnode : w.node? i = some ⟨slot.query, slot.key⟩ := by rw [System.node?, hslot]; rfl
      have hsame := Option.some.inj ((hnodes i _ hnode).symm.trans hi)
      exact h.memo i label key m (hnode.trans (congrArg some hsame)) hold
    · exact hnew label key hi

theorem grows (h : w.WellTyped p use) (ht : Tidy p use w'.toSystem) (hw : w.Grows w') :
    w'.WellTyped p use :=
  h.of_nodes ht hw.node fun i _ hm => .inl ((hw.memo i).symm.trans hm)

theorem clears (h : w.WellTyped p use) (ht : Tidy p use w'.toSystem) {before : Revision}
    (hw : w.Clears before w') : w'.WellTyped p use := by
  refine h.of_nodes ht hw.node fun i m hm => .inl ?_
  rcases hw.memo i with hsame | ⟨hnone, -⟩
  · exact hsame.symm.trans hm
  · rw [hnone] at hm
    cases hm

theorem quiet (h : w.WellTyped p use) (hw : w.Quiet w') : w'.WellTyped p use :=
  h.grows (hw.tidy h.tidy) hw.grows

theorem renews (h : w.WellTyped p use) (hp : p.Respectful use) {related : Value → Value → Prop}
    {m : Memo} (hi : w.node? i = some (p.node label key)) (hcommits : World.Commits p use related w i m w')
    (hm : m.value.type = (p label).valueType) : w'.WellTyped p use := by
  refine h.of_nodes hcommits.tidy hcommits.node fun j m' hm' => ?_
  by_cases hj : j = i
  · subst hj
    refine .inr fun label' key' hnode => ?_
    have hnode := Option.some.inj (hnode.symm.trans (hcommits.node _ _ hi))
    rw [hp.query_eq (congrArg Node.query hnode), ← hm,
      ← Option.some.inj (hcommits.memo_self.symm.trans hm')]
  · exact .inl ((hcommits.memo_other j hj).symm.trans hm')

end World.WellTyped

/-! ## Evaluations that match -/

/-- A control for the slot of a query. -/
inductive Control.Suits (p : Program) (use : Usages) (i : SlotId) (label : Label) : Control → Prop
  | fetch : Suits p use i label (.fetch i)
  | walk {walk : Walk} (slot : walk.slot = i) : Suits p use i label (.walk walk)
  | compute (r : Revision) : Suits p use i label (.compute i r)
  | body {a : Activation} {b : Body} (slot : a.slot = i) (respects : Respects p use (p label).Same b b) :
    Suits p use i label (.body a b)
  | error (e : QueryError) : Suits p use i label (.answer (.error e))
  | value {x : Stamped} (typed : x.value.type = (p label).valueType) :
    Suits p use i label (.answer (.ok x))

/-- Frames, and those of the quotient, that wait for a slot on the way from a root. -/
inductive FramesMatch (p : Program) (use : Usages) (w : World) (root : SlotId) :
    SlotId → List Frame → List Frame → Prop
  | root : FramesMatch p use w root root [] []
  | touching {walk : Walk} {dep : SlotId} {label : Label} {key : Key} {frames frames' : List Frame}
    (node : w.node? walk.slot = some (p.node label key))
    (outer : FramesMatch p use w root walk.slot frames frames') :
    FramesMatch p use w root dep (.touching walk dep :: frames) (.touching walk dep :: frames')
  | calling {a : Activation} {mode : CallMode} {callee : SlotId} {label label' : Label} {key key' : Key}
    {next : Except QueryError Value → Body} {frames frames' : List Frame}
    (node : w.node? a.slot = some (p.node label key)) (node' : w.node? callee = some (p.node label' key'))
    (respects : ∀ r r', Agree (p label').Same r r' → Respects p use (p label).Same (next r) (next r'))
    (outer : FramesMatch p use w root a.slot frames frames') :
    FramesMatch p use w root callee (.calling ⟨a, mode, callee, next⟩ :: frames)
      (.calling ⟨a, mode, callee, fun r => p.encodeBody (p label) (next (r.map (p label').decode))⟩ ::
        frames')

/-- An evaluation and that of the quotient. -/
inductive Evaluation.Matches (p : Program) (use : Usages) (w : World) (root : SlotId) :
    Evaluation → Evaluation → Prop
  | intro {i : SlotId} {label : Label} {key : Key} {c : Control} {frames frames' : List Frame}
    (node : w.node? i = some (p.node label key)) (suits : c.Suits p use i label)
    (outer : FramesMatch p use w root i frames frames') :
    Matches p use w root ⟨c, frames⟩ ⟨c.quotient p (p label), frames'⟩

/-- Where an evaluation and that of the quotient stand after a step. -/
inductive Progress.Matches (p : Program) (use : Usages) (root : SlotId) : Progress → Progress → Prop
  | running {e e' : Evaluation} {w : World} (typed : w.WellTyped p use) (h : e.Matches p use w root e') :
    Matches p use root (.running e w) (.running e' (w.quotient p use))
  | finished {r : Except QueryError Stamped} {w : World} {label : Label} {key : Key}
    (typed : w.WellTyped p use) (node : w.node? root = some (p.node label key))
    (value : ∀ x, r = .ok x → x.value.type = (p label).valueType) :
    Matches p use root (.finished r w) (.finished (r.map (Stamped.encode (p label))) (w.quotient p use))

theorem FramesMatch.extends {frames frames' : List Frame} (h : FramesMatch p use w root i frames frames')
    (hw : w.Extends w') : FramesMatch p use w' root i frames frames' := by
  induction h with
  | root => exact .root
  | touching node _ ih => exact .touching (hw.node _ _ node) ih
  | calling node node' respects _ ih =>
    exact .calling (hw.node _ _ node) (hw.node _ _ node') respects ih

/-! ## What the parts of a step come to -/

/-- The outcome of a part of a step for the slot of a query. -/
structure World.Suits (p : Program) (use : Usages) (w : World) (i : SlotId) (label : Label)
    (out : Control × World) : Prop where
  control : out.1.Suits p use i label
  typed : out.2.WellTyped p use
  extends_world : w.Extends out.2

namespace World

theorem Suits.of_quiet (hw : w.WellTyped p use) {c : Control} (hc : c.Suits p use i label)
    (hquiet : w.Quiet w') : w.Suits p use i label (c, w') :=
  ⟨hc, hw.quiet hquiet, hquiet.grows.toExtends⟩

/-- The step of the quotient is the code of the step. -/
theorem Suits.matches {out : Control × World} (h : w.Suits p use i label out)
    (hi : w.node? i = some (p.node label key)) {frames frames' : List Frame}
    (houter : FramesMatch p use w root i frames frames') :
    Progress.Matches p use root (resume frames out)
      (resume frames' (outcomeQuotient p use (p label) out)) :=
  .running h.typed (.intro (h.extends_world.node _ _ hi) h.control (houter.extends h.extends_world))

variable (hp : p.Respectful use) (hw : w.WellTyped p use) (hi : w.node? i = some (p.node label key))
include hp hw hi

theorem suits_body (hquiet : w.Quiet w') (r : Revision) :
    w.Suits p use i label (.body ⟨i, r, []⟩ ((p label).body key), w') :=
  .of_quiet hw (.body rfl (hp.respects label key (hw.tidy.keyType hi))) hquiet

theorem suits_fetch (t : Token) : w.Suits p use i label (w.fetch p t i) := by
  by_cases hmemoize : w.memoize = true
  · have hfetch := fetch_spec hmemoize t i (p := p)
    generalize w.fetch p t i = out at hfetch
    cases hfetch with
    | hit memo _ quiet => exact .of_quiet hw (.value (hw.memo i label key _ hi memo)) quiet
    | cycle _ _ quiet => exact .of_quiet hw (.error _) quiet
    | walk _ _ _ quiet => exact .of_quiet hw (.walk rfl) quiet
    | compute _ _ quiet => exact .of_quiet hw (.compute _) quiet
  · have hfetch := fetch_spec_afresh hp.toConsistent hw.tidy (Bool.eq_false_iff.2 hmemoize) t hi
    generalize w.fetch p t i = out at hfetch
    cases hfetch with
    | cycle _ quiet => exact .of_quiet hw (.error _) quiet
    | cancelled _ _ quiet => exact .of_quiet hw (.error _) quiet
    | run _ quiet => exact suits_body hp hw hi quiet _

theorem suits_compute (t : Token) (r : Revision) : w.Suits p use i label (w.compute p t i r) := by
  have hcompute := compute_spec hp.toConsistent hw.tidy t hi r
  generalize w.compute p t i r = out at hcompute
  cases hcompute with
  | cancelled _ quiet => exact .of_quiet hw (.error _) quiet
  | run quiet => exact suits_body hp hw hi quiet r

theorem suits_verify (r verifiedAt : Revision) (rest : List SlotId) :
    w.Suits p use i label (w.verify ⟨i, r, verifiedAt, rest⟩) := by
  have hverify := verify_spec_of_related hp.toConsistent hw.tidy ⟨i, r, verifiedAt, rest⟩ hi
    (fun _ _ => True) fun _ _ => trivial
  generalize w.verify ⟨i, r, verifiedAt, rest⟩ = out at hverify
  cases hverify with
  | kept memo commits =>
    have htype := hw.memo i label key _ hi memo
    exact ⟨.value htype, hw.renews hp hi commits htype, commits.toExtends⟩
  | dropped => exact .of_quiet hw (.compute r) (.refl w)

theorem suits_finish (t : Token) (r : Revision) (deps : List SlotId) {result : Except QueryError Value}
    (hresult : ∀ v, result = .ok v → v.type = (p label).valueType) :
    w.Suits p use i label (w.finish t ⟨i, r, deps⟩ result) := by
  by_cases hmemoize : w.memoize = true
  · have hfinish := finish_spec_of_related hp.toConsistent hw.tidy hmemoize t (a := ⟨i, r, deps⟩) hi
      (fun _ _ => True) result fun _ _ _ _ _ => trivial
    generalize w.finish t ⟨i, r, deps⟩ result = out at hfinish
    cases hfinish with
    | failed quiet => exact .of_quiet hw (.error _) quiet
    | cancelled _ quiet => exact .of_quiet hw (.error _) quiet
    | kept _ value _ _ commits =>
      have htype := (congrArg Value.type value).trans (hresult _ rfl)
      exact ⟨.value htype, hw.renews hp hi commits htype, commits.toExtends⟩
  · have hfail (e : QueryError) : w.Suits p use i label (w.fail i e) := by
      obtain ⟨w', hfail, hquiet, -⟩ := w.fail_spec i e
      rw [hfail]
      exact .of_quiet hw (.error e) hquiet
    unfold finish
    cases result with
    | error e => exact hfail e
    | ok v =>
      simp only [if_neg hmemoize]
      split
      · exact .of_quiet hw (.error _) (w.quiet_leave i)
      · obtain ⟨w', hsucceed, hquiet, -⟩ := w.succeed_spec i ⟨v, r⟩ .changed
        rw [hsucceed]
        exact .of_quiet hw (.value (hresult v rfl)) hquiet

omit hp hi in
theorem suits_touched (t : Token) {walk : Walk} (hslot : walk.slot = i) (dep : SlotId)
    (changedAt : Revision) : w.Suits p use i label (w.touched t walk dep changedAt) := by
  have htouched := w.touched_spec t walk dep changedAt
  generalize w.touched t walk dep changedAt = out at htouched
  cases htouched with
  | cancelled _ quiet => exact .of_quiet hw (.error _) quiet
  | changed _ quiet => exact hslot ▸ .of_quiet hw (.compute _) quiet
  | unchanged => exact .of_quiet hw (.walk hslot) (.refl w)

end World

/-! ## The step -/

/-- What a memo and the value beside it come to if a run is kept. -/
def Evaluation.Agrees (w : World) (e : Evaluation) : Prop :=
  ∀ a v m, e.control = .body a (.done (.ok v)) → w.memo? a.slot = some m → m.value.Coherent v

/-- A reply to a body respects what it is related to. -/
theorem agree_same_refl {q : Query} {r : Except QueryError Value}
    (h : ∀ v, r = .ok v → v.type = q.valueType) : Agree q.Same r r := by
  cases r with
  | ok v => exact .ok ⟨h v rfl, h v rfl, .alike v.alike_refl⟩
  | error e => exact .error e

theorem stepBody_matches (hp : p.Respectful use) (hw : w.WellTyped p use) {a : Activation} {b : Body}
    (hi : w.node? a.slot = some (p.node label key)) (respects : Respects p use (p label).Same b b)
    {frames frames' : List Frame} (houter : FramesMatch p use w root a.slot frames frames')
    (hagrees : Evaluation.Agrees w ⟨.body a b, frames⟩) :
    Progress.Matches p use root (stepBody p t a b frames w)
      (stepBody p.quotient t a (p.encodeBody (p label) b) frames' (w.quotient p use)) := by
  cases respects with
  | @done r _ hself =>
    have hresult (v : Value) (hv : r = .ok v) : v.type = (p label).valueType := by
      subst hv
      exact (Agree.ok_ok.1 hself).1
    have hfinish : (w.quotient p use).finish t a (r.map (p label).encode) =
        outcomeQuotient p use (p label) (w.finish t a r) :=
      World.finish_quotient hp hw.tidy hi t r (fun o ho => hw.memo _ label key o hi ho) hresult
        fun _ v o hv ho => hagrees a v o (by rw [hv]) ho
    show Progress.Matches p use root _
      (resume frames' ((w.quotient p use).finish t a (r.map (p label).encode)))
    rw [hfinish]
    exact (World.suits_finish hp hw hi t a.revision a.deps hresult).matches hi houter
  | @read query valueType key' next _ typed hnext =>
    obtain ⟨j, w₁, reply, hread, hfinds, hreply⟩ := World.read_spec hw.tidy t a typed
    have hread' := World.read_quotient hw.tidy t a typed
    rw [hread] at hread'
    have hself : Agree (Value.AlikeOf valueType) reply reply := by
      rcases hreply with hagree | ⟨-, rfl⟩
      · generalize w₁.inputs.answer query key' = answer at hagree
        cases hagree with
        | ok halike => exact .ok (Value.alikeOf_refl halike.1)
        | error e => exact .error e
      · exact .error _
    simp only [stepBody, Program.encodeBody, World.perform, hread, hread']
    exact .running (hw.grows hfinds.tidy hfinds.toGrows)
      (.intro (hfinds.node _ _ hi) (.body rfl (hnext _ _ hself)) (houter.extends hfinds.toExtends))
  | check hnext => exact .running hw (.intro hi (.body rfl (hnext _)) houter)
  | allocate hnext =>
    exact .running (hw.quiet w.quiet_allocate) (.intro (w.quiet_allocate.grows.node _ _ hi)
      (.body rfl (hnext _ _)) (houter.extends w.quiet_allocate.grows.toExtends))
  | @call mode label' key' next _ typed hnext =>
    obtain ⟨j, w₁, hslot, hfinds⟩ := World.derivedSlot_spec hp.toConsistent hw.tidy typed
    have hslot' := World.derivedSlot_quotient hp hw.tidy typed
    rw [hslot] at hslot'
    obtain ⟨w₂, hrecord, hquiet, -⟩ := w₁.record_spec a j
    have hrecord' : (w₁.quotient p use).record a j = _ := w₁.record_quotient a j
    rw [hrecord] at hrecord'
    have hgrows := hfinds.toGrows.trans hquiet.grows
    simp only [stepBody, stepCall, Program.encodeBody, hslot, hslot', hrecord, hrecord']
    have hj := hquiet.grows.node j _ hfinds.found
    exact .running (hw.grows (hquiet.tidy hfinds.tidy) hgrows) (.intro hj .fetch
      (.calling (hgrows.node _ _ hi) hj hnext (houter.extends hgrows.toExtends)))

/-- A program and its quotient take the same steps. -/
theorem step_matches (hp : p.Respectful use) (hw : w.WellTyped p use) {e e' : Evaluation}
    (h : e.Matches p use w root e') (hagrees : e.Agrees w) :
    Progress.Matches p use root (e.step p t w) (e'.step p.quotient t (w.quotient p use)) := by
  cases h with
  | @intro i label key c frames frames' hi suits houter =>
    cases suits with
    | fetch =>
      have hfetch := (World.suits_fetch hp hw hi t).matches hi houter
      rw [← World.fetch_quotient hp hw.tidy hi t] at hfetch
      exact hfetch
    | @walk walk hslot =>
      obtain ⟨slot, r, verifiedAt, rest⟩ := walk
      obtain rfl : slot = i := hslot
      cases rest with
      | nil =>
        have hverify := (World.suits_verify hp hw hi r verifiedAt []).matches hi houter
        rw [← World.verify_quotient hp hw.tidy hi] at hverify
        exact hverify
      | cons dep rest =>
        simp only [step, Control.quotient, stepWalk, World.kind?_quotient]
        by_cases hderived : w.kind? dep = some .derived
        · rw [if_pos hderived, if_pos hderived]
          obtain ⟨label', key', hdep⟩ := hw.tidy.node?_of_derived hderived
          exact .running hw (.intro hdep .fetch (.touching hi houter))
        · rw [if_neg hderived, if_neg hderived, World.changedAt_quotient,
            World.touched_quotient (q := p label)]
          exact (World.suits_touched hw t rfl dep _).matches hi houter
    | compute r =>
      have hcompute := (World.suits_compute hp hw hi t r).matches hi houter
      rw [← World.compute_quotient hp hw.tidy hi t r] at hcompute
      exact hcompute
    | @body a b hslot respects =>
      subst hslot
      exact stepBody_matches hp hw hi respects houter hagrees
    | error e =>
      cases houter with
      | root => exact .finished hw hi fun _ hx => by cases hx
      | @touching walk dep label' key' frames frames' node outer =>
        obtain ⟨w₁, hfail, hquiet, -⟩ := w.fail_spec walk.slot e
        have hsuits : w.Suits p use walk.slot label' (w.fail walk.slot e) :=
          hfail ▸ .of_quiet hw (.error e) hquiet
        have hmatches := hsuits.matches node outer
        rw [← World.fail_quotient] at hmatches
        exact hmatches
      | calling node node' respects outer =>
        exact .running hw (.intro node (.body rfl (respects _ _ (.error e))) outer)
    | @value x typed =>
      cases houter with
      | root => exact .finished hw hi fun _ hx => Except.ok.inj hx ▸ typed
      | @touching walk dep label' key' frames frames' node outer =>
        have hsuits : w.Suits p use walk.slot label' (w.touched t walk i x.changedAt) :=
          World.suits_touched hw t rfl i x.changedAt
        have hmatches := hsuits.matches node outer
        rw [← World.touched_quotient] at hmatches
        exact hmatches
      | @calling a mode callee label' label'' key' key'' next frames frames' node node' respects outer =>
        have hquery : p label = p label'' :=
          hp.query_eq (congrArg Node.query (Option.some.inj (hi.symm.trans node')))
        have hreply : ((w.check t).map fun _ => (p label).encode x.value).map (p label'').decode =
            (w.check t).map fun _ => x.value := by
          rw [← hquery]
          cases w.check t with
          | error e => rfl
          | ok u => exact congrArg Except.ok ((p label).decode_encode typed)
        have hself : Agree (p label'').Same ((w.check t).map fun _ => x.value)
            ((w.check t).map fun _ => x.value) := by
          refine agree_same_refl fun v hv => ?_
          rw [← hquery, ← typed]
          cases hcheck : w.check t with
          | error e =>
            rw [hcheck] at hv
            cases hv
          | ok u =>
            rw [hcheck] at hv
            exact congrArg Value.type (Except.ok.inj hv).symm
        have hstep' : step p.quotient t
            ⟨(Control.answer (.ok x)).quotient p (p label), .calling ⟨a, mode, i, fun r =>
              p.encodeBody (p label') (next (r.map (p label'').decode))⟩ :: frames'⟩ (w.quotient p use) =
            .running ⟨.body a (p.encodeBody (p label') (next (((w.check t).map fun _ =>
              (p label).encode x.value).map (p label'').decode))), frames'⟩ (w.quotient p use) := rfl
        rw [hreply] at hstep'
        rw [hstep']
        exact .running hw (.intro node (.body rfl (respects _ _ hself)) outer)

end RedGreen
