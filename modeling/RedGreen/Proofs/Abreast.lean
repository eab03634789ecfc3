import RedGreen.Proofs.Constants
import RedGreen.Proofs.Echoes

set_option autoImplicit false

/-! # Evaluations side by side

Two systems evaluate the same request, the second one in a world that echoes that of the first. The
evaluations are *abreast* if they stand at the same point (`World.Abreast`): they hold slots of the same
nodes, their bodies do the same under other numbers, and what they have recorded and what they have still
to look at are slots of the same nodes.

Bodies that are in progress run for slots that are behind. So a slot that is firm does not come from any
slot that is in progress (`LeadsTo.apart`), and what one evaluation does besides leaves both of them where
they stand (`BothAwait.mono`). -/

namespace RedGreen

open Evaluation Relation

variable {p : Program} {use : Usages} {N F : Node → Prop} {ρ ρ' : Renaming}
  {births births' : Nat → Option SlotId} {v v' w w' : World} {i i' j j' : SlotId}
  {busy busy' : List SlotId} {frames frames' : List Frame} {m m' : Memo}

namespace World

/-! ## What is in progress is apart from what is firm -/

/-- Frames that wait for a slot: revalidations have recorded it, and bodies run for slots that are
    behind. -/
inductive LeadsTo (w : World) : SlotId → List Frame → Prop
  | nobody {i : SlotId} : LeadsTo w i []
  | touching {walk : Walk} {dep : SlotId} {frames : List Frame} (records : w.Records walk.slot dep)
    (derived : w.kind? dep ≠ some .input) (outer : LeadsTo w walk.slot frames) :
    LeadsTo w dep (.touching walk dep :: frames)
  | calling {i : SlotId} {caller : Caller} {frames : List Frame}
    (derived : w.kind? caller.activation.slot ≠ some .input) (behind : w.Behind caller.activation.slot)
    (outer : LeadsTo w caller.activation.slot frames) : LeadsTo w i (.calling caller :: frames)

/-- What a firm slot comes from is an input or firm. -/
theorem Firm.path_of_kind (h : w.Firm i) (hpath : ReflTransGen w.Records i j)
    (hkind : w.kind? j ≠ some .input) : w.Firm j := by
  cases hpath with
  | refl => exact h
  | tail hpath hlast =>
    obtain ⟨m, hm, hj⟩ := hlast
    exact ((h.path hpath hm).of_memo hm hj).2 hkind

/-- No slot that a firm slot comes from is in progress around it. -/
theorem LeadsTo.apart (h : w.LeadsTo i frames) (hfirm : w.Firm i) (hpath : ReflTransGen w.Records i j) :
    ∀ frame ∈ frames, frame.slot ≠ j := by
  -- as long as the slots that wait are firm themselves, all of them come from the firm slot
  suffices hleads : ∀ {k : SlotId}, w.LeadsTo k frames → (w.Firm k → ReflTransGen w.Records k i) →
      ∀ frame ∈ frames, ¬ReflTransGen w.Records i frame.slot from
    fun frame hframe heq => hleads h (fun _ => .refl) frame hframe (heq ▸ hpath)
  clear h
  intro k h
  induction h with
  | nobody => exact fun _ => nofun
  | @touching walk dep frames records derived outer ih =>
    intro hk
    have hdep (hwalk : w.Firm walk.slot) : ReflTransGen w.Records dep i := by
      obtain ⟨m, hm, hmem⟩ := records
      exact hk ((hwalk.of_memo hm hmem).2 derived)
    refine List.forall_mem_cons.2 ⟨fun hback => ?_, ih fun hwalk => (hdep hwalk).head records⟩
    obtain ⟨m, hm, -⟩ := id records
    have hwalk : w.Firm walk.slot := hfirm.path hback hm
    exact hwalk.not_comes_back records ((hdep hwalk).trans hback)
  | calling derived behind outer ih =>
    intro hk
    refine List.forall_mem_cons.2 ⟨fun hback => ?_, ih fun hfirm' => absurd hfirm' behind.not_firm⟩
    exact behind.not_firm (hfirm.path_of_kind hback derived)

/-! ## Where two evaluations stand -/

/-- Two revalidations of one node: what is left to look at are slots of the same nodes, and what has been
    looked at has not changed. -/
structure BothWalk (N : Node → Prop) (v w : World) (walk walk' : Walk) (rest rest' : List SlotId)
    (m m' : Memo) : Prop where
  pair : Pairs N v w walk.slot walk'.slot
  revision : walk.revision = v.revision
  revision' : walk'.revision = w.revision
  memo : v.memo? walk.slot = some m
  memo' : w.memo? walk'.slot = some m'
  verifiedAt : walk.verifiedAt = m.verifiedAt
  verifiedAt' : walk'.verifiedAt = m'.verifiedAt
  left : List.Forall₂ (Pairs N v w) rest rest'
  recorded : ∀ j ∈ rest, j ∈ m.deps
  recorded' : ∀ j ∈ rest', j ∈ m'.deps
  passed : ∀ j ∈ m.deps, j ∈ rest ∨
    (v.kind? j = some .input ∨ v.Firm j) ∧ v.changedAt j ≤ m.verifiedAt

/-- Two runs for one node: both are needed, and what they have recorded are slots of the same nodes. -/
structure BothRun (p : Program) (N : Node → Prop) (v w : World) (label : Label) (key : Key)
    (a a' : Activation) : Prop where
  inside : N (p.node label key)
  node : v.node? a.slot = some (p.node label key)
  node' : w.node? a'.slot = some (p.node label key)
  revision : a.revision = v.revision
  revision' : a'.revision = w.revision
  behind : v.Behind a.slot
  behind' : w.Behind a'.slot
  deps : List.Forall₂ (Pairs N v w) a.deps a'.deps

/-- A run in the second world for a node in `F` can be replayed, or it comes to an error. -/
def Backs (p : Program) (F : Node → Prop) (births : Nat → Option SlotId) (w : World) (label : Label)
    (key : Key) (i : SlotId) (b : Body) (deps : List SlotId) : Prop :=
  F (p.node label key) → (∃ k, w.Replays p F births i ((p label).body key) b deps k) ∨ Fails b

/-- Frames that wait for slots of one node. -/
inductive BothAwait (p : Program) (use : Usages) (N F : Node → Prop) (ρ : Renaming)
    (births : Nat → Option SlotId) (v w : World) :
    SlotId → List Frame → SlotId → List Frame → Prop
  | nobody {i i' : SlotId} : BothAwait p use N F ρ births v w i [] i' []
  | touching {walk walk' : Walk} {dep dep' : SlotId} {frames frames' : List Frame} {m m' : Memo}
    (walks : BothWalk N v w walk walk' (dep :: walk.rest) (dep' :: walk'.rest) m m')
    (derived : v.kind? dep = some .derived)
    (outer : BothAwait p use N F ρ births v w walk.slot frames walk'.slot frames') :
    BothAwait p use N F ρ births v w dep (.touching walk dep :: frames) dep'
      (.touching walk' dep' :: frames')
  | calling {label label' : Label} {key key' : Key} {a a' : Activation} {mode : CallMode}
    {callee callee' : SlotId} {next next' : Except QueryError Value → Body} {frames frames' : List Frame}
    (runs : BothRun p N v w label key a a')
    (relates : ρ.Relates p use (p.MayPark (p.node label key)) (p label).valueType
      (.call mode label' key' next) (.call mode label' key' next'))
    (called : v.node? callee = some (p.node label' key'))
    (called' : w.node? callee' = some (p.node label' key'))
    {deps : List SlotId} (recorded : a'.deps = recordOnce callee' deps)
    (backs : w.Backs p F births label key a'.slot (.call mode label' key' next') deps)
    (outer : BothAwait p use N F ρ births v w a.slot frames a'.slot frames') :
    BothAwait p use N F ρ births v w callee (.calling ⟨a, mode, callee, next⟩ :: frames) callee'
      (.calling ⟨a', mode, callee', next'⟩ :: frames')

/-- Two evaluations that stand at the same point. -/
inductive Abreast (p : Program) (use : Usages) (N F : Node → Prop) (ρ : Renaming)
    (births : Nat → Option SlotId) (v w : World) : Evaluation → Evaluation → Prop
  | requested {i i' : SlotId} {frames frames' : List Frame} (pair : Pairs N v w i i')
    (derived : v.kind? i = some .derived)
    (awaits : BothAwait p use N F ρ births v w i frames i' frames') :
    Abreast p use N F ρ births v w ⟨.fetch i, frames⟩ ⟨.fetch i', frames'⟩
  | walking {walk walk' : Walk} {frames frames' : List Frame} {m m' : Memo}
    (walks : BothWalk N v w walk walk' walk.rest walk'.rest m m')
    (awaits : BothAwait p use N F ρ births v w walk.slot frames walk'.slot frames') :
    Abreast p use N F ρ births v w ⟨.walk walk, frames⟩ ⟨.walk walk', frames'⟩
  | computing {label : Label} {key : Key} {i i' : SlotId} {r r' : Revision} {frames frames' : List Frame}
    (runs : BothRun p N v w label key ⟨i, r, []⟩ ⟨i', r', []⟩)
    (awaits : BothAwait p use N F ρ births v w i frames i' frames') :
    Abreast p use N F ρ births v w ⟨.compute i r, frames⟩ ⟨.compute i' r', frames'⟩
  | running {label : Label} {key : Key} {a a' : Activation} {b b' : Body} {frames frames' : List Frame}
    (runs : BothRun p N v w label key a a')
    (relates : ρ.Relates p use (p.MayPark (p.node label key)) (p label).valueType b b')
    (backs : w.Backs p F births label key a'.slot b' a'.deps)
    (awaits : BothAwait p use N F ρ births v w a.slot frames a'.slot frames') :
    Abreast p use N F ρ births v w ⟨.body a b, frames⟩ ⟨.body a' b', frames'⟩
  | failed {i i' : SlotId} {e : QueryError} {frames frames' : List Frame}
    (awaits : BothAwait p use N F ρ births v w i frames i' frames') :
    Abreast p use N F ρ births v w ⟨.answer (.error e), frames⟩ ⟨.answer (.error e), frames'⟩
  | answered {i i' : SlotId} {m m' : Memo} {frames frames' : List Frame} (pair : Pairs N v w i i')
    (memo : v.memo? i = some m) (memo' : w.memo? i' = some m')
    (awaits : BothAwait p use N F ρ births v w i frames i' frames') :
    Abreast p use N F ρ births v w ⟨.answer (.ok m.toStamped), frames⟩
      ⟨.answer (.ok m'.toStamped), frames'⟩

/-! ## What waits on either side -/

theorem BothRun.derived (hp : p.Consistent use) {label : Label} {key : Key} {a a' : Activation}
    (h : BothRun p N v w label key a a') (hv : Tidy p use v.toSystem) (hw : Tidy p use w.toSystem) :
    v.kind? a.slot = some .derived ∧ w.kind? a'.slot = some .derived :=
  ⟨hv.kind?_node hp h.node, hw.kind?_node hp h.node'⟩

theorem BothAwait.leadsTo (hp : p.Consistent use) (hv : Tidy p use v.toSystem)
    (hw : Tidy p use w.toSystem) (h : BothAwait p use N F ρ births v w i frames i' frames') :
    v.LeadsTo i frames ∧ w.LeadsTo i' frames' := by
  induction h with
  | nobody => exact ⟨.nobody, .nobody⟩
  | touching walks derived outer ih =>
    have hpair := (List.forall₂_cons.1 walks.left).1
    have hderived' := (hpair.kind? hv hw).trans derived
    exact ⟨.touching ⟨_, walks.memo, walks.recorded _ List.mem_cons_self⟩ (by simp [derived]) ih.1,
      .touching ⟨_, walks.memo', walks.recorded' _ List.mem_cons_self⟩ (by simp [hderived']) ih.2⟩
  | calling runs _ _ _ _ _ outer ih =>
    obtain ⟨hderived, hderived'⟩ := runs.derived hp hv hw
    exact ⟨.calling (by simp [hderived]) runs.behind ih.1,
      .calling (by simp [hderived']) runs.behind' ih.2⟩

/-- Whatever may be parked is waited for. -/
theorem BothAwait.parks (h : BothAwait p use N F ρ births v w i frames i' frames') (hρ : ρ.Consistent)
    {root : SlotId} (hdescends : v.DescendsTo p root i frames) {n : Node} (hi : v.node? i = some n)
    (hparks : p.MayPark n) : splitAtImmediate frames = none ∧ splitAtImmediate frames' = none := by
  induction h generalizing n with
  | nobody => exact ⟨rfl, rfl⟩
  | touching walks derived outer ih =>
    cases hdescends with
    | touching edges houter =>
      obtain ⟨m, n₁, hm, hn₁, hrefers⟩ := edges _ List.mem_cons_self
      obtain rfl := Option.some.inj (hi.symm.trans hn₁)
      exact (ih houter hm (hparks.of_refers hrefers)).imp splitAtImmediate_touching
        splitAtImmediate_touching
  | calling runs relates called called' recorded backs outer ih =>
    cases hdescends with
    | calling minds edge houter =>
      obtain ⟨m, n₁, hm, hn₁, hrefers⟩ := edge
      obtain rfl := Option.some.inj (hi.symm.trans hn₁)
      obtain rfl := Option.some.inj (hi.symm.trans called)
      cases relates.unfolds hρ with
      | call _ waits _ =>
        exact (ih houter hm (hparks.of_refers hrefers)).imp (splitAtImmediate_calling (waits hparks))
          (splitAtImmediate_calling (waits hparks))

/-! ## What goes on meanwhile -/

theorem Backs.mono {label : Label} {key : Key} {b : Body} {deps : List SlotId}
    (h : w.Backs p F births label key i b deps) (hkept : w.Preserves F w')
    (hbirths : ∀ n i, births n = some i → births' n = some i) :
    w'.Backs p F births' label key i b deps := fun hF =>
  (h hF).imp_left fun ⟨k, hrun⟩ => ⟨k, hrun.mono hkept fun n => hbirths n i⟩

section Mono

variable (hv : v.Elapses N busy v') (hw : w.Elapses N busy' w') (hlinked : v.Linked)
include hv hw

include hlinked in
theorem BothWalk.mono {walk walk' : Walk} {rest rest' : List SlotId}
    (h : BothWalk N v w walk walk' rest rest' m m') (hbusy : walk.slot ∈ busy)
    (hbusy' : walk'.slot ∈ busy') : BothWalk N v' w' walk walk' rest rest' m m' where
  pair := h.pair.mono hv.node hw.node
  revision := h.revision.trans hv.revision.symm
  revision' := h.revision'.trans hw.revision.symm
  memo := (hv.spared _ hbusy).trans h.memo
  memo' := (hw.spared _ hbusy').trans h.memo'
  verifiedAt := h.verifiedAt
  verifiedAt' := h.verifiedAt'
  left := h.left.imp fun _ _ hpair => hpair.mono hv.node hw.node
  recorded := h.recorded
  recorded' := h.recorded'
  passed j hj := (h.passed j hj).imp_right fun ⟨hkept, hunchanged⟩ => by
    rw [hv.changedAt_eq hlinked hkept]
    exact ⟨hkept.imp (hv.kind j _) fun hfirm => hfirm.elapses hv hlinked, hunchanged⟩

theorem BothRun.mono {label : Label} {key : Key} {a a' : Activation}
    (h : BothRun p N v w label key a a') (hbusy : a.slot ∈ busy) (hbusy' : a'.slot ∈ busy') :
    BothRun p N v' w' label key a a' where
  inside := h.inside
  node := hv.node _ _ h.node
  node' := hw.node _ _ h.node'
  revision := h.revision.trans hv.revision.symm
  revision' := h.revision'.trans hw.revision.symm
  behind := h.behind.elapses hv hbusy
  behind' := h.behind'.elapses hw hbusy'
  deps := h.deps.imp fun _ _ hpair => hpair.mono hv.node hw.node

include hlinked in
/-- Frames go on waiting as long as their slots are spared. -/
theorem BothAwait.mono (h : BothAwait p use N F ρ births v w i frames i' frames')
    (hbusy : frames.map Frame.slot ⊆ busy) (hbusy' : frames'.map Frame.slot ⊆ busy') (hρ : ρ ⊆ ρ')
    (hkept : w.Preserves F w') (hbirths : ∀ n i, births n = some i → births' n = some i) :
    BothAwait p use N F ρ' births' v' w' i frames i' frames' := by
  induction h with
  | nobody => exact .nobody
  | touching walks derived outer ih =>
    obtain ⟨hself, hrest⟩ := List.cons_subset.1 hbusy
    obtain ⟨hself', hrest'⟩ := List.cons_subset.1 hbusy'
    exact .touching (walks.mono hv hw hlinked hself hself') (hv.kind _ _ derived) (ih hrest hrest')
  | calling runs relates called called' recorded backs outer ih =>
    obtain ⟨hself, hrest⟩ := List.cons_subset.1 hbusy
    obtain ⟨hself', hrest'⟩ := List.cons_subset.1 hbusy'
    exact .calling (runs.mono hv hw hself hself') (relates.mono hρ) (hv.node _ _ called)
      (hw.node _ _ called') recorded (backs.mono hkept hbirths) (ih hrest hrest')

end Mono

end World

end RedGreen
