import RedGreen.Proofs.CatchingUp

set_option autoImplicit false

/-! # In lockstep

An evaluation in the first of two joined worlds, and one beside it in the second world. Whatever the
first one does next, it gets to a point that the second one gets to as well (`Beside.strides`). For most
steps the second one takes the same step. A request for a firm slot is answered in both worlds with what
the slots hold, whatever it takes to find it valid there; and where the second world keeps a value
already that the first one does not, the first one catches up. -/

namespace RedGreen

open Evaluation Relation

variable {p : Program} {use : Usages} {N F : Node → Prop} {ρ ρ' : Renaming} {t t' : Token}
  {births births' : Nat → Option SlotId} {v v' v₁ w w' w₁ : World} {i i' j j' : SlotId}
  {m m' : Memo} {frames frames' : List Frame} {root root' : SlotId} {e e' e₁ e₁' : Evaluation}

/-- Driving an evaluation for a while, at least for one step, leads to another point of it. -/
def Evaluation.Strides (p : Program) (t : Token) (e : Evaluation) (w : World) (e' : Evaluation)
    (w' : World) : Prop := ∃ n, e.drive p t (n + 1) w = .running e' w'

theorem Evaluation.Strides.reaches (h : e.Strides p t w e' w') : Reaches p t e w e' w' :=
  let ⟨n, hn⟩ := h
  ⟨n + 1, hn⟩

theorem Evaluation.Strides.of_step (h : e.step p t w = .running e' w') : e.Strides p t w e' w' :=
  ⟨0, drive_succ_of_running h⟩

theorem Evaluation.Strides.of_parked (h : e.step p t w = .parked e' w') : e.Strides p t w e' w' :=
  ⟨0, drive_succ_of_parked h⟩

theorem Evaluation.Strides.of_reaches (h : Reaches p t e w e' w') (hne : e ≠ e') :
    e.Strides p t w e' w' := by
  obtain ⟨n, hn⟩ := h
  cases n with
  | zero =>
    cases hn
    exact absurd rfl hne
  | succ n => exact ⟨n, hn⟩

/-- No frame stands for the slot of the control. -/
theorem Evaluation.Orderly.apart {c : Control} (h : Evaluation.Orderly p w root ⟨c, frames⟩)
    (hc : c.slot? = some i) : i ∉ frames.map Frame.slot := by
  have hnodup := h.stacked.nodup
  rw [held, hc] at hnodup
  exact (List.nodup_cons.1 hnodup).1

/-- What a firm slot comes from is not in progress when the slot is requested. -/
theorem Evaluation.Orderly.aside (h : Evaluation.Orderly p w root ⟨.fetch i, frames⟩)
    (hleads : w.LeadsTo i frames) (hfirm : w.Firm i) (hpath : ReflTransGen w.Records i j) :
    j ∉ w.active := by
  intro hactive
  obtain ⟨frame, hframe, heq⟩ := List.mem_map.1 (h.stacked.mem_iff.1 hactive)
  exact hleads.apart hfirm hpath frame hframe heq

/-- The slots of the frames are in progress. -/
theorem Evaluation.Orderly.frames_subset {c : Control} (h : Evaluation.Orderly p w root ⟨c, frames⟩) :
    frames.map Frame.slot ⊆ w.active :=
  fun _ hj => h.stacked.mem_iff.2 (List.mem_append_right _ hj)

namespace World

/-- Two evaluations that are abreast, in joined worlds. -/
structure Beside (p : Program) (use : Usages) (N F : Node → Prop) (t t' : Token) (root root' : SlotId)
    (ρ : Renaming) (births : Nat → Option SlotId) (v w : World) (e e' : Evaluation) : Prop where
  left : e.Orderly p v root
  right : e'.Orderly p w root'
  joined : Joined p use N F ρ births [] v w
  abreast : Abreast p use N F ρ births v w e e'
  active : List.Forall₂ (Pairs N v w) v.active w.active
  untroubled : v.cancelled = []
  untroubled' : w.cancelled = []

theorem Beside.uncancelled {e e' : Evaluation} (h : Beside p use N F t t' root root' ρ births v w e e') :
    t ∉ v.cancelled := by
  rw [h.untroubled]
  exact List.not_mem_nil

theorem Beside.uncancelled' {e e' : Evaluation} (h : Beside p use N F t t' root root' ρ births v w e e') :
    t' ∉ w.cancelled := by
  rw [h.untroubled']
  exact List.not_mem_nil

/-- The first evaluation strides on, and the second one gets beside it again. -/
def KeepsPace (p : Program) (use : Usages) (N F : Node → Prop) (t t' : Token) (root root' : SlotId)
    (ρ : Renaming) (births : Nat → Option SlotId) (v w : World) (e e' : Evaluation) : Prop :=
  ∃ ρ₁ births₁ e₁ v₁ e₁' w₁, e.Strides p t v e₁ v₁ ∧ Reaches p t' e' w e₁' w₁ ∧
    Beside p use N F t t' root root' ρ₁ births₁ v₁ w₁ e₁ e₁' ∧ ρ ⊆ ρ₁ ∧ w.Elapses N [] w₁ ∧
    ∀ n, n < w.allocations → births₁ n = births n

/-! ## Worlds that go on beside each other -/

/-- What is new in the second world is new in the first one, too. -/
theorem Joined.goesOn (h : Joined p use N F ρ births [] v w) (hv : v.Elapses N [] v')
    (hw : w.Elapses N [] w') (hlinked : v.Linked) (hlinked' : w.Linked)
    (hle : v.allocations ≤ v'.allocations) (hle' : w.allocations ≤ w'.allocations)
    (hrooted : v'.Rooted p use F) (hrooted' : w'.Rooted p use F) (hechoes : Echoes use N F ρ v' w')
    (hnew : ∀ i' n m', F n → w'.node? i' = some n → w'.memo? i' = some m' →
      (∃ m, w.memo? i' = some m) ∨ (∃ i m, v'.node? i = some n ∧ v'.memo? i = some m) ∧
        ∀ label key, n = p.node label key →
          ∃ k, w'.Replays p F births i' ((p label).body key) (.done (.ok m'.value)) m'.deps k) :
    Joined p use N F ρ births [] v' w' where
  rooted := hrooted
  rooted' := hrooted'
  echoes := hechoes
  consistent := h.consistent
  bounded ab hab := ⟨Nat.lt_of_lt_of_le (h.bounded ab hab).1 hle,
    Nat.lt_of_lt_of_le (h.bounded ab hab).2 hle'⟩
  explains := by
    refine h.explains.mono (h.rooted'.preserves hw hlinked') (fun _ _ hn => hn)
      (fun n i hn => Nat.lt_of_lt_of_le (h.explains.bound n i hn) hle') fun i label key m' hF hi hm' => ?_
    exact (hnew i _ m' hF hi hm').imp_right fun hlanded => hlanded.2 label key rfl
  fresh ab hab i' hborn hX n m' hF hi' hm' := by
    rcases hnew i' n m' hF hi' hm' with ⟨m, hm⟩ | ⟨hkept, -⟩
    · obtain ⟨n₁, hn₁⟩ := exists_node_of_memo hm
      obtain rfl := Option.some.inj ((hw.node i' n₁ hn₁).symm.trans hi')
      obtain ⟨i, o, hi, ho⟩ := h.fresh ab hab i' hborn hX n₁ m hF hn₁ hm
      obtain ⟨o', ho', -⟩ := (h.rooted.preserves hv hlinked).memo i n₁ o hF hi ho
      exact ⟨i, o', hv.node i n₁ hi, ho'⟩
    · exact hkept

/-- In both worlds slots may be new, and nothing else. -/
theorem Joined.grows (h : Joined p use N F ρ births [] v w) (hv : v.Grows v') (hw : w.Grows w')
    (hlinked : v.Linked) (hlinked' : w.Linked) (ht : Tidy p use v'.toSystem)
    (ht' : Tidy p use w'.toSystem) (hle : v.allocations ≤ v'.allocations)
    (hle' : w.allocations ≤ w'.allocations) : Joined p use N F ρ births [] v' w' :=
  h.goesOn (hv.elapses h.rooted.tidy ht) (hw.elapses h.rooted'.tidy ht') hlinked hlinked' hle hle'
    (h.rooted.grows hv hlinked ht) (h.rooted'.grows hw hlinked' ht')
    ((h.echoes.sustains_left hv.sustains).sustains_right hw.sustains)
    fun i' _ m' _ _ hm' => .inl ⟨m', (hw.memo i').symm.trans hm'⟩

/-- The second world finds valid what is firm there. -/
theorem Joined.refreshes_right (h : Joined p use N F ρ births [] v w) (hw : w.Refreshes p use w')
    (he : w.Elapses N [] w') (hlinked' : w.Linked) (hle' : w.allocations ≤ w'.allocations) :
    Joined p use N F ρ births [] v w' where
  rooted := h.rooted
  rooted' := h.rooted'.refreshes hw hlinked'
  echoes := h.echoes.sustains_right (hw.sustains hlinked')
  consistent := h.consistent
  bounded ab hab := ⟨(h.bounded ab hab).1, Nat.lt_of_lt_of_le (h.bounded ab hab).2 hle'⟩
  explains := h.explains.keeps (h.rooted'.preserves he hlinked') hle' fun i m' hm' => by
    rcases hw.memo i with hsame | ⟨-, m, hm, -⟩
    · exact ⟨m', hsame.symm.trans hm'⟩
    · exact ⟨m, hm⟩
  fresh ab hab i' hborn hX n m' hF hi' hm' := by
    obtain ⟨m, hm⟩ : ∃ m, w.memo? i' = some m := by
      rcases hw.memo i' with hsame | ⟨-, m, hm, -⟩
      · exact ⟨m', hsame.symm.trans hm'⟩
      · exact ⟨m, hm⟩
    obtain ⟨n₁, hn₁⟩ := exists_node_of_memo hm
    obtain rfl := Option.some.inj ((hw.node i' n₁ hn₁).symm.trans hi')
    exact h.fresh ab hab i' hborn hX n₁ m hF hn₁ hm

section Strides

variable (htr : ∀ label key, Transparent ((p label).body key))
  (h : Beside p use N F t t' root root' ρ births v w e e')
include htr h

/-- The evaluations get to a point where they are abreast in joined worlds. -/
theorem Beside.keepsPace (hstrides : e.Strides p t v e₁ v₁) (hreach : Reaches p t' e' w e₁' w₁)
    (hv : v.Elapses N [] v₁) (hw : w.Elapses N [] w₁) (hjoined : Joined p use N F ρ' births' [] v₁ w₁)
    (habreast : Abreast p use N F ρ' births' v₁ w₁ e₁ e₁')
    (hactive : List.Forall₂ (Pairs N v₁ w₁) v₁.active w₁.active) (hρ : ρ ⊆ ρ')
    (hbirths : ∀ n, n < w.allocations → births' n = births n) :
    KeepsPace p use N F t t' root root' ρ births v w e e' :=
  ⟨ρ', births', e₁, v₁, e₁', w₁, hstrides, hreach,
    ⟨hstrides.reaches.orderly htr h.left, hreach.orderly htr h.right, hjoined, habreast, hactive,
      hv.cancelled.trans h.untroubled, hw.cancelled.trans h.untroubled'⟩, hρ, hw, hbirths⟩

/-- In both worlds slots may be new, and nothing else. -/
theorem Beside.grows (hstrides : e.Strides p t v e₁ v₁) (hreach : Reaches p t' e' w e₁' w₁)
    (hv : v.Grows v₁) (hw : w.Grows w₁) (htidy : Tidy p use v₁.toSystem)
    (htidy' : Tidy p use w₁.toSystem)
    (habreast : Abreast p use N F ρ births v₁ w₁ e₁ e₁')
    (hactive : List.Forall₂ (Pairs N v₁ w₁) v₁.active w₁.active) :
    KeepsPace p use N F t t' root root' ρ births v w e e' := by
  have hjoined := h.joined.grows hv hw h.left.linked h.right.linked htidy htidy'
    (allocations_le_of_edits hstrides.reaches.edits) (allocations_le_of_edits hreach.edits)
  exact h.keepsPace htr hstrides hreach (hv.elapses h.joined.rooted.tidy htidy)
    (hw.elapses h.joined.rooted'.tidy htidy') hjoined habreast hactive (List.Subset.refl ρ)
    fun _ _ => rfl

end Strides

/-! ## Frames -/

section Grow

variable (hv : v.Grows v₁) (hw : w.Grows w₁)
include hv hw

theorem pairs_grow {is is' : List SlotId} (h : List.Forall₂ (Pairs N v w) is is') :
    List.Forall₂ (Pairs N v₁ w₁) is is' := h.imp fun _ _ hpair => hpair.mono hv.node hw.node

theorem BothAwait.grow (h : BothAwait p use N F ρ births v w i frames i' frames')
    (hlinked : v.Linked) (ht : Tidy p use v.toSystem) (ht' : Tidy p use w.toSystem)
    (htidy : Tidy p use v₁.toSystem) (htidy' : Tidy p use w₁.toSystem) :
    BothAwait p use N F ρ births v₁ w₁ i frames i' frames' :=
  h.mono (hv.elapses ht htidy) (hw.elapses ht' htidy') hlinked (List.Subset.refl _)
    (List.Subset.refl _) (List.Subset.refl _) hw.preserves fun _ _ hn => hn

theorem BothRun.grow {label : Label} {key : Key} {a a' : Activation}
    (h : BothRun p N v w label key a a') (ht : Tidy p use v.toSystem) (ht' : Tidy p use w.toSystem)
    (htidy : Tidy p use v₁.toSystem) (htidy' : Tidy p use w₁.toSystem) :
    BothRun p N v₁ w₁ label key a a' :=
  h.mono (hv.elapses ht htidy) (hw.elapses ht' htidy') (List.mem_singleton_self _)
    (List.mem_singleton_self _)

theorem BothWalk.grow {walk walk' : Walk} {rest rest' : List SlotId}
    (h : BothWalk N v w walk walk' rest rest' m m') (hlinked : v.Linked) (ht : Tidy p use v.toSystem)
    (ht' : Tidy p use w.toSystem) (htidy : Tidy p use v₁.toSystem) (htidy' : Tidy p use w₁.toSystem) :
    BothWalk N v₁ w₁ walk walk' rest rest' m m' :=
  h.mono (hv.elapses ht htidy) (hw.elapses ht' htidy') hlinked (List.mem_singleton_self _)
    (List.mem_singleton_self _)

end Grow

/-! ## Revalidations -/

/-- Of the dependencies of one node both or neither have changed. -/
theorem BothWalk.test {walk walk' : Walk} {dep dep' : SlotId} {rest rest' : List SlotId}
    (h : BothWalk N v w walk walk' (dep :: rest) (dep' :: rest') m m') (hechoes : Echoes use N F ρ v w)
    (hv : Tidy p use v.toSystem) (hw : Tidy p use w.toSystem) :
    walk.verifiedAt < v.changedAt dep ↔ walk'.verifiedAt < w.changedAt dep' := by
  obtain ⟨n, hn, hslot, hslot'⟩ := h.pair
  obtain ⟨o', ho', hecho⟩ := hechoes.memo_at hw hn hslot hslot' h.memo
  obtain rfl := Option.some.inj (h.memo'.symm.trans ho')
  obtain ⟨k', -, hpair, htest⟩ := exists_right_of_mem hecho.deps (h.recorded dep List.mem_cons_self)
  obtain rfl := (Pairs.biUnique hv hw).2 hpair (List.forall₂_cons.1 h.left).1
  rwa [h.verifiedAt, h.verifiedAt']

section Walks

variable (hp : p.Anonymous use) (htr : ∀ label key, Transparent ((p label).body key))
include htr

/-- A dependency was brought up to date in both worlds. -/
theorem Beside.touches (h : Beside p use N F t t' root root' ρ births v w e e') {walk walk' : Walk}
    {dep dep' : SlotId}
    (walks : BothWalk N v w walk walk' (dep :: walk.rest) (dep' :: walk'.rest) m m')
    (hdep : v.kind? dep = some .input ∨ v.Firm dep)
    (awaits : BothAwait p use N F ρ births v w walk.slot frames walk'.slot frames')
    (hstep : e.step p t v = resume frames (v.touched t walk dep (v.changedAt dep)))
    (hstep' : e'.step p t' w = resume frames' (w.touched t' walk' dep' (w.changedAt dep'))) :
    KeepsPace p use N F t t' root root' ρ births v w e e' := by
  have ht := h.joined.rooted.tidy
  have ht' := h.joined.rooted'.tidy
  have hlinked := h.left.linked
  have htest := walks.test h.joined.echoes ht ht'
  have hspec := v.touched_spec t walk dep (v.changedAt dep)
  have hspec' := w.touched_spec t' walk' dep' (w.changedAt dep')
  generalize v.touched t walk dep (v.changedAt dep) = out at hspec hstep
  generalize w.touched t' walk' dep' (w.changedAt dep') = out' at hspec' hstep'
  cases hspec with
  | cancelled cancelled => exact absurd cancelled h.uncancelled
  | changed changed quiet active =>
    cases hspec' with
    | cancelled cancelled => exact absurd cancelled h.uncancelled'
    | unchanged unchanged => exact absurd unchanged (Nat.not_le_of_lt (htest.1 changed))
    | changed changed' quiet' active' =>
      obtain ⟨label, key, hnode⟩ := ht.node?_of_derived (System.kind?_of_memo walks.memo)
      obtain ⟨n, hn, hslot, hslot'⟩ := walks.pair
      obtain rfl := Option.some.inj (hslot.symm.trans hnode)
      have hruns : BothRun p N v w label key ⟨walk.slot, walk.revision, []⟩
          ⟨walk'.slot, walk'.revision, []⟩ := by
        refine ⟨hn, hslot, hslot', walks.revision, walks.revision', fun o ho => ?_, fun o' ho' => ?_, .nil⟩
        · obtain rfl := Option.some.inj (walks.memo.symm.trans ho)
          exact ⟨dep, walks.recorded dep List.mem_cons_self, walks.verifiedAt ▸ changed⟩
        · obtain rfl := Option.some.inj (walks.memo'.symm.trans ho')
          exact ⟨dep', walks.recorded' dep' List.mem_cons_self, walks.verifiedAt' ▸ changed'⟩
      have hv := quiet.grows
      have hw := quiet'.grows
      have htidy := quiet.tidy ht
      have htidy' := quiet'.tidy ht'
      refine h.grows htr (.of_step hstep) (.of_step hstep') hv hw htidy htidy'
        (.computing (hruns.grow hv hw ht ht' htidy htidy')
          (awaits.grow hv hw hlinked ht ht' htidy htidy')) ?_
      rw [active, active']
      exact pairs_grow hv hw h.active
  | unchanged unchanged =>
    cases hspec' with
    | cancelled cancelled => exact absurd cancelled h.uncancelled'
    | changed changed' => exact absurd unchanged (Nat.not_le_of_lt (htest.2 changed'))
    | unchanged unchanged' =>
      have hpassed (j : SlotId) (hj : j ∈ m.deps) : j ∈ walk.rest ∨
          (v.kind? j = some .input ∨ v.Firm j) ∧ v.changedAt j ≤ m.verifiedAt := by
        rcases walks.passed j hj with hleft | hpassed
        · rcases List.mem_cons.1 hleft with rfl | hleft
          · exact .inr ⟨hdep, walks.verifiedAt ▸ unchanged⟩
          · exact .inl hleft
        · exact .inr hpassed
      have hwalks : BothWalk N v w walk walk' walk.rest walk'.rest m m' :=
        { walks with
          left := (List.forall₂_cons.1 walks.left).2
          recorded := fun j hj => walks.recorded j (List.mem_cons_of_mem _ hj)
          recorded' := fun j hj => walks.recorded' j (List.mem_cons_of_mem _ hj)
          passed := hpassed }
      exact h.grows htr (.of_step hstep) (.of_step hstep') (.refl v) (.refl w) ht ht'
        (.walking hwalks awaits) h.active

/-- What is answered in both worlds, with memos that were there in the second one. -/
theorem Beside.answers (h : Beside p use N F t t' root root' ρ births v w e e')
    (hstrides : e.Strides p t v ⟨.answer (.ok m.toStamped), frames⟩ v₁)
    (hreach : Reaches p t' e' w ⟨.answer (.ok m'.toStamped), frames'⟩ w₁)
    (awaits : BothAwait p use N F ρ births v w i frames i' frames') (pair : Pairs N v w i i')
    (hm : v₁.memo? i = some m) (hm' : w₁.memo? i' = some m') {busy busy' : List SlotId}
    (he : v.Elapses N busy v₁) (he' : w.Elapses N busy' w₁) (hbusy : frames.map Frame.slot ⊆ busy)
    (hbusy' : frames'.map Frame.slot ⊆ busy') (hrefreshes : w.Refreshes p use w₁) (hρ : ρ ⊆ ρ')
    (hjoined : Joined p use N F ρ' births [] v₁ w)
    (hactive : List.Forall₂ (Pairs N v₁ w₁) v₁.active w₁.active) :
    KeepsPace p use N F t t' root root' ρ births v w e e' := by
  have hlinked' := h.right.linked
  have he'₀ := he'.mono (List.nil_subset busy')
  refine h.keepsPace htr hstrides hreach (he.mono (List.nil_subset busy)) he'₀
    (hjoined.refreshes_right hrefreshes he'₀ hlinked' (allocations_le_of_edits hreach.edits))
    (.answered (pair.mono he.node he'.node) hm hm' ?_) hactive hρ fun _ _ => rfl
  exact awaits.mono he he' h.left.linked hbusy hbusy' hρ (h.joined.rooted'.preserves he' hlinked')
    fun _ _ hn => hn

include hp in
/-- A revalidation goes on in both worlds. -/
theorem Beside.strides_walking {walk walk' : Walk}
    (h : Beside p use N F t t' root root' ρ births v w ⟨.walk walk, frames⟩ ⟨.walk walk', frames'⟩)
    (walks : BothWalk N v w walk walk' walk.rest walk'.rest m m')
    (awaits : BothAwait p use N F ρ births v w walk.slot frames walk'.slot frames') :
    KeepsPace p use N F t t' root root' ρ births v w ⟨.walk walk, frames⟩ ⟨.walk walk', frames'⟩ := by
  have ht := h.joined.rooted.tidy
  have ht' := h.joined.rooted'.tidy
  have hlinked := h.left.linked
  obtain ⟨slot, revision, verifiedAt, rest⟩ := walk
  obtain ⟨slot', revision', verifiedAt', rest'⟩ := walk'
  obtain ⟨n, hn, hslot, hslot'⟩ := walks.pair
  cases rest with
  | nil =>
    obtain rfl : rest' = [] := List.forall₂_nil_left_iff.1 walks.left
    obtain rfl : revision = v.revision := walks.revision
    obtain rfl : revision' = w.revision := walks.revision'
    obtain rfl : verifiedAt = m.verifiedAt := walks.verifiedAt
    obtain rfl : verifiedAt' = m'.verifiedAt := walks.verifiedAt'
    -- nothing has changed, so the slot is firm
    have hpassed (j : SlotId) (hj : j ∈ m.deps) := (walks.passed j hj).resolve_left List.not_mem_nil
    have hfirm : v.Firm slot := .intro walks.memo (fun j hj => (hpassed j hj).2)
      fun j hj hkind => (hpassed j hj).1.resolve_left hkind
    have hfirm' := h.joined.echoes.firm ht ht' hfirm walks.pair
    obtain ⟨m₁, v₁, hreach, hm₁, hrefreshes, hactive, helapses⟩ := reaches_confirmed hp.toConsistent
      h.joined.rooted hfirm hn hslot walks.memo (h.left.apart rfl) frames (t := t)
    obtain ⟨m₁', w₁, hreach', hm₁', hrefreshes', hactive', helapses'⟩ := reaches_confirmed hp.toConsistent
      h.joined.rooted' hfirm' hn hslot' walks.memo' (h.right.apart rfl) frames' (t := t')
    refine h.answers htr (.of_reaches hreach fun heq => by cases heq) hreach' awaits walks.pair hm₁ hm₁'
      helapses helapses' (List.Subset.refl _) (List.Subset.refl _) hrefreshes' (List.Subset.refl _) ?_ ?_
    · exact h.joined.left (h.joined.rooted.refreshes hrefreshes hlinked)
        (h.joined.echoes.sustains_left (hrefreshes.sustains hlinked))
        (h.joined.rooted.preserves helapses hlinked) (allocations_le_of_edits hreach.edits)
    · rw [hactive, hactive']
      refine (forall₂_dropInnermost ht ht' h.active walks.pair).imp fun _ _ hpair => ?_
      exact hpair.mono helapses.node helapses'.node
  | cons dep rest =>
    obtain ⟨dep', rest', hpair, hrest, rfl⟩ := List.forall₂_cons_left_iff.1 walks.left
    have hkind' := hpair.kind? ht ht'
    have hwalks : BothWalk N v w ⟨slot, revision, verifiedAt, rest⟩ ⟨slot', revision', verifiedAt', rest'⟩
        (dep :: rest) (dep' :: rest') m m' := { walks with }
    by_cases hkind : v.kind? dep = some .derived
    · refine h.grows htr (.of_step ?_) (.of_step ?_) (.refl v) (.refl w) ht ht'
        (.requested hpair hkind (.touching hwalks hkind awaits)) h.active
      · simp only [Evaluation.step, stepWalk, hkind, if_true]
      · simp only [Evaluation.step, stepWalk, hkind', hkind, if_true]
    · have hinput : v.kind? dep = some .input := by
        rcases hlinked.lasts slot m walks.memo dep (walks.recorded dep List.mem_cons_self) with
          hinput | ⟨o, ho, -⟩
        · exact hinput
        · exact absurd (System.kind?_of_memo ho) hkind
      refine h.touches htr hwalks (.inl hinput) awaits ?_ ?_
      · simp only [Evaluation.step, stepWalk, if_neg hkind]
      · simp only [Evaluation.step, stepWalk, hkind', if_neg hkind]

end Walks

/-! ## Requests -/

section Requests

variable (hp : p.Anonymous use) (htr : ∀ label key, Transparent ((p label).body key))
  (hrealm : p.Realm use N F)
  (h : Beside p use N F t t' root root' ρ births v w ⟨.fetch i, frames⟩ ⟨.fetch i', frames'⟩)
  (pair : Pairs N v w i i') (awaits : BothAwait p use N F ρ births v w i frames i' frames')
include hp htr hrealm h pair awaits

/-- What is firm in the first world is answered in both with what the slots hold. -/
theorem Beside.strides_firm (hfirm : v.Firm i) :
    KeepsPace p use N F t t' root root' ρ births v w ⟨.fetch i, frames⟩ ⟨.fetch i', frames'⟩ := by
  have ht := h.joined.rooted.tidy
  have ht' := h.joined.rooted'.tidy
  have hlinked := h.left.linked
  obtain ⟨hleads, hleads'⟩ := awaits.leadsTo hp.toConsistent ht ht'
  have hfirm' := h.joined.echoes.firm ht ht' hfirm pair
  obtain ⟨n, hn, hi, hi'⟩ := id pair
  obtain ⟨m, v₁, hreach, hm, hrefreshes, hactive, helapses⟩ := hfirm.answers hp.toConsistent
    hrealm.closed hn hi h.joined.rooted h.left h.uncancelled fun _ => h.left.aside hleads hfirm
  obtain ⟨m', w₁, hreach', hm', hrefreshes', hactive', helapses'⟩ := hfirm'.answers hp.toConsistent
    hrealm.closed hn hi' h.joined.rooted' h.right h.uncancelled' fun _ => h.right.aside hleads' hfirm'
  refine h.answers htr (.of_reaches hreach fun heq => by cases heq) hreach' awaits pair hm hm' helapses
    helapses' h.left.frames_subset h.right.frames_subset hrefreshes' (List.Subset.refl _) ?_ ?_
  · exact h.joined.left (h.joined.rooted.refreshes hrefreshes hlinked)
      (h.joined.echoes.sustains_left (hrefreshes.sustains hlinked))
      (h.joined.rooted.preserves helapses hlinked) (allocations_le_of_edits hreach.edits)
  · rw [hactive, hactive']
    exact h.active.imp fun _ _ hpair => hpair.mono helapses.node helapses'.node

/-- What only the second world keeps the first one catches up with. -/
theorem Beside.strides_caughtUp {n : Node} (hF : F n) (hi' : w.node? i' = some n)
    (hfirm' : w.Firm i') :
    KeepsPace p use N F t t' root root' ρ births v w ⟨.fetch i, frames⟩ ⟨.fetch i', frames'⟩ := by
  have ht := h.joined.rooted.tidy
  have ht' := h.joined.rooted'.tidy
  obtain ⟨-, hleads'⟩ := awaits.leadsTo hp.toConsistent ht ht'
  have hi : v.node? i = some n := by
    obtain ⟨n₁, -, hi, hi₁'⟩ := pair
    exact Option.some.inj (hi₁'.symm.trans hi') ▸ hi
  have haside : Aside v w [] i' := fun j' hpath => by
    refine ⟨List.not_mem_nil, fun j hj => ?_⟩
    obtain ⟨k', hk', n₁, hn₁, hj₁, hk₁⟩ := exists_right_of_mem h.active hj
    refine ⟨n₁, hj₁, fun hj' => h.right.aside hleads' hfirm' hpath ?_⟩
    exact ht'.distinct j' k' n₁ hj' hk₁ ▸ hk'
  have hwaits (hparks : p.MayPark n) : splitAtImmediate frames = none := by
    cases h.left.descends with
    | requested hdescends => exact (awaits.parks h.joined.consistent hdescends hi hparks).1
  obtain ⟨m, ρ₁, v₁, hreach, hm, hpursues⟩ := hfirm'.catchesUp hp htr hrealm n [] ρ v root i frames hF hi
    hi' h.joined h.left h.uncancelled haside hwaits
  obtain ⟨m', w₁, hreach', hm', hrefreshes', hactive', helapses'⟩ := hfirm'.answers hp.toConsistent
    hrealm.closed (hrealm.within n hF) hi' h.joined.rooted' h.right h.uncancelled'
    fun _ => h.right.aside hleads' hfirm'
  refine h.answers htr (.of_reaches hreach fun heq => by cases heq) hreach' awaits pair hm hm'
    hpursues.elapses helapses' h.left.frames_subset h.right.frames_subset hrefreshes' hpursues.subset
    hpursues.joined ?_
  rw [hpursues.active, hactive']
  exact h.active.imp fun _ _ hpair => hpair.mono hpursues.elapses.node helapses'.node

omit hp hrealm in
/-- What is not firm in either world is found in progress, looked at or computed in both. -/
theorem Beside.strides_begun (derived : v.kind? i = some .derived) (hfirm : ¬v.Firm i)
    (hfirm' : ¬w.Firm i') (hmemos : v.memo? i = none ↔ w.memo? i' = none) :
    KeepsPace p use N F t t' root root' ρ births v w ⟨.fetch i, frames⟩ ⟨.fetch i', frames'⟩ := by
  have ht := h.joined.rooted.tidy
  have ht' := h.joined.rooted'.tidy
  have hlinked := h.left.linked
  obtain ⟨n, hn, hi, hi'⟩ := id pair
  have hmem : i ∈ v.active ↔ i' ∈ w.active := List.rel_mem (Pairs.biUnique ht ht') pair h.active
  have hspec := World.fetch_spec (p := p) h.left.memoize t i
  have hspec' := World.fetch_spec (p := p) h.right.memoize t' i'
  have hstep : Evaluation.step p t ⟨.fetch i, frames⟩ v = resume frames (v.fetch p t i) := rfl
  have hstep' : Evaluation.step p t' ⟨.fetch i', frames'⟩ w = resume frames' (w.fetch p t' i') := rfl
  generalize v.fetch p t i = out at hspec hstep
  generalize w.fetch p t' i' = out' at hspec' hstep'
  -- in both worlds slots and memos stay, and so the frames go on waiting
  have hgrows {c c' : Control} {v₁ w₁ : World} (hstep : Evaluation.step p t ⟨.fetch i, frames⟩ v =
        resume frames (c, v₁)) (hstep' : Evaluation.step p t' ⟨.fetch i', frames'⟩ w =
        resume frames' (c', w₁)) (hquiet : v.Quiet v₁) (hquiet' : w.Quiet w₁)
      (hactive : List.Forall₂ (Pairs N v w) v₁.active w₁.active)
      (habreast : BothAwait p use N F ρ births v₁ w₁ i frames i' frames' →
        Abreast p use N F ρ births v₁ w₁ ⟨c, frames⟩ ⟨c', frames'⟩) :
      KeepsPace p use N F t t' root root' ρ births v w ⟨.fetch i, frames⟩ ⟨.fetch i', frames'⟩ :=
    h.grows htr (.of_step hstep) (.of_step hstep') hquiet.grows hquiet'.grows (hquiet.tidy ht)
      (hquiet'.tidy ht') (habreast (awaits.grow hquiet.grows hquiet'.grows hlinked ht ht'
        (hquiet.tidy ht) (hquiet'.tidy ht'))) (pairs_grow hquiet.grows hquiet'.grows hactive)
  cases hspec with
  | hit memo verified => exact absurd (h.joined.rooted.firm i n _ hi memo (.inl verified)) hfirm
  | cycle _ inside quiet active =>
    cases hspec' with
    | hit memo verified => exact absurd (h.joined.rooted'.firm i' n _ hi' memo (.inl verified)) hfirm'
    | walk _ _ outside | compute _ outside => exact absurd (hmem.1 inside) outside
    | cycle _ _ quiet' active' =>
      have hpath : (w.active ++ [i']).map w.nameOf = (v.active ++ [i]).map v.nameOf :=
        map_nameOf_of_pairs (List.rel_append h.active (.cons pair .nil))
      rw [hpath] at hstep'
      exact hgrows hstep hstep' quiet quiet' (active ▸ active' ▸ h.active) .failed
  | @walk m v₁ memo _ outside quiet active =>
    cases hspec' with
    | hit memo verified => exact absurd (h.joined.rooted'.firm i' n _ hi' memo (.inl verified)) hfirm'
    | cycle _ inside => exact absurd (hmem.2 inside) outside
    | compute memo' => cases (hmemos.2 memo').symm.trans memo
    | @walk m' w₁ memo' _ _ quiet' active' =>
      obtain ⟨o', ho', hecho⟩ := h.joined.echoes.memo_at ht' hn hi hi' memo
      obtain rfl := Option.some.inj (memo'.symm.trans ho')
      have hwalks : BothWalk N v w ⟨i, v.revision, m.verifiedAt, m.deps⟩
          ⟨i', w.revision, m'.verifiedAt, m'.deps⟩ m.deps m'.deps m m' :=
        ⟨pair, rfl, rfl, memo, memo', rfl, rfl, hecho.deps.imp fun _ _ hdep => hdep.1, fun _ hj => hj,
          fun _ hj => hj, fun _ hj => .inl hj⟩
      refine hgrows hstep hstep' quiet quiet' ?_ (.walking (hwalks.grow quiet.grows quiet'.grows hlinked
        ht ht' (quiet.tidy ht) (quiet'.tidy ht')))
      rw [active, active']
      exact List.rel_append h.active (.cons pair .nil)
  | @compute v₁ memo outside quiet active =>
    cases hspec' with
    | hit memo verified => exact absurd (h.joined.rooted'.firm i' n _ hi' memo (.inl verified)) hfirm'
    | cycle _ inside => exact absurd (hmem.2 inside) outside
    | walk memo' => cases (hmemos.1 memo).symm.trans memo'
    | @compute w₁ memo' _ quiet' active' =>
      obtain ⟨label, key, hnode⟩ := ht.node?_of_derived derived
      obtain rfl := Option.some.inj (hi.symm.trans hnode)
      have hruns : BothRun p N v w label key ⟨i, v.revision, []⟩ ⟨i', w.revision, []⟩ :=
        ⟨hn, hi, hi', rfl, rfl, behind_of_none memo, behind_of_none memo', .nil⟩
      refine hgrows hstep hstep' quiet quiet' ?_ (.computing (hruns.grow quiet.grows quiet'.grows ht ht'
        (quiet.tidy ht) (quiet'.tidy ht')))
      rw [active, active']
      exact List.rel_append h.active (.cons pair .nil)

/-- A request is answered in both worlds, or it begins in both. -/
theorem Beside.strides_requested (derived : v.kind? i = some .derived) :
    KeepsPace p use N F t t' root root' ρ births v w ⟨.fetch i, frames⟩ ⟨.fetch i', frames'⟩ := by
  have ht := h.joined.rooted.tidy
  have ht' := h.joined.rooted'.tidy
  obtain ⟨n, hn, hi, hi'⟩ := id pair
  by_cases hfirm : v.Firm i
  · exact h.strides_firm hp htr hrealm pair awaits hfirm
  by_cases hcatches : F n ∧ w.Firm i'
  · exact h.strides_caughtUp hp htr hrealm pair awaits hcatches.1 hi' hcatches.2
  -- what the second world keeps the first one keeps, too
  have hkept (m' : Memo) (hm' : w.memo? i' = some m') : ∃ m, v.memo? i = some m :=
    h.joined.echoes.unkept_at ht hn
      (fun hF => hcatches ⟨hF, h.joined.rooted'.firm i' n m' hi' hm' (.inr hF)⟩) hi hi' hm'
  have hfirm' : ¬w.Firm i' := fun hfirm' => by
    obtain ⟨m', hm'⟩ : ∃ m', w.memo? i' = some m' := by
      cases hfirm' with
      | intro memo => exact ⟨_, memo⟩
    obtain ⟨m, hm⟩ := hkept m' hm'
    exact hfirm (h.joined.echoes.firm_back ht ht' h.left.linked hfirm' pair hm)
  refine h.strides_begun htr pair awaits derived hfirm hfirm' ⟨fun hnone => ?_, fun hnone' => ?_⟩
  · cases hm' : w.memo? i' with
    | none => rfl
    | some m' =>
      obtain ⟨m, hm⟩ := hkept m' hm'
      cases hnone.symm.trans hm
  · cases hm : v.memo? i with
    | none => rfl
    | some m =>
      obtain ⟨m', hm', -⟩ := h.joined.echoes.memo_at ht' hn hi hi' hm
      cases hnone'.symm.trans hm'

end Requests

end World

end RedGreen
