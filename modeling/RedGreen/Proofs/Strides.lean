import RedGreen.Proofs.Constants

set_option autoImplicit false

/-! # Strides of an evaluation

In a rooted world an evaluation takes a few kinds of strides that change more than where it stands. A
request for a firm slot is answered with what the slot holds (`Firm.answers`), a run that ends with a
value leaves a new memo (`reaches_kept`), and a revalidation that has found no change leaves the old one
(`reaches_confirmed`). After each of them the world is rooted, and for the nodes in `N` time has elapsed
for none of the slots that are in progress around it. -/

namespace RedGreen

open Evaluation Relation

variable {p : Program} {use : Usages} {N F : Node → Prop} {t : Token} {w w' : World} {i j : SlotId}
  {m : Memo} {frames : List Frame} {root : SlotId} {busy : List SlotId}

namespace World

/-- A request for a slot that holds nothing and is not in progress comes to the body of the slot. -/
theorem reaches_body (hp : p.Consistent use) (ht : Tidy p use w.toSystem) (hmemoize : w.memoize = true)
    (huncancelled : t ∉ w.cancelled) {label : Label} {key : Key}
    (hi : w.node? i = some (p.node label key)) (hnone : w.memo? i = none) (houtside : i ∉ w.active)
    (frames : List Frame) :
    ∃ w', Reaches p t ⟨.fetch i, frames⟩ w ⟨.body ⟨i, w.revision, []⟩ ((p label).body key), frames⟩ w' ∧
      w.Quiet w' ∧ w'.active = w.active ++ [i] := by
  have hfetch := World.fetch_spec (p := p) hmemoize t i
  have hstep : Evaluation.step p t ⟨.fetch i, frames⟩ w = resume frames (w.fetch p t i) := rfl
  generalize w.fetch p t i = out at hfetch hstep
  cases hfetch with
  | hit memo | walk memo => cases hnone.symm.trans memo
  | cycle _ inside => exact absurd inside houtside
  | @compute w₁ _ _ quiet active =>
    have hcompute := compute_spec hp (quiet.tidy ht) t (quiet.grows.node i _ hi) w.revision
    have hstep' : Evaluation.step p t ⟨.compute i w.revision, frames⟩ w₁ =
        resume frames (w₁.compute p t i w.revision) := rfl
    generalize w₁.compute p t i w.revision = out at hcompute hstep'
    cases hcompute with
    | cancelled cancelled => exact absurd (quiet.cancelled ▸ cancelled) huncancelled
    | run quiet' active' =>
      exact ⟨_, .head hstep (.of_step hstep'), quiet.trans quiet', active'.trans active⟩

/-- A request for a firm slot is answered with what the slot holds, and nothing that is in progress is
    touched. -/
theorem Firm.answers (hp : p.Consistent use) (hN : ∀ m n, N m → p.Refers m n → N n)
    (hfirm : w.Firm i) {n : Node} (hn : N n) (hi : w.node? i = some n) (hrooted : w.Rooted p use F)
    (horderly : Evaluation.Orderly p w root ⟨.fetch i, frames⟩) (huncancelled : t ∉ w.cancelled)
    (hout : ∀ j, ReflTransGen w.Records i j → j ∉ w.active) :
    ∃ m w', Reaches p t ⟨.fetch i, frames⟩ w ⟨.answer (.ok m.toStamped), frames⟩ w' ∧
      w'.memo? i = some m ∧ w.Refreshes p use w' ∧ w'.active = w.active ∧
      w.Elapses N w.active w' := by
  obtain ⟨m, hm⟩ : ∃ m, w.memo? i = some m := by
    cases hfirm with
    | intro memo => exact ⟨_, memo⟩
  obtain ⟨w', hreach, hrefreshes, hactive, hothers⟩ := hfirm.confirms hp hrooted.tidy
    horderly.memoize huncancelled m hm w frames (.refl hrooted.tidy) hout
  have helapses : w.Elapses N w.active w' := by
    refine hrefreshes.elapses hrooted.tidy (fun j hj => hothers j fun hpath => hout j hpath hj)
      fun j => ?_
    by_cases hpath : ReflTransGen w.Records i j
    · obtain ⟨n', hn', hj⟩ := horderly.recorded.closed_path hN hn hi hpath
      exact .inr ⟨n', hrefreshes.node j n' hj, hn'⟩
    · exact .inl (hothers j hpath)
  rcases hrefreshes.memo_of hm with hsame | hlater
  · exact ⟨m, w', hreach, hsame, hrefreshes, hactive, helapses⟩
  · exact ⟨{ m with verifiedAt := w.revision }, w', hreach, hlater, hrefreshes, hactive, helapses⟩

/-- A revalidation that has found no change leaves what the slot holds. -/
theorem reaches_confirmed (hp : p.Consistent use) (hrooted : w.Rooted p use F) (hfirm : w.Firm i)
    {n : Node} (hn : N n) (hi : w.node? i = some n) (hm : w.memo? i = some m) (hbusy : i ∉ busy)
    (frames : List Frame) :
    ∃ m' w', Reaches p t ⟨.walk ⟨i, w.revision, m.verifiedAt, []⟩, frames⟩ w
        ⟨.answer (.ok m'.toStamped), frames⟩ w' ∧
      w'.memo? i = some m' ∧ w.Refreshes p use w' ∧ w'.active = dropInnermost w.active i ∧
      w.Elapses N busy w' := by
  obtain ⟨w', hreach, hrefreshes, hactive, hothers⟩ :=
    reaches_verified hp hrooted.tidy hfirm hm frames (.refl hrooted.tidy) (t := t)
  have helapses : w.Elapses N busy w' := by
    refine hrefreshes.elapses hrooted.tidy (fun j hj => hothers j fun heq => hbusy (heq ▸ hj)) fun j => ?_
    by_cases hj : j = i
    · exact .inr ⟨n, hj ▸ hrefreshes.node i n hi, hn⟩
    · exact .inl (hothers j hj)
  rcases hrefreshes.memo_of hm with hsame | hlater
  · exact ⟨m, w', hreach, hsame, hrefreshes, hactive, helapses⟩
  · exact ⟨{ m with verifiedAt := w.revision }, w', hreach, hlater, hrefreshes, hactive, helapses⟩

/-- What a run that is kept says about the last change of its value. -/
theorem changedAt_commit (hp : p.Consistent use) (ht : Tidy p use w.toSystem) {a : Activation}
    {label : Label} {key : Key} (hi : w.node? a.slot = some (p.node label key)) {value : Value}
    {o : Memo} (ho : w.memo? a.slot = some o) (hm : (w.commit a value).2.memo? a.slot = some m) :
    m.changedAt = if (p label).equality o.value value then o.changedAt else a.revision := by
  obtain ⟨d, hslot, -, hequality⟩ := ht.bound hp hi
  have hmemo : d.memo = some o := by
    rw [← ho, System.memo?, hslot]
    rfl
  have hself := memo?_setMemo_self hslot (d.renewed value a.revision a.deps)
  have hlater : (w.commit a value).2.memo? a.slot = some (d.renewed value a.revision a.deps) := by
    unfold commit
    simp only [hslot]
    split
    · exact (memo_succeed _ _ _ _ _).trans hself
    · exact (memo_succeed _ _ _ _ _).trans hself
  obtain rfl := Option.some.inj (hlater.symm.trans hm)
  simp only [Derived.renewed, hmemo, hequality]

/-- A run that ends with a value leaves it, with what it has read. -/
theorem reaches_kept (hp : p.Consistent use) (hrooted : w.Rooted p use F) {a : Activation}
    {value : Value} (htr : ∀ label key, Transparent ((p label).body key))
    (horderly : Evaluation.Orderly p w root ⟨.body a (.done (.ok value)), frames⟩)
    (huncancelled : t ∉ w.cancelled) {label : Label} {key : Key}
    (hi : w.node? a.slot = some (p.node label key)) (hN : N (p.node label key))
    (hbehind : w.Behind a.slot) (hbusy : a.slot ∉ busy) :
    ∃ m w', Reaches p t ⟨.body a (.done (.ok value)), frames⟩ w ⟨.answer (.ok m.toStamped), frames⟩ w' ∧
      m.value = value ∧ m.deps = a.deps ∧ m.verifiedAt = w.revision ∧
      (∀ o, w.memo? a.slot = some o →
        m.changedAt = if (p label).equality o.value value then o.changedAt else w.revision) ∧
      w.Renews a.slot m w' ∧ w'.active = dropInnermost w.active a.slot ∧ w'.Rooted p use F ∧
      w'.Firm a.slot ∧ w.Elapses N busy w' := by
  have htidy := hrooted.tidy
  obtain ⟨hrevision, hlasts⟩ := horderly.lasts_of_done
  obtain ⟨m, w', hcommit, hvalue, hverified, hdeps, hcommits⟩ :=
    @commit_spec _ _ hp _ htidy _ _ _ hi (fun _ _ => True) value fun _ _ _ => trivial
  have hstep : Evaluation.step p t ⟨.body a (.done (.ok value)), frames⟩ w =
      .running ⟨.answer (.ok m.toStamped), frames⟩ w' := by
    simp only [Evaluation.step, stepBody, finish, check_of_not_mem huncancelled, horderly.memoize, if_true,
      hcommit, resume]
  have hreach : Reaches p t _ w _ w' := .of_step hstep
  have hnow := hverified.trans hrevision
  have hkind : w.kind? a.slot = some .derived := htidy.kind?_node hp hi
  have helapses : w.Elapses N busy w' :=
    hcommits.elapses htidy horderly.timely hnow hbehind hbusy hi hN hkind
  obtain ⟨hrooted', hfirm⟩ := hrooted.commits hcommits helapses horderly.linked
    (hreach.orderly htr horderly).timely hnow (hdeps ▸ hlasts)
  refine ⟨m, w', hreach, hvalue, hdeps, hnow, fun o ho => ?_, hcommits.toRenews, hcommits.active,
    hrooted', hfirm, helapses⟩
  rw [← hrevision]
  exact changedAt_commit hp htidy hi ho (by rw [hcommit]; exact hcommits.memo_self)

end World

end RedGreen
