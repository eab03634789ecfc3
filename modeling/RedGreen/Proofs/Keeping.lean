import RedGreen.Proofs.Confirmation
import RedGreen.Proofs.DependencyEdges
import RedGreen.Proofs.References

set_option autoImplicit false

/-! # What lasts while a request is under way

While an evaluation runs, the memos of some slots are replaced: those of firm slots are found valid
(`Refreshes`), and a body leaves a new memo for a slot that is *behind*, since something it has recorded
has changed (`World.Behind`). Neither touches a firm slot otherwise, nor a slot that somebody waits for;
this is what `World.Elapses` says. So what is firm stays firm (`Firm.elapses`), and what is behind stays
so until its own body has run (`Behind.elapses`).

In a *rooted* world whatever is valid now is firm, and so is whatever is kept for some chosen nodes. -/

namespace RedGreen

open Evaluation Relation

variable {p : Program} {use : Usages} {t : Token} {N F : Node → Prop} {w w' w'' : World}
  {i j : SlotId} {m : Memo} {busy busy' : List SlotId}

namespace World

/-! ## Slots that are behind -/

/-- If the slot holds a memo, something that it has recorded has changed since. -/
def Behind (w : World) (i : SlotId) : Prop :=
  ∀ m, w.memo? i = some m → ∃ j ∈ m.deps, m.verifiedAt < w.changedAt j

theorem behind_of_none (h : w.memo? i = none) : w.Behind i := fun _ hm => nomatch h.symm.trans hm

theorem Behind.not_firm (h : w.Behind i) : ¬w.Firm i := fun hfirm => by
  cases hfirm with
  | intro memo unchanged _ =>
    obtain ⟨j, hj, hlt⟩ := h _ memo
    exact absurd (unchanged j hj) (Nat.not_le_of_lt hlt)

/-! ## Time that elapses -/

/-- At the same revision, memos of some nodes are other ones, but not those of the slots that are busy;
    firm memos are at most found valid, and no stamp of a last change has moved back. -/
structure Elapses (N : Node → Prop) (busy : List SlotId) (w w' : World) : Prop
    extends Extends w w' where
  kind : ∀ i k, w.kind? i = some k → w'.kind? i = some k
  spared : ∀ i ∈ busy, w'.memo? i = w.memo? i
  outside : ∀ i, w'.memo? i = w.memo? i ∨ ∃ n, w'.node? i = some n ∧ N n
  firm : ∀ i m, w.Firm i → w.memo? i = some m →
    w'.memo? i = some m ∨ w'.memo? i = some { m with verifiedAt := w.revision }
  changed : ∀ i, w.changedAt i ≤ w'.changedAt i

/-- What a firm slot holds stays, but for the revision up to which it is known to be valid. -/
theorem Elapses.kept (h : w.Elapses N busy w') (hlinked : w.Linked) (hfirm : w.Firm i)
    (hm : w.memo? i = some m) : ∃ m', w'.memo? i = some m' ∧ m'.toStamped = m.toStamped ∧
      m'.deps = m.deps ∧ m.verifiedAt ≤ m'.verifiedAt := by
  rcases h.firm i m hfirm hm with hsame | hlater
  · exact ⟨m, hsame, rfl, rfl, Nat.le_refl _⟩
  · exact ⟨_, hlater, rfl, rfl, hlinked.bound i m hm⟩

/-- Inputs are written by nobody meanwhile, and what is firm does not change. -/
theorem Elapses.changedAt_eq (h : w.Elapses N busy w') (hlinked : w.Linked)
    (hj : w.kind? j = some .input ∨ w.Firm j) : w'.changedAt j = w.changedAt j := by
  rcases hj with hinput | hfirm
  · refine System.changedAt_congr ?_ (h.written j)
    rw [System.memo?_of_input hinput, System.memo?_of_input (h.kind j _ hinput)]
  · cases hfirm with
    | @intro _ m memo unchanged deps =>
      obtain ⟨m', hm', hstamped, -, -⟩ := h.kept hlinked (.intro memo unchanged deps) memo
      rw [System.changedAt_of_memo memo, System.changedAt_of_memo hm', hstamped]

theorem Firm.elapses (h : w.Firm i) (he : w.Elapses N busy w') (hlinked : w.Linked) : w'.Firm i := by
  induction h with
  | intro memo unchanged deps ih =>
    obtain ⟨m', hm', -, hdeps, hle⟩ := he.kept hlinked (.intro memo unchanged deps) memo
    refine .intro hm' (fun j hj => ?_) fun j hj hkind => ?_
    · rw [hdeps] at hj
      have hkept : w.kind? j = some .input ∨ w.Firm j :=
        (Decidable.em (w.kind? j = some .input)).imp_right (deps j hj)
      rw [he.changedAt_eq hlinked hkept]
      exact Nat.le_trans (unchanged j hj) hle
    · exact ih j (hdeps ▸ hj) fun hinput => hkind (he.kind j _ hinput)

theorem Behind.elapses (h : w.Behind i) (he : w.Elapses N busy w') (hi : i ∈ busy) : w'.Behind i := by
  intro m hm
  rw [he.spared i hi] at hm
  obtain ⟨j, hj, hlt⟩ := h m hm
  exact ⟨j, hj, Nat.lt_of_lt_of_le hlt (he.changed j)⟩

theorem Elapses.refl (w : World) : w.Elapses N busy w :=
  ⟨.refl w, fun _ _ h => h, fun _ _ => rfl, fun _ => .inl rfl, fun _ _ _ hm => .inl hm,
    fun _ => Nat.le_refl _⟩

theorem Elapses.trans (h : w.Elapses N busy w') (hlinked : w.Linked) (h' : w'.Elapses N busy w'') :
    w.Elapses N busy w'' where
  toExtends := h.toExtends.trans h'.toExtends
  kind i k hk := h'.kind i k (h.kind i k hk)
  spared i hi := (h'.spared i hi).trans (h.spared i hi)
  outside i := by
    rcases h'.outside i with hsame' | hchosen
    · rcases h.outside i with hsame | ⟨n, hn, hN⟩
      · exact .inl (hsame'.trans hsame)
      · exact .inr ⟨n, h'.node i n hn, hN⟩
    · exact .inr hchosen
  firm i m hfirm hm := by
    have hfirm' := hfirm.elapses h hlinked
    have hrevision := h.revision
    rcases h.firm i m hfirm hm with hsame | hlater
    · exact hrevision ▸ h'.firm i m hfirm' hsame
    · right
      rcases h'.firm i _ hfirm' hlater with hsame' | hlater'
      · exact hsame'
      · rw [hlater', hrevision]
  changed i := Nat.le_trans (h.changed i) (h'.changed i)

theorem Elapses.mono (h : w.Elapses N busy w') (hsub : busy' ⊆ busy) : w.Elapses N busy' w' :=
  { h with spared := fun i hi => h.spared i (hsub hi) }

/-! ## What steps let elapse -/

theorem Grows.elapses (h : w.Grows w') (ht : Tidy p use w.toSystem) (ht' : Tidy p use w'.toSystem) :
    w.Elapses N busy w' where
  toExtends := h.toExtends
  kind i _ hk := kind?_of_node ht ht' (h.node i) hk
  spared i _ := h.memo i
  outside i := .inl (h.memo i)
  firm i _ _ hm := .inl ((h.memo i).trans hm)
  changed i := Nat.le_of_eq (System.changedAt_congr (h.memo i) (h.written i)).symm

/-- Firm slots are found valid. -/
theorem Refreshes.elapses (h : w.Refreshes p use w') (ht : Tidy p use w.toSystem)
    (hspared : ∀ i ∈ busy, w'.memo? i = w.memo? i)
    (houtside : ∀ i, w'.memo? i = w.memo? i ∨ ∃ n, w'.node? i = some n ∧ N n) :
    w.Elapses N busy w' where
  toExtends := h.toExtends
  kind i _ hk := kind?_of_node ht h.tidy (h.node i) hk
  spared := hspared
  outside := houtside
  firm _ _ _ hm := h.memo_of hm
  changed i := Nat.le_of_eq (h.changedAt i).symm

/-- A slot that is behind gets a new memo. -/
theorem Commits.elapses {related : Value → Value → Prop} (h : w.Commits p use related i m w')
    (ht : Tidy p use w.toSystem) {flights : List Flight} (htimely : w.Timely flights)
    (hm : m.verifiedAt = w.revision) (hbehind : w.Behind i) (hbusy : i ∉ busy) {n : Node}
    (hi : w.node? i = some n) (hN : N n) (hkind : w.kind? i = some .derived) :
    w.Elapses N busy w' where
  toExtends := h.toExtends
  kind i _ hk := kind?_of_node ht h.tidy (h.node i) hk
  spared j hj := h.memo_other j fun heq => hbusy (heq ▸ hj)
  outside j := by
    by_cases hj : j = i
    · exact .inr ⟨n, hj ▸ h.node i n hi, hN⟩
    · exact .inl (h.memo_other j hj)
  firm j o hfirm ho := by
    refine .inl ((h.memo_other j fun heq => ?_).trans ho)
    exact hbehind.not_firm (heq ▸ hfirm)
  changed j := by
    by_cases hj : j = i
    · subst hj
      rw [System.changedAt_of_memo h.memo_self]
      cases ho : w.memo? j with
      | none =>
        -- nothing has ever changed
        have hunwritten : w.written? j = none := by
          cases hx : w.written? j with
          | none => rfl
          | some x => cases (System.kind?_of_written hx).symm.trans hkind
        rw [System.changedAt_eq, ho, hunwritten]
        exact Nat.zero_le _
      | some o =>
        rw [System.changedAt_of_memo ho]
        obtain ⟨-, hchanged, hverified⟩ := htimely.memo j o ho
        rcases h.supersedes with hnow | ⟨o', ho', hkept, -⟩
        · rw [hnow, hm]
          exact Nat.le_trans hchanged hverified
        · obtain rfl := Option.some.inj (ho.symm.trans ho')
          exact Nat.le_of_eq hkept.symm
    · exact Nat.le_of_eq (System.changedAt_congr (h.memo_other j hj) (h.written j)).symm

/-! ## Rooted worlds -/

/-- Whatever is valid now is firm, and so is whatever is kept for the nodes in `F`. -/
structure Rooted (p : Program) (use : Usages) (F : Node → Prop) (w : World) : Prop where
  tidy : Tidy p use w.toSystem
  firm : ∀ i n m, w.node? i = some n → w.memo? i = some m → m.verifiedAt = w.revision ∨ F n → w.Firm i

/-- What holds a memo belongs to a node. -/
theorem exists_node_of_memo (hm : w.memo? i = some m) : ∃ n, w.node? i = some n := by
  obtain ⟨slot, hslot, -⟩ := Option.bind_eq_some_iff.1 hm
  exact ⟨⟨slot.query, slot.key⟩, System.node?_eq_some.2 ⟨slot, hslot, rfl, rfl⟩⟩

/-- What is valid now is an input or firm. -/
theorem Rooted.firm_of_lasts (h : w.Rooted p use F) (hlinked : w.Linked) (hj : w.Lasts w.revision j) :
    w.kind? j = some .input ∨ w.Firm j := by
  refine hj.imp_right fun ⟨m, hm, hle⟩ => ?_
  obtain ⟨n, hn⟩ := exists_node_of_memo hm
  exact h.firm j n m hn hm (.inl (Nat.le_antisymm (hlinked.bound j m hm) hle))

/-- Nothing that is new is valid now without being firm. -/
theorem Rooted.elapses (h : w.Rooted p use F) (he : w.Elapses N busy w') (hlinked : w.Linked)
    (ht : Tidy p use w'.toSystem)
    (hnew : ∀ i m, w'.memo? i = some m → w.memo? i = some m ∨ w'.Firm i) : w'.Rooted p use F where
  tidy := ht
  firm i n m hn hm hvalid := by
    rcases hnew i m hm with hold | hfirm
    · obtain ⟨n', hn'⟩ := exists_node_of_memo hold
      obtain rfl := Option.some.inj ((he.node i n' hn').symm.trans hn)
      exact (h.firm i n' m hn' hold (he.revision ▸ hvalid)).elapses he hlinked
    · exact hfirm

theorem Rooted.grows (h : w.Rooted p use F) (hw : w.Grows w') (hlinked : w.Linked)
    (ht : Tidy p use w'.toSystem) : w'.Rooted p use F := by
  have he : w.Elapses (fun _ => True) [] w' := hw.elapses h.tidy ht
  exact h.elapses he hlinked ht fun i m hm => .inl ((hw.memo i).symm.trans hm)

theorem Rooted.refreshes (h : w.Rooted p use F) (hw : w.Refreshes p use w') (hlinked : w.Linked) :
    w'.Rooted p use F := by
  have he : w.Elapses (fun _ => True) [] w' := hw.elapses h.tidy (fun _ hi => absurd hi List.not_mem_nil)
    fun i => by
      rcases hw.memo i with hsame | ⟨-, m, -, hm⟩
      · exact .inl hsame
      · obtain ⟨n, hn⟩ := exists_node_of_memo hm
        exact .inr ⟨n, hn, trivial⟩
  refine h.elapses he hlinked hw.tidy fun i m hm => ?_
  rcases hw.memo i with hsame | ⟨hfirm, -⟩
  · exact .inl (hsame.symm.trans hm)
  · exact .inr (hfirm.elapses he hlinked)

/-- Nothing has changed after now. -/
theorem Timely.changedAt_le {flights : List Flight} (h : w.Timely flights) (i : SlotId) :
    w.changedAt i ≤ w.revision := by
  rw [System.changedAt_eq]
  split
  · rename_i hm
    exact Nat.le_trans (h.memo i _ hm).2.1 (h.memo i _ hm).2.2
  · rename_i hx
    exact (h.written i _ hx).2
  · exact Nat.zero_le _

/-- The new memo has read what is valid now. -/
theorem Rooted.commits (h : w.Rooted p use F) {related : Value → Value → Prop}
    (hw : w.Commits p use related i m w') (he : w.Elapses N busy w') (hlinked : w.Linked)
    {flights : List Flight} (htimely : w'.Timely flights) (hm : m.verifiedAt = w.revision)
    (hdeps : ∀ j ∈ m.deps, w.Lasts w.revision j) : w'.Rooted p use F ∧ w'.Firm i := by
  have hfirm : w'.Firm i := by
    refine .intro hw.memo_self (fun j hj => ?_) fun j hj hkind => ?_
    · rw [hm, ← hw.revision]
      exact htimely.changedAt_le j
    · rcases h.firm_of_lasts hlinked (hdeps j hj) with hinput | hfirm
      · exact absurd (he.kind j _ hinput) hkind
      · exact hfirm.elapses he hlinked
  refine ⟨h.elapses he hlinked hw.tidy fun j o ho => ?_, hfirm⟩
  by_cases hj : j = i
  · exact .inr (hj ▸ hfirm)
  · exact .inl ((hw.memo_other j hj).symm.trans ho)

end World

/-! ## Evaluations in order -/

/-- What holds of an evaluation whatever it evaluates: its slots are on the active stack, the stamps are
    in order, memos have recorded what was valid and what their nodes refer to, and so has it itself. -/
structure Evaluation.Orderly (p : Program) (w : World) (root : SlotId) (e : Evaluation) : Prop where
  memoize : w.memoize = true
  stacked : w.Stacked e.held
  timely : w.Timely e.flights
  linked : w.Linked
  tends : w.Tends e
  directory : w.InDirectory p
  recorded : w.Recorded p
  descends : w.Descends p root e

namespace Evaluation

variable {root : SlotId} {e e' : Evaluation}

theorem Reaches.orderly (htr : ∀ label key, Transparent ((p label).body key))
    (h : Reaches p t e w e' w') (ho : e.Orderly p w root) : e'.Orderly p w' root := by
  have hstacked : w.Stacked (e.held ++ []) := by rw [List.append_nil]; exact ho.stacked
  have htimely : w.Timely (e.flights ++ []) := by rw [List.append_nil]; exact ho.timely
  obtain ⟨hstacked', htimely', -⟩ := h.timely hstacked (F := []) nofun htimely
  obtain ⟨hlinked, htends⟩ := h.tends (fun label key => (htr label key).strict) ho.memoize hstacked
    ho.linked ho.tends
  obtain ⟨hdirectory, hrecorded, hdescends⟩ := h.descends ho.directory ho.recorded ho.descends
  rw [List.append_nil] at hstacked' htimely'
  exact ⟨h.persists.memoize.trans ho.memoize, hstacked', htimely', hlinked, htends, hdirectory,
    hrecorded, hdescends⟩

/-- A run that ends with a value has read what is valid now. -/
theorem Orderly.lasts_of_done {a : Activation} {value : Value} {frames : List Frame}
    (h : Orderly p w root ⟨.body a (.done (.ok value)), frames⟩) :
    a.revision = w.revision ∧ ∀ j ∈ a.deps, w.Lasts w.revision j := by
  cases h.tends with
  | running heeds expects =>
    rcases heeds with ⟨-, hreads⟩ | hfails
    · exact ⟨hreads.revision, fun j hj => (hreads.deps j hj).resolve_left List.not_mem_nil⟩
    · cases hfails

end Evaluation

end RedGreen
