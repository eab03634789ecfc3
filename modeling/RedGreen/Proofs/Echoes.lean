import Mathlib.Data.List.Forall2
import RedGreen.Proofs.Keeping
import RedGreen.Proofs.Renaming

set_option autoImplicit false

/-! # A system that echoes another one

Two systems have been asked for the same, the second one for other things besides. What the first one
keeps for some nodes `N` the second one keeps, too: the same inputs and values up to a renaming of the
allocations, and for each value the same dependencies. Stamps and slots are not the same, since the
second system has seen more writes; but the stamps of both lead a revalidation to the same decisions
(`World.Echoes`). So what is firm in the one system is firm in the other one (`Echoes.firm`,
`Echoes.firm_back`).

The second system may keep more only for the nodes in `F`, for which others may have asked. -/

namespace RedGreen

open Evaluation Relation

variable {p : Program} {use : Usages} {N F : Node → Prop} {ρ ρ' : Renaming} {v v' w w' : World}
  {i i' j j' : SlotId} {m m' : Memo}

/-! ## Lists side by side -/

theorem exists_left_of_mem {α β : Type} {R : α → β → Prop} {as : List α} {bs : List β}
    (h : List.Forall₂ R as bs) {b : β} (hb : b ∈ bs) : ∃ a ∈ as, R a b := by
  induction h with
  | nil => cases hb
  | cons hab _ ih =>
    rcases List.mem_cons.1 hb with rfl | hb
    · exact ⟨_, List.mem_cons_self, hab⟩
    · obtain ⟨a, ha, hr⟩ := ih hb
      exact ⟨a, List.mem_cons_of_mem _ ha, hr⟩

theorem exists_right_of_mem {α β : Type} {R : α → β → Prop} {as : List α} {bs : List β}
    (h : List.Forall₂ R as bs) {a : α} (ha : a ∈ as) : ∃ b ∈ bs, R a b :=
  exists_left_of_mem h.flip ha

theorem forall₂_erase {α : Type} [DecidableEq α] {R : α → α → Prop} (hR : Relator.BiUnique R)
    {as bs : List α} (h : List.Forall₂ R as bs) {a b : α} (hab : R a b) :
    List.Forall₂ R (as.erase a) (bs.erase b) := by
  induction h with
  | nil => exact .nil
  | @cons x y as bs hxy _ ih =>
    by_cases hx : x = a
    · subst hx
      obtain rfl := hR.2 hxy hab
      rwa [List.erase_cons_head, List.erase_cons_head]
    · have hy : y ≠ b := fun heq => hx (hR.1 hxy (heq ▸ hab))
      rw [List.erase_cons_tail (by simpa using hx), List.erase_cons_tail (by simpa using hy)]
      exact .cons hxy ih

namespace World

/-! ## Slots of one node -/

/-- The slots of one of the nodes in two worlds. -/
def Pairs (N : Node → Prop) (v w : World) (i i' : SlotId) : Prop :=
  ∃ n, N n ∧ v.node? i = some n ∧ w.node? i' = some n

namespace Pairs

theorem mono (h : Pairs N v w i i') (hv : ∀ i n, v.node? i = some n → v'.node? i = some n)
    (hw : ∀ i n, w.node? i = some n → w'.node? i = some n) : Pairs N v' w' i i' := by
  obtain ⟨n, hn, hi, hi'⟩ := h
  exact ⟨n, hn, hv i n hi, hw i' n hi'⟩

theorem biUnique (hv : Tidy p use v.toSystem) (hw : Tidy p use w.toSystem) :
    Relator.BiUnique (Pairs N v w) := by
  constructor
  · rintro i i' j ⟨n, -, hi, hj⟩ ⟨n', -, hi', hj'⟩
    obtain rfl := Option.some.inj (hj.symm.trans hj')
    exact hv.distinct i i' n hi hi'
  · rintro i j j' ⟨n, -, hi, hj⟩ ⟨n', -, hi', hj'⟩
    obtain rfl := Option.some.inj (hi.symm.trans hi')
    exact hw.distinct j j' n hj hj'

theorem kind? (h : Pairs N v w i i') (hv : Tidy p use v.toSystem) (hw : Tidy p use w.toSystem) :
    w.kind? i' = v.kind? i := by
  obtain ⟨n, -, hi, hi'⟩ := h
  rw [hv.kind? hi, hw.kind? hi']

theorem nameOf (h : Pairs N v w i i') : w.nameOf i' = v.nameOf i := by
  obtain ⟨n, -, hi, hi'⟩ := h
  rw [System.nameOf_eq hi, System.nameOf_eq hi']

end Pairs

theorem forall₂_recordOnce (hv : Tidy p use v.toSystem) (hw : Tidy p use w.toSystem)
    {deps deps' : List SlotId} (h : List.Forall₂ (Pairs N v w) deps deps') (hi : Pairs N v w i i') :
    List.Forall₂ (Pairs N v w) (recordOnce i deps) (recordOnce i' deps') := by
  have hmem : i ∈ deps ↔ i' ∈ deps' := List.rel_mem (Pairs.biUnique hv hw) hi h
  unfold recordOnce
  by_cases hin : i ∈ deps
  · rwa [if_pos hin, if_pos (hmem.1 hin)]
  · rw [if_neg hin, if_neg fun hin' => hin (hmem.2 hin')]
    exact List.rel_append h (.cons hi .nil)

theorem forall₂_dropInnermost (hv : Tidy p use v.toSystem) (hw : Tidy p use w.toSystem)
    {active active' : List SlotId} (h : List.Forall₂ (Pairs N v w) active active')
    (hi : Pairs N v w i i') :
    List.Forall₂ (Pairs N v w) (dropInnermost active i) (dropInnermost active' i') := by
  unfold dropInnermost
  exact List.forall₂_reverse_iff.2 (forall₂_erase (Pairs.biUnique hv hw)
    (List.forall₂_reverse_iff.2 h) hi)

theorem map_nameOf_of_pairs {is is' : List SlotId} (h : List.Forall₂ (Pairs N v w) is is') :
    is'.map w.nameOf = is.map v.nameOf := by
  induction h with
  | nil => rfl
  | cons hi _ ih => rw [List.map_cons, List.map_cons, hi.nameOf, ih]

/-! ## Memos and worlds side by side -/

/-- Memos of one value: the value is the same up to the renaming, the dependencies are those of the same
    nodes, and of each of them both or neither say that it has changed since. -/
structure EchoesMemo (N : Node → Prop) (ρ : Renaming) (τ : ValueType) (v w : World) (m m' : Memo) :
    Prop where
  value : ρ.Renames τ m.value m'.value
  deps : List.Forall₂ (fun j j' => Pairs N v w j j' ∧
    (m.verifiedAt < v.changedAt j ↔ m'.verifiedAt < w.changedAt j')) m.deps m'.deps

/-- What the one world keeps for the nodes in `N` the other one keeps, too, and for nodes outside `F` it
    keeps nothing else. -/
structure Echoes (use : Usages) (N F : Node → Prop) (ρ : Renaming) (v w : World) : Prop where
  written : ∀ n i x, N n → v.node? i = some n → v.written? i = some x → ∃ i' x',
    w.node? i' = some n ∧ w.written? i' = some x' ∧
      ρ.Renames (use n.query).valueType x.value x'.value
  unwritten : ∀ n i' x', N n → w.node? i' = some n → w.written? i' = some x' →
    ∃ i x, v.node? i = some n ∧ v.written? i = some x
  memo : ∀ n i m, N n → v.node? i = some n → v.memo? i = some m → ∃ i' m',
    w.node? i' = some n ∧ w.memo? i' = some m' ∧ EchoesMemo N ρ (use n.query).valueType v w m m'
  unkept : ∀ n i' m', N n → ¬F n → w.node? i' = some n → w.memo? i' = some m' →
    ∃ i m, v.node? i = some n ∧ v.memo? i = some m

/-- New systems keep nothing. -/
theorem echoes_new (memoize : Bool) :
    Echoes use N F ρ ({ memoize } : World) ({ memoize } : World) :=
  ⟨nofun, nofun, nofun, nofun⟩

namespace Echoes

variable (h : Echoes use N F ρ v w) (hv : Tidy p use v.toSystem) (hw : Tidy p use w.toSystem)
include h

include hw in
/-- A memo and that of the slot of the same node. -/
theorem memo_at {n : Node} (hn : N n) (hi : v.node? i = some n) (hi' : w.node? i' = some n)
    (hm : v.memo? i = some m) : ∃ m', w.memo? i' = some m' ∧
      EchoesMemo N ρ (use n.query).valueType v w m m' := by
  obtain ⟨k, m', hk, hm', hecho⟩ := h.memo n i m hn hi hm
  obtain rfl := hw.distinct k i' n hk hi'
  exact ⟨m', hm', hecho⟩

include hv in
theorem unkept_at {n : Node} (hn : N n) (hF : ¬F n) (hi : v.node? i = some n)
    (hi' : w.node? i' = some n) (hm' : w.memo? i' = some m') : ∃ m, v.memo? i = some m := by
  obtain ⟨k, m, hk, hm⟩ := h.unkept n i' m' hn hF hi' hm'
  obtain rfl := hv.distinct k i n hk hi
  exact ⟨m, hm⟩

include hv hw in
/-- What is written in the slots of one node. -/
theorem written_at {n : Node} (hn : N n) (hi : v.node? i = some n) (hi' : w.node? i' = some n) :
    Option.Rel (fun x x' => ρ.Renames (use n.query).valueType x.value x'.value) (v.written? i)
      (w.written? i') := by
  cases hx : v.written? i with
  | some x =>
    obtain ⟨k, x', hk, hx', hvalue⟩ := h.written n i x hn hi hx
    obtain rfl := hw.distinct k i' n hk hi'
    rw [hx']
    exact .some hvalue
  | none =>
    cases hx' : w.written? i' with
    | none => exact .none
    | some x' =>
      obtain ⟨k, x, hk, hx₁⟩ := h.unwritten n i' x' hn hi' hx'
      obtain rfl := hv.distinct k i n hk hi
      cases hx.symm.trans hx₁

include hv hw in
/-- What is firm in the one world is firm in the other one. -/
theorem firm (hfirm : v.Firm i) (hpair : Pairs N v w i i') : w.Firm i' := by
  induction hfirm generalizing i' with
  | intro memo unchanged deps ih =>
    obtain ⟨n, hn, hi, hi'⟩ := hpair
    obtain ⟨m', hm', hecho⟩ := h.memo_at hw hn hi hi' memo
    refine .intro hm' (fun j' hj' => ?_) fun j' hj' hkind => ?_
    · obtain ⟨j, hj, -, htest⟩ := exists_left_of_mem hecho.deps hj'
      exact Nat.le_of_not_lt fun hlt => absurd (unchanged j hj) (Nat.not_le_of_lt (htest.2 hlt))
    · obtain ⟨j, hj, hpair', -⟩ := exists_left_of_mem hecho.deps hj'
      exact ih j hj (hpair'.kind? hv hw ▸ hkind) hpair'

include hv hw in
/-- What is kept in the one world is firm there if it is in the other one. -/
theorem firm_back (hlinked : v.Linked) (hfirm : w.Firm i') (hpair : Pairs N v w i i')
    (hm : v.memo? i = some m) : v.Firm i := by
  induction hfirm generalizing i m with
  | intro memo unchanged deps ih =>
    obtain ⟨n, hn, hi, hi'⟩ := hpair
    obtain ⟨m', hm', hecho⟩ := h.memo_at hw hn hi hi' hm
    obtain rfl := Option.some.inj (memo.symm.trans hm')
    refine .intro hm (fun j hj => ?_) fun j hj hkind => ?_
    · obtain ⟨j', hj', -, htest⟩ := exists_right_of_mem hecho.deps hj
      exact Nat.le_of_not_lt fun hlt => absurd (unchanged j' hj') (Nat.not_le_of_lt (htest.1 hlt))
    · obtain ⟨j', hj', hpair', -⟩ := exists_right_of_mem hecho.deps hj
      rcases hlinked.lasts i m hm j hj with hinput | ⟨o, ho, -⟩
      · exact absurd hinput hkind
      · exact ih j' hj' (hpair'.kind? hv hw ▸ hkind) hpair' ho

end Echoes

/-! ## What leaves a world as good as before -/

/-- For the nodes in `N`, inputs and values are the ones that were there, and a revalidation decides as
    before; only for nodes in `F` more may be kept. -/
structure Sustains (N F : Node → Prop) (w w' : World) : Prop where
  node : ∀ i n, w.node? i = some n → w'.node? i = some n
  written : ∀ i n, N n → w'.node? i = some n → w'.written? i = w.written? i
  memo : ∀ i n m, N n → w.node? i = some n → w.memo? i = some m → ∃ m', w'.memo? i = some m' ∧
    m'.toStamped = m.toStamped ∧ m'.deps = m.deps ∧
      ∀ j ∈ m.deps, (m'.verifiedAt < w'.changedAt j ↔ m.verifiedAt < w.changedAt j)
  unkept : ∀ i n m', N n → ¬F n → w'.node? i = some n → w'.memo? i = some m' →
    ∃ m, w.memo? i = some m

theorem Grows.sustains (h : w.Grows w') : w.Sustains N F w' where
  node := h.node
  written i _ _ _ := h.written i
  memo i n m _ _ hm := ⟨m, (h.memo i).trans hm, rfl, rfl, fun j _ => by
    rw [System.changedAt_congr (h.memo j) (h.written j)]⟩
  unkept i n m' _ _ _ hm' := ⟨m', (h.memo i).symm.trans hm'⟩

/-- No dependency of a firm slot has changed, neither since the slot was found valid nor until now. -/
theorem Firm.test_later (h : w.Firm i) (hlinked : w.Linked) (hm : w.memo? i = some m)
    (hj : j ∈ m.deps) : w.revision < w.changedAt j ↔ m.verifiedAt < w.changedAt j := by
  have hunchanged := (h.of_memo hm hj).1
  exact ⟨fun hlt => absurd (Nat.le_trans hunchanged (hlinked.bound i m hm)) (Nat.not_le_of_lt hlt),
    fun hlt => absurd hunchanged (Nat.not_le_of_lt hlt)⟩

/-- To be found valid changes no decision about what is firm. -/
theorem Refreshes.sustains (h : w.Refreshes p use w') (hlinked : w.Linked) : w.Sustains N F w' where
  node := h.node
  written i _ _ _ := h.written i
  memo i n m _ _ hm := by
    rcases h.memo i with hsame | ⟨hfirm, m₁, hm₁, hlater⟩
    · exact ⟨m, hsame.trans hm, rfl, rfl, fun j _ => by rw [h.changedAt]⟩
    · obtain rfl := Option.some.inj (hm₁.symm.trans hm)
      refine ⟨_, hlater, rfl, rfl, fun j hj => ?_⟩
      rw [h.changedAt]
      exact hfirm.test_later hlinked hm hj
  unkept i n m' _ _ _ hm' := by
    rcases h.memo i with hsame | ⟨-, m, hm, -⟩
    · exact ⟨m', hsame.symm.trans hm'⟩
    · exact ⟨m, hm⟩

namespace Echoes

theorem mono (h : Echoes use N F ρ v w) (hsub : ρ ⊆ ρ') : Echoes use N F ρ' v w where
  written n i x hn hi hx := by
    obtain ⟨i', x', hi', hx', hvalue⟩ := h.written n i x hn hi hx
    exact ⟨i', x', hi', hx', hvalue.mono hsub⟩
  unwritten := h.unwritten
  memo n i m hn hi hm := by
    obtain ⟨i', m', hi', hm', hecho⟩ := h.memo n i m hn hi hm
    exact ⟨i', m', hi', hm', hecho.value.mono hsub, hecho.deps⟩
  unkept := h.unkept

theorem sustains_left (h : Echoes use N F ρ v w) (hsustains : v.Sustains N (fun _ => False) v') :
    Echoes use N F ρ v' w where
  written n i x hn hi hx := by
    rw [hsustains.written i n hn hi] at hx
    obtain ⟨slot, hslot, -⟩ := Option.bind_eq_some_iff.1 hx
    have hnode : v.node? i = some ⟨slot.query, slot.key⟩ :=
      System.node?_eq_some.2 ⟨slot, hslot, rfl, rfl⟩
    obtain rfl := Option.some.inj ((hsustains.node i _ hnode).symm.trans hi)
    exact h.written _ i x hn hnode hx
  unwritten n i' x' hn hi' hx' := by
    obtain ⟨i, x, hi, hx⟩ := h.unwritten n i' x' hn hi' hx'
    have hi₁ := hsustains.node i n hi
    exact ⟨i, x, hi₁, (hsustains.written i n hn hi₁).trans hx⟩
  memo n i m hn hi hm := by
    obtain ⟨m₀, hm₀⟩ := hsustains.unkept i n m hn id hi hm
    obtain ⟨n₀, hn₀⟩ := exists_node_of_memo hm₀
    obtain rfl := Option.some.inj ((hsustains.node i n₀ hn₀).symm.trans hi)
    obtain ⟨m₁, hm₁, hstamped, hdeps, htests⟩ := hsustains.memo i n₀ m₀ hn hn₀ hm₀
    obtain rfl := Option.some.inj (hm.symm.trans hm₁)
    obtain ⟨i', m', hi', hm', hecho⟩ := h.memo n₀ i m₀ hn hn₀ hm₀
    refine ⟨i', m', hi', hm', congrArg Stamped.value hstamped ▸ hecho.value, ?_⟩
    rw [hdeps]
    refine List.Forall₂.imp ?_ ((List.forall₂_and_left _ _).2 ⟨fun j hj => hj, hecho.deps⟩)
    rintro j j' ⟨hj, hpair, htest⟩
    exact ⟨hpair.mono hsustains.node fun _ _ h => h, (htests j hj).trans htest⟩
  unkept n i' m' hn hF hi' hm' := by
    obtain ⟨i, m, hi, hm⟩ := h.unkept n i' m' hn hF hi' hm'
    obtain ⟨m₁, hm₁, -⟩ := hsustains.memo i n m hn hi hm
    exact ⟨i, m₁, hsustains.node i n hi, hm₁⟩

theorem sustains_right (h : Echoes use N F ρ v w) (hsustains : w.Sustains N F w') :
    Echoes use N F ρ v w' where
  written n i x hn hi hx := by
    obtain ⟨i', x', hi', hx', hvalue⟩ := h.written n i x hn hi hx
    have hi₁ := hsustains.node i' n hi'
    exact ⟨i', x', hi₁, (hsustains.written i' n hn hi₁).trans hx', hvalue⟩
  unwritten n i' x' hn hi' hx' := by
    rw [hsustains.written i' n hn hi'] at hx'
    obtain ⟨slot, hslot, -⟩ := Option.bind_eq_some_iff.1 hx'
    have hnode : w.node? i' = some ⟨slot.query, slot.key⟩ :=
      System.node?_eq_some.2 ⟨slot, hslot, rfl, rfl⟩
    obtain rfl := Option.some.inj ((hsustains.node i' _ hnode).symm.trans hi')
    exact h.unwritten _ i' x' hn hnode hx'
  memo n i m hn hi hm := by
    obtain ⟨i', m', hi', hm', hecho⟩ := h.memo n i m hn hi hm
    obtain ⟨m₁, hm₁, hstamped, hdeps, htests⟩ := hsustains.memo i' n m' hn hi' hm'
    refine ⟨i', m₁, hsustains.node i' n hi', hm₁, congrArg Stamped.value hstamped ▸ hecho.value, ?_⟩
    rw [hdeps]
    refine List.Forall₂.imp ?_ (List.Forall₂.flip ((List.forall₂_and_left _ _).2
      ⟨fun j' hj' => hj', List.Forall₂.flip hecho.deps⟩))
    rintro j j' ⟨hj', hpair, htest⟩
    exact ⟨hpair.mono (fun _ _ h => h) hsustains.node, htest.trans (htests j' hj').symm⟩
  unkept n i' m' hn hF hi' hm' := by
    obtain ⟨m₀, hm₀⟩ := hsustains.unkept i' n m' hn hF hi' hm'
    obtain ⟨n₀, hn₀⟩ := exists_node_of_memo hm₀
    obtain rfl := Option.some.inj ((hsustains.node i' n₀ hn₀).symm.trans hi')
    exact h.unkept n₀ i' m₀ hn hF hn₀ hm₀

end Echoes

end World

end RedGreen
