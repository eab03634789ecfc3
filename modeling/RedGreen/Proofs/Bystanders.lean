import RedGreen.Proofs.Pace

set_option autoImplicit false

/-! # Bystanders

Some clients share a system, and each of them has nodes of its own; in common they have only nodes in
`F`. Whatever one of them asks for, and whatever it writes, does not concern the others: their inputs and
values stay, and so does every decision about them (`Elapses.sustains`, `Writes.sustains`). So a world
that is joined with the shared one, for the nodes of another client, remains so (`Joined.standsBy`).

A write of the client itself, made in both worlds, keeps them joined, too (`Joined.writes`): what has
recorded the input is now behind in both, and what is kept for the nodes in `F` is not concerned. -/

namespace RedGreen

open Evaluation Relation

variable {p : Program} {use : Usages} {N N' F : Node → Prop} {ρ : Renaming}
  {births births' : Nat → Option SlotId} {v v' w w' w'' : World} {i i' j : SlotId} {m : Memo}
  {x x' : Value} {n : Node}

namespace World

theorem Sustains.trans (h : w.Sustains N F w') (h' : w'.Sustains N F w'') : w.Sustains N F w'' where
  node i n hi := h'.node i n (h.node i n hi)
  written i n hn hi := by
    rw [h'.written i n hn hi]
    cases hx : w'.written? i with
    | some x =>
      obtain ⟨n₁, hn₁⟩ := exists_node_of_written hx
      obtain rfl := Option.some.inj ((h'.node i n₁ hn₁).symm.trans hi)
      exact hx.symm.trans (h.written i n₁ hn hn₁)
    | none =>
      cases hx₀ : w.written? i with
      | none => rfl
      | some x =>
        obtain ⟨n₁, hn₁⟩ := exists_node_of_written hx₀
        have hi' := h.node i n₁ hn₁
        obtain rfl := Option.some.inj ((h'.node i n₁ hi').symm.trans hi)
        cases (hx.symm.trans (h.written i n₁ hn hi')).trans hx₀
  memo i n m hn hi hm := by
    obtain ⟨m₁, hm₁, hstamped, hdeps, htests⟩ := h.memo i n m hn hi hm
    obtain ⟨m₂, hm₂, hstamped', hdeps', htests'⟩ := h'.memo i n m₁ hn (h.node i n hi) hm₁
    exact ⟨m₂, hm₂, hstamped'.trans hstamped, hdeps'.trans hdeps,
      fun j hj => (htests' j (hdeps ▸ hj)).trans (htests j hj)⟩
  unkept i n m hn hF hi hm := by
    obtain ⟨m₁, hm₁⟩ := h'.unkept i n m hn hF hi hm
    obtain ⟨n₁, hn₁⟩ := exists_node_of_memo hm₁
    obtain rfl := Option.some.inj ((h'.node i n₁ hn₁).symm.trans hi)
    exact h.unkept i n₁ m₁ hn hF hn₁ hm₁

/-! ## What a request for others does -/

/-- What a request for nodes in `N` does concerns other nodes only if they are in `F`. -/
theorem Elapses.sustains (h : w.Elapses N [] w') (hrooted : w.Rooted p use F) (hlinked : w.Linked)
    (hrecorded : w.Recorded p) (hrealm : p.Realm use N' F) (hcommon : ∀ n, N n → N' n → F n) :
    w.Sustains N' F w' where
  node := h.node
  written i _ _ _ := h.written i
  memo i n m hn hi hm := by
    -- no dependency has changed
    have hdeps (j : SlotId) (hj : j ∈ m.deps) : w'.changedAt j = w.changedAt j := by
      obtain ⟨n', hn', hj'⟩ := hrecorded.closed hrealm.closed hn hi ⟨m, hm, hj⟩
      rcases h.outside j with hsame | ⟨n₁, hn₁, hN⟩
      · exact System.changedAt_congr hsame (h.written j)
      · obtain rfl := Option.some.inj ((h.node j n' hj').symm.trans hn₁)
        refine h.changedAt_eq hlinked ((hlinked.lasts i m hm j hj).imp_right fun ⟨o, ho, _⟩ => ?_)
        exact hrooted.firm j n' o hj' ho (.inr (hcommon n' hN hn'))
    rcases h.outside i with hsame | ⟨n₁, hn₁, hN⟩
    · exact ⟨m, hsame.trans hm, rfl, rfl, fun j hj => by rw [hdeps j hj]⟩
    · obtain rfl := Option.some.inj ((h.node i n hi).symm.trans hn₁)
      have hfirm := hrooted.firm i n m hi hm (.inr (hcommon n hN hn))
      rcases h.firm i m hfirm hm with hsame | hlater
      · exact ⟨m, hsame, rfl, rfl, fun j hj => by rw [hdeps j hj]⟩
      · refine ⟨_, hlater, rfl, rfl, fun j hj => ?_⟩
        rw [hdeps j hj]
        exact hfirm.test_later hlinked hm hj
  unkept i _ m' hn hF hi hm' := by
    rcases h.outside i with hsame | ⟨n₁, hn₁, hN⟩
    · exact ⟨m', hsame.symm.trans hm'⟩
    · obtain rfl := Option.some.inj (hi.symm.trans hn₁)
      exact absurd (hcommon _ hN hn) hF

/-! ## What a write does -/

section Writes

variable (hw : w.Writes i x w') (hrecorded : w.Recorded p)
include hw

theorem Writes.preserves : w.Preserves F w' where
  node j _ hj := (hw.node j).trans hj
  memo j _ m _ _ hm := ⟨m, (hw.memo j).trans hm, rfl, rfl⟩

theorem Writes.changedAt_self (hi : w.kind? i = some .input) : w'.changedAt i = w.revision.next := by
  rw [System.changedAt_eq, hw.memo i, System.memo?_of_input hi, hw.written_self]

theorem Writes.changedAt_other (hj : j ≠ i) : w'.changedAt j = w.changedAt j :=
  System.changedAt_congr (hw.memo j) (hw.written_other j hj)

theorem Writes.linked (hlinked : w.Linked) (ht : Tidy p use w.toSystem)
    (ht' : Tidy p use w'.toSystem) : w'.Linked :=
  hlinked.of_memo (fun j _ hk => kind?_of_node ht ht' (fun _ hj => (hw.node j).trans hj) hk) hw.memo
    (hw.revision ▸ Nat.le_succ _)

include hrecorded

/-- A write concerns only those who know the input. -/
theorem Writes.sustains (hrealm : p.Realm use N' F) (hi : w.node? i = some n) (hn : ¬N' n) :
    w.Sustains N' F w' where
  node j n' hj := (hw.node j).trans hj
  written j n' hn' hj := by
    refine hw.written_other j fun heq => hn ?_
    rw [hw.node, heq] at hj
    exact Option.some.inj (hi.symm.trans hj) ▸ hn'
  memo j n' m hn' hj hm := by
    refine ⟨m, (hw.memo j).trans hm, rfl, rfl, fun k hk => ?_⟩
    obtain ⟨n₁, hn₁, hk'⟩ := hrecorded.closed hrealm.closed hn' hj ⟨m, hm, hk⟩
    rw [hw.changedAt_other fun heq => hn ?_]
    rw [heq] at hk'
    exact Option.some.inj (hi.symm.trans hk') ▸ hn₁
  unkept j n' m' _ _ _ hm' := ⟨m', (hw.memo j).symm.trans hm'⟩

/-- What comes from no input stays firm. -/
theorem Firm.writes (hfirm : w.Firm j) (hrealm : p.Realm use N F) (ht : Tidy p use w.toSystem)
    (hi : w.kind? i = some .input) (hn : F n) (hj : w.node? j = some n) : w'.Firm j := by
  induction hfirm generalizing n with
  | @intro j m memo unchanged deps ih =>
    have hdeps (k : SlotId) (hk : k ∈ m.deps) :
        ∃ n', F n' ∧ w.node? k = some n' ∧ w.kind? k ≠ some .input := by
      obtain ⟨n', hn', hk'⟩ := hrecorded.closed hrealm.constant hn hj ⟨m, memo, hk⟩
      refine ⟨n', hn', hk', ?_⟩
      rw [ht.kind? hk', hrealm.derived n' hn']
      exact nofun
    refine .intro ((hw.memo j).trans memo) (fun k hk => ?_) fun k hk _ => ?_
    · obtain ⟨n', -, -, hkind⟩ := hdeps k hk
      have hne : k ≠ i := fun heq => hkind (heq ▸ hi)
      rw [hw.changedAt_other hne]
      exact unchanged k hk
    · obtain ⟨n', hn', hk', hkind⟩ := hdeps k hk
      exact ih k hk hkind hn' hk'

/-- After a write nothing is valid yet but what comes from no input. -/
theorem Rooted.writes (h : w.Rooted p use F) (hlinked : w.Linked) (hrealm : p.Realm use N F)
    (ht' : Tidy p use w'.toSystem) (hi : w.kind? i = some .input) : w'.Rooted p use F where
  tidy := ht'
  firm j n m hj hm hvalid := by
    rw [hw.node] at hj
    rw [hw.memo] at hm
    rcases hvalid with hnow | hF
    · have hbound := hlinked.bound j m hm
      rw [hnow, hw.revision] at hbound
      exact absurd hbound (Nat.not_succ_le_self _)
    · exact (h.firm j n m hj hm (.inr hF)).writes hw hrecorded hrealm h.tidy hi hF hj

end Writes

/-- The same input is written in both worlds: whoever has recorded it has to look at it again. -/
theorem Echoes.writes (h : Echoes use N F ρ v w) (hv : v.Writes i x v') (hw : w.Writes i' x' w')
    (ht : Tidy p use v.toSystem) (ht' : Tidy p use w.toSystem) (hlinked : v.Linked)
    (hlinked' : w.Linked) (hkind : v.kind? i = some .input) (hn : N n) (hi : v.node? i = some n)
    (hi' : w.node? i' = some n) (hx : ρ.Renames (use n.query).valueType x x') :
    Echoes use N F ρ v' w' where
  written n₁ j y hn₁ hj hy := by
    rw [hv.node] at hj
    by_cases hji : j = i
    · subst hji
      obtain rfl := Option.some.inj (hi.symm.trans hj)
      obtain rfl := Option.some.inj (hv.written_self.symm.trans hy)
      exact ⟨i', _, (hw.node i').trans hi', hw.written_self, hx⟩
    · rw [hv.written_other j hji] at hy
      obtain ⟨j', y', hj', hy', hvalue⟩ := h.written n₁ j y hn₁ hj hy
      refine ⟨j', y', (hw.node j').trans hj', (hw.written_other j' fun heq => hji ?_).trans hy', hvalue⟩
      obtain rfl := Option.some.inj ((heq ▸ hi').symm.trans hj')
      exact ht.distinct j i n hj hi
  unwritten n₁ j' y' hn₁ hj' hy' := by
    rw [hw.node] at hj'
    by_cases hji' : j' = i'
    · subst hji'
      obtain rfl := Option.some.inj (hi'.symm.trans hj')
      exact ⟨i, _, (hv.node i).trans hi, hv.written_self⟩
    · rw [hw.written_other j' hji'] at hy'
      obtain ⟨j, y, hj, hy⟩ := h.unwritten n₁ j' y' hn₁ hj' hy'
      refine ⟨j, y, (hv.node j).trans hj, (hv.written_other j fun heq => hji' ?_).trans hy⟩
      obtain rfl := Option.some.inj ((heq ▸ hi).symm.trans hj)
      exact ht'.distinct j' i' n hj' hi'
  memo n₁ j m hn₁ hj hm := by
    rw [hv.node] at hj
    rw [hv.memo] at hm
    obtain ⟨j', m', hj', hm', hecho⟩ := h.memo n₁ j m hn₁ hj hm
    have hself : Pairs N v w i i' := ⟨n, hn, hi, hi'⟩
    have hunique := Pairs.biUnique (N := N) ht ht'
    refine ⟨j', m', (hw.node j').trans hj', (hw.memo j').trans hm', hecho.value,
      hecho.deps.imp ?_⟩
    rintro k k' ⟨hpair, htest⟩
    refine ⟨hpair.mono (fun i _ hi => (hv.node i).trans hi) fun i _ hi => (hw.node i).trans hi, ?_⟩
    by_cases hki : k = i
    · -- what has just been written has changed since
      obtain rfl := hki
      obtain rfl := hunique.2 hpair hself
      rw [hv.changedAt_self hkind, hw.changedAt_self ((hself.kind? ht ht').trans hkind)]
      exact ⟨fun _ => Nat.lt_succ_of_le (hlinked'.bound j' m' hm'),
        fun _ => Nat.lt_succ_of_le (hlinked.bound j m hm)⟩
    · have hki' : k' ≠ i' := fun heq => hki (hunique.1 hpair (heq ▸ hself))
      rw [hv.changedAt_other hki, hw.changedAt_other hki']
      exact htest
  unkept n₁ j' m' hn₁ hF hj' hm' := by
    rw [hw.node] at hj'
    rw [hw.memo] at hm'
    obtain ⟨j, m, hj, hm⟩ := h.unkept n₁ j' m' hn₁ hF hj' hm'
    exact ⟨j, m, (hv.node j).trans hj, (hv.memo j).trans hm⟩

/-! ## Joined worlds -/

/-- What others do in the second world leaves the worlds joined. -/
theorem Joined.standsBy (h : Joined p use N F ρ births [] v w) (hsustains : w.Sustains N F w')
    (hrooted : w'.Rooted p use F) (hexplains : w'.Explains p F births')
    (hle : w.allocations ≤ w'.allocations)
    (hborn : ∀ n i, n < w.allocations → births' n = some i →
      births n = some i ∧ ∃ m, w.memo? i = some m) : Joined p use N F ρ births' [] v w' where
  rooted := h.rooted
  rooted' := hrooted
  echoes := h.echoes.sustains_right hsustains
  consistent := h.consistent
  bounded ab hab := ⟨(h.bounded ab hab).1, Nat.lt_of_lt_of_le (h.bounded ab hab).2 hle⟩
  explains := hexplains
  fresh ab hab i' hi'born hX n m' hF hi' hm' := by
    obtain ⟨hbefore, m, hm⟩ := hborn ab.2 i' (h.bounded ab hab).2 hi'born
    obtain ⟨n₁, hn₁⟩ := exists_node_of_memo hm
    obtain rfl := Option.some.inj ((hsustains.node i' n₁ hn₁).symm.trans hi')
    exact h.fresh ab hab i' hbefore hX n₁ m hF hn₁ hm

/-- A write of the client, in both worlds. -/
theorem Joined.writes (h : Joined p use N F ρ births [] v w) (hrealm : p.Realm use N F)
    (hv : v.Writes i x v') (hw : w.Writes i' x' w') (ht : Tidy p use v'.toSystem)
    (ht' : Tidy p use w'.toSystem) (hlinked : v.Linked) (hlinked' : w.Linked)
    (hrecorded : v.Recorded p) (hrecorded' : w.Recorded p) (hkind : v.kind? i = some .input)
    (hn : N n) (hi : v.node? i = some n) (hi' : w.node? i' = some n)
    (hx : ρ.Renames (use n.query).valueType x x') (hle : v.allocations ≤ v'.allocations)
    (hle' : w.allocations ≤ w'.allocations) : Joined p use N F ρ births [] v' w' where
  rooted := h.rooted.writes hv hrecorded hlinked hrealm ht hkind
  rooted' := by
    have hpair : Pairs N v w i i' := ⟨n, hn, hi, hi'⟩
    exact h.rooted'.writes hw hrecorded' hlinked' hrealm ht'
      ((hpair.kind? h.rooted.tidy h.rooted'.tidy).trans hkind)
  echoes := h.echoes.writes hv hw h.rooted.tidy h.rooted'.tidy hlinked hlinked' hkind hn hi hi' hx
  consistent := h.consistent
  bounded ab hab := ⟨Nat.lt_of_lt_of_le (h.bounded ab hab).1 hle,
    Nat.lt_of_lt_of_le (h.bounded ab hab).2 hle'⟩
  explains := h.explains.keeps hw.preserves hle' fun j m' hm' => ⟨m', (hw.memo j).symm.trans hm'⟩
  fresh ab hab j' hborn hX n₁ m' hF hj' hm' := by
    rw [hw.node] at hj'
    rw [hw.memo] at hm'
    obtain ⟨j, m, hj, hm⟩ := h.fresh ab hab j' hborn hX n₁ m' hF hj' hm'
    exact ⟨j, m, (hv.node j).trans hj, (hv.memo j).trans hm⟩

/-- Both worlds make their own copy of a value. -/
theorem Joined.ownCopy (h : Joined p use N F ρ births [] v w) (hlinked : v.Linked)
    (hlinked' : w.Linked) (x : Value) : ∃ ρ', ρ ⊆ ρ' ∧
      Joined p use N F ρ' births [] (v.ownCopy x).2 (w.ownCopy x).2 ∧
      ρ'.Renames x.type (v.ownCopy x).1 (w.ownCopy x).1 := by
  cases x with
  | list n items =>
    have hw := w.quiet_allocate
    have hright : Joined p use N F ρ births [] v w.allocate.2 :=
      h.grows (.refl v) hw.grows hlinked hlinked' h.rooted.tidy (hw.tidy h.rooted'.tidy) (Nat.le_refl _)
        (Nat.le_succ _)
    refine ⟨(v.allocations, w.allocations) :: ρ, List.subset_cons_self _ _, ?_,
      Renaming.renames_list List.mem_cons_self items⟩
    exact hright.allocates hlinked (Nat.lt_succ_self _)
      (fun ab hab => Nat.ne_of_lt (h.bounded ab hab).2)
      fun k hk => absurd (h.explains.bound _ k hk) (Nat.lt_irrefl _)
  | _ => exact ⟨ρ, List.Subset.refl ρ, h, rfl, fun _ _ => rfl⟩

/-- Which slots have made the allocations that went into what is kept. -/
def settled (births : Nat → Option SlotId) (w : World) (n : Nat) : Option SlotId :=
  (births n).filter fun i => (w.memo? i).isSome

theorem settled_eq_some {k : Nat} : settled births w k = some i ↔
    births k = some i ∧ ∃ m, w.memo? i = some m := by
  simp [settled, Option.filter_eq_some_iff, Option.isSome_iff_exists]

/-- Runs that have kept nothing need not be remembered. -/
theorem Joined.settle (h : Joined p use N F ρ births [] v w) :
    Joined p use N F ρ (settled births w) [] v w :=
  { h with
    explains :=
      { bound := fun k i hk => h.explains.bound k i (settled_eq_some.1 hk).1
        replays := fun i label key m hF hi hm => by
          obtain ⟨k, hrun⟩ := h.explains.replays i label key m hF hi hm
          exact ⟨k, hrun.mono (Grows.refl w).preserves fun n hn => settled_eq_some.2 ⟨hn, m, hm⟩⟩ }
    fresh := fun ab hab i' hborn => h.fresh ab hab i' (settled_eq_some.1 hborn).1 }

end World

end RedGreen
