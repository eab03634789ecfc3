import RedGreen.Proofs.Abreast
import RedGreen.Proofs.Coherence
import RedGreen.Proofs.Strides

set_option autoImplicit false

/-! # Catching up

In two worlds that are joined the second one may keep more for the nodes in `F`, since others have asked
for it. When the first one is asked for such a value, it has to run what the second one has run before.
The run is replayed from what the second world keeps (`Replays.catchesUp`), and whatever is called on the
way is caught up with first; so in the end the first world keeps the value, too, and the dependencies
(`Firm.catchesUp`). -/

namespace RedGreen

open Evaluation Relation

variable {p : Program} {use : Usages} {N F : Node → Prop} {ρ ρ' : Renaming} {t : Token}
  {births births' : Nat → Option SlotId} {v v' v'' w w' : World} {i i' j j' : SlotId}
  {m m' : Memo} {X : List SlotId} {frames : List Frame} {root : SlotId}

/-- Elements that correspond to each other, with the lists that they are in. -/
theorem forall₂_mem {α β : Type} {R : α → β → Prop} {as : List α} {bs : List β}
    (h : List.Forall₂ R as bs) : List.Forall₂ (fun a b => a ∈ as ∧ b ∈ bs ∧ R a b) as bs := by
  induction h with
  | nil => exact .nil
  | cons hab _ ih =>
    refine .cons ⟨List.mem_cons_self, List.mem_cons_self, hab⟩ (ih.imp ?_)
    rintro a b ⟨ha, hb, hr⟩
    exact ⟨List.mem_cons_of_mem _ ha, List.mem_cons_of_mem _ hb, hr⟩

namespace World

/-! ## Joined worlds -/

/-- The second world echoes the first one, both are rooted, and what the second one keeps for the nodes
    in `F` can be replayed. The allocations of such a run have no counterparts in the first world as long
    as this one does not keep the value; only for the slots in `X` there may be some. -/
structure Joined (p : Program) (use : Usages) (N F : Node → Prop) (ρ : Renaming)
    (births : Nat → Option SlotId) (X : List SlotId) (v w : World) : Prop where
  rooted : v.Rooted p use F
  rooted' : w.Rooted p use F
  echoes : Echoes use N F ρ v w
  consistent : ρ.Consistent
  bounded : ∀ ab ∈ ρ, ab.1 < v.allocations ∧ ab.2 < w.allocations
  explains : w.Explains p F births
  fresh : ∀ ab ∈ ρ, ∀ i', births ab.2 = some i' → i' ∉ X → ∀ n m', F n → w.node? i' = some n →
    w.memo? i' = some m' → ∃ i m, v.node? i = some n ∧ v.memo? i = some m

/-- What is written in a slot belongs to a node. -/
theorem exists_node_of_written {x : Stamped} (hx : w.written? i = some x) : ∃ n, w.node? i = some n := by
  obtain ⟨slot, hslot, -⟩ := Option.bind_eq_some_iff.1 hx
  exact ⟨⟨slot.query, slot.key⟩, System.node?_eq_some.2 ⟨slot, hslot, rfl, rfl⟩⟩

/-- Where nothing has changed after some revisions, two worlds agree on what has. -/
theorem forall₂_unchanged {deps deps' : List SlotId} {r r' : Revision}
    (h : List.Forall₂ (Pairs N v w) deps deps') (hv : ∀ j ∈ deps, v.changedAt j ≤ r)
    (hw : ∀ j' ∈ deps', w.changedAt j' ≤ r') :
    List.Forall₂ (fun j j' => Pairs N v w j j' ∧ (r < v.changedAt j ↔ r' < w.changedAt j')) deps deps' := by
  refine (forall₂_mem h).imp fun j j' hpair => ⟨hpair.2.2, ?_⟩
  exact iff_of_false (Nat.not_lt_of_le (hv j hpair.1)) (Nat.not_lt_of_le (hw j' hpair.2.1))

/-- A memo takes the place of another one in each of the worlds. -/
theorem Echoes.lands (h : Echoes use N F ρ v w) (hv : Tidy p use v'.toSystem)
    (hw : Tidy p use w.toSystem) {n : Node} (hn : N n) (hi : v.node? i = some n)
    (hi' : w.node? i' = some n) (hextends : v.Extends v') (hextends' : w.Extends w')
    (hself : v'.memo? i = some m) (hothers : ∀ j, j ≠ i → v'.memo? j = v.memo? j)
    (hself' : w'.memo? i' = some m') (hothers' : ∀ j, j ≠ i' → w'.memo? j = w.memo? j)
    (hecho : EchoesMemo N ρ (use n.query).valueType v' w' m m')
    (htests : ∀ k k' o o', v.memo? k = some o → i ∈ o.deps → w.memo? k' = some o' → i' ∈ o'.deps →
      (o.verifiedAt < v.changedAt i ↔ o'.verifiedAt < w.changedAt i') →
      (o.verifiedAt < v'.changedAt i ↔ o'.verifiedAt < w'.changedAt i')) :
    Echoes use N F ρ v' w' where
  written n₀ k x hn₀ hk hx := by
    rw [hextends.written] at hx
    obtain ⟨n₁, hn₁⟩ := exists_node_of_written hx
    obtain rfl := Option.some.inj ((hextends.node k n₁ hn₁).symm.trans hk)
    obtain ⟨k', x', hk', hx', hvalue⟩ := h.written n₁ k x hn₀ hn₁ hx
    exact ⟨k', x', hextends'.node _ _ hk', (hextends'.written k').trans hx', hvalue⟩
  unwritten n₀ k' x' hn₀ hk' hx' := by
    rw [hextends'.written] at hx'
    obtain ⟨n₁, hn₁⟩ := exists_node_of_written hx'
    obtain rfl := Option.some.inj ((hextends'.node k' n₁ hn₁).symm.trans hk')
    obtain ⟨k, x, hk, hx⟩ := h.unwritten n₁ k' x' hn₀ hn₁ hx'
    exact ⟨k, x, hextends.node _ _ hk, (hextends.written k).trans hx⟩
  memo n₀ k o hn₀ hk ho := by
    by_cases hki : k = i
    · subst hki
      obtain rfl := Option.some.inj ((hextends.node k n hi).symm.trans hk)
      obtain rfl := Option.some.inj (hself.symm.trans ho)
      exact ⟨i', m', hextends'.node _ _ hi', hself', hecho⟩
    · rw [hothers k hki] at ho
      obtain ⟨n₁, hn₁⟩ := exists_node_of_memo ho
      obtain rfl := Option.some.inj ((hextends.node k n₁ hn₁).symm.trans hk)
      obtain ⟨k', o', hk', ho', hecho'⟩ := h.memo n₁ k o hn₀ hn₁ ho
      have hki' : k' ≠ i' := by
        rintro rfl
        obtain rfl := Option.some.inj (hk'.symm.trans hi')
        exact hki (hv.distinct k i n₁ hk (hextends.node i n₁ hi))
      refine ⟨k', o', hextends'.node _ _ hk', (hothers' k' hki').trans ho', hecho'.value, ?_⟩
      refine (forall₂_mem hecho'.deps).imp ?_
      rintro j j' ⟨hj, hj', hpair, htest⟩
      refine ⟨hpair.mono hextends.node hextends'.node, ?_⟩
      obtain ⟨n₂, -, hj₂, hj₂'⟩ := hpair
      by_cases hji : j = i
      · subst hji
        obtain rfl := Option.some.inj (hi.symm.trans hj₂)
        obtain rfl := hw.distinct j' i' _ hj₂' hi'
        exact htests k k' o o' ho hj ho' hj' htest
      · have hji' : j' ≠ i' := by
          rintro rfl
          obtain rfl := Option.some.inj (hi'.symm.trans hj₂')
          exact hji (hv.distinct j i _ (hextends.node j _ hj₂) (hextends.node i _ hi))
        rw [System.changedAt_congr (hothers j hji) (hextends.written j),
          System.changedAt_congr (hothers' j' hji') (hextends'.written j')]
        exact htest
  unkept n₀ k' o' hn₀ hF hk' ho' := by
    by_cases hki' : k' = i'
    · subst hki'
      obtain rfl := Option.some.inj ((hextends'.node k' n hi').symm.trans hk')
      exact ⟨i, m, hextends.node i _ hi, hself⟩
    · rw [hothers' k' hki'] at ho'
      obtain ⟨n₁, hn₁⟩ := exists_node_of_memo ho'
      obtain rfl := Option.some.inj ((hextends'.node k' n₁ hn₁).symm.trans hk')
      obtain ⟨k, o, hk, ho⟩ := h.unkept n₁ k' o' hn₀ hF hn₁ ho'
      by_cases hki : k = i
      · exact ⟨k, m, hextends.node k _ hk, hki ▸ hself⟩
      · exact ⟨k, o, hextends.node k _ hk, (hothers k hki).trans ho⟩

/-- What a slot comes from has a counterpart in the other world. -/
theorem Echoes.path (h : Echoes use N F ρ v w) (hw : Tidy p use w.toSystem)
    (hpair : Pairs N v w i i') (hpath : ReflTransGen v.Records i j) :
    ∃ j', ReflTransGen w.Records i' j' ∧ Pairs N v w j j' := by
  induction hpath with
  | refl => exact ⟨i', .refl, hpair⟩
  | tail _ hlast ih =>
    obtain ⟨k', hpath', n, hn, hk, hk'⟩ := ih
    obtain ⟨o, ho, hj⟩ := hlast
    obtain ⟨o', ho', hecho⟩ := h.memo_at hw hn hk hk' ho
    obtain ⟨j', hj', hpair', -⟩ := exists_right_of_mem hecho.deps hj
    exact ⟨j', hpath'.tail ⟨o', ho', hj'⟩, hpair'⟩

/-! ## The first world goes on -/

theorem Joined.left (h : Joined p use N F ρ births X v w) (hrooted : v'.Rooted p use F)
    (hechoes : Echoes use N F ρ v' w) (hkept : v.Preserves F v')
    (hle : v.allocations ≤ v'.allocations) : Joined p use N F ρ births X v' w where
  rooted := hrooted
  rooted' := h.rooted'
  echoes := hechoes
  consistent := h.consistent
  bounded ab hab := ⟨Nat.lt_of_lt_of_le (h.bounded ab hab).1 hle, (h.bounded ab hab).2⟩
  explains := h.explains
  fresh ab hab j' hborn hX n m' hF hj' hm' := by
    obtain ⟨j, o, hj, ho⟩ := h.fresh ab hab j' hborn hX n m' hF hj' hm'
    obtain ⟨o', ho', -⟩ := hkept.memo j n o hF hj ho
    exact ⟨j, o', hkept.node j n hj, ho'⟩

/-- The first world makes an allocation that the second one has made before. -/
theorem Joined.allocates (h : Joined p use N F ρ births X v w) (hlinked : v.Linked) {b : Nat}
    (hb : b < w.allocations) (hunpaired : ∀ ab ∈ ρ, ab.2 ≠ b)
    (hborn : ∀ k', births b = some k' → k' ∈ X) :
    Joined p use N F ((v.allocations, b) :: ρ) births X v.allocate.2 w := by
  have hgrows := v.quiet_allocate.grows
  have hleft := h.left (h.rooted.grows hgrows hlinked (v.quiet_allocate.tidy h.rooted.tidy))
    (h.echoes.sustains_left hgrows.sustains) hgrows.preserves (Nat.le_succ _)
  have hsub : ρ ⊆ (v.allocations, b) :: ρ := List.subset_cons_self _ _
  exact
    { hleft with
      echoes := hleft.echoes.mono hsub
      consistent := h.consistent.cons (fun ab hab => Nat.ne_of_lt (h.bounded ab hab).1) hunpaired
      bounded := List.forall_mem_cons.2 ⟨⟨Nat.lt_succ_self _, hb⟩, hleft.bounded⟩
      fresh := List.forall_mem_cons.2
        ⟨fun k' hk' hX => absurd (hborn k' hk') hX, hleft.fresh⟩ }

/-- The first world has gone on while the second one stood still. -/
structure Pursues (p : Program) (use : Usages) (N F : Node → Prop) (births : Nat → Option SlotId)
    (X : List SlotId) (ρ : Renaming) (v w : World) (ρ' : Renaming) (v' : World) : Prop where
  joined : Joined p use N F ρ' births X v' w
  elapses : v.Elapses N v.active v'
  active : v'.active = v.active
  subset : ρ ⊆ ρ'
  pairs : ∀ ab ∈ ρ', ab ∈ ρ ∨ ∃ k', k' ∉ X ∧ births ab.2 = some k'

/-- Nothing that a slot comes from is among some others, or in progress in the first world. -/
def Aside (v w : World) (X : List SlotId) (i' : SlotId) : Prop :=
  ∀ j', ReflTransGen w.Records i' j' →
    j' ∉ X ∧ ∀ j ∈ v.active, ∃ n, v.node? j = some n ∧ w.node? j' ≠ some n

/-- Whenever the first world is asked for the value of a slot of the second one, it comes to keep it. -/
def CatchesUp (p : Program) (use : Usages) (N F : Node → Prop) (births : Nat → Option SlotId)
    (t : Token) (w : World) (i' : SlotId) : Prop :=
  ∀ (n : Node) (X : List SlotId) (ρ : Renaming) (v : World) (root i : SlotId) (frames : List Frame),
    F n → v.node? i = some n → w.node? i' = some n → Joined p use N F ρ births X v w →
    Evaluation.Orderly p v root ⟨.fetch i, frames⟩ → t ∉ v.cancelled → Aside v w X i' →
    (p.MayPark n → splitAtImmediate frames = none) →
    ∃ m ρ' v', Reaches p t ⟨.fetch i, frames⟩ v ⟨.answer (.ok m.toStamped), frames⟩ v' ∧
      v'.memo? i = some m ∧ Pursues p use N F births X ρ v w ρ' v'

section CatchingUp

variable (hp : p.Anonymous use) (htr : ∀ label key, Transparent ((p label).body key))
  (hrealm : p.Realm use N F)

include hp hrealm in
/-- What the first world keeps it answers with. -/
theorem pursues_of_firm {n : Node} (hn : N n) (hi : v.node? i = some n) (hi' : w.node? i' = some n)
    (hjoined : Joined p use N F ρ births X v w)
    (horderly : Evaluation.Orderly p v root ⟨.fetch i, frames⟩) (huncancelled : t ∉ v.cancelled)
    (haside : Aside v w X i') (hfirm : v.Firm i) :
    ∃ m v', Reaches p t ⟨.fetch i, frames⟩ v ⟨.answer (.ok m.toStamped), frames⟩ v' ∧
      v'.memo? i = some m ∧ Pursues p use N F births X ρ v w ρ v' := by
  have hout (j : SlotId) (hpath : ReflTransGen v.Records i j) : j ∉ v.active := by
    obtain ⟨j', hpath', n', -, hj, hj'⟩ := hjoined.echoes.path hjoined.rooted'.tidy ⟨n, hn, hi, hi'⟩ hpath
    intro hactive
    obtain ⟨n₁, hn₁, hne⟩ := (haside j' hpath').2 j hactive
    exact hne (Option.some.inj (hj.symm.trans hn₁) ▸ hj')
  obtain ⟨m, v', hreach, hm, hrefreshes, hactive, helapses⟩ := hfirm.answers hp.toConsistent hrealm.closed
    hn hi hjoined.rooted horderly huncancelled hout
  have hlinked := horderly.linked
  refine ⟨m, v', hreach, hm, hjoined.left (hjoined.rooted.refreshes hrefreshes hlinked)
    (hjoined.echoes.sustains_left (hrefreshes.sustains hlinked))
    (hjoined.rooted.preserves helapses hlinked) (allocations_le_of_edits hreach.edits), helapses,
    hactive, List.Subset.refl ρ, fun ab hab => .inl hab⟩

/-- Where the first world stands in a run that the second one has made: what it has recorded are slots
    of the same nodes, and what is left of the body does the same. The allocations of the run so far are
    numbered up to a bound in the second world. -/
structure Follows (p : Program) (use : Usages) (N F : Node → Prop) (births : Nat → Option SlotId)
    (X : List SlotId) (i' : SlotId) (yields : Prop) (τ : ValueType) (ρ : Renaming) (v w : World) (b' : Body)
    (deps' : List SlotId) (k : Nat) (a : Activation) (b : Body) (ρ' : Renaming) (v' : World) :
    Prop where
  joined : Joined p use N F ρ' births (i' :: X) v' w
  elapses : v.Elapses N v.active v'
  active : v'.active = v.active
  subset : ρ ⊆ ρ'
  pairs : ∀ ab ∈ ρ', ab ∈ ρ ∨ (births ab.2 = some i' ∧ ab.2 < k) ∨
    ∃ k', k' ∉ i' :: X ∧ births ab.2 = some k'
  deps : List.Forall₂ (Pairs N v' w) a.deps deps'
  relates : ρ'.Relates p use yields τ b b'

/-- A run of the second world is replayed in the first one up to some point. -/
def Replayed (p : Program) (use : Usages) (N F : Node → Prop) (births : Nat → Option SlotId)
    (X : List SlotId) (t : Token) (i' : SlotId) (n : Node) (τ : ValueType) (ρ : Renaming) (v w : World)
    (a₀ : Activation) (start : Body) (frames : List Frame) (b' : Body) (deps' : List SlotId) (k : Nat) :
    Prop :=
  ∃ a b ρ' v', Reaches p t ⟨.body a₀ start, frames⟩ v ⟨.body a b, frames⟩ v' ∧
    a.slot = a₀.slot ∧ a.revision = a₀.revision ∧
    Follows p use N F births X i' (p.MayPark n) τ ρ v w b' deps' k a b ρ' v'

section Replayed

variable {n : Node} {τ : ValueType} {a₀ : Activation} {start : Body} {deps' : List SlotId} {k : Nat}

theorem Replayed.checks {next : Except QueryError Unit → Body} (huncancelled : t ∉ v.cancelled)
    (h : Replayed p use N F births X t i' n τ ρ v w a₀ start frames (.perform .check next) deps' k) :
    Replayed p use N F births X t i' n τ ρ v w a₀ start frames (next (.ok ())) deps' k := by
  obtain ⟨a, b, ρ₁, v₁, hreach, hslot, hrev, hfollows⟩ := h
  have hunfolds := hfollows.relates.unfolds hfollows.joined.consistent
  cases hunfolds with
  | @check next₁ _ hnext =>
    have hstep : Evaluation.step p t ⟨.body a (.perform .check next₁), frames⟩ v₁ =
        .running ⟨.body a (next₁ (.ok ())), frames⟩ v₁ := by
      have hcheck : v₁.check t = .ok () :=
        check_of_not_mem (hfollows.elapses.cancelled ▸ huncancelled)
      simp only [Evaluation.step, stepBody, perform, hcheck]
    exact ⟨a, _, ρ₁, v₁, hreach.trans (.of_step hstep), hslot, hrev,
      { hfollows with relates := hnext _ }⟩

include htr in
theorem Replayed.allocates {next : Nat → Body} {b : Nat}
    (horderly : Evaluation.Orderly p v root ⟨.body a₀ start, frames⟩)
    (hunborn : ∀ ab ∈ ρ, births ab.2 ≠ some i') (later : k ≤ b) (born : births b = some i')
    (h : Replayed p use N F births X t i' n τ ρ v w a₀ start frames (.perform .allocate next) deps' k) :
    Replayed p use N F births X t i' n τ ρ v w a₀ start frames (next b) deps' (b + 1) := by
  obtain ⟨a, _, ρ₁, v₁, hreach, hslot, hrev, hfollows⟩ := h
  have hunfolds := hfollows.relates.unfolds hfollows.joined.consistent
  cases hunfolds with
  | @allocate next₁ _ hnext =>
    have horderly₁ := hreach.orderly htr horderly
    have hjoined₁ := hfollows.joined
    have hstep : Evaluation.step p t ⟨.body a (.perform .allocate next₁), frames⟩ v₁ =
        .running ⟨.body a (next₁ v₁.allocations), frames⟩ v₁.allocate.2 := rfl
    have hsub : ρ₁ ⊆ (v₁.allocations, b) :: ρ₁ := List.subset_cons_self _ _
    have hquiet := v₁.quiet_allocate
    have htidy := hquiet.tidy hjoined₁.rooted.tidy
    refine ⟨a, _, _, _, hreach.trans (.of_step hstep), hslot, hrev, ⟨?_, ?_, hfollows.active,
      List.Subset.trans hfollows.subset hsub, ?_, ?_, hnext _ _⟩⟩
    · refine hjoined₁.allocates horderly₁.linked (hjoined₁.explains.bound b i' born) ?_ ?_
      · -- no earlier allocation of the run has this number, and no other allocation is its own
        intro ab hab heq
        rcases hfollows.pairs ab hab with hold | ⟨-, hlt⟩ | ⟨k', hk', hborn⟩
        · exact hunborn ab hold (heq ▸ born)
        · omega
        · rw [heq, born] at hborn
          exact hk' (Option.some.inj hborn ▸ List.mem_cons_self)
      · rintro k' hk'
        rw [born] at hk'
        exact Option.some.inj hk' ▸ List.mem_cons_self
    · exact hfollows.elapses.trans horderly.linked
        (hquiet.grows.elapses hjoined₁.rooted.tidy htidy)
    · refine List.forall_mem_cons.2 ⟨.inr (.inl ⟨born, Nat.lt_succ_self b⟩), fun ab hab => ?_⟩
      refine (hfollows.pairs ab hab).imp_right (Or.imp_left fun hborn => ⟨hborn.1, ?_⟩)
      have hlt := hborn.2
      omega
    · exact hfollows.deps.imp fun _ _ hpair => hpair.mono hquiet.grows.node fun _ _ h => h

include hp htr hrealm in
theorem Replayed.calls {mode : CallMode} {label : Label} {key : Key}
    {next : Except QueryError Value → Body} {m₁ : Memo}
    (horderly : Evaluation.Orderly p v root ⟨.body a₀ start, frames⟩) (huncancelled : t ∉ v.cancelled)
    (hn : v.node? a₀.slot = some n) (hwaits : p.MayPark n → splitAtImmediate frames = none)
    (constant : F (p.node label key)) (found : w.node? j' = some (p.node label key))
    (memo : w.memo? j' = some m₁) (haside : Aside v w (i' :: X) j')
    (hcatches : CatchesUp p use N F births t w j')
    (h : Replayed p use N F births X t i' n τ ρ v w a₀ start frames (.call mode label key next) deps' k) :
    Replayed p use N F births X t i' n τ ρ v w a₀ start frames (next (.ok m₁.value))
      (recordOnce j' deps') k := by
  obtain ⟨a, b, ρ₁, v₁, hreach, hslot, hrev, hfollows⟩ := h
  have hunfolds := hfollows.relates.unfolds hfollows.joined.consistent
  cases hunfolds with
  | @call _ _ _ next₁ _ typed waits hnext =>
    have horderly₁ := hreach.orderly htr horderly
    have hjoined₁ := hfollows.joined
    have hrefers : p.Refers n (p.node label key) := by
      cases horderly₁.descends with
      | running minds _ =>
        obtain ⟨n₁, hn₁, hrefers⟩ := minds.mentions _ .call
        rw [hslot, hfollows.elapses.node _ n hn] at hn₁
        exact Option.some.inj hn₁ ▸ hrefers
    -- the call is entered
    obtain ⟨c, v₂, hcall, hfinds⟩ := stepCall_spec hp.toConsistent hjoined₁.rooted.tidy a mode typed
      next₁ frames
    have hstep : Evaluation.step p t ⟨.body a (.call mode label key next₁), frames⟩ v₁ =
        .running ⟨.fetch c, .calling ⟨a.reading c, mode, c, next₁⟩ :: frames⟩ v₂ := hcall
    have hreach₂ := hreach.trans (.of_step hstep)
    have hgrows := hfinds.toGrows
    have helapses₂ : v.Elapses N v.active v₂ := hfollows.elapses.trans horderly.linked
      (hgrows.elapses hjoined₁.rooted.tidy hfinds.tidy)
    have hactive₂ : v₂.active = v.active := hfinds.active.trans hfollows.active
    have hjoined₂ : Joined p use N F ρ₁ births (i' :: X) v₂ w :=
      hjoined₁.left (hjoined₁.rooted.grows hgrows horderly₁.linked hfinds.tidy)
        (hjoined₁.echoes.sustains_left hgrows.sustains) hgrows.preserves
        (allocations_le_of_edits (Reaches.edits (.of_step hstep)))
    have haside₂ : Aside v₂ w (i' :: X) j' := fun k' hk' => by
      refine ⟨(haside k' hk').1, fun j hj => ?_⟩
      obtain ⟨n₁, hn₁, hne⟩ := (haside k' hk').2 j (hactive₂ ▸ hj)
      exact ⟨n₁, helapses₂.node j n₁ hn₁, hne⟩
    -- what is called catches up
    obtain ⟨m₂, ρ₃, v₃, hreach₃, hm₂, hpursues⟩ := hcatches _ (i' :: X) ρ₁ v₂ root c _ constant
      hfinds.found found hjoined₂ (hreach₂.orderly htr horderly) (helapses₂.cancelled ▸ huncancelled)
      haside₂ fun hparks => splitAtImmediate_calling (waits hparks) (hwaits (hparks.of_refers hrefers))
    have helapses₃ : v.Elapses N v.active v₃ :=
      helapses₂.trans horderly.linked (hactive₂ ▸ hpursues.elapses)
    have hreturn : Evaluation.step p t
        ⟨.answer (.ok m₂.toStamped), .calling ⟨a.reading c, mode, c, next₁⟩ :: frames⟩ v₃ =
        .running ⟨.body (a.reading c) (next₁ (.ok m₂.value)), frames⟩ v₃ := by
      have hcheck : v₃.check t = .ok () := check_of_not_mem (helapses₃.cancelled ▸ huncancelled)
      simp only [Evaluation.step, stepAnswer, hcheck]
      rfl
    have hc := hpursues.elapses.node c _ hfinds.found
    have hpair : Pairs N v₃ w c j' := ⟨_, hrealm.within _ constant, hc, found⟩
    have hvalue : ρ₃.Renames (p label).valueType m₂.value m₁.value := by
      obtain ⟨o', ho', hecho⟩ := hpursues.joined.echoes.memo_at hpursues.joined.rooted'.tidy
        (hrealm.within _ constant) hc found hm₂
      obtain rfl := Option.some.inj (memo.symm.trans ho')
      exact hp.valueType label ▸ hecho.value
    have hnext₃ := (hfollows.relates.mono hpursues.subset).unfolds hpursues.joined.consistent
    cases hnext₃ with
    | call _ _ hnext₃ =>
      refine ⟨a.reading c, _, ρ₃, v₃, hreach₂.trans (hreach₃.trans (.of_step hreturn)), hslot, hrev,
        hpursues.joined, helapses₃, hpursues.active.trans hactive₂,
        List.Subset.trans hfollows.subset hpursues.subset, fun ab hab => ?_, ?_,
        hnext₃ _ _ (.ok hvalue)⟩
      · rcases hpursues.pairs ab hab with hold | hother
        · exact hfollows.pairs ab hold
        · exact .inr (.inr hother)
      · refine forall₂_recordOnce hpursues.joined.rooted.tidy hpursues.joined.rooted'.tidy ?_ hpair
        refine hfollows.deps.imp fun _ _ hpair => ?_
        exact hpair.mono (fun j n hj => hpursues.elapses.node j n (hgrows.node j n hj)) fun _ _ h => h

/-- If the run may yield, nobody among the frames insists on an answer. -/
theorem Replayed.yields {next : Body} (hwaits : p.MayPark n → splitAtImmediate frames = none)
    (h : Replayed p use N F births X t i' n τ ρ v w a₀ start frames (.yield next) deps' k) :
    Replayed p use N F births X t i' n τ ρ v w a₀ start frames next deps' k := by
  obtain ⟨a, b, ρ₁, v₁, hreach, hslot, hrev, hfollows⟩ := h
  have hunfolds := hfollows.relates.unfolds hfollows.joined.consistent
  cases hunfolds with
  | @yield next₁ _ allowed hnext =>
    have hstep : Evaluation.step p t ⟨.body a (.yield next₁), frames⟩ v₁ =
        .parked ⟨.body a next₁, frames⟩ v₁ := by
      simp only [Evaluation.step, stepBody, stepYield, hwaits allowed]
    exact ⟨a, next₁, ρ₁, v₁, hreach.trans (.of_parked hstep), hslot, hrev,
      { hfollows with relates := hnext }⟩

include hp htr hrealm in
/-- A run is replayed in the first world. -/
theorem Replays.catchesUp {b' : Body} (hrun : w.Replays p F births i' start b' deps' k)
    (hm' : w.memo? i' = some m') (hdeps : ∀ j' ∈ deps', j' ∈ m'.deps)
    (hcatches : ∀ j' ∈ m'.deps, w.kind? j' ≠ some .input → CatchesUp p use N F births t w j')
    (hjoined : Joined p use N F ρ births (i' :: X) v w) (hunborn : ∀ ab ∈ ρ, births ab.2 ≠ some i')
    {r : Revision} (horderly : Evaluation.Orderly p v root ⟨.body ⟨i, r, []⟩ start, frames⟩)
    (huncancelled : t ∉ v.cancelled)
    (haside : ∀ j', w.Records i' j' → Aside v w (i' :: X) j') (hi : v.node? i = some n)
    (hwaits : p.MayPark n → splitAtImmediate frames = none)
    (hrelates : ρ.Relates p use (p.MayPark n) τ start start) :
    Replayed p use N F births X t i' n τ ρ v w ⟨i, r, []⟩ start frames b' deps' k := by
  induction hrun with
  | starts =>
    exact ⟨⟨i, r, []⟩, start, ρ, v, .refl _ _, rfl, rfl, hjoined, .refl v, rfl, List.Subset.refl ρ,
      fun ab hab => .inl hab, .nil, hrelates⟩
  | checks run ih => exact (ih hdeps).checks huncancelled
  | allocates run later born ih => exact (ih hdeps).allocates htr horderly hunborn later born
  | @calls _ _ _ _ _ _ j' m₁ run constant found memo ih =>
    have hj' : j' ∈ m'.deps := hdeps j' (mem_recordOnce.2 (.inr rfl))
    have hderived : w.kind? j' ≠ some .input := fun hinput => by
      cases (System.memo?_of_input hinput).symm.trans memo
    exact (ih fun k' hk' => hdeps k' (mem_recordOnce.2 (.inl hk'))).calls hp htr hrealm horderly
      huncancelled hi hwaits constant found memo (haside j' ⟨m', hm', hj'⟩) (hcatches j' hj' hderived)
  | yields run ih => exact (ih hdeps).yields hwaits

end Replayed

/-- When a slot is in progress, what it depends on in the second world is still aside. -/
theorem Aside.records {n : Node} (h : Aside v w X i') (hw : Tidy p use w.toSystem) (hfirm : w.Firm i')
    (hi : v'.node? i = some n) (hi' : w.node? i' = some n)
    (hnode : ∀ j n, v.node? j = some n → v'.node? j = some n) (hactive : v'.active = v.active ++ [i])
    (hrecords : w.Records i' j') : Aside v' w (i' :: X) j' := by
  intro k' hk'
  obtain ⟨hX, haside⟩ := h k' (hk'.head hrecords)
  have hne : k' ≠ i' := fun heq => hfirm.not_comes_back hrecords (heq ▸ hk')
  refine ⟨fun hmem => (List.mem_cons.1 hmem).elim hne hX, fun j hj => ?_⟩
  rw [hactive] at hj
  rcases List.mem_append.1 hj with hj | hj
  · obtain ⟨n₁, hn₁, hne'⟩ := haside j hj
    exact ⟨n₁, hnode j n₁ hn₁, hne'⟩
  · rw [List.mem_singleton.1 hj]
    exact ⟨n, hi, fun hn => hne (hw.distinct k' i' _ hn hi')⟩

include hp htr hrealm in
/-- A run that is replayed to its end ends with the value that the second world keeps, and the first one
    keeps it, too. -/
theorem Follows.keeps {label : Label} {key : Key} {a : Activation} {b : Body} {k : Nat} {yields : Prop}
    {busy : List SlotId} (hF : F (p.node label key))
    (h : Follows p use N F births X i' yields (p label).valueType ρ v w (.done (.ok m'.value)) m'.deps k a b
      ρ' v')
    (horderly : Evaluation.Orderly p v' root ⟨.body a b, frames⟩) (huncancelled : t ∉ v'.cancelled)
    (hi : v'.node? a.slot = some (p.node label key)) (hi' : w.node? i' = some (p.node label key))
    (hnone : v'.memo? a.slot = none) (hfirm : w.Firm i') (hm' : w.memo? i' = some m')
    (hbusy : a.slot ∉ busy) :
    ∃ m v₁, Reaches p t ⟨.body a b, frames⟩ v' ⟨.answer (.ok m.toStamped), frames⟩ v₁ ∧
      v₁.memo? a.slot = some m ∧ Joined p use N F ρ' births X v₁ w ∧
      v₁.active = dropInnermost v'.active a.slot ∧ v'.Elapses N busy v₁ := by
  have hjoined := h.joined
  have hderived : v'.kind? a.slot = some .derived := by
    rw [hjoined.rooted.tidy.kind? hi, hrealm.derived _ hF]
  have hunfolds := h.relates.unfolds hjoined.consistent
  cases hunfolds with
  | @done r _ hagree =>
    obtain ⟨x, rfl, hx⟩ := hagree.of_ok_right
    obtain ⟨m, v₁, hreach, rfl, hdeps, hverified, -, hrenews, hactive, hrooted, -, helapses⟩ :=
      reaches_kept hp.toConsistent hjoined.rooted htr horderly huncancelled hi (hrealm.within _ hF)
        (behind_of_none hnone) hbusy (N := N)
    have horderly₁ := hreach.orderly htr horderly
    have hechoes : Echoes use N F ρ' v₁ w := by
      refine hjoined.echoes.lands hrooted.tidy hjoined.rooted'.tidy (hrealm.within _ hF) hi hi'
        hrenews.toExtends (.refl w) hrenews.memo_self hrenews.memo_other hm' (fun _ _ => rfl)
        ⟨hp.valueType label ▸ hx, ?_⟩ ?_
      · -- neither of the two memos has recorded what has changed since
        rw [hdeps]
        refine forall₂_unchanged (h.deps.imp fun _ _ hpair => hpair.mono helapses.node fun _ _ h => h)
          (fun j _ => ?_) fun j' hj' => (hfirm.of_memo hm' hj').1
        have hnow := horderly₁.timely.changedAt_le j
        rwa [helapses.revision, ← hverified] at hnow
      · -- nobody has recorded a slot that holds nothing
        intro k k' o o' ho hmem'
        rcases horderly.linked.lasts k o ho _ hmem' with hinput | ⟨o₁, ho₁, -⟩
        · cases hinput.symm.trans hderived
        · cases hnone.symm.trans ho₁
    have hleft := hjoined.left hrooted hechoes (hjoined.rooted.preserves helapses horderly.linked)
      (allocations_le_of_edits hreach.edits)
    refine ⟨m, v₁, hreach, hrenews.memo_self, { hleft with fresh := ?_ }, hactive, helapses⟩
    -- the allocations of the run have counterparts now, and the value is kept
    intro ab hab j' hborn hX n o' hn hj' ho'
    by_cases hj : j' = i'
    · subst hj
      obtain rfl := Option.some.inj (hi'.symm.trans hj')
      exact ⟨a.slot, m, hrenews.node _ _ hi, hrenews.memo_self⟩
    · exact hleft.fresh ab hab j' hborn (fun hmem => (List.mem_cons.1 hmem).elim hj hX) n o' hn hj' ho'

include hp htr hrealm in
/-- A value that the first world does not keep is computed there, too, and kept. -/
theorem pursues_of_none {n : Node} (hF : F n) (hi : v.node? i = some n) (hi' : w.node? i' = some n)
    (hjoined : Joined p use N F ρ births X v w)
    (horderly : Evaluation.Orderly p v root ⟨.fetch i, frames⟩) (huncancelled : t ∉ v.cancelled)
    (haside : Aside v w X i') (hwaits : p.MayPark n → splitAtImmediate frames = none)
    (hnone : v.memo? i = none) (hfirm : w.Firm i') (hm' : w.memo? i' = some m')
    (hcatches : ∀ j' ∈ m'.deps, w.kind? j' ≠ some .input → CatchesUp p use N F births t w j') :
    ∃ m ρ' v', Reaches p t ⟨.fetch i, frames⟩ v ⟨.answer (.ok m.toStamped), frames⟩ v' ∧
      v'.memo? i = some m ∧ Pursues p use N F births X ρ v w ρ' v' := by
  have htidy := hjoined.rooted.tidy
  obtain ⟨hX, hasideSelf⟩ := haside i' .refl
  have houtside : i ∉ v.active := fun hactive => by
    obtain ⟨n₁, hn₁, hne⟩ := hasideSelf i hactive
    exact hne (Option.some.inj (hi.symm.trans hn₁) ▸ hi')
  have hkind : v.kind? i = some .derived := by rw [htidy.kind? hi, hrealm.derived n hF]
  obtain ⟨label, key, hnode⟩ := htidy.node?_of_derived hkind
  obtain rfl := Option.some.inj (hi.symm.trans hnode)
  -- the run starts
  obtain ⟨v₂, hstart, hquiet, hactive⟩ :=
    reaches_body hp.toConsistent htidy horderly.memoize huncancelled hi hnone houtside frames
  have hgrows := hquiet.grows
  have horderly₂ := hstart.orderly htr horderly
  have hi₂ := hgrows.node _ _ hi
  have hjoined₂ : Joined p use N F ρ births X v₂ w :=
    hjoined.left (hjoined.rooted.grows hgrows horderly.linked (hquiet.tidy htidy))
      (hjoined.echoes.sustains_left hgrows.sustains) hgrows.preserves
      (allocations_le_of_edits hstart.edits)
  have hjoined₂' : Joined p use N F ρ births (i' :: X) v₂ w :=
    { hjoined₂ with fresh := fun ab hab j' hborn hX' =>
        hjoined₂.fresh ab hab j' hborn fun hmem => hX' (List.mem_cons_of_mem _ hmem) }
  have hunborn : ∀ ab ∈ ρ, births ab.2 ≠ some i' := fun ab hab hborn => by
    obtain ⟨j, o, hj, ho⟩ := hjoined.fresh ab hab i' hborn hX _ m' hF hi' hm'
    obtain rfl := htidy.distinct j i _ hj hi
    cases hnone.symm.trans ho
  -- it is replayed
  obtain ⟨k, hreplays⟩ := hjoined.explains.replays i' label key m' hF hi' hm'
  obtain ⟨a, b, ρ₃, v₃, hreach₃, rfl, hrevision, hfollows⟩ := hreplays.catchesUp hp htr hrealm hm'
    (fun _ h => h) hcatches hjoined₂' hunborn horderly₂ (hgrows.cancelled ▸ huncancelled)
    (fun j' => haside.records hjoined.rooted'.tidy hfirm hi₂ hi' hgrows.node hactive) hi₂ hwaits
    fun π _ => hp.body π label key (htidy.keyType hi)
  have hmem : a.slot ∈ v₂.active := hactive ▸ List.mem_append_right _ List.mem_cons_self
  have hnone₃ : v₃.memo? a.slot = none :=
    (hfollows.elapses.spared _ hmem).trans ((hgrows.memo _).trans hnone)
  have hcancelled₃ : v₃.cancelled = v.cancelled := hfollows.elapses.cancelled.trans hgrows.cancelled
  -- it ends, and its value is kept
  obtain ⟨m, v₄, hreach₄, hm, hjoined₄, hactive₄, helapses₄⟩ := hfollows.keeps hp htr hrealm hF
    (hreach₃.orderly htr horderly₂) (hcancelled₃ ▸ huncancelled) (hfollows.elapses.node _ _ hi₂) hi' hnone₃
    hfirm hm' houtside
  refine ⟨m, ρ₃, v₄, hstart.trans (hreach₃.trans hreach₄), hm, hjoined₄, ?_, ?_, hfollows.subset, ?_⟩
  · have hgrown : v.Elapses N v.active v₂ := hgrows.elapses htidy hjoined₂.rooted.tidy
    have hspared : v.active ⊆ v₂.active := hactive ▸ List.subset_append_left _ _
    exact hgrown.trans horderly.linked ((hfollows.elapses.mono hspared).trans horderly₂.linked helapses₄)
  · rw [hactive₄, hfollows.active, hactive, dropInnermost_concat]
  · intro ab hab
    refine (hfollows.pairs ab hab).imp_right ?_
    rintro (⟨hborn, -⟩ | ⟨k', hk', hborn⟩)
    · exact ⟨i', hX, hborn⟩
    · exact ⟨k', fun hmem' => hk' (List.mem_cons_of_mem _ hmem'), hborn⟩

include hp htr hrealm in
/-- What the second world keeps for a node in `F`, the first one comes to keep when it is asked for it. -/
theorem Firm.catchesUp (hfirm : w.Firm i') : CatchesUp p use N F births t w i' := by
  induction hfirm with
  | @intro i' m' memo unchanged deps ih =>
    intro n X ρ v root i frames hF hi hi' hjoined horderly huncancelled haside hwaits
    cases hm : v.memo? i with
    | some m =>
      have hkept := hjoined.rooted.firm i n m hi hm (.inr hF)
      obtain ⟨m₁, v', hreach, hm₁, hpursues⟩ := pursues_of_firm hp hrealm (hrealm.within n hF) hi hi'
        hjoined horderly huncancelled haside hkept
      exact ⟨m₁, ρ, v', hreach, hm₁, hpursues⟩
    | none =>
      exact pursues_of_none hp htr hrealm hF hi hi' hjoined horderly huncancelled haside
        hwaits hm
        (.intro memo unchanged deps) memo ih

end CatchingUp

end World

end RedGreen
