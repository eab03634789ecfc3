import RedGreen.Proofs.Lockstep

set_option autoImplicit false

/-! # Keeping pace to the end

Bodies that are abreast do the same under other numbers: they read inputs that hold the same, make
allocations that become counterparts of each other, and call slots of one node. When they end with
values, these are kept, and the equality for early cutoff tells the same of them in both worlds. So an
evaluation in the second of two joined worlds keeps pace with one in the first world (`Beside.strides`),
and when the first one ends, it has been answered alike (`Beside.finishes`). -/

namespace RedGreen

open Evaluation Relation

variable {p : Program} {use : Usages} {N F : Node → Prop} {ρ ρ' : Renaming} {t t' : Token}
  {births births' : Nat → Option SlotId} {v v' v₁ w w' w₁ : World} {i i' j j' : SlotId}
  {m m' : Memo} {frames frames' : List Frame} {root root' : SlotId} {e e' e₁ e₁' : Evaluation}

namespace World

/-- Both worlds make an allocation, and the two become counterparts of each other. -/
theorem Joined.allocate (h : Joined p use N F ρ births [] v w) (hlinked : v.Linked)
    (hlinked' : w.Linked) (hbehind : w.Behind i') :
    Joined p use N F ((v.allocations, w.allocations) :: ρ)
      (Function.update births w.allocations (some i')) [] v.allocate.2 w.allocate.2 := by
  have hv := v.quiet_allocate
  have hw := w.quiet_allocate
  have hbirths (n : Nat) (hn : n < w.allocations) :
      Function.update births w.allocations (some i') n = births n :=
    Function.update_of_ne (Nat.ne_of_lt hn) ..
  refine ⟨h.rooted.grows hv.grows hlinked (hv.tidy h.rooted.tidy),
    h.rooted'.grows hw.grows hlinked' (hw.tidy h.rooted'.tidy),
    ((h.echoes.sustains_left hv.grows.sustains).sustains_right hw.grows.sustains).mono
      (List.subset_cons_self _ _),
    h.consistent.cons (fun ab hab => Nat.ne_of_lt (h.bounded ab hab).1)
      fun ab hab => Nat.ne_of_lt (h.bounded ab hab).2,
    List.forall_mem_cons.2 ⟨⟨Nat.lt_succ_self _, Nat.lt_succ_self _⟩, fun ab hab =>
      ⟨Nat.lt_succ_of_lt (h.bounded ab hab).1, Nat.lt_succ_of_lt (h.bounded ab hab).2⟩⟩, ?_,
    List.forall_mem_cons.2 ⟨fun k' hborn _ n m' hF hk' hm' => ?_, fun ab hab k' hborn => ?_⟩⟩
  · refine h.explains.mono hw.grows.preserves (fun n i hn => ?_) (fun n i hn => ?_)
      fun i _ _ m' _ _ hm' => .inl ⟨m', (hw.grows.memo i).symm.trans hm'⟩
    · rw [hbirths n (h.explains.bound n i hn), hn]
    · by_cases hlast : n = w.allocations
      · exact hlast ▸ Nat.lt_succ_self _
      · rw [Function.update_of_ne hlast] at hn
        exact Nat.lt_succ_of_lt (h.explains.bound n i hn)
  · -- the slot is behind, so nothing is kept for a node in `F`
    obtain rfl : i' = k' := by simpa using hborn
    exact absurd (h.rooted'.firm i' n m' hk' ((hw.grows.memo i').symm.trans hm') (.inr hF))
      hbehind.not_firm
  · rw [hbirths ab.2 (h.bounded ab hab).2] at hborn
    exact h.fresh ab hab k' hborn

/-- Whatever has recorded a slot that is behind is not valid now, and the slot holds a memo. -/
theorem Rooted.stale_of_behind (h : w.Rooted p use F) (hlinked : w.Linked) (hbehind : w.Behind i)
    (hkind : w.kind? i = some .derived) (hm : w.memo? j = some m) (hi : i ∈ m.deps) :
    m.verifiedAt < w.revision ∧ ∃ o, w.memo? i = some o := by
  have hderived : w.kind? i ≠ some .input := by simp [hkind]
  refine ⟨Nat.lt_of_le_of_ne (hlinked.bound j m hm) fun hnow => ?_, ?_⟩
  · obtain ⟨n, hn⟩ := exists_node_of_memo hm
    exact hbehind.not_firm (((h.firm j n m hn hm (.inl hnow)).of_memo hm hi).2 hderived)
  · rcases hlinked.lasts j m hm i hi with hinput | ⟨o, ho, -⟩
    · exact absurd hinput hderived
    · exact ⟨o, ho⟩

/-- A slot that is in progress ends by an error in both worlds. -/
theorem Beside.fails (htr : ∀ label key, Transparent ((p label).body key))
    (h : Beside p use N F t t' root root' ρ births v w e e') (pair : Pairs N v w i i')
    (awaits : BothAwait p use N F ρ births v w i frames i' frames') {error : QueryError}
    (hstep : e.step p t v = resume frames (v.fail i error))
    (hstep' : e'.step p t' w = resume frames' (w.fail i' error)) :
    KeepsPace p use N F t t' root root' ρ births v w e e' := by
  have ht := h.joined.rooted.tidy
  have ht' := h.joined.rooted'.tidy
  obtain ⟨v₁, hfail, quiet, active⟩ := v.fail_spec i error
  obtain ⟨w₁, hfail', quiet', active'⟩ := w.fail_spec i' error
  rw [hfail] at hstep
  rw [hfail'] at hstep'
  refine h.grows htr (.of_step hstep) (.of_step hstep') quiet.grows quiet'.grows (quiet.tidy ht)
    (quiet'.tidy ht') (.failed (awaits.grow quiet.grows quiet'.grows h.left.linked ht ht' (quiet.tidy ht)
      (quiet'.tidy ht'))) ?_
  rw [active, active']
  exact pairs_grow quiet.grows quiet'.grows (forall₂_dropInnermost ht ht' h.active pair)

section Bodies

variable (hp : p.Anonymous use) (htr : ∀ label key, Transparent ((p label).body key))
  (hrealm : p.Realm use N F)

include hp htr in
/-- A body starts in both worlds. -/
theorem Beside.strides_computing {r r' : Revision} {label : Label} {key : Key}
    (h : Beside p use N F t t' root root' ρ births v w ⟨.compute i r, frames⟩ ⟨.compute i' r', frames'⟩)
    (runs : BothRun p N v w label key ⟨i, r, []⟩ ⟨i', r', []⟩)
    (awaits : BothAwait p use N F ρ births v w i frames i' frames') :
    KeepsPace p use N F t t' root root' ρ births v w ⟨.compute i r, frames⟩
      ⟨.compute i' r', frames'⟩ := by
  have ht := h.joined.rooted.tidy
  have ht' := h.joined.rooted'.tidy
  have hspec := compute_spec hp.toConsistent ht t runs.node r
  have hspec' := compute_spec hp.toConsistent ht' t' runs.node' r'
  have hstep : Evaluation.step p t ⟨.compute i r, frames⟩ v = resume frames (v.compute p t i r) := rfl
  have hstep' : Evaluation.step p t' ⟨.compute i' r', frames'⟩ w =
      resume frames' (w.compute p t' i' r') := rfl
  generalize v.compute p t i r = out at hspec hstep
  generalize w.compute p t' i' r' = out' at hspec' hstep'
  cases hspec with
  | cancelled cancelled => exact absurd cancelled h.uncancelled
  | run quiet active =>
    cases hspec' with
    | cancelled cancelled => exact absurd cancelled h.uncancelled'
    | run quiet' active' =>
      have hv := quiet.grows
      have hw := quiet'.grows
      have htidy := quiet.tidy ht
      have htidy' := quiet'.tidy ht'
      refine h.grows htr (.of_step hstep) (.of_step hstep') hv hw htidy htidy'
        (.running (runs.grow hv hw ht ht' htidy htidy') (fun π _ => hp.body π label key
          (ht.keyType runs.node)) (fun _ => .inl ⟨0, .starts⟩)
          (awaits.grow hv hw h.left.linked ht ht' htidy htidy')) ?_
      rw [active, active']
      exact pairs_grow hv hw h.active

/-- What a body reads is what the input holds. -/
theorem read_written (ht : Tidy p use w.toSystem) (huncancelled : t ∉ w.cancelled) (a : Activation)
    {query : QueryId} {valueType : ValueType} {key : Key}
    (typed : use query = ⟨.input, key.type, valueType⟩) :
    ∃ i w', w.read t a query valueType key = (match w'.written? i with
        | none => .error (unset query key)
        | some x => .ok x.value, a.reading i, w') ∧
      w.Finds p use ⟨query, key⟩ i w' := by
  obtain ⟨i, w₁, hslot, hfinds⟩ := inputSlot_spec ht typed
  obtain ⟨w₂, hrecord, hquiet, hactive⟩ := w₁.record_spec a i
  refine ⟨i, w₂, ?_, hfinds.toGrows.trans hquiet.grows, hquiet.tidy hfinds.tidy,
    hquiet.grows.node i _ hfinds.found, hactive.trans hfinds.active,
    hquiet.entryLocked.trans hfinds.entryLocked⟩
  have hcheck : w₂.check t = .ok () := by
    refine check_of_not_mem ?_
    rwa [hquiet.cancelled, hfinds.cancelled]
  simp only [read, hslot, hrecord]
  cases w₂.written? i with
  | none => rfl
  | some x =>
    simp only [hcheck]
    rfl

include hrealm in
/-- What a body mentions lies among the nodes. -/
theorem mentioned {a : Activation} {b : Body} {label : Label} {key : Key} {n : Node}
    (horderly : Evaluation.Orderly p w root ⟨.body a b, frames⟩)
    (hi : w.node? a.slot = some (p.node label key)) (hmentions : Mentions p b n) :
    (N (p.node label key) → N n) ∧ (F (p.node label key) → F n) := by
  cases horderly.descends with
  | running minds awaits =>
    obtain ⟨n₁, hn₁, hrefers⟩ := minds.mentions n hmentions
    obtain rfl := Option.some.inj (hn₁.symm.trans hi)
    exact ⟨fun hN => hrealm.closed _ _ hN hrefers, fun hF => hrealm.constant _ _ hF hrefers⟩

/-- Both bodies take a step after which slots may be new, and nothing else. -/
theorem Beside.strides_body {a a' a₁ a₁' : Activation} {b b' b₁ b₁' : Body} {label : Label} {key : Key}
    (htr : ∀ label key, Transparent ((p label).body key))
    (h : Beside p use N F t t' root root' ρ births v w ⟨.body a b, frames⟩ ⟨.body a' b', frames'⟩)
    (runs : BothRun p N v w label key a a')
    (awaits : BothAwait p use N F ρ births v w a.slot frames a'.slot frames')
    (hstep : Evaluation.step p t ⟨.body a b, frames⟩ v = .running ⟨.body a₁ b₁, frames⟩ v₁)
    (hstep' : Evaluation.step p t' ⟨.body a' b', frames'⟩ w = .running ⟨.body a₁' b₁', frames'⟩ w₁)
    (hv : v.Grows v₁) (hw : w.Grows w₁) (htidy : Tidy p use v₁.toSystem)
    (htidy' : Tidy p use w₁.toSystem) (hactive : v₁.active = v.active) (hactive' : w₁.active = w.active)
    (hslot : a₁.slot = a.slot) (hslot' : a₁'.slot = a'.slot) (hrevision : a₁.revision = a.revision)
    (hrevision' : a₁'.revision = a'.revision)
    (hdeps : List.Forall₂ (Pairs N v₁ w₁) a₁.deps a₁'.deps)
    (relates : ρ.Relates p use (p.MayPark (p.node label key)) (p label).valueType b₁ b₁')
    (backs : w₁.Backs p F births label key a'.slot b₁' a₁'.deps) :
    KeepsPace p use N F t t' root root' ρ births v w ⟨.body a b, frames⟩ ⟨.body a' b', frames'⟩ := by
  have ht := h.joined.rooted.tidy
  have ht' := h.joined.rooted'.tidy
  have hgrown := runs.grow hv hw ht ht' htidy htidy'
  have hruns : BothRun p N v₁ w₁ label key a₁ a₁' :=
    ⟨hgrown.inside, hslot ▸ hgrown.node, hslot' ▸ hgrown.node', hrevision.trans hgrown.revision,
      hrevision'.trans hgrown.revision', hslot ▸ hgrown.behind, hslot' ▸ hgrown.behind', hdeps⟩
  refine h.grows htr (.of_step hstep) (.of_step hstep') hv hw htidy htidy'
    (.running hruns relates (hslot' ▸ backs) ?_) ?_
  · rw [hslot, hslot']
    exact awaits.grow hv hw h.left.linked ht ht' htidy htidy'
  · rw [hactive, hactive']
    exact pairs_grow hv hw h.active

section Operations

variable {a a' : Activation} {label : Label} {key : Key}
  (runs : BothRun p N v w label key a a')
  (awaits : BothAwait p use N F ρ births v w a.slot frames a'.slot frames')
include runs awaits htr

/-- An input is read in both worlds. -/
theorem Beside.strides_read {query : QueryId} {valueType : ValueType} {argument : Key}
    {next next' : Except QueryError Value → Body}
    (h : Beside p use N F t t' root root' ρ births v w
      ⟨.body a (.perform (.read query valueType argument) next), frames⟩
      ⟨.body a' (.perform (.read query valueType argument) next'), frames'⟩)
    (hrealm : p.Realm use N F) (typed : use query = ⟨.input, argument.type, valueType⟩)
    (hnext : ∀ r r', Agree (ρ.Renames valueType) r r' →
      ρ.Relates p use (p.MayPark (p.node label key)) (p label).valueType (next r) (next' r')) :
    KeepsPace p use N F t t' root root' ρ births v w
      ⟨.body a (.perform (.read query valueType argument) next), frames⟩
      ⟨.body a' (.perform (.read query valueType argument) next'), frames'⟩ := by
  have ht := h.joined.rooted.tidy
  have ht' := h.joined.rooted'.tidy
  obtain ⟨i, v₁, hread, hfinds⟩ := read_written ht h.uncancelled a typed
  obtain ⟨i', w₁, hread', hfinds'⟩ := read_written ht' h.uncancelled' a' typed
  have hv := hfinds.toGrows
  have hw := hfinds'.toGrows
  have hn : N ⟨query, argument⟩ := (mentioned hrealm h.left runs.node .read).1 runs.inside
  have hechoes : Echoes use N F ρ v₁ w₁ :=
    (h.joined.echoes.sustains_left hv.sustains).sustains_right hw.sustains
  have hwritten := hechoes.written_at hfinds.tidy hfinds'.tidy hn hfinds.found hfinds'.found
  have hstep : Evaluation.step p t ⟨.body a (.perform (.read query valueType argument) next), frames⟩ v =
      .running ⟨.body (v.read t a query valueType argument).2.1
        (next (v.read t a query valueType argument).1), frames⟩
        (v.read t a query valueType argument).2.2 := rfl
  have hstep' : Evaluation.step p t'
      ⟨.body a' (.perform (.read query valueType argument) next'), frames'⟩ w =
      .running ⟨.body (w.read t' a' query valueType argument).2.1
        (next' (w.read t' a' query valueType argument).1), frames'⟩
        (w.read t' a' query valueType argument).2.2 := rfl
  rw [hread] at hstep
  rw [hread'] at hstep'
  refine h.strides_body htr runs awaits hstep hstep' hv hw hfinds.tidy hfinds'.tidy hfinds.active
    hfinds'.active rfl rfl rfl rfl ?_ (hnext _ _ ?_) fun hF => ?_
  · exact forall₂_recordOnce hfinds.tidy hfinds'.tidy (pairs_grow hv hw runs.deps)
      ⟨_, hn, hfinds.found, hfinds'.found⟩
  · generalize v₁.written? i = x at hwritten
    generalize w₁.written? i' = x' at hwritten
    cases hwritten with
    | none => exact .error _
    | some hvalue => exact .ok (by simpa [typed] using hvalue)
  · -- a constant reads no input
    have hderived := hrealm.derived _ ((mentioned hrealm h.left runs.node .read).2 hF)
    rw [typed] at hderived
    cases hderived

/-- No token is cancelled in either world. -/
theorem Beside.strides_check {next next' : Except QueryError Unit → Body}
    (h : Beside p use N F t t' root root' ρ births v w ⟨.body a (.perform .check next), frames⟩
      ⟨.body a' (.perform .check next'), frames'⟩)
    (hnext : ∀ r, ρ.Relates p use (p.MayPark (p.node label key)) (p label).valueType (next r) (next' r))
    (backs : w.Backs p F births label key a'.slot (.perform .check next') a'.deps) :
    KeepsPace p use N F t t' root root' ρ births v w ⟨.body a (.perform .check next), frames⟩
      ⟨.body a' (.perform .check next'), frames'⟩ := by
  have hstep : Evaluation.step p t ⟨.body a (.perform .check next), frames⟩ v =
      .running ⟨.body a (next (.ok ())), frames⟩ v := by
    simp only [Evaluation.step, stepBody, perform, check_of_not_mem h.uncancelled]
  have hstep' : Evaluation.step p t' ⟨.body a' (.perform .check next'), frames'⟩ w =
      .running ⟨.body a' (next' (.ok ())), frames'⟩ w := by
    simp only [Evaluation.step, stepBody, perform, check_of_not_mem h.uncancelled']
  refine h.strides_body htr runs awaits hstep hstep' (.refl v) (.refl w) h.joined.rooted.tidy
    h.joined.rooted'.tidy rfl rfl rfl rfl rfl rfl runs.deps (hnext _) fun hF => ?_
  rcases backs hF with ⟨k, hrun⟩ | hfails
  · exact .inl ⟨k, hrun.checks⟩
  · cases hfails with
    | perform hnext' => exact .inr (hnext' _)

/-- Both bodies make an allocation. -/
theorem Beside.strides_allocate {next next' : Nat → Body}
    (h : Beside p use N F t t' root root' ρ births v w ⟨.body a (.perform .allocate next), frames⟩
      ⟨.body a' (.perform .allocate next'), frames'⟩)
    (hnext : ∀ m n, Renaming.Relates p use ((m, n) :: ρ) (p.MayPark (p.node label key))
      (p label).valueType (next m) (next' n))
    (backs : w.Backs p F births label key a'.slot (.perform .allocate next') a'.deps) :
    KeepsPace p use N F t t' root root' ρ births v w ⟨.body a (.perform .allocate next), frames⟩
      ⟨.body a' (.perform .allocate next'), frames'⟩ := by
  have ht := h.joined.rooted.tidy
  have ht' := h.joined.rooted'.tidy
  have hv := v.quiet_allocate
  have hw := w.quiet_allocate
  have htidy := hv.tidy ht
  have htidy' := hw.tidy ht'
  have helapses {busy : List SlotId} : v.Elapses N busy v.allocate.2 := hv.grows.elapses ht htidy
  have helapses' {busy : List SlotId} : w.Elapses N busy w.allocate.2 := hw.grows.elapses ht' htidy'
  have hbirths (n : Nat) (hn : n < w.allocations) :
      Function.update births w.allocations (some a'.slot) n = births n :=
    Function.update_of_ne (Nat.ne_of_lt hn) ..
  have hborn (n : Nat) (i : SlotId) (hn : births n = some i) :
      Function.update births w.allocations (some a'.slot) n = some i :=
    (hbirths n (h.joined.explains.bound n i hn)).trans hn
  refine h.keepsPace htr (.of_step rfl) (.of_step rfl) helapses helapses'
    (h.joined.allocate h.left.linked h.right.linked runs.behind')
    (.running (runs.grow hv.grows hw.grows ht ht' htidy htidy') (hnext _ _) (fun hF => ?_)
      (awaits.mono helapses helapses' h.left.linked (List.Subset.refl _) (List.Subset.refl _)
        (List.subset_cons_self _ _) hw.grows.preserves hborn))
    (pairs_grow hv.grows hw.grows h.active) (List.subset_cons_self _ _) hbirths
  rcases backs hF with ⟨k, hrun⟩ | hfails
  · have hlater := hrun.bound_le h.joined.explains
    exact .inl ⟨_, .allocates (hrun.mono hw.grows.preserves fun n => hborn n _) hlater
      (Function.update_self ..)⟩
  · cases hfails with
    | perform hnext' => exact .inr (hnext' _)

include hp in
/-- Both bodies call a query. -/
theorem Beside.strides_call {mode : CallMode} {label' : Label} {key' : Key}
    {next next' : Except QueryError Value → Body}
    (h : Beside p use N F t t' root root' ρ births v w
      ⟨.body a (.call mode label' key' next), frames⟩ ⟨.body a' (.call mode label' key' next'), frames'⟩)
    (hrealm : p.Realm use N F) (typed : key'.type = (use (p label').id).keyType)
    (relates : ρ.Relates p use (p.MayPark (p.node label key)) (p label).valueType
      (.call mode label' key' next) (.call mode label' key' next'))
    (backs : w.Backs p F births label key a'.slot (.call mode label' key' next') a'.deps) :
    KeepsPace p use N F t t' root root' ρ births v w ⟨.body a (.call mode label' key' next), frames⟩
      ⟨.body a' (.call mode label' key' next'), frames'⟩ := by
  have ht := h.joined.rooted.tidy
  have ht' := h.joined.rooted'.tidy
  obtain ⟨c, v₁, hcall, hfinds⟩ := stepCall_spec hp.toConsistent ht a mode typed next frames
  obtain ⟨c', w₁, hcall', hfinds'⟩ := stepCall_spec hp.toConsistent ht' a' mode typed next' frames'
  have hv := hfinds.toGrows
  have hw := hfinds'.toGrows
  have hn : N (p.node label' key') := (mentioned hrealm h.left runs.node .call).1 runs.inside
  have hpair : Pairs N v₁ w₁ c c' := ⟨_, hn, hfinds.found, hfinds'.found⟩
  have hgrown := runs.grow hv hw ht ht' hfinds.tidy hfinds'.tidy
  have hruns : BothRun p N v₁ w₁ label key (a.reading c) (a'.reading c') :=
    { hgrown with deps := forall₂_recordOnce hfinds.tidy hfinds'.tidy hgrown.deps hpair }
  have hderived : v₁.kind? c = some .derived := hfinds.tidy.kind?_node hp.toConsistent hfinds.found
  refine h.grows htr (.of_step hcall) (.of_step hcall') hv hw hfinds.tidy hfinds'.tidy
    (.requested hpair hderived (.calling hruns relates hfinds.found hfinds'.found rfl
      (backs.mono hw.preserves fun _ _ hn => hn)
      (awaits.grow hv hw h.left.linked ht ht' hfinds.tidy hfinds'.tidy))) ?_
  rw [hfinds.active, hfinds'.active]
  exact pairs_grow hv hw h.active

omit awaits htr in
include hp in
/-- When values are kept in both worlds, they count as changed in both or in none, for whoever has
    recorded the slots before. -/
theorem BothRun.tests {m m' : Memo} (hjoined : Joined p use N F ρ births [] v w) (hlinked : v.Linked)
    (hlinked' : w.Linked) (hvalue : ρ.Renames (p label).valueType m.value m'.value)
    (hm : v₁.memo? a.slot = some m) (hm' : w₁.memo? a'.slot = some m')
    (hchanged : ∀ o, v.memo? a.slot = some o →
      m.changedAt = if (p label).equality o.value m.value then o.changedAt else v.revision)
    (hchanged' : ∀ o', w.memo? a'.slot = some o' →
      m'.changedAt = if (p label).equality o'.value m'.value then o'.changedAt else w.revision)
    {k k' : SlotId} {o o' : Memo} (ho : v.memo? k = some o) (hk : a.slot ∈ o.deps)
    (ho' : w.memo? k' = some o') (hk' : a'.slot ∈ o'.deps)
    (htest : o.verifiedAt < v.changedAt a.slot ↔ o'.verifiedAt < w.changedAt a'.slot) :
    o.verifiedAt < v₁.changedAt a.slot ↔ o'.verifiedAt < w₁.changedAt a'.slot := by
  have ht := hjoined.rooted.tidy
  have ht' := hjoined.rooted'.tidy
  obtain ⟨hderived, hderived'⟩ := runs.derived hp.toConsistent ht ht'
  obtain ⟨hstale, o₁, ho₁⟩ := hjoined.rooted.stale_of_behind hlinked runs.behind hderived ho hk
  obtain ⟨hstale', o₁', ho₁'⟩ :=
    hjoined.rooted'.stale_of_behind hlinked' runs.behind' hderived' ho' hk'
  obtain ⟨o₂', ho₂', hecho⟩ := hjoined.echoes.memo_at ht' runs.inside runs.node runs.node' ho₁
  obtain rfl := Option.some.inj (ho₁'.symm.trans ho₂')
  have hequality := Renaming.Renames.equality hp (hp.valueType label ▸ hecho.value) hvalue
    hjoined.consistent
  rw [System.changedAt_of_memo hm, System.changedAt_of_memo hm', hchanged o₁ ho₁, hchanged' o₁' ho₁',
    hequality]
  rw [System.changedAt_of_memo ho₁, System.changedAt_of_memo ho₁'] at htest
  split
  · exact htest
  · exact ⟨fun _ => hstale', fun _ => hstale⟩

include hp in
/-- Both bodies end with values, which are kept. -/
theorem Beside.strides_value {x x' : Value}
    (h : Beside p use N F t t' root root' ρ births v w ⟨.body a (.done (.ok x)), frames⟩
      ⟨.body a' (.done (.ok x')), frames'⟩)
    (hvalue : ρ.Renames (p label).valueType x x')
    (backs : w.Backs p F births label key a'.slot (.done (.ok x')) a'.deps) :
    KeepsPace p use N F t t' root root' ρ births v w ⟨.body a (.done (.ok x)), frames⟩
      ⟨.body a' (.done (.ok x')), frames'⟩ := by
  have hjoined := h.joined
  have ht := hjoined.rooted.tidy
  have ht' := hjoined.rooted'.tidy
  have hpair : Pairs N v w a.slot a'.slot := ⟨_, runs.inside, runs.node, runs.node'⟩
  obtain ⟨m, v₁, hreach, rfl, hdeps, hverified, hchanged, hrenews, hactive, hrooted, -, helapses⟩ :=
    reaches_kept hp.toConsistent hjoined.rooted htr h.left h.uncancelled runs.node runs.inside runs.behind
      (h.left.apart rfl)
  obtain ⟨m', w₁, hreach', rfl, hdeps', hverified', hchanged', hrenews', hactive', hrooted', -,
      helapses'⟩ :=
    reaches_kept hp.toConsistent hjoined.rooted' htr h.right h.uncancelled' runs.node' runs.inside
      runs.behind' (h.right.apart rfl)
  have hnow := (hreach.orderly htr h.left).timely.changedAt_le
  have hnow' := (hreach'.orderly htr h.right).timely.changedAt_le
  rw [hrenews.revision, ← hverified] at hnow
  rw [hrenews'.revision, ← hverified'] at hnow'
  have hunchanged := forall₂_unchanged
    (runs.deps.imp fun _ _ hdep => hdep.mono helapses.node helapses'.node) (fun j _ => hnow j)
    fun j' _ => hnow' j'
  have hechoes : Echoes use N F ρ v₁ w₁ :=
    hjoined.echoes.lands hrooted.tidy ht' runs.inside runs.node runs.node' hrenews.toExtends
      hrenews'.toExtends hrenews.memo_self hrenews.memo_other hrenews'.memo_self hrenews'.memo_other
      ⟨hp.valueType label ▸ hvalue, by rwa [hdeps, hdeps']⟩ fun _ _ _ _ =>
        runs.tests hp hjoined h.left.linked h.right.linked hvalue hrenews.memo_self hrenews'.memo_self
          hchanged hchanged'
  have hpreserves := hjoined.rooted'.preserves helapses' h.right.linked
  refine h.keepsPace htr (.of_reaches hreach fun heq => by cases heq) hreach'
    (helapses.mono (List.nil_subset _)) (helapses'.mono (List.nil_subset _)) ?_
    (.answered (hpair.mono helapses.node helapses'.node) hrenews.memo_self hrenews'.memo_self
      (awaits.mono helapses helapses' h.left.linked (List.Subset.refl _) (List.Subset.refl _)
        (List.Subset.refl _) hpreserves fun _ _ hn => hn)) ?_
    (List.Subset.refl ρ) fun _ _ => rfl
  · refine hjoined.goesOn (helapses.mono (List.nil_subset _)) (helapses'.mono (List.nil_subset _))
      h.left.linked h.right.linked (allocations_le_of_edits hreach.edits)
      (allocations_le_of_edits hreach'.edits) hrooted hrooted' hechoes fun j' n o' hF hj' ho' => ?_
    by_cases hself : j' = a'.slot
    · subst hself
      obtain rfl := Option.some.inj (hj'.symm.trans (helapses'.node _ _ runs.node'))
      obtain rfl := Option.some.inj (hrenews'.memo_self.symm.trans ho')
      refine .inr ⟨⟨a.slot, m, helapses.node _ _ runs.node, hrenews.memo_self⟩, fun label₁ key₁ hsame => ?_⟩
      obtain ⟨k, hrun⟩ := (backs hF).resolve_right nofun
      obtain ⟨hid, rfl⟩ := Node.mk.inj hsame
      rw [← (hp.shared label label₁ hid).1, hdeps']
      exact ⟨k, hrun.mono hpreserves fun _ hn => hn⟩
    · exact .inl ⟨o', (hrenews'.memo_other j' hself).symm.trans ho'⟩
  · rw [hactive, hactive']
    exact (forall₂_dropInnermost ht ht' h.active hpair).imp fun _ _ hpair =>
      hpair.mono helapses.node helapses'.node

omit hp in
/-- Both bodies yield, and everything around them waits. -/
theorem Beside.strides_yield {next next' : Body}
    (h : Beside p use N F t t' root root' ρ births v w ⟨.body a (.yield next), frames⟩
      ⟨.body a' (.yield next'), frames'⟩) (allowed : p.MayPark (p.node label key))
    (hnext : ρ.Relates p use (p.MayPark (p.node label key)) (p label).valueType next next')
    (backs : w.Backs p F births label key a'.slot (.yield next') a'.deps) :
    KeepsPace p use N F t t' root root' ρ births v w ⟨.body a (.yield next), frames⟩
      ⟨.body a' (.yield next'), frames'⟩ := by
  obtain ⟨hframes, hframes'⟩ : splitAtImmediate frames = none ∧ splitAtImmediate frames' = none := by
    cases h.left.descends with
    | running _ hdescends => exact awaits.parks h.joined.consistent hdescends runs.node allowed
  have hstep : Evaluation.step p t ⟨.body a (.yield next), frames⟩ v =
      .parked ⟨.body a next, frames⟩ v := by
    simp only [Evaluation.step, stepBody, stepYield, hframes]
  have hstep' : Evaluation.step p t' ⟨.body a' (.yield next'), frames'⟩ w =
      .parked ⟨.body a' next', frames'⟩ w := by
    simp only [Evaluation.step, stepBody, stepYield, hframes']
  refine h.grows htr (.of_parked hstep) (.of_parked hstep') (.refl v) (.refl w) h.joined.rooted.tidy
    h.joined.rooted'.tidy (.running runs hnext (fun hF => ?_) awaits) h.active
  rcases backs hF with ⟨k, hrun⟩ | hfails
  · exact .inl ⟨k, hrun.yields⟩
  · cases hfails with
    | yield hfails => exact .inr hfails

end Operations

include hp htr hrealm in
/-- Bodies that are abreast take the same step. -/
theorem Beside.strides_running {a a' : Activation} {b b' : Body} {label : Label} {key : Key}
    (h : Beside p use N F t t' root root' ρ births v w ⟨.body a b, frames⟩ ⟨.body a' b', frames'⟩)
    (runs : BothRun p N v w label key a a')
    (relates : ρ.Relates p use (p.MayPark (p.node label key)) (p label).valueType b b')
    (backs : w.Backs p F births label key a'.slot b' a'.deps)
    (awaits : BothAwait p use N F ρ births v w a.slot frames a'.slot frames') :
    KeepsPace p use N F t t' root root' ρ births v w ⟨.body a b, frames⟩ ⟨.body a' b', frames'⟩ := by
  cases relates.unfolds h.joined.consistent with
  | done agree =>
    cases agree with
    | ok hvalue => exact h.strides_value hp htr runs awaits hvalue backs
    | error e => exact h.fails htr ⟨_, runs.inside, runs.node, runs.node'⟩ awaits rfl rfl
  | read typed hnext => exact h.strides_read htr runs awaits hrealm typed hnext
  | check hnext => exact h.strides_check htr runs awaits hnext backs
  | allocate hnext => exact h.strides_allocate htr runs awaits hnext backs
  | call typed _ _ => exact h.strides_call hp htr runs awaits hrealm typed relates backs
  | yield allowed hnext => exact h.strides_yield htr runs awaits allowed hnext backs

end Bodies

/-! ## Answers -/

section Answers

variable (hp : p.Anonymous use) (htr : ∀ label key, Transparent ((p label).body key))
  (hrealm : p.Realm use N F)

/-- A body goes on with the error of a call, and comes to an error. -/
theorem fails_of_failed {a : Activation} {mode : CallMode} {callee : SlotId} {error : QueryError}
    {next : Except QueryError Value → Body}
    (h : Evaluation.Orderly p w root
      ⟨.answer (.error error), .calling ⟨a, mode, callee, next⟩ :: frames⟩) :
    Fails (next (.error error)) := by
  cases h.tends with
  | failed expects =>
    cases expects with
    | calling hfails => exact hfails error

/-- What is answered lasts, so it is an input or firm. -/
theorem firm_of_answered {walk : Walk} {dep : SlotId} {x : Stamped}
    (h : Evaluation.Orderly p w root ⟨.answer (.ok x), .touching walk dep :: frames⟩)
    (hrooted : w.Rooted p use F) : w.kind? dep = some .input ∨ w.Firm dep := by
  cases h.tends with
  | answered valid expects =>
    cases expects with
    | touching => exact hrooted.firm_of_lasts h.linked valid

include hrealm in
/-- What a body for a node in `F` calls belongs to a node in `F`. -/
theorem called_constant {a : Activation} {mode : CallMode} {callee : SlotId} {r : Except QueryError Stamped}
    {next : Except QueryError Value → Body} {label label' : Label} {key key' : Key}
    (h : Evaluation.Orderly p w root ⟨.answer r, .calling ⟨a, mode, callee, next⟩ :: frames⟩)
    (hi : w.node? a.slot = some (p.node label key)) (hcallee : w.node? callee = some (p.node label' key'))
    (hF : F (p.node label key)) : F (p.node label' key') := by
  cases h.descends with
  | answered awaits =>
    cases awaits with
    | calling minds edge outer =>
      obtain ⟨n, n', hn, hn', hrefers⟩ := edge
      obtain rfl := Option.some.inj (hn.symm.trans hi)
      obtain rfl := Option.some.inj (hn'.symm.trans hcallee)
      exact hrealm.constant _ _ hF hrefers

/-- Two evaluations that are over, with the same answer up to the renaming. -/
def BothOver (ρ : Renaming) (e e' : Evaluation) : Prop :=
  ∃ r r', e = ⟨.answer r, []⟩ ∧ e' = ⟨.answer r', []⟩ ∧ ρ.Answers r r'

include htr in
/-- An error is handed on in both worlds. -/
theorem Beside.strides_failed {error : QueryError}
    (h : Beside p use N F t t' root root' ρ births v w ⟨.answer (.error error), frames⟩
      ⟨.answer (.error error), frames'⟩)
    (awaits : BothAwait p use N F ρ births v w i frames i' frames') :
    BothOver ρ ⟨.answer (.error error), frames⟩ ⟨.answer (.error error), frames'⟩ ∨
      KeepsPace p use N F t t' root root' ρ births v w ⟨.answer (.error error), frames⟩
        ⟨.answer (.error error), frames'⟩ := by
  cases awaits with
  | nobody => exact .inl ⟨_, _, rfl, rfl, .error error⟩
  | touching walks derived outer => exact .inr (h.fails htr walks.pair outer rfl rfl)
  | calling runs relates called called' recorded backs outer =>
    cases relates.unfolds h.joined.consistent with
    | call _ _ hnext =>
      exact .inr (h.grows htr (.of_step rfl) (.of_step rfl) (.refl v) (.refl w) h.joined.rooted.tidy
        h.joined.rooted'.tidy (.running runs (hnext _ _ (.error error))
          (fun _ => .inr (fails_of_failed h.right)) outer) h.active)

include hp htr hrealm in
/-- A value is handed on in both worlds. -/
theorem Beside.strides_answered
    (h : Beside p use N F t t' root root' ρ births v w ⟨.answer (.ok m.toStamped), frames⟩
      ⟨.answer (.ok m'.toStamped), frames'⟩)
    (pair : Pairs N v w i i') (memo : v.memo? i = some m) (memo' : w.memo? i' = some m')
    (awaits : BothAwait p use N F ρ births v w i frames i' frames') :
    BothOver ρ ⟨.answer (.ok m.toStamped), frames⟩ ⟨.answer (.ok m'.toStamped), frames'⟩ ∨
      KeepsPace p use N F t t' root root' ρ births v w ⟨.answer (.ok m.toStamped), frames⟩
        ⟨.answer (.ok m'.toStamped), frames'⟩ := by
  have ht' := h.joined.rooted'.tidy
  obtain ⟨n, hn, hi, hi'⟩ := pair
  obtain ⟨o', ho', hecho⟩ := h.joined.echoes.memo_at ht' hn hi hi' memo
  obtain rfl := Option.some.inj (memo'.symm.trans ho')
  cases awaits with
  | nobody => exact .inl ⟨_, _, rfl, rfl, .ok hecho.value.2⟩
  | touching walks derived outer =>
    refine .inr (h.touches htr walks (firm_of_answered h.left h.joined.rooted) outer ?_ ?_)
    · rw [System.changedAt_of_memo memo]
      rfl
    · rw [System.changedAt_of_memo memo']
      rfl
  | @calling label label' key key' a a' mode _ _ next next' frames frames' runs relates called
      called' deps recorded backs outer =>
    obtain rfl := Option.some.inj (hi.symm.trans called)
    have hvalue : ρ.Renames (p label').valueType m.value m'.value := hp.valueType label' ▸ hecho.value
    have hstep : Evaluation.step p t
        ⟨.answer (.ok m.toStamped), .calling ⟨a, mode, i, next⟩ :: frames⟩ v =
        .running ⟨.body a (next (.ok m.value)), frames⟩ v := by
      simp only [Evaluation.step, stepAnswer, check_of_not_mem h.uncancelled]
      rfl
    have hstep' : Evaluation.step p t'
        ⟨.answer (.ok m'.toStamped), .calling ⟨a', mode, i', next'⟩ :: frames'⟩ w =
        .running ⟨.body a' (next' (.ok m'.value)), frames'⟩ w := by
      simp only [Evaluation.step, stepAnswer, check_of_not_mem h.uncancelled']
      rfl
    cases relates.unfolds h.joined.consistent with
    | call _ _ hnext =>
      refine .inr (h.grows htr (.of_step hstep) (.of_step hstep') (.refl v) (.refl w)
        h.joined.rooted.tidy ht' (.running runs (hnext _ _ (.ok hvalue)) (fun hF => ?_) outer) h.active)
      rcases backs hF with ⟨k, hrun⟩ | hfails
      · rw [recorded]
        exact .inl ⟨k, .calls hrun (called_constant hrealm h.right runs.node' called' hF) called' memo'⟩
      · cases hfails with
        | call hnext' => exact .inr (hnext' _)

include hp htr hrealm in
/-- The second of two evaluations that are abreast keeps pace with the first one, to the end. -/
theorem Beside.strides (h : Beside p use N F t t' root root' ρ births v w e e') :
    BothOver ρ e e' ∨ KeepsPace p use N F t t' root root' ρ births v w e e' := by
  cases id h.abreast with
  | requested pair derived awaits =>
    exact .inr (h.strides_requested hp htr hrealm pair awaits derived)
  | walking walks awaits => exact .inr (h.strides_walking hp htr walks awaits)
  | computing runs awaits => exact .inr (h.strides_computing hp htr runs awaits)
  | running runs relates backs awaits =>
    exact .inr (h.strides_running hp htr hrealm runs relates backs awaits)
  | failed awaits => exact h.strides_failed htr awaits
  | answered pair memo memo' awaits => exact h.strides_answered hp htr hrealm pair memo memo' awaits

include hp htr hrealm in
/-- If the first one of two evaluations that are abreast ends, then so does the second one, and they are
    answered alike. -/
theorem Beside.finishes (h : Beside p use N F t t' root root' ρ births v w e e')
    {r : Except QueryError Stamped} (hfinishes : e.Finishes p t v r v₁) :
    ∃ r' ρ₁ births₁ w₁, e'.Finishes p t' w r' w₁ ∧ ρ ⊆ ρ₁ ∧ ρ₁.Answers r r' ∧
      Beside p use N F t t' root root' ρ₁ births₁ v₁ w₁ ⟨.answer r, []⟩ ⟨.answer r', []⟩ ∧
      w.Elapses N [] w₁ ∧ ∀ n, n < w.allocations → births₁ n = births n := by
  obtain ⟨n, hn⟩ := hfinishes
  induction n using Nat.strongRecOn generalizing ρ births v w e e' with
  | ind n ih =>
    rcases h.strides hp htr hrealm with ⟨r₁, r', rfl, rfl, hagree⟩ | hpace
    · -- the evaluations are over
      obtain ⟨rfl, rfl⟩ := Finishes.unique (p := p) (t := t) ⟨n, hn⟩ (.of_answer r₁ v)
      exact ⟨r', ρ, births, w, .of_answer r' w, List.Subset.refl ρ, hagree, h, .refl w, fun _ _ => rfl⟩
    · obtain ⟨ρ₂, births₂, e₂, v₂, e₂', w₂, ⟨k, hk⟩, hreach, hbeside, hρ, helapses, hbirths⟩ := hpace
      obtain ⟨l, rfl, hl⟩ := drive_of_finished_of_running hn hk
      obtain ⟨r', ρ₃, births₃, w₃, hfinishes, hρ', hagree, hbeside', helapses', hbirths'⟩ :=
        ih l (by omega) hbeside hl
      refine ⟨r', ρ₃, births₃, w₃, hreach.finishes hfinishes, List.Subset.trans hρ hρ', hagree, hbeside',
        helapses.trans h.right.linked helapses', fun n hlt => ?_⟩
      have hle := allocations_le_of_edits hreach.edits
      rw [hbirths' n (Nat.lt_of_lt_of_le hlt hle), hbirths n hlt]

end Answers

end World

end RedGreen
