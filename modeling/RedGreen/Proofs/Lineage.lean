import RedGreen.Proofs.Progression

set_option autoImplicit false

/-! # The inputs that memos come from

A memo records which slots the run that made it has read, and the memos of these record what was read
for them. `Traced` says what these records tell: what was read is valid at least as long as the memo
(`kept`), no slot comes back to itself (`grounded`), and if something that was read has changed since
the memo was last valid, then an input that it comes from was written since (`traced`).

Writes leave a traced world traced, and so do clears of everything that was last valid before a
revision. A memo that is made valid now leaves it so if all that was read is valid now; and if it
takes the place of an older one, the new run must have read again something that has changed since
(`Traced.recomputes`). -/

namespace RedGreen

open Relation

variable {p : Program} {use : Usages} {same : Indistinct}

/-! ## Stamps and kinds -/

namespace System

variable {s s' : System} {i : SlotId}

theorem memo?_of_input (h : s.kind? i = some .input) : s.memo? i = none := by
  obtain ⟨⟨query, key, content⟩, hslot, hkind⟩ := Option.map_eq_some_iff.1 h
  cases content with
  | input written => simp [memo?, hslot, Slot.memo?]
  | derived d => cases hkind

theorem kind?_of_written {x : Stamped} (h : s.written? i = some x) : s.kind? i = some .input := by
  obtain ⟨⟨query, key, content⟩, hslot, hwritten⟩ := Option.bind_eq_some_iff.1 h
  cases content with
  | input written => simp [kind?, hslot, Slot.kind]
  | derived d => cases hwritten

theorem kind?_of_memo {m : Memo} (h : s.memo? i = some m) : s.kind? i = some .derived := by
  obtain ⟨⟨query, key, content⟩, hslot, hmemo⟩ := Option.bind_eq_some_iff.1 h
  cases content with
  | input written => cases hmemo
  | derived d => simp [kind?, hslot, Slot.kind]

/-- The stamp of the last change is that of the memo or of the last write. -/
theorem changedAt_eq (s : System) (i : SlotId) : s.changedAt i =
    match s.memo? i, s.written? i with
    | some m, _ => m.changedAt
    | none, some x => x.changedAt
    | none, none => .never := by
  unfold changedAt memo? written?
  cases s.slots[i]? with
  | none => rfl
  | some slot =>
    obtain ⟨query, key, content⟩ := slot
    cases content with
    | input written => cases written <;> rfl
    | derived d =>
      show d.changedAt = match d.memo, (none : Option Stamped) with
        | some m, _ => m.changedAt
        | none, some x => x.changedAt
        | none, none => .never
      rw [d.parts_eq.2.1]
      cases d.memo <;> rfl

theorem changedAt_congr (hmemo : s'.memo? i = s.memo? i) (hwritten : s'.written? i = s.written? i) :
    s'.changedAt i = s.changedAt i := by
  rw [changedAt_eq, changedAt_eq, hmemo, hwritten]

end System

namespace World

variable {w w' : World} {i : SlotId} {m : Memo}

/-! ## Records -/

/-- The run that made the memo of the one slot has read the other. -/
def Records (w : World) (i j : SlotId) : Prop := ∃ m, w.memo? i = some m ∧ j ∈ m.deps

theorem records_iff (hm : w.memo? i = some m) {j : SlotId} : w.Records i j ↔ j ∈ m.deps := by
  simp [Records, hm]

theorem records_congr (h : w'.memo? i = w.memo? i) : w'.Records i = w.Records i := by
  funext j
  simp only [Records, h]

/-- A slot holds an input, or a value that is valid up to a revision at least. -/
def Lasts (w : World) (r : Revision) (i : SlotId) : Prop :=
  w.kind? i = some .input ∨ ∃ m, w.memo? i = some m ∧ r ≤ m.verifiedAt

/-- The stamps of all memos are in order. -/
def Ordered (w : World) : Prop :=
  ∀ i m, w.memo? i = some m → m.changedAt ≤ m.verifiedAt ∧ m.verifiedAt ≤ w.revision

theorem Fair.ordered (h : w.Fair p use same) : w.Ordered := fun i m hm =>
  ⟨(h.reliable i m hm).changed_le, (h.reliable i m hm).verified_le⟩

theorem Lasts.mono {r r' : Revision} (h : w.Lasts r i) (hle : r' ≤ r) : w.Lasts r' i :=
  h.imp_right fun ⟨m, hm, hr⟩ => ⟨m, hm, Nat.le_trans hle hr⟩

/-- What holds a memo holds no input. -/
theorem Lasts.le {r : Revision} (h : w.Lasts r i) (hm : w.memo? i = some m) : r ≤ m.verifiedAt := by
  rcases h with hinput | ⟨n, hn, hr⟩
  · exact nomatch hm.symm.trans (System.memo?_of_input hinput)
  · rwa [← Option.some.inj (hn.symm.trans hm)]

/-- What a slot comes from is valid as long as the slot, if what each memo comes from at first hand
    is valid as long as that memo. -/
theorem Lasts.path (hkept : ∀ i m, w.memo? i = some m → ∀ j ∈ m.deps, w.Lasts m.verifiedAt j)
    {r : Revision} {j x : SlotId} (hj : w.Lasts r j) (hpath : ReflTransGen w.Records j x) :
    w.Lasts r x := by
  induction hpath with
  | refl => exact hj
  | tail _ hrecords ih =>
    obtain ⟨m, hm, hmem⟩ := hrecords
    exact (hkept _ m hm _ hmem).mono (ih.le hm)

theorem Current.lasts (h : w.Current i) : w.Lasts w.revision i :=
  h.imp_right fun ⟨m, hm, hverified⟩ => ⟨m, hm, Nat.le_of_eq hverified.symm⟩

theorem Lasts.current (hordered : w.Ordered) (h : w.Lasts w.revision i) : w.Current i :=
  h.imp_right fun ⟨m, hm, hr⟩ => ⟨m, hm, Nat.le_antisymm (hordered i m hm).2 hr⟩

/-- The memos of a world tell which inputs they come from. -/
structure Traced (w : World) : Prop where
  /-- What was read is an input, or a value that is valid at least as long. -/
  kept : ∀ i m, w.memo? i = some m → ∀ j ∈ m.deps, w.Lasts m.verifiedAt j
  grounded : WellFounded fun j i => w.Records i j
  /-- If what was read has changed since, an input that it comes from was written since. -/
  traced : ∀ i m, w.memo? i = some m → ∀ j ∈ m.deps, m.verifiedAt < w.changedAt j →
    ∃ x, ReflTransGen w.Records j x ∧ w.kind? x = some .input ∧ m.verifiedAt < w.changedAt x

/-- A new system holds nothing. -/
theorem traced_new (memoize : Bool) : ({ memoize } : World).Traced where
  kept _ _ h := by cases h
  grounded := ⟨fun i => ⟨i, fun j ⟨_, h, _⟩ => by cases h⟩⟩
  traced _ _ h := by cases h

/-- What a slot comes from is valid as long as the slot. -/
theorem Traced.lasts (h : w.Traced) {r : Revision} {j x : SlotId} (hj : w.Lasts r j)
    (hpath : ReflTransGen w.Records j x) : w.Lasts r x := hj.path h.kept hpath

/-- What a slot comes from stays what it is if the records do of all that is valid as long. -/
theorem Traced.path (h : w.Traced) {r : Revision} {j x : SlotId} (hj : w.Lasts r j)
    (hsame : ∀ y, w.Lasts r y → w'.memo? y = w.memo? y) (hpath : ReflTransGen w.Records j x) :
    ReflTransGen w'.Records j x := by
  induction hpath with
  | refl => exact .refl
  | tail hpath hrecords ih =>
    refine ih.tail ?_
    rwa [records_congr (hsame _ (h.lasts hj hpath))]

/-! ## What happens between requests -/

section Turns

variable (h : w.Traced) (ht : Tidy p use w.toSystem) (ht' : Tidy p use w'.toSystem)
include h ht ht'

theorem Traced.grows (hw : w.Grows w') : w'.Traced := by
  have hrecords : w'.Records = w.Records := funext fun i => records_congr (hw.memo i)
  have hchanged (j : SlotId) : w'.changedAt j = w.changedAt j :=
    System.changedAt_congr (hw.memo j) (hw.written j)
  refine ⟨fun i m hm j hj => ?_, hrecords ▸ h.grounded, fun i m hm j hj hlt => ?_⟩
  · rw [hw.memo] at hm
    refine (h.kept i m hm j hj).imp (kind?_of_node ht ht' (hw.node j)) ?_
    rw [hw.memo]
    exact id
  · rw [hw.memo] at hm
    rw [hchanged] at hlt
    obtain ⟨x, hpath, hinput, hx⟩ := h.traced i m hm j hj hlt
    exact ⟨x, hrecords ▸ hpath, kind?_of_node ht ht' (hw.node x) hinput, (hchanged x).symm ▸ hx⟩

theorem Traced.writes (hordered : w.Ordered) {v : Value} (hw : w.Writes i v w') : w'.Traced := by
  have hrecords : w'.Records = w.Records := funext fun j => records_congr (hw.memo j)
  have hinput : w'.kind? i = some .input := System.kind?_of_written hw.written_self
  have hself : w'.changedAt i = w.revision.next := by
    rw [System.changedAt_eq, System.memo?_of_input hinput, hw.written_self]
  have hother (j : SlotId) (hne : j ≠ i) : w'.changedAt j = w.changedAt j :=
    System.changedAt_congr (hw.memo j) (hw.written_other j hne)
  have hnode (j : SlotId) (n : Node) (hj : w.node? j = some n) : w'.node? j = some n :=
    (hw.node j).trans hj
  refine ⟨fun j m hm k hk => ?_, hrecords ▸ h.grounded, fun j m hm k hk hlt => ?_⟩
  · rw [hw.memo] at hm
    refine (h.kept j m hm k hk).imp (kind?_of_node ht ht' (hnode k)) ?_
    rw [hw.memo]
    exact id
  · by_cases hki : k = i
    · exact ⟨k, .refl, hki ▸ hinput, hlt⟩
    · rw [hw.memo] at hm
      rw [hother k hki] at hlt
      obtain ⟨x, hpath, hx, hltx⟩ := h.traced j m hm k hk hlt
      refine ⟨x, hrecords ▸ hpath, kind?_of_node ht ht' (hnode x) hx, ?_⟩
      by_cases hxi : x = i
      · rw [hxi, hself]
        exact Nat.lt_succ_of_le (hordered j m hm).2
      · rwa [hother x hxi]

/-- Memos go that were last valid before a revision, and all of them. -/
theorem Traced.clears {before : Revision} (hw : w.Clears before w')
    (hall : ∀ i m, w'.memo? i = some m → before ≤ m.verifiedAt) : w'.Traced := by
  have hwas (j : SlotId) (m : Memo) (hm : w'.memo? j = some m) : w.memo? j = some m := by
    rcases hw.memo j with heq | ⟨hnone, -⟩
    · exact heq ▸ hm
    · exact nomatch hm.symm.trans hnone
  have hstays (j : SlotId) (hj : w.Lasts before j) : w'.memo? j = w.memo? j := by
    rcases hw.memo j with heq | ⟨-, m, hm, hlt⟩
    · exact heq
    · exact absurd (hj.le hm) (Nat.not_le_of_lt hlt)
  have hdep (j : SlotId) (m : Memo) (hm : w'.memo? j = some m) (k : SlotId) (hk : k ∈ m.deps) :
      w.Lasts m.verifiedAt k ∧ w.Lasts before k :=
    ⟨h.kept j m (hwas j m hm) k hk, (h.kept j m (hwas j m hm) k hk).mono (hall j m hm)⟩
  refine ⟨fun j m hm k hk => ?_, Subrelation.wf ?_ h.grounded, fun j m hm k hk hlt => ?_⟩
  · obtain ⟨hlasts, hbefore⟩ := hdep j m hm k hk
    refine hlasts.imp (kind?_of_node ht ht' (hw.node k)) ?_
    rw [hstays k hbefore]
    exact id
  · rintro k j ⟨m, hm, hk⟩
    exact ⟨m, hwas j m hm, hk⟩
  · obtain ⟨hlasts, hbefore⟩ := hdep j m hm k hk
    rw [System.changedAt_congr (hstays k hbefore) (hw.written k)] at hlt
    obtain ⟨x, hpath, hinput, hx⟩ := h.traced j m (hwas j m hm) k hk hlt
    refine ⟨x, h.path hbefore hstays hpath, kind?_of_node ht ht' (hw.node x) hinput, ?_⟩
    rwa [System.changedAt_congr (hstays x (.inl hinput)) (hw.written x)]

end Turns

/-- A clear of the whole system drops all memos that were last valid before a revision. -/
theorem le_of_clear {before : Revision} (hm : (w.clear before).2.memo? i = some m) :
    before ≤ m.verifiedAt := by
  have hslots : (w.clear before).2.slots[i]? = w.slots[i]?.map (·.clear before) := by
    simp [clear, setSlots]
  obtain ⟨slot, hslot, hmemo⟩ := Option.bind_eq_some_iff.1 hm
  rw [hslots] at hslot
  obtain ⟨slot, -, rfl⟩ := Option.map_eq_some_iff.1 hslot
  by_contra hlt
  unfold Slot.clear at hmemo
  split at hmemo
  · rw [slot.memo?_setMemo_none] at hmemo
    cases hmemo
  · rename_i hstale
    obtain ⟨query, key, content⟩ := slot
    cases content with
    | input written => cases hmemo
    | derived d =>
      have hd : d.memo = some m := hmemo
      simp [Slot.isStale, Derived.isStale, hd, Nat.lt_of_not_le hlt] at hstale

/-! ## What is made valid -/

/-- A memo is made valid now by reads of what is valid now. -/
structure Makes (p : Program) (use : Usages) (w : World) (i : SlotId) (m : Memo) (w' : World) : Prop
    extends Renews w i m w' where
  tidy : Tidy p use w.toSystem
  tidy' : Tidy p use w'.toSystem
  ordered : w.Ordered
  ordered' : w'.Ordered
  verified : m.verifiedAt = w.revision
  lasts : ∀ j ∈ m.deps, w.Lasts w.revision j

section Makes

variable (h : w.Traced) (hw : w.Makes p use i m w')
include h hw

/-- What was read is still valid as long as the memo. -/
theorem Traced.kept_of_makes : ∀ k n, w'.memo? k = some n → ∀ j ∈ n.deps,
    w'.Lasts n.verifiedAt j := by
  have hlasts (r : Revision) (hr : r ≤ w.revision) (j : SlotId) (hj : w.Lasts r j) :
      w'.Lasts r j := by
    by_cases hji : j = i
    · exact hji ▸ .inr ⟨m, hw.memo_self, hw.verified ▸ hr⟩
    · refine hj.imp (kind?_of_node hw.tidy hw.tidy' (hw.node j)) ?_
      rw [hw.memo_other j hji]
      exact id
  intro k n hn j hj
  by_cases hki : k = i
  · subst hki
    obtain rfl := Option.some.inj (hn.symm.trans hw.memo_self)
    exact hlasts _ (Nat.le_of_eq hw.verified) j (hw.verified ▸ hw.lasts j hj)
  · rw [hw.memo_other k hki] at hn
    exact hlasts _ (hw.ordered k n hn).2 j (h.kept k n hn j hj)

/-- Nothing that was read has changed since, apart from an input. -/
theorem Traced.traced_of_makes {j : SlotId} (hj : j ∈ m.deps) (hlt : m.verifiedAt < w'.changedAt j) :
    ∃ x, ReflTransGen w'.Records j x ∧ w'.kind? x = some .input ∧ m.verifiedAt < w'.changedAt x := by
  rcases h.kept_of_makes hw i m hw.memo_self j hj with
    hinput | ⟨n, hn, -⟩
  · exact ⟨j, .refl, hinput, hlt⟩
  · rw [System.changedAt_of_memo hn, hw.verified, ← hw.revision] at hlt
    obtain ⟨hle, hle'⟩ := hw.ordered' j n hn
    exact absurd (Nat.le_trans hle hle') (Nat.not_le_of_lt hlt)

/-- A memo is confirmed: what it has recorded is as it was. -/
theorem Traced.confirms {o : Memo} (ho : w.memo? i = some o) (hstamp : m.changedAt = o.changedAt)
    (hsame : m.deps = o.deps) : w'.Traced := by
  have hrecords : w'.Records = w.Records := by
    funext j k
    by_cases hji : j = i
    · rw [hji, records_iff hw.memo_self, records_iff ho, hsame]
    · rw [records_congr (hw.memo_other j hji)]
  have hchanged (j : SlotId) : w'.changedAt j = w.changedAt j := by
    by_cases hji : j = i
    · rw [hji, System.changedAt_of_memo hw.memo_self, System.changedAt_of_memo ho, hstamp]
    · exact System.changedAt_congr (hw.memo_other j hji) (hw.written j)
  refine ⟨h.kept_of_makes hw, hrecords ▸ h.grounded, ?_⟩
  intro k n hn j hj hlt
  by_cases hki : k = i
  · subst hki
    obtain rfl := Option.some.inj (hn.symm.trans hw.memo_self)
    exact h.traced_of_makes hw hj hlt
  · rw [hw.memo_other k hki] at hn
    rw [hchanged] at hlt
    obtain ⟨x, hpath, hinput, hx⟩ := h.traced k n hn j hj hlt
    exact ⟨x, hrecords ▸ hpath, kind?_of_node hw.tidy hw.tidy' (hw.node x) hinput, (hchanged x).symm ▸ hx⟩

section Recomputes

variable (hstale : ¬w.Lasts w.revision i)
include hstale

/-- What is valid now does not come from the slot, so all that it comes from stays. -/
theorem Traced.path_of_lasts {j x : SlotId} (hj : w.Lasts w.revision j)
    (hpath : ReflTransGen w.Records j x) : ReflTransGen w'.Records j x :=
  h.path hj (fun y hy => hw.memo_other y fun hyi => hstale (hyi ▸ hy)) hpath

theorem Traced.grounded_of_recomputes : WellFounded fun j i => w'.Records i j := by
  -- what is valid now does not come back to the slot
  have hvalid (j : SlotId) : w.Lasts w.revision j → Acc (fun j i => w'.Records i j) j := by
    induction h.grounded.apply j with
    | intro j _ ih =>
      intro hj
      refine ⟨j, fun k hk => ?_⟩
      have hji : j ≠ i := fun hji => hstale (hji ▸ hj)
      rw [records_congr (hw.memo_other j hji)] at hk
      exact ih k hk (h.lasts hj (.single hk))
  have hself : Acc (fun j i => w'.Records i j) i :=
    ⟨i, fun j hj => hvalid j (hw.lasts j ((records_iff hw.memo_self).1 hj))⟩
  refine ⟨fun j => ?_⟩
  induction h.grounded.apply j with
  | intro j _ ih =>
    by_cases hji : j = i
    · exact hji ▸ hself
    · refine ⟨j, fun k hk => ih k ?_⟩
      rwa [records_congr (hw.memo_other j hji)] at hk

/-- A memo takes the place of an older one, if there was one: the new run has read again what has
    changed since the old one was last valid. -/
theorem Traced.recomputes (hagain : ∀ o, w.memo? i = some o →
      ∃ j ∈ m.deps, j ∈ o.deps ∧ o.verifiedAt < w.changedAt j) : w'.Traced := by
  have hnot (x : SlotId) (hx : w.kind? x = some .input) : x ≠ i := fun hxi => hstale (hxi ▸ .inl hx)
  have hchanged (j : SlotId) (hji : j ≠ i) : w'.changedAt j = w.changedAt j :=
    System.changedAt_congr (hw.memo_other j hji) (hw.written j)
  -- the slot comes from an input that was written after the older memo was last valid
  have hself (r : Revision) (hi : w.Lasts r i) : ∃ x, ReflTransGen w'.Records i x ∧
      w'.kind? x = some .input ∧ r < w'.changedAt x := by
    obtain ⟨o, ho, hr⟩ := hi.resolve_left fun hinput => hstale (.inl hinput)
    obtain ⟨j, hj, hjo, hlt⟩ := hagain o ho
    obtain ⟨x, hpath, hinput, hx⟩ := h.traced i o ho j hjo hlt
    refine ⟨x, .head ((records_iff hw.memo_self).2 hj) ?_,
      kind?_of_node hw.tidy hw.tidy' (hw.node x) hinput, ?_⟩
    · exact h.path_of_lasts hw hstale (hw.lasts j hj) hpath
    · rw [hchanged x (hnot x hinput)]
      exact Nat.lt_of_le_of_lt hr hx
  -- whatever came from an input that was written comes from one still
  have hstill (r : Revision) {j x : SlotId} (hpath : ReflTransGen w.Records j x)
      (hinput : w.kind? x = some .input) (hx : r < w.changedAt x) (hj : w.Lasts r j) :
      ∃ x, ReflTransGen w'.Records j x ∧ w'.kind? x = some .input ∧ r < w'.changedAt x := by
    induction hpath using ReflTransGen.head_induction_on with
    | refl =>
      refine ⟨x, .refl, kind?_of_node hw.tidy hw.tidy' (hw.node x) hinput, ?_⟩
      rwa [hchanged x (hnot x hinput)]
    | @head j k hrecords _ ih =>
      by_cases hji : j = i
      · exact hji ▸ hself r (hji ▸ hj)
      · obtain ⟨x, hpath, hx⟩ := ih (h.lasts hj (.single hrecords))
        refine ⟨x, .head ?_ hpath, hx⟩
        rwa [records_congr (hw.memo_other j hji)]
  refine ⟨h.kept_of_makes hw,
    h.grounded_of_recomputes hw hstale, ?_⟩
  intro k n hn j hj hlt
  by_cases hki : k = i
  · subst hki
    obtain rfl := Option.some.inj (hn.symm.trans hw.memo_self)
    exact h.traced_of_makes hw hj hlt
  · rw [hw.memo_other k hki] at hn
    have hlasts := h.kept k n hn j hj
    by_cases hji : j = i
    · exact hji ▸ hself n.verifiedAt (hji ▸ hlasts)
    · rw [hchanged j hji] at hlt
      obtain ⟨x, hpath, hinput, hx⟩ := h.traced k n hn j hj hlt
      exact hstill n.verifiedAt hpath hinput hx hlasts

end Recomputes

end Makes

end World

end RedGreen
