import RedGreen.Proofs.Changes
import RedGreen.Proofs.Lineage
import RedGreen.Proofs.SessionSteps

set_option autoImplicit false

/-! # Stamps are in order

The stamps of what is kept are in order in every state, and a slot whose memo changes is valid up to a
later revision than before, whatever the program is and however tasks, writes, clears and cancellations
come between each other (`Session.Timed.after`, `Session.Timed.report`).

A computation is kept under the revision at which it began, which may lie behind the present one when
it ends. What carries the proof is that every flight began later than the memo of its slot was valid
(`Aloft`): it was entered because the memo was not valid at that revision, and as long as it is in
flight nobody else makes a memo for the slot. -/

namespace RedGreen

open Evaluation

variable {p : Program} {t : Token}

namespace System

variable {s s' : System} {i : SlotId}

/-- The stamp of validity is that of the memo or of the last write. -/
theorem verifiedAt_eq (s : System) (i : SlotId) : s.verifiedAt i =
    match s.memo? i, s.written? i with
    | some m, _ => m.verifiedAt
    | none, some x => x.changedAt
    | none, none => .never := by
  unfold verifiedAt memo? written?
  cases s.slots[i]? with
  | none => rfl
  | some slot =>
    obtain ⟨query, key, content⟩ := slot
    cases content with
    | input written => cases written <;> rfl
    | derived d =>
      show d.verifiedAt = match d.memo, (none : Option Stamped) with
        | some m, _ => m.verifiedAt
        | none, some x => x.changedAt
        | none, none => .never
      rw [d.parts_eq.2.2.1]
      cases d.memo <;> rfl

theorem verifiedAt_congr (hmemo : s'.memo? i = s.memo? i) (hwritten : s'.written? i = s.written? i) :
    s'.verifiedAt i = s.verifiedAt i := by
  rw [verifiedAt_eq, verifiedAt_eq, hmemo, hwritten]

theorem verifiedAt_of_memo {m : Memo} (h : s.memo? i = some m) : s.verifiedAt i = m.verifiedAt := by
  rw [verifiedAt_eq, h]

/-- What holds a memo was never written. -/
theorem written?_of_memo {m : Memo} (h : s.memo? i = some m) : s.written? i = none := by
  cases hwritten : s.written? i with
  | none => rfl
  | some x => cases (kind?_of_written hwritten).symm.trans (kind?_of_memo h)

end System

/-! ## Stamps in order -/

/-- The stamps of a slot are in order at a revision. A derived slot without a value bears no stamps
    and has no dependencies, and an input bears one exactly if it was written. -/
def Slot.Stamped (now : Revision) (slot : Slot) : Prop :=
  match slot.content with
  | .input written => (slot.changedAt = .never ↔ written = none) ∧ slot.changedAt ≤ now
  | .derived d =>
    match d.cached with
    | none => d.changedAt = .never ∧ d.verifiedAt = .never ∧ d.deps = []
    | some _ => .start ≤ d.changedAt ∧ d.changedAt ≤ d.verifiedAt ∧ d.verifiedAt ≤ now

namespace World

/-- A flight began later than the memo of its slot was valid. -/
structure Aloft (w : World) (f : Flight) : Prop where
  start : .start ≤ f.revision
  revision : f.revision ≤ w.revision
  stale : ∀ m, w.memo? f.slot = some m → m.verifiedAt < f.revision

/-- All stamps are in order, while some slots are in flight. -/
structure Timely (w : World) (F : List Flight) : Prop where
  start : .start ≤ w.revision
  /-- Without a memory nothing is kept. -/
  unkept : w.memoize = false → ∀ i, w.memo? i = none
  memo : ∀ i m, w.memo? i = some m →
    .start ≤ m.changedAt ∧ m.changedAt ≤ m.verifiedAt ∧ m.verifiedAt ≤ w.revision
  written : ∀ i x, w.written? i = some x → .start ≤ x.changedAt ∧ x.changedAt ≤ w.revision
  aloft : ∀ f ∈ F, w.Aloft f

/-- No value is another one. -/
structure Still (w w' : World) : Prop where
  revision : w'.revision = w.revision
  memoize : w'.memoize = w.memoize
  memo : ∀ i, w'.memo? i = w.memo? i
  written : ∀ i, w'.written? i = w.written? i

/-- Some memos are dropped, and no other value is another one. -/
structure Drops (w w' : World) : Prop where
  revision : w'.revision = w.revision
  memoize : w'.memoize = w.memoize
  memo : ∀ i, w'.memo? i = w.memo? i ∨ w'.memo? i = none
  written : ∀ i, w'.written? i = w.written? i

/-- The memo of a slot was made valid up to a later revision, and its value has not changed
    earlier. -/
structure Advances (w : World) (i : SlotId) (w' : World) : Prop where
  kept : (w'.memo? i).isSome
  changed : w.changedAt i ≤ w'.changedAt i
  verified : w.verifiedAt i < w'.verifiedAt i

/-- Every memo is the one that was there, or was made valid up to a later revision. -/
structure Ages (w w' : World) : Prop where
  written : ∀ i, w'.written? i = w.written? i
  memo : ∀ i, w'.memo? i = w.memo? i ∨ w.Advances i w'

/-- What can happen to the values that are kept: memos age, one input is written under the revision
    that the write issues, if this is a write, or some memos are dropped, if this is a clear. -/
inductive Restamps (w : World) (writes clears : Prop) (w' : World) : Prop
  | ages (ages : w.Ages w')
  | writes {i : SlotId} {v : Value} (writes : writes) (revision : w'.revision = w.revision.next)
    (self : w'.written? i = some ⟨v, w'.revision⟩)
    (others : ∀ j, j ≠ i → w'.written? j = w.written? j) (memo : ∀ j, w'.memo? j = w.memo? j)
  | clears (clears : clears) (drops : w.Drops w')

variable {w w' w'' : World} {F F' : List Flight} {i : SlotId}

theorem Retains.still (h : w.Retains w') : w.Still w' := ⟨h.revision, h.memoize, h.memo, h.written⟩

theorem Alters.still (h : w.Alters w') : w.Still w' :=
  ⟨h.revision, h.memoize, h.grows.memo, h.grows.written⟩

theorem Still.trans (h : w.Still w') (h' : w'.Still w'') : w.Still w'' :=
  ⟨h'.revision.trans h.revision, h'.memoize.trans h.memoize,
    fun i => (h'.memo i).trans (h.memo i), fun i => (h'.written i).trans (h.written i)⟩

theorem Drops.still (h : w.Drops w') (hstill : w'.Still w'') : w.Drops w'' where
  revision := hstill.revision.trans h.revision
  memoize := hstill.memoize.trans h.memoize
  memo i := hstill.memo i ▸ h.memo i
  written i := (hstill.written i).trans (h.written i)

theorem Still.drops (h : w.Still w') : w.Drops w' :=
  ⟨h.revision, h.memoize, fun i => .inl (h.memo i), h.written⟩

/-- Stale memos are dropped in some of the slots. -/
theorem drops_of_map (before : Revision) (which : SlotId → Slot → Prop)
    [∀ i slot, Decidable (which i slot)] {slots : List Slot}
    (hslots : ∀ i : SlotId, slots[i]? =
      w.slots[i]?.map fun slot => if which i slot then slot.clear before else slot) :
    w.Drops (w.setSlots slots) := by
  refine ⟨rfl, rfl, fun i => ?_, fun i => ?_⟩
  · show slots[i]?.bind Slot.memo? = w.slots[i]?.bind Slot.memo? ∨ slots[i]?.bind Slot.memo? = none
    rw [hslots]
    cases w.slots[i]? with
    | none => exact .inl rfl
    | some slot =>
      show (if which i slot then slot.clear before else slot).memo? = slot.memo? ∨ _
      split
      · rcases slot.memo?_clear before with hsame | ⟨hgone, -⟩
        · exact .inl hsame
        · exact .inr (by simp [*])
      · exact .inl rfl
  · show slots[i]?.bind Slot.written? = w.slots[i]?.bind Slot.written?
    rw [hslots]
    cases w.slots[i]? with
    | none => rfl
    | some slot =>
      show (if which i slot then slot.clear before else slot).written? = slot.written?
      split <;> simp

theorem drops_clear (w : World) (before : Revision) : w.Drops (w.clear before).2 :=
  (drops_of_map before (fun _ _ => True) fun i => by simp).still
    (rests_log _ _).still

theorem drops_clearCache (w : World) (query : QueryId) (before : Revision) :
    w.Drops (w.clearCache query before).2 :=
  drops_of_map before (fun _ slot => slot.query = query) fun i => by simp

theorem drops_clearSlot (w : World) (query : QueryId) (key : Key) (before : Revision) :
    w.Drops (w.clearSlot query key before).2 := by
  have hself : w.Drops w := (Retains.refl w).still.drops
  unfold clearSlot
  split
  · exact hself
  · rename_i i _
    split
    · split
      · exact hself
      · refine drops_of_map before (fun j _ => i = j) fun j => ?_
        rw [List.getElem?_modify]
        split <;> simp
    · exact hself

theorem Still.ages (h : w.Still w') : w.Ages w' := ⟨h.written, fun i => .inl (h.memo i)⟩

theorem Ages.refl (w : World) : w.Ages w := ⟨fun _ => rfl, fun _ => .inl rfl⟩

theorem Ages.trans (h : w.Ages w') (h' : w'.Ages w'') : w.Ages w'' where
  written i := (h'.written i).trans (h.written i)
  memo i := by
    rcases h.memo i with hsame | hadvances
    · -- a slot that was left alone bears the same stamps
      rcases h'.memo i with hsame' | ⟨hkept, hchanged, hverified⟩
      · exact .inl (hsame'.trans hsame)
      · refine .inr ⟨hkept, ?_, ?_⟩
        · rwa [← System.changedAt_congr hsame (h.written i)]
        · rwa [← System.verifiedAt_congr hsame (h.written i)]
    · obtain ⟨hkept, hchanged, hverified⟩ := hadvances
      rcases h'.memo i with hsame' | ⟨hkept', hchanged', hverified'⟩
      · refine .inr ⟨hsame' ▸ hkept, ?_, ?_⟩
        · rwa [System.changedAt_congr hsame' (h'.written i)]
        · rwa [System.verifiedAt_congr hsame' (h'.written i)]
      · exact .inr ⟨hkept', Nat.le_trans hchanged hchanged', Nat.lt_trans hverified hverified'⟩

theorem Restamps.still {writes clears : Prop} (h : w.Restamps writes clears w')
    (hstill : w'.Still w'') : w.Restamps writes clears w'' := by
  cases h with
  | ages ages => exact .ages (ages.trans hstill.ages)
  | @writes i v writes revision self others memo =>
    refine .writes (v := v) writes (hstill.revision.trans revision) ?_
      (fun j hj => (hstill.written j).trans (others j hj)) fun j => (hstill.memo j).trans (memo j)
    rw [hstill.written, self, hstill.revision]
  | clears clears drops => exact .clears clears (drops.still hstill)

theorem Restamps.imp {writes writes' clears clears' : Prop} (h : w.Restamps writes clears w')
    (hwrites : writes → writes') (hclears : clears → clears') : w.Restamps writes' clears' w' := by
  cases h with
  | ages ages => exact .ages ages
  | writes writes revision self others memo =>
    exact .writes (hwrites writes) revision self others memo
  | clears clears drops => exact .clears (hclears clears) drops

theorem Still.trans_drops (h : w.Still w') (hdrops : w'.Drops w'') : w.Drops w'' where
  revision := hdrops.revision.trans h.revision
  memoize := hdrops.memoize.trans h.memoize
  memo i := h.memo i ▸ hdrops.memo i
  written i := (hdrops.written i).trans (h.written i)

theorem Still.restamps {writes clears : Prop} (h : w.Still w')
    (hrestamps : w'.Restamps writes clears w'') : w.Restamps writes clears w'' := by
  cases hrestamps with
  | ages ages => exact .ages (h.ages.trans ages)
  | writes writes revision self others memo =>
    refine .writes writes (revision.trans (by rw [h.revision])) self
      (fun j hj => (others j hj).trans (h.written j)) fun j => (memo j).trans (h.memo j)
  | clears clears drops => exact .clears clears (h.trans_drops drops)

/-! ## Worlds whose stamps are in order -/

theorem Aloft.still {f : Flight} (h : w.Aloft f) (hstill : w.Still w') : w'.Aloft f where
  start := h.start
  revision := hstill.revision ▸ h.revision
  stale m hm := h.stale m ((hstill.memo _).symm.trans hm)

theorem Timely.mono (h : w.Timely F) (hsub : F' ⊆ F) : w.Timely F' :=
  ⟨h.start, h.unkept, h.memo, h.written, fun f hf => h.aloft f (hsub hf)⟩

theorem Timely.still (h : w.Timely F) (hstill : w.Still w') : w'.Timely F where
  start := hstill.revision ▸ h.start
  unkept hmemoize i := (hstill.memo i).trans (h.unkept (hstill.memoize.symm.trans hmemoize) i)
  memo i m hm := by
    rw [hstill.revision]
    exact h.memo i m ((hstill.memo i).symm.trans hm)
  written i x hx := by
    rw [hstill.revision]
    exact h.written i x ((hstill.written i).symm.trans hx)
  aloft f hf := (h.aloft f hf).still hstill

theorem Timely.drops (h : w.Timely F) (hdrops : w.Drops w') : w'.Timely F := by
  have hbefore {j : SlotId} {m : Memo} (hm : w'.memo? j = some m) : w.memo? j = some m := by
    rcases hdrops.memo j with hsame | hgone
    · exact hsame.symm.trans hm
    · cases hgone.symm.trans hm
  refine ⟨hdrops.revision ▸ h.start, fun hoff j => ?_, fun j m hm => ?_, fun j x hx => ?_,
    fun f hf => ?_⟩
  · cases hm : w'.memo? j with
    | none => rfl
    | some m => cases (h.unkept (hdrops.memoize.symm.trans hoff) j).symm.trans (hbefore hm)
  · rw [hdrops.revision]
    exact h.memo j m (hbefore hm)
  · rw [hdrops.revision]
    exact h.written j x ((hdrops.written j).symm.trans hx)
  · have haloft := h.aloft f hf
    exact ⟨haloft.start, hdrops.revision ▸ haloft.revision, fun m hm => haloft.stale m (hbefore hm)⟩

/-- In an orderly world the stamps of every slot are in order. -/
theorem Timely.stamped (h : w.Timely F) : ∀ slot ∈ w.slots, slot.Stamped w.revision := by
  intro slot hslot
  obtain ⟨i, hi⟩ := List.mem_iff_getElem?.1 hslot
  have hmemo : w.memo? i = slot.memo? := by rw [System.memo?, hi]; rfl
  have hwritten : w.written? i = slot.written? := by rw [System.written?, hi]; rfl
  obtain ⟨query, key, content⟩ := slot
  cases content with
  | input written =>
    cases written with
    | none => exact ⟨⟨fun _ => rfl, fun _ => rfl⟩, Nat.zero_le _⟩
    | some x =>
      obtain ⟨hstart, hle⟩ := h.written i x hwritten
      refine ⟨⟨fun hnever => ?_, fun hnone => by cases hnone⟩, hle⟩
      exact absurd (hnever ▸ hstart : Revision.start ≤ Revision.never) (by decide)
  | derived d =>
    have hmemo : w.memo? i = d.memo := hmemo
    show match d.cached with
      | none => d.changedAt = .never ∧ d.verifiedAt = .never ∧ d.deps = []
      | some _ => .start ≤ d.changedAt ∧ d.changedAt ≤ d.verifiedAt ∧ d.verifiedAt ≤ w.revision
    split
    · exact d.blank ‹_›
    · rename_i value hcached
      exact h.memo i _ (hmemo.trans (by rw [Derived.memo, hcached]; rfl))

/-- A flight lands: its slot keeps a memo of the revision at which it began. -/
theorem Timely.land {f : Flight} (h : w.Timely (f :: F)) (hpersists : w.Persists w')
    (hmemoize : w.memoize = true) {m' : Memo} (hself : w'.memo? f.slot = some m')
    (hothers : ∀ j, j ≠ f.slot → w'.memo? j = w.memo? j) (hverified : m'.verifiedAt = f.revision)
    (hchanged : m'.changedAt = f.revision ∨
      ∃ m, w.memo? f.slot = some m ∧ m'.changedAt = m.changedAt)
    (hapart : ∀ g ∈ F, g.slot ≠ f.slot) : w'.Timely F ∧ w.Ages w' := by
  have haloft := h.aloft f List.mem_cons_self
  have horder : .start ≤ m'.changedAt ∧ m'.changedAt ≤ m'.verifiedAt := by
    rw [hverified]
    rcases hchanged with heq | ⟨m, hm, heq⟩
    · rw [heq]
      exact ⟨haloft.start, Nat.le_refl _⟩
    · obtain ⟨hstart, hle, -⟩ := h.memo _ m hm
      rw [heq]
      exact ⟨hstart, Nat.le_of_lt (Nat.lt_of_le_of_lt hle (haloft.stale m hm))⟩
  refine ⟨⟨?_, ?_, ?_, ?_, ?_⟩, hpersists.written, fun j => ?_⟩
  · rw [hpersists.revision]
    exact h.start
  · intro hoff
    rw [hpersists.memoize, hmemoize] at hoff
    cases hoff
  · intro j m hm
    rw [hpersists.revision]
    by_cases hj : j = f.slot
    · subst hj
      obtain rfl := Option.some.inj (hself.symm.trans hm)
      exact ⟨horder.1, horder.2, hverified ▸ haloft.revision⟩
    · exact h.memo j m ((hothers j hj).symm.trans hm)
  · intro j x hx
    rw [hpersists.revision]
    exact h.written j x ((hpersists.written j).symm.trans hx)
  · intro g hg
    have hbefore := h.aloft g (List.mem_cons_of_mem f hg)
    refine ⟨hbefore.start, hpersists.revision ▸ hbefore.revision, fun m hm => hbefore.stale m ?_⟩
    rw [← hothers _ (hapart g hg), hm]
  · by_cases hj : j = f.slot
    · subst hj
      refine .inr ⟨by rw [hself]; rfl, ?_, ?_⟩
      · rw [System.changedAt_of_memo hself]
        cases hm : w.memo? f.slot with
        | none =>
          have hunwritten := System.written?_of_memo hself
          rw [hpersists.written] at hunwritten
          rw [System.changedAt_eq, hm, hunwritten]
          exact Nat.zero_le _
        | some m =>
          rw [System.changedAt_of_memo hm]
          rcases hchanged with heq | ⟨n, hn, heq⟩
          · rw [heq]
            exact Nat.le_of_lt (Nat.lt_of_le_of_lt (h.memo _ m hm).2.1 (haloft.stale m hm))
          · obtain rfl := Option.some.inj (hm.symm.trans hn)
            exact Nat.le_of_eq heq.symm
      · rw [System.verifiedAt_of_memo hself, hverified]
        cases hm : w.memo? f.slot with
        | none =>
          have hunwritten := System.written?_of_memo hself
          rw [hpersists.written] at hunwritten
          rw [System.verifiedAt_eq, hm, hunwritten]
          exact haloft.start
        | some m =>
          rw [System.verifiedAt_of_memo hm]
          exact haloft.stale m hm
    · exact .inl (hothers j hj)

end World

/-! ## Steps -/

namespace Evaluation

variable {w w' : World} {F : List Flight} {others : List SlotId}

/-- A slot that enters does so because its memo is not valid now. -/
theorem stale_of_fetch {i : SlotId} {f : Flight} (h : (w.fetch p t i).1.flight? = some f)
    (hunkept : w.memoize = false → ∀ i, w.memo? i = none) :
    ∀ m, w.memo? i = some m → m.verifiedAt ≠ w.revision := by
  intro m hm hverified
  unfold World.fetch at h
  split at h
  · simp only [World.beginMemoized, hm, if_pos hverified] at h
    cases h
  · rename_i hmemoize
    rw [hunkept (by simpa using hmemoize)] at hm
    cases hm

/-- A flight that a step adds began now, and the memo of its slot is not valid now. -/
theorem Next.aloft {e e' : Evaluation} (h : e.Next p t w e' w') (ht : w.Timely (e.flights ++ F)) :
    ∀ f ∈ e'.flights, w.Aloft f := by
  intro f hf
  rcases h.moves.flights hf with hbefore | hnow
  · exact ht.aloft f (List.mem_append_left F hbefore)
  · by_cases hold : f ∈ e.flights
    · exact ht.aloft f (List.mem_append_left F hold)
    · -- only a request for a slot adds a flight
      refine ⟨hnow ▸ ht.start, Nat.le_of_eq hnow, fun m hm => ?_⟩
      rw [hnow]
      refine Nat.lt_of_le_of_ne (ht.memo _ m hm).2.2 ?_
      cases h.moves with
      | @enters i c frames w w' flight =>
        obtain ⟨heq, -⟩ := eq_of_resume h
        obtain ⟨rfl, -⟩ := Evaluation.mk.inj heq
        rw [flights, flight] at hf
        rcases List.mem_cons.1 hf with rfl | hf
        · exact stale_of_fetch flight ht.unkept m hm
        · exact absurd hf hold
      | bounces => exact absurd hf hold
      | goesOn flight flight' => exact absurd (by rwa [flights, flight, ← flight']) hold
      | requests flight => exact absurd (by rwa [flights, flight]) hold
      | fails | succeeds | propagates => exact absurd (by simp_all [flights, Control.flight?]) hold
      | returns flight =>
        rw [flights, flight] at hf
        exact absurd hf hold
      | givesUp flight flight' => exact absurd (by simp_all [flights]) hold

/-- A step leaves the stamps in order, and the memos only age. The slots in flight besides are other
    slots, since the active stack lists each once. -/
theorem Next.timely {e e' : Evaluation} (h : e.Next p t w e' w')
    (hstacked : w.Stacked (e.held ++ others)) (hF : ∀ f ∈ F, f.slot ∈ others)
    (ht : w.Timely (e.flights ++ F)) : w'.Timely (e'.flights ++ F) ∧ w.Ages w' := by
  have hpersists := h.moves.persists
  have hnew := h.aloft ht
  -- a flight that lands is none of the others
  have hapart {f : Flight} {c : Control} {frames : List Frame} (hf : c.flight? = some f)
      (hnodup : (held ⟨c, frames⟩ ++ others).Nodup) :
      ∀ g ∈ frames.map Frame.flight ++ F, g.slot ≠ f.slot := by
    rw [held_eq, flights, hf] at hnodup
    intro g hg heq
    refine (List.nodup_cons.1 hnodup).1 ?_
    rw [← heq]
    rcases List.mem_append.1 hg with hg | hg
    · exact List.mem_append_left _ (List.mem_map_of_mem hg)
    · exact List.mem_append_right _ (hF g hg)
  cases h.remembers with
  | keeps memo =>
    have hstill : w.Still w' := ⟨hpersists.revision, hpersists.memoize, memo, hpersists.written⟩
    have htakesOff : w.Timely (e'.flights ++ F) := by
      refine ⟨ht.start, ht.unkept, ht.memo, ht.written, fun f hf => ?_⟩
      exact (List.mem_append.1 hf).elim (hnew f) fun hf => ht.aloft f (List.mem_append_right _ hf)
    exact ⟨htakesOff.still hstill, hstill.ages⟩
  | @confirms walk m frames w w' rest memo self others' =>
    have hmemoize : w.memoize = true := by
      by_contra hoff
      rw [ht.unkept (by simpa using hoff)] at memo
      cases memo
    exact World.Timely.land (f := ⟨walk.slot, walk.revision⟩) ht hpersists hmemoize self others' rfl
      (.inr ⟨m, memo, rfl⟩) (hapart rfl hstacked.nodup)
  | @renews a value d frames w w' uncancelled memoize memo self others' =>
    refine World.Timely.land (f := ⟨a.slot, a.revision⟩) ht hpersists memoize self others' rfl ?_
      (hapart rfl hstacked.nodup)
    rw [memo]
    exact World.changedAt_renewed d value a.revision a.deps

/-- And so does a run. -/
theorem Reaches.timely {e e' : Evaluation} (h : Reaches p t e w e' w')
    (hstacked : w.Stacked (e.held ++ others)) (hF : ∀ f ∈ F, f.slot ∈ others)
    (ht : w.Timely (e.flights ++ F)) :
    w'.Stacked (e'.held ++ others) ∧ w'.Timely (e'.flights ++ F) ∧ w.Ages w' := by
  refine h.preserves (motive := fun e' w' => w'.Stacked (e'.held ++ others) ∧
    w'.Timely (e'.flights ++ F) ∧ w.Ages w') ?_ ⟨hstacked, ht, .refl w⟩
  rintro e₁ w₁ e₂ w₂ hnext ⟨hstacked₁, ht₁, hages⟩
  obtain ⟨ht₂, hages'⟩ := hnext.timely hstacked₁ hF ht₁
  exact ⟨hnext.moves.stacked hstacked₁, ht₂, hages.trans hages'⟩

end Evaluation

/-! ## Requests -/

/-- A request writes an input. -/
def Request.Writes (request : Request) : Prop :=
  ∃ access query key value, request = .write access query key value

/-- A request drops memos. -/
def Request.Clears (request : Request) : Prop := ∃ access before, request = .clear access before

/-- The beginning of a request leaves the stamps in order. -/
theorem Request.Changes.timely {request : Request} {w w' : World} {F : List Flight}
    (h : request.Changes w w') (ht : w.Timely F) :
    w'.Timely F ∧ w.Restamps request.Writes request.Clears w' := by
  cases h with
  | rests rests => exact ⟨ht.still rests.still, .ages rests.still.ages⟩
  | @writes access query key value i v w₁ rests kind =>
    have ht₁ := ht.still rests.still
    obtain ⟨hself, hothers, hmemo⟩ := World.put_changes kind v
    have hrevision : (w₁.put i v).revision = w₁.revision + 1 := rfl
    refine ⟨⟨Nat.le_succ_of_le ht₁.start, fun hoff j => ?_, fun j m hm => ?_, fun j x hx => ?_,
      fun f hf => ?_⟩,
      .writes (i := i) (v := v) ⟨access, query, key, value, rfl⟩ ?_ hself ?_ ?_⟩
    · rw [hmemo]
      exact ht₁.unkept hoff j
    · obtain ⟨hstart, hchanged, hle⟩ := ht₁.memo j m ((hmemo j).symm.trans hm)
      exact ⟨hstart, hchanged, Nat.le_succ_of_le hle⟩
    · by_cases hj : j = i
      · subst hj
        obtain rfl := Option.some.inj (hself.symm.trans hx)
        exact ⟨Nat.le_succ_of_le ht₁.start, Nat.le_refl _⟩
      · obtain ⟨hstart, hle⟩ := ht₁.written j x ((hothers j hj).symm.trans hx)
        exact ⟨hstart, Nat.le_succ_of_le hle⟩
    · obtain ⟨hstart, hle, hstale⟩ := ht₁.aloft f hf
      exact ⟨hstart, Nat.le_succ_of_le hle, fun m hm => hstale m ((hmemo _).symm.trans hm)⟩
    · rw [hrevision, rests.revision]
    · exact fun j hj => (hothers j hj).trans (rests.written j)
    · exact fun j => (hmemo j).trans (rests.memo j)
  | clears access before =>
    exact ⟨ht.drops (w.drops_clear before), .clears ⟨access, before, rfl⟩ (w.drops_clear before)⟩

/-! ## Tasks -/

/-- The flights that a poll has left. -/
def Poll.flights : Poll → List Flight
  | .ready _ => []
  | .pending _ task => task.flights

namespace Task

variable {task : Task} {w w' : World} {F : List Flight} {others : List SlotId}

theorem held_eq (task : Task) : task.held = task.flights.map Flight.slot := by
  unfold held flights
  cases task.suspended with
  | none => rfl
  | some e => exact e.held_eq

/-- A request that begins changes nothing that is kept. -/
theorem Begins.still {e : Evaluation} (h : task.Begins p w e w') : w.Still w' := by
  rcases h with ⟨-, rfl⟩ | ⟨-, w₁, hentry, hbegin⟩
  · exact (World.Retains.refl w').still
  · have hopens := Request.opens_begin p task.request w₁
    rw [hbegin] at hopens
    cases hopens with
    | evaluates rests => exact (Access.alters_of_entry hentry).still.trans rests.still

theorem Begins.flights_subset {e : Evaluation} (h : task.Begins p w e w') :
    e.flights ⊆ task.flights := by
  rcases h with ⟨hsuspended, -⟩ | ⟨-, w₁, -, hbegin⟩
  · rw [flights, hsuspended]
    exact List.Subset.refl _
  · have hopens := Request.opens_begin p task.request w₁
    rw [hbegin] at hopens
    cases hopens with
    | evaluates => exact List.nil_subset _

theorem Begins.timely {e : Evaluation} (h : task.Begins p w e w')
    (ht : w.Timely (task.flights ++ F)) : w'.Timely (e.flights ++ F) ∧ w.Ages w' :=
  ⟨(ht.mono (List.append_subset.2 ⟨List.Subset.trans h.flights_subset (List.subset_append_left _ _),
    List.subset_append_right _ _⟩)).still h.still, h.still.ages⟩

/-- However a task is polled, the stamps stay in order. -/
theorem Course.timely {out : Poll × World} (h : Course p task w out)
    (hstacked : w.Stacked (task.held ++ others)) (hF : ∀ f ∈ F, f.slot ∈ others)
    (ht : w.Timely (task.flights ++ F)) :
    out.2.Timely (out.1.flights ++ F) ∧
      w.Restamps task.request.Writes task.request.Clears out.2 := by
  cases h with
  | waits => exact ⟨ht, .ages (.refl w)⟩
  | refused unbegun entry =>
    rw [flights, unbegun] at ht
    have hstill := (Access.alters_of_entry entry).still
    exact ⟨ht.still hstill, .ages hstill.ages⟩
  | @answered w₁ w₂ result unbegun entry opens =>
    rw [flights, unbegun] at ht
    have hstill := (Access.alters_of_entry entry).still
    have hchanges := task.request.begin_changes p w₁
    rw [opens] at hchanges
    obtain ⟨ht', hrestamps⟩ := hchanges.timely (ht.still hstill)
    have hrelease := (task.request.access.alters_release w₂).still
    exact ⟨ht'.still hrelease, (hstill.restamps hrestamps).still hrelease⟩
  | parks begins reaches =>
    obtain ⟨ht', hages⟩ := begins.timely ht
    obtain ⟨-, ht'', hages'⟩ := reaches.timely (begins.stacked hstacked) hF ht'
    exact ⟨ht'', .ages (hages.trans hages')⟩
  | @ends e w₁ w' result begins finishes =>
    obtain ⟨ht', hages⟩ := begins.timely ht
    obtain ⟨-, ht'', hages'⟩ := finishes.reaches.timely (begins.stacked hstacked) hF ht'
    have hrelease := (task.request.access.alters_release w').still
    exact ⟨ht''.still hrelease, (World.Restamps.ages (hages.trans hages')).still hrelease⟩

theorem still_drop (task : Task) (w : World) : w.Still (task.drop w) := by
  unfold drop
  split
  · exact (World.Retains.refl w).still
  · rename_i e _
    exact (w.vacates_leaveAll e.held).still.trans (task.request.access.alters_release _).still

end Task

/-! ## Sessions -/

/-- A step carries a request that writes an input. -/
def Step.Writes (s : Session) (step : Step) : Prop :=
  ∃ request name, step.Carries s request name ∧ request.Writes

/-- A step drops memos without a request. -/
def Step.ClearsDirectly : Step → Prop
  | .clearCache .. | .clearSlot .. => True
  | _ => False

/-- A step drops memos: it clears, or it carries a request that does. -/
def Step.Clears (s : Session) (step : Step) : Prop :=
  (∃ request name, step.Carries s request name ∧ request.Clears) ∨ step.ClearsDirectly

namespace Session

variable {s : Session} {limits : Limits}

/-- What is in progress is accounted for, and all stamps are in order. -/
structure Timed (p : Program) (s : Session) : Prop where
  accounted : s.Accounted p
  timely : s.world.Timely s.flights

/-- A task among what is in flight besides. -/
theorem Timed.of_get? (h : s.Timed p) {name : String} {task : Task}
    (hfound : s.tasks.get? name = some task) :
    s.world.Stacked (task.held ++ s.heldBeside name) ∧
      (∀ f ∈ s.flightsBeside name, f.slot ∈ s.heldBeside name) ∧
      s.world.Timely (task.flights ++ s.flightsBeside name) := by
  refine ⟨(h.accounted.of_get? hfound).stacked, fun f hf => ?_,
    h.timely.mono (Named.subperm_of_get? hfound Task.flights).subset⟩
  obtain ⟨entry, hentry, hf⟩ := List.mem_flatMap.1 hf
  refine List.mem_append_left _ (List.mem_flatMap.2 ⟨entry, hentry, ?_⟩)
  rw [Task.held_eq]
  exact List.mem_map_of_mem hf

/-- A task that a step can take up, among what is in flight besides. -/
theorem Timed.among (h : s.Timed p) {task : Task}
    (htask : task.suspended = none ∨ ∃ name, s.tasks.get? name = some task) :
    ∃ others F, s.world.Stacked (task.held ++ others) ∧ (∀ f ∈ F, f.slot ∈ others) ∧
      s.world.Timely (task.flights ++ F) := by
  rcases htask with hunbegun | ⟨name, hfound⟩
  · rw [Task.held, Task.flights, hunbegun]
    exact ⟨_, [], h.accounted.stacked, fun f hf => absurd hf List.not_mem_nil,
      h.timely.mono (List.nil_subset _)⟩
  · obtain ⟨hstacked, hF, ht⟩ := h.of_get? hfound
    exact ⟨_, _, hstacked, hF, ht⟩

/-- Wherever the evaluation of a task comes to, it is in flight among what is in flight besides, and all
    stamps are in order. -/
theorem Timed.reaches (h : s.Timed p) {task : Task} {e₀ e : Evaluation} {w₀ w : World}
    (htask : task.suspended = none ∨ ∃ name, s.tasks.get? name = some task)
    (hbegins : task.Begins p s.world e₀ w₀) (hreaches : Reaches p task.token e₀ w₀ e w) :
    ∃ others F, w.Stacked (e.held ++ others) ∧ (∀ f ∈ F, f.slot ∈ others) ∧
      w.Timely (e.flights ++ F) := by
  obtain ⟨others, F, hstacked, hF, ht⟩ := h.among htask
  obtain ⟨ht₀, -⟩ := hbegins.timely ht
  obtain ⟨hstacked', ht', -⟩ := hreaches.timely (hbegins.stacked hstacked) hF ht₀
  exact ⟨others, F, hstacked', hF, ht'⟩

theorem still_dropTask (s : Session) (name : String) : s.world.Still (s.dropTask name).world := by
  unfold dropTask
  split
  · exact Task.still_drop _ s.world
  · exact (World.Retains.refl s.world).still

theorem still_dropGuard (s : Session) (name : String) : s.world.Still (s.dropGuard name).world := by
  unfold dropGuard
  split
  · exact (s.world.vacates_leave _).still
  · exact (World.Retains.refl s.world).still

/-- A step polls a task, or it drops memos at most, and that only if it clears directly. Then no task is
    new but one that the step makes, which has not begun. -/
theorem Effects.aside {step : Step} {w : World} {tasks : Named Task} {guards : Named SlotId}
    (h : s.Effects p step w tasks guards) : s.Polls p step w tasks ∨
      s.world.Drops w ∧ (s.world.Still w ∨ step.ClearsDirectly) ∧
        ∀ entry ∈ tasks.entries, entry ∈ s.tasks.entries ∨
          entry.2.suspended = none ∧ ∃ name token, step = .spawn name entry.2.request token := by
  have hstill {w : World} (hstill : s.world.Still w) : s.world.Drops w ∧
      (s.world.Still w ∨ step.ClearsDirectly) ∧
        ∀ entry ∈ s.tasks.entries, entry ∈ s.tasks.entries ∨
          entry.2.suspended = none ∧ ∃ name token, step = .spawn name entry.2.request token :=
    ⟨hstill.drops, .inl hstill, fun _ hentry => .inl hentry⟩
  have herase {name : String} {entry : String × Task}
      (hentry : entry ∈ (s.tasks.erase name).entries) : entry ∈ s.tasks.entries :=
    (List.mem_filter.1 hentry).1
  cases h with
  | performs course => exact .inl (.performs course)
  | ends carries found course => exact .inl (.ends carries found course)
  | waits carries found course => exact .inl (.waits carries found course)
  | @spawns name request tokenName token =>
    have hdrop := s.still_dropTask name
    refine .inr ⟨hdrop.drops, .inl hdrop, fun entry hentry => ?_⟩
    rcases List.mem_cons.1 hentry with rfl | hentry
    · exact .inr ⟨rfl, _, _, rfl⟩
    · rw [Named.erase_of_get?_none (Named.get?_erase_self s.tasks name)] at hentry
      exact .inl (herase hentry)
  | drops name =>
    have hdrop := s.still_dropTask name
    exact .inr ⟨hdrop.drops, .inl hdrop, fun entry hentry => .inl (herase hentry)⟩
  | cancels name => exact .inr (hstill (s.world.rests_cancel _).still)
  | @enters name slot w entered =>
    have henters : s.world.Still w := by
      rcases s.world.enter_footprint slot with ⟨e, w', henter, -⟩ | ⟨w', henter, -, -, hretains⟩
      · cases henter.symm.trans entered
      · cases henter.symm.trans entered
        exact hretains.still
    exact .inr (hstill (henters.trans (still_dropGuard { s with world := w } name)))
  | @refuses name slot e w refused =>
    rcases s.world.enter_footprint slot with ⟨e', w', henter, hrests⟩ | ⟨w', henter, -⟩
    · cases henter.symm.trans refused
      exact .inr (hstill hrests.still)
    · cases henter.symm.trans refused
  | leaves name => exact .inr (hstill (s.still_dropGuard name))
  | @clearsCache query keyType valueType before w opened =>
    have hopen := (s.world.rests_openCache query keyType valueType).still
    rw [opened] at hopen
    exact .inr ⟨hopen.trans_drops (w.drops_clearCache query before), .inr trivial,
      fun _ hentry => .inl hentry⟩
  | @clearsSlot query valueType key before w opened =>
    have hopen := (s.world.rests_openCache query key.type valueType).still
    rw [opened] at hopen
    exact .inr ⟨hopen.trans_drops (w.drops_clearSlot query key before), .inr trivial,
      fun _ hentry => .inl hentry⟩
  | makes query valueType key => exact .inr (hstill (s.world.rests_inputSlot _ _ _).still)
  | opens step query keyType valueType => exact .inr (hstill (s.world.rests_openCache _ _ _).still)
  | looks step => exact .inr (hstill (World.Retains.refl s.world).still)

/-- Whatever a step does, the stamps stay in order, and they move forward unless it is a clear. -/
theorem Effects.timely {step : Step} {w : World} {tasks : Named Task} {guards : Named SlotId}
    (h : s.Effects p step w tasks guards) (hs : s.Timed p) :
    w.Timely (tasks.entries.flatMap fun entry => entry.2.flights) ∧
      s.world.Restamps (step.Writes s) (step.Clears s) w := by
  rcases h.aside with hpolls | ⟨hdrops, hclears, htasks⟩
  · cases hpolls with
    | @performs request name out course =>
      have hF : ∀ f ∈ s.flights, f.slot ∈ s.inProgress := by
        intro f hf
        obtain ⟨entry, hentry, hf⟩ := List.mem_flatMap.1 hf
        refine List.mem_append_left _ (List.mem_flatMap.2 ⟨entry, hentry, ?_⟩)
        rw [Task.held_eq]
        exact List.mem_map_of_mem hf
      have hstacked : s.world.Stacked
          (Task.held { request, token := (s.tokenFor name).1 } ++ s.inProgress) :=
        hs.accounted.stacked
      obtain ⟨ht, hrestamps⟩ := course.timely hstacked hF hs.timely
      have hcarries : Step.Carries s (.perform request name) request none := .perform request name
      replace hrestamps : s.world.Restamps (Step.Writes s (.perform request name))
          (Step.Clears s (.perform request name)) out.2 :=
        hrestamps.imp (fun hwrites => ⟨request, none, hcarries, hwrites⟩)
          fun hclears => .inl ⟨request, none, hcarries, hclears⟩
      obtain ⟨poll, w⟩ := out
      cases poll with
      | ready result => exact ⟨ht, hrestamps⟩
      | pending woken task =>
        exact ⟨(ht.mono (List.subset_append_right _ _)).still (task.still_drop w),
          hrestamps.still (task.still_drop w)⟩
    | ends carries found course | waits carries found course =>
      obtain ⟨hstacked, hF, ht⟩ := hs.of_get? found
      obtain ⟨ht', hrestamps⟩ := course.timely hstacked hF ht
      exact ⟨ht', hrestamps.imp (fun hwrites => ⟨_, _, carries, hwrites⟩)
        fun hclears => .inl ⟨_, _, carries, hclears⟩⟩
  · refine ⟨(hs.timely.drops hdrops).mono fun f hf => ?_,
      hclears.elim (fun hstill => .ages hstill.ages) fun hclears => .clears (.inr hclears) hdrops⟩
    obtain ⟨entry, hentry, hf⟩ := List.mem_flatMap.1 hf
    rcases htasks entry hentry with hbefore | ⟨hunbegun, -⟩
    · exact List.mem_flatMap.2 ⟨entry, hbefore, hf⟩
    · rw [Task.flights, hunbegun] at hf
      exact absurd hf List.not_mem_nil

theorem Timed.report (h : s.Timed p) (limits : Limits) (step : Step) :
    (s.report p limits step).2.Timed p ∧
      s.world.Restamps (step.Writes s) (step.Clears s) (s.report p limits step).2.world := by
  obtain ⟨ht, hrestamps⟩ := (effects_step (p := p) limits s step).timely h
  -- handing out the journal changes no value
  have hstill : (s.step p limits step).2.world.Still (s.report p limits step).2.world :=
    ⟨rfl, rfl, fun _ => rfl, fun _ => rfl⟩
  exact ⟨⟨h.accounted.report limits step, ht.still hstill⟩, hrestamps.still hstill⟩

theorem timed_fresh (p : Program) (memoize traced : Bool) :
    (Session.fresh memoize traced).Timed p where
  accounted := accounted_fresh p memoize traced
  timely := ⟨Nat.le_refl _, fun _ _ => rfl, fun i m hm => (by cases hm), fun i x hx => (by cases hx),
    fun f hf => absurd hf List.not_mem_nil⟩

theorem Timed.after (h : s.Timed p) (limits : Limits) (steps : List Step) :
    (s.after p limits steps).Timed p := by
  induction steps generalizing s with
  | nil => exact h
  | cons step steps ih => exact ih (h.report limits step).1

end Session

end RedGreen
