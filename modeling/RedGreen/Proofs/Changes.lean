import RedGreen.Proofs.Courses
import RedGreen.Proofs.Operations

set_option autoImplicit false

/-! # What changes the values that are kept

A memo is made in two ways only, whatever the program is: a revalidation that found no change makes
the memo valid at the revision at which it began, and a run that has ended with a value, and was not
cancelled, puts its own in the place of the old one (`Next.remembers`). An input changes by a write,
and a memo is dropped by a clear; nothing else that a request does when it begins changes a value
(`Request.begin_changes`). -/

namespace RedGreen

open Evaluation

variable {p : Program} {t : Token} {w w' : World}

/-! ## Memos -/

namespace World

/-- A derived slot holds the memo that it is given. -/
theorem memo?_setMemo_self {i : SlotId} {query : QueryId} {key : Key} {d : Derived}
    (hi : w.slots[i]? = some ⟨query, key, .derived d⟩) (m : Memo) :
    (w.setMemo i (some m)).memo? i = some m := by
  rw [System.memo?, slots_setMemo, if_pos rfl, hi]
  rfl

/-- What a memo is kept in is a derived slot. -/
theorem exists_derived_of_memo {i : SlotId} {m : Memo} (h : w.memo? i = some m) :
    ∃ query key d, w.slots[i]? = some ⟨query, key, .derived d⟩ ∧ d.memo = some m := by
  obtain ⟨⟨query, key, content⟩, hslot, hmemo⟩ := Option.bind_eq_some_iff.1 h
  cases content with
  | input written => cases hmemo
  | derived d => exact ⟨query, key, d, hslot, hmemo⟩

theorem memo_succeed (w : World) (i : SlotId) (x : Stamped) (outcome : Outcome) (j : SlotId) :
    (w.succeed i x outcome).2.memo? j = w.memo? j :=
  ((w.rests_event _).vacates (vacates_leave _ i)).memo j

/-- The memo that a revalidation leaves. -/
theorem memo_verify {walk : Walk} {m : Memo} (hm : w.memo? walk.slot = some m) :
    (w.verify walk).1 = .answer (.ok m.toStamped) ∧
      (w.verify walk).2.memo? walk.slot = some { m with verifiedAt := walk.revision } := by
  obtain ⟨query, key, d, hslot, -⟩ := exists_derived_of_memo hm
  simp only [verify, hm]
  exact ⟨rfl, (memo_succeed _ _ _ _ _).trans (memo?_setMemo_self hslot _)⟩

/-- The memo that a run leaves, unless its slot is none that keeps memos. -/
theorem memo_commit (w : World) (a : Activation) (value : Value) :
    (w.kind? a.slot ≠ some .derived ∧ ∀ i, (w.commit a value).2.memo? i = w.memo? i) ∨
    ∃ d : Derived, w.memo? a.slot = d.memo ∧
      (w.commit a value).1 = .answer (.ok (d.renewed value a.revision a.deps).toStamped) ∧
      (w.commit a value).2.memo? a.slot = some (d.renewed value a.revision a.deps) ∧
      w.kind? a.slot = some .derived := by
  unfold commit
  split
  · rename_i query key d hslot
    have hkind : w.kind? a.slot = some .derived := by rw [System.kind?, hslot]; rfl
    refine .inr ⟨d, by rw [System.memo?, hslot]; rfl, ?_⟩
    have hself := memo?_setMemo_self hslot (d.renewed value a.revision a.deps)
    simp only
    split
    · exact ⟨rfl, (memo_succeed _ _ _ _ _).trans hself, hkind⟩
    · exact ⟨rfl, (memo_succeed _ _ _ _ _).trans hself, hkind⟩
  · rename_i hnone
    refine .inl ⟨fun hkind => ?_, fun i => memo_succeed _ _ _ _ _⟩
    obtain ⟨⟨query, key, content⟩, hslot, hderived⟩ := Option.map_eq_some_iff.1 hkind
    cases content with
    | input written => cases hderived
    | derived d => exact hnone query key d hslot

/-- A value that counts as unchanged keeps the stamp of its last change. -/
theorem changedAt_renewed (d : Derived) (value : Value) (r : Revision) (deps : List SlotId) :
    (d.renewed value r deps).changedAt = r ∨
      ∃ m, d.memo = some m ∧ (d.renewed value r deps).changedAt = m.changedAt := by
  simp only [Derived.renewed]
  split
  · rename_i m hm
    split
    · exact .inr ⟨m, hm, rfl⟩
    · exact .inl rfl
  · exact .inl rfl

end World

/-! ## Steps -/

namespace Evaluation

/-- What a step does to the memos. -/
inductive Remembers (t : Token) : Evaluation → World → Evaluation → World → Prop
  | keeps {e e' : Evaluation} {w w' : World} (memo : ∀ i, w'.memo? i = w.memo? i) :
    Remembers t e w e' w'
  /-- A revalidation that found no change confirms the memo. -/
  | confirms {walk : Walk} {m : Memo} {frames : List Frame} {w w' : World} (rest : walk.rest = [])
    (memo : w.memo? walk.slot = some m)
    (self : w'.memo? walk.slot = some { m with verifiedAt := walk.revision })
    (others : ∀ j, j ≠ walk.slot → w'.memo? j = w.memo? j) :
    Remembers t ⟨.walk walk, frames⟩ w ⟨.answer (.ok m.toStamped), frames⟩ w'
  /-- A run that was not cancelled leaves its own memo. -/
  | renews {a : Activation} {value : Value} {d : Derived} {frames : List Frame} {w w' : World}
    (uncancelled : t ∉ w.cancelled) (memoize : w.memoize = true) (memo : w.memo? a.slot = d.memo)
    (self : w'.memo? a.slot = some (d.renewed value a.revision a.deps))
    (others : ∀ j, j ≠ a.slot → w'.memo? j = w.memo? j) (kind : w.kind? a.slot = some .derived) :
    Remembers t ⟨.body a (.done (.ok value)), frames⟩ w
      ⟨.answer (.ok (d.renewed value a.revision a.deps).toStamped), frames⟩ w'

/-- A revalidation that succeeds had nothing left to bring up to date. -/
theorem Next.rest_eq_nil {walk : Walk} {frames frames' : List Frame} {x : Stamped}
    (h : Next p t ⟨.walk walk, frames⟩ w ⟨.answer (.ok x), frames'⟩ w') :
    walk.rest = [] ∧ frames' = frames ∧ w.verify walk = (.answer (.ok x), w') := by
  simp only [Next, step, stepWalk] at h
  cases hrest : walk.rest with
  | nil =>
    simp only [hrest] at h
    obtain ⟨heq, rfl⟩ := eq_of_resume h
    obtain ⟨hcontrol, rfl⟩ := Evaluation.mk.inj heq
    exact ⟨rfl, rfl, Prod.ext hcontrol.symm rfl⟩
  | cons dep rest =>
    simp only [hrest] at h
    split at h
    · rcases h with h | h <;> cases h
    · obtain ⟨heq, -⟩ := eq_of_resume h
      rcases w.touched_footprint t { walk with rest } dep (w.changedAt dep) with
        ⟨e, w', htouched, -⟩ | ⟨c, w', htouched, hflight, -⟩
      · rw [htouched] at heq
        cases heq
      · rw [htouched] at heq
        cases heq
        cases hflight

/-- A body that succeeds has ended with a value. -/
theorem Next.done_of_ok {a : Activation} {body : Body} {frames frames' : List Frame} {x : Stamped}
    (h : Next p t ⟨.body a body, frames⟩ w ⟨.answer (.ok x), frames'⟩ w') :
    ∃ value, body = .done (.ok value) ∧ t ∉ w.cancelled ∧
      ((if w.memoize then w.commit a value else w.succeed a.slot ⟨value, a.revision⟩ .changed) =
        (.answer (.ok x), w')) := by
  have h : stepBody p t a body frames w = .running ⟨.answer (.ok x), frames'⟩ w' ∨
      stepBody p t a body frames w = .parked ⟨.answer (.ok x), frames'⟩ w' := h
  cases body with
  | done result =>
    obtain ⟨heq, rfl⟩ := eq_of_resume h
    obtain ⟨hcontrol, -⟩ := Evaluation.mk.inj heq
    cases result with
    | error e => cases hcontrol
    | ok value =>
      simp only [World.finish] at hcontrol ⊢
      cases hcheck : w.check t with
      | error e =>
        simp only [hcheck] at hcontrol
        split at hcontrol <;> cases hcontrol
      | ok u =>
        simp only [hcheck] at hcontrol
        exact ⟨value, rfl, World.check_eq_ok_iff.1 hcheck, Prod.ext hcontrol.symm rfl⟩
  | perform op next => rcases h with h | h <;> cases h
  | call mode label key next =>
    simp only [stepBody, stepCall] at h
    split at h <;> rcases h with h | h <;> cases h
  | yield next =>
    simp only [stepBody, stepYield] at h
    split at h <;> rcases h with h | h <;> cases h

/-- A step changes at most one memo: a revalidation confirms it, or a run renews it. -/
theorem Next.remembers {e e' : Evaluation} (h : e.Next p t w e' w') : Remembers t e w e' w' := by
  cases h.moves with
  | bounces rests | goesOn _ _ rests | requests _ rests | returns _ rests => exact .keeps rests.memo
  | enters _ _ _ retains => exact .keeps retains.memo
  | fails _ vacates | propagates vacates | givesUp _ _ vacates => exact .keeps vacates.memo
  | @succeeds f c x frames w w' flight active retains =>
    cases c with
    | fetch i => cases flight
    | answer r => cases flight
    | compute i r =>
      obtain ⟨heq, -⟩ := eq_of_resume h
      simp only [World.compute] at heq
      split at heq
      · cases heq
      · unfold World.startBody at heq
        split at heq <;> cases heq
    | walk walk =>
      obtain rfl := Option.some.inj flight
      obtain ⟨hrest, -, hverify⟩ := h.rest_eq_nil
      cases hm : w.memo? walk.slot with
      | none =>
        simp only [World.verify, hm] at hverify
        cases hverify
      | some m =>
        obtain ⟨hcontrol, hself⟩ := World.memo_verify hm
        rw [hverify] at hcontrol hself
        cases hcontrol
        exact .confirms hrest hm hself retains.memo
    | body a body =>
      obtain rfl := Option.some.inj flight
      obtain ⟨value, rfl, huncancelled, hends⟩ := h.done_of_ok
      split at hends
      · rename_i hmemoize
        rcases w.memo_commit a value with ⟨-, hsame⟩ | ⟨d, hmemo, hcontrol, hself, hkind⟩
        · rw [hends] at hsame
          exact .keeps hsame
        · rw [hends] at hcontrol hself
          cases hcontrol
          exact .renews huncancelled hmemoize hmemo hself retains.memo hkind
      · refine .keeps fun i => ?_
        rw [← w.memo_succeed a.slot ⟨value, a.revision⟩ .changed i, hends]

end Evaluation

/-! ## Requests -/

namespace World

/-- A slot that was found or made is of the kind that was asked for. -/
theorem kind?_of_slotFor {valueType : ValueType} {fresh : Slot} {i : SlotId}
    (h : w.slotFor valueType fresh = (.ok i, w')) : w'.kind? i = some fresh.kind := by
  unfold slotFor at h
  split at h
  · cases h
  · rename_i w₁ hopen
    unfold World.obtain at h
    split at h
    · split at h
      · cases h
        assumption
      · cases h
    · cases h
      show ((w₁.slots ++ [fresh])[w₁.slots.length]?).map Slot.kind = some fresh.kind
      simp

/-- What a write leaves alone. -/
theorem put_changes {i : SlotId} (hi : w.kind? i = some .input) (value : Value) :
    (w.put i value).written? i = some ⟨value, w.revision.next⟩ ∧
      (∀ j, j ≠ i → (w.put i value).written? j = w.written? j) ∧
      ∀ j, (w.put i value).memo? j = w.memo? j := by
  let stored (slot : Slot) : Slot := { slot with content := .input (some ⟨value, w.revision.next⟩) }
  have hslots (j : SlotId) : (w.put i value).slots[j]? =
      w.slots[j]?.map fun slot => if i = j then stored slot else slot := by
    show (w.slots.modify i stored)[j]? = _
    rw [List.getElem?_modify]
    split <;> simp
  obtain ⟨slot, hslot, hkind⟩ := Option.map_eq_some_iff.1 hi
  refine ⟨?_, fun j hj => ?_, fun j => ?_⟩
  · rw [System.written?, hslots, hslot]
    simp [stored, Slot.written?]
  · rw [System.written?, System.written?, hslots]
    simp [Ne.symm hj]
  · rw [System.memo?, System.memo?, hslots]
    by_cases hij : i = j
    · subst hij
      rw [hslot]
      obtain ⟨query, key, content⟩ := slot
      cases content with
      | input written => simp [stored, Slot.memo?]
      | derived d => cases hkind
    · simp [hij]

/-- What a clear leaves of the memos. -/
theorem memo?_clear (w : World) (before : Revision) (i : SlotId) :
    (w.clear before).2.memo? i = (w.memo? i).filter fun m => decide (before ≤ m.verifiedAt) := by
  show ((w.slots.map (·.clear before))[i]?).bind Slot.memo? = (w.slots[i]?.bind Slot.memo?).filter _
  rw [List.getElem?_map]
  cases w.slots[i]? with
  | none => rfl
  | some slot =>
    obtain ⟨query, key, content⟩ := slot
    cases content with
    | input written => rfl
    | derived d =>
      show (Slot.clear ⟨query, key, .derived d⟩ before).memo? = d.memo.filter _
      cases hm : d.memo with
      | none => simp [Slot.clear, Slot.isStale, Derived.isStale, Slot.memo?, hm]
      | some m =>
        rw [Option.filter_some]
        by_cases hstale : m.verifiedAt < before
        · simp [Slot.clear, Slot.isStale, Derived.isStale, Slot.setMemo, Slot.memo?, hm, hstale,
            Nat.not_le.2 hstale]
        · simp [Slot.clear, Slot.isStale, Derived.isStale, Slot.memo?, hm, hstale,
            Nat.not_lt.1 hstale]

end World

/-- What a request may do to the values that are kept, when it begins. -/
inductive Request.Changes (w : World) : Request → World → Prop
  | rests {request : Request} {w' : World} (rests : w.Rests w') : Changes w request w'
  | writes {access : Access} {query : QueryId} {key : Key} {value : Value} {i : SlotId} {v : Value}
    {w₁ : World} (rests : w.Rests w₁) (kind : w₁.kind? i = some .input) :
    Changes w (.write access query key value) (w₁.put i v)
  | clears (access : Access) (before : Revision) :
    Changes w (.clear access before) (w.clear before).2

theorem Request.begin_changes (p : Program) (request : Request) (w : World) :
    request.Changes w (request.begin p w).2 := by
  -- a request that finds or makes a slot and goes on with it
  have hofSlot {request : Request} {out : Except QueryError SlotId × World} (h : w.Rests out.2) :
      Changes w request (Begun.ofSlot out).2 := by
    obtain ⟨result, w'⟩ := out
    cases result <;> exact .rests h
  cases request with
  | write access query key value =>
    have hown := w.rests_ownCopy value
    have hslot := (w.ownCopy value).2.rests_inputSlot query (w.ownCopy value).1.type key
    show Changes w _ ((w.ownCopy value).2.write query key (w.ownCopy value).1).2
    unfold World.write
    split
    · rename_i hfound
      rw [hfound] at hslot
      exact .rests (hown.trans hslot)
    · rename_i i w₁ hfound
      rw [hfound] at hslot
      exact .writes (hown.trans hslot) (World.kind?_of_slotFor hfound)
  | read query valueType key => exact .rests (rests_inputValue w query valueType key)
  | query access label key => exact hofSlot (w.rests_derivedSlot _ _ _ _ _)
  | derive label key equality => exact hofSlot (w.rests_derivedSlot _ _ _ _ _)
  | prepare label key equality => exact .rests (w.rests_derivedSlot _ _ _ _ _)
  | touch query valueType key =>
    have hopen := w.rests_openCache query key.type valueType
    simp only [begin]
    split
    · rename_i heq
      rw [heq] at hopen
      exact .rests hopen
    · rename_i heq
      rw [heq] at hopen
      split
      · exact .rests hopen
      · split <;> exact .rests hopen
  | clear access before => exact .clears access before

end RedGreen
