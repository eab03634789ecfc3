import RedGreen.Proofs.Equalities
import RedGreen.Proofs.Turns

set_option autoImplicit false

/-! # An allocation holds one list

A body can make a list in an allocation of its own, and hand on the lists that it was given; it cannot
make up an allocation. A body that does nothing else is *honest* (`Honest`). Where all bodies are, no
two lists that are kept have the same allocation and different items, and neither does a list that a
run is about to keep beside the one before (`coherent_of_holds`).

The invariant is about everybody who has lists at hand: the system, which has those that it keeps, every
body that runs or waits for a call, and an answer that is on its way. No two of them have different
lists of one allocation (`World.Coherent`). A body may have several of one allocation that it has made
itself, since it has not decided yet; but nobody else has any of them. -/

namespace RedGreen

open Evaluation

variable {p : Program} {t : Token} {w w' : World}

/-! ## Honest bodies -/

/-- Lists that somebody has at hand: allocations with their items. -/
abbrev Lists := Nat → List Int → Prop

/-- The list that a value is, if it is one. -/
def Value.listed (v : Value) : Lists := fun n items => v = .list n items

/-- Lists that one or another has at hand. -/
def Lists.or (g g' : Lists) : Lists := fun n items => g n items ∨ g' n items

/-- The lists that a body has at hand after a reply: one that is handed over, or whichever it likes in
    an allocation that was made for it. -/
def Operation.hands : (op : Operation) → op.Reply → Lists
  | .read _ _ _, r => fun n items => r = .ok (.list n items)
  | .allocate, m => fun n _ => n = m
  | .check, _ | .cancel, _ | .revision, _ | .slot, _ => fun _ _ => False

/-- A body that ends with no list but one it has at hand. -/
inductive Honest : Lists → Body → Prop
  | done {g : Lists} {r : Except QueryError Value}
    (h : ∀ v, r = .ok v → ∀ n items, v.listed n items → g n items) : Honest g (.done r)
  | perform {g : Lists} {op : Operation} {next : op.Reply → Body}
    (h : ∀ r, Honest (g.or (op.hands r)) (next r)) : Honest g (.perform op next)
  | call {g : Lists} {mode : CallMode} {label : Label} {key : Key}
    {next : Except QueryError Value → Body} (error : ∀ e, Honest g (next (.error e)))
    (ok : ∀ v, Honest (g.or v.listed) (next (.ok v))) : Honest g (.call mode label key next)
  | yield {g : Lists} {next : Body} (h : Honest g next) : Honest g (.yield next)

/-- No list at hand. -/
def Lists.none : Lists := fun _ _ => False

/-- All bodies are honest. -/
def Program.Honest (p : Program) : Prop := ∀ label key, RedGreen.Honest .none ((p label).body key)

/-! ## Who has lists at hand -/

/-- What the frames around have at hand: each body that waits. -/
inductive FramesHold : List Frame → List Lists → Prop
  | nil : FramesHold [] []
  | touching {walk : Walk} {dep : SlotId} {frames : List Frame} {P : List Lists}
    (outer : FramesHold frames P) : FramesHold (.touching walk dep :: frames) P
  | calling {a : Activation} {mode : CallMode} {callee : SlotId}
    {next : Except QueryError Value → Body} {frames : List Frame} {g : Lists} {P : List Lists}
    (error : ∀ e, Honest g (next (.error e))) (ok : ∀ v, Honest (g.or v.listed) (next (.ok v)))
    (outer : FramesHold frames P) : FramesHold (.calling ⟨a, mode, callee, next⟩ :: frames) (g :: P)

/-- What an evaluation has at hand, the innermost first. -/
inductive Evaluation.Holds : Evaluation → List Lists → Prop
  | fetch {i : SlotId} {frames : List Frame} {P : List Lists} (outer : FramesHold frames P) :
    Holds ⟨.fetch i, frames⟩ P
  | walk {walk : Walk} {frames : List Frame} {P : List Lists} (outer : FramesHold frames P) :
    Holds ⟨.walk walk, frames⟩ P
  | compute {i : SlotId} {r : Revision} {frames : List Frame} {P : List Lists}
    (outer : FramesHold frames P) : Holds ⟨.compute i r, frames⟩ P
  | body {a : Activation} {b : Body} {frames : List Frame} {g : Lists} {P : List Lists}
    (honest : Honest g b) (outer : FramesHold frames P) : Holds ⟨.body a b, frames⟩ (g :: P)
  | error {e : QueryError} {frames : List Frame} {P : List Lists} (outer : FramesHold frames P) :
    Holds ⟨.answer (.error e), frames⟩ P
  | value {x : Stamped} {frames : List Frame} {P : List Lists} (outer : FramesHold frames P) :
    Holds ⟨.answer (.ok x), frames⟩ (x.value.listed :: P)

/-- Frames further out hold what is left. -/
theorem FramesHold.append {inside outside : List Frame} {P : List Lists}
    (h : FramesHold (inside ++ outside) P) : ∃ P', FramesHold outside P' ∧ List.Sublist P' P := by
  induction inside generalizing P with
  | nil => exact ⟨P, h, .refl P⟩
  | cons frame inside ih =>
    cases h with
    | touching outer => exact ih outer
    | calling _ _ outer =>
      obtain ⟨P', h', hsub⟩ := ih outer
      exact ⟨P', h', hsub.cons _⟩

/-! ## Coherence -/

/-- Two do not have different lists of one allocation. -/
def Lists.Agrees (g g' : Lists) : Prop := ∀ n items items', g n items → g' n items' → items = items'

theorem Value.agrees_listed (v : Value) : v.listed.Agrees v.listed := by
  rintro n items items' rfl h
  exact (Value.list.inj h).2

namespace World

/-- The lists that a world keeps. -/
def Stores (w : World) : Lists := fun n items =>
  ∃ i, (∃ m, w.memo? i = some m ∧ m.value.listed n items) ∨
    ∃ x, w.written? i = some x ∧ x.value.listed n items

/-- An allocation holds one list, whoever has it at hand, and all have been made. -/
structure Coherent (w : World) (P : List Lists) : Prop where
  stored : w.Stores.Agrees w.Stores
  apart : (w.Stores :: P).Pairwise Lists.Agrees
  allocated : ∀ g ∈ w.Stores :: P, ∀ n items, g n items → n < w.allocations

namespace Coherent

variable {g g' : Lists} {P P' : List Lists}

/-- What matters of the world is what it keeps, and that no allocation is undone. -/
theorem of_stores (h : w.Coherent P) (hstores : ∀ n items, w'.Stores n items → w.Stores n items)
    (hle : w.allocations ≤ w'.allocations) : w'.Coherent P where
  stored n items items' hn hn' := h.stored n items items' (hstores _ _ hn) (hstores _ _ hn')
  apart := by
    obtain ⟨hstored, hrest⟩ := List.pairwise_cons.1 h.apart
    exact List.pairwise_cons.2
      ⟨fun g hg n items items' hn => hstored g hg n items items' (hstores _ _ hn), hrest⟩
  allocated g hg n items hn := by
    refine Nat.lt_of_lt_of_le ?_ hle
    rcases List.mem_cons.1 hg with rfl | hg
    · exact h.allocated _ List.mem_cons_self n items (hstores _ _ hn)
    · exact h.allocated g (List.mem_cons_of_mem _ hg) n items hn

theorem sublist (h : w.Coherent P) (hsub : List.Sublist P' P) : w.Coherent P' where
  stored := h.stored
  apart := h.apart.sublist (hsub.cons_cons _)
  allocated g hg := h.allocated g ((hsub.cons_cons _).subset hg)

/-- Somebody has fewer lists at hand, or others that fit as well. -/
theorem replace (h : w.Coherent (g :: P)) (hstored : w.Stores.Agrees g')
    (hagrees : ∀ g₁ ∈ P, g'.Agrees g₁) (hallocated : ∀ n items, g' n items → n < w.allocations) :
    w.Coherent (g' :: P) where
  stored := h.stored
  apart := by
    obtain ⟨hrest, hpairs⟩ := List.pairwise_cons.1 h.apart
    refine List.pairwise_cons.2 ⟨fun g₁ hg₁ => ?_, List.pairwise_cons.2
      ⟨hagrees, (List.pairwise_cons.1 hpairs).2⟩⟩
    rcases List.mem_cons.1 hg₁ with rfl | hg₁
    · exact hstored
    · exact hrest g₁ (List.mem_cons_of_mem _ hg₁)
  allocated g₁ hg₁ := by
    rcases List.mem_cons.1 hg₁ with rfl | hg₁
    · exact h.allocated _ List.mem_cons_self
    · rcases List.mem_cons.1 hg₁ with rfl | hg₁
      · exact hallocated
      · exact h.allocated g₁ (List.mem_cons_of_mem _ (List.mem_cons_of_mem _ hg₁))

theorem head (h : w.Coherent (g :: P)) :
    w.Stores.Agrees g ∧ (∀ g₁ ∈ P, g.Agrees g₁) ∧ ∀ n items, g n items → n < w.allocations := by
  obtain ⟨hrest, hpairs⟩ := List.pairwise_cons.1 h.apart
  exact ⟨hrest g List.mem_cons_self, (List.pairwise_cons.1 hpairs).1,
    h.allocated g (List.mem_cons_of_mem _ List.mem_cons_self)⟩

theorem mono (h : w.Coherent (g :: P)) (hsub : ∀ n items, g' n items → g n items) :
    w.Coherent (g' :: P) := by
  obtain ⟨hstored, hagrees, hallocated⟩ := h.head
  exact h.replace (fun n items items' hn hg => hstored n items items' hn (hsub _ _ hg))
    (fun g₁ hg₁ n items items' hg => hagrees g₁ hg₁ n items items' (hsub _ _ hg))
    fun n items hg => hallocated n items (hsub _ _ hg)

/-- What is kept can be handed to somebody else. -/
theorem cons (h : w.Coherent P) (hsub : ∀ n items, g n items → w.Stores n items) :
    w.Coherent (g :: P) where
  stored := h.stored
  apart := by
    obtain ⟨hrest, hpairs⟩ := List.pairwise_cons.1 h.apart
    refine List.pairwise_cons.2 ⟨fun g₁ hg₁ => ?_, List.pairwise_cons.2
      ⟨fun g₁ hg₁ n items items' hg => hrest g₁ hg₁ n items items' (hsub _ _ hg), hpairs⟩⟩
    rcases List.mem_cons.1 hg₁ with rfl | hg₁
    · exact fun n items items' hn hg => h.stored n items items' hn (hsub _ _ hg)
    · exact hrest g₁ hg₁
  allocated g₁ hg₁ n items hn := by
    rcases List.mem_cons.1 hg₁ with rfl | hg₁
    · exact h.allocated _ List.mem_cons_self n items hn
    · rcases List.mem_cons.1 hg₁ with rfl | hg₁
      · exact h.allocated _ List.mem_cons_self n items (hsub _ _ hn)
      · exact h.allocated g₁ (List.mem_cons_of_mem _ hg₁) n items hn

/-- One hands over to the next. -/
theorem merge (h : w.Coherent (g :: g' :: P)) : w.Coherent (g'.or g :: P) := by
  obtain ⟨hstored, hagrees, hallocated⟩ := h.head
  have h' := h.sublist (List.sublist_cons_self g (g' :: P))
  obtain ⟨hstored', hagrees', hallocated'⟩ := h'.head
  refine h'.replace (fun n items items' hn hor => ?_) (fun g₁ hg₁ n items items' hor hg => ?_)
    fun n items hor => ?_
  · exact hor.elim (hstored' n items items' hn) (hstored n items items' hn)
  · exact hor.elim (fun h => hagrees' g₁ hg₁ n items items' h hg)
      fun h => hagrees g₁ (List.mem_cons_of_mem _ hg₁) n items items' h hg
  · exact hor.elim (hallocated' n items) (hallocated n items)

/-- A new allocation is at the hand of one. -/
theorem allocates (h : w.Coherent (g :: P)) (hstores : ∀ n items, w'.Stores n items → w.Stores n items)
    (hallocations : w'.allocations = w.allocations + 1) :
    w'.Coherent (g.or (fun n _ => n = w.allocations) :: P) := by
  have h' := h.of_stores hstores (by omega)
  obtain ⟨hstored, hagrees, hallocated⟩ := h'.head
  have hfresh {g₁ : Lists} (hg₁ : g₁ ∈ w.Stores :: g :: P) {items : List Int} :
      ¬g₁ w.allocations items :=
    fun hn => Nat.lt_irrefl _ (h.allocated g₁ hg₁ _ items hn)
  refine h'.replace (fun n items items' hn hor => ?_) (fun g₁ hg₁ n items items' hor hg => ?_)
    fun n items hor => ?_
  · rcases hor with hg | rfl
    · exact hstored n items items' hn hg
    · exact absurd (hstores _ _ hn) (hfresh List.mem_cons_self)
  · rcases hor with h | rfl
    · exact hagrees g₁ hg₁ n items items' h hg
    · exact absurd hg (hfresh (List.mem_cons_of_mem _ (List.mem_cons_of_mem _ hg₁)))
  · rcases hor with hg | rfl
    · exact hallocated n items hg
    · omega

/-- A value is kept. -/
theorem keeps {v : Value} (h : w.Coherent (v.listed :: P))
    (hstores : ∀ n items, w'.Stores n items → w.Stores n items ∨ v.listed n items)
    (hle : w.allocations ≤ w'.allocations) : w'.Coherent (v.listed :: P) := by
  obtain ⟨hstored, hagrees, hallocated⟩ := h.head
  have hrest := (List.pairwise_cons.1 h.apart).1
  refine ⟨fun n items items' hn hn' => ?_, List.pairwise_cons.2 ⟨fun g hg n items items' hn hn' => ?_,
    (List.pairwise_cons.1 h.apart).2⟩, fun g hg n items hn => ?_⟩
  · rcases hstores _ _ hn with hn | hn <;> rcases hstores _ _ hn' with hn' | hn'
    · exact h.stored n items items' hn hn'
    · exact hstored n items items' hn hn'
    · exact (hstored n items' items hn' hn).symm
    · exact v.agrees_listed n items items' hn hn'
  · rcases hstores _ _ hn with hn | hn
    · exact hrest g hg n items items' hn hn'
    · rcases List.mem_cons.1 hg with rfl | hg
      · exact v.agrees_listed n items items' hn hn'
      · exact hagrees g hg n items items' hn hn'
  · refine Nat.lt_of_lt_of_le ?_ hle
    rcases List.mem_cons.1 hg with rfl | hg
    · rcases hstores _ _ hn with hn | hn
      · exact h.allocated _ List.mem_cons_self n items hn
      · exact hallocated n items hn
    · exact h.allocated g (List.mem_cons_of_mem _ hg) n items hn

end Coherent

/-! ## What steps do with what is kept -/

theorem allocations_le_of_edits (h : w.Edits p w') : w.allocations ≤ w'.allocations := by
  refine h.preserves (motive := fun w' => w.allocations ≤ w'.allocations) (fun w₁ w₂ hedit hle => ?_)
    (Nat.le_refl _)
  cases hedit with
  | allocates => exact Nat.le_succ_of_le hle
  | notes | opens | grows | revises | issues | cancels | enters | leaves | locks => exact hle

theorem Retains.stores (h : w.Retains w') {n : Nat} {items : List Int} (hn : w'.Stores n items) :
    w.Stores n items := by
  obtain ⟨i, ⟨m, hm, hlisted⟩ | ⟨x, hx, hlisted⟩⟩ := hn
  · exact ⟨i, .inl ⟨m, (h.memo i).symm.trans hm, hlisted⟩⟩
  · exact ⟨i, .inr ⟨x, (h.written i).symm.trans hx, hlisted⟩⟩

/-- The value of a new memo is all that is kept besides. -/
theorem RetainsBut.stores {i : SlotId} {v : Value} (h : w.RetainsBut i w')
    (hself : ∀ m, w'.memo? i = some m → m.value = v) {n : Nat} {items : List Int}
    (hn : w'.Stores n items) : w.Stores n items ∨ v.listed n items := by
  obtain ⟨j, ⟨m, hm, hlisted⟩ | ⟨x, hx, hlisted⟩⟩ := hn
  · by_cases hj : j = i
    · subst hj
      exact .inr (hself m hm ▸ hlisted)
    · exact .inl ⟨j, .inl ⟨m, (h.memo j hj).symm.trans hm, hlisted⟩⟩
  · exact .inl ⟨j, .inr ⟨x, (h.written j).symm.trans hx, hlisted⟩⟩

theorem Coherent.retains {P : List Lists} (h : w.Coherent P) (hretains : w.Retains w')
    (hedits : w.Edits p w') : w'.Coherent P :=
  h.of_stores (fun _ _ => hretains.stores) (allocations_le_of_edits hedits)

theorem retains_fail (w : World) (i : SlotId) (e : QueryError) : w.Retains (w.fail i e).2 :=
  (((w.rests_log _).trans (rests_event _ _)).vacates (vacates_leave _ _)).toRetains

theorem retains_succeed (w : World) (i : SlotId) (x : Stamped) (outcome : Outcome) :
    w.Retains (w.succeed i x outcome).2 := ((w.rests_event _).vacates (vacates_leave _ _)).toRetains

theorem retains_fetch (w : World) (p : Program) (t : Token) (i : SlotId) :
    w.Retains (w.fetch p t i).2 := by
  have hstarts := w.starts_fetch p t i
  generalize w.fetch p t i = out at hstarts
  cases hstarts with
  | answers rests => exact rests.toRetains
  | enters _ _ _ retains => exact retains

theorem retains_compute (w : World) (p : Program) (t : Token) (i : SlotId) (r : Revision) :
    w.Retains (w.compute p t i r).2 := by
  unfold compute
  split
  · exact w.retains_fail i _
  · obtain ⟨b, w', hstart, hrests⟩ :=
      (w.log (.recompute (w.info i) r)).startBody_footprint p i r
    rw [hstart]
    exact ((w.rests_log _).trans hrests).toRetains

theorem retains_touched (w : World) (t : Token) (walk : Walk) (dep : SlotId) (changedAt : Revision) :
    w.Retains (w.touched t walk dep changedAt).2 := by
  rcases w.touched_footprint t walk dep changedAt with
    ⟨e, w', htouched, hvacates⟩ | ⟨c, w', htouched, -, hrests⟩
  · rw [htouched]
    exact hvacates.toRetains
  · rw [htouched]
    exact hrests.toRetains

/-! ## Controls that bring nothing new -/

/-- What happens next brings no list that is not kept. -/
inductive Modest (w : World) : Control → Prop
  | walk (walk : Walk) : Modest w (.walk walk)
  | compute (i : SlotId) (r : Revision) : Modest w (.compute i r)
  | body {a : Activation} {b : Body} (honest : Honest .none b) : Modest w (.body a b)
  | error (e : QueryError) : Modest w (.answer (.error e))
  | value {x : Stamped} (stored : ∀ n items, x.value.listed n items → w.Stores n items) :
    Modest w (.answer (.ok x))

theorem Modest.holds {c : Control} (hc : w.Modest c) {frames : List Frame} {P : List Lists}
    (h : w.Coherent P) (houter : FramesHold frames P) :
    ∃ P', Evaluation.Holds ⟨c, frames⟩ P' ∧ w.Coherent P' := by
  cases hc with
  | walk walk => exact ⟨P, .walk houter, h⟩
  | compute i r => exact ⟨P, .compute houter, h⟩
  | body honest => exact ⟨_, .body honest houter, h.cons fun _ _ hg => hg.elim⟩
  | error e => exact ⟨P, .error houter, h⟩
  | value stored => exact ⟨_, .value houter, h.cons stored⟩

/-- What a memo holds is kept. -/
theorem stores_of_memo {i : SlotId} {m : Memo} (hm : w.memo? i = some m) (n : Nat) (items : List Int)
    (hlisted : m.value.listed n items) : w.Stores n items := ⟨i, .inl ⟨m, hm, hlisted⟩⟩

theorem modest_startBody (hp : p.Honest) (w w' : World) (i : SlotId) (r : Revision) :
    w'.Modest (w.startBody p i r).1 := by
  obtain ⟨b, hbody, hstarts⟩ := w.startBody_turns p i r
  rw [hbody]
  rcases hstarts with ⟨slot, d, -, -, rfl⟩ | ⟨e, rfl⟩
  · exact .body (hp _ _)
  · exact .body (.done nofun)

theorem modest_fetch (hp : p.Honest) (w : World) (t : Token) (i : SlotId) :
    (w.fetch p t i).2.Modest (w.fetch p t i).1 := by
  have hretains := w.retains_fetch p t i
  have hstart (c : Control) (w' : World) (hc : w'.Modest c) : w'.Modest (w.start i c).1 := by
    unfold start
    split
    · exact .error _
    · exact hc
  generalize hw' : (w.fetch p t i).2 = w' at hretains
  unfold fetch at hw' ⊢
  split
  · unfold beginMemoized
    split
    · rename_i m hmemo
      split
      · exact .value (stores_of_memo ((hretains.memo i).trans hmemo))
      · exact hstart _ _ (.walk _)
    · exact hstart _ _ (.compute _ _)
  · unfold beginUncached
    split
    · exact .error _
    · split
      · exact .error _
      · exact modest_startBody hp _ _ _ _

theorem modest_compute (hp : p.Honest) (w w' : World) (t : Token) (i : SlotId) (r : Revision) :
    w'.Modest (w.compute p t i r).1 := by
  unfold compute
  split
  · exact .error _
  · exact modest_startBody hp _ _ _ _

theorem modest_touched (w w' : World) (t : Token) (walk : Walk) (dep : SlotId) (changedAt : Revision) :
    w'.Modest (w.touched t walk dep changedAt).1 := by
  unfold touched
  split
  · exact .error _
  · split
    · exact .compute _ _
    · exact .walk _

/-- A memo that is confirmed keeps its value. -/
theorem Coherent.verify (p : Program) {P : List Lists} (h : w.Coherent P) (walk : Walk) :
    (w.verify walk).2.Modest (w.verify walk).1 ∧ (w.verify walk).2.Coherent P := by
  cases hm : w.memo? walk.slot with
  | none =>
    have hverify : w.verify walk = (.compute walk.slot walk.revision, w) := by
      simp only [World.verify, hm]
    rw [hverify]
    exact ⟨.compute _ _, h⟩
  | some m =>
    obtain ⟨hcontrol, hself⟩ := memo_verify hm
    have hsettles := w.settles_verify walk
    have hle := allocations_le_of_edits (w.edits_verify (p := p) walk)
    generalize w.verify walk = out at hcontrol hself hsettles hle
    obtain ⟨c, w'⟩ := out
    obtain rfl : c = .answer (.ok m.toStamped) := hcontrol
    cases hsettles with
    | goesOn flight => cases flight
    | succeeds _ retains =>
      refine ⟨.value fun n items => stores_of_memo hself n items, h.of_stores (fun n items hn => ?_) hle⟩
      refine (retains.stores (fun m' hm' => ?_) hn).elim id (stores_of_memo hm n items)
      rw [← Option.some.inj (hself.symm.trans hm')]

/-! ## The end of a run -/

theorem Coherent.commit (p : Program) {v : Value} {P : List Lists} (h : w.Coherent (v.listed :: P))
    (a : Activation) : ∃ x : Stamped, (w.commit a v).1 = .answer (.ok x) ∧ x.value = v ∧
      (w.commit a v).2.Coherent (v.listed :: P) := by
  unfold World.commit
  split
  · rename_i query key d hslot
    have hkept : (w.setMemo a.slot (some (d.renewed v a.revision a.deps))).Coherent
        (v.listed :: P) := by
      refine h.keeps (fun n items hn => ?_) (allocations_le_of_edits (w.edits_setMemo (p := p) _ _))
      refine (w.retainsBut_setMemo a.slot _).stores (fun m hm => ?_) hn
      rw [memo?_setMemo_self hslot] at hm
      exact (congrArg (fun m : Memo => m.value) (Option.some.inj hm)).symm
    simp only
    split
    · exact ⟨_, rfl, rfl, (hkept.retains (rests_log _ _).toRetains (edits_log (p := p) _ rfl)).retains
        (retains_succeed _ _ _ _) (edits_succeed (p := p) _ _ _ _)⟩
    · exact ⟨_, rfl, rfl, hkept.retains (retains_succeed _ _ _ _) (edits_succeed (p := p) _ _ _ _)⟩
  · exact ⟨_, rfl, rfl, h.retains (w.retains_succeed _ _ _) (w.edits_succeed (p := p) _ _ _)⟩

/-- A run ends with a list that it has at hand. If it is kept, it does not contradict the one before. -/
theorem Coherent.finish (p : Program) {g : Lists} {P : List Lists} (h : w.Coherent (g :: P))
    (t : Token) (a : Activation) {result : Except QueryError Value} (honest : Honest g (.done result))
    {frames : List Frame} (houter : FramesHold frames P) :
    ∃ P', Evaluation.Holds ⟨(w.finish t a result).1, frames⟩ P' ∧ (w.finish t a result).2.Coherent P' := by
  have hrest : w.Coherent P := h.sublist (List.sublist_cons_self g P)
  have hfail (e : QueryError) : ∃ P', Evaluation.Holds ⟨(w.fail a.slot e).1, frames⟩ P' ∧
      (w.fail a.slot e).2.Coherent P' :=
    ⟨P, .error houter, hrest.retains (w.retains_fail a.slot e) (w.edits_fail (p := p) a.slot e)⟩
  unfold World.finish
  cases result with
  | error e => exact hfail e
  | ok v =>
    have hv : w.Coherent (v.listed :: P) := by
      cases honest with
      | done hlisted => exact h.mono fun n items => hlisted v rfl n items
    simp only
    split
    · split
      · exact hfail _
      · exact ⟨P, .error houter, hrest.retains (w.vacates_leave a.slot).toRetains
          (w.edits_leave (p := p) a.slot)⟩
    · split
      · obtain ⟨x, hanswer, hx, hcoherent⟩ := hv.commit p a
        rw [hanswer, ← hx]
        exact ⟨_, .value houter, hx ▸ hcoherent⟩
      · exact ⟨_, .value houter, hv.retains (w.retains_succeed a.slot _ _)
          (w.edits_succeed (p := p) a.slot _ _)⟩

/-! ## Operations of bodies -/

/-- What is read is written. -/
theorem written_of_read {a : Activation} {query : QueryId} {valueType : ValueType} {key : Key} {v : Value}
    (h : (w.read t a query valueType key).1 = .ok v) :
    ∃ i x, (w.read t a query valueType key).2.2.written? i = some x ∧ x.value = v := by
  unfold World.read at h ⊢
  split at h
  · cases h
  · rename_i dep w₁ hfound
    simp only at h ⊢
    split at h
    · cases h
    · rename_i x hwritten
      refine ⟨dep, x, hwritten, ?_⟩
      cases hcheck : (w₁.record a dep).2.check t with
      | error e =>
        rw [hcheck] at h
        cases h
      | ok u =>
        rw [hcheck] at h
        exact Except.ok.inj h

/-- What an operation hands over is kept, or has just been made. -/
theorem Coherent.perform (p : Program) {g : Lists} {P : List Lists} (h : w.Coherent (g :: P)) (t : Token)
    (a : Activation) (op : Operation) :
    (w.perform t a op).2.2.Coherent (g.or (op.hands (w.perform t a op).1) :: P) := by
  have hrests := (w.perform_footprint t a op).2.2
  have hedits := w.edits_perform (p := p) t a op
  have hafter := h.retains hrests.toRetains hedits
  have hnothing (hands : ∀ n items, ¬op.hands (w.perform t a op).1 n items) :
      (w.perform t a op).2.2.Coherent (g.or (op.hands (w.perform t a op).1) :: P) :=
    hafter.mono fun n items hor => hor.resolve_right (hands n items)
  cases op with
  | read query valueType key =>
    -- a list that was read is kept by the input
    refine (hafter.cons (g := Operation.hands (.read query valueType key)
      (w.perform t a (.read query valueType key)).1) fun n items hn => ?_).merge
    obtain ⟨dep, x, hwritten, hvalue⟩ := written_of_read hn
    exact ⟨dep, .inr ⟨x, hwritten, hvalue⟩⟩
  | allocate => exact h.allocates (fun n items hn => hrests.toRetains.stores hn) rfl
  | check | cancel | revision | slot => exact hnothing fun _ _ => id

end World

/-! ## Steps -/

namespace Evaluation

theorem holds_stepBody {a : Activation} {body : Body} {frames : List Frame}
    {e' : Evaluation} (hnext : stepBody p t a body frames w = .running e' w' ∨
      stepBody p t a body frames w = .parked e' w') {g : Lists} {P : List Lists}
    (honest : Honest g body) (houter : FramesHold frames P) (h : w.Coherent (g :: P)) :
    ∃ P', e'.Holds P' ∧ w'.Coherent P' := by
  cases body with
  | done result =>
    obtain ⟨rfl, rfl⟩ := eq_of_resume hnext
    exact h.finish p t a honest houter
  | perform op next =>
    simp only [stepBody, Progress.running.injEq, reduceCtorEq, or_false] at hnext
    obtain ⟨rfl, rfl⟩ := hnext
    cases honest with
    | perform honest => exact ⟨_, .body (honest _) houter, h.perform p t a op⟩
  | call mode label key next =>
    cases honest with
    | call error ok =>
      have hrests := w.rests_derivedSlot (p label).id (p label).valueType key label (p label).equality
      have hedits : w.Edits p (w.derivedSlot (p label).id (p label).valueType key label
        (p label).equality).2 := w.edits_derivedSlot label key _
      simp only [stepBody, stepCall] at hnext
      generalize w.derivedSlot (p label).id (p label).valueType key label (p label).equality = found
        at hnext hrests hedits
      obtain ⟨found, w₁⟩ := found
      have h₁ := h.retains hrests.toRetains hedits
      cases found with
      | error e =>
        simp only [Progress.running.injEq, reduceCtorEq, or_false] at hnext
        obtain ⟨rfl, rfl⟩ := hnext
        exact ⟨_, .body (error e) houter, h₁⟩
      | ok callee =>
        simp only [Progress.running.injEq, reduceCtorEq, or_false] at hnext
        obtain ⟨rfl, rfl⟩ := hnext
        exact ⟨_, .fetch (.calling error ok houter), h₁.retains
          (w₁.record_footprint a callee).2.toRetains (w₁.edits_record (p := p) a callee)⟩
  | yield next =>
    cases honest with
    | yield honest =>
      simp only [stepBody, stepYield] at hnext
      split at hnext
      · simp only [Progress.parked.injEq, reduceCtorEq, false_or] at hnext
        obtain ⟨rfl, rfl⟩ := hnext
        exact ⟨_, .body honest houter, h⟩
      · rename_i inside caller outside hsplit
        simp only [Progress.running.injEq, reduceCtorEq, or_false] at hnext
        obtain ⟨rfl, rfl⟩ := hnext
        obtain ⟨rfl, -⟩ := eq_append_of_splitAtImmediate hsplit
        obtain ⟨P', houter', hsub⟩ := houter.append
        have h' := (h.sublist (hsub.cons g)).retains (w.vacates_leaveAll _).toRetains
          (w.edits_leaveAll (p := p) (a.slot :: inside.map Frame.slot))
        cases houter' with
        | calling error ok outer => exact ⟨_, .body (error _) outer, h'⟩

/-- A step of honest bodies keeps allocations apart. -/
theorem Next.coherent (hp : p.Honest) {e e' : Evaluation} (hnext : e.Next p t w e' w') {P : List Lists}
    (hholds : e.Holds P) (h : w.Coherent P) : ∃ P', e'.Holds P' ∧ w'.Coherent P' := by
  cases hholds with
  | @fetch i frames P outer =>
    obtain ⟨rfl, rfl⟩ := eq_of_resume hnext
    exact (World.modest_fetch hp w t i).holds
      (h.retains (w.retains_fetch p t i) (w.edits_fetch p t i)) outer
  | @walk walk frames P outer =>
    have hnext : stepWalk t walk frames w = .running e' w' ∨ stepWalk t walk frames w = .parked e' w' :=
      hnext
    unfold stepWalk at hnext
    split at hnext
    · obtain ⟨rfl, rfl⟩ := eq_of_resume hnext
      obtain ⟨hmodest, hcoherent⟩ := h.verify p walk
      exact hmodest.holds hcoherent outer
    · rename_i dep rest hrest
      simp only at hnext
      split at hnext
      · simp only [Progress.running.injEq, reduceCtorEq, or_false] at hnext
        obtain ⟨rfl, rfl⟩ := hnext
        exact ⟨P, .fetch (.touching outer), h⟩
      · obtain ⟨rfl, rfl⟩ := eq_of_resume hnext
        exact (World.modest_touched w _ t { walk with rest } dep _).holds
          (h.retains (w.retains_touched t _ dep _) (w.edits_touched (p := p) t _ dep _)) outer
  | @compute i r frames P outer =>
    obtain ⟨rfl, rfl⟩ := eq_of_resume hnext
    exact (World.modest_compute hp w _ t i r).holds
      (h.retains (w.retains_compute p t i r) (w.edits_compute p t i r)) outer
  | body honest outer => exact holds_stepBody hnext honest outer h
  | @error e frames P outer =>
    cases outer with
    | nil => rcases hnext with hnext | hnext <;> cases hnext
    | @touching walk dep frames P outer =>
      obtain ⟨rfl, rfl⟩ := eq_of_resume hnext
      exact ⟨P, .error outer, h.retains (w.retains_fail _ _) (w.edits_fail (p := p) _ _)⟩
    | calling error ok outer =>
      rcases hnext with hnext | hnext <;> cases hnext
      exact ⟨_, .body (error e) outer, h⟩
  | @value x frames P outer =>
    cases outer with
    | nil => rcases hnext with hnext | hnext <;> cases hnext
    | @touching walk dep frames P outer =>
      obtain ⟨rfl, rfl⟩ := eq_of_resume hnext
      exact (World.modest_touched w _ t walk dep _).holds
        ((h.sublist (List.sublist_cons_self _ P)).retains (w.retains_touched t _ dep _)
          (w.edits_touched (p := p) t _ dep _)) outer
    | @calling a mode callee next frames g P error ok outer =>
      rcases hnext with hnext | hnext <;> cases hnext
      cases hcheck : w.check t with
      | error e => exact ⟨_, .body (error e) outer, h.sublist (List.sublist_cons_self _ _)⟩
      | ok u => exact ⟨_, .body (ok x.value) outer, h.merge⟩

/-- A run that is about to be kept does not contradict what was kept before. -/
theorem coherent_of_holds {a : Activation} {v : Value} {frames : List Frame} {P : List Lists}
    (hholds : Holds ⟨.body a (.done (.ok v)), frames⟩ P) (h : w.Coherent P) {m : Memo}
    (hm : w.memo? a.slot = some m) : m.value.Coherent v := by
  cases hholds with
  | body honest outer =>
    cases honest with
    | done hlisted =>
      have hagrees := h.head.1
      generalize hvalue : m.value = old
      cases old with
      | list n items =>
        cases v with
        | list k items' =>
          rintro rfl
          exact hagrees n items items' (World.stores_of_memo hm n items hvalue)
            (hlisted _ rfl n items' rfl)
        | int | str | bool | float | res => trivial
      | int | str | bool | float | res => trivial

end Evaluation

/-! ## Requests -/

namespace World

/-- Some of what was kept may be gone. -/
theorem Coherent.drops {P : List Lists} (h : w.Coherent P)
    (hmemo : ∀ i m, w'.memo? i = some m → w.memo? i = some m)
    (hwritten : ∀ i, w'.written? i = w.written? i) (hle : w.allocations ≤ w'.allocations) :
    w'.Coherent P := by
  refine h.of_stores (fun n items hn => ?_) hle
  obtain ⟨i, ⟨m, hm, hlisted⟩ | ⟨x, hx, hlisted⟩⟩ := hn
  · exact ⟨i, .inl ⟨m, hmemo i m hm, hlisted⟩⟩
  · exact ⟨i, .inr ⟨x, (hwritten i).symm.trans hx, hlisted⟩⟩

theorem Clears.coherent {before : Revision} (hclears : w.Clears before w') {P : List Lists}
    (h : w.Coherent P) (hle : w.allocations ≤ w'.allocations) : w'.Coherent P := by
  refine h.drops (fun i m hm => ?_) hclears.written hle
  rcases hclears.memo i with hsame | ⟨hnone, -⟩
  · exact hsame.symm.trans hm
  · rw [hnone] at hm
    cases hm

/-- Whoever makes a copy of a list has it at hand, and nobody else has a list there. -/
theorem Coherent.ownCopy {P : List Lists} (h : w.Coherent P) (v : Value) :
    (w.ownCopy v).2.Coherent ((w.ownCopy v).1.listed :: P) := by
  have hnone : w.Coherent (.none :: P) := h.cons fun _ _ => False.elim
  cases v with
  | list n items =>
    have hcopy : (w.ownCopy (.list n items)).2.Coherent
        (Lists.or .none (fun n _ => n = w.allocations) :: P) :=
      hnone.allocates (fun n items => w.rests_allocate.toRetains.stores) rfl
    exact hcopy.mono fun n items hlisted => .inr (Value.list.inj hlisted).1.symm
  | int | str | bool | float | res => exact hnone.mono nofun

/-- A copy is written, and nothing else is. -/
theorem Coherent.write (p : Program) {P : List Lists} (h : w.Coherent P) (query : QueryId) (key : Key)
    (value : Value) : ((w.ownCopy value).2.write query key (w.ownCopy value).1).2.Coherent P := by
  have hcopy := h.ownCopy value
  generalize w.ownCopy value = copy at hcopy ⊢
  obtain ⟨v, w₁⟩ := copy
  have hrests := w₁.rests_inputSlot query v.type key
  have hedits := w₁.edits_inputSlot (p := p) query v.type key
  refine Coherent.sublist (P := v.listed :: P) ?_ (List.sublist_cons_self _ _)
  unfold World.write
  split
  · rename_i hfound
    rw [hfound] at hrests hedits
    exact hcopy.retains hrests.toRetains hedits
  · rename_i i w₂ hfound
    rw [hfound] at hrests hedits
    obtain ⟨hself, hother, hmemo⟩ := put_changes (kind?_of_slotFor hfound) v
    refine (hcopy.retains hrests.toRetains hedits).keeps (fun n items hn => ?_) (Nat.le_refl _)
    obtain ⟨j, ⟨m, hm, hlisted⟩ | ⟨x, hx, hlisted⟩⟩ := hn
    · exact .inl ⟨j, .inl ⟨m, (hmemo j).symm.trans hm, hlisted⟩⟩
    · by_cases hj : j = i
      · subst hj
        obtain rfl := Option.some.inj (hself.symm.trans hx)
        exact .inr hlisted
      · exact .inl ⟨j, .inr ⟨x, (hother j hj).symm.trans hx, hlisted⟩⟩

/-- What a request begins with keeps allocations apart. -/
theorem Coherent.begin (p : Program) {P : List Lists} (h : w.Coherent P) (request : Request) :
    (request.begin p w).2.Coherent P := by
  have hchanges := request.begin_changes p w
  have hedits := request.edits_begin p w
  generalize hw' : (request.begin p w).2 = w' at hchanges hedits ⊢
  cases hchanges with
  | rests rests => exact h.retains rests.toRetains hedits
  | @writes access query key value i v w₁ rests kind => exact hw' ▸ h.write p query key value
  | clears access before =>
    refine h.drops (fun i m hm => ?_) (fun i => ?_) (Nat.le_refl _)
    · rw [memo?_clear] at hm
      exact (Option.filter_eq_some_iff.1 hm).1
    · show ((w.slots.map (·.clear before))[i]?).bind Slot.written? = w.slots[i]?.bind Slot.written?
      rw [List.getElem?_map]
      cases w.slots[i]? with
      | none => rfl
      | some slot => exact slot.written?_clear before

end World

end RedGreen
