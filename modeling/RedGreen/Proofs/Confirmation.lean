import RedGreen.Proofs.Lineage

set_option autoImplicit false

/-! # Values that a revalidation confirms

A slot is *firm* if nothing that its memo has recorded has changed since the memo was last known to be
valid, and whatever the memo has recorded is an input or firm itself (`World.Firm`). A request for a firm
slot brings what it comes from up to date, one slot after the other, and runs nothing; so it is answered
with what the slot holds (`World.Firm.confirms`). Neither the equalities for early cutoff nor what the
bodies would compute now have a part in this. -/

namespace RedGreen

open Evaluation Relation

variable {p : Program} {use : Usages} {t : Token} {w w' w'' : World} {i j : SlotId} {m : Memo}

namespace World

/-! ## Firm slots -/

/-- A revalidation of the slot would find no change. -/
inductive Firm (w : World) : SlotId → Prop
  | intro {i : SlotId} {m : Memo} (memo : w.memo? i = some m)
    (unchanged : ∀ j ∈ m.deps, w.changedAt j ≤ m.verifiedAt)
    (deps : ∀ j ∈ m.deps, w.kind? j ≠ some .input → w.Firm j) : Firm w i

/-- What a firm slot has recorded. -/
theorem Firm.of_memo (h : w.Firm i) (hm : w.memo? i = some m) (hj : j ∈ m.deps) :
    w.changedAt j ≤ m.verifiedAt ∧ (w.kind? j ≠ some .input → w.Firm j) := by
  cases h with
  | intro memo unchanged deps =>
    obtain rfl := Option.some.inj (memo.symm.trans hm)
    exact ⟨unchanged j hj, deps j hj⟩

/-- What a firm slot comes from is firm, too. -/
theorem Firm.path (h : w.Firm i) (hpath : ReflTransGen w.Records i j) (hm : w.memo? j = some m) :
    w.Firm j := by
  induction hpath generalizing m with
  | refl => exact h
  | @tail k j _ hlast ih =>
    obtain ⟨n, hn, hj⟩ := hlast
    refine ((ih hn).of_memo hn hj).2 fun hinput => ?_
    cases (System.memo?_of_input hinput).symm.trans hm

/-- A firm slot does not come from itself. -/
theorem Firm.not_comes_back (h : w.Firm i) (hj : w.Records i j) : ¬ReflTransGen w.Records j i := by
  induction h generalizing j with
  | @intro i m memo unchanged deps ih =>
    intro hpath
    have hmem : j ∈ m.deps := (records_iff memo).1 hj
    rcases hpath.cases_head with rfl | ⟨k, hk, hback⟩
    · -- a slot that has recorded itself
      refine ih j hmem (fun hinput => ?_) hj .refl
      cases (System.memo?_of_input hinput).symm.trans memo
    · refine ih j hmem (fun hinput => ?_) hk (hback.tail hj)
      obtain ⟨n, hn, -⟩ := hk
      cases (System.memo?_of_input hinput).symm.trans hn

/-! ## Worlds in which firm slots are confirmed -/

/-- Some firm slots are known to be valid now; apart from that, and from what observers see, slots and
    memos are as they were, and no body was started. -/
structure Refreshes (p : Program) (use : Usages) (w w' : World) : Prop extends Extends w w' where
  tidy : Tidy p use w'.toSystem
  memo : ∀ i, w'.memo? i = w.memo? i ∨
    w.Firm i ∧ ∃ m, w.memo? i = some m ∧ w'.memo? i = some { m with verifiedAt := w.revision }
  runs : w'.runs = w.runs

theorem Refreshes.refl (ht : Tidy p use w.toSystem) : w.Refreshes p use w :=
  ⟨.refl w, ht, fun _ => .inl rfl, rfl⟩

theorem Refreshes.grows (h : w.Refreshes p use w') (hw : w'.Grows w'') (ht : Tidy p use w''.toSystem)
    (hruns : w''.runs = w'.runs) : w.Refreshes p use w'' where
  toExtends := h.toExtends.trans hw.toExtends
  tidy := ht
  memo i := (hw.memo i).symm ▸ h.memo i
  runs := hruns.trans h.runs

theorem Refreshes.memo_of (h : w.Refreshes p use w') (hm : w.memo? i = some m) :
    w'.memo? i = some m ∨ w'.memo? i = some { m with verifiedAt := w.revision } := by
  rcases h.memo i with hi | ⟨-, n, hn, hi⟩
  · exact .inl (hi.trans hm)
  · obtain rfl := Option.some.inj (hn.symm.trans hm)
    exact .inr hi

/-- The stamps of the last changes are as they were. -/
theorem Refreshes.changedAt (h : w.Refreshes p use w') (i : SlotId) :
    w'.changedAt i = w.changedAt i := by
  rcases h.memo i with hi | ⟨-, m, hm, hi⟩
  · exact System.changedAt_congr hi (h.written i)
  · rw [System.changedAt_of_memo hm, System.changedAt_of_memo hi]

/-! ## Confirming what is kept -/

/-- From wherever the world has been refreshed to, and as long as nothing that a slot comes from is in
    progress, a request for the slot is answered with what it holds, and it only refreshes what the
    slot comes from. -/
def Confirms (p : Program) (use : Usages) (t : Token) (w : World) (i : SlotId) : Prop :=
  ∀ m, w.memo? i = some m → ∀ w₁ frames, w.Refreshes p use w₁ →
    (∀ j, ReflTransGen w.Records i j → j ∉ w₁.active) →
    ∃ w₂, Reaches p t ⟨.fetch i, frames⟩ w₁ ⟨.answer (.ok m.toStamped), frames⟩ w₂ ∧
      w.Refreshes p use w₂ ∧ w₂.active = w₁.active ∧
      ∀ j, ¬ReflTransGen w.Records i j → w₂.memo? j = w₁.memo? j

section Confirms

variable (hp : p.Consistent use) (ht : Tidy p use w.toSystem) (hfirm : w.Firm i)
  (hm : w.memo? i = some m)

include hp ht hfirm hm in
/-- A revalidation that has found no change answers with what the slot holds. -/
theorem reaches_verified (frames : List Frame) {w₁ : World} (hw : w.Refreshes p use w₁) :
    ∃ w₂, Reaches p t ⟨.walk ⟨i, w.revision, m.verifiedAt, []⟩, frames⟩ w₁
        ⟨.answer (.ok m.toStamped), frames⟩ w₂ ∧
      w.Refreshes p use w₂ ∧ w₂.active = dropInnermost w₁.active i ∧
      ∀ j, j ≠ i → w₂.memo? j = w₁.memo? j := by
  obtain ⟨label, key, hnode⟩ := ht.node?_of_derived (System.kind?_of_memo hm)
  have hverify := World.verify_spec_of_related hp hw.tidy ⟨i, w.revision, m.verifiedAt, []⟩
    (hw.node i _ hnode) (fun _ _ => True) fun _ _ => trivial
  have hruns := w₁.runs_verify ⟨i, w.revision, m.verifiedAt, []⟩
  have hstep : Evaluation.step p t ⟨.walk ⟨i, w.revision, m.verifiedAt, []⟩, frames⟩ w₁ =
      resume frames (w₁.verify ⟨i, w.revision, m.verifiedAt, []⟩) := rfl
  generalize w₁.verify ⟨i, w.revision, m.verifiedAt, []⟩ = out at hverify hruns hstep
  cases hverify with
  | dropped memo => exact (hw.memo_of hm).elim (by simp [memo]) (by simp [memo])
  | @kept m₁ w₂ memo commits =>
    have hkept : ({ m₁ with verifiedAt := w.revision } : Memo) = { m with verifiedAt := w.revision } := by
      rcases hw.memo_of hm with h | h <;> rw [← Option.some.inj (h.symm.trans memo)]
    have hstamped : m₁.toStamped = m.toStamped := (Memo.mk.inj hkept).1
    refine ⟨w₂, .of_step (hstamped ▸ hstep), ⟨hw.toExtends.trans commits.toExtends, commits.tidy,
      fun j => ?_, hruns.trans hw.runs⟩, commits.active, fun j hj => commits.memo_other j hj⟩
    by_cases hj : j = i
    · exact .inr ⟨hj ▸ hfirm, m, hj ▸ hm, by rw [hj, commits.memo_self, hkept]⟩
    · rw [commits.memo_other j hj]
      exact hw.memo j

include ht hfirm hm in
/-- A revalidation finds every recorded dependency unchanged. -/
theorem reaches_walked (huncancelled : t ∉ w.cancelled)
    (hconfirms : ∀ j ∈ m.deps, w.kind? j ≠ some .input → w.Confirms p use t j) (r : Revision)
    (frames : List Frame) {rest : List SlotId} (hrest : ∀ j ∈ rest, j ∈ m.deps) {w₁ : World}
    (hw : w.Refreshes p use w₁) (hout : ∀ j ∈ rest, ∀ k, ReflTransGen w.Records j k → k ∉ w₁.active) :
    ∃ w₂, Reaches p t ⟨.walk ⟨i, r, m.verifiedAt, rest⟩, frames⟩ w₁
        ⟨.walk ⟨i, r, m.verifiedAt, []⟩, frames⟩ w₂ ∧
      w.Refreshes p use w₂ ∧ w₂.active = w₁.active ∧
      ∀ j, (∀ k ∈ m.deps, ¬ReflTransGen w.Records k j) → w₂.memo? j = w₁.memo? j := by
  induction rest generalizing w₁ with
  | nil => exact ⟨w₁, .refl _ _, hw, rfl, fun _ _ => rfl⟩
  | cons dep rest ih =>
    have hdep := hrest dep List.mem_cons_self
    obtain ⟨hunchanged, hfirmDep⟩ := hfirm.of_memo hm hdep
    have htouched (w₂ : World) (hw₂ : w.Refreshes p use w₂) :
        w₂.touched t ⟨i, r, m.verifiedAt, rest⟩ dep (w.changedAt dep) =
          (.walk ⟨i, r, m.verifiedAt, rest⟩, w₂) := by
      have hspec := w₂.touched_spec t ⟨i, r, m.verifiedAt, rest⟩ dep (w.changedAt dep)
      generalize w₂.touched t ⟨i, r, m.verifiedAt, rest⟩ dep (w.changedAt dep) = out at hspec
      cases hspec with
      | cancelled cancelled => exact absurd (hw₂.cancelled ▸ cancelled) huncancelled
      | changed changed => exact absurd hunchanged (Nat.not_le_of_lt changed)
      | unchanged => rfl
    -- the dependency is brought up to date, and the rest is walked from there
    have hpass : ∃ w₂, Reaches p t ⟨.walk ⟨i, r, m.verifiedAt, dep :: rest⟩, frames⟩ w₁
        ⟨.walk ⟨i, r, m.verifiedAt, rest⟩, frames⟩ w₂ ∧
        w.Refreshes p use w₂ ∧ w₂.active = w₁.active ∧
        ∀ j, (∀ k ∈ m.deps, ¬ReflTransGen w.Records k j) → w₂.memo? j = w₁.memo? j := by
      by_cases hinput : w.kind? dep = some .input
      · have hkind := kind?_of_node ht hw.tidy (hw.node dep) hinput
        refine ⟨w₁, .of_step ?_, hw, rfl, fun _ _ => rfl⟩
        simp [Evaluation.step, stepWalk, hkind, hw.changedAt, htouched w₁ hw, resume]
      · obtain ⟨n, hn⟩ : ∃ n, w.memo? dep = some n := by
          cases hfirmDep hinput with
          | intro memo => exact ⟨_, memo⟩
        obtain ⟨n₁, hn₁⟩ : ∃ n₁, w₁.memo? dep = some n₁ := (hw.memo_of hn).elim (⟨_, ·⟩) (⟨_, ·⟩)
        have hkind := System.kind?_of_memo hn₁
        obtain ⟨w₂, hreach, hw₂, hactive, hother⟩ := hconfirms dep hdep hinput n hn w₁
          (.touching ⟨i, r, m.verifiedAt, rest⟩ dep :: frames) hw (hout dep List.mem_cons_self)
        have hstep : Evaluation.step p t
            ⟨.answer (.ok n.toStamped), .touching ⟨i, r, m.verifiedAt, rest⟩ dep :: frames⟩ w₂ =
            .running ⟨.walk ⟨i, r, m.verifiedAt, rest⟩, frames⟩ w₂ := by
          have hstamp : n.changedAt = w.changedAt dep := (System.changedAt_of_memo hn).symm
          simp only [Evaluation.step, stepAnswer, hstamp, htouched w₂ hw₂, resume]
        refine ⟨w₂, .head ?_ (hreach.trans (.of_step hstep)), hw₂, hactive,
          fun j hj => hother j (hj dep hdep)⟩
        simp only [Evaluation.step, stepWalk, hkind, if_true]
    obtain ⟨w₂, hreach, hw₂, hactive, hother⟩ := hpass
    obtain ⟨w₃, hreach', hw₃, hactive', hother'⟩ := ih (fun j hj => hrest j (List.mem_cons_of_mem _ hj))
      hw₂ fun j hj k hk => hactive ▸ hout j (List.mem_cons_of_mem _ hj) k hk
    exact ⟨w₃, hreach.trans hreach', hw₃, hactive'.trans hactive,
      fun j hj => (hother' j hj).trans (hother j hj)⟩

include hp ht hfirm hm in
/-- If everything that a firm slot has recorded confirms, then so does the slot. -/
theorem confirms_of_deps (hmemoize : w.memoize = true) (huncancelled : t ∉ w.cancelled)
    (hconfirms : ∀ j ∈ m.deps, w.kind? j ≠ some .input → w.Confirms p use t j) :
    w.Confirms p use t i := by
  intro m' hm' w₁ frames hw hout
  obtain rfl := Option.some.inj (hm.symm.trans hm')
  have hfetch := World.fetch_spec (p := p) (hw.memoize.trans hmemoize) t i
  have hruns := w₁.runs_fetch p t i
  have hstep : Evaluation.step p t ⟨.fetch i, frames⟩ w₁ = resume frames (w₁.fetch p t i) := rfl
  generalize w₁.fetch p t i = out at hfetch hruns hstep
  have hfirst {w₂ : World} (hquiet : w₁.Quiet w₂) (hruns : w₂.runs = w₁.runs) :
      w.Refreshes p use w₂ := hw.grows hquiet.grows (hquiet.tidy hw.tidy) hruns
  cases hfetch with
  | @hit m₁ w₂ memo _ quiet active =>
    have hstamped : m₁.toStamped = m.toStamped := by
      rcases hw.memo_of hm with h | h <;> rw [← Option.some.inj (h.symm.trans memo)]
    exact ⟨w₂, .of_step (hstamped ▸ hstep), hfirst quiet (by simpa [startedAt] using hruns), active,
      fun j _ => quiet.grows.memo j⟩
  | cycle _ inside => exact absurd inside (hout i .refl)
  | compute memo => exact (hw.memo_of hm).elim (by simp [memo]) (by simp [memo])
  | @walk m₁ w₂ memo stale outside quiet active =>
    have hm₁ : m₁ = m := by
      rcases hw.memo_of hm with h | h
      · exact Option.some.inj (memo.symm.trans h)
      · exact absurd (by rw [Option.some.inj (memo.symm.trans h), hw.revision]) stale
    rw [hm₁, hw.revision] at hstep
    have hw₂ := hfirst quiet (by simpa [startedAt] using hruns)
    have hinto {j k : SlotId} (hj : j ∈ m.deps) (hk : ReflTransGen w.Records j k) :
        ReflTransGen w.Records i k := .head ⟨m, hm, hj⟩ hk
    -- what the slot comes from is not the slot itself
    obtain ⟨w₃, hwalked, hw₃, hactive₃, hother₃⟩ := reaches_walked ht hfirm hm huncancelled hconfirms
      w.revision frames (fun _ hj => hj) hw₂ fun j hj k hk hmem => by
        rw [active] at hmem
        rcases List.mem_append.1 hmem with hmem | hmem
        · exact hout k (hinto hj hk) hmem
        · rw [List.mem_singleton.1 hmem] at hk
          exact hfirm.not_comes_back ⟨m, hm, hj⟩ hk
    obtain ⟨w₄, hverified, hw₄, hactive₄, hother₄⟩ := reaches_verified hp ht hfirm hm frames hw₃
    refine ⟨w₄, .head hstep (hwalked.trans hverified), hw₄, ?_, fun j hj => ?_⟩
    · rw [hactive₄, hactive₃, active, dropInnermost_concat]
    · rw [hother₄ j fun heq => hj (heq ▸ .refl), hother₃ j fun k hk hpath => hj (hinto hk hpath)]
      exact quiet.grows.memo j

end Confirms

/-- Every firm slot confirms. -/
theorem Firm.confirms (hp : p.Consistent use) (ht : Tidy p use w.toSystem) (hmemoize : w.memoize = true)
    (huncancelled : t ∉ w.cancelled) (h : w.Firm i) : w.Confirms p use t i := by
  induction h with
  | intro memo unchanged deps ih =>
    exact confirms_of_deps hp ht (.intro memo unchanged deps) memo hmemoize huncancelled ih

end World

end RedGreen
