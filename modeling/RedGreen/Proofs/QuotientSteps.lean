import RedGreen.Proofs.QuotientWorlds

set_option autoImplicit false

/-! # One step of the quotient

The parts of a step, for a slot in progress: what the quotient makes of the world and of the control is
the code of what the program makes of them (`Control.quotient`). -/

namespace RedGreen

variable {p : Program} {use : Usages}

/-- What happens next in the quotient, for a slot that belongs to a query. -/
noncomputable def Control.quotient (p : Program) (q : Query) : Control → Control
  | .body a b => .body a (p.encodeBody q b)
  | .answer r => .answer (r.map (Stamped.encode q))
  | c => c

/-- The outcome of a part of a step, in the quotient. -/
noncomputable def outcomeQuotient (p : Program) (use : Usages) (q : Query) (out : Control × World) :
    Control × World :=
  (out.1.quotient p q, out.2.quotient p use)

/-- The slot of a derived value is bound to its query. -/
theorem Program.Respectful.bound (hp : p.Respectful use) {s : System} (ht : Tidy p use s) {i : SlotId}
    {label : Label} {key : Key} (hi : s.node? i = some (p.node label key)) :
    ∃ d, s.slots[i]? = some ⟨(p label).id, key, .derived d⟩ ∧ p d.recompute = p label ∧
      d.equality = (p label).equality := by
  obtain ⟨d, hslot, -, hequality⟩ := ht.bound hp.toConsistent hi
  exact ⟨d, hslot, hp.query_eq ((ht.slots i _ hslot).bound d rfl).1, hequality⟩

/-! ## Memos -/

namespace Derived

variable {d : Derived} {q : Query} {value : Value} (hquery : p d.recompute = q)
  (hequal : ∀ o, d.memo = some o →
    (d.quotient p).equality (q.encode o.value) (q.encode value) = d.equality o.value value)
include hquery hequal

theorem isUnchanged_quotient : (d.quotient p).isUnchanged (q.encode value) = d.isUnchanged value := by
  simp only [isUnchanged, memo_quotient, hquery]
  cases ho : d.memo with
  | none => rfl
  | some o => exact hequal o ho

theorem renewed_quotient (r : Revision) (deps : List SlotId) :
    (d.quotient p).renewed (q.encode value) r deps = (d.renewed value r deps).encode q := by
  simp only [renewed, memo_quotient, hquery]
  cases ho : d.memo with
  | none => rfl
  | some o => simp only [Option.map_some, Memo.encode, hequal o ho]

end Derived

namespace World

section

variable (w : World) (q : Query)

/-! ## Ends of a request -/

theorem fail_quotient (i : SlotId) (e : QueryError) :
    (w.quotient p use).fail i e = outcomeQuotient p use q (w.fail i e) := by
  simp only [fail, info_quotient, log_quotient, event_quotient, leave_quotient]
  rfl

theorem succeed_quotient (i : SlotId) (x : Stamped) (outcome : Outcome) :
    (w.quotient p use).succeed i (x.encode q) outcome =
      outcomeQuotient p use q (w.succeed i x outcome) := by
  simp only [succeed, info_quotient, event_quotient, leave_quotient]
  rfl

theorem start_quotient (i : SlotId) (c : Control) :
    (w.quotient p use).start i (c.quotient p q) = outcomeQuotient p use q (w.start i c) := by
  unfold start
  rw [enter_quotient]
  generalize w.enter i = entered
  obtain ⟨entered, w₁⟩ := entered
  cases entered with
  | error e => rfl
  | ok u =>
    simp only [info_quotient, event_quotient]
    rfl

theorem record_quotient (a : Activation) (dep : SlotId) :
    (w.quotient p use).record a dep = ((w.record a dep).1, (w.record a dep).2.quotient p use) := by
  unfold record
  split <;> rfl

theorem touched_quotient (t : Token) (walk : Walk) (dep : SlotId) (changedAt : Revision) :
    (w.quotient p use).touched t walk dep changedAt =
      outcomeQuotient p use q (w.touched t walk dep changedAt) := by
  unfold touched
  rw [check_quotient]
  split
  · exact w.fail_quotient q _ _
  · split
    · rw [info_quotient]
      rfl
    · rfl

end

/-! ## Slots in progress -/

section

variable {w : World} {i : SlotId} {label : Label} {key : Key} (hp : p.Respectful use)
  (ht : Tidy p use w.toSystem) (hi : w.node? i = some (p.node label key))
include hp ht hi

theorem memo?_quotient : (w.quotient p use).memo? i = (w.memo? i).map (Memo.encode (p label)) := by
  obtain ⟨d, hslot, hquery, -⟩ := hp.bound ht hi
  rw [System.memo?, System.memo?, quotient, List.getElem?_map, hslot, ← hquery]
  exact d.memo_quotient

theorem setMemo_quotient (memo : Option Memo) :
    (w.quotient p use).setMemo i (memo.map (Memo.encode (p label))) =
      (w.setMemo i memo).quotient p use := by
  obtain ⟨d, hslot, hquery, -⟩ := hp.bound ht hi
  have hslots : (w.slots.map (Slot.quotient p)).modify i
        (·.setMemo (memo.map (Memo.encode (p label)))) =
      (w.slots.modify i (·.setMemo memo)).map (Slot.quotient p) :=
    Slot.map_quotient_modify w.slots fun slot hfound => by
      rw [hslot] at hfound
      obtain rfl := Option.some.inj hfound
      rw [← hquery]
      cases memo <;> rfl
  simp only [setMemo, setSlots, quotient, hslots]

theorem startBody_quotient (r : Revision) :
    (w.quotient p use).startBody p.quotient i r =
      outcomeQuotient p use (p label) (w.startBody p i r) := by
  obtain ⟨d, hslot, hquery, -⟩ := hp.bound ht hi
  have hslot' : (w.quotient p use).slots[i]? =
      some ⟨(p label).id, key, .derived (d.quotient p)⟩ := by
    rw [quotient, List.getElem?_map, hslot]
    rfl
  unfold startBody
  rw [hslot, hslot', ← hquery]
  rfl

theorem beginMemoized_quotient :
    (w.quotient p use).beginMemoized i = outcomeQuotient p use (p label) (w.beginMemoized i) := by
  unfold beginMemoized
  rw [memo?_quotient hp ht hi]
  cases w.memo? i with
  | none =>
    simp only [Option.map_none]
    exact w.start_quotient (p label) i (.compute i w.revision)
  | some m =>
    simp only [Option.map_some]
    show (if m.verifiedAt = w.revision then _ else _) =
      outcomeQuotient p use (p label) (if m.verifiedAt = w.revision then _ else _)
    split
    · rw [info_quotient]
      rfl
    · exact w.start_quotient (p label) i (.walk ⟨i, w.revision, m.verifiedAt, m.deps⟩)

theorem beginUncached_quotient (t : Token) :
    (w.quotient p use).beginUncached p.quotient t i =
      outcomeQuotient p use (p label) (w.beginUncached p t i) := by
  unfold beginUncached
  rw [enter_quotient]
  rcases w.enter_cases i with ⟨-, w₁, henter, hquiet, -⟩ | ⟨-, w₁, henter, hquiet, -⟩
  · rw [henter]
    rfl
  · rw [henter]
    simp only [check_quotient]
    split
    · rw [leave_quotient]
      rfl
    · rw [info_quotient, log_quotient]
      exact startBody_quotient hp ((hquiet.trans (quiet_log _ _)).tidy ht)
        ((hquiet.trans (quiet_log _ _)).grows.node i _ hi) _

theorem fetch_quotient (t : Token) :
    (w.quotient p use).fetch p.quotient t i =
      outcomeQuotient p use (p label) (w.fetch p t i) := by
  unfold fetch
  split
  · rw [if_pos (show w.memoize = true from ‹_›)]
    exact beginMemoized_quotient hp ht hi
  · rw [if_neg (show ¬w.memoize = true from ‹_›)]
    exact beginUncached_quotient hp ht hi t

theorem compute_quotient (t : Token) (r : Revision) :
    (w.quotient p use).compute p.quotient t i r =
      outcomeQuotient p use (p label) (w.compute p t i r) := by
  unfold compute
  rw [check_quotient]
  split
  · exact w.fail_quotient (p label) i _
  · rw [info_quotient, log_quotient]
    exact startBody_quotient hp ((quiet_log w _).tidy ht) ((quiet_log w _).grows.node i _ hi) r

theorem verify_quotient {r verifiedAt : Revision} {rest : List SlotId} :
    (w.quotient p use).verify ⟨i, r, verifiedAt, rest⟩ =
      outcomeQuotient p use (p label) (w.verify ⟨i, r, verifiedAt, rest⟩) := by
  unfold verify
  rw [memo?_quotient hp ht hi]
  cases w.memo? i with
  | none => rfl
  | some m =>
    have hmemo := setMemo_quotient hp ht hi (some { m with verifiedAt := r })
    simp only [Option.map_some] at hmemo ⊢
    rw [show (some { m.encode (p label) with verifiedAt := r } : Option Memo) =
      some (Memo.encode (p label) { m with verifiedAt := r }) from rfl, hmemo, info_quotient, log_quotient]
    exact succeed_quotient _ (p label) i m.toStamped .revalidated

/-! ## The end of a run -/

/-- The run's value is kept. The old value and the new one have the type of the query and can exist side
    by side. -/
theorem commit_quotient {r : Revision} {deps : List SlotId} {value : Value}
    (hold : ∀ o, w.memo? i = some o → o.value.type = (p label).valueType)
    (hvalue : value.type = (p label).valueType)
    (hcoherent : ∀ o, w.memo? i = some o → o.value.Coherent value) :
    (w.quotient p use).commit ⟨i, r, deps⟩ ((p label).encode value) =
      outcomeQuotient p use (p label) (w.commit ⟨i, r, deps⟩ value) := by
  obtain ⟨d, hslot, hquery, hequality⟩ := hp.bound ht hi
  have hmemo : w.memo? i = d.memo := by rw [System.memo?, hslot]; rfl
  have hslot' : (w.quotient p use).slots[i]? =
      some ⟨(p label).id, key, .derived (d.quotient p)⟩ := by
    rw [quotient, List.getElem?_map, hslot]
    rfl
  have hequal : ∀ o, d.memo = some o →
      (d.quotient p).equality ((p label).encode o.value) ((p label).encode value) =
        d.equality o.value value := by
    intro o ho
    rw [← hmemo] at ho
    simp only [Derived.quotient, hquery, hequality]
    exact Query.codedEquality_encode (hold o ho) hvalue (hcoherent o ho)
  have hunchanged := Derived.isUnchanged_quotient hquery hequal
  have hrenewed := Derived.renewed_quotient hquery hequal r deps
  have hset := setMemo_quotient hp ht hi (some (d.renewed value r deps))
  rw [Option.map_some] at hset
  unfold commit
  simp only [hslot, hslot', hunchanged, hrenewed, hset, info_quotient]
  split
  · rw [log_quotient]
    exact succeed_quotient _ (p label) i (d.renewed value r deps).toStamped .unchanged
  · exact succeed_quotient _ (p label) i (d.renewed value r deps).toStamped .changed

theorem finish_quotient (t : Token) {r : Revision} {deps : List SlotId}
    (result : Except QueryError Value)
    (hold : ∀ o, w.memo? i = some o → o.value.type = (p label).valueType)
    (hresult : ∀ v, result = .ok v → v.type = (p label).valueType)
    (hcoherent : w.memoize = true → ∀ v o, result = .ok v → w.memo? i = some o → o.value.Coherent v) :
    (w.quotient p use).finish t ⟨i, r, deps⟩ (result.map (p label).encode) =
      outcomeQuotient p use (p label) (w.finish t ⟨i, r, deps⟩ result) := by
  unfold finish
  cases result with
  | error e => exact w.fail_quotient (p label) i e
  | ok v =>
    simp only [Except.map, check_quotient]
    split
    · by_cases hmemoize : w.memoize = true
      · rw [if_pos hmemoize, if_pos (show (w.quotient p use).memoize = true from hmemoize)]
        exact w.fail_quotient (p label) i _
      · rw [if_neg hmemoize, if_neg (show ¬(w.quotient p use).memoize = true from hmemoize),
          leave_quotient]
        rfl
    · by_cases hmemoize : w.memoize = true
      · rw [if_pos hmemoize, if_pos (show (w.quotient p use).memoize = true from hmemoize)]
        exact commit_quotient hp ht hi hold (hresult v rfl) (hcoherent hmemoize v · rfl)
      · rw [if_neg hmemoize, if_neg (show ¬(w.quotient p use).memoize = true from hmemoize)]
        exact w.succeed_quotient (p label) i ⟨v, r⟩ .changed

end

/-! ## Operations of bodies -/

section

variable {w : World} (ht : Tidy p use w.toSystem)
include ht

theorem read_quotient (t : Token) (a : Activation) {query : QueryId} {valueType : ValueType} {key : Key}
    (typed : use query = ⟨.input, key.type, valueType⟩) :
    (w.quotient p use).read t a query valueType key =
      ((w.read t a query valueType key).1, (w.read t a query valueType key).2.1,
        (w.read t a query valueType key).2.2.quotient p use) := by
  unfold read
  rw [inputSlot_quotient ht typed]
  generalize w.inputSlot query valueType key = found
  obtain ⟨found, w₁⟩ := found
  cases found with
  | error e => rfl
  | ok dep =>
    simp only [record_quotient, written?_quotient]
    split <;> rfl

end

end World

end RedGreen
