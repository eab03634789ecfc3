import RedGreen.Proofs.Catalog

set_option autoImplicit false

/-! # What each operation does to the slots

In a tidy system, an operation that is used as the identities are used succeeds and leaves the
system tidy. Each gets a lemma that says what else may have changed. -/

namespace RedGreen

variable {p : Program} {use : Usages} {same : Indistinct} {yields : Prop}

/-! ## Changes inside the slots -/

namespace System

theorem node?_of_map {s s' : System} {g : SlotId → Slot → Slot}
    (hslots : ∀ i : SlotId, s'.slots[i]? = s.slots[i]?.map (g i))
    (hg : ∀ i slot, (g i slot).query = slot.query ∧ (g i slot).key = slot.key) (i : SlotId) :
    s'.node? i = s.node? i := by
  rw [node?, node?, hslots, Option.map_map]
  congr 1
  funext slot
  rw [Function.comp_apply, (hg i slot).1, (hg i slot).2]

end System

/-- Changes inside the slots leave a system tidy if each slot still fits. -/
theorem Tidy.of_map {s s' : System} (h : Tidy p use s) {g : SlotId → Slot → Slot}
    (hslots : ∀ i : SlotId, s'.slots[i]? = s.slots[i]?.map (g i)) (hcaches : s'.caches = s.caches)
    (hg : ∀ i slot, (g i slot).query = slot.query ∧ (g i slot).key = slot.key)
    (hfits : ∀ (i : SlotId) (slot : Slot), s.slots[i]? = some slot → slot.Fits p use →
      (g i slot).Fits p use) : Tidy p use s' where
  caches := by rw [hcaches]; exact h.caches
  slots i slot hslot := by
    rw [hslots] at hslot
    obtain ⟨slot', hslot', rfl⟩ := Option.map_eq_some_iff.1 hslot
    exact hfits i slot' hslot' (h.slots i slot' hslot')
  distinct i j n hi hj := by
    rw [System.node?_of_map hslots hg] at hi hj
    exact h.distinct i j n hi hj

namespace Slot

@[simp] theorem query_setMemo (s : Slot) (memo : Option Memo) :
    (s.setMemo memo).query = s.query := by
  unfold setMemo
  split <;> rfl

@[simp] theorem key_setMemo (s : Slot) (memo : Option Memo) : (s.setMemo memo).key = s.key := by
  unfold setMemo
  split <;> rfl

@[simp] theorem written?_setMemo (s : Slot) (memo : Option Memo) :
    (s.setMemo memo).written? = s.written? := by
  obtain ⟨query, key, content⟩ := s
  cases content <;> rfl

theorem memo?_setMemo_none (s : Slot) : (s.setMemo none).memo? = none := by
  obtain ⟨query, key, content⟩ := s
  cases content <;> rfl

theorem Fits.setMemo {s : Slot} (h : s.Fits p use) (memo : Option Memo) :
    (s.setMemo memo).Fits p use := by
  obtain ⟨query, key, content⟩ := s
  cases content with
  | input written => exact h
  | derived d =>
    refine ⟨h.kind, h.keyType, fun d' hd => ?_, nofun⟩
    obtain rfl := Content.derived.inj hd
    rw [Derived.recompute_setMemo, Derived.equality_setMemo]
    exact h.bound d rfl

@[simp] theorem query_clear (s : Slot) (before : Revision) : (s.clear before).query = s.query := by
  unfold clear
  split <;> simp

@[simp] theorem key_clear (s : Slot) (before : Revision) : (s.clear before).key = s.key := by
  unfold clear
  split <;> simp

@[simp] theorem written?_clear (s : Slot) (before : Revision) :
    (s.clear before).written? = s.written? := by
  unfold clear
  split <;> simp

theorem Fits.clear {s : Slot} (h : s.Fits p use) (before : Revision) :
    (s.clear before).Fits p use := by
  unfold Slot.clear
  split
  · exact h.setMemo none
  · exact h

theorem memo?_clear (s : Slot) (before : Revision) :
    (s.clear before).memo? = s.memo? ∨
      (s.clear before).memo? = none ∧ ∃ m, s.memo? = some m ∧ m.verifiedAt < before := by
  unfold clear
  split
  · rename_i hstale
    refine .inr ⟨memo?_setMemo_none s, ?_⟩
    obtain ⟨query, key, content⟩ := s
    cases content with
    | input written => simp [isStale] at hstale
    | derived d => exact Derived.isStale_iff.1 hstale
  · exact .inl rfl

end Slot

namespace World

/-! ## Quiet operations -/

theorem quiet_note (w : World) (entry : Entry) : Quiet w (w.note entry) :=
  ⟨rfl, rfl, rfl, rfl, rfl, rfl⟩

theorem quiet_log (w : World) (e : LogEvent) : Quiet w (w.log e) := w.quiet_note _

theorem quiet_event (w : World) (e : TraceEvent) : Quiet w (w.event e) := w.quiet_note _

theorem quiet_setActive (w : World) (active : List SlotId) : Quiet w (w.setActive active) :=
  ⟨rfl, rfl, rfl, rfl, rfl, rfl⟩

theorem quiet_allocate (w : World) : Quiet w w.allocate.2 := ⟨rfl, rfl, rfl, rfl, rfl, rfl⟩

theorem quiet_ownCopy (w : World) (v : Value) : Quiet w (w.ownCopy v).2 := by
  unfold ownCopy
  split
  · exact w.quiet_allocate
  · exact .refl w

theorem alike_ownCopy (w : World) (v : Value) : (w.ownCopy v).1.Alike v := by
  unfold ownCopy
  split <;> rfl

theorem quiet_leave (w : World) (i : SlotId) : Quiet w (w.leave i) := by
  unfold leave
  split
  · exact (w.quiet_setActive _).trans (quiet_log _ _)
  · exact .refl w

theorem quiet_leaveAll (w : World) (ids : List SlotId) : Quiet w (w.leaveAll ids) := by
  induction ids generalizing w with
  | nil => exact .refl w
  | cons i ids ih => exact (w.quiet_leave i).trans (ih (w.leave i))

/-- Entering either closes a cycle or puts the slot innermost. -/
theorem enter_cases (w : World) (i : SlotId) :
    (i ∈ w.active ∧ ∃ w', w.enter i = (.error (.cycle ((w.active ++ [i]).map w.nameOf)), w') ∧
      Quiet w w' ∧ w'.active = w.active) ∨
    (i ∉ w.active ∧ ∃ w', w.enter i = (.ok (), w') ∧ Quiet w w' ∧
      w'.active = w.active ++ [i]) := by
  unfold enter
  split
  · exact .inl ⟨‹_›, _, rfl, (w.quiet_log _).trans (quiet_event _ _), rfl⟩
  · exact .inr ⟨‹_›, _, rfl, (w.quiet_setActive _).trans (quiet_log _ _), rfl⟩

/-! ## Caches and slots -/

theorem openCache_spec {w : World} (ht : Tidy p use w.toSystem) {query : QueryId}
    {keyType : KeyType} {valueType : ValueType} (hkey : keyType = (use query).keyType)
    (hvalue : valueType = (use query).valueType) :
    ∃ w', w.openCache query keyType valueType = (.ok (), w') ∧ Tidy p use w'.toSystem ∧
      Grows w w' ∧ w'.slots = w.slots ∧ w'.active = w.active ∧
      w'.entryLocked = w.entryLocked := by
  unfold openCache
  split
  · rename_i cache hcache
    have hquery : cache.query = query := by simpa using List.find?_some hcache
    have htypes := ht.caches cache (List.mem_of_find?_eq_some hcache)
    rw [hquery] at htypes
    rw [if_pos ⟨htypes.1.trans hkey.symm, htypes.2.trans hvalue.symm⟩]
    exact ⟨w, rfl, ht, .refl w, rfl, rfl, rfl⟩
  · refine ⟨_, rfl, ?_, ⟨⟨rfl, rfl, rfl, fun _ _ h => h, fun _ => rfl⟩, fun _ => rfl⟩, rfl, rfl, rfl⟩
    refine ⟨?_, ht.slots, ht.distinct⟩
    intro c hc
    rcases List.mem_append.1 hc with hc | hc
    · exact ht.caches c hc
    · rw [List.mem_singleton.1 hc]
      exact ⟨hkey, hvalue⟩

/-- A node has a slot now. -/
structure Finds (p : Program) (use : Usages) (w : World) (n : Node) (i : SlotId) (w' : World) : Prop
    extends Grows w w' where
  tidy : Tidy p use w'.toSystem
  found : w'.node? i = some n
  active : w'.active = w.active
  entryLocked : w'.entryLocked = w.entryLocked

theorem addSlot_spec {w : World} (ht : Tidy p use w.toSystem) {fresh : Slot}
    (hfits : fresh.Fits p use) (hmemo : fresh.memo? = none) (hwritten : fresh.written? = none)
    (hnew : w.find? fresh.query fresh.key = none) :
    Finds p use w ⟨fresh.query, fresh.key⟩ w.slots.length (w.addSlot fresh) := by
  have hslots (i : SlotId) : (w.addSlot fresh).slots[i]? =
      if i < w.slots.length then w.slots[i]? else if i = w.slots.length then some fresh else none := by
    show (w.slots ++ [fresh])[i]? = _
    grind
  have hnode (i : SlotId) : (w.addSlot fresh).node? i =
      if i = w.slots.length then some ⟨fresh.query, fresh.key⟩ else w.node? i := by
    rw [System.node?, System.node?, hslots]
    grind
  refine ⟨⟨⟨rfl, rfl, rfl, ?_, ?_⟩, ?_⟩, ⟨ht.caches, ?_, ?_⟩, ?_, rfl, rfl⟩
  · intro i n hi
    have hlt : i < w.slots.length := by
      obtain ⟨slot, hslot, -⟩ := System.node?_eq_some.1 hi
      exact (List.getElem?_eq_some_iff.1 hslot).1
    rw [hnode, if_neg (Nat.ne_of_lt hlt), hi]
  · intro i
    rw [System.written?, System.written?, hslots]
    grind
  · intro i
    rw [System.memo?, System.memo?, hslots]
    grind
  · intro i slot hslot
    rw [hslots] at hslot
    split at hslot
    · exact ht.slots i slot hslot
    · split at hslot
      · exact Option.some.inj hslot ▸ hfits
      · cases hslot
  · intro i j n hi hj
    rw [hnode] at hi hj
    have hfresh := System.find?_eq_none hnew
    split at hi <;> split at hj
    · rename_i hi' hj'
      exact hi'.trans hj'.symm
    · exact absurd (Option.some.inj hi ▸ hj) (hfresh j)
    · exact absurd (Option.some.inj hj ▸ hi) (hfresh i)
    · exact ht.distinct i j n hi hj
  · rw [hnode, if_pos rfl]

theorem obtain_spec {w : World} (ht : Tidy p use w.toSystem) {fresh : Slot}
    (hfits : fresh.Fits p use) (hmemo : fresh.memo? = none) (hwritten : fresh.written? = none) :
    ∃ i w', w.obtain fresh = (.ok i, w') ∧ Finds p use w ⟨fresh.query, fresh.key⟩ i w' := by
  unfold obtain
  split
  · rename_i i hfind
    have hnode := System.node?_of_find? hfind
    rw [if_pos (by rw [ht.kind? hnode, hfits.kind])]
    exact ⟨i, w, rfl, .refl w, ht, hnode, rfl, rfl⟩
  · exact ⟨_, _, rfl, addSlot_spec ht hfits hmemo hwritten ‹_›⟩

theorem slotFor_spec {w : World} (ht : Tidy p use w.toSystem) {valueType : ValueType} {fresh : Slot}
    (hfits : fresh.Fits p use) (hmemo : fresh.memo? = none) (hwritten : fresh.written? = none)
    (hvalue : valueType = (use fresh.query).valueType) :
    ∃ i w', w.slotFor valueType fresh = (.ok i, w') ∧
      Finds p use w ⟨fresh.query, fresh.key⟩ i w' := by
  obtain ⟨w₁, hopen, ht₁, hgrows₁, -, hactive₁, hlocked₁⟩ := openCache_spec ht hfits.keyType hvalue
  obtain ⟨i, w₂, hobtain, hfinds⟩ := obtain_spec ht₁ hfits hmemo hwritten
  refine ⟨i, w₂, ?_, hgrows₁.trans hfinds.toGrows, hfinds.tidy, hfinds.found,
    hfinds.active.trans hactive₁, hfinds.entryLocked.trans hlocked₁⟩
  simp only [slotFor, hopen, hobtain]

theorem inputSlot_spec {w : World} (ht : Tidy p use w.toSystem) {query : QueryId}
    {valueType : ValueType} {key : Key} (typed : use query = ⟨.input, key.type, valueType⟩) :
    ∃ i w', w.inputSlot query valueType key = (.ok i, w') ∧ Finds p use w ⟨query, key⟩ i w' := by
  refine slotFor_spec ht ⟨?_, ?_, nofun, nofun⟩ rfl rfl ?_
  · simp [Slot.kind, typed]
  · simp [typed]
  · simp [typed]

theorem derivedSlot_spec (hp : p.Consistent use) {w : World} (ht : Tidy p use w.toSystem)
    {label : Label} {key : Key} (typed : key.type = (use (p label).id).keyType) :
    ∃ i w', w.derivedSlot (p label).id (p label).valueType key label (p label).equality =
      (.ok i, w') ∧ Finds p use w (p.node label key) i w' := by
  refine slotFor_spec ht ⟨(hp.derived label).symm, typed, ?_, fun _ h => by cases h⟩ rfl rfl
    (hp.valueType label).symm
  intro d hd
  obtain rfl := Content.derived.inj hd
  exact ⟨rfl, rfl⟩

/-! ## Memos -/

theorem setMemo_spec {w : World} (ht : Tidy p use w.toSystem) (i : SlotId) (memo : Option Memo) :
    Tidy p use (w.setMemo i memo).toSystem ∧ Extends w (w.setMemo i memo) ∧
      ∀ j, j ≠ i → (w.setMemo i memo).memo? j = w.memo? j := by
  have hslots (j : SlotId) : (w.setMemo i memo).slots[j]? =
      w.slots[j]?.map fun slot => if i = j then slot.setMemo memo else slot := by
    rw [slots_setMemo]
    split <;> simp
  have hshape (j : SlotId) (slot : Slot) :
      (if i = j then slot.setMemo memo else slot).query = slot.query ∧
        (if i = j then slot.setMemo memo else slot).key = slot.key := by
    split <;> simp
  have hnode := System.node?_of_map hslots hshape
  refine ⟨ht.of_map hslots rfl hshape ?_, ⟨rfl, rfl, rfl, ?_, ?_⟩, ?_⟩
  · intro j slot _ hfits
    split
    · exact hfits.setMemo memo
    · exact hfits
  · intro j n hj
    rwa [hnode]
  · intro j
    rw [System.written?, System.written?, hslots]
    cases w.slots[j]? with
    | none => rfl
    | some slot =>
      show (if i = j then slot.setMemo memo else slot).written? = slot.written?
      split <;> simp
  · intro j hj
    rw [System.memo?, System.memo?, slots_setMemo, if_neg (Ne.symm hj)]

/-- A derived slot holds the memo that it is given. -/
theorem setMemo_renews {w : World} (ht : Tidy p use w.toSystem) {i : SlotId} {query : QueryId}
    {key : Key} {d : Derived} (hi : w.slots[i]? = some ⟨query, key, .derived d⟩) (m : Memo) :
    Renews w i m (w.setMemo i (some m)) := by
  obtain ⟨-, hextends, hother⟩ := setMemo_spec ht i (some m)
  refine ⟨hextends, ?_, hother⟩
  rw [System.memo?, slots_setMemo, if_pos rfl, hi]
  rfl

/-- Dropping stale memos, in some of the slots. -/
theorem clears_of_map {w w' : World} (ht : Tidy p use w.toSystem) {before : Revision}
    (which : SlotId → Slot → Prop) [∀ i slot, Decidable (which i slot)]
    (hslots : ∀ i : SlotId, w'.slots[i]? =
      w.slots[i]?.map fun slot => if which i slot then slot.clear before else slot)
    (hcaches : w'.caches = w.caches) (hrevision : w'.revision = w.revision)
    (hmemoize : w'.memoize = w.memoize) (hcancelled : w'.cancelled = w.cancelled) :
    Tidy p use w'.toSystem ∧ Clears w before w' := by
  have hshape (i : SlotId) (slot : Slot) :
      (if which i slot then slot.clear before else slot).query = slot.query ∧
        (if which i slot then slot.clear before else slot).key = slot.key := by
    split <;> simp
  have hnode := System.node?_of_map hslots hshape
  refine ⟨ht.of_map hslots hcaches hshape ?_, ⟨hrevision, hmemoize, hcancelled, ?_, ?_⟩, ?_⟩
  · intro i slot _ hfits
    split
    · exact hfits.clear before
    · exact hfits
  · intro i n hi
    rwa [hnode]
  · intro i
    rw [System.written?, System.written?, hslots]
    cases w.slots[i]? with
    | none => rfl
    | some slot =>
      show (if which i slot then slot.clear before else slot).written? = slot.written?
      split <;> simp
  · intro i
    rw [System.memo?, System.memo?, hslots]
    cases w.slots[i]? with
    | none => exact .inl rfl
    | some slot =>
      show (if which i slot then slot.clear before else slot).memo? = slot.memo? ∨ _
      split
      · simpa [*] using slot.memo?_clear before
      · exact .inl rfl

theorem clear_spec {w : World} (ht : Tidy p use w.toSystem) (before : Revision) :
    Tidy p use (w.clear before).2.toSystem ∧ Clears w before (w.clear before).2 :=
  clears_of_map ht (fun _ _ => True) (by intro i; simp [clear, setSlots]) rfl rfl rfl rfl

theorem clearCache_spec {w : World} (ht : Tidy p use w.toSystem) (query : QueryId)
    (before : Revision) :
    Tidy p use (w.clearCache query before).2.toSystem ∧
      Clears w before (w.clearCache query before).2 :=
  clears_of_map ht (fun _ slot => slot.query = query)
    (by intro i; simp [clearCache, setSlots]) rfl rfl rfl rfl

theorem clearSlot_spec {w : World} (ht : Tidy p use w.toSystem) (query : QueryId) (key : Key)
    (before : Revision) :
    Tidy p use (w.clearSlot query key before).2.toSystem ∧
      Clears w before (w.clearSlot query key before).2 ∧
      (w.clearSlot query key before).2.active = w.active ∧
      (w.clearSlot query key before).2.entryLocked = w.entryLocked := by
  have hself : Clears w before w := ⟨.refl w, fun _ => .inl rfl⟩
  unfold clearSlot
  split
  · exact ⟨ht, hself, rfl, rfl⟩
  · rename_i i _
    split
    · split
      · exact ⟨ht, hself, rfl, rfl⟩
      · have hslots (j : SlotId) : (w.slots.modify i (·.clear before))[j]? =
            w.slots[j]?.map fun slot => if i = j then slot.clear before else slot := by
          rw [List.getElem?_modify]
          split <;> simp
        have hspec : Tidy p use (w.setSlots (w.slots.modify i (·.clear before))).toSystem ∧
            Clears w before (w.setSlots (w.slots.modify i (·.clear before))) :=
          clears_of_map ht (fun j _ => i = j) hslots rfl rfl rfl rfl
        exact ⟨hspec.1, hspec.2, rfl, rfl⟩
    · exact ⟨ht, hself, rfl, rfl⟩

/-! ## Writes -/

theorem put_spec {w : World} (ht : Tidy p use w.toSystem) {i : SlotId} {n : Node}
    (hi : w.node? i = some n) (hkind : (use n.query).kind = .input) {v : Value}
    (hv : v.type = (use n.query).valueType) :
    Tidy p use (w.put i v).toSystem ∧ Writes w i v (w.put i v) := by
  let stored (slot : Slot) : Slot := { slot with content := .input (some ⟨v, w.revision.next⟩) }
  have hslots (j : SlotId) : (w.put i v).slots[j]? =
      w.slots[j]?.map fun slot => if i = j then stored slot else slot := by
    show (w.slots.modify i stored)[j]? = _
    rw [List.getElem?_modify]
    split <;> simp
  have hshape (j : SlotId) (slot : Slot) :
      (if i = j then stored slot else slot).query = slot.query ∧
        (if i = j then stored slot else slot).key = slot.key := by
    split <;> exact ⟨rfl, rfl⟩
  have hnode := System.node?_of_map hslots hshape
  obtain ⟨slot, hslot, hquery, -⟩ := System.node?_eq_some.1 hi
  have hinput : slot.kind = .input := by rw [(ht.slots i slot hslot).kind, hquery, hkind]
  refine ⟨ht.of_map hslots rfl hshape ?_, ⟨rfl, rfl, rfl, hnode, ?_, ?_, ?_⟩⟩
  · intro j slot' hslot' hfits
    split
    · subst j
      obtain rfl := Option.some.inj (hslot.symm.trans hslot')
      refine ⟨by rw [← hfits.kind, hinput]; rfl, hfits.keyType, nofun, ?_⟩
      intro x hx
      obtain rfl := Option.some.inj hx
      exact hv.trans (by rw [← hquery])
    · exact hfits
  · intro j
    rw [System.memo?, System.memo?, hslots]
    by_cases hij : i = j
    · subst hij
      rw [hslot]
      obtain ⟨query, key, content⟩ := slot
      cases content with
      | input written => simp [stored, Slot.memo?]
      | derived d => simp [Slot.kind] at hinput
    · simp [hij]
  · rw [System.written?, hslots, hslot]
    simp [stored, Slot.written?]
  · intro j hj
    rw [System.written?, System.written?, hslots]
    simp [Ne.symm hj]

/-- A write changes one input. -/
theorem Writes.inputs {w w' : World} {i : SlotId} {v : Value} (h : Writes w i v w')
    (ht : Tidy p use w.toSystem) (ht' : Tidy p use w'.toSystem) {n : Node}
    (hi : w.node? i = some n) (query : QueryId) (key : Key) :
    w'.inputs query key = if ⟨query, key⟩ = n then some v.bare else w.inputs query key := by
  split
  · rename_i hn
    subst hn
    rw [ht'.inputs_eq (n := ⟨query, key⟩) ((h.node i).trans hi), h.written_self, Option.map_some]
  · rename_i hn
    cases hfind : w.find? query key with
    | some j =>
      have hj := System.node?_of_find? hfind
      have hji : j ≠ i := by
        rintro rfl
        exact hn (Option.some.inj (hj.symm.trans hi))
      rw [ht.inputs_eq (n := ⟨query, key⟩) hj, ht'.inputs_eq (n := ⟨query, key⟩)
        ((h.node j).trans hj), h.written_other j hji]
    | none =>
      rw [System.inputs, System.inputs, hfind, Option.bind_none]
      cases hfind' : w'.find? query key with
      | none => rfl
      | some j =>
        have hj := System.node?_of_find? hfind'
        rw [h.node] at hj
        exact absurd hj (System.find?_eq_none hfind j)

end World

end RedGreen
