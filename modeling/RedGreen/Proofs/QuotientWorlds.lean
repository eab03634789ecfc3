import RedGreen.Proofs.Quotients
import RedGreen.Proofs.Steps

set_option autoImplicit false

/-! # The world of a quotient

A world of a program becomes one of its quotient if every kept value is replaced by its code
(`World.quotient`). Stamps, dependencies, inputs, the active stack and the journal are the same there.
So every operation does the same to both: for each there is one equation that moves `quotient` past
it. The only place where the values matter is the commit of a run; there the old value and the new one
have to be such that they can exist side by side. -/

namespace RedGreen

variable {p : Program} {use : Usages}

/-! ## Slots and caches -/

/-- A value with the stamp of its last change, coded. -/
noncomputable def Stamped.encode (q : Query) (x : Stamped) : Stamped := { x with value := q.encode x.value }

/-- A memo whose value is coded. -/
noncomputable def Memo.encode (q : Query) (m : Memo) : Memo := { m with value := q.encode m.value }

/-- What a derived slot holds in the quotient. -/
noncomputable def Derived.quotient (p : Program) (d : Derived) : Derived where
  recompute := d.recompute
  equality := (p d.recompute).codedEquality
  cached := d.cached.map (p d.recompute).encode
  changedAt := d.changedAt
  verifiedAt := d.verifiedAt
  deps := d.deps
  blank h := d.blank (Option.map_eq_none_iff.1 h)

theorem Derived.memo_quotient (d : Derived) :
    (d.quotient p).memo = d.memo.map (Memo.encode (p d.recompute)) := by
  simp only [memo, quotient, Option.map_map]
  rfl

namespace Slot

/-- A slot in the quotient. -/
noncomputable def quotient (p : Program) (slot : Slot) : Slot :=
  match slot.content with
  | .input _ => slot
  | .derived d => { slot with content := .derived (d.quotient p) }

variable (slot : Slot)

@[simp] theorem query_quotient : (slot.quotient p).query = slot.query := by
  unfold quotient
  split <;> rfl

@[simp] theorem key_quotient : (slot.quotient p).key = slot.key := by
  unfold quotient
  split <;> rfl

@[simp] theorem kind_quotient : (slot.quotient p).kind = slot.kind := by
  obtain ⟨query, key, content⟩ := slot
  cases content <;> rfl

@[simp] theorem info_quotient : (slot.quotient p).info = slot.info := by
  simp only [info, query_quotient, key_quotient, kind_quotient]

@[simp] theorem written?_quotient : (slot.quotient p).written? = slot.written? := by
  obtain ⟨query, key, content⟩ := slot
  cases content <;> rfl

@[simp] theorem changedAt_quotient : (slot.quotient p).changedAt = slot.changedAt := by
  obtain ⟨query, key, content⟩ := slot
  cases content with
  | input written => rfl
  | derived d => rfl

@[simp] theorem isStale_quotient (before : Revision) :
    (slot.quotient p).isStale before = slot.isStale before := by
  obtain ⟨query, key, content⟩ := slot
  cases content with
  | input written => rfl
  | derived d =>
    show Derived.isStale (d.quotient p) before = d.isStale before
    rw [Derived.isStale, Derived.isStale, d.memo_quotient]
    cases d.memo <;> rfl

theorem quotient_setMemo_none : (slot.setMemo none).quotient p = (slot.quotient p).setMemo none := by
  obtain ⟨query, key, content⟩ := slot
  cases content <;> rfl

theorem quotient_clear (before : Revision) :
    (slot.clear before).quotient p = (slot.quotient p).clear before := by
  simp only [clear, isStale_quotient]
  split
  · exact slot.quotient_setMemo_none
  · rfl

/-- Slots in the quotient, after one of them has become another one. -/
theorem map_quotient_modify (slots : List Slot) {i : SlotId} {f f' : Slot → Slot}
    (h : ∀ slot, slots[i]? = some slot → (f slot).quotient p = f' (slot.quotient p)) :
    (slots.map (Slot.quotient p)).modify i f' = (slots.modify i f).map (Slot.quotient p) := by
  refine List.ext_getElem? fun j => ?_
  simp only [List.getElem?_modify, List.getElem?_map]
  by_cases hj : i = j
  · subst hj
    cases hslot : slots[i]? with
    | none => rfl
    | some slot => simp [h slot hslot]
  · simp [hj]

end Slot

/-- A cache in the quotient. -/
def Cache.quotient (use : Usages) (c : Cache) : Cache :=
  { c with valueType := (use.quotient c.query).valueType }

namespace World

/-- The world of a quotient. -/
noncomputable def quotient (p : Program) (use : Usages) (w : World) : World :=
  { w with slots := w.slots.map (Slot.quotient p), caches := w.caches.map (Cache.quotient use) }

variable (w : World)

/-! ## What is the same -/

@[simp] theorem find?_quotient (query : QueryId) (key : Key) :
    (w.quotient p use).find? query key = w.find? query key := by
  simp [System.find?, quotient, List.findIdx?_map, Function.comp_def]

@[simp] theorem describe?_quotient (i : SlotId) :
    (w.quotient p use).describe? i = w.describe? i := by
  simp only [System.describe?, quotient, List.getElem?_map, Option.map_map, Function.comp_def,
    Slot.info_quotient]

@[simp] theorem info_quotient (i : SlotId) : (w.quotient p use).info i = w.info i := by
  rw [System.info, describe?_quotient]
  rfl

@[simp] theorem nameOf_quotient (i : SlotId) : (w.quotient p use).nameOf i = w.nameOf i := by
  rw [System.nameOf, describe?_quotient]
  rfl

@[simp] theorem kind?_quotient (i : SlotId) : (w.quotient p use).kind? i = w.kind? i := by
  simp only [System.kind?, quotient, List.getElem?_map, Option.map_map, Function.comp_def,
    Slot.kind_quotient]

@[simp] theorem changedAt_quotient (i : SlotId) :
    (w.quotient p use).changedAt i = w.changedAt i := by
  simp only [System.changedAt, quotient, List.getElem?_map, Option.map_map, Function.comp_def,
    Slot.changedAt_quotient]

@[simp] theorem written?_quotient (i : SlotId) : (w.quotient p use).written? i = w.written? i := by
  simp only [System.written?, quotient, List.getElem?_map]
  cases w.slots[i]? with
  | none => rfl
  | some slot => exact slot.written?_quotient

theorem cache?_quotient (query : QueryId) :
    (w.quotient p use).cache? query = (w.cache? query).map (Cache.quotient use) := by
  simp only [System.cache?, quotient, List.find?_map]
  rfl

/-! ## Operations that do not look at the slots -/

@[simp] theorem note_quotient (entry : Entry) :
    (w.quotient p use).note entry = (w.note entry).quotient p use := rfl

@[simp] theorem log_quotient (e : LogEvent) :
    (w.quotient p use).log e = (w.log e).quotient p use := rfl

@[simp] theorem event_quotient (e : TraceEvent) :
    (w.quotient p use).event e = (w.event e).quotient p use := rfl

@[simp] theorem setActive_quotient (active : List SlotId) :
    (w.quotient p use).setActive active = (w.setActive active).quotient p use := rfl

@[simp] theorem check_quotient (t : Token) : (w.quotient p use).check t = w.check t := rfl

@[simp] theorem leave_quotient (i : SlotId) :
    (w.quotient p use).leave i = (w.leave i).quotient p use := by
  unfold leave
  split
  · rw [if_pos (show i ∈ w.active from ‹_›)]
    rfl
  · rw [if_neg (show i ∉ w.active from ‹_›)]

@[simp] theorem enter_quotient (i : SlotId) :
    (w.quotient p use).enter i = ((w.enter i).1, (w.enter i).2.quotient p use) := by
  have hpath (ids : List SlotId) : ids.map (w.quotient p use).nameOf = ids.map w.nameOf :=
    List.map_congr_left fun j _ => w.nameOf_quotient j
  unfold enter
  split
  · rw [if_pos (show i ∈ w.active from ‹_›), hpath]
    rfl
  · rw [if_neg (show i ∉ w.active from ‹_›)]
    rfl

/-! ## Caches and slots -/

variable {w}

/-- A cache is opened with the types of its identity. -/
theorem openCache_quotient (ht : Tidy p use w.toSystem) {query : QueryId} {keyType : KeyType}
    (hkey : keyType = (use query).keyType) :
    (w.quotient p use).openCache query keyType (use.quotient query).valueType =
      ((w.openCache query keyType (use query).valueType).1,
        (w.openCache query keyType (use query).valueType).2.quotient p use) := by
  unfold openCache
  rw [cache?_quotient]
  cases hcache : w.cache? query with
  | none =>
    simp only [Option.map_none]
    show _ = (Except.ok (), (w.setCaches (w.caches ++ _)).quotient p use |>.log _)
    simp [quotient, setCaches, log, note, Cache.quotient]
  | some cache =>
    have hquery : cache.query = query := by simpa using List.find?_some hcache
    have htypes := ht.caches cache (List.mem_of_find?_eq_some hcache)
    rw [hquery] at htypes
    simp only [Option.map_some]
    have hcoded : (cache.quotient use).valueType = (use.quotient query).valueType := by rw [← hquery]; rfl
    rw [if_pos ⟨htypes.1.trans hkey.symm, hcoded⟩, if_pos ⟨htypes.1.trans hkey.symm, htypes.2⟩]

theorem obtain_quotient (w : World) (fresh : Slot) :
    (w.quotient p use).obtain (fresh.quotient p) =
      ((w.obtain fresh).1, (w.obtain fresh).2.quotient p use) := by
  unfold World.obtain
  simp only [Slot.query_quotient, Slot.key_quotient, Slot.kind_quotient, find?_quotient, kind?_quotient]
  split
  · split <;> rfl
  · simp [addSlot, quotient, setSlots, log, note]

theorem slotFor_quotient (ht : Tidy p use w.toSystem) (fresh : Slot)
    (hkey : fresh.key.type = (use fresh.query).keyType) :
    (w.quotient p use).slotFor (use.quotient fresh.query).valueType (fresh.quotient p) =
      ((w.slotFor (use fresh.query).valueType fresh).1,
        (w.slotFor (use fresh.query).valueType fresh).2.quotient p use) := by
  unfold slotFor
  rw [Slot.query_quotient, Slot.key_quotient, openCache_quotient ht hkey]
  generalize w.openCache fresh.query fresh.key.type (use fresh.query).valueType = opened
  obtain ⟨opened, w₁⟩ := opened
  cases opened with
  | error e => rfl
  | ok u => exact w₁.obtain_quotient fresh

theorem inputSlot_quotient (ht : Tidy p use w.toSystem) {query : QueryId} {valueType : ValueType}
    {key : Key} (typed : use query = ⟨.input, key.type, valueType⟩) :
    (w.quotient p use).inputSlot query valueType key =
      ((w.inputSlot query valueType key).1, (w.inputSlot query valueType key).2.quotient p use) := by
  have hslot := slotFor_quotient ht ⟨query, key, .input none⟩ (by rw [typed])
  rw [Usages.quotient_of_input typed, typed] at hslot
  exact hslot

theorem derivedSlot_quotient (hp : p.Respectful use) (ht : Tidy p use w.toSystem) {label : Label}
    {key : Key} (typed : key.type = (use (p label).id).keyType) :
    (w.quotient p use).derivedSlot (p.quotient label).id (p.quotient label).valueType key label
        (p.quotient label).equality =
      ((w.derivedSlot (p label).id (p label).valueType key label (p label).equality).1,
        (w.derivedSlot (p label).id (p label).valueType key label (p label).equality).2.quotient p
          use) := by
  have hslot := slotFor_quotient ht
    ⟨(p label).id, key, .derived (.fresh label (p label).equality)⟩ typed
  rw [hp.valueType_quotient, hp.valueType] at hslot
  exact hslot

end World

end RedGreen
