import RedGreen.World
import RedGreen.Proofs.Denotation

set_option autoImplicit false

/-! # The catalogue of slots

Every slot belongs to one node, and in a *tidy* system no two slots belong to the same one. What an
operation does to a system is then told by the nodes, the memos and the written values of the slots,
without their positions in a list. Six relations between two worlds cover all operations: `Quiet` (a
note in the journal, a change of the active stack), `Extends` (slots may be new, memos may be other
ones), `Grows` (slots may be new), `Renews` (one memo is another one), `Clears` (some memos are
gone) and `Writes` (one input holds another value, under a new revision). -/

namespace RedGreen

/-! ## Nodes and inputs -/

namespace System

/-- The node that a slot belongs to. -/
def node? (s : System) (i : SlotId) : Option Node :=
  s.slots[i]?.map fun slot => ⟨slot.query, slot.key⟩

/-- What the inputs of a system hold, without the identity of lists. -/
def inputs (s : System) : Inputs := fun query key =>
  ((s.find? query key).bind s.written?).map fun written => written.value.bare

theorem node?_eq_some {s : System} {i : SlotId} {n : Node} :
    s.node? i = some n ↔ ∃ slot, s.slots[i]? = some slot ∧ slot.query = n.query ∧
      slot.key = n.key := by
  unfold node?
  constructor
  · intro h
    obtain ⟨slot, hslot, rfl⟩ := Option.map_eq_some_iff.1 h
    exact ⟨slot, hslot, rfl, rfl⟩
  · rintro ⟨slot, hslot, hquery, hkey⟩
    rw [hslot, Option.map_some, hquery, hkey]

theorem find?_eq_none {s : System} {query : QueryId} {key : Key} (h : s.find? query key = none)
    (i : SlotId) : s.node? i ≠ some ⟨query, key⟩ := by
  intro hnode
  obtain ⟨slot, hslot, hquery, hkey⟩ := node?_eq_some.1 hnode
  have hmem := List.mem_of_getElem? hslot
  have := List.findIdx?_eq_none_iff.1 h slot hmem
  simp [hquery, hkey] at this

theorem node?_of_find? {s : System} {query : QueryId} {key : Key} {i : SlotId}
    (h : s.find? query key = some i) : s.node? i = some ⟨query, key⟩ := by
  obtain ⟨hi, hp, -⟩ := List.findIdx?_eq_some_iff_getElem.1 h
  have hp := of_decide_eq_true hp
  exact node?_eq_some.2 ⟨s.slots[i], List.getElem?_eq_getElem hi, hp.1, hp.2⟩

theorem nameOf_eq {s : System} {i : SlotId} {n : Node} (h : s.node? i = some n) :
    s.nameOf i = n.text := by
  obtain ⟨slot, hslot, hquery, hkey⟩ := node?_eq_some.1 h
  simp only [nameOf, describe?, hslot, Option.map_some, Slot.info, SlotInfo.text, Node.text, hquery,
    hkey]

end System

/-! ## Tidy systems -/

/-- A slot is used as its identity is used, and is bound to a query of that identity. -/
structure Slot.Fits (p : Program) (use : Usages) (slot : Slot) : Prop where
  kind : slot.kind = (use slot.query).kind
  keyType : slot.key.type = (use slot.query).keyType
  bound : ∀ d, slot.content = .derived d →
    (p d.recompute).id = slot.query ∧ d.equality = (p d.recompute).equality
  written : ∀ x, slot.written? = some x → x.value.type = (use slot.query).valueType

/-- The caches and the slots of a system fit the uses of their identities, and no two slots belong
    to the same node. -/
structure Tidy (p : Program) (use : Usages) (s : System) : Prop where
  caches : ∀ c ∈ s.caches, c.keyType = (use c.query).keyType ∧ c.valueType = (use c.query).valueType
  slots : ∀ (i : SlotId) (slot : Slot), s.slots[i]? = some slot → slot.Fits p use
  distinct : ∀ i j n, s.node? i = some n → s.node? j = some n → i = j

variable {p : Program} {use : Usages} {same : Indistinct} {yields : Prop}

namespace Tidy

/-- A new system holds nothing. -/
theorem new (memoize : Bool) : Tidy p use ({ memoize } : World).toSystem where
  caches c hc := by cases hc
  slots i slot hi := by cases hi
  distinct i j n hi := by cases hi

theorem of_eq {s s' : System} (h : Tidy p use s) (hslots : s'.slots = s.slots)
    (hcaches : s'.caches = s.caches) : Tidy p use s' where
  caches := by rw [hcaches]; exact h.caches
  slots := by rw [hslots]; exact h.slots
  distinct := by
    have hnode : s'.node? = s.node? := by
      funext i
      rw [System.node?, System.node?, hslots]
    rw [hnode]
    exact h.distinct

variable {s : System} (h : Tidy p use s)
include h

theorem kind? {i : SlotId} {n : Node} (hi : s.node? i = some n) :
    s.kind? i = some (use n.query).kind := by
  obtain ⟨slot, hslot, hquery, -⟩ := System.node?_eq_some.1 hi
  rw [System.kind?, hslot, Option.map_some, (h.slots i slot hslot).kind, hquery]

/-- The slot of a query is computed. -/
theorem kind?_node (hp : p.Consistent use) {i : SlotId} {label : Label} {key : Key}
    (hi : s.node? i = some (p.node label key)) : s.kind? i = some .derived :=
  (h.kind? hi).trans (congrArg some (hp.derived label))

theorem keyType {i : SlotId} {n : Node} (hi : s.node? i = some n) :
    n.key.type = (use n.query).keyType := by
  obtain ⟨slot, hslot, hquery, hkey⟩ := System.node?_eq_some.1 hi
  rw [← hquery, ← hkey, (h.slots i slot hslot).keyType]

/-- A slot that is computed belongs to a derived value. -/
theorem node?_of_derived {i : SlotId} (hi : s.kind? i = some .derived) :
    ∃ label key, s.node? i = some (p.node label key) := by
  obtain ⟨⟨query, key, content⟩, hslot, hkind⟩ := Option.map_eq_some_iff.1 hi
  cases content with
  | input written => cases hkind
  | derived d =>
    have hbound := ((h.slots i _ hslot).bound d rfl).1
    exact ⟨d.recompute, key, System.node?_eq_some.2 ⟨_, hslot, hbound.symm, rfl⟩⟩

theorem find?_eq {i : SlotId} {n : Node} (hi : s.node? i = some n) :
    s.find? n.query n.key = some i := by
  cases hfind : s.find? n.query n.key with
  | none => exact absurd hi (System.find?_eq_none hfind i)
  | some j => rw [h.distinct i j n hi (System.node?_of_find? hfind)]

theorem inputs_eq {i : SlotId} {n : Node} (hi : s.node? i = some n) :
    s.inputs n.query n.key = (s.written? i).map fun written => written.value.bare := by
  rw [System.inputs, h.find?_eq hi, Option.bind_some]

/-- What an input holds is a value of its type. -/
theorem type_inputs {query : QueryId} {key : Key} {v : Value} (hv : s.inputs query key = some v) :
    v.type = (use query).valueType := by
  rw [System.inputs] at hv
  cases hfind : s.find? query key with
  | none =>
    rw [hfind] at hv
    cases hv
  | some i =>
    obtain ⟨slot, hslot, hquery, -⟩ := System.node?_eq_some.1 (System.node?_of_find? hfind)
    rw [hfind, Option.bind_some, System.written?, hslot, Option.bind_some] at hv
    obtain ⟨x, hx, rfl⟩ := Option.map_eq_some_iff.1 hv
    rw [Value.type_bare, (h.slots i slot hslot).written x hx, hquery]

/-- The slot of a derived value is bound to the body of that value. -/
theorem bound (hp : p.Consistent use) {i : SlotId} {label : Label} {key : Key}
    (hi : s.node? i = some (p.node label key)) :
    ∃ d, s.slots[i]? = some ⟨(p label).id, key, .derived d⟩ ∧
      (p d.recompute).body = (p label).body ∧ d.equality = (p label).equality := by
  obtain ⟨⟨query, key', content⟩, hslot, hquery, hkey⟩ := System.node?_eq_some.1 hi
  simp only [Program.node] at hquery hkey
  subst hquery hkey
  have hfits := h.slots i _ hslot
  cases content with
  | input written =>
    have := hfits.kind
    simp [Slot.kind, hp.derived] at this
  | derived d =>
    obtain ⟨hid, hequality⟩ := hfits.bound d rfl
    have hshared := hp.shared d.recompute label hid
    exact ⟨d, hslot, hshared.1, hequality.trans hshared.2⟩

theorem changedAt_input {i : SlotId} {n : Node} (hi : s.node? i = some n)
    (hkind : (use n.query).kind = .input) :
    s.changedAt i = ((s.written? i).map Stamped.changedAt).getD .never := by
  obtain ⟨⟨query, key, content⟩, hslot, hquery, -⟩ := System.node?_eq_some.1 hi
  have hfits := (h.slots i _ hslot).kind
  rw [hquery, hkind] at hfits
  cases content with
  | input written => cases written <;> simp [System.changedAt, System.written?, hslot,
      Slot.changedAt, Slot.written?]
  | derived d => simp [Slot.kind] at hfits

/-- An input slot has no memo. -/
theorem memo?_input {i : SlotId} {n : Node} (hi : s.node? i = some n)
    (hkind : (use n.query).kind = .input) : s.memo? i = none := by
  obtain ⟨⟨query, key, content⟩, hslot, hquery, -⟩ := System.node?_eq_some.1 hi
  have hfits := (h.slots i _ hslot).kind
  rw [hquery, hkind] at hfits
  cases content with
  | input written => simp [System.memo?, hslot, Slot.memo?]
  | derived d => simp [Slot.kind] at hfits

end Tidy

/-! ## What operations can do -/

namespace World

/-- Only the active stack, the allocations and the journal may be others. -/
structure Quiet (w w' : World) : Prop where
  slots : w'.slots = w.slots
  caches : w'.caches = w.caches
  revision : w'.revision = w.revision
  memoize : w'.memoize = w.memoize
  cancelled : w'.cancelled = w.cancelled
  entryLocked : w'.entryLocked = w.entryLocked

/-- At the same revision, slots may be new, and memos may be other ones. -/
structure Extends (w w' : World) : Prop where
  revision : w'.revision = w.revision
  memoize : w'.memoize = w.memoize
  cancelled : w'.cancelled = w.cancelled
  node : ∀ i n, w.node? i = some n → w'.node? i = some n
  written : ∀ i, w'.written? i = w.written? i

/-- Slots may be new. -/
structure Grows (w w' : World) : Prop extends Extends w w' where
  memo : ∀ i, w'.memo? i = w.memo? i

/-- One memo is another one. -/
structure Renews (w : World) (i : SlotId) (m : Memo) (w' : World) : Prop extends Extends w w' where
  memo_self : w'.memo? i = some m
  memo_other : ∀ j, j ≠ i → w'.memo? j = w.memo? j

/-- Some memos that were last verified before a revision are gone. -/
structure Clears (w : World) (before : Revision) (w' : World) : Prop extends Extends w w' where
  memo : ∀ i, w'.memo? i = w.memo? i ∨
    w'.memo? i = none ∧ ∃ m, w.memo? i = some m ∧ m.verifiedAt < before

/-- One input holds another value, under a new revision. -/
structure Writes (w : World) (i : SlotId) (v : Value) (w' : World) : Prop where
  revision : w'.revision = w.revision.next
  memoize : w'.memoize = w.memoize
  cancelled : w'.cancelled = w.cancelled
  node : ∀ j, w'.node? j = w.node? j
  memo : ∀ j, w'.memo? j = w.memo? j
  written_self : w'.written? i = some ⟨v, w.revision.next⟩
  written_other : ∀ j, j ≠ i → w'.written? j = w.written? j

theorem Extends.refl (w : World) : Extends w w := ⟨rfl, rfl, rfl, fun _ _ h => h, fun _ => rfl⟩

theorem Extends.trans {w w' w'' : World} (h : Extends w w') (h' : Extends w' w'') :
    Extends w w'' where
  revision := h'.revision.trans h.revision
  memoize := h'.memoize.trans h.memoize
  cancelled := h'.cancelled.trans h.cancelled
  node i n hi := h'.node i n (h.node i n hi)
  written i := (h'.written i).trans (h.written i)

/-- The inputs are those that were there before. -/
theorem Extends.inputs {w w' : World} (h : Extends w w') (ht : Tidy p use w.toSystem)
    (ht' : Tidy p use w'.toSystem) : w'.inputs = w.inputs := by
  funext query key
  cases hfind : w.find? query key with
  | some i =>
    have hi := System.node?_of_find? hfind
    rw [ht.inputs_eq hi, ht'.inputs_eq (h.node i _ hi), h.written]
  | none =>
    rw [System.inputs, System.inputs, hfind, Option.bind_none]
    cases hfind' : w'.find? query key with
    | none => rfl
    | some i =>
      -- a slot that is new holds nothing
      rw [Option.bind_some, h.written]
      have hi' := System.node?_of_find? hfind'
      cases hi : w.node? i with
      | none => rw [System.written?, Option.map_eq_none_iff.1 hi, Option.bind_none]
      | some n =>
        obtain rfl := Option.some.inj ((h.node i n hi).symm.trans hi')
        exact absurd hi (System.find?_eq_none hfind i)

theorem Grows.refl (w : World) : Grows w w := ⟨.refl w, fun _ => rfl⟩

theorem Grows.trans {w w' w'' : World} (h : Grows w w') (h' : Grows w' w'') : Grows w w'' :=
  ⟨h.toExtends.trans h'.toExtends, fun i => (h'.memo i).trans (h.memo i)⟩

theorem Quiet.refl (w : World) : Quiet w w := ⟨rfl, rfl, rfl, rfl, rfl, rfl⟩

theorem Quiet.trans {w w' w'' : World} (h : Quiet w w') (h' : Quiet w' w'') : Quiet w w'' :=
  ⟨h'.slots.trans h.slots, h'.caches.trans h.caches, h'.revision.trans h.revision,
    h'.memoize.trans h.memoize, h'.cancelled.trans h.cancelled,
    h'.entryLocked.trans h.entryLocked⟩

theorem Quiet.grows {w w' : World} (h : Quiet w w') : Grows w w' where
  revision := h.revision
  memoize := h.memoize
  cancelled := h.cancelled
  node i n hi := by rwa [System.node?, h.slots]
  written i := by rw [System.written?, System.written?, h.slots]
  memo i := by rw [System.memo?, System.memo?, h.slots]

theorem Quiet.tidy {w w' : World} (h : Quiet w w') (ht : Tidy p use w.toSystem) :
    Tidy p use w'.toSystem := ht.of_eq h.slots h.caches

end World

end RedGreen
