import RedGreen.Journal
import RedGreen.System

set_option autoImplicit false

/-! # The world of a running system

Requests run in a world: the system, the tokens that have been cancelled, the supply of allocation
numbers, and the journal of what happened. The operations below are the only ones that change it.
Each is a function from the world before to the world after; one that can fail returns its error
beside the world, because a failing operation may still have made a cache or a slot. -/

namespace RedGreen

/-- A cancellation token. All holders of a token see the same signal. -/
abbrev Token := Nat

/-- The long text of a token. -/
def tokenText (cancelled : Bool) : String :=
  "CancellationToken \x7b cancelled: " ++ (if cancelled then "true" else "false") ++ " \x7d"

/-- A system together with what running requests see and change besides it. -/
structure World extends System where
  cancelled : List Token := []
  /-- How many allocations have been made. -/
  allocations : Nat := 0
  journal : Journal := []

namespace World

/-! ## The journal -/

/-- Adds an entry to the journal. -/
def note (w : World) (entry : Entry) : World := { w with journal := w.journal ++ [entry] }

/-- Tells the log. -/
def log (w : World) (e : LogEvent) : World := w.note (.log e)

/-- Tells the tracer. -/
def event (w : World) (e : TraceEvent) : World := w.note (.event e)

@[simp] theorem toSystem_note (w : World) (entry : Entry) :
    (w.note entry).toSystem = w.toSystem := rfl

@[simp] theorem toSystem_log (w : World) (e : LogEvent) : (w.log e).toSystem = w.toSystem := rfl

@[simp] theorem toSystem_event (w : World) (e : TraceEvent) :
    (w.event e).toSystem = w.toSystem := rfl

/-! ## Replacing a part -/

/-- The world with other slots. -/
def setSlots (w : World) (slots : List Slot) : World := { w with slots }

/-- The world with other caches. -/
def setCaches (w : World) (caches : List Cache) : World := { w with caches }

/-- The world with another active stack. -/
def setActive (w : World) (active : List SlotId) : World := { w with active }

/-! ## Cancellation and allocation -/

/-- Cancels a token. -/
def cancel (w : World) (t : Token) : World := { w with cancelled := t :: w.cancelled }

/-- Fails if a token was cancelled. -/
def check (w : World) (t : Token) : Except QueryError Unit :=
  if t ∈ w.cancelled then .error .cancelled else .ok ()

theorem check_eq_ok_iff {w : World} {t : Token} : w.check t = .ok () ↔ t ∉ w.cancelled := by
  unfold check
  split <;> simp_all

/-- Makes an allocation and tells its number. -/
def allocate (w : World) : Nat × World :=
  (w.allocations, { w with allocations := w.allocations + 1 })

/-- Moves a list into an allocation of its own; other values have none. -/
def ownCopy (w : World) (value : Value) : Value × World :=
  match value with
  | .list _ items => (.list w.allocate.1 items, w.allocate.2)
  | _ => (value, w)

/-! ## Caches and slots -/

/-- Finds the cache of an identity, or makes it with the given types; other types are refused. -/
def openCache (w : World) (query : QueryId) (keyType : KeyType) (valueType : ValueType) :
    Except QueryError Unit × World :=
  match w.cache? query with
  | some cache =>
    if cache.keyType = keyType ∧ cache.valueType = valueType then (.ok (), w)
    else (.error (.kindMismatch query), w)
  | none =>
    (.ok (), (w.setCaches (w.caches ++ [⟨query, keyType, valueType⟩])).log (.cacheCreated query))

/-- Adds a slot at the end. -/
def addSlot (w : World) (slot : Slot) : World :=
  (w.setSlots (w.slots ++ [slot])).log (.slotCreated w.slots.length slot.info)

/-- The slot with the identity and key of `fresh`, or `fresh` itself if there is none yet; a slot of
    the other kind is refused. An existing slot keeps its content. -/
def obtain (w : World) (fresh : Slot) : Except QueryError SlotId × World :=
  match w.find? fresh.query fresh.key with
  | some id =>
    if w.kind? id = some fresh.kind then (.ok id, w) else (.error (.kindMismatch fresh.query), w)
  | none => (.ok w.slots.length, w.addSlot fresh)

/-- The slot with the identity and key of `fresh` in the cache of that identity. -/
def slotFor (w : World) (valueType : ValueType) (fresh : Slot) : Except QueryError SlotId × World :=
  match w.openCache fresh.query fresh.key.type valueType with
  | (.error e, w) => (.error e, w)
  | (.ok (), w) => w.obtain fresh

/-- The input slot of an identity and a key, made unwritten if it is new. -/
def inputSlot (w : World) (query : QueryId) (valueType : ValueType) (key : Key) :
    Except QueryError SlotId × World :=
  w.slotFor valueType ⟨query, key, .input none⟩

/-- The derived slot of an identity and a key. A new one is bound to the given declaration and
    equality; an existing one keeps its own. -/
def derivedSlot (w : World) (query : QueryId) (valueType : ValueType) (key : Key)
    (recompute : Label) (equality : Equivalence) : Except QueryError SlotId × World :=
  w.slotFor valueType ⟨query, key, .derived (.fresh recompute equality)⟩

/-- Replaces the memo of a derived slot. -/
def setMemo (w : World) (id : SlotId) (memo : Option Memo) : World :=
  w.setSlots (w.slots.modify id (·.setMemo memo))

theorem slots_setMemo (w : World) (id : SlotId) (memo : Option Memo) (i : SlotId) :
    (w.setMemo id memo).slots[i]? =
      if id = i then w.slots[i]?.map (·.setMemo memo) else w.slots[i]? := by
  simp only [setMemo, setSlots, List.getElem?_modify]
  split <;> simp

/-! ## Inputs -/

/-- Stores a value in an input slot under a freshly issued revision. -/
def put (w : World) (id : SlotId) (value : Value) : World :=
  let revision := w.revision.next
  let info := w.info id
  let slots := w.slots.modify id fun slot =>
    { slot with content := .input (some ⟨value, revision⟩) }
  (({ w with revision, slots } : World).log (.inputSet info revision)).event
    (.inputSet info revision)

/-- Writes an input and tells the revision issued for the write. Every write issues one, also when
    the value is the one that was there. -/
def write (w : World) (query : QueryId) (key : Key) (value : Value) :
    Except QueryError Revision × World :=
  match w.inputSlot query value.type key with
  | (.error e, w) => (.error e, w)
  | (.ok id, w) => (.ok w.revision.next, w.put id value)

/-- The error of reading an input that was not written. -/
def unset (query : QueryId) (key : Key) : QueryError := .unsetInput query key.text

/-- Reads an input from outside, without recording a dependency and without making a slot. -/
def inputValue (w : World) (query : QueryId) (valueType : ValueType) (key : Key) :
    Except QueryError Value × World :=
  match w.openCache query key.type valueType with
  | (.error e, w) => (.error e, w)
  | (.ok (), w) =>
    match (w.find? query key).bind (w.slots[·]?) with
    | some { content := .input (some written), .. } => (.ok written.value, w)
    | some { content := .derived _, .. } => (.error (.kindMismatch query), w)
    | _ => (.error (unset query key), w)

/-! ## The active stack -/

/-- Puts a slot on the active stack. A slot that is in progress already closes a cycle. -/
def enter (w : World) (id : SlotId) : Except QueryError Unit × World :=
  if id ∈ w.active then
    let path := (w.active ++ [id]).map w.nameOf
    (.error (.cycle path), (w.log (.cycleDetected path)).event (.cycleDetected path))
  else (.ok (), (w.setActive (w.active ++ [id])).log (.entered id (w.active.length + 1)))

/-- Takes the innermost occurrence of a slot off the active stack. -/
def leave (w : World) (id : SlotId) : World :=
  if id ∈ w.active then
    let active := (w.active.reverse.erase id).reverse
    (w.setActive active).log (.left id active.length)
  else w

/-- Takes several slots off the active stack, in the given order. -/
def leaveAll (w : World) (ids : List SlotId) : World := ids.foldl leave w

/-- Entering fails only for a slot that is in progress, and leaves the system as it was. -/
theorem enter_eq_error {w w' : World} {id : SlotId} {e : QueryError}
    (h : w.enter id = (.error e, w')) : id ∈ w.active ∧ w'.toSystem = w.toSystem := by
  unfold enter at h
  split at h
  · rename_i hid
    obtain ⟨-, rfl⟩ := Prod.mk.injEq .. ▸ h
    exact ⟨hid, rfl⟩
  · simp at h

theorem active_leave (w : World) (id : SlotId) :
    (w.leave id).active = (w.active.reverse.erase id).reverse := by
  unfold leave
  split
  · rfl
  · rename_i h
    rw [List.erase_of_not_mem (by simpa using h), List.reverse_reverse]

/-! ## Clearing -/

/-- Drops every memo last verified before `before` and tells how many. Inputs stay. -/
def clear (w : World) (before : Revision) : Nat × World :=
  let count := w.slots.countP (·.isStale before)
  (count, (w.setSlots (w.slots.map (·.clear before))).log (.cleared before count))

/-- Drops the memos of one identity last verified before `before`. -/
def clearCache (w : World) (query : QueryId) (before : Revision) : Nat × World :=
  (w.slots.countP fun slot => slot.query = query ∧ slot.isStale before,
    w.setSlots (w.slots.map fun slot => if slot.query = query then slot.clear before else slot))

/-- Drops the memo of one slot if it was last verified before `before`; tells whether it did, and
    nothing if there is no such derived slot. -/
def clearSlot (w : World) (query : QueryId) (key : Key) (before : Revision) :
    Option Bool × World :=
  match w.find? query key with
  | none => (none, w)
  | some id =>
    match w.slots[id]? with
    | some slot =>
      match slot.kind with
      | .input => (none, w)
      | .derived =>
        (some (slot.isStale before), w.setSlots (w.slots.modify id (·.clear before)))
    | none => (none, w)

/-! ## The entry lock -/

/-- Takes the entry lock for a request that waits or for one that blocks. -/
def lockEntry (w : World) (waiting : Bool) : World :=
  { w with entryLocked := true, asyncEntry := w.asyncEntry || waiting }

/-- Gives the entry lock back. -/
def unlockEntry (w : World) (waiting : Bool) : World :=
  { w with entryLocked := false, asyncEntry := w.asyncEntry && !waiting }

end World

end RedGreen
