import RedGreen.Slot

set_option autoImplicit false

/-! # The state of a system

A system is at a revision and holds slots. An identity selects a cache, which fixes the types of its
keys and values with the first use; within the cache a key selects a slot. Slots are numbered in the
order in which they are made and none is ever removed, so a slot is named by its position. A running
system fills the registry that describes its slots and the caches that hold their values together, under
the lock of the cache, and takes nothing out of either; so one list of slots stands for both. The
active stack lists the slots whose values are in progress, outermost first. The entry lock admits
one top-level request at a time; a flag beside it tells whether its holder is one that waits. -/

namespace RedGreen

/-- The types that the first use of an identity has fixed. -/
structure Cache where
  query : QueryId
  keyType : KeyType
  valueType : ValueType
deriving DecidableEq, Repr

/-- The state of a system. -/
structure System where
  revision : Revision := .start
  caches : List Cache := []
  slots : List Slot := []
  /-- The slots in progress, outermost first. -/
  active : List SlotId := []
  /-- Whether some top-level request holds the system. -/
  entryLocked : Bool := false
  /-- Whether the holder is a waiting request. -/
  asyncEntry : Bool := false
  /-- Whether values are kept; without this every request computes afresh. -/
  memoize : Bool := true

namespace System

/-- The cache of an identity. -/
def cache? (s : System) (query : QueryId) : Option Cache := s.caches.find? (·.query = query)

/-- The slot of an identity and a key. -/
def find? (s : System) (query : QueryId) (key : Key) : Option SlotId :=
  s.slots.findIdx? fun slot => slot.query = query ∧ slot.key = key

/-- The description of a slot. -/
def describe? (s : System) (id : SlotId) : Option SlotInfo := s.slots[id]?.map Slot.info

/-- The description of a slot that exists. A slot that does not exist is described by nothing. -/
def info (s : System) (id : SlotId) : SlotInfo := (s.describe? id).getD ⟨⟨""⟩, "", .derived⟩

/-- The name of a slot in a cycle path; one that does not exist is named by its position. -/
def nameOf (s : System) (id : SlotId) : String :=
  match s.describe? id with
  | some info => info.text
  | none => "#" ++ Nat.repr id

/-- Whether a slot is written or computed. -/
def kind? (s : System) (id : SlotId) : Option SlotKind := s.slots[id]?.map Slot.kind

/-- The memo of a derived slot. -/
def memo? (s : System) (id : SlotId) : Option Memo := s.slots[id]?.bind Slot.memo?

/-- What an input slot holds. -/
def written? (s : System) (id : SlotId) : Option Stamped := s.slots[id]?.bind Slot.written?

/-- The revision at which a slot's value last changed. -/
def changedAt (s : System) (id : SlotId) : Revision := (s.slots[id]?.map Slot.changedAt).getD .never

/-- The revision up to which a slot's value is known to be valid. -/
def verifiedAt (s : System) (id : SlotId) : Revision :=
  (s.slots[id]?.map Slot.verifiedAt).getD .never

/-- The two stamps of the slot of an identity and a key, if there is one. -/
def stamps? (s : System) (query : QueryId) (key : Key) : Option (Revision × Revision) :=
  (s.find? query key).map fun id => (s.changedAt id, s.verifiedAt id)

/-- The long text of a system. -/
def debugText (s : System) : String :=
  "DependencySystem \x7b revision: " ++ s.revision.debugText ++ ", slots: " ++
    Nat.repr s.slots.length ++ ", memoize: " ++ (if s.memoize then "true" else "false") ++
    ", .. \x7d"

end System

end RedGreen
