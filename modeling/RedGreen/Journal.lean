import RedGreen.Error
import RedGreen.Slot

set_option autoImplicit false

/-! # The journal: what observers are told

Three kinds of observers watch a system. A tracer is told of writes, of the start and the end of
requests for derived values, and of cycles. A log is told of every step in more detail. A counter of
runs is told when a body starts. What they are told goes into one journal, in the order in which it
happened; each observer reads its own kind of entry. -/

namespace RedGreen

/-- How a request for a derived value ended. -/
inductive Outcome where
  /-- The value was recomputed and differs from the previous one. -/
  | changed
  /-- The value was recomputed and counts as unchanged. -/
  | unchanged
  /-- The value was already verified at the current revision. -/
  | cacheHit
  /-- No dependency had changed; the value was kept. -/
  | revalidated
  | cycleDetected
  | cancelled
  | error (message : String)
deriving DecidableEq, Repr

/-- How a request ended that failed with an error. -/
def Outcome.ofError : QueryError → Outcome
  | .cycle _ => .cycleDetected
  | .cancelled => .cancelled
  | e => .error e.message

/-- An event for the tracer. -/
inductive TraceEvent where
  | inputSet (slot : SlotInfo) (revision : Revision)
  | queryStart (slot : SlotInfo) (revision : Revision)
  | queryEnd (slot : SlotInfo) (outcome : Outcome)
  | cycleDetected (path : List String)
deriving DecidableEq, Repr

/-- The severity of a log event. -/
inductive LogLevel where
  | trace
  | debug
deriving DecidableEq, Repr

/-- The name of a severity. -/
def LogLevel.name : LogLevel → String
  | .trace => "TRACE"
  | .debug => "DEBUG"

/-- An event for the log. -/
inductive LogEvent where
  | cacheCreated (query : QueryId)
  | slotCreated (slot : SlotId) (info : SlotInfo)
  | entered (slot : SlotId) (depth : Nat)
  | left (slot : SlotId) (depth : Nat)
  | recorded (reader dep : SlotId)
  | inputSet (slot : SlotInfo) (revision : Revision)
  | cacheHit (slot : SlotInfo) (revision : Revision)
  | dependencyChanged (slot : SlotInfo) (dep : SlotId) (changedAt verifiedAt : Revision)
  | revalidated (slot : SlotInfo) (revision : Revision)
  | recompute (slot : SlotInfo) (revision : Revision)
  | earlyCutoff (slot : SlotInfo) (changedAt : Revision)
  | computeUncached (slot : SlotInfo) (revision : Revision)
  | queryFailed (slot : SlotInfo) (error : QueryError)
  | cycleDetected (path : List String)
  | cleared (before : Revision) (count : Nat)
  | blockingRefused
deriving DecidableEq, Repr

namespace LogEvent

/-- The severity of an event: what changes the outcome of a request is `debug`, the small steps are
    `trace`. -/
def level : LogEvent → LogLevel
  | .cacheCreated _ | .slotCreated _ _ | .entered _ _ | .left _ _ | .recorded _ _ | .cacheHit _ _
  | .dependencyChanged _ _ _ _ | .computeUncached _ _ => .trace
  | .inputSet _ _ | .revalidated _ _ | .recompute _ _ | .earlyCutoff _ _ | .queryFailed _ _
  | .cycleDetected _ | .cleared _ _ | .blockingRefused => .debug

/-- The wording of an event. -/
def message : LogEvent → String
  | .cacheCreated _ => "new query cache"
  | .slotCreated _ info =>
    match info.kind with
    | .input => "new input slot"
    | .derived => "new derived slot"
  | .entered _ _ => "enter"
  | .left _ _ => "leave"
  | .recorded _ _ => "record dep"
  | .inputSet _ _ => "input set"
  | .cacheHit _ _ => "cache hit"
  | .dependencyChanged _ _ _ _ => "dependency changed"
  | .revalidated _ _ => "revalidated"
  | .recompute _ _ => "recompute"
  | .earlyCutoff _ _ => "early cutoff"
  | .computeUncached _ _ => "compute without memoization"
  | .queryFailed _ _ => "query failed"
  | .cycleDetected _ => "cycle detected"
  | .cleared _ _ => "clear"
  | .blockingRefused => "blocking entry refused: async request in flight"

/-- The named details of an event, as texts. -/
def fields : LogEvent → List (String × String)
  | .cacheCreated query => [("query", query.name)]
  | .slotCreated slot info => [("slot", Nat.repr slot), ("info", info.text)]
  | .entered slot depth => [("slot", Nat.repr slot), ("depth", Nat.repr depth)]
  | .left slot depth => [("slot", Nat.repr slot), ("depth", Nat.repr depth)]
  | .recorded reader dep => [("frame", Nat.repr reader), ("dep", Nat.repr dep)]
  | .inputSet slot revision => [("slot", slot.text), ("revision", revision.text)]
  | .cacheHit slot revision => [("slot", slot.text), ("revision", revision.text)]
  | .dependencyChanged slot dep changedAt verifiedAt =>
    [("slot", slot.text), ("dep", Nat.repr dep), ("changed_at", changedAt.text),
      ("verified_at", verifiedAt.text)]
  | .revalidated slot revision => [("slot", slot.text), ("revision", revision.text)]
  | .recompute slot revision => [("slot", slot.text), ("revision", revision.text)]
  | .earlyCutoff slot changedAt => [("slot", slot.text), ("changed_at", changedAt.text)]
  | .computeUncached slot revision => [("slot", slot.text), ("revision", revision.text)]
  | .queryFailed slot error => [("slot", slot.text), ("error", error.message)]
  | .cycleDetected path => [("path", " -> ".intercalate path)]
  | .cleared before count => [("before", before.text), ("cleared", Nat.repr count)]
  | .blockingRefused => []

end LogEvent

/-- An entry of the journal. -/
inductive Entry where
  | event (e : TraceEvent)
  | log (e : LogEvent)
  /-- The body of a declaration starts for a key. -/
  | run (label : Label) (key : Key)
deriving DecidableEq, Repr

/-- What was observed, oldest first. -/
abbrev Journal := List Entry

namespace Journal

/-- What the tracer reads. -/
def events (j : Journal) : List TraceEvent :=
  j.filterMap fun
    | .event e => some e
    | _ => none

/-- What the log reads. -/
def logs (j : Journal) : List LogEvent :=
  j.filterMap fun
    | .log e => some e
    | _ => none

/-- What the counter of runs reads. -/
def runs (j : Journal) : List (Label × Key) :=
  j.filterMap fun
    | .run label key => some (label, key)
    | _ => none

theorem events_append (i j : Journal) : events (i ++ j) = events i ++ events j :=
  List.filterMap_append ..

theorem runs_append (i j : Journal) : runs (i ++ j) = runs i ++ runs j :=
  List.filterMap_append ..

end Journal

/-- A tracer that keeps every event until it is emptied. -/
structure Collector where
  events : List TraceEvent := []

namespace Collector

/-- Keeps one more event. -/
def record (c : Collector) (e : TraceEvent) : Collector := ⟨c.events ++ [e]⟩

/-- Keeps several more events. -/
def recordAll (c : Collector) (es : List TraceEvent) : Collector := es.foldl record c

/-- Hands out the events and is empty afterwards. -/
def take (c : Collector) : List TraceEvent × Collector := (c.events, ⟨[]⟩)

/-- How the requests for the slot with the given text ended. -/
def resultsFor (c : Collector) (slot : String) : List Outcome :=
  c.events.filterMap fun
    | .queryEnd info outcome => if info.text = slot then some outcome else none
    | _ => none

theorem events_recordAll (c : Collector) (es : List TraceEvent) :
    (c.recordAll es).events = c.events ++ es := by
  induction es generalizing c with
  | nil => simp [recordAll]
  | cons e es ih =>
    have := ih (c.record e)
    simp only [recordAll, List.foldl_cons] at *
    simpa [record] using this

end Collector

end RedGreen
