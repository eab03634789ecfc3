import RedGreen.Key
import RedGreen.Revision
import RedGreen.Value.Equality

set_option autoImplicit false

/-! # Slots: the places where values are kept

A slot holds the values of one query or input for one key. An input slot holds what was last
written. A derived slot knows the body that computes its value and has four parts for what is left of
the last successful run: the value, the revision at which that value last changed, the revision up to
which it is known to be valid, and the slots that the run read, in reading order. A slot without a
value bears no stamps and has no dependencies: a running system keeps the four parts under one lock and
sets or resets them together. Whatever sets the parts has to leave them so; seen together they are an
optional *memo*. -/

namespace RedGreen

/-- A slot is named by its position in the order in which slots were made. -/
abbrev SlotId := Nat

/-- The long text of a slot's position, such as `SlotId(2)`. -/
def SlotId.debugText (s : SlotId) : String := "SlotId(" ++ Nat.repr s ++ ")"

/-- The name under which a program declares a query. Several labels may share an identity. -/
abbrev Label := String

/-- Whether a slot is written or computed. -/
inductive SlotKind where
  | input
  | derived
deriving DecidableEq, Repr

/-- The description of a slot in messages. -/
structure SlotInfo where
  query : QueryId
  /-- The text of the argument key. -/
  key : String
  kind : SlotKind
deriving DecidableEq, Repr

/-- The name of a slot in messages: the identity and, in parentheses, the key. -/
def SlotInfo.text (info : SlotInfo) : String := info.query.name ++ "(" ++ info.key ++ ")"

/-- A value and the revision at which it last changed. -/
structure Stamped where
  value : Value
  changedAt : Revision
deriving DecidableEq, Repr

/-- What a derived slot keeps of its last successful run. -/
structure Memo extends Stamped where
  /-- The revision up to which the value is known to be valid. -/
  verifiedAt : Revision
  /-- The slots that the run read, in the order of first reading. -/
  deps : List SlotId
deriving DecidableEq, Repr

/-- The content of a derived slot. -/
structure Derived where
  /-- The declaration whose body computes the value. -/
  recompute : Label
  /-- When a recomputed value counts as unchanged. -/
  equality : Equivalence
  cached : Option Value := none
  changedAt : Revision := .never
  verifiedAt : Revision := .never
  deps : List SlotId := []
  /-- Without a value there are no stamps and no dependencies. -/
  blank : cached = none → changedAt = .never ∧ verifiedAt = .never ∧ deps = []

namespace Derived

/-- A slot that has no value yet. -/
def fresh (recompute : Label) (equality : Equivalence) : Derived where
  recompute
  equality
  blank _ := ⟨rfl, rfl, rfl⟩

/-- What the slot keeps, if it has a value. -/
def memo (d : Derived) : Option Memo :=
  d.cached.map fun value => ⟨⟨value, d.changedAt⟩, d.verifiedAt, d.deps⟩

/-- Sets all that the slot keeps. -/
def keep (d : Derived) (m : Memo) : Derived :=
  { d with
    cached := some m.value, changedAt := m.changedAt, verifiedAt := m.verifiedAt, deps := m.deps
    blank := nofun }

/-- Resets all that the slot keeps. -/
def reset (d : Derived) : Derived := .fresh d.recompute d.equality

/-- Sets or resets all that the slot keeps. -/
def setMemo (d : Derived) : Option Memo → Derived
  | some m => d.keep m
  | none => d.reset

/-- Whether a recomputed value counts as unchanged. Without a memo it never does. -/
def isUnchanged (d : Derived) (value : Value) : Bool :=
  match d.memo with
  | some old => d.equality old.value value
  | none => false

/-- The memo of a run that started at `revision`, read `deps` and produced `value`. The value is
    always replaced; the stamp of its last change moves only if it does not count as unchanged. -/
def renewed (d : Derived) (value : Value) (revision : Revision) (deps : List SlotId) : Memo :=
  let changedAt :=
    match d.memo with
    | some old => if d.equality old.value value then old.changedAt else revision
    | none => revision
  { value, changedAt, verifiedAt := revision, deps }

/-- Whether a clear of everything verified before `before` drops the memo. -/
def isStale (d : Derived) (before : Revision) : Bool :=
  match d.memo with
  | some memo => memo.verifiedAt < before
  | none => false

theorem isStale_iff {d : Derived} {before : Revision} :
    d.isStale before = true ↔ ∃ m, d.memo = some m ∧ m.verifiedAt < before := by
  unfold isStale
  cases d.memo <;> simp

variable (d : Derived)

@[simp] theorem memo_setMemo (memo : Option Memo) : (d.setMemo memo).memo = memo := by
  cases memo <;> rfl

@[simp] theorem recompute_setMemo (memo : Option Memo) : (d.setMemo memo).recompute = d.recompute := by
  cases memo <;> rfl

@[simp] theorem equality_setMemo (memo : Option Memo) : (d.setMemo memo).equality = d.equality := by
  cases memo <;> rfl

/-- The four parts are the memo, and bear no stamps if there is none. -/
theorem parts_eq : d.cached = d.memo.map (fun m => m.value) ∧
    d.changedAt = (d.memo.map fun m => m.changedAt).getD .never ∧
    d.verifiedAt = (d.memo.map Memo.verifiedAt).getD .never ∧
    d.deps = (d.memo.map Memo.deps).getD [] := by
  obtain ⟨recompute, equality, cached, changedAt, verifiedAt, deps, blank⟩ := d
  cases cached with
  | some value => exact ⟨rfl, rfl, rfl, rfl⟩
  | none =>
    obtain ⟨hchanged, hverified, hdeps⟩ := blank rfl
    exact ⟨rfl, hchanged, hverified, hdeps⟩

end Derived

/-- The content of a slot. -/
inductive Content where
  /-- What was last written, with the revision of the write. -/
  | input (written : Option Stamped)
  | derived (d : Derived)

/-- A slot. -/
structure Slot where
  query : QueryId
  key : Key
  content : Content

namespace Slot

/-- Whether a slot is written or computed. -/
def kind (s : Slot) : SlotKind :=
  match s.content with
  | .input _ => .input
  | .derived _ => .derived

/-- The description of a slot. -/
def info (s : Slot) : SlotInfo := ⟨s.query, s.key.text, s.kind⟩

/-- The revision at which the value last changed. -/
def changedAt (s : Slot) : Revision :=
  match s.content with
  | .input (some written) => written.changedAt
  | .input none => .never
  | .derived d => d.changedAt

/-- The revision up to which the value is known to be valid. An input is valid as of its last
    write. -/
def verifiedAt (s : Slot) : Revision :=
  match s.content with
  | .input (some written) => written.changedAt
  | .input none => .never
  | .derived d => d.verifiedAt

/-- The memo of a derived slot. -/
def memo? (s : Slot) : Option Memo :=
  match s.content with
  | .input _ => none
  | .derived d => d.memo

/-- What an input slot holds. -/
def written? (s : Slot) : Option Stamped :=
  match s.content with
  | .input written => written
  | .derived _ => none

/-- Replaces the memo of a derived slot; an input slot has none and stays as it is. -/
def setMemo (s : Slot) (memo : Option Memo) : Slot :=
  match s.content with
  | .input _ => s
  | .derived d => { s with content := .derived (d.setMemo memo) }

/-- Whether a clear of everything verified before `before` drops the slot's memo. -/
def isStale (s : Slot) (before : Revision) : Bool :=
  match s.content with
  | .input _ => false
  | .derived d => d.isStale before

/-- Drops the memo if it was last verified before `before`. -/
def clear (s : Slot) (before : Revision) : Slot := if s.isStale before then s.setMemo none else s

end Slot

/-- Adds a slot to a list of dependencies unless it is there already. -/
def recordOnce (dep : SlotId) (deps : List SlotId) : List SlotId :=
  if dep ∈ deps then deps else deps ++ [dep]

theorem mem_recordOnce {dep s : SlotId} {deps : List SlotId} :
    s ∈ recordOnce dep deps ↔ s ∈ deps ∨ s = dep := by
  unfold recordOnce
  split
  · constructor
    · exact Or.inl
    · rintro (h | rfl) <;> assumption
  · simp

theorem nodup_recordOnce {dep : SlotId} {deps : List SlotId} (h : deps.Nodup) :
    (recordOnce dep deps).Nodup := by
  unfold recordOnce
  split
  · exact h
  · rename_i hd
    refine List.nodup_append.2 ⟨h, by simp, ?_⟩
    rintro a ha b hb rfl
    exact hd (by simpa [List.mem_singleton.1 hb] using ha)

/-- The long text of a list of slots. -/
def dependenciesText (deps : List SlotId) : String := Text.bracketed (deps.map SlotId.debugText)

end RedGreen
