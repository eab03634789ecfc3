set_option autoImplicit false

/-! # Revisions: the logical time of a system

A revision counts the writes a system has seen. Only a write issues a new one, so two revisions of
one system tell which of two events came first. Revisions are natural numbers, ordered as such;
`Revision.never` lies before every revision that is ever issued and marks what has not happened.

A running system counts revisions by 64 bits. What is proved of revisions is about runs with fewer than
2^64 writes, in which the counter does not come back to its start. -/

namespace RedGreen

/-- A point of logical time: how many revisions have been issued, counting the first. -/
abbrev Revision := Nat

namespace Revision

/-- The stamp of a value that was never written or never computed. -/
abbrev never : Revision := 0

/-- The revision a fresh system is at. -/
abbrev start : Revision := 1

/-- The revision issued after this one. -/
abbrev next (r : Revision) : Revision := r + 1

/-- Whether this is `never`. -/
def isNever (r : Revision) : Bool := r == never

/-- The short text of a revision, such as `R3`. -/
def text (r : Revision) : String := "R" ++ Nat.repr r

/-- The long text of a revision, such as `Revision(3)`. -/
def debugText (r : Revision) : String := "Revision(" ++ Nat.repr r ++ ")"

end Revision

end RedGreen
