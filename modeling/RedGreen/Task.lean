import RedGreen.Request

set_option autoImplicit false

/-! # Tasks: requests that are polled by hand

A task carries a request to its end, one poll after the other. Before its first successful poll it
has not touched the system; a request that goes through the entry lock is in this state until it gets
the lock. After that it is either answered or parked in the middle of its evaluation. A poll tells
whether the task asks to be polled again: a parked one does, one that waits for the lock does not.

A blocking request looks once who holds the lock, when it first finds it taken. If a waiting request
holds it, it is refused. Otherwise it is *queued*: it waits for nothing but the lock from then on,
whoever holds it meanwhile.

The lock is not fair: whoever polls while it is free gets it. Whoever got it gives it back when the
request is answered or the task is dropped. -/

namespace RedGreen

/-- A request on its way. -/
structure Task where
  request : Request
  token : Token
  /-- The rest of the evaluation, once it has begun. -/
  suspended : Option Evaluation := none
  /-- Whether the request has found the entry lock taken and waits for it. -/
  queued : Bool := false

/-- The outcome of a poll. -/
inductive Poll where
  | ready (result : Except QueryError Reply)
  /-- The task is not done; it may have asked to be polled again. -/
  | pending (woken : Bool) (task : Task)

/-- Whether a request gets past the entry lock. -/
inductive Admission where
  | admitted
  | refused
  | waits
deriving DecidableEq, Repr

/-- Tries the entry lock. A blocking request that finds it taken is refused if a waiting one holds it,
    since that one may be parked. Otherwise it is held by a blocking one, which never parks, and the
    request waits; then it is queued and does not look again who holds the lock. -/
def Access.admission (access : Access) (queued : Bool) (w : World) : Admission × World :=
  match access with
  | .free => (.admitted, w)
  | .blocking =>
    if w.entryLocked then
      if !queued && w.asyncEntry then (.refused, w.log .blockingRefused) else (.waits, w)
    else (.admitted, w.lockEntry false)
  | .waiting => if w.entryLocked then (.waits, w) else (.admitted, w.lockEntry true)

/-- Gives back what `admission` took. -/
def Access.release (access : Access) (w : World) : World :=
  match access with
  | .free => w
  | .blocking => w.unlockEntry false
  | .waiting => w.unlockEntry true

namespace Task

/-- What a poll comes to when the evaluation stands where it stands. -/
def settle (task : Task) (progress : Progress) : Poll × World :=
  match progress with
  | .finished result w =>
    (.ready (result.map task.request.replyOf), task.request.access.release w)
  | .parked e w => (.pending true { task with suspended := some e }, w)
  | .running e w => (.pending true { task with suspended := some e }, w)

/-- Goes on with an evaluation. A blocking request does not come back before it is done. -/
def resume (p : Program) (budget : Nat) (task : Task) (e : Evaluation) (w : World) : Poll × World :=
  task.settle <|
    match task.request.access with
    | .blocking => e.drive p task.token budget w
    | _ => e.advance p task.token budget w

/-- Polls a task once. -/
def poll (p : Program) (budget : Nat) (task : Task) (w : World) : Poll × World :=
  match task.suspended with
  | some e => task.resume p budget e w
  | none =>
    match task.request.access.admission task.queued w with
    | (.refused, w) => (.ready (.error .busy), w)
    | (.waits, w) => (.pending false { task with queued := true }, w)
    | (.admitted, w) =>
      match task.request.begin p w with
      | (.answered result, w) => (.ready result, task.request.access.release w)
      | (.evaluating e, w) => task.resume p budget e w

/-- Polls a task until it is done, at most the given number of times. -/
def pollTimes (p : Program) (budget : Nat) : Nat → Task → World → Poll × World
  | 0, task, w => (.pending false task, w)
  | 1, task, w => task.poll p budget w
  | n + 2, task, w =>
    match task.poll p budget w with
    | (.pending _ task, w) => pollTimes p budget (n + 1) task w
    | done => done

/-- Polls a task for as long as it asks for it, at most the given number of times. -/
def run (p : Program) (budget : Nat) : Nat → Task → World → Poll × World
  | 0, task, w => (.pending true task, w)
  | n + 1, task, w =>
    match task.poll p budget w with
    | (.pending true task, w) => run p budget n task w
    | other => other

/-- Drops a task: its slots leave the active stack, and the lock it may hold is free again. -/
def drop (task : Task) (w : World) : World :=
  match task.suspended with
  | none => w
  | some e => task.request.access.release (e.abandon w)

end Task

end RedGreen
