import RedGreen.Evaluation

set_option autoImplicit false

/-! # One step of an evaluation

A requested value that was verified at the current revision is answered as it is. Otherwise its slot
enters the active stack. If it has a memo, the recorded dependencies are brought up to date in
order, until one turns out to have changed after the memo was last verified; if none has, the memo
is valid now and is kept. In all other cases the body runs, and what it produces becomes the new
memo, stamped with the revision at which the request began.

Without memoization the body always runs and nothing is kept.

An error on the way is reported and answered, and leaves the memo as it was. Whatever way a request
ends, its slot leaves the active stack. -/

namespace RedGreen

namespace World

/-! ## Ends of a request -/

/-- Ends a request for a slot in progress by an error, and reports it. -/
def fail (w : World) (slot : SlotId) (error : QueryError) : Control × World :=
  (.answer (.error error),
    ((w.log (.queryFailed (w.info slot) error)).event
      (.queryEnd (w.info slot) (.ofError error))).leave slot)

/-- Ends a request for a slot in progress by a value, and reports how it came about. -/
def succeed (w : World) (slot : SlotId) (result : Stamped) (outcome : Outcome) : Control × World :=
  (.answer (.ok result), (w.event (.queryEnd (w.info slot) outcome)).leave slot)

/-! ## Bodies -/

/-- Starts the body that a slot is bound to. A slot without a body has nothing to compute. -/
def startBody (w : World) (p : Program) (slot : SlotId) (revision : Revision) : Control × World :=
  match w.slots[slot]? with
  | some { key, content := .derived d, .. } =>
    (.body { slot, revision } ((p d.recompute).body key), w.note (.run d.recompute key))
  | _ => (.body { slot, revision } (.done (.error (.kindMismatch (w.info slot).query))), w)

/-- Records a slot as a dependency of a running body. -/
def record (w : World) (a : Activation) (dep : SlotId) : Activation × World :=
  ({ a with deps := recordOnce dep a.deps },
    if dep ∈ a.deps then w else w.log (.recorded a.slot dep))

/-- Reads an input for a running body. The slot is recorded before its value is looked at, so a body
    that recovers from an unwritten input depends on it too. -/
def read (w : World) (t : Token) (a : Activation) (query : QueryId) (valueType : ValueType)
    (key : Key) : Except QueryError Value × Activation × World :=
  match w.inputSlot query valueType key with
  | (.error e, w) => (.error e, a, w)
  | (.ok dep, w) =>
    let (a, w) := w.record a dep
    match w.written? dep with
    | none => (.error (unset query key), a, w)
    | some written => ((w.check t).map fun _ => written.value, a, w)

/-- Performs an operation for a running body. -/
def perform (w : World) (t : Token) (a : Activation) :
    (op : Operation) → op.Reply × Activation × World
  | .read query valueType key => w.read t a query valueType key
  | .check => (w.check t, a, w)
  | .cancel => ((), a, w.cancel t)
  | .revision => (a.revision, a, w)
  | .slot => (a.slot, a, w)
  | .allocate => (w.allocate.1, a, w.allocate.2)

/-- Keeps what a run produced. -/
def commit (w : World) (a : Activation) (value : Value) : Control × World :=
  match w.slots[a.slot]? with
  | some { content := .derived d, .. } =>
    let memo := d.renewed value a.revision a.deps
    let kept := w.setMemo a.slot (some memo)
    if d.isUnchanged value then
      (kept.log (.earlyCutoff (w.info a.slot) memo.changedAt)).succeed a.slot memo.toStamped
        .unchanged
    else kept.succeed a.slot memo.toStamped .changed
  | _ => w.succeed a.slot ⟨value, a.revision⟩ .changed

/-- Ends a run. The value of a run that was cancelled is not used: it may rest on partial work. -/
def finish (w : World) (t : Token) (a : Activation) (result : Except QueryError Value) :
    Control × World :=
  match result with
  | .error e => w.fail a.slot e
  | .ok value =>
    match w.check t with
    | .error e => if w.memoize then w.fail a.slot e else (.answer (.error e), w.leave a.slot)
    | .ok () =>
      if w.memoize then w.commit a value else w.succeed a.slot ⟨value, a.revision⟩ .changed

/-! ## Requests -/

/-- Begins a request that has to revalidate or compute. -/
def start (w : World) (slot : SlotId) (control : Control) : Control × World :=
  match w.enter slot with
  | (.error e, w) => (.answer (.error e), w)
  | (.ok (), w) => (control, w.event (.queryStart (w.info slot) w.revision))

/-- Begins a request that uses what is kept. -/
def beginMemoized (w : World) (slot : SlotId) : Control × World :=
  match w.memo? slot with
  | some memo =>
    if memo.verifiedAt = w.revision then
      (.answer (.ok memo.toStamped),
        (w.log (.cacheHit (w.info slot) w.revision)).event (.queryEnd (w.info slot) .cacheHit))
    else w.start slot (.walk ⟨slot, w.revision, memo.verifiedAt, memo.deps⟩)
  | none => w.start slot (.compute slot w.revision)

/-- Begins a request that keeps nothing. -/
def beginUncached (w : World) (p : Program) (t : Token) (slot : SlotId) : Control × World :=
  match w.enter slot with
  | (.error e, w) => (.answer (.error e), w)
  | (.ok (), w) =>
    match w.check t with
    | .error e => (.answer (.error e), w.leave slot)
    | .ok () =>
      (w.log (.computeUncached (w.info slot) w.revision)).startBody p slot w.revision

/-- Begins a request for a derived value. -/
def fetch (w : World) (p : Program) (t : Token) (slot : SlotId) : Control × World :=
  if w.memoize then w.beginMemoized slot else w.beginUncached p t slot

/-- Starts the run of a slot that is in progress. -/
def compute (w : World) (p : Program) (t : Token) (slot : SlotId) (revision : Revision) :
    Control × World :=
  match w.check t with
  | .error e => w.fail slot e
  | .ok () => (w.log (.recompute (w.info slot) revision)).startBody p slot revision

/-! ## Revalidation -/

/-- Goes on with a revalidation after a dependency was brought up to date. -/
def touched (w : World) (t : Token) (walk : Walk) (dep : SlotId) (changedAt : Revision) :
    Control × World :=
  match w.check t with
  | .error e => w.fail walk.slot e
  | .ok () =>
    if walk.verifiedAt < changedAt then
      (.compute walk.slot walk.revision,
        w.log (.dependencyChanged (w.info walk.slot) dep changedAt walk.verifiedAt))
    else (.walk walk, w)

/-- Ends a revalidation that found no change. The memo is looked up again, because a clear may have
    dropped it in the meantime; then the body has to run after all. -/
def verify (w : World) (walk : Walk) : Control × World :=
  match w.memo? walk.slot with
  | some memo =>
    ((w.setMemo walk.slot (some { memo with verifiedAt := walk.revision })).log
      (.revalidated (w.info walk.slot) walk.revision)).succeed walk.slot memo.toStamped .revalidated
  | none => (.compute walk.slot walk.revision, w)

end World

/-! ## The step -/

/-- Where an evaluation stands after a step. -/
inductive Progress where
  | running (e : Evaluation) (w : World)
  /-- A body has yielded and everything around it waits. -/
  | parked (e : Evaluation) (w : World)
  | finished (result : Except QueryError Stamped) (w : World)

namespace Evaluation

/-- Goes on with the given control and the same frames. -/
def resume (frames : List Frame) (next : Control × World) : Progress :=
  .running ⟨next.1, frames⟩ next.2

/-- A revalidation turns to its next dependency. An input is up to date as it is. -/
def stepWalk (t : Token) (walk : Walk) (frames : List Frame) (w : World) : Progress :=
  match walk.rest with
  | [] => resume frames (w.verify walk)
  | dep :: rest =>
    let walk := { walk with rest }
    if w.kind? dep = some .derived then
      .running ⟨.fetch dep, .touching walk dep :: frames⟩ w
    else resume frames (w.touched t walk dep (w.changedAt dep))

/-- A body calls a query. The callee is recorded as a dependency before it is requested. -/
def stepCall (p : Program) (a : Activation) (mode : CallMode) (label : Label) (key : Key)
    (next : Except QueryError Value → Body) (frames : List Frame) (w : World) : Progress :=
  match w.derivedSlot (p label).id (p label).valueType key label (p label).equality with
  | (.error e, w) => .running ⟨.body a (next (.error e)), frames⟩ w
  | (.ok callee, w) =>
    let (activation, w) := w.record a callee
    .running ⟨.fetch callee, .calling { activation, mode, callee, next } :: frames⟩ w

/-- A body yields. If all callers around it wait, the evaluation is parked. Otherwise the innermost
    caller that does not wait gives up its callee, with everything in progress inside, and gets an
    error instead of a value. -/
def stepYield (a : Activation) (next : Body) (frames : List Frame) (w : World) : Progress :=
  match splitAtImmediate frames with
  | none => .parked ⟨.body a next, frames⟩ w
  | some (inside, caller, outside) =>
    let w := w.leaveAll (a.slot :: inside.map Frame.slot)
    let error := QueryError.suspended (w.info caller.callee).text
    .running ⟨.body caller.activation (caller.next (.error error)), outside⟩ w

/-- A running body takes a step. -/
def stepBody (p : Program) (t : Token) (a : Activation) (body : Body) (frames : List Frame)
    (w : World) : Progress :=
  match body with
  | .done result => resume frames (w.finish t a result)
  | .perform op next =>
    let (reply, a, w) := w.perform t a op
    .running ⟨.body a (next reply), frames⟩ w
  | .call mode label key next => stepCall p a mode label key next frames w
  | .yield next => stepYield a next frames w

/-- The innermost frame gets its answer. A caller gets the value only if the request has not been
    cancelled meanwhile. -/
def stepAnswer (t : Token) (result : Except QueryError Stamped) (frames : List Frame) (w : World) :
    Progress :=
  match frames with
  | [] => .finished result w
  | .touching walk dep :: frames =>
    match result with
    | .error e => resume frames (w.fail walk.slot e)
    | .ok stamped => resume frames (w.touched t walk dep stamped.changedAt)
  | .calling caller :: frames =>
    let reply :=
      match result with
      | .error e => .error e
      | .ok stamped => (w.check t).map fun _ => stamped.value
    .running ⟨.body caller.activation (caller.next reply), frames⟩ w

/-- One step of an evaluation. -/
def step (p : Program) (t : Token) (e : Evaluation) (w : World) : Progress :=
  match e.control with
  | .fetch slot => resume e.frames (w.fetch p t slot)
  | .walk walk => stepWalk t walk e.frames w
  | .compute slot revision => resume e.frames (w.compute p t slot revision)
  | .body a body => stepBody p t a body e.frames w
  | .answer result => stepAnswer t result e.frames w

end Evaluation

end RedGreen
