import RedGreen.Session

set_option autoImplicit false

/-! # Running a session

Every step is answered, whatever state the session is in. A report tells the answer together with
what observers saw during the step: the journal is handed out with each report, and the tracer, if
there is one, keeps the events. -/

namespace RedGreen

namespace Session

/-! ## Looking at slots -/

/-- What can be seen of the slot of an identity and a key. -/
def viewSlot (w : World) (query : QueryId) (key : Key) : Answer :=
  match w.find? query key with
  | none => .absent
  | some id =>
    match w.slots[id]? with
    | none => .absent
    | some slot =>
      match slot.content with
      | .input written =>
        let content := match written with
          | some written => .ok written.value
          | none => .error (World.unset query key)
        .slot (.input id slot.info slot.changedAt slot.verifiedAt content)
      | .derived d =>
        .slot (.derived id slot.info slot.changedAt slot.verifiedAt slot.key
          d.deps d.cached)

/-- The existing slots for some keys, in order, with their stamps. -/
def viewDeps (w : World) (query : QueryId) (keys : List Key) : Answer :=
  let ids := keys.filterMap (w.find? query)
  .deps ids (ids.map fun id => (w.changedAt id, w.verifiedAt id))

/-! ## Steps -/

/-- The limits of a session: how many steps a poll may take, and how often a task that asks for it
    is polled again. -/
structure Limits where
  steps : Nat := 100000000
  polls : Nat := 100000000

/-- One step of a session. -/
def step (p : Program) (limits : Limits) (s : Session) : Step → Answer × Session
  | .perform request token =>
    let (token, s) := s.tokenFor token
    match Task.run p limits.steps limits.polls { request, token } s.world with
    | (.ready r, world) => (.ofResult r, { s with world })
    | (.pending _ task, world) => (.pending, { s with world := task.drop world })
  | .spawn name request token =>
    let (token, s) := (s.dropTask name).tokenFor token
    (.done, { s with tasks := s.tasks.insert name { request, token } })
  | .poll name times =>
    match s.tasks.get? name with
    | some task => s.afterPoll name (task.pollTimes p limits.steps (max 1 times) s.world)
    | none => (.unknownTask name, s)
  | .run name =>
    match s.tasks.get? name with
    | some task => s.afterPoll name (task.run p limits.steps limits.polls s.world)
    | none => (.unknownTask name, s)
  | .drop name => (.existed (s.tasks.get? name).isSome, s.dropTask name)
  | .cancel token =>
    let (token, s) := s.tokenFor (some token)
    (.done, { s with world := s.world.cancel token })
  | .lookAtToken token =>
    let (token, s) := s.tokenFor (some token)
    (.token (token ∈ s.world.cancelled), s)
  | .enter name slot =>
    match s.world.enter slot with
    | (.error e, world) => (.failed e, { s with world })
    | (.ok (), world) =>
      let s := dropGuard { s with world } name
      (.reply (.slot slot), { s with guards := s.guards.insert name slot })
  | .leave name => (.existed (s.guards.get? name).isSome, s.dropGuard name)
  | .stack => (.stack s.world.active, s)
  | .slots => (.slots (s.world.slots.map (·.info.text)), s)
  | .describe slot => (.description (s.world.describe? slot), s)
  | .stamps query key => (.stamps (s.world.stamps? query key), s)
  | .debug => (.system s.world.debugText s.world.memoize, s)
  | .resultsFor slot =>
    (if s.traced then .outcomes (s.collector.resultsFor slot) else .reply .nothing, s)
  | .takeEvents =>
    if s.traced then
      let (events, collector) := s.collector.take
      (.reply (.count events.length), { s with collector })
    else (.reply .nothing, s)
  | .cache query keyType valueType =>
    let (opened, w) := s.world.openCache query keyType valueType
    s.answering (fun _ => .cache query (w.slots.countP (·.query = query))) (opened, w)
  | .clearCache query keyType valueType before =>
    match s.world.openCache query keyType valueType with
    | (.error e, world) => (.failed e, { s with world })
    | (.ok (), w) =>
      let (dropped, world) := w.clearCache query before
      (.reply (.count dropped), { s with world })
  | .clearSlot query valueType key before =>
    match s.world.openCache query key.type valueType with
    | (.error e, world) => (.failed e, { s with world })
    | (.ok (), w) =>
      let (dropped, world) := w.clearSlot query key before
      (.cleared dropped, { s with world })
  | .makeInput query valueType key =>
    s.answering (.reply ∘ .slot) (s.world.inputSlot query valueType key)
  | .inspect query valueType key =>
    let (opened, w) := s.world.openCache query key.type valueType
    s.answering (fun _ => viewSlot w query key) (opened, w)
  | .gatherDeps query keyType valueType keys =>
    let (opened, w) := s.world.openCache query keyType valueType
    s.answering (fun _ => viewDeps w query keys) (opened, w)

/-! ## Reports -/

/-- What a step was answered and what observers saw during it. -/
structure Report where
  answer : Answer
  revision : Revision
  runs : List (Label × Key)
  events : List TraceEvent
  logs : List LogEvent

/-- Takes a step and hands the journal of the step out. -/
def report (p : Program) (limits : Limits) (s : Session) (step : Step) : Report × Session :=
  let (answer, s) := s.step p limits step
  let journal := s.world.journal
  let revision := s.world.revision
  ({ answer, revision, runs := journal.runs, events := journal.events, logs := journal.logs },
    { s with
      world := { s.world with journal := [] }
      collector := s.collector.recordAll journal.events })

/-- Takes steps one after the other. -/
def reports (p : Program) (limits : Limits) : Session → List Step → List Report
  | _, [] => []
  | s, step :: steps =>
    let (report, s) := s.report p limits step
    report :: reports p limits s steps

end Session

end RedGreen
