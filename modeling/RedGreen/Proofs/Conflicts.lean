import RedGreen.Proofs.Directory

set_option autoImplicit false

/-! # Slots are fixed, and conflicting uses are refused

An operation that goes through a cache presumes the types of the cache, and often a kind of slot at a
key (`Address`). A world conflicts with that if the identity is used with other types already, or the
key with the other kind. Since every slot lies in a cache, such an operation makes nothing before it
meets the conflict, so it ends in an error and leaves the system as it was, wherever it comes from:
a request, a read or a call of a running body, or a client that looks at a cache.

Together with the order of the directory this makes the slots of a system and its entries, the pairs
of an identity and a key, the same for good (`slots_are_fixed`). -/

namespace RedGreen

open Evaluation

variable {p : Program} {t : Token} {w w' : World}

/-- What an operation presumes of the cache of an identity, and perhaps of the slot at a key. -/
structure Address where
  query : QueryId
  keyType : KeyType
  valueType : ValueType
  entry : Option (Key × SlotKind) := none
deriving DecidableEq, Repr

namespace Address

/-- The address of a slot. -/
def slot (query : QueryId) (valueType : ValueType) (key : Key) (kind : SlotKind) : Address :=
  { query, keyType := key.type, valueType, entry := some (key, kind) }

/-- The address of the slot that a call asks for. -/
def callee (p : Program) (label : Label) (key : Key) : Address :=
  .slot (p label).id (p label).valueType key .derived

end Address

namespace World

/-- An address cannot be had: its identity has other types, or its key another kind. -/
inductive Conflicts (w : World) (a : Address) : Prop
  | types {cache : Cache} (found : w.cache? a.query = some cache)
    (differs : ¬(cache.keyType = a.keyType ∧ cache.valueType = a.valueType))
  | kind {key : Key} {kind : SlotKind} {i : SlotId} (entry : a.entry = some (key, kind))
    (found : w.find? a.query key = some i) (differs : w.kind? i ≠ some kind)

/-- Nothing is made, issued or changed; at most the entry lock is taken or given back. -/
structure Untouched (w w' : World) : Prop where
  revision : w'.revision = w.revision
  caches : w'.caches = w.caches
  slots : w'.slots = w.slots
  active : w'.active = w.active
  memoize : w'.memoize = w.memoize

theorem Untouched.refl (w : World) : w.Untouched w := ⟨rfl, rfl, rfl, rfl, rfl⟩

theorem Untouched.of_toSystem (h : w'.toSystem = w.toSystem) : w.Untouched w' :=
  ⟨congrArg _ h, congrArg _ h, congrArg _ h, congrArg _ h, congrArg _ h⟩

theorem Untouched.trans {w'' : World} (h : w.Untouched w') (h' : w'.Untouched w'') :
    w.Untouched w'' :=
  ⟨h'.revision.trans h.revision, h'.caches.trans h.caches, h'.slots.trans h.slots,
    h'.active.trans h.active, h'.memoize.trans h.memoize⟩

theorem Conflicts.of_untouched {a : Address} (h : w.Untouched w') (hconflict : w.Conflicts a) :
    w'.Conflicts a := by
  cases hconflict with
  | types found differs =>
    exact .types (by rwa [System.cache?, h.caches]) differs
  | kind entry found differs =>
    exact .kind entry (by rwa [System.find?, h.slots]) (by rwa [System.kind?, h.slots])

theorem InDirectory.of_untouched (h : w.Untouched w') (hw : w.InDirectory p) : w'.InDirectory p :=
  hw.of_blank h.caches (congrArg _ h.slots)

/-! ## What meets a conflict -/

theorem openCache_of_types {query : QueryId} {keyType : KeyType} {valueType : ValueType}
    {cache : Cache} (found : w.cache? query = some cache)
    (differs : ¬(cache.keyType = keyType ∧ cache.valueType = valueType)) :
    w.openCache query keyType valueType = (.error (.kindMismatch query), w) := by
  simp only [openCache, found, if_neg differs]

/-- What only opens a cache conflicts by its types. -/
theorem Conflicts.openCache {query : QueryId} {keyType : KeyType} {valueType : ValueType}
    (h : w.Conflicts { query, keyType, valueType }) :
    w.openCache query keyType valueType = (.error (.kindMismatch query), w) := by
  cases h with
  | types found differs => exact openCache_of_types found differs
  | kind entry => cases entry

/-- Nobody makes the cache of a slot that exists: it is there, and has the types asked for or
    others. -/
theorem InDirectory.openCache_of_find? (h : w.InDirectory p) {query : QueryId} {key : Key}
    {i : SlotId} (found : w.find? query key = some i) (keyType : KeyType) (valueType : ValueType) :
    w.openCache query keyType valueType = (.ok (), w) ∨
      w.openCache query keyType valueType = (.error (.kindMismatch query), w) := by
  obtain ⟨slot, hslot, rfl, -⟩ := System.node?_eq_some.1 (System.node?_of_find? found)
  obtain ⟨valueType', hcache, -⟩ := h.cached hslot
  simp only [World.openCache, hcache]
  split
  · exact .inl rfl
  · exact .inr rfl

/-- What asks for a slot does not get it, and makes none. -/
theorem Conflicts.slotFor (h : w.InDirectory p) {valueType : ValueType} (fresh : Slot)
    (hconflict : w.Conflicts (.slot fresh.query valueType fresh.key fresh.kind)) :
    w.slotFor valueType fresh = (.error (.kindMismatch fresh.query), w) := by
  cases hconflict with
  | types found differs =>
    have hopen := openCache_of_types found differs
    simp only [Address.slot] at hopen
    simp only [World.slotFor, hopen]
  | @kind key kind i entry found differs =>
    cases entry
    have hfound : w.find? fresh.query fresh.key = some i := found
    rcases h.openCache_of_find? hfound fresh.key.type valueType with hopen | hopen
    · simp only [World.slotFor, hopen, World.obtain, hfound, if_neg differs]
    · simp only [World.slotFor, hopen]

theorem Conflicts.inputSlot (h : w.InDirectory p) {query : QueryId} {valueType : ValueType}
    {key : Key} (hconflict : w.Conflicts (.slot query valueType key .input)) :
    w.inputSlot query valueType key = (.error (.kindMismatch query), w) :=
  Conflicts.slotFor h ⟨query, key, .input none⟩ hconflict

theorem Conflicts.derivedSlot (h : w.InDirectory p) {label : Label} {key : Key}
    (hconflict : w.Conflicts (.callee p label key)) (equality : Equivalence) :
    w.derivedSlot (p label).id (p label).valueType key label equality =
      (.error (.kindMismatch (p label).id), w) :=
  Conflicts.slotFor h ⟨(p label).id, key, .derived (.fresh label equality)⟩ hconflict

theorem Conflicts.inputValue (h : w.InDirectory p) {query : QueryId} {valueType : ValueType}
    {key : Key} (hconflict : w.Conflicts (.slot query valueType key .input)) :
    w.inputValue query valueType key = (.error (.kindMismatch query), w) := by
  cases hconflict with
  | types found differs =>
    have hopen := openCache_of_types found differs
    simp only [Address.slot] at hopen
    simp only [World.inputValue, hopen]
  | @kind key' kind i entry found differs =>
    cases entry
    have hfound : w.find? query key = some i := found
    rcases h.openCache_of_find? hfound key.type valueType with hopen | hopen
    · obtain ⟨⟨query', key', content⟩, hslot, -⟩ :=
        System.node?_eq_some.1 (System.node?_of_find? hfound)
      cases content with
      | input written => exact absurd (by rw [System.kind?, hslot]; rfl) differs
      | derived d =>
        simp only [World.inputValue, hopen, hfound, Option.bind_some, hslot]
    · simp only [World.inputValue, hopen]

end World

/-! ## Running bodies -/

/-- A read that meets a conflict is answered by the error. Nothing is made or recorded. -/
theorem World.Conflicts.perform (h : w.InDirectory p) {query : QueryId} {valueType : ValueType}
    {key : Key} (hconflict : w.Conflicts (.slot query valueType key .input)) (t : Token)
    (a : Activation) :
    w.perform t a (.read query valueType key) = (.error (.kindMismatch query), a, w) := by
  simp only [World.perform, World.read, hconflict.inputSlot h]
  rfl

/-- A call that meets a conflict is answered by the error. Nothing is made or recorded. -/
theorem World.Conflicts.stepCall (h : w.InDirectory p) {label : Label} {key : Key}
    (hconflict : w.Conflicts (.callee p label key)) (a : Activation) (mode : CallMode)
    (next : Except QueryError Value → Body) (frames : List Frame) :
    Evaluation.stepCall p a mode label key next frames w =
      .running ⟨.body a (next (.error (.kindMismatch (p label).id))), frames⟩ w := by
  simp only [Evaluation.stepCall, hconflict.derivedSlot h]

/-! ## Requests -/

/-- What a request presumes. A request to bring a slot up to date takes either kind, and a clear takes
    everything. -/
def Request.address? (p : Program) : Request → Option Address
  | .write _ id key value => some (.slot id value.type key .input)
  | .read id valueType key => some (.slot id valueType key .input)
  | .query _ label key | .derive label key _ | .prepare label key _ => some (.callee p label key)
  | .touch id valueType key => some { query := id, keyType := key.type, valueType }
  | .clear _ _ => none

theorem World.toSystem_ownCopy (w : World) (value : Value) :
    (w.ownCopy value).2.toSystem = w.toSystem := by
  unfold ownCopy
  split <;> rfl

theorem World.type_ownCopy (w : World) (value : Value) :
    (w.ownCopy value).1.type = value.type := by
  unfold ownCopy
  split <;> rfl

/-- A request that meets a conflict is answered by the error at once. -/
theorem Request.begin_of_conflicts (h : w.InDirectory p) {request : Request} {a : Address}
    (haddress : request.address? p = some a) (hconflict : w.Conflicts a) :
    ∃ w', request.begin p w = (.answered (.error (.kindMismatch a.query)), w') ∧
      w.Untouched w' := by
  cases request with
  | write access query key value =>
    cases haddress
    have hown : w.Untouched (w.ownCopy value).2 := .of_toSystem (w.toSystem_ownCopy value)
    have hslot := (hconflict.of_untouched hown).inputSlot (h.of_untouched hown)
    refine ⟨(w.ownCopy value).2, ?_, hown⟩
    simp only [begin, World.write, w.type_ownCopy, hslot]
    rfl
  | read query valueType key =>
    cases haddress
    simp only [begin, hconflict.inputValue h]
    exact ⟨w, rfl, .refl w⟩
  | query access label key =>
    cases haddress
    simp only [begin, hconflict.derivedSlot h]
    exact ⟨w, rfl, .refl w⟩
  | derive label key equality | prepare label key equality =>
    cases haddress
    simp only [begin, hconflict.derivedSlot h]
    exact ⟨w, rfl, .refl w⟩
  | touch query valueType key =>
    cases haddress
    simp only [begin, hconflict.openCache]
    exact ⟨w, rfl, .refl w⟩
  | clear access before => cases haddress

theorem Access.untouched_admission (access : Access) (queued : Bool) (w : World) :
    w.Untouched (access.admission queued w).2 := by
  cases access with
  | free => exact .refl w
  | blocking =>
    simp only [Access.admission]
    split
    · split <;> exact ⟨rfl, rfl, rfl, rfl, rfl⟩
    · exact ⟨rfl, rfl, rfl, rfl, rfl⟩
  | waiting =>
    simp only [Access.admission]
    split <;> exact ⟨rfl, rfl, rfl, rfl, rfl⟩

theorem Access.untouched_release (access : Access) (w : World) :
    w.Untouched (access.release w) := by
  cases access <;> exact ⟨rfl, rfl, rfl, rfl, rfl⟩

/-! ## Tasks -/

namespace Task

variable {task : Task} {query : QueryId} {a : Address}

/-- What becomes of a task whose request meets a conflict: it is answered by the error, or the entry
    lock is taken and it is refused or waits there. -/
inductive Rejected (task : Task) (w : World) (query : QueryId) : Poll × World → Prop
  | answered {w' : World} (untouched : w.Untouched w') :
    Rejected task w query (.ready (.error (.kindMismatch query)), w')
  | refused {w' : World} (locked : w.entryLocked = true) (untouched : w.Untouched w') :
    Rejected task w query (.ready (.error .busy), w')
  | waits (locked : w.entryLocked = true) :
    Rejected task w query (.pending false { task with queued := true }, w)

/-- Having been queued before makes no difference. -/
theorem Rejected.of_queued {out : Poll × World}
    (h : Rejected { task with queued := true } w query out) : task.Rejected w query out := by
  cases h with
  | answered untouched => exact .answered untouched
  | refused locked untouched => exact .refused locked untouched
  | waits locked => exact .waits locked

theorem poll_of_conflicts (h : w.InDirectory p) (hunbegun : task.suspended = none)
    (haddress : task.request.address? p = some a) (hconflict : w.Conflicts a) (budget : Nat) :
    task.Rejected w a.query (task.poll p budget w) := by
  have htried := task.request.access.untouched_admission task.queued w
  have htries := task.request.access.tries_admission task.queued w
  have hlocked : (task.request.access.admission task.queued w).1 ≠ .admitted → w.entryLocked = true := by
    intro hne
    by_contra hfree
    obtain ⟨w₁, hentry, -⟩ :=
      task.request.access.admission_of_unlocked task.queued ((Bool.not_eq_true _).mp hfree)
    exact hne (by rw [hentry])
  obtain ⟨request, token, suspended, queued⟩ := task
  obtain rfl : suspended = none := hunbegun
  simp only [poll]
  generalize request.access.admission queued w = out at htried htries hlocked
  obtain ⟨admission, w₁⟩ := out
  cases admission with
  | refused => exact .refused (hlocked fun h => by cases h) htried
  | waits =>
    cases htries
    exact .waits (hlocked fun h => by cases h)
  | admitted =>
    obtain ⟨w₂, hbegin, hsame⟩ := Request.begin_of_conflicts (h.of_untouched htried) haddress
      (hconflict.of_untouched htried)
    simp only [hbegin]
    exact .answered ((htried.trans hsame).trans (request.access.untouched_release w₂))

theorem run_of_conflicts (h : w.InDirectory p) (task : Task) (hunbegun : task.suspended = none)
    (haddress : task.request.address? p = some a) (hconflict : w.Conflicts a) (budget polls : Nat) :
    task.Rejected w a.query (task.run p budget (polls + 1) w) := by
  have hpoll := poll_of_conflicts h hunbegun haddress hconflict budget
  rw [run]
  generalize task.poll p budget w = out at hpoll
  cases hpoll with
  | answered untouched => exact .answered untouched
  | refused locked untouched => exact .refused locked untouched
  | waits locked => exact .waits locked

theorem pollTimes_of_conflicts (h : w.InDirectory p) (hunbegun : task.suspended = none)
    (haddress : task.request.address? p = some a) (hconflict : w.Conflicts a) (budget times : Nat) :
    task.Rejected w a.query (task.pollTimes p budget (times + 1) w) := by
  induction times generalizing task with
  | zero => exact poll_of_conflicts h hunbegun haddress hconflict budget
  | succ times ih =>
    have hpoll := poll_of_conflicts h hunbegun haddress hconflict budget
    rw [pollTimes]
    generalize task.poll p budget w = out at hpoll
    cases hpoll with
    | answered untouched => exact .answered untouched
    | refused locked untouched => exact .refused locked untouched
    | waits locked =>
      have hqueued : Task.Rejected { task with queued := true } w a.query
          (pollTimes p budget (times + 1) { task with queued := true } w) := ih hunbegun haddress
      exact hqueued.of_queued

end Task

/-! ## Clients -/

/-- What a step of a client presumes: a step that carries a request which has not begun, what the
    request presumes; a step that opens a cache, its types. -/
inductive Step.Addresses (p : Program) (s : Session) : Step → Address → Prop
  | requests {step : Step} {request : Request} {name : Option String} {a : Address}
    (carries : step.Carries s request name)
    (unbegun : ∀ n task, name = some n → s.tasks.get? n = some task → task.suspended = none)
    (address : request.address? p = some a) : Addresses p s step a
  | cache (query : QueryId) (keyType : KeyType) (valueType : ValueType) :
    Addresses p s (.cache query keyType valueType) { query, keyType, valueType }
  | clearCache (query : QueryId) (keyType : KeyType) (valueType : ValueType) (before : Revision) :
    Addresses p s (.clearCache query keyType valueType before) { query, keyType, valueType }
  | clearSlot (query : QueryId) (valueType : ValueType) (key : Key) (before : Revision) :
    Addresses p s (.clearSlot query valueType key before) { query, keyType := key.type, valueType }
  | makeInput (query : QueryId) (valueType : ValueType) (key : Key) :
    Addresses p s (.makeInput query valueType key) (.slot query valueType key .input)
  | inspect (query : QueryId) (valueType : ValueType) (key : Key) :
    Addresses p s (.inspect query valueType key) { query, keyType := key.type, valueType }
  | gatherDeps (query : QueryId) (keyType : KeyType) (valueType : ValueType) (keys : List Key) :
    Addresses p s (.gatherDeps query keyType valueType keys) { query, keyType, valueType }

namespace Session

variable {s : Session} {a : Address}

/-- A step that meets a conflict is answered by the error, unless it carries a request that does not
    get past the entry lock, and changes nothing. -/
def Rejects (s : Session) (query : QueryId) (out : Answer × Session) : Prop :=
  s.world.Untouched out.2.world ∧ (out.1 = .failed (.kindMismatch query) ∨
    s.world.entryLocked = true ∧ (out.1 = .pending ∨ out.1 = .failed .busy))

theorem rejects_afterPoll {task : Task} {query : QueryId} {out : Poll × World}
    (h : task.Rejected s.world query out) (name : String) :
    s.Rejects query (s.afterPoll name out) := by
  cases h with
  | answered untouched => exact ⟨untouched, .inl rfl⟩
  | refused locked untouched => exact ⟨untouched, .inr ⟨locked, .inr rfl⟩⟩
  | waits locked => exact ⟨.refl _, .inr ⟨locked, .inl rfl⟩⟩

theorem step_of_conflicts (h : s.world.InDirectory p) {limits : Limits} (hpolls : 0 < limits.polls)
    {step : Step} (haddress : step.Addresses p s a) (hconflict : s.world.Conflicts a) :
    s.Rejects a.query (s.step p limits step) := by
  obtain ⟨polls, hpolls⟩ := Nat.exists_eq_add_of_lt hpolls
  rw [Nat.zero_add] at hpolls
  cases haddress with
  | @requests step request name a carries unbegun address =>
    cases carries with
    | perform _ token =>
      have hrun := Task.run_of_conflicts h { request, token := (s.tokenFor token).1 } rfl
        address hconflict limits.steps polls
      have hworld := s.world_tokenFor token
      simp only [Session.step, hpolls]
      generalize s.tokenFor token = made at hrun hworld
      obtain ⟨token, s₁⟩ := made
      simp only at hrun hworld ⊢
      rw [hworld]
      generalize Task.run p limits.steps (polls + 1) { request, token } s.world = out at hrun
      cases hrun with
      | answered untouched => exact ⟨untouched, .inl rfl⟩
      | refused locked untouched => exact ⟨untouched, .inr ⟨locked, .inr rfl⟩⟩
      | waits locked => exact ⟨.refl _, .inr ⟨locked, .inl rfl⟩⟩
    | @poll name task times found =>
      obtain ⟨times', htimes⟩ : ∃ n, max 1 times = n + 1 := ⟨max 1 times - 1, by omega⟩
      simp only [Session.step, found, htimes]
      exact rejects_afterPoll (Task.pollTimes_of_conflicts h (unbegun _ _ rfl found) address
        hconflict _ _) name
    | @run name task found =>
      simp only [Session.step, found, hpolls]
      exact rejects_afterPoll (Task.run_of_conflicts h task (unbegun _ _ rfl found) address hconflict
        _ _) name
  | makeInput query valueType key =>
    simp only [Session.step, hconflict.inputSlot h]
    exact ⟨.refl _, .inl rfl⟩
  | cache | clearCache | clearSlot | inspect | gatherDeps =>
    simp only [Session.step, hconflict.openCache]
    exact ⟨.refl _, .inl rfl⟩

end Session

/-! ## Entries and slots -/

namespace World

/-- The slots of a world are its entries. The slots in use are numbered from zero; each belongs to one
    identity and key, which it is found under and described by, and to one cache, which has the type of
    its key and, if it is computed, the types of the query that it is bound to. That the numbers are in
    use and the descriptions are right follows from how slots are kept: an entry of a cache and its
    description in the registry are made together, once. -/
structure Catalogued (p : Program) (w : World) : Prop where
  numbered : ∀ i, (w.describe? i).isSome ↔ i < w.slots.length
  described : ∀ i slot, w.slots[i]? = some slot →
    w.describe? i = some ⟨slot.query, slot.key.text, slot.kind⟩
  found : ∀ query key i, w.find? query key = some i ↔
    ∃ slot, w.slots[i]? = some slot ∧ slot.query = query ∧ slot.key = key
  cached : ∀ slot ∈ w.slots, ∃ cache ∈ w.caches, cache.query = slot.query ∧
    cache.keyType = slot.key.type ∧ slot.BoundTo p cache.valueType ∧
    ∀ other ∈ w.caches, other.query = slot.query → other = cache

theorem InDirectory.catalogued (h : w.InDirectory p) : w.Catalogued p where
  numbered i := by
    rw [System.describe?, Option.isSome_map]
    simp
  described i slot hslot := by
    rw [System.describe?, hslot]
    rfl
  found query key i := by
    constructor
    · intro hfound
      exact System.node?_eq_some.1 (System.node?_of_find? hfound)
    · intro hslot
      exact h.find?_eq (n := ⟨query, key⟩) (System.node?_eq_some.2 hslot)
  cached slot hmem := by
    obtain ⟨i, hi⟩ := List.getElem?_of_mem hmem
    obtain ⟨valueType, hcache, hbound⟩ := h.cached hi
    refine ⟨_, List.mem_of_find?_eq_some hcache, rfl, rfl, hbound, fun other hother hquery => ?_⟩
    exact List.inj_on_of_nodup_map h.caches hother (List.mem_of_find?_eq_some hcache) hquery

end World

/-- The worlds of a session: the one between two steps, and those that the evaluation of a task comes
    through, of a new request or of a task that is kept. -/
inductive Session.Meets (p : Program) (s : Session) : World → Prop
  | between : Meets p s s.world
  | amidst {task : Task} {e₀ e : Evaluation} {w₀ w : World}
    (carried : task.suspended = none ∨ ∃ name, s.tasks.get? name = some task)
    (begins : task.Begins p s.world e₀ w₀) (reaches : Reaches p task.token e₀ w₀ e w) : Meets p s w

theorem Session.Meets.edits {s : Session} (h : s.Meets p w) : s.world.Edits p w := by
  cases h with
  | between => exact .refl _
  | amidst carried begins reaches => exact begins.edits.trans reaches.edits

/-- Slots are fixed, and conflicting uses are refused. Take any program, any steps of a client, and any
    world that the session then meets, also in the midst of an evaluation. The slots in use are numbered
    from zero without a gap, and are one to one with the entries of the caches, whose identity, key and
    kind describe them. In all that follows, and from one point of an evaluation to the next, no cache
    and no slot is removed, and each keeps its types, its place, its identity, its key, its kind, its
    declaration and its equality.
    Whatever presumes other types or the other kind fails with the error that names the identity, be it
    a request, a read or a call of a running body, or a step of a client, unless a request does not get
    past the entry lock; and it makes no cache and no slot, records no dependency, issues no revision
    and changes no value. -/
theorem slots_are_fixed (p : Program) (limits : Session.Limits) (memoize traced : Bool)
    (steps : List Step) :
    (∀ w, ((Session.fresh memoize traced).after p limits steps).Meets p w → w.Catalogued p) ∧
    (∀ more w, (((Session.fresh memoize traced).after p limits steps).after p limits more).Meets p w →
      ((Session.fresh memoize traced).after p limits steps).world.Continues w ∧
      ∀ query key i, ((Session.fresh memoize traced).after p limits steps).world.find? query key =
        some i → w.find? query key = some i) ∧
    (∀ t e w e' w', Reaches p t e w e' w' → w.Continues w') ∧
    (∀ w a, ((Session.fresh memoize traced).after p limits steps).Meets p w → w.Conflicts a →
      (∀ request, Request.address? p request = some a → ∃ w',
        request.begin p w = (.answered (.error (.kindMismatch a.query)), w') ∧ w.Untouched w') ∧
      (∀ t b query valueType key, Address.slot query valueType key .input = a →
        w.perform t b (.read query valueType key) = (.error (.kindMismatch query), b, w)) ∧
      (∀ t b mode label key next frames, Address.callee p label key = a →
        stepBody p t b (.call mode label key next) frames w =
          .running ⟨.body b (next (.error (.kindMismatch (p label).id))), frames⟩ w)) ∧
    ∀ step a, step.Addresses p ((Session.fresh memoize traced).after p limits steps) a →
      ((Session.fresh memoize traced).after p limits steps).world.Conflicts a → 0 < limits.polls →
      ((Session.fresh memoize traced).after p limits steps).Rejects a.query
        (((Session.fresh memoize traced).after p limits steps).step p limits step) := by
  have hdir : ((Session.fresh memoize traced).after p limits steps).world.InDirectory p :=
    Session.inDirectory_after limits steps (World.inDirectory_new memoize)
  generalize (Session.fresh memoize traced).after p limits steps = s at hdir
  refine ⟨fun w hmeets => (hmeets.edits.inDirectory hdir).catalogued, fun more w hmeets => ?_,
    fun t e w e' w' hreaches => hreaches.edits.continues, fun w a hmeets hconflict => ?_,
    fun step a haddress hconflict hpolls =>
      Session.step_of_conflicts hdir hpolls haddress hconflict⟩
  · have hcontinues := (Session.continues_after (p := p) limits s more).trans hmeets.edits.continues
    have hafter := hmeets.edits.inDirectory (Session.inDirectory_after limits more hdir)
    refine ⟨hcontinues, fun query key i hfound => ?_⟩
    exact hafter.find?_eq (hcontinues.node? (System.node?_of_find? hfound))
  · have hw := hmeets.edits.inDirectory hdir
    refine ⟨fun request haddress => Request.begin_of_conflicts hw haddress hconflict, ?_, ?_⟩
    · rintro t b query valueType key rfl
      exact hconflict.perform hw t b
    · rintro t b mode label key next frames rfl
      exact hconflict.stepCall hw b mode next frames

/-- An input that was written and a query that has read it: neither can be had with other types, or as
    what the other is. -/
theorem slots_are_fixed_twice :
    ((Session.fresh true true).after twice ⟨20, 3⟩ twiceSteps).world.Conflicts
        (.slot ⟨"x"⟩ .str .unit .input) ∧
      ((Session.fresh true true).after twice ⟨20, 3⟩ twiceSteps).world.Conflicts
        (.slot ⟨"twice"⟩ .int .unit .input) ∧
      ((Session.fresh true true).after twice ⟨20, 3⟩ twiceSteps).Rejects ⟨"twice"⟩
        (((Session.fresh true true).after twice ⟨20, 3⟩ twiceSteps).step twice ⟨20, 3⟩
          (.perform (.write .waiting ⟨"twice"⟩ .unit (.int 1)) none)) := by
  have htypes : ((Session.fresh true true).after twice ⟨20, 3⟩ twiceSteps).world.Conflicts
      (.slot ⟨"x"⟩ .str .unit .input) := by
    have hcache : ((Session.fresh true true).after twice ⟨20, 3⟩ twiceSteps).world.cache? ⟨"x"⟩ =
        some ⟨⟨"x"⟩, .unit, .int⟩ := by decide +kernel
    exact .types hcache (by decide)
  have hkind : ((Session.fresh true true).after twice ⟨20, 3⟩ twiceSteps).world.Conflicts
      (.slot ⟨"twice"⟩ .int .unit .input) := by
    have hfind : ((Session.fresh true true).after twice ⟨20, 3⟩ twiceSteps).world.find? ⟨"twice"⟩
        .unit = some 1 := by decide +kernel
    exact .kind rfl hfind (by decide +kernel)
  have haddress : Step.Addresses twice ((Session.fresh true true).after twice ⟨20, 3⟩ twiceSteps)
      (.perform (.write .waiting ⟨"twice"⟩ .unit (.int 1)) none)
      (.slot ⟨"twice"⟩ .int .unit .input) :=
    .requests (.perform _ none) (fun _ _ hnone => nomatch hnone) rfl
  obtain ⟨-, -, -, -, hrejects⟩ := slots_are_fixed twice ⟨20, 3⟩ true true twiceSteps
  exact ⟨htypes, hkind, hrejects _ _ haddress hkind (by decide)⟩

end RedGreen
