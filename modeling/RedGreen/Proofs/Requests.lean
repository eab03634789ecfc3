import RedGreen.Session.Run
import RedGreen.Proofs.Steps

set_option autoImplicit false

/-! # What a request begins

A request that uses its identity as every other request does is either answered at once or begins an
evaluation. `Begins` lists the outcomes. -/

namespace RedGreen

variable {p : Program} {use : Usages} {same : Indistinct} {yields : Prop}

/-- A request uses its identity as every other request does, and a new slot is bound to the equality
    of its query. -/
def Request.Consistent (p : Program) (use : Usages) : Request → Prop
  | .write _ id key value => use id = ⟨.input, key.type, value.type⟩
  | .read id valueType key => use id = ⟨.input, key.type, valueType⟩
  | .query _ label key => key.type = (use (p label).id).keyType
  | .derive label key equality =>
    key.type = (use (p label).id).keyType ∧ equality = (p label).equality
  | .prepare label key equality =>
    key.type = (use (p label).id).keyType ∧ equality = (p label).equality
  | .touch id valueType key => use id = ⟨.derived, key.type, valueType⟩
  | .clear _ _ => True

namespace World

/-- Only the entry lock and what observers see may be others. -/
structure Alters (w w' : World) : Prop where
  slots : w'.slots = w.slots
  caches : w'.caches = w.caches
  revision : w'.revision = w.revision
  memoize : w'.memoize = w.memoize
  cancelled : w'.cancelled = w.cancelled
  active : w'.active = w.active

theorem Alters.refl (w : World) : Alters w w := ⟨rfl, rfl, rfl, rfl, rfl, rfl⟩

theorem Alters.grows {w w' : World} (h : Alters w w') : Grows w w' where
  revision := h.revision
  memoize := h.memoize
  cancelled := h.cancelled
  node i n hi := by rwa [System.node?, h.slots]
  written i := by rw [System.written?, System.written?, h.slots]
  memo i := by rw [System.memo?, System.memo?, h.slots]

theorem Alters.tidy {w w' : World} (h : Alters w w') (ht : Tidy p use w.toSystem) :
    Tidy p use w'.toSystem := ht.of_eq h.slots h.caches

theorem Alters.inputs {w w' : World} (h : Alters w w') : w'.inputs = w.inputs := by
  have hwritten : w'.written? = w.written? := by
    funext i
    rw [System.written?, System.written?, h.slots]
  funext query key
  simp only [System.inputs, System.find?, hwritten, h.slots]

end World

/-! ## The entry lock -/

/-- While nobody holds the entry lock, every request is admitted. -/
theorem Access.admission_of_unlocked (access : Access) (queued : Bool) {w : World}
    (h : w.entryLocked = false) :
    ∃ w₁, access.admission queued w = (.admitted, w₁) ∧ w.Alters w₁ ∧
      ∀ w₂ : World, w₂.entryLocked = w₁.entryLocked → (access.release w₂).entryLocked = false := by
  cases access with
  | free => exact ⟨w, rfl, .refl w, fun w₂ hw₂ => hw₂.trans h⟩
  | blocking =>
    refine ⟨w.lockEntry false, ?_, ⟨rfl, rfl, rfl, rfl, rfl, rfl⟩, fun _ _ => rfl⟩
    unfold Access.admission
    simp [h]
  | waiting =>
    refine ⟨w.lockEntry true, ?_, ⟨rfl, rfl, rfl, rfl, rfl, rfl⟩, fun _ _ => rfl⟩
    unfold Access.admission
    simp [h]

theorem Access.alters_release (access : Access) (w : World) : w.Alters (access.release w) := by
  cases access <;> exact ⟨rfl, rfl, rfl, rfl, rfl, rfl⟩

theorem Access.alters_of_entry {access : Access} {queued : Bool} {w w' : World}
    {admission : Admission}
    (h : access.admission queued w = (admission, w')) : w.Alters w' := by
  have hlock (waiting : Bool) : w.Alters (w.lockEntry waiting) := ⟨rfl, rfl, rfl, rfl, rfl, rfl⟩
  have hlog (e : LogEvent) : w.Alters (w.log e) := ⟨rfl, rfl, rfl, rfl, rfl, rfl⟩
  unfold Access.admission at h
  cases access with
  | free =>
    cases h
    exact .refl w
  | blocking =>
    simp only at h
    split at h
    · split at h
      · cases h
        exact hlog _
      · cases h
        exact .refl w
    · cases h
      exact hlock false
  | waiting =>
    simp only at h
    split at h
    · cases h
      exact .refl w
    · cases h
      exact hlock true

/-- Whoever waits for the entry lock has changed nothing. -/
theorem Access.world_of_waits {access : Access} {queued : Bool} {w w' : World}
    (h : access.admission queued w = (.waits, w')) : w' = w := by
  cases access with
  | free => cases h
  | blocking =>
    simp only [admission] at h
    split at h
    · split at h <;> cases h
      rfl
    · cases h
  | waiting =>
    simp only [admission] at h
    split at h <;> cases h
    rfl

/-- A queued request is not refused. -/
theorem Access.unqueued_of_refused {access : Access} {queued : Bool} {w w' : World}
    (h : access.admission queued w = (.refused, w')) : queued = false := by
  cases access with
  | free => cases h
  | blocking =>
    simp only [admission] at h
    split at h
    · split at h
      · rename_i hrefused
        simpa using (Bool.and_eq_true_iff.1 hrefused).1
      · cases h
    · cases h
  | waiting =>
    simp only [admission] at h
    split at h <;> cases h

/-- Whether a request is queued does not matter when it is admitted. -/
theorem Access.admitted_of_admitted {access : Access} {queued : Bool} {w w' : World} (queued' : Bool)
    (h : access.admission queued w = (.admitted, w')) :
    access.admission queued' w = (.admitted, w') := by
  cases access with
  | free | waiting => exact h
  | blocking =>
    simp only [admission] at h ⊢
    split at h
    · split at h <;> cases h
    · rwa [if_neg ‹_›]

/-! ## Beginnings -/

/-- What a request from outside reads is what the input holds. -/
theorem World.inputValue_spec {w : World} (ht : Tidy p use w.toSystem) {query : QueryId}
    {valueType : ValueType} {key : Key} (typed : use query = ⟨.input, key.type, valueType⟩) :
    ∃ reply w', w.inputValue query valueType key = (reply, w') ∧
      Agree Value.Alike reply (w.inputs.answer query key) ∧ Tidy p use w'.toSystem ∧ Grows w w' ∧
      w'.active = w.active ∧ w'.entryLocked = w.entryLocked := by
  have htypes : key.type = (use query).keyType ∧ valueType = (use query).valueType := by
    rw [typed]
    exact ⟨rfl, rfl⟩
  obtain ⟨w', hopen, ht', hgrows, hslots, hactive, hlocked⟩ := openCache_spec ht htypes.1 htypes.2
  have hspec : Agree Value.Alike (w.inputValue query valueType key).1 (w.inputs.answer query key) ∧
      (w.inputValue query valueType key).2 = w' := by
    have hfind' : w'.find? query key = w.find? query key := by rw [System.find?, hslots]; rfl
    simp only [inputValue, hopen, hfind', Inputs.answer, System.inputs]
    cases hfind : w.find? query key with
    | none => exact ⟨.error _, rfl⟩
    | some i =>
      obtain ⟨⟨query', key', content⟩, hslot, hquery, -⟩ :=
        System.node?_eq_some.1 (System.node?_of_find? hfind)
      have hkind := (ht.slots i _ hslot).kind
      simp only at hquery
      rw [hquery, typed] at hkind
      rw [Option.bind_some, Option.bind_some, hslots, hslot, System.written?, hslot]
      cases content with
      | derived d => cases hkind
      | input written =>
        cases written with
        | none => exact ⟨.error _, rfl⟩
        | some x => exact ⟨.ok x.value.alike_bare, rfl⟩
  exact ⟨_, w', Prod.ext rfl hspec.2, hspec.1, ht', hgrows, hactive, hlocked⟩

/-- The outcomes of a request. -/
inductive Begins (p : Program) (use : Usages) (w : World) : Request → Begun × World → Prop
  | write {access : Access} {query : QueryId} {key : Key} {v v' : Value} {i : SlotId} {w₁ w' : World}
    (alike : v'.Alike v) (finds : w.Finds p use ⟨query, key⟩ i w₁)
    (kind : (use query).kind = .input) (tidy : Tidy p use w'.toSystem) (writes : w₁.Writes i v' w')
    (active : w'.active = w.active) (entryLocked : w'.entryLocked = w.entryLocked) :
    Begins p use w (.write access query key v) (.answered (.ok (.revision w.revision.next)), w')
  | read {query : QueryId} {valueType : ValueType} {key : Key} {reply : Except QueryError Value}
    {w' : World} (agree : Agree Value.Alike reply (w.inputs.answer query key))
    (tidy : Tidy p use w'.toSystem) (grows : w.Grows w') (active : w'.active = w.active)
    (entryLocked : w'.entryLocked = w.entryLocked) :
    Begins p use w (.read query valueType key) (.answered (reply.map .value), w')
  | query {access : Access} {label : Label} {key : Key} {i : SlotId} {w' : World}
    (finds : w.Finds p use (p.node label key) i w') :
    Begins p use w (.query access label key) (.evaluating (.request i), w')
  | derive {label : Label} {key : Key} {equality : Equivalence} {i : SlotId} {w' : World}
    (finds : w.Finds p use (p.node label key) i w') :
    Begins p use w (.derive label key equality) (.evaluating (.request i), w')
  | prepare {label : Label} {key : Key} {equality : Equivalence} {i : SlotId} {w' : World}
    (finds : w.Finds p use (p.node label key) i w') :
    Begins p use w (.prepare label key equality) (.answered (.ok (.slot i)), w')
  | touch {query : QueryId} {valueType : ValueType} {label : Label} {key : Key} {i : SlotId}
    {w' : World} (label_id : (p label).id = query) (finds : w.Finds p use (p.node label key) i w') :
    Begins p use w (.touch query valueType key) (.evaluating (.request i), w')
  | untouched {query : QueryId} {valueType : ValueType} {key : Key} {w' : World}
    (tidy : Tidy p use w'.toSystem) (grows : w.Grows w') (active : w'.active = w.active)
    (entryLocked : w'.entryLocked = w.entryLocked) :
    Begins p use w (.touch query valueType key) (.answered (.ok .nothing), w')
  | clear {access : Access} {before : Revision} {n : Nat} {w' : World}
    (tidy : Tidy p use w'.toSystem) (clears : w.Clears before w') (active : w'.active = w.active)
    (entryLocked : w'.entryLocked = w.entryLocked) :
    Begins p use w (.clear access before) (.answered (.ok (.count n)), w')

theorem Request.begin_spec (hp : p.Consistent use) {w : World} (ht : Tidy p use w.toSystem)
    {request : Request} (h : request.Consistent p use) :
    Begins p use w request (request.begin p w) := by
  cases request with
  | write access query key value =>
    have hquiet := w.quiet_ownCopy value
    have halike := w.alike_ownCopy value
    have htype : (w.ownCopy value).1.type = value.type := by
      rw [← Value.type_bare, halike, Value.type_bare]
    have hactive : (w.ownCopy value).2.active = w.active := by
      unfold World.ownCopy
      split <;> rfl
    have typed : use query = ⟨.input, key.type, (w.ownCopy value).1.type⟩ := by
      rw [htype]
      exact h
    obtain ⟨i, w₁, hslot, hfinds⟩ := World.inputSlot_spec (hquiet.tidy ht) typed
    have hkind : (use query).kind = .input := congrArg Usage.kind h
    obtain ⟨ht', hwrites⟩ := World.put_spec hfinds.tidy hfinds.found hkind
      (congrArg Usage.valueType typed).symm
    have hfinds' : w.Finds p use ⟨query, key⟩ i w₁ :=
      ⟨hquiet.grows.trans hfinds.toGrows, hfinds.tidy, hfinds.found, hfinds.active.trans hactive,
        hfinds.entryLocked.trans hquiet.entryLocked⟩
    simp only [begin, World.write, hslot, Begun.ofResult]
    rw [hfinds'.revision]
    exact .write halike hfinds' hkind ht' hwrites hfinds'.active hfinds'.entryLocked
  | read query valueType key =>
    obtain ⟨reply, w', hreply, hagree, ht', hgrows, hactive, hlocked⟩ := World.inputValue_spec ht h
    simp only [begin, hreply, Begun.ofResult]
    exact .read hagree ht' hgrows hactive hlocked
  | query access label key =>
    obtain ⟨i, w', hslot, hfinds⟩ := World.derivedSlot_spec hp ht h
    simp only [begin, hslot, Begun.ofSlot]
    exact .query hfinds
  | derive label key equality =>
    obtain ⟨typed, rfl⟩ := h
    obtain ⟨i, w', hslot, hfinds⟩ := World.derivedSlot_spec hp ht typed
    simp only [begin, hslot, Begun.ofSlot]
    exact .derive hfinds
  | prepare label key equality =>
    obtain ⟨typed, rfl⟩ := h
    obtain ⟨i, w', hslot, hfinds⟩ := World.derivedSlot_spec hp ht typed
    simp only [begin, hslot, Begun.ofResult]
    exact .prepare hfinds
  | touch query valueType key =>
    have typed : use query = ⟨.derived, key.type, valueType⟩ := h
    have htypes : key.type = (use query).keyType ∧ valueType = (use query).valueType := by
      rw [typed]
      exact ⟨rfl, rfl⟩
    obtain ⟨w', hopen, ht', hgrows, hslots, hactive, hlocked⟩ :=
      World.openCache_spec ht htypes.1 htypes.2
    simp only [begin, hopen]
    cases hfind : w'.find? query key with
    | none => exact .untouched ht' hgrows hactive hlocked
    | some i =>
      have hnode := System.node?_of_find? hfind
      obtain ⟨⟨query', key', content⟩, hslot, hquery, hkey⟩ := System.node?_eq_some.1 hnode
      have hfits := ht'.slots i _ hslot
      simp only at hquery hkey
      subst hquery hkey
      have hderived : w'.kind? i = some .derived := by
        rw [ht'.kind? hnode]
        exact congrArg some (congrArg Usage.kind typed)
      simp only [if_pos hderived]
      cases content with
      | input written => cases (hfits.kind.trans (congrArg Usage.kind typed))
      | derived d =>
        have hid := (hfits.bound d rfl).1
        refine .touch hid ⟨hgrows, ht', ?_, hactive, hlocked⟩
        rw [hnode, Program.node, hid]
  | clear access before =>
    obtain ⟨ht', hclears⟩ := World.clear_spec ht before
    exact .clear ht' hclears rfl rfl

end RedGreen
