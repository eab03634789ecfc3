import RedGreen.Proofs.InputStore
import RedGreen.Proofs.Veils

set_option autoImplicit false

/-! # Caches that make no difference

The cache of an identity fixes the types that the identity is used with, and holds nothing else. So it
makes no difference whether the cache was made early, as long as the types are those with which the
identity is used later. Two worlds of which the second one has more caches go on alike, whatever is
requested in both (`World.Veiled`): steps of evaluations, polls and whole runs of tasks. The tokens may
have other names in the second world. -/

namespace RedGreen

open Evaluation

variable {p : Program} {t : Token} {G : QueryId → Option Cache} {ρ : Token → Token}

namespace World

variable {w w' v : World}

/-! ## Worlds that differ in caches -/

/-- The identities that have a cache are used with the given types. -/
def CachedAs (G : QueryId → Option Cache) (w : World) : Prop :=
  ∀ query cache, w.cache? query = some cache → G query = some cache

theorem CachedAs.of_continues (hv : v.CachedAs G) (h : w.Continues v) : w.CachedAs G :=
  fun _ _ hcache => hv _ _ (h.cache? hcache)

theorem CachedAs.of_edits (hv : v.CachedAs G) (h : w.Edits p v) : w.CachedAs G :=
  hv.of_continues h.continues

theorem CachedAs.of_caches (hv : v.CachedAs G) (h : v.caches = w.caches) :
    w.CachedAs G := by
  unfold CachedAs System.cache? at hv ⊢
  rwa [h] at hv

/-- Two worlds in which no identity is used with different types. -/
theorem exists_cachedAs
    (h : ∀ cache ∈ w.caches, ∀ cache' ∈ v.caches, cache.query = cache'.query → cache = cache') :
    ∃ G, w.CachedAs G ∧ v.CachedAs G := by
  have hmem {u : World} {query : QueryId} {cache : Cache} (h : u.cache? query = some cache) :
      cache ∈ u.caches ∧ cache.query = query :=
    ⟨List.mem_of_find?_eq_some h, by simpa using List.find?_some h⟩
  refine ⟨fun query => (w.cache? query).or (v.cache? query), fun query cache hcache => ?_,
    fun query cache' hcache' => ?_⟩
  · simp only [hcache, Option.some_or]
  · cases hcache : w.cache? query with
    | none => simp only [hcache, hcache', Option.none_or]
    | some cache =>
      obtain ⟨hw, hquery⟩ := hmem hcache
      obtain ⟨hv, hquery'⟩ := hmem hcache'
      simp only [hcache, Option.some_or, h cache hw cache' hv (hquery.trans hquery'.symm)]

/-- The second world may have more caches than the first one, its tokens have other names, and the log was
    told other things; there is no other difference. -/
structure Veiled (G : QueryId → Option Cache) (ρ : Token → Token) (w w' : World) : Prop where
  rest : w' = ({ w with journal := [] } : World).veil w'.caches w'.cancelled w'.journal
  cancelled : w'.cancelled = w.cancelled.map ρ
  told : w'.journal.events = w.journal.events ∧ w'.journal.runs = w.journal.runs
  caches : ∀ query cache, w.cache? query = some cache → w'.cache? query = some cache
  cachedAs : w'.CachedAs G

/-- The same comes out, in such a world. -/
structure Same (G : QueryId → Option Cache) (ρ : Token → Token) {α : Type} (out out' : α × World) :
    Prop where
  same : out'.1 = out.1
  veiled : out.2.Veiled G ρ out'.2

theorem Same.exists_eq {α : Type} {a : α} {out' : α × World} (h : Same G ρ (a, w) out') :
    ∃ w', out' = (a, w') ∧ w.Veiled G ρ w' := ⟨out'.2, Prod.ext h.same rfl, h.veiled⟩

namespace Veiled

theorem mem_cancelled (h : w.Veiled G ρ w') (hρ : ρ.Injective) (t : Token) :
    ρ t ∈ w'.cancelled ↔ t ∈ w.cancelled := by
  rw [h.cancelled, List.mem_map_of_injective hρ]

theorem check (h : w.Veiled G ρ w') (hρ : ρ.Injective) (t : Token) : w'.check (ρ t) = w.check t := by
  simp only [World.check, h.mem_cancelled hρ]

theorem slots (h : w.Veiled G ρ w') : w'.slots = w.slots := congrArg (fun w => w.slots) h.rest

theorem revision (h : w.Veiled G ρ w') : w'.revision = w.revision :=
  congrArg (fun w => w.revision) h.rest

/-- What is done behind both veils is the same. -/
theorem behind (h : w.Veiled G ρ w') (v : World) :
    (v.veil w.caches w.cancelled w.journal).Veiled G ρ (v.veil w'.caches w'.cancelled w'.journal) where
  rest := by simp [veil]
  cancelled := h.cancelled
  told := by simp [veil, Journal.events_append, Journal.runs_append, h.told]
  caches := h.caches
  cachedAs := h.cachedAs

theorem eq_veil (w : World) :
    w = ({ w with journal := [] } : World).veil w.caches w.cancelled w.journal := by
  simp [veil]

theorem map (h : w.Veiled G ρ w') (op : World → World)
    (hop : ∀ v cs C J, op (v.veil cs C J) = (op v).veil cs C J) : (op w).Veiled G ρ (op w') := by
  rw [eq_veil w, h.rest, hop, hop]
  exact h.behind _

theorem pair (h : w.Veiled G ρ w') {α : Type} (op : World → α × World)
    (hop : ∀ v cs C J, op (v.veil cs C J) = Prod.map id (veil cs C J) (op v)) :
    Same G ρ (op w) (op w') := by
  rw [eq_veil w, h.rest, hop, hop]
  exact ⟨rfl, h.behind _⟩

end Veiled

/-! ## Caches and slots -/

/-- A cache that is found after one was made was there before, or is the one that was made. -/
theorem cache?_of_setCaches {cache found : Cache} {query : QueryId}
    (h : (w.setCaches (w.caches ++ [cache])).cache? query = some found) :
    w.cache? query = some found ∨ found = cache ∧ cache.query = query := by
  have h : (w.caches ++ [cache]).find? (·.query = query) = some found := h
  rw [List.find?_append, Option.or_eq_some_iff, List.find?_cons] at h
  refine h.imp_right fun h => ?_
  by_cases hquery : cache.query = query
  · simp only [hquery, decide_true] at h
    exact ⟨(Option.some.inj h.2).symm, hquery⟩
  · simp [hquery] at h

namespace Veiled

variable {query : QueryId} {keyType : KeyType} {valueType : ValueType} {key : Key}

/-- A cache is found or made in both worlds, or refused in both. -/
theorem openCache (h : w.Veiled G ρ w')
    (hcachedAs : (w.openCache query keyType valueType).2.CachedAs G) :
    Same G ρ (w.openCache query keyType valueType) (w'.openCache query keyType valueType) := by
  cases hcache : w.cache? query with
  | some cache =>
    simp only [World.openCache, hcache, h.caches query cache hcache]
    split <;> exact ⟨rfl, h⟩
  | none =>
    have hopen : w.openCache query keyType valueType = (.ok (),
        (w.setCaches (w.caches ++ [⟨query, keyType, valueType⟩])).log (.cacheCreated query)) := by
      simp [World.openCache, hcache]
    have hown : G query = some ⟨query, keyType, valueType⟩ :=
      hcachedAs _ _ (hopen ▸ cache?_of_openCache hopen)
    rw [hopen]
    cases hcache' : w'.cache? query with
    | some cache' =>
      -- the second world has the cache already
      obtain rfl := Option.some.inj (hown.symm.trans (h.cachedAs _ _ hcache'))
      have hopen' : w'.openCache query keyType valueType = (.ok (), w') := by
        simp [World.openCache, hcache']
      rw [hopen']
      refine ⟨rfl, h.rest, h.cancelled, ?_, fun query' found hfound => ?_, h.cachedAs⟩
      · simpa [log, note, setCaches, Journal.events, Journal.runs] using h.told
      · rcases cache?_of_setCaches hfound with hfound | ⟨rfl, rfl⟩
        · exact h.caches _ _ hfound
        · exact hcache'
    | none =>
      have hopen' : w'.openCache query keyType valueType = (.ok (),
          (w'.setCaches (w'.caches ++ [⟨query, keyType, valueType⟩])).log (.cacheCreated query)) := by
        simp [World.openCache, hcache']
      have hmade := cache?_of_openCache hopen'
      rw [hopen']
      refine ⟨rfl, ?_, h.cancelled, ?_, fun query' found hfound => ?_, fun query' found hfound => ?_⟩
      · have hrest := h.rest
        generalize w'.caches = caches, w'.cancelled = cancelled, w'.journal = journal at hrest
        subst hrest
        simp [veil, log, note, setCaches]
      · simpa [log, note, setCaches, Journal.events, Journal.runs] using h.told
      · rcases cache?_of_setCaches hfound with hfound | ⟨rfl, rfl⟩
        · exact cache?_append (h.caches _ _ hfound)
        · exact hmade
      · rcases cache?_of_setCaches hfound with hfound | ⟨rfl, rfl⟩
        · exact h.cachedAs _ _ hfound
        · exact hown

theorem slotFor (h : w.Veiled G ρ w') {fresh : Slot}
    (hcachedAs : (w.slotFor valueType fresh).2.CachedAs G) :
    Same G ρ (w.slotFor valueType fresh) (w'.slotFor valueType fresh) := by
  have hobtain (v : World) (cs : List Cache) (C : List Token) (J : Journal) :=
    v.obtain_veil cs C J fresh
  unfold World.slotFor at hcachedAs ⊢
  generalize hopened : w.openCache fresh.query fresh.key.type valueType = opened at hcachedAs ⊢
  obtain ⟨opened, w₁⟩ := opened
  have hcachedAs₁ : w₁.CachedAs G := by
    cases opened with
    | error e => exact hcachedAs
    | ok u => exact hcachedAs.of_caches (caches_of_veil (fun w => w.obtain fresh) hobtain w₁)
  obtain ⟨w₁', hopened', hveiled⟩ :=
    (hopened ▸ h.openCache (by rwa [hopened]) : Same G ρ (opened, w₁) _).exists_eq
  rw [hopened']
  cases opened with
  | error e => exact ⟨rfl, hveiled⟩
  | ok u => exact hveiled.pair (fun w => w.obtain fresh) hobtain

theorem record (h : w.Veiled G ρ w') (a : Activation) (dep : SlotId) :
    Same G ρ (w.record a dep) (w'.record a dep) :=
  h.pair (fun w => w.record a dep) fun v cs C J => v.record_veil cs C J a dep

theorem cancel (h : w.Veiled G ρ w') (t : Token) : (w.cancel t).Veiled G ρ (w'.cancel (ρ t)) where
  rest := by
    have hrest := h.rest
    generalize w'.caches = caches, w'.cancelled = cancelled, w'.journal = journal at hrest
    subst hrest
    simp [veil, World.cancel]
  cancelled := congrArg (ρ t :: ·) h.cancelled
  told := h.told
  caches := h.caches
  cachedAs := h.cachedAs

/-- A body reads the same in both worlds. -/
theorem read (h : w.Veiled G ρ w') (hρ : ρ.Injective) {a : Activation}
    (hcachedAs : (w.read t a query valueType key).2.2.CachedAs G) :
    (w'.read (ρ t) a query valueType key).1 = (w.read t a query valueType key).1 ∧
      Same G ρ (w.read t a query valueType key).2 (w'.read (ρ t) a query valueType key).2 := by
  unfold World.read inputSlot at hcachedAs ⊢
  generalize hfound : w.slotFor valueType ⟨query, key, .input none⟩ = found at hcachedAs ⊢
  obtain ⟨found, w₁⟩ := found
  have hcachedAs₁ : w₁.CachedAs G := by
    cases found with
    | error e => exact hcachedAs
    | ok dep =>
      refine CachedAs.of_caches (v := (w₁.record a dep).2) ?_
        (caches_of_veil (fun w => w.record a dep) (fun v cs C J => v.record_veil cs C J a dep) w₁)
      simp only at hcachedAs
      split at hcachedAs <;> exact hcachedAs
  obtain ⟨w₁', hfound', hveiled⟩ :=
    (hfound ▸ h.slotFor (by rwa [hfound]) : Same G ρ (found, w₁) _).exists_eq
  rw [hfound']
  cases found with
  | error e => exact ⟨rfl, rfl, hveiled⟩
  | ok dep =>
    have hrecord := hveiled.record a dep
    simp only
    generalize w₁.record a dep = recorded at hrecord
    obtain ⟨a₁, w₂⟩ := recorded
    obtain ⟨w₂', hrecorded', hveiled⟩ := hrecord.exists_eq
    have hwritten : w₂'.written? dep = w₂.written? dep := by
      simp only [System.written?, hveiled.slots]
    rw [hrecorded']
    simp only [hwritten, hveiled.check hρ]
    cases w₂.written? dep <;> exact ⟨rfl, rfl, hveiled⟩

end Veiled

end World

/-! ## Evaluations -/

/-- An evaluation stands at the same point in the second world. -/
inductive Progress.Veiled (G : QueryId → Option Cache) (ρ : Token → Token) : Progress → Progress → Prop
  | running (e : Evaluation) {w w' : World} (veiled : w.Veiled G ρ w') :
    Veiled G ρ (.running e w) (.running e w')
  | parked (e : Evaluation) {w w' : World} (veiled : w.Veiled G ρ w') :
    Veiled G ρ (.parked e w) (.parked e w')
  | finished (r : Except QueryError Stamped) {w w' : World} (veiled : w.Veiled G ρ w') :
    Veiled G ρ (.finished r w) (.finished r w')

namespace Evaluation

variable {w w' : World}

theorem edits_advance (p : Program) (t : Token) (n : Nat) (e : Evaluation) (w : World) :
    w.Edits p (e.advance p t n w).world := by
  obtain ⟨hfinished, hparked, hrunning⟩ := drive_of_advance n e w (p := p) (t := t)
  cases hadvance : e.advance p t n w with
  | running e₁ w₁ => exact (hrunning e₁ w₁ hadvance).edits
  | parked e₁ w₁ => exact (hparked e₁ w₁ hadvance).edits
  | finished r w₁ => exact (hfinished r w₁ hadvance).reaches.edits

theorem edits_drive (p : Program) (t : Token) (n : Nat) (e : Evaluation) (w : World) :
    w.Edits p (e.drive p t n w).world := by
  cases hdrive : e.drive p t n w with
  | running e₁ w₁ => exact Reaches.edits ⟨n, hdrive⟩
  | parked e₁ w₁ => exact absurd hdrive (drive_ne_parked n e w)
  | finished r w₁ => exact (Finishes.reaches ⟨n, hdrive⟩).edits

/-- An ordinary step is the same in both worlds. -/
theorem step_veiled_of_ordinary (h : w.Veiled G ρ w') (hρ : ρ.Injective) {e : Evaluation}
    (he : e.control.Ordinary) : (e.step p t w).Veiled G ρ (e.step p (ρ t) w') := by
  have hstep : e.step p t w = (e.step p t { w with journal := [] }).map
      (World.veil w.caches w.cancelled w.journal) := by
    conv_lhs => rw [World.Veiled.eq_veil w]
    exact step_veil _ _ _ p Iff.rfl he
  have hstep' : e.step p (ρ t) w' = (e.step p t { w with journal := [] }).map
      (World.veil w'.caches w'.cancelled w'.journal) := by
    conv_lhs => rw [h.rest]
    exact step_veil _ _ _ p (h.mem_cancelled hρ t) he
  rw [hstep, hstep']
  cases e.step p t { w with journal := [] } with
  | running e₁ w₁ => exact .running e₁ (h.behind w₁)
  | parked e₁ w₁ => exact .parked e₁ (h.behind w₁)
  | finished r w₁ => exact .finished r (h.behind w₁)

theorem stepCall_veiled (h : w.Veiled G ρ w') {a : Activation} {mode : CallMode} {label : Label}
    {key : Key} {next : Except QueryError Value → Body} {frames : List Frame}
    (hcachedAs : (stepCall p a mode label key next frames w).world.CachedAs G) :
    (stepCall p a mode label key next frames w).Veiled G ρ
      (stepCall p a mode label key next frames w') := by
  unfold stepCall World.derivedSlot at hcachedAs ⊢
  generalize hfound : w.slotFor _ _ = found at hcachedAs ⊢
  obtain ⟨found, w₁⟩ := found
  have hcachedAs₁ : w₁.CachedAs G := by
    cases found with
    | error e => exact hcachedAs
    | ok callee =>
      exact World.CachedAs.of_edits (p := p) hcachedAs (w₁.edits_record a callee)
  obtain ⟨w₁', hfound', hveiled⟩ :=
    (hfound ▸ h.slotFor (by rwa [hfound]) : World.Same G ρ (found, w₁) _).exists_eq
  rw [hfound']
  cases found with
  | error e => exact .running _ hveiled
  | ok callee =>
    have hrecord := hveiled.record a callee
    simp only
    rw [hrecord.same]
    exact .running _ hrecord.veiled

/-- A step is the same in both worlds. -/
theorem step_veiled (h : w.Veiled G ρ w') (hρ : ρ.Injective) {e : Evaluation}
    (hcachedAs : (e.step p t w).world.CachedAs G) :
    (e.step p t w).Veiled G ρ (e.step p (ρ t) w') := by
  obtain ⟨control, frames⟩ := e
  cases control with
  | fetch | walk | compute | answer => exact step_veiled_of_ordinary h hρ trivial
  | body a body =>
    cases body with
    | done | yield => exact step_veiled_of_ordinary h hρ trivial
    | perform op next =>
      cases op with
      | check | revision | slot | allocate => exact step_veiled_of_ordinary h hρ trivial
      | cancel => exact .running _ (h.cancel t)
      | read query valueType key =>
        obtain ⟨hreply, hread⟩ := h.read hρ (a := a) hcachedAs
        simp only [step, stepBody, World.perform]
        rw [hreply, hread.same]
        exact .running _ hread.veiled
    | call mode label key next => exact stepCall_veiled h hcachedAs

/-- As many steps are the same in both worlds. -/
theorem advance_veiled (h : w.Veiled G ρ w') (hρ : ρ.Injective) (n : Nat) {e : Evaluation}
    (hcachedAs : (e.advance p t n w).world.CachedAs G) :
    (e.advance p t n w).Veiled G ρ (e.advance p (ρ t) n w') := by
  induction n generalizing e w w' with
  | zero => exact .running e h
  | succ n ih =>
    have hnext := step_veiled h hρ (p := p) (t := t) (e := e)
    rw [advance] at hcachedAs ⊢
    rw [advance]
    generalize e.step p t w = next at hcachedAs hnext ⊢
    generalize e.step p (ρ t) w' = next' at hnext ⊢
    cases next with
    | running e₁ w₁ =>
      cases hnext (hcachedAs.of_edits (edits_advance p t n e₁ w₁)) with
      | running _ hveiled => exact ih hveiled hcachedAs
    | parked e₁ w₁ =>
      cases hnext hcachedAs with
      | parked _ hveiled => exact .parked e₁ hveiled
    | finished r w₁ =>
      cases hnext hcachedAs with
      | finished _ hveiled => exact .finished r hveiled

theorem drive_veiled (h : w.Veiled G ρ w') (hρ : ρ.Injective) (n : Nat) {e : Evaluation}
    (hcachedAs : (e.drive p t n w).world.CachedAs G) :
    (e.drive p t n w).Veiled G ρ (e.drive p (ρ t) n w') := by
  induction n generalizing e w w' with
  | zero => exact .running e h
  | succ n ih =>
    have hnext := step_veiled h hρ (p := p) (t := t) (e := e)
    rw [drive] at hcachedAs ⊢
    rw [drive]
    generalize e.step p t w = next at hcachedAs hnext ⊢
    generalize e.step p (ρ t) w' = next' at hnext ⊢
    cases next with
    | running e₁ w₁ =>
      cases hnext (hcachedAs.of_edits (edits_drive p t n e₁ w₁)) with
      | running _ hveiled => exact ih hveiled hcachedAs
    | parked e₁ w₁ =>
      cases hnext (hcachedAs.of_edits (edits_drive p t n e₁ w₁)) with
      | parked _ hveiled => exact ih hveiled hcachedAs
    | finished r w₁ =>
      cases hnext hcachedAs with
      | finished _ hveiled => exact .finished r hveiled

end Evaluation

/-! ## Requests -/

section

variable {w w' : World}

theorem Access.admission_veiled (h : w.Veiled G ρ w') (access : Access) (queued : Bool) :
    World.Same G ρ (access.admission queued w) (access.admission queued w') :=
  h.pair (access.admission queued) fun v cs C J => access.admission_veil v cs C J queued

theorem Access.release_veiled (h : w.Veiled G ρ w') (access : Access) :
    (access.release w).Veiled G ρ (access.release w') :=
  h.map access.release fun v cs C J => access.release_veil v cs C J

end

namespace World

variable {w w' : World} {query : QueryId} {valueType : ValueType} {key : Key}

theorem Veiled.find? (h : w.Veiled G ρ w') : w'.find? query key = w.find? query key := by
  simp only [System.find?, h.slots]

theorem Veiled.kind? (h : w.Veiled G ρ w') (i : SlotId) : w'.kind? i = w.kind? i := by
  simp only [System.kind?, h.slots]

theorem Veiled.changedAt (h : w.Veiled G ρ w') (i : SlotId) : w'.changedAt i = w.changedAt i := by
  simp only [System.changedAt, h.slots]

/-- An input is read the same from outside. -/
theorem Veiled.inputValue (h : w.Veiled G ρ w')
    (hcachedAs : (w.inputValue query valueType key).2.CachedAs G) :
    Same G ρ (w.inputValue query valueType key) (w'.inputValue query valueType key) := by
  unfold World.inputValue at hcachedAs ⊢
  generalize hopened : w.openCache query key.type valueType = opened at hcachedAs ⊢
  obtain ⟨opened, w₁⟩ := opened
  have hcachedAs₁ : w₁.CachedAs G := by
    cases opened with
    | error e => exact hcachedAs
    | ok u =>
      simp only at hcachedAs
      split at hcachedAs <;> exact hcachedAs
  obtain ⟨w₁', hopened', hveiled⟩ :=
    (hopened ▸ h.openCache (by rwa [hopened]) : Same G ρ (opened, w₁) _).exists_eq
  rw [hopened']
  cases opened with
  | error e => exact ⟨rfl, hveiled⟩
  | ok u =>
    simp only [hveiled.find?, hveiled.slots]
    split <;> exact ⟨rfl, hveiled⟩

/-- An input is written the same. -/
theorem Veiled.write (h : w.Veiled G ρ w') {value : Value}
    (hcachedAs : (w.write query key value).2.CachedAs G) :
    Same G ρ (w.write query key value) (w'.write query key value) := by
  unfold World.write inputSlot at hcachedAs ⊢
  generalize hfound : w.slotFor _ _ = found at hcachedAs ⊢
  obtain ⟨found, w₁⟩ := found
  have hcachedAs₁ : w₁.CachedAs G := by
    cases found with
    | error e => exact hcachedAs
    | ok i => exact hcachedAs
  obtain ⟨w₁', hfound', hveiled⟩ :=
    (hfound ▸ h.slotFor (by rwa [hfound]) : Same G ρ (found, w₁) _).exists_eq
  rw [hfound']
  cases found with
  | error e => exact ⟨rfl, hveiled⟩
  | ok i =>
    exact ⟨by simp only [hveiled.revision],
      hveiled.map (fun w => w.put i value) fun v cs C J => v.put_veil cs C J i value⟩

end World

section

variable {w w' : World}

theorem Begun.ofResult_veiled {α : Type} {out out' : Except QueryError α × World}
    (h : World.Same G ρ out out') (reply : α → Reply) :
    World.Same G ρ (Begun.ofResult reply out) (Begun.ofResult reply out') :=
  ⟨congrArg (fun r : Except QueryError α => Begun.answered (r.map reply)) h.same, h.veiled⟩

theorem Begun.ofSlot_veiled {out out' : Except QueryError SlotId × World}
    (h : World.Same G ρ out out') : World.Same G ρ (Begun.ofSlot out) (Begun.ofSlot out') := by
  obtain ⟨found, w⟩ := out
  obtain ⟨w', rfl, hveiled⟩ := h.exists_eq
  cases found <;> exact ⟨rfl, hveiled⟩

/-- A request begins the same in both worlds. -/
theorem Request.begin_veiled (h : w.Veiled G ρ w') (request : Request)
    (hcachedAs : (request.begin p w).2.CachedAs G) :
    World.Same G ρ (request.begin p w) (request.begin p w') := by
  cases request with
  | write access query key value =>
    have hown := h.pair (fun w => w.ownCopy value) fun v cs C J => v.ownCopy_veil cs C J value
    simp only [Request.begin] at hcachedAs ⊢
    rw [hown.same]
    exact Begun.ofResult_veiled (hown.veiled.write hcachedAs) _
  | read query valueType key => exact Begun.ofResult_veiled (h.inputValue hcachedAs) _
  | query access label key | derive label key equality =>
    exact Begun.ofSlot_veiled (h.slotFor (Begun.ofSlot_snd _ ▸ hcachedAs))
  | prepare label key equality => exact Begun.ofResult_veiled (h.slotFor hcachedAs) _
  | touch query valueType key =>
    simp only [Request.begin] at hcachedAs ⊢
    generalize hopened : w.openCache query key.type valueType = opened at hcachedAs ⊢
    obtain ⟨opened, w₁⟩ := opened
    have hcachedAs₁ : w₁.CachedAs G := by
      cases opened with
      | error e => exact hcachedAs
      | ok u =>
        simp only at hcachedAs
        split at hcachedAs
        · exact hcachedAs
        · split at hcachedAs <;> exact hcachedAs
    obtain ⟨w₁', hopened', hveiled⟩ :=
      (hopened ▸ h.openCache (by rwa [hopened]) : World.Same G ρ (opened, w₁) _).exists_eq
    rw [hopened']
    cases opened with
    | error e => exact ⟨rfl, hveiled⟩
    | ok u =>
      simp only [hveiled.find?, hveiled.kind?, hveiled.changedAt]
      cases w₁.find? query key with
      | none => exact ⟨rfl, hveiled⟩
      | some i =>
        by_cases hkind : w₁.kind? i = some .derived
        · simp only [hkind, if_true]
          exact ⟨rfl, hveiled⟩
        · simp only [hkind, if_false]
          exact ⟨rfl, hveiled⟩
  | clear access before =>
    have hclear := h.pair (fun w => w.clear before) fun v cs C J => v.clear_veil cs C J before
    simp only [Request.begin]
    rw [hclear.same]
    exact ⟨rfl, hclear.veiled⟩

end

/-! ## Tasks -/

/-- The task with its token renamed. -/
def Task.retoken (ρ : Token → Token) (task : Task) : Task := { task with token := ρ task.token }

/-- The poll with the token of the task renamed. -/
def Poll.retoken (ρ : Token → Token) : Poll → Poll
  | .ready r => .ready r
  | .pending woken task => .pending woken (task.retoken ρ)

namespace Task

variable {w w' : World}

/-- A poll comes to the same in the second world. -/
abbrev PollsSame (G : QueryId → Option Cache) (ρ : Token → Token) (out out' : Poll × World) : Prop :=
  World.Same G ρ (out.1.retoken ρ, out.2) out'

theorem settle_veiled {task : Task} {x x' : Progress} (h : x.Veiled G ρ x') :
    PollsSame G ρ (task.settle x) ((task.retoken ρ).settle x') := by
  cases h with
  | running e hveiled | parked e hveiled => exact ⟨rfl, hveiled⟩
  | finished r hveiled => exact ⟨rfl, task.request.access.release_veiled hveiled⟩

theorem resume_veiled (h : w.Veiled G ρ w') (hρ : ρ.Injective) {task : Task} (budget : Nat)
    {e : Evaluation} (hcachedAs : (task.resume p budget e w).2.CachedAs G) :
    PollsSame G ρ (task.resume p budget e w) ((task.retoken ρ).resume p budget e w') := by
  have hsettle {x : Progress} (hx : (task.settle x).2.CachedAs G) : x.world.CachedAs G := by
    cases x with
    | running | parked => exact hx
    | finished r w => exact hx.of_edits (p := p) (Access.edits_release _ w)
  unfold resume at hcachedAs ⊢
  refine settle_veiled ?_
  have hcachedAs := hsettle hcachedAs
  simp only [retoken]
  cases haccess : task.request.access with
  | blocking =>
    simp only [haccess] at hcachedAs
    exact Evaluation.drive_veiled h hρ budget hcachedAs
  | free | waiting =>
    simp only [haccess] at hcachedAs
    exact Evaluation.advance_veiled h hρ budget hcachedAs

theorem edits_resume (p : Program) (budget : Nat) (task : Task) (e : Evaluation) (w : World) :
    w.Edits p (task.resume p budget e w).2 := by
  have hcourse : Course p { task with suspended := some e } w
      (resume p budget { task with suspended := some e } e w) := course_resume budget (.inl ⟨rfl, rfl⟩)
  exact hcourse.edits

/-- A poll comes to the same in both worlds. -/
theorem poll_veiled (h : w.Veiled G ρ w') (hρ : ρ.Injective) {task : Task} (budget : Nat)
    (hcachedAs : (task.poll p budget w).2.CachedAs G) :
    PollsSame G ρ (task.poll p budget w) ((task.retoken ρ).poll p budget w') := by
  unfold poll at hcachedAs ⊢
  simp only [retoken]
  cases hsuspended : task.suspended with
  | some e =>
    simp only [hsuspended] at hcachedAs ⊢
    exact hsuspended ▸ resume_veiled h hρ budget hcachedAs
  | none =>
    simp only [hsuspended] at hcachedAs ⊢
    have hentry := Access.admission_veiled h task.request.access task.queued
    generalize task.request.access.admission task.queued w = entry at hcachedAs hentry ⊢
    obtain ⟨admission, w₁⟩ := entry
    obtain ⟨w₁', hentry', hveiled⟩ := hentry.exists_eq
    rw [hentry']
    cases admission with
    | refused => exact ⟨rfl, hveiled⟩
    | waits => exact ⟨by simp only [Poll.retoken, retoken], hveiled⟩
    | admitted =>
      have hbegin := task.request.begin_veiled hveiled (p := p)
      simp only at hcachedAs ⊢
      generalize task.request.begin p w₁ = begun at hcachedAs hbegin ⊢
      obtain ⟨begun, w₂⟩ := begun
      cases begun with
      | answered r =>
        obtain ⟨w₂', hbegun', hveiled⟩ :=
          (hbegin (hcachedAs.of_edits (p := p) (Access.edits_release _ _))).exists_eq
        rw [hbegun']
        exact ⟨rfl, task.request.access.release_veiled hveiled⟩
      | evaluating e =>
        obtain ⟨w₂', hbegun', hveiled⟩ :=
          (hbegin (hcachedAs.of_edits (edits_resume p budget task e w₂))).exists_eq
        rw [hbegun']
        exact hsuspended ▸ resume_veiled hveiled hρ budget hcachedAs

/-- So do several polls. -/
theorem pollTimes_veiled {w w' : World} (h : w.Veiled G ρ w') (hρ : ρ.Injective) (budget n : Nat)
    {task : Task} (hcachedAs : (task.pollTimes p budget n w).2.CachedAs G) :
    PollsSame G ρ (task.pollTimes p budget n w) ((task.retoken ρ).pollTimes p budget n w') := by
  match n with
  | 0 => exact ⟨rfl, h⟩
  | 1 => exact poll_veiled h hρ budget hcachedAs
  | n + 2 =>
    have hpoll (hpolled : (task.poll p budget w).2.CachedAs G) := poll_veiled h hρ budget hpolled
    rw [pollTimes] at hcachedAs ⊢
    rw [pollTimes]
    generalize task.poll p budget w = polled at hcachedAs hpoll ⊢
    generalize (task.retoken ρ).poll p budget w' = polled' at hpoll ⊢
    obtain ⟨poll, w₁⟩ := polled
    cases poll with
    | ready r =>
      obtain ⟨w₁', rfl, hveiled⟩ := (hpoll hcachedAs).exists_eq
      exact ⟨rfl, hveiled⟩
    | pending woken task₁ =>
      have hrest := (course_pollTimes (p := p) budget (n + 1) task₁ w₁).edits
      obtain ⟨w₁', rfl, hveiled⟩ := (hpoll (hcachedAs.of_edits hrest)).exists_eq
      exact pollTimes_veiled hveiled hρ budget (n + 1) hcachedAs

theorem run_veiled (h : w.Veiled G ρ w') (hρ : ρ.Injective) (budget polls : Nat) {task : Task}
    (hcachedAs : (task.run p budget polls w).2.CachedAs G) :
    PollsSame G ρ (task.run p budget polls w) ((task.retoken ρ).run p budget polls w') := by
  induction polls generalizing task w w' with
  | zero => exact ⟨rfl, h⟩
  | succ polls ih =>
    have hpoll (hpolled : (task.poll p budget w).2.CachedAs G) := poll_veiled h hρ budget hpolled
    rw [run] at hcachedAs ⊢
    rw [run]
    generalize task.poll p budget w = polled at hcachedAs hpoll ⊢
    generalize (task.retoken ρ).poll p budget w' = polled' at hpoll ⊢
    obtain ⟨poll, w₁⟩ := polled
    cases poll with
    | ready r =>
      obtain ⟨w₁', rfl, hveiled⟩ := (hpoll hcachedAs).exists_eq
      exact ⟨rfl, hveiled⟩
    | pending woken task₁ =>
      cases woken with
      | false =>
        obtain ⟨w₁', rfl, hveiled⟩ := (hpoll hcachedAs).exists_eq
        exact ⟨rfl, hveiled⟩
      | true =>
        have hrest := (course_run (p := p) budget polls task₁ w₁).edits
        obtain ⟨w₁', rfl, hveiled⟩ := (hpoll (hcachedAs.of_edits hrest)).exists_eq
        exact ih hveiled hcachedAs

theorem drop_veiled (h : w.Veiled G ρ w') (task : Task) :
    (task.drop w).Veiled G ρ ((task.retoken ρ).drop w') :=
  h.map task.drop fun v cs C J => task.drop_veil v cs C J

end Task

end RedGreen
