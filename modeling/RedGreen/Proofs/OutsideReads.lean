import RedGreen.Proofs.HiddenCaches
import RedGreen.Proofs.TokenNumbers

set_option autoImplicit false

/-! # Reads from outside leave no trace

A client can look at a system without taking part: it reads inputs without recording them, and asks for
the active stack, the slots, their descriptions and their stamps (`Step.Looks`). All that this makes is
caches, for identities that are read for the first time, and tokens, one for each request. So a session
that was looked at differs from what it would be otherwise in its caches, in the numbers of the tokens
that are made later, and in what the log was told (`Session.Veiled`). No step tells the difference, as long
as the identities are used with the types with which they were read. A read with other types does leave
a trace: it is the first use of the identity, and later uses with its own types are refused. -/

namespace RedGreen

open Evaluation

variable {p : Program} {G : QueryId → Option Cache}

/-! ## Things kept by name -/

namespace Named

variable {α β : Type}

/-- The things by the same names with something done to each. -/
def map (f : α → β) (n : Named α) : Named β := ⟨n.entries.map fun entry => (entry.1, f entry.2)⟩

theorem get?_map (f : α → β) (n : Named α) (name : String) :
    (n.map f).get? name = (n.get? name).map f := by
  obtain ⟨entries⟩ := n
  simp only [get?, map]
  induction entries with
  | nil => rfl
  | cons entry entries ih =>
    obtain ⟨key, a⟩ := entry
    simp only [List.map_cons, List.lookup_cons]
    cases name == key
    · exact ih
    · rfl

theorem map_eq_self {f : α → α} {n : Named α} (h : ∀ entry ∈ n.entries, f entry.2 = entry.2) :
    n.map f = n := by
  refine congrArg Named.mk ((List.map_congr_left fun entry hentry => ?_).trans (List.map_id _))
  rw [h entry hentry]
  rfl

theorem erase_map (f : α → β) (n : Named α) (name : String) :
    (n.map f).erase name = (n.erase name).map f := by
  simp [erase, map, List.filter_map, Function.comp_def]

theorem insert_map (f : α → β) (n : Named α) (name : String) (a : α) :
    (n.map f).insert name (f a) = (n.insert name a).map f := by
  simp only [insert, erase_map]
  rfl

end Named

/-! ## Looking at slots -/

namespace World.Veiled

variable {ρ : Token → Token} {w w' : World}

theorem viewSlot (h : w.Veiled G ρ w') (query : QueryId) (key : Key) :
    Session.viewSlot w' query key = Session.viewSlot w query key := by
  simp only [Session.viewSlot, h.find?, h.slots]

theorem viewDeps (h : w.Veiled G ρ w') (query : QueryId) (keys : List Key) :
    Session.viewDeps w' query keys = Session.viewDeps w query keys := by
  have hfind : w'.find? query = w.find? query := funext fun key => h.find?
  simp only [Session.viewDeps, System.changedAt, System.verifiedAt, hfind, h.slots]

end World.Veiled

/-! ## Sessions -/

/-- The number of a token if some more tokens were made before those from a number on. -/
def laterBy (n d t : Nat) : Nat := if t < n then t else t + d

theorem laterBy_injective (n d : Nat) : (laterBy n d).Injective := by
  intro t t' h
  unfold laterBy at h
  split at h <;> split at h <;> omega

namespace Session

variable {n d : Nat} {s s' : Session}

/-- The session with another world, if some more tokens were made before those from a number on. -/
def veil (n d : Nat) (w : World) (s : Session) : Session :=
  { s with
    world := w
    tokens := s.tokens.map (laterBy n d)
    tokenCount := s.tokenCount + d
    tasks := s.tasks.map (Task.retoken (laterBy n d)) }

/-- The second session differs from the first one in caches, in what the log was told, and in that some
    more tokens were made. -/
structure Veiled (G : QueryId → Option Cache) (n d : Nat) (s s' : Session) : Prop where
  rest : s' = s.veil n d s'.world
  world : s.world.Veiled G (laterBy n d) s'.world
  past : n ≤ s.tokenCount

/-- An answer is the same, and the sessions differ as little as before. -/
structure Same (G : QueryId → Option Cache) (n d : Nat) (out out' : Answer × Session) : Prop where
  same : out'.1 = out.1
  veiled : out.2.Veiled G n d out'.2

theorem tokenFor_veil (hpast : n ≤ s.tokenCount) (w : World) (name : Option String) :
    (s.veil n d w).tokenFor name =
      (laterBy n d (s.tokenFor name).1, (s.tokenFor name).2.veil n d w) := by
  have hnew : laterBy n d s.tokenCount = s.tokenCount + d := if_neg (Nat.not_lt.2 hpast)
  have hsucc : s.tokenCount + d + 1 = s.tokenCount + 1 + d := by omega
  cases name with
  | none => simp [tokenFor, newToken, veil, hnew, hsucc]
  | some name =>
    have hget : (s.veil n d w).tokens.get? name = (s.tokens.get? name).map (laterBy n d) :=
      Named.get?_map _ _ _
    simp only [tokenFor, hget]
    cases s.tokens.get? name with
    | some token => rfl
    | none =>
      simp only [newToken, veil, Option.map_none, ← hsucc, ← hnew, Named.insert_map]

theorem past_tokenFor (hpast : n ≤ s.tokenCount) (name : Option String) :
    n ≤ (s.tokenFor name).2.tokenCount := by
  unfold tokenFor
  split
  · exact Nat.le_succ_of_le hpast
  · split
    · exact hpast
    · exact Nat.le_succ_of_le hpast

/-! ## What a step does in both sessions -/

section

variable {w w₀ : World} {out out' : Poll × World} (hworld : s.world.Veiled G (laterBy n d) w)
  (hpast : n ≤ s.tokenCount)

theorem Same.of_world {w w' : World} (hworld : w.Veiled G (laterBy n d) w') (hpast : n ≤ s.tokenCount)
    (answer : Answer) :
    Same G n d (answer, { s with world := w }) (answer, { s.veil n d w₀ with world := w' }) :=
  ⟨rfl, rfl, hworld, hpast⟩

theorem Same.answering {α : Type} {out out' : Except QueryError α × World}
    (h : World.Same G (laterBy n d) out out') (hpast : n ≤ s.tokenCount) (answer : α → Answer) :
    Same G n d (s.answering answer out) ((s.veil n d w₀).answering answer out') := by
  obtain ⟨result, w⟩ := out
  obtain ⟨w', rfl, hworld⟩ := h.exists_eq
  exact .of_world hworld hpast _

theorem get?_tasks_veil (s : Session) (w : World) (name : String) :
    (s.veil n d w).tasks.get? name = (s.tasks.get? name).map (Task.retoken (laterBy n d)) :=
  Named.get?_map _ _ _

theorem Same.afterPoll (h : Task.PollsSame G (laterBy n d) out out') (hpast : n ≤ s.tokenCount)
    (name : String) :
    Same G n d (s.afterPoll name out) ((s.veil n d w₀).afterPoll name out') := by
  obtain ⟨poll, w⟩ := out
  obtain ⟨w', rfl, hworld⟩ := h.exists_eq
  cases poll with
  | ready r =>
    refine ⟨rfl, ?_, hworld, hpast⟩
    simp only [Session.afterPoll, Poll.retoken, veil, Named.erase_map]
  | pending woken task =>
    refine ⟨rfl, ?_, hworld, hpast⟩
    simp only [Session.afterPoll, Poll.retoken, veil, Named.insert_map]

include hworld hpast

theorem veiled_dropTask (name : String) :
    (s.dropTask name).Veiled G n d ((s.veil n d w).dropTask name) := by
  unfold dropTask
  rw [get?_tasks_veil]
  cases s.tasks.get? name with
  | none => exact ⟨rfl, hworld, hpast⟩
  | some task =>
    refine ⟨?_, Task.drop_veiled hworld task, hpast⟩
    simp only [veil, Named.erase_map, Option.map_some]

theorem veiled_dropGuard (name : String) :
    (s.dropGuard name).Veiled G n d ((s.veil n d w).dropGuard name) := by
  have hget : (s.veil n d w).guards.get? name = s.guards.get? name := rfl
  unfold dropGuard
  rw [hget]
  cases s.guards.get? name with
  | none => exact ⟨rfl, hworld, hpast⟩
  | some slot =>
    exact ⟨rfl, hworld.map (World.leave · slot) fun v cs C J => v.leave_veil cs C J slot, hpast⟩

theorem same_perform {limits : Limits} {request : Request} {name : Option String}
    (hcachedAs : (s.step p limits (.perform request name)).2.world.CachedAs G) :
    Same G n d (s.step p limits (.perform request name))
      ((s.veil n d w).step p limits (.perform request name)) := by
  rw [world_perform] at hcachedAs
  have hrun : (Task.run p limits.steps limits.polls { request, token := (s.tokenFor name).1 }
      s.world).2.CachedAs G := hcachedAs.of_edits (p := p) (Poll.edits_left (.refl _))
  have hsame := Task.run_veiled hworld (laterBy_injective n d) limits.steps limits.polls hrun
  have hpast := past_tokenFor hpast name
  simp only [step, tokenFor_veil ‹n ≤ s.tokenCount›, world_tokenFor]
  simp only [Task.retoken] at hsame
  have hworld' : ((s.tokenFor name).2.veil n d w).world = w := rfl
  rw [hworld']
  generalize Task.run p limits.steps limits.polls _ s.world = out at hsame ⊢
  obtain ⟨poll, w₁⟩ := out
  obtain ⟨w₁', hout', hworld⟩ := hsame.exists_eq
  rw [hout']
  cases poll with
  | ready r => exact .of_world hworld hpast _
  | pending woken task => exact .of_world (Task.drop_veiled hworld task) hpast _

theorem same_poll {limits : Limits} {name : String} {times : Nat}
    (hcachedAs : (s.step p limits (.poll name times)).2.world.CachedAs G) :
    Same G n d (s.step p limits (.poll name times))
      ((s.veil n d w).step p limits (.poll name times)) := by
  simp only [step, get?_tasks_veil] at hcachedAs ⊢
  cases hfound : s.tasks.get? name with
  | none => exact ⟨rfl, rfl, hworld, hpast⟩
  | some task =>
    simp only [hfound, world_afterPoll] at hcachedAs
    exact .afterPoll (Task.pollTimes_veiled hworld (laterBy_injective n d) _ _ hcachedAs) hpast name

theorem same_run {limits : Limits} {name : String}
    (hcachedAs : (s.step p limits (.run name)).2.world.CachedAs G) :
    Same G n d (s.step p limits (.run name)) ((s.veil n d w).step p limits (.run name)) := by
  simp only [step, get?_tasks_veil] at hcachedAs ⊢
  cases hfound : s.tasks.get? name with
  | none => exact ⟨rfl, rfl, hworld, hpast⟩
  | some task =>
    simp only [hfound, world_afterPoll] at hcachedAs
    exact .afterPoll (Task.run_veiled hworld (laterBy_injective n d) _ _ hcachedAs) hpast name

theorem same_spawn (limits : Limits) (name : String) (request : Request) (token : Option String) :
    Same G n d (s.step p limits (.spawn name request token))
      ((s.veil n d w).step p limits (.spawn name request token)) := by
  obtain ⟨hrest, hworld, hpast⟩ := veiled_dropTask hworld hpast name
  simp only [step]
  rw [hrest, tokenFor_veil hpast]
  refine ⟨rfl, ?_, ?_, past_tokenFor hpast token⟩
  · simp only [veil, ← Named.insert_map]
    rfl
  · show ((s.dropTask name).tokenFor token).2.world.Veiled G _ ((s.veil n d w).dropTask name).world
    rwa [world_tokenFor]

theorem same_enter (limits : Limits) (name : String) (slot : SlotId) :
    Same G n d (s.step p limits (.enter name slot))
      ((s.veil n d w).step p limits (.enter name slot)) := by
  have henter := hworld.pair (World.enter · slot) fun v cs C J => v.enter_veil cs C J slot
  have hworld' : (s.veil n d w).world = w := rfl
  simp only [step, hworld']
  generalize s.world.enter slot = entered at henter ⊢
  obtain ⟨entered, w₁⟩ := entered
  obtain ⟨w₁', hentered', hworld⟩ := henter.exists_eq
  rw [hentered']
  cases entered with
  | error e => exact .of_world hworld hpast _
  | ok u =>
    have hdrop := veiled_dropGuard (s := { s with world := w₁ }) hworld hpast name
    exact ⟨rfl, congrArg (fun s : Session => { s with guards := s.guards.insert name slot }) hdrop.rest,
      hdrop.world, hdrop.past⟩

/-- A step that opens a cache and is answered from what it then sees. -/
theorem same_open {query : QueryId} {keyType : KeyType} {valueType : ValueType}
    (answer : World → Answer) (hanswer : ∀ w w', w.Veiled G (laterBy n d) w' → answer w' = answer w)
    (hcachedAs : (s.world.openCache query keyType valueType).2.CachedAs G) :
    Same G n d
      (s.answering (fun _ => answer (s.world.openCache query keyType valueType).2)
        (s.world.openCache query keyType valueType))
      ((s.veil n d w).answering (fun _ => answer (w.openCache query keyType valueType).2)
        (w.openCache query keyType valueType)) := by
  have hopen := hworld.openCache hcachedAs
  rw [hanswer _ _ hopen.veiled]
  exact .answering hopen hpast _

theorem same_clearCache {limits : Limits} {query : QueryId} {keyType : KeyType} {valueType : ValueType}
    {before : Revision}
    (hcachedAs : (s.step p limits (.clearCache query keyType valueType before)).2.world.CachedAs G) :
    Same G n d (s.step p limits (.clearCache query keyType valueType before))
      ((s.veil n d w).step p limits (.clearCache query keyType valueType before)) := by
  have hopen (hopened : (s.world.openCache query keyType valueType).2.CachedAs G) :=
    hworld.openCache hopened
  have hworld' : (s.veil n d w).world = w := rfl
  simp only [step, hworld'] at hcachedAs ⊢
  generalize s.world.openCache query keyType valueType = opened at hcachedAs hopen ⊢
  obtain ⟨opened, w₁⟩ := opened
  cases opened with
  | error e =>
    obtain ⟨w₁', hopened', hworld⟩ := (hopen hcachedAs).exists_eq
    rw [hopened']
    exact .of_world hworld hpast _
  | ok u =>
    obtain ⟨w₁', hopened', hworld⟩ :=
      (hopen (hcachedAs.of_edits (p := p) (w₁.edits_clearCache query before))).exists_eq
    rw [hopened']
    have hclear := hworld.pair (World.clearCache · query before) fun v cs C J =>
      v.clearCache_veil cs C J query before
    simp only
    rw [hclear.same]
    exact .of_world hclear.veiled hpast _

theorem same_clearSlot {limits : Limits} {query : QueryId} {valueType : ValueType} {key : Key}
    {before : Revision}
    (hcachedAs : (s.step p limits (.clearSlot query valueType key before)).2.world.CachedAs G) :
    Same G n d (s.step p limits (.clearSlot query valueType key before))
      ((s.veil n d w).step p limits (.clearSlot query valueType key before)) := by
  have hopen (hopened : (s.world.openCache query key.type valueType).2.CachedAs G) :=
    hworld.openCache hopened
  have hworld' : (s.veil n d w).world = w := rfl
  simp only [step, hworld'] at hcachedAs ⊢
  generalize s.world.openCache query key.type valueType = opened at hcachedAs hopen ⊢
  obtain ⟨opened, w₁⟩ := opened
  cases opened with
  | error e =>
    obtain ⟨w₁', hopened', hworld⟩ := (hopen hcachedAs).exists_eq
    rw [hopened']
    exact .of_world hworld hpast _
  | ok u =>
    obtain ⟨w₁', hopened', hworld⟩ :=
      (hopen (hcachedAs.of_edits (p := p) (w₁.edits_clearSlot query key before))).exists_eq
    rw [hopened']
    have hclear := hworld.pair (World.clearSlot · query key before) fun v cs C J =>
      v.clearSlot_veil cs C J query key before
    simp only
    rw [hclear.same]
    exact .of_world hclear.veiled hpast _

end

/-- A step is answered the same in both sessions. -/
theorem Veiled.step (h : s.Veiled G n d s') (limits : Limits) (step : Step)
    (hcachedAs : (s.step p limits step).2.world.CachedAs G) :
    Same G n d (s.step p limits step) (s'.step p limits step) := by
  obtain ⟨hrest, hworld, hpast⟩ := h
  generalize s'.world = w at hrest hworld
  subst hrest
  cases step with
  | perform request name => exact same_perform hworld hpast hcachedAs
  | spawn name request token => exact same_spawn hworld hpast limits name request token
  | poll name times => exact same_poll hworld hpast hcachedAs
  | run name => exact same_run hworld hpast hcachedAs
  | drop name =>
    have hdrop := veiled_dropTask hworld hpast name
    refine ⟨?_, hdrop⟩
    simp only [Session.step, get?_tasks_veil, Option.isSome_map]
  | cancel token =>
    simp only [Session.step, tokenFor_veil hpast]
    refine .of_world ?_ (past_tokenFor hpast _) _
    rw [world_tokenFor]
    exact hworld.cancel _
  | lookAtToken token =>
    simp only [Session.step, tokenFor_veil hpast]
    refine ⟨?_, rfl, ?_, past_tokenFor hpast _⟩
    · rw [world_tokenFor]
      simp only [veil, hworld.mem_cancelled (laterBy_injective n d)]
    · rwa [world_tokenFor]
  | enter name slot => exact same_enter hworld hpast limits name slot
  | leave name => exact ⟨rfl, veiled_dropGuard hworld hpast name⟩
  | stack | slots | describe | stamps | debug =>
    refine ⟨?_, rfl, hworld, hpast⟩
    rw [hworld.rest]
    rfl
  | resultsFor slot => exact ⟨rfl, rfl, hworld, hpast⟩
  | takeEvents =>
    have htraced : (s.veil n d w).traced = s.traced := rfl
    simp only [Session.step, htraced]
    split <;> exact ⟨rfl, rfl, hworld, hpast⟩
  | cache query keyType valueType =>
    refine same_open hworld hpast (fun w => .cache query (w.slots.countP (·.query = query)))
      (fun w w' h => by rw [h.slots]) hcachedAs
  | clearCache query keyType valueType before => exact same_clearCache hworld hpast hcachedAs
  | clearSlot query valueType key before => exact same_clearSlot hworld hpast hcachedAs
  | makeInput query valueType key => exact .answering (hworld.slotFor hcachedAs) hpast _
  | inspect query valueType key =>
    exact same_open hworld hpast (fun w => viewSlot w query key)
      (fun w w' h => h.viewSlot query key) hcachedAs
  | gatherDeps query keyType valueType keys =>
    exact same_open hworld hpast (fun w => viewDeps w query keys)
      (fun w w' h => h.viewDeps query keys) hcachedAs

/-! ## Reports -/

/-- A report without what the log was told. -/
def Report.unlogged (r : Report) : Report := { r with logs := [] }

/-- A report tells the same of both sessions, but for the log. -/
theorem Veiled.report (h : s.Veiled G n d s') (limits : Limits) (step : Step)
    (hcachedAs : (s.report p limits step).2.world.CachedAs G) :
    (s'.report p limits step).1.unlogged = (s.report p limits step).1.unlogged ∧
      (s.report p limits step).2.Veiled G n d (s'.report p limits step).2 := by
  obtain ⟨hanswer, hrest, hworld, hpast⟩ := h.step limits step hcachedAs
  obtain ⟨hevents, hruns⟩ := hworld.told
  constructor
  · simp only [Session.report, Report.unlogged, hanswer, hevents, hruns, hworld.revision]
  · refine ⟨?_, ⟨?_, hworld.cancelled, ⟨rfl, rfl⟩, hworld.caches, hworld.cachedAs⟩, hpast⟩
    · have hcollector : (s'.step p limits step).2.collector = (s.step p limits step).2.collector :=
        congrArg (fun s => s.collector) hrest
      simp only [Session.report, hevents, hcollector]
      rw [hrest]
      rfl
    · have hrest := hworld.rest
      simp only [Session.report]
      rw [hrest]
      simp [World.veil]

/-- So do all reports of a run. -/
theorem Veiled.reports (h : s.Veiled G n d s') (limits : Limits) (steps : List Step)
    (hcachedAs : (s.after p limits steps).world.CachedAs G) :
    (s'.reports p limits steps).map Report.unlogged =
      (s.reports p limits steps).map Report.unlogged := by
  induction steps generalizing s s' with
  | nil => rfl
  | cons step steps ih =>
    have hlater := continues_after (p := p) limits (s.report p limits step).2 steps
    obtain ⟨hreport, hveiled⟩ := h.report limits step (hcachedAs.of_continues hlater)
    simp only [Session.reports, List.map_cons, hreport, ih hveiled hcachedAs]

end Session

/-! ## Looking from outside -/

/-- A step looks from outside: it reads an input, or asks for the active stack, the slots, the description
    of a slot, its stamps, or the text of the system. -/
inductive Step.Looks : Step → Prop
  | reads (query : QueryId) (valueType : ValueType) (key : Key) :
    Looks (.perform (.read query valueType key) none)
  | stack : Looks .stack
  | slots : Looks .slots
  | describe (slot : SlotId) : Looks (.describe slot)
  | stamps (query : QueryId) (key : Key) : Looks (.stamps query key)
  | debug : Looks .debug

/-- The second world may have more caches, and the log may have been told something. -/
structure World.Glanced (w w' : World) : Prop where
  rest : w' = { w.setCaches w'.caches with journal := w'.journal }
  told : w'.journal.events = w.journal.events

namespace World

theorem Glanced.refl (w : World) : w.Glanced w := ⟨rfl, rfl⟩

theorem glanced_openCache (w : World) (query : QueryId) (keyType : KeyType)
    (valueType : ValueType) : w.Glanced (w.openCache query keyType valueType).2 := by
  unfold World.openCache
  split
  · split <;> exact .refl w
  · exact ⟨rfl, by simp [log, note, setCaches, Journal.events]⟩

/-- An untracked read makes a cache at most. -/
theorem glanced_inputValue (w : World) (query : QueryId) (valueType : ValueType) (key : Key) :
    w.Glanced (w.inputValue query valueType key).2 := by
  have hopen := w.glanced_openCache query key.type valueType
  unfold World.inputValue
  generalize w.openCache query key.type valueType = opened at hopen
  obtain ⟨opened, w₁⟩ := opened
  cases opened with
  | error e => exact hopen
  | ok u =>
    simp only
    split <;> exact hopen

/-- A request that reads from outside makes a cache at most. -/
theorem glanced_read (w : World) (budget polls : Nat) (query : QueryId) (valueType : ValueType)
    (key : Key) (t : Token) :
    w.Glanced (Poll.left
      (Task.run p budget polls { request := .read query valueType key, token := t } w)) := by
  cases polls with
  | zero => exact .refl w
  | succ polls =>
    rw [Task.run_of_answered rfl rfl rfl]
    exact w.glanced_inputValue query valueType key

end World

namespace Session

variable {s s' : Session}

/-- The second session may have more caches and has made more tokens; nothing else is another one. -/
structure Glanced (s s' : Session) : Prop where
  rest : s' = { s with world := s.world.setCaches s'.world.caches, tokenCount := s'.tokenCount }
  tokenCount : s.tokenCount ≤ s'.tokenCount

theorem Glanced.refl (s : Session) : s.Glanced s := ⟨rfl, Nat.le_refl _⟩

theorem Glanced.trans {s'' : Session} (h : s.Glanced s') (h' : s'.Glanced s'') : s.Glanced s'' := by
  refine ⟨?_, Nat.le_trans h.tokenCount h'.tokenCount⟩
  have hrest := h'.rest
  rw [h.rest] at hrest
  exact hrest

/-- Whatever is looked at from outside, hardly anything is another one afterwards. -/
theorem glanced_report (limits : Limits) (hjournal : s.world.journal = []) {step : Step}
    (h : step.Looks) : s.Glanced (s.report p limits step).2 := by
  obtain ⟨m, hm, w, hworld, hstep⟩ : ∃ m, s.tokenCount ≤ m ∧ ∃ w, s.world.Glanced w ∧
      (s.step p limits step).2 = { s with world := w, tokenCount := m } := by
    cases h with
    | reads query valueType key =>
      have hread := s.world.glanced_read (p := p) limits.steps limits.polls query valueType key
        s.tokenCount
      refine ⟨_, Nat.le_succ _, _, hread, ?_⟩
      simp only [step, tokenFor, newToken]
      generalize Task.run p limits.steps limits.polls _ s.world = out
      obtain ⟨poll, w⟩ := out
      cases poll <;> rfl
    | stack | slots | describe | stamps | debug => exact ⟨_, Nat.le_refl _, _, .refl _, rfl⟩
  obtain ⟨hrest, htold⟩ := hworld
  have hevents : w.journal.events = [] := by rw [htold, hjournal]; rfl
  refine ⟨?_, by simpa only [report, hstep] using hm⟩
  simp only [report, hstep, hevents]
  rw [hrest]
  simp only [World.setCaches, hjournal]
  rfl

theorem glanced_after (limits : Limits) (hjournal : s.world.journal = []) {looks : List Step}
    (hlooks : ∀ step ∈ looks, step.Looks) : s.Glanced (s.after p limits looks) := by
  induction looks generalizing s with
  | nil => exact .refl s
  | cons step looks ih =>
    obtain ⟨hstep, hlooks⟩ := List.forall_mem_cons.1 hlooks
    exact (glanced_report limits hjournal hstep).trans (ih rfl hlooks)

theorem journal_after (limits : Limits) (hjournal : s.world.journal = []) (steps : List Step) :
    (s.after p limits steps).world.journal = [] := by
  induction steps generalizing s with
  | nil => exact hjournal
  | cons step steps ih => exact ih rfl

/-- A session and what it is after it was looked at go on alike. -/
theorem Glanced.veiled (h : s.Glanced s') (hs : s.Numbered) (hcontinues : s.world.Continues s'.world)
    (hcachedAs : s'.world.CachedAs G) : ∃ d, s.Veiled G s.tokenCount d s' := by
  obtain ⟨hrest, hcount⟩ := h
  obtain ⟨d, hd⟩ := Nat.exists_eq_add_of_le hcount
  have hworld : s'.world = s.world.setCaches s'.world.caches := congrArg (fun s => s.world) hrest
  -- the tokens that were made before keep their numbers
  have hsame {t : Token} (ht : t < s.tokenCount) : laterBy s.tokenCount d t = t := if_pos ht
  have htokens : s.tokens.map (laterBy s.tokenCount d) = s.tokens :=
    Named.map_eq_self fun entry hentry => hsame (hs.tokens entry hentry)
  have htasks : s.tasks.map (Task.retoken (laterBy s.tokenCount d)) = s.tasks :=
    Named.map_eq_self fun entry hentry => by rw [Task.retoken, hsame (hs.tasks entry hentry)]
  have hcancelled : s.world.cancelled.map (laterBy s.tokenCount d) = s.world.cancelled :=
    (List.map_congr_left fun t ht => hsame (hs.cancelled t ht)).trans (List.map_id _)
  refine ⟨d, ?_, ⟨?_, ?_, ?_, fun _ _ hcache => hcontinues.cache? hcache, hcachedAs⟩, Nat.le_refl _⟩
  · simp only [veil, htokens, htasks, ← hd]
    rw [hrest]
  · rw [hworld]
    simp [World.veil, World.setCaches]
  · rw [hcancelled, hworld]
    rfl
  · rw [hworld]
    exact ⟨rfl, rfl⟩

/-- Reading from outside leaves no trace. Take any program, any limits of polls and any steps of a client,
    and let the client look at the system then as often as it likes: untracked reads of inputs, with any
    identity, types and key, and looks at the stack, the slots, their descriptions and their stamps, whether
    they succeed or not. Then all later steps are answered as they are without the looks, at the same
    revision, the same bodies run, and the tracer is told the same. The one condition is that no identity
    gets a cache by the looks for other types than those for which it has one in the end without them. -/
theorem reads_from_outside_leave_no_trace (p : Program) (limits : Limits) (memoize traced : Bool)
    (before looks later : List Step) (hlooks : ∀ step ∈ looks, step.Looks)
    (hcaches : ∀ cache ∈ ((fresh memoize traced).after p limits (before ++ looks)).world.caches,
      ∀ cache' ∈ ((fresh memoize traced).after p limits (before ++ later)).world.caches,
        cache.query = cache'.query → cache = cache') :
    (((fresh memoize traced).after p limits (before ++ looks)).reports p limits later).map
        Report.unlogged =
      (((fresh memoize traced).after p limits before).reports p limits later).map Report.unlogged := by
  have happend (steps : List Step) : (fresh memoize traced).after p limits (before ++ steps) =
      ((fresh memoize traced).after p limits before).after p limits steps := List.foldl_append
  rw [happend, happend] at hcaches
  rw [happend]
  have hnumbered := numbered_after (p := p) limits (numbered_fresh memoize traced) before
  have hjournal := journal_after (p := p) limits (s := fresh memoize traced) rfl before
  generalize (fresh memoize traced).after p limits before = s at hcaches hnumbered hjournal ⊢
  have hglanced := glanced_after (p := p) limits hjournal hlooks
  have hcontinues := continues_after (p := p) limits s looks
  obtain ⟨G, hlooked, hlater⟩ := World.exists_cachedAs hcaches
  obtain ⟨d, hveiled⟩ := hglanced.veiled hnumbered hcontinues hlooked
  exact hveiled.reports limits later hlater

/-- An input is written. -/
def earlierSteps : List Step := [.perform (.write .blocking ⟨"x"⟩ .unit (.int 5)) none]

/-- The input is read, also with a wrong type, and so is a query; then the client looks around, also for
    slots that there are not. -/
def lookingSteps : List Step :=
  [.perform (.read ⟨"x"⟩ .int .unit) none, .perform (.read ⟨"x"⟩ .str .unit) none,
    .perform (.read ⟨"thrice"⟩ .int .unit) none, .stack, .slots, .describe 7, .stamps ⟨"y"⟩ (.int 1)]

/-- A query is parked, an input is written meanwhile, and a token is cancelled. -/
def laterSteps : List Step :=
  [.spawn "early" (.query .free "thrice" .unit) none, .poll "early" 1,
    .perform (.write .waiting ⟨"x"⟩ .unit (.int 7)) none, .cancel "t",
    .perform (.query .blocking "twice" .unit) (some "t"), .poll "early" 1]

/-- The looks make a cache and three tokens, and then all goes on as it would have without them. -/
theorem reads_from_outside_leave_no_trace_thrice :
    (∀ step ∈ lookingSteps, step.Looks) ∧
    (((fresh true true).after thrice ⟨40, 3⟩ earlierSteps).tokenCount = 1 ∧
      ((fresh true true).after thrice ⟨40, 3⟩ earlierSteps).world.caches.length = 1) ∧
    (((fresh true true).after thrice ⟨40, 3⟩ (earlierSteps ++ lookingSteps)).tokenCount = 4 ∧
      ((fresh true true).after thrice ⟨40, 3⟩ (earlierSteps ++ lookingSteps)).world.caches.length = 2) ∧
    (((fresh true true).after thrice ⟨40, 3⟩ (earlierSteps ++ lookingSteps)).reports thrice ⟨40, 3⟩
        laterSteps).map Report.unlogged =
      (((fresh true true).after thrice ⟨40, 3⟩ earlierSteps).reports thrice ⟨40, 3⟩ laterSteps).map
        Report.unlogged := by
  have hlooks : ∀ step ∈ lookingSteps, step.Looks := by
    simp only [lookingSteps, List.forall_mem_cons]
    exact ⟨.reads _ _ _, .reads _ _ _, .reads _ _ _, .stack, .slots, .describe _, .stamps _ _,
      fun step h => absurd h List.not_mem_nil⟩
  exact ⟨hlooks, by decide +kernel, by decide +kernel,
    reads_from_outside_leave_no_trace thrice ⟨40, 3⟩ true true earlierSteps lookingSteps laterSteps hlooks
      (by decide +kernel)⟩

/-- A read that is the first to use an identity fixes its types, although nothing was written under it: an
    input of another type is refused afterwards. -/
theorem first_read_is_not_free : ¬ ∀ (p : Program) (limits : Limits) (memoize traced : Bool)
    (before looks later : List Step), (∀ step ∈ looks, step.Looks) →
      (((fresh memoize traced).after p limits (before ++ looks)).reports p limits later).map
          Report.answer =
        (((fresh memoize traced).after p limits before).reports p limits later).map Report.answer := by
  intro h
  have hsame := h thrice ⟨40, 3⟩ true false [] [.perform (.read ⟨"x"⟩ .int .unit) none]
    [.perform (.write .blocking ⟨"x"⟩ .unit (.str "a")) none]
    (List.forall_mem_cons.2 ⟨.reads _ _ _, fun step h => absurd h List.not_mem_nil⟩)
  have hlooked : (((fresh true false).after thrice ⟨40, 3⟩
      ([] ++ [.perform (.read ⟨"x"⟩ .int .unit) none])).reports thrice ⟨40, 3⟩
        [.perform (.write .blocking ⟨"x"⟩ .unit (.str "a")) none]).map Report.answer =
      [.failed (.kindMismatch ⟨"x"⟩)] := rfl
  have hplain : (((fresh true false).after thrice ⟨40, 3⟩ []).reports thrice ⟨40, 3⟩
        [.perform (.write .blocking ⟨"x"⟩ .unit (.str "a")) none]).map Report.answer =
      [.reply (.revision 2)] := rfl
  rw [hlooked, hplain] at hsame
  cases hsame

end Session

end RedGreen
